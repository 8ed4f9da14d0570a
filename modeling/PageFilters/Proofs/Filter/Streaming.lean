import PageFilters.Proofs.Filter.ImagePriority

/-!
A chain that works on pages while they are read, with the filter for the main image alone. Each page
becomes what promoting the main image of the complete page makes of it. The invariant ties the page
in progress to the elements that are open and to all that has happened; it holds until an image is
promoted, and from then on nothing but reading changes the page.
-/

namespace PageFilters

variable [UrlLibrary]

namespace Chain

/-- A page in progress, at the node `p`, while no image has been promoted. -/
structure Waiting (x : Document × Chain Builtin) (url : Url) (p : NodeId) (around : List Element)
    (before : List Event) : Prop where
  place : x.1.Place p around
  follows : x.2.Follows url around before
  policy : x.2.policy = Policy.usual
  filter : ∃ f : ImagePriority, x.2.filters = [.inl f] ∧ f.Waits before
  opened : ∀ n, x.2.noscript = some n → n < x.1.size

def Promoted (c : Chain Builtin) : Prop :=
  ∃ f : ImagePriority, c.filters = [.inl f] ∧ 1 ≤ f.promoted

theorem promoted_quiet : Observer.Quiet (observer : Observer (Chain Builtin)) Promoted := by
  have start : ∀ id (d : Document) (c : Chain Builtin), c.Promoted →
      (onStartElement id d c).1 = d ∧ (onStartElement id d c).2.Promoted := by
    rintro id d c ⟨f, single, done⟩
    rw [onStartElement_single single]
    obtain ⟨same, still⟩ := ImagePriority.onStart_promoted id (c.follow d id).context
      ((c.follow d id).page d) done
    exact ⟨congrArg Page.doc same, _, rfl, still⟩
  have stop : ∀ id (d : Document) (c : Chain Builtin), c.Promoted →
      (onEndElement id d c).1 = d ∧ (onEndElement id d c).2.Promoted := by
    rintro id d c ⟨f, single, done⟩
    rw [onEndElement_single single]
    obtain ⟨same, still, _⟩ := ImagePriority.onEnd_keeps id c.context (c.page d) f
    exact ⟨congrArg Page.doc same, _, rfl, still.symm ▸ done⟩
  exact ⟨⟨fun id d c done => (start id d c done).2, fun id d c done => (stop id d c done).2,
    fun _ _ done => done⟩, fun id d c done => (start id d c done).1,
    fun id d c done => (stop id d c done).1⟩

namespace Waiting

variable {x y z : Document × Chain Builtin} {url : Url} {p : NodeId} {around : List Element}
  {before later : List Event} {e : Element} {inside : List (Tree NodeData)}

theorem start (waiting : Waiting x url p around before)
    (skipped : Site.source? url ⟨[], 0, around, before, e, inside⟩ = none)
    (started : y = onStartElement x.1.size (x.1.attachNew p (.element e)) x.2) :
    y.1 = x.1.attachNew p (.element e) ∧
      Waiting y url x.1.size (e :: around) (before ++ [.start e]) ∧
      y.2.noscript = if e.keyword = .noscript ∧ x.2.noscript = none then some x.1.size
        else x.2.noscript := by
  obtain ⟨f, single, waits⟩ := waiting.filter
  have sound := waiting.place.sound
  have container := waiting.place.container
  have place := waiting.place.child e
  have held := Document.element_of_data (Document.data_attachNew sound container (.element e))
  have candidate :=
    ImagePriority.candidate_eq place held waiting.follows waiting.policy waits inside
  obtain ⟨same, waits⟩ := ImagePriority.onStart_waits
    ((x.2.follow (x.1.attachNew p (.element e)) x.1.size).page (x.1.attachNew p (.element e)))
    held waits (candidate.trans skipped)
  have follows := waiting.follows.start held
  rw [onStartElement_single single] at started
  have doc : y.1 = x.1.attachNew p (.element e) := by
    subst started
    exact congrArg Page.doc same
  have noscript : y.2.noscript = if e.keyword = .noscript ∧ x.2.noscript = none then some x.1.size
      else x.2.noscript := by
    subst started
    exact follow_noscript held
  refine ⟨doc, ⟨doc ▸ place, ?_, ?_, ?_, ?_⟩, noscript⟩
  · subst started
    exact ⟨follows.documentUrl, follows.base, follows.baseSeen, follows.noscript⟩
  · subst started
    exact (follow_keeps x.2 _ _).policy.trans waiting.policy
  · subst started
    exact ⟨_, rfl, waits⟩
  · intro n opened
    rw [doc, Document.size_attachNew sound container]
    rw [noscript] at opened
    split at opened
    · cases opened
      exact Nat.lt_succ_self _
    · exact Nat.lt_succ_of_lt (waiting.opened n opened)

theorem promote {src : String} (waiting : Waiting x url p around before)
    (chosen : Site.source? url ⟨[], 0, around, before, e, inside⟩ = some src)
    (started : y = onStartElement x.1.size (x.1.attachNew p (.element e)) x.2) :
    y.2.Promoted ∧ ∃ link, Document.Extends x.1 p [link, x.1.size] y.1 ∧
      y.1.data? link = some (.element (Element.preloading src)) ∧ y.1.children link = [] ∧
      y.1.data? x.1.size = some (.element e.promoted) ∧ y.1.children x.1.size = [] := by
  obtain ⟨f, single, waits⟩ := waiting.filter
  have sound := waiting.place.sound
  have container := waiting.place.container
  have place := waiting.place.child e
  have data := Document.data_attachNew sound container (.element e)
  have held := Document.element_of_data data
  have candidate :=
    ImagePriority.candidate_eq place held waiting.follows waiting.policy waits inside
  let page := (x.2.follow (x.1.attachNew p (.element e)) x.1.size).page
    (x.1.attachNew p (.element e))
  have promotes := ImagePriority.onStart_promotes page held (candidate.trans chosen)
  obtain ⟨link, d', doc, done, placed, rest⟩ := ImagePriority.prioritize_extends page
    (Document.attachNew_extends sound container (.element e)) sound.toLinked container data
    (Document.children_attachNew sound container (.element e)) waits.preloaded src
  rw [← promotes] at doc done
  rw [onStartElement_single single] at started
  subst started doc
  exact ⟨⟨_, rfl, done⟩, link, placed, rest⟩

theorem stop (outer : Waiting x url p around before)
    (inner : Waiting y url x.1.size (e :: around) later) (place : y.1.Place p around)
    (held : y.1.data? x.1.size = some (.element e))
    (opened : y.2.noscript = if e.keyword = .noscript ∧ x.2.noscript = none then some x.1.size
      else x.2.noscript)
    (ended : z = onEndElement x.1.size y.1 y.2) :
    z.1 = y.1 ∧ Waiting z url p around (later ++ [.stop e]) ∧ z.2.noscript = x.2.noscript := by
  obtain ⟨f, single, waits⟩ := inner.filter
  obtain ⟨same, _⟩ := ImagePriority.onEnd_keeps x.1.size y.2.context (y.2.page y.1) f
  have waits := ImagePriority.onEnd_waits y.2.context (y.2.page y.1)
    (Document.element_of_data held) waits
  have follows := inner.follows.stop outer.follows
  have small : x.1.size < y.1.size := Document.lt_size_of_data held
  have closed : (if y.2.noscript = some x.1.size then none else y.2.noscript) = x.2.noscript := by
    rw [opened]
    by_cases opens : e.keyword = .noscript ∧ x.2.noscript = none
    · rw [if_pos opens, if_pos rfl, opens.2]
    · rw [if_neg opens, if_neg]
      intro itself
      exact absurd (outer.opened _ itself) (Nat.lt_irrefl _)
  rw [onEndElement_single single, closed] at ended
  have doc : z.1 = y.1 := by
    subst ended
    exact congrArg Page.doc same
  have noscript : z.2.noscript = x.2.noscript := by
    subst ended
    rfl
  refine ⟨doc, ⟨doc ▸ place, ?_, ?_, ?_, ?_⟩, noscript⟩
  · subst ended
    exact ⟨follows.documentUrl, follows.base, follows.baseSeen, follows.noscript⟩
  · subst ended
    exact inner.policy
  · subst ended
    exact ⟨_, rfl, waits⟩
  · intro n still
    rw [doc]
    exact Nat.lt_trans (outer.opened n (noscript ▸ still)) small

theorem promoted_element {src : String} (waiting : Waiting x url p around before)
    (inside : Outline)
    (chosen : Site.source? url ⟨[], 0, around, before, e, inside.trees⟩ = some src) :
    let started := onStartElement x.1.size (x.1.attachNew p (.element e)) x.2
    let filled := inside.watch observer x.1.size started
    let ended := onEndElement x.1.size filled.1 filled.2
    x.1.Grows p (Site.promoted ⟨[], 0, around, before, e, inside.trees⟩ src) ended.1 ∧
      ended.2.Promoted := by
  intro started filled ended
  obtain ⟨done, link, placed, linkHeld, linkLeaf, held, leaf⟩ := waiting.promote chosen rfl
  have below := inside.watch_grows promoted_quiet done placed.sound
    (Document.isContainer_of_element held)
  have kept := inside.watch_keeps promoted_quiet.toKeeps x.1.size done
  have first := Document.Grows.inside [link] placed below waiting.place.sound.toLinked
    waiting.place.container.lt_size held leaf
  have linkTree : started.1.subtree link =
      .node (.element (Element.preloading src)) [] := by
    rw [placed.sound.subtree_eq, Document.dataAt, linkHeld, Document.forest, linkLeaf]
    rfl
  rw [List.map_singleton, linkTree] at first
  have same : ended.1 = filled.1 := promoted_quiet.ended _ _ _ kept
  rw [same]
  exact ⟨first, promoted_quiet.endElement _ _ _ kept⟩

end Waiting

def Passes (x y : Document × Chain Builtin) (url : Url) (p : NodeId) (around : List Element)
    (before : List Event) (ts : List (Tree NodeData)) : Prop :=
  match promoteFirst? url around before ts with
  | some changed => x.1.Grows p changed y.1 ∧ y.2.Promoted
  | none => x.1.Grows p ts y.1 ∧ Waiting y url p around (before ++ events ts) ∧
      y.2.noscript = x.2.noscript

theorem watch_promoted (o : Outline) {x y : Document × Chain Builtin} {p : NodeId}
    {ts : List (Tree NodeData)} (container : x.1.IsContainer p) (grows : x.1.Grows p ts y.1)
    (done : y.2.Promoted) :
    x.1.Grows p (ts ++ o.trees) (o.watch observer p y).1 ∧ (o.watch observer p y).2.Promoted := by
  have later := o.watch_grows promoted_quiet done grows.sound (grows.isContainer container)
  exact ⟨grows.trans later container.lt_size, o.watch_keeps promoted_quiet.toKeeps p done⟩

theorem Passes.cons {x w y : Document × Chain Builtin} {url : Url} {p : NodeId}
    {around : List Element} {before later : List Event} {t : Tree NodeData}
    {rest : List (Tree NodeData)} (inside : p < x.1.size) (first : x.1.Grows p [t] w.1)
    (noscript : w.2.noscript = x.2.noscript)
    (skips : promoteFirst? url around before (t :: rest) =
      (promoteFirst? url around later rest).map (t :: ·))
    (happens : before ++ events (t :: rest) = later ++ events rest)
    (passes : Passes w y url p around later rest) : Passes x y url p around before (t :: rest) := by
  rw [Passes] at passes
  rw [Passes, skips, happens]
  cases found : promoteFirst? url around later rest with
  | some changed =>
    rw [found] at passes
    exact ⟨first.trans passes.1 inside, passes.2⟩
  | none =>
    rw [found] at passes
    obtain ⟨grows, waiting, same⟩ := passes
    exact ⟨first.trans grows inside, waiting, same.trans noscript⟩

theorem Waiting.element_passes {x y z w : Document × Chain Builtin} {url : Url} {p : NodeId}
    {around : List Element} {before : List Event} {e : Element} {ts : List (Tree NodeData)}
    (waiting : Waiting x url p around before)
    (skipped : Site.source? url ⟨[], 0, around, before, e, ts⟩ = none)
    (started : y = onStartElement x.1.size (x.1.attachNew p (.element e)) x.2)
    (below : Passes y z url x.1.size (e :: around) (before ++ [.start e]) ts)
    (ended : w = onEndElement x.1.size z.1 z.2) (rest : Outline)
    (next : ∀ {later}, Waiting w url p around later →
      Passes w (rest.watch observer p w) url p around later rest.trees) :
    Passes x (rest.watch observer p w) url p around before
      (.node (.element e) ts :: rest.trees) := by
  have sound := waiting.place.sound
  have container := waiting.place.container
  obtain ⟨doc, inner, opened⟩ := waiting.start skipped started
  rw [Passes, doc] at below
  cases found : promoteFirst? url (e :: around) (before ++ [.start e]) ts with
  | some changed =>
    rw [found] at below
    obtain ⟨grows, done⟩ := below
    have same : w.1 = z.1 := ended ▸ promoted_quiet.ended _ _ _ done
    have still : w.2.Promoted := ended ▸ promoted_quiet.endElement _ _ _ done
    have first : x.1.Grows p [.node (.element e) changed] w.1 := by
      rw [same]
      exact Document.attachNew_filled sound container grows
    have later := watch_promoted rest container first still
    rw [Passes, promoteFirst?]
    simp only [skipped, found]
    exact later
  | none =>
    rw [found] at below
    obtain ⟨grows, waits, kept⟩ := below
    have held := grows.data_eq (Document.data_attachNew sound container (.element e))
    have place := (waiting.place.extended
      (Document.attachNew_extends sound container (.element e))).grown grows
    obtain ⟨same, past, noscript⟩ := waiting.stop waits place held (kept.trans opened) ended
    have first : x.1.Grows p [.node (.element e) ts] w.1 := by
      rw [same]
      exact Document.attachNew_filled sound container grows
    refine Passes.cons container.lt_size first noscript ?_ ?_ (next past)
    · rw [promoteFirst?]
      simp only [skipped, found]
      simp
    · rw [events]
      simp

theorem watch_passes (o : Outline) {x : Document × Chain Builtin} {url : Url} {p : NodeId}
    {around : List Element} {before : List Event} (waiting : Waiting x url p around before) :
    Passes x (o.watch observer p x) url p around before o.trees := by
  induction o generalizing x p around before with
  | done =>
    rw [Passes, Outline.trees, promoteFirst?, events, List.append_nil]
    exact ⟨.refl waiting.place.sound p, waiting, rfl⟩
  | ignored what rest ih =>
    have noted : Waiting (x.1, observer.ignored what x.2) url p around before :=
      ⟨waiting.place, ⟨waiting.follows.documentUrl, waiting.follows.base,
        waiting.follows.baseSeen, waiting.follows.noscript⟩, waiting.policy, waiting.filter,
        waiting.opened⟩
    exact ih noted
  | leaf data plain rest ih =>
    have container := waiting.place.container
    have first := Document.attachNew_grows waiting.place.sound container data
    have added : Waiting (x.1.attachNew p data, x.2) url p around before := by
      refine ⟨waiting.place.grown first, waiting.follows, waiting.policy, waiting.filter, ?_⟩
      intro n opened
      rw [Document.size_attachNew waiting.place.sound container]
      exact Nat.lt_succ_of_lt (waiting.opened n opened)
    have other : ∀ e, data ≠ .element e := by
      rintro e rfl
      cases plain
    refine Passes.cons (w := (x.1.attachNew p data, x.2)) container.lt_size first rfl
      (promoteFirst_other other _ _ _ _ _) ?_ (ih added)
    rw [events_other other]
  | element e inside rest ihInside ihRest =>
    cases chosen : Site.source? url ⟨[], 0, around, before, e, inside.trees⟩ with
    | some src =>
      obtain ⟨first, done⟩ := waiting.promoted_element inside chosen
      have later := watch_promoted rest waiting.place.container first done
      rw [Passes, Outline.trees, promoteFirst?]
      simp only [chosen]
      exact later
    | none =>
      obtain ⟨_, inner, _⟩ := waiting.start chosen rfl
      exact waiting.element_passes chosen rfl (ihInside inner) rfl rest ihRest

structure Alone (c : Chain Builtin) : Prop where
  filter : ∃ f : ImagePriority, c.filters = [.inl f]
  policy : c.policy = Policy.usual

theorem alone_kept : Observer.Keeps (observer : Observer (Chain Builtin)) Alone := by
  refine ⟨?_, ?_, fun _ _ alone => ⟨alone.filter, alone.policy⟩⟩
  · rintro id d c ⟨⟨f, single⟩, policy⟩
    change (onStartElement id d c).2.Alone
    rw [onStartElement_single single]
    exact ⟨⟨_, rfl⟩, (follow_keeps c d id).policy.trans policy⟩
  · rintro id d c ⟨⟨f, single⟩, policy⟩
    change (onEndElement id d c).2.Alone
    rw [onEndElement_single single]
    exact ⟨⟨_, rfl⟩, policy⟩

theorem Alone.ended {c : Chain Builtin} (alone : c.Alone) (d : Document) :
    (onEndDocument d c).1 = d ∧ (onEndDocument d c).2.Alone := by
  obtain ⟨f, single⟩ := alone.filter
  rw [onEndDocument_single single]
  exact ⟨rfl, ⟨_, rfl⟩, alone.policy⟩

theorem Alone.begun {c : Chain Builtin} (alone : c.Alone) {url : Url}
    (documentUrl : c.documentUrl = some url) (base : c.base = some url) :
    (onStartDocument .empty c).1 = .empty ∧ (onStartDocument .empty c).2.Alone ∧
      Waiting (onStartDocument .empty c) url Document.root [] [] := by
  obtain ⟨f, single⟩ := alone.filter
  have doc : (onStartDocument .empty c).1 = .empty := by
    rw [onStartDocument_single single]
    exact setOutcome_doc _ _ _
  have place := Document.root_place Document.empty_wellFormed
  refine ⟨doc, ?_, doc.symm ▸ place, ?_, ?_, ?_, ?_⟩
  · rw [onStartDocument_single single]
    exact ⟨⟨_, rfl⟩, alone.policy⟩
  · rw [onStartDocument_single single]
    exact ⟨documentUrl, base, rfl, by simp [after]⟩
  · rw [onStartDocument_single single]
    exact alone.policy
  · rw [onStartDocument_single single]
    exact ⟨_, rfl, rfl, rfl, rfl⟩
  · intro n opened
    rw [onStartDocument_single single] at opened
    cases opened

theorem Alone.observed {c : Chain Builtin} (alone : c.Alone) {url : Url}
    (documentUrl : c.documentUrl = some url) (base : c.base = some url) (text : String) :
    (parseWith observer text c).2.Alone ∧
      (parseWith observer text c).1.tree = promoteMainImage url (PageFilters.parse text).tree := by
  obtain ⟨empty, begun, waiting⟩ := alone.begun documentUrl base
  let read := (Outline.ofText text).watch observer Document.root (onStartDocument .empty c)
  have passes : Passes _ read url Document.root [] [] (Outline.ofText text).trees :=
    watch_passes (Outline.ofText text) waiting
  have kept : read.2.Alone := (Outline.ofText text).watch_keeps alone_kept Document.root begun
  have whole : parseWith observer text c = onEndDocument read.1 read.2 := parseWith_eq _ _ _
  obtain ⟨same, still⟩ := kept.ended read.1
  rw [whole, same, parse_tree, promoteMainImage_eq]
  refine ⟨still, ?_⟩
  rw [Passes, empty] at passes
  cases found : promoteFirst? url [] [] (Outline.ofText text).trees with
  | some changed =>
    rw [found] at passes
    exact passes.1.tree_eq
  | none =>
    rw [found] at passes
    exact passes.1.tree_eq

theorem Alone.parse {c : Chain Builtin} (alone : c.Alone) (url text : String) :
    (c.parse url text).2.Alone ∧
      (c.parse url text).1.map Document.tree =
        match Url.parse url with
        | .error cause => .error (.invalidUrl url cause)
        | .ok documentUrl => .ok (promoteMainImage documentUrl (PageFilters.parse text).tree) := by
  rw [Chain.parse]
  cases Url.parse url with
  | error cause => exact ⟨alone, rfl⟩
  | ok documentUrl =>
    let opened : Chain Builtin :=
      { c.notify (.pageStarted documentUrl.text text.utf8ByteSize c.kinds) with
        documentUrl := some documentUrl, base := some documentUrl }
    have ready : opened.Alone := ⟨alone.filter, alone.policy⟩
    obtain ⟨still, tree⟩ := ready.observed rfl rfl text
    exact ⟨still, congrArg Except.ok tree⟩

/-- The chain after pages, each given by its address and its text. -/
def afterPages (c : Chain Builtin) (pages : List (String × String)) : Chain Builtin :=
  pages.foldl (fun c page => (c.parse page.1 page.2).2) c

theorem Alone.afterPages {c : Chain Builtin} (alone : c.Alone) (pages : List (String × String)) :
    (c.afterPages pages).Alone := by
  induction pages generalizing c with
  | nil => exact alone
  | cons page pages ih => exact ih (alone.parse page.1 page.2).1

/-- Working on a page while it is read comes to the same as promoting the main image of the complete
page, whatever pages came before. -/
theorem tree_eq_promoteMainImage (pages : List (String × String)) (url text : String) :
    let options := ({} : Options).enable .imagePriority
    let c := (Chain.ofOptions Builtin.ofKind options).afterPages pages
    (c.parse url text).1.map Document.tree =
      match Url.parse url with
      | .error cause => .error (.invalidUrl url cause)
      | .ok documentUrl => .ok (promoteMainImage documentUrl (PageFilters.parse text).tree) := by
  have alone : (Chain.ofOptions Builtin.ofKind (({} : Options).enable .imagePriority)).Alone :=
    ⟨⟨{}, rfl⟩, rfl⟩
  exact ((alone.afterPages pages).parse url text).2

end Chain

end PageFilters
