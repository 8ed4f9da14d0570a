import PageFilters.Proofs.Filter.ImagePriority
import PageFilters.Proofs.Filter.Isolation
import PageFilters.Proofs.Filter.PolyfillScripts

/-!
What any chain of the filters that options know makes of a page. Scripts with legacy polyfills go if
the chain removes them, images may be promoted if the chain does that, and nothing else changes,
whatever the chain remembers and whatever the policy is.
-/

namespace PageFilters

def preloads (srcs : List String) : List (Tree NodeData) :=
  srcs.map fun src => .node (.element (Element.preloading src)) []

/-- What the start of an element can make of it: the sources of the links before it, and the element
as it stands then. -/
def Dressed (kinds : List FilterKind) (e : Element) (srcs : List String) (e' : Element) : Prop :=
  (srcs = [] ∧ e' = e) ∨
    (.imagePriority ∈ kinds ∧ e.keyword = .img ∧ ∃ n, e' = ImagePriority.promote^[n] e)

/-- Trees before and after filters of some kinds have worked on them. -/
inductive Filtered (kinds : List FilterKind) :
    List (Tree NodeData) → List (Tree NodeData) → Prop where
  | nil : Filtered kinds [] []
  | leaf {data rest rest'} : data.isContainer = false → Filtered kinds rest rest' →
      Filtered kinds (.node data [] :: rest) (.node data [] :: rest')
  | gone {e inside rest rest'} : .legacyPolyfills ∈ kinds → e.isPolyfillScript = true →
      Filtered kinds rest rest' → Filtered kinds (.node (.element e) inside :: rest) rest'
  | kept {e srcs e' inside inside' rest rest'} :
      ¬ (.legacyPolyfills ∈ kinds ∧ e.isPolyfillScript = true) → Dressed kinds e srcs e' →
      Filtered kinds inside inside' → Filtered kinds rest rest' →
      Filtered kinds (.node (.element e) inside :: rest)
        (preloads srcs ++ .node (.element e') inside' :: rest')

theorem Filtered.append {kinds : List FilterKind} {ts ts' us us' : List (Tree NodeData)}
    (first : Filtered kinds ts ts') (second : Filtered kinds us us') :
    Filtered kinds (ts ++ us) (ts' ++ us') := by
  induction first with
  | nil => exact second
  | leaf plain _ ih => exact .leaf plain ih
  | gone strips polyfill _ ih => exact .gone strips polyfill ih
  | kept stays dressed inside _ _ ih =>
    rw [List.append_assoc, List.cons_append]
    exact .kept stays dressed inside ih

namespace ImagePriority

theorem name_promote (e : Element) : (promote e).name = e.name := by
  rw [promote_eq]
  rfl

theorem name_promotes (n : Nat) (e : Element) : (promote^[n] e).name = e.name := by
  induction n generalizing e with
  | zero => rfl
  | succ n ih => rw [Function.iterate_succ_apply, ih, name_promote]

end ImagePriority

namespace Document

variable {d d' d'' : Document} {p id : NodeId} {srcs : List String} {e : Element}

def Stands (d : Document) (p id : NodeId) (srcs : List String) (e : Element) (d' : Document) :
    Prop :=
  ∃ links, Extends d p (links ++ [id]) d' ∧
    List.Forall₂ (fun link src =>
      d'.data? link = some (.element (Element.preloading src)) ∧ d'.children link = [])
      links srcs ∧
    d'.data? id = some (.element e) ∧ d'.children id = []

theorem attachNew_stands (sound : d.WellFormed) (container : d.IsContainer p) (e : Element) :
    Stands d p d.size [] e (d.attachNew p (.element e)) :=
  ⟨[], attachNew_extends sound container (.element e), .nil,
    data_attachNew sound container (.element e), children_attachNew sound container (.element e)⟩

namespace Stands

theorem sound (stands : Stands d p id srcs e d') : d'.WellFormed := by
  obtain ⟨_, grown, _⟩ := stands
  exact grown.sound

theorem data (stands : Stands d p id srcs e d') : d'.data? id = some (.element e) := by
  obtain ⟨_, _, _, held, _⟩ := stands
  exact held

theorem isContainer (stands : Stands d p id srcs e d') : d'.IsContainer id :=
  isContainer_of_element stands.data

theorem below {ts : List (Tree NodeData)} (stands : Stands d p id [] e d') (linked : d.Linked)
    (inside : p < d.size) (grows : Grows d' id ts d'') : Extends d p [id] d'' := by
  obtain ⟨links, grown, each, _⟩ := stands
  obtain ⟨_, deeper, _⟩ := grows
  cases each
  exact grown.below deeper (grown.fresh linked inside (List.mem_singleton.mpr rfl))

theorem modify (stands : Stands d p id srcs e d') (linked : d.Linked) (inside : p < d.size)
    (f : Element → Element) : Stands d p id srcs (f e) (d'.modifyElement id f) := by
  obtain ⟨links, grown, each, held, leaf⟩ := stands
  have last : id ∈ links ++ [id] := List.mem_append_right links (List.mem_singleton.mpr rfl)
  have once := grown.sound.listed_once p
  rw [grown.children p inside, if_pos rfl] at once
  have apart : id ∉ links := fun early =>
    List.disjoint_of_nodup_append (List.Nodup.of_append_right once) early
      (List.mem_singleton.mpr rfl)
  have shape := fun x => (sameShape_modifyElement d' id x f).2.1
  refine ⟨links, grown.modify (grown.fresh linked inside last) f, ?_, ?_, ?_⟩
  · have others : ∀ link ∈ links, link ≠ id := fun link member same => apart (same ▸ member)
    refine ((List.forall₂_and_left ..).mpr ⟨others, each⟩).imp ?_
    rintro link src ⟨other, linkHeld, linkLeaf⟩
    rw [data_modifyElement, if_neg other, shape]
    exact ⟨linkHeld, linkLeaf⟩
  · rw [data_modifyElement, if_pos rfl, held]
    rfl
  · rw [shape, leaf]

theorem link (stands : Stands d p id srcs e d') (linked : d.Linked) (container : d.IsContainer p)
    (src : String) :
    ∃ d'', (d'.create (.element (Element.preloading src))).2.insertBefore? id d'.size =
        some d'' ∧
      Stands d p id (srcs ++ [src]) e d'' := by
  obtain ⟨links, grown, each, held, leaf⟩ := stands
  obtain ⟨d'', done, placed, linkHeld, linkLeaf, others⟩ :=
    grown.insertBefore container (.element (Element.preloading src))
  have kept : ∀ x ∈ links ++ [id], d''.data? x = d'.data? x ∧ d''.children x = d'.children x := by
    intro x member
    exact others x (grown.fresh linked container.lt_size member)
      (grown.sound.child_lt_size (grown.mem_children container.lt_size member))
  have last := kept id (List.mem_append_right links (List.mem_singleton.mpr rfl))
  refine ⟨d'', done, links ++ [d'.size], ?_, ?_, ?_, ?_⟩
  · rw [List.append_assoc]
    exact placed
  · refine List.rel_append ?_ (.cons ⟨linkHeld, linkLeaf⟩ .nil)
    have early := fun x member => kept x (List.mem_append_left [id] member)
    refine ((List.forall₂_and_left ..).mpr ⟨early, each⟩).imp ?_
    rintro link src ⟨⟨sameData, sameChildren⟩, linkHeld, linkLeaf⟩
    rw [sameData, sameChildren]
    exact ⟨linkHeld, linkLeaf⟩
  · rw [last.1, held]
  · rw [last.2, leaf]

theorem filled {ts : List (Tree NodeData)} (stands : Stands d p id srcs e d') (linked : d.Linked)
    (inside : p < d.size) (grows : Grows d' id ts d'') :
    Grows d p (preloads srcs ++ [.node (.element e) ts]) d'' := by
  obtain ⟨links, grown, each, held, leaf⟩ := stands
  have whole := Grows.inside links grown grows linked inside held leaf
  have trees : links.map d'.subtree = preloads srcs := by
    rw [preloads, ← List.forall₂_eq_eq_eq, List.forall₂_map_left_iff, List.forall₂_map_right_iff]
    refine each.imp ?_
    rintro link src ⟨linkHeld, linkLeaf⟩
    rw [grown.sound.subtree_eq, dataAt, linkHeld, forest, linkLeaf]
    rfl
  rwa [trees] at whole

end Stands

end Document

theorem outcome_setOutcome (kind other : FilterKind) (outcome : Outcome) (page : Page) :
    (page.setOutcome kind outcome).record.outcome? other =
      if other = kind then some outcome else page.record.outcome? other := by
  unfold Page.setOutcome
  dsimp only
  split
  · rfl
  · rfl

theorem Chain.foldl_setOutcome (kinds : List FilterKind) (page : Page) :
    (kinds.foldl (fun p kind => p.setOutcome kind .notApplied) page).doc = page.doc ∧
      ∀ kind,
        (kinds.foldl (fun p kind => p.setOutcome kind .notApplied) page).record.outcome? kind =
          if kind ∈ kinds then some .notApplied else page.record.outcome? kind := by
  induction kinds generalizing page with
  | nil => exact ⟨rfl, fun kind => by simp⟩
  | cons first rest ih =>
    obtain ⟨doc, outcome⟩ := ih (page.setOutcome first .notApplied)
    rw [List.foldl_cons]
    constructor
    · rw [doc, Chain.setOutcome_doc]
    · intro kind
      rw [outcome, outcome_setOutcome]
      by_cases later : kind ∈ rest
      · simp [later]
      · simp [later]

theorem preload_stands {d : Document} {p id : NodeId} {e : Element} {srcs : List String}
    {page : Page} (stands : d.Stands p id srcs e page.doc) (linked : d.Linked)
    (container : d.IsContainer p) (src : String) (f : ImagePriority) :
    (∃ later, d.Stands p id later e (f.preload id src page).1.doc) ∧
      (f.preload id src page).1.record = page.record := by
  unfold ImagePriority.preload
  split
  · exact ⟨⟨srcs, stands⟩, rfl⟩
  · obtain ⟨d', done, linkedUp⟩ := stands.link linked container src
    have made : page.doc.create (.element (Element.preloading src)) =
      (page.doc.size, (page.doc.create (.element (Element.preloading src))).2) := rfl
    rw [preloadLink_eq, made]
    simp only [done]
    exact ⟨⟨_, linkedUp⟩, rfl⟩

namespace Dressed

variable {kinds : List FilterKind} {e e' : Element} {srcs : List String}

theorem name (dressed : Dressed kinds e srcs e') : e'.name = e.name := by
  rcases dressed with ⟨_, rfl⟩ | ⟨_, _, n, rfl⟩
  · rfl
  · exact ImagePriority.name_promotes n e

theorem keyword (dressed : Dressed kinds e srcs e') : e'.keyword = e.keyword := by
  rw [Element.keyword, dressed.name, Element.keyword]

theorem plain_of_keyword (dressed : Dressed kinds e srcs e') (other : e.keyword ≠ .img) :
    srcs = [] ∧ e' = e := by
  rcases dressed with plain | ⟨_, image, _⟩
  · exact plain
  · exact absurd image other

theorem isPolyfillScript (dressed : Dressed kinds e srcs e') :
    e'.isPolyfillScript = e.isPolyfillScript := by
  by_cases image : e.keyword = .img
  · rw [Element.not_polyfill_of_keyword (by simp [dressed.keyword, image]),
      Element.not_polyfill_of_keyword (by simp [image])]
  · rw [(dressed.plain_of_keyword image).2]

theorem promote (dressed : Dressed kinds e srcs e') (promotes : .imagePriority ∈ kinds)
    (image : e.keyword = .img) (later : List String) :
    Dressed kinds e later (ImagePriority.promote e') := by
  right
  refine ⟨promotes, image, ?_⟩
  rcases dressed with ⟨_, rfl⟩ | ⟨_, _, n, rfl⟩
  · exact ⟨1, rfl⟩
  · exact ⟨n + 1, (Function.iterate_succ_apply' ..).symm⟩

end Dressed

structure Begun (kinds : List FilterKind) (d : Document) (p id : NodeId) (e : Element)
    (known : Option Outcome) (page : Page) : Prop where
  stands : ∃ srcs e', d.Stands p id srcs e' page.doc ∧ Dressed kinds e srcs e'
  outcome : page.record.outcome? .legacyPolyfills = known

namespace Begun

variable {kinds : List FilterKind} {d : Document} {p id : NodeId} {e : Element}
  {known : Option Outcome} {page : Page}

theorem prioritize (begun : Begun kinds d p id e known page) (linked : d.Linked)
    (container : d.IsContainer p) (promotes : .imagePriority ∈ kinds) (image : e.keyword = .img)
    (src : String) (f : ImagePriority) :
    Begun kinds d p id e known (f.prioritize id src page).1 := by
  obtain ⟨⟨srcs, e', stands, dressed⟩, outcome⟩ := begun
  let after : Page := { page with doc := page.doc.modifyElement id ImagePriority.promote }
  have changed : d.Stands p id srcs (ImagePriority.promote e') after.doc :=
    stands.modify linked container.lt_size ImagePriority.promote
  obtain ⟨⟨later, stands⟩, record⟩ := preload_stands changed linked container src f
  refine ⟨⟨later, _, ?_, dressed.promote promotes image later⟩, ?_⟩
  · rw [ImagePriority.prioritize]
    dsimp only
    rw [Page.applied, Chain.setOutcome_doc]
    exact stands
  · rw [ImagePriority.prioritize]
    dsimp only
    rw [Page.applied, outcome_setOutcome, if_neg (by decide), record, outcome]

variable [UrlLibrary]

theorem onStart (begun : Begun kinds d p id e known page) (linked : d.Linked)
    (container : d.IsContainer p) (promotes : .imagePriority ∈ kinds) (cx : Context)
    (f : ImagePriority) : Begun kinds d p id e known (f.onStart id cx page).1 := by
  obtain ⟨srcs, e', stands, dressed⟩ := begun.stands
  have held := Document.element_of_data stands.data
  by_cases image : e.keyword = .img
  · rw [ImagePriority.onStart_eq held, dressed.keyword, image, if_neg (by decide),
      if_neg (by decide)]
    split
    · exact begun
    · exact begun.prioritize linked container promotes image _ f
  · have none : f.candidate? id cx page = none :=
      ImagePriority.candidate_of_other page held (dressed.keyword ▸ image)
    rw [ImagePriority.onStart_eq held, none]
    split
    · exact begun
    · split
      · exact begun
      · exact begun

theorem startElement (begun : Begun kinds d p id e known page) (linked : d.Linked)
    (container : d.IsContainer p) {f : Builtin} (kind : PageFilter.kind f ∈ kinds)
    (cx : Context) : Begun kinds d p id e known (PageFilter.startElement id cx page f).1 := by
  cases f with
  | inl f => exact begun.onStart linked container kind cx f
  | inr f => exact begun

end Begun

namespace Chain

variable [UrlLibrary]

section

variable {φ : Type} {hook : Hook φ} {P : Page → Prop}

theorem runAll_keeps {fs : List φ} (keeps : ∀ f ∈ fs, ∀ cx p, P p → P (hook cx p f).1)
    (cx : Context) {p : Page} (holds : P p) : P (runAll hook cx fs p).1 := by
  induction fs generalizing p with
  | nil => exact holds
  | cons f rest ih =>
    have first := keeps f (List.mem_cons_self ..) cx p holds
    exact ih (fun g member => keeps g (List.mem_cons_of_mem f member)) first

theorem runWhileAttached_keeps {fs : List φ} (keeps : ∀ f ∈ fs, ∀ cx p, P p → P (hook cx p f).1)
    (deaf : ∀ notice p, P p → P (Page.notify notice p)) (cx : Context) (node : NodeId) {p : Page}
    (holds : P p) : P (runWhileAttached hook cx node fs p).1 := by
  induction fs generalizing p with
  | nil => exact holds
  | cons f rest ih =>
    unfold runWhileAttached
    split
    · have first := keeps f (List.mem_cons_self ..) cx p holds
      exact ih (fun g member => keeps g (List.mem_cons_of_mem f member)) first
    · exact deaf _ p holds

end

theorem onStartElement_begun {c : Chain Builtin} {d : Document} {p : NodeId} {e : Element}
    (sound : d.WellFormed) (container : d.IsContainer p) :
    ∃ srcs e',
      d.Stands p d.size srcs e' (onStartElement d.size (d.attachNew p (.element e)) c).1 ∧
      Dressed c.kinds e srcs e' ∧
      (onStartElement d.size (d.attachNew p (.element e)) c).2.record.outcome? .legacyPolyfills =
        c.record.outcome? .legacyPolyfills := by
  let followed := c.follow (d.attachNew p (.element e)) d.size
  have same := follow_sameMake c (d.attachNew p (.element e)) d.size
  have record : followed.record = c.record := (follow_keeps c _ _).record
  have begun : Begun c.kinds d p d.size e (c.record.outcome? .legacyPolyfills)
      (followed.page (d.attachNew p (.element e))) := by
    refine ⟨⟨[], e, Document.attachNew_stands sound container e, .inl ⟨rfl, rfl⟩⟩, ?_⟩
    exact congrArg (OutcomeRecord.outcome? · .legacyPolyfills) record
  have each : ∀ f ∈ followed.filters, ∀ cx page,
      Begun c.kinds d p d.size e (c.record.outcome? .legacyPolyfills) page →
        Begun c.kinds d p d.size e (c.record.outcome? .legacyPolyfills)
          (PageFilter.startElement d.size cx page f).1 := by
    intro f member cx page holds
    have held : PageFilter.kind f ∈ c.kinds := same.kinds ▸ List.mem_map_of_mem member
    exact holds.startElement sound.toLinked container held cx
  have ran := runAll_keeps each followed.context begun
  obtain ⟨⟨srcs, e', stands, dressed⟩, outcome⟩ := ran
  exact ⟨srcs, e', stands, dressed, outcome⟩

section

variable {f : Builtin} {id : NodeId} {d d' : Document}

theorem endElement_idle (cx : Context) (page : Page)
    (idle : PageFilter.kind f = .legacyPolyfills →
      (page.doc.element? id).bind LegacyPolyfills.polyfillSrc? = none ∨
        page.doc.delete? id = none) : (PageFilter.endElement id cx page f).1 = page := by
  cases f with
  | inl f => exact (ImagePriority.onEnd_keeps id cx page f).1
  | inr f =>
    change (LegacyPolyfills.onEnd id cx page f).1 = page
    unfold LegacyPolyfills.onEnd
    split
    · rfl
    · next src found =>
      rcases idle rfl with none | refused
      · rw [none] at found
        cases found
      · rw [refused]

def Removed (d : Document) (page : Page) : Prop :=
  page.doc = d ∧ page.record.outcome? .legacyPolyfills = some .applied

theorem endElement_removes (kind : PageFilter.kind f = .legacyPolyfills) (cx : Context)
    {page : Page} {src : String}
    (found : (page.doc.element? id).bind LegacyPolyfills.polyfillSrc? = some src)
    (done : page.doc.delete? id = some d) : Removed d (PageFilter.endElement id cx page f).1 := by
  cases f with
  | inl f => cases kind
  | inr f =>
    change Removed d (LegacyPolyfills.onEnd id cx page f).1
    unfold LegacyPolyfills.onEnd
    simp only [found, done]
    constructor
    · rw [Page.applied, setOutcome_doc]
      rfl
    · rw [Page.applied, outcome_setOutcome, if_pos rfl]

theorem removed_kept (refused : d.delete? id = none) (cx : Context) {page : Page}
    (removed : Removed d page) : Removed d (PageFilter.endElement id cx page f).1 := by
  rw [endElement_idle cx page fun _ => .inr (removed.1 ▸ refused)]
  exact removed

theorem runAll_removes {fs : List Builtin} (strips : .legacyPolyfills ∈ fs.map PageFilter.kind)
    (cx : Context) {page : Page} {src : String}
    (found : (page.doc.element? id).bind LegacyPolyfills.polyfillSrc? = some src)
    (done : page.doc.delete? id = some d) (refused : d.delete? id = none) :
    Removed d (runAll (PageFilter.endElement id) cx fs page).1 := by
  induction fs with
  | nil => cases strips
  | cons f rest ih =>
    rw [runAll]
    dsimp only
    by_cases kind : PageFilter.kind f = .legacyPolyfills
    · exact runAll_keeps (fun g _ cx page removed => removed_kept refused cx removed) cx
        (endElement_removes kind cx found done)
    · have later : .legacyPolyfills ∈ rest.map PageFilter.kind := by
        simpa [Ne.symm kind] using strips
      rw [endElement_idle cx page fun same => absurd same kind]
      exact ih later

theorem runWhileAttached_removes {fs : List Builtin}
    (strips : .legacyPolyfills ∈ fs.map PageFilter.kind) (cx : Context) {page : Page} {src : String}
    (attached : page.doc.isAttached id = true)
    (found : (page.doc.element? id).bind LegacyPolyfills.polyfillSrc? = some src)
    (done : page.doc.delete? id = some d) (refused : d.delete? id = none) :
    Removed d (runWhileAttached (PageFilter.endElement id) cx id fs page).1 := by
  induction fs with
  | nil => cases strips
  | cons f rest ih =>
    rw [runWhileAttached, if_pos attached]
    dsimp only
    by_cases kind : PageFilter.kind f = .legacyPolyfills
    · exact runWhileAttached_keeps (fun g _ cx page removed => removed_kept refused cx removed)
        (fun _ _ removed => removed) cx id (endElement_removes kind cx found done)
    · have later : .legacyPolyfills ∈ rest.map PageFilter.kind := by
        simpa [Ne.symm kind] using strips
      rw [endElement_idle cx page fun same => absurd same kind]
      exact ih later

end

theorem record_leave {φ : Type} (c : Chain φ) (id : NodeId) : (c.leave id).record = c.record := by
  unfold leave
  split
  · rfl
  · rfl

variable {c : Chain Builtin} {d d' : Document} {id : NodeId}

theorem onEndElement_stays (idle : .legacyPolyfills ∈ c.kinds →
      (d.element? id).bind LegacyPolyfills.polyfillSrc? = none) :
    (onEndElement id d c).1 = d ∧ (onEndElement id d c).2.record = c.record := by
  let P : Page → Prop := fun page => page.doc = d ∧ page.record = c.record
  have keeps : ∀ f ∈ c.filters, ∀ cx page, P page → P (PageFilter.endElement id cx page f).1 := by
    intro f member cx page holds
    rw [endElement_idle cx page]
    · exact holds
    · intro kind
      left
      rw [holds.1]
      exact idle (kind ▸ List.mem_map_of_mem member)
  have holds : P (c.page d) := ⟨rfl, rfl⟩
  have ended : P (if d.isAttached id
      then runWhileAttached (PageFilter.endElement id) c.context id c.filters (c.page d)
      else runAll (PageFilter.endElement id) c.context c.filters (c.page d)).1 := by
    split
    · exact runWhileAttached_keeps keeps (fun _ _ holds => holds) c.context id holds
    · exact runAll_keeps keeps c.context holds
  exact ⟨ended.1, (record_leave _ id).trans ended.2⟩

theorem onEndElement_goes (strips : .legacyPolyfills ∈ c.kinds) {src : String}
    (found : (d.element? id).bind LegacyPolyfills.polyfillSrc? = some src)
    (done : d.delete? id = some d') (refused : d'.delete? id = none) :
    (onEndElement id d c).1 = d' ∧
      (onEndElement id d c).2.record.outcome? .legacyPolyfills = some .applied := by
  have ended : Removed d' (if d.isAttached id
      then runWhileAttached (PageFilter.endElement id) c.context id c.filters (c.page d)
      else runAll (PageFilter.endElement id) c.context c.filters (c.page d)).1 := by
    split
    · next attached => exact runWhileAttached_removes strips c.context attached found done refused
    · exact runAll_removes strips c.context found done refused
  refine ⟨ended.1, ?_⟩
  have record := record_leave (c.settle (if d.isAttached id
      then runWhileAttached (PageFilter.endElement id) c.context id c.filters (c.page d)
      else runAll (PageFilter.endElement id) c.context c.filters (c.page d))).2 id
  exact (congrArg (OutcomeRecord.outcome? · .legacyPolyfills) record).trans ended.2

structure Works (x y : Document × Chain Builtin) (p : NodeId) (before : List (Tree NodeData)) :
    Prop where
  grows : ∃ after, Filtered x.2.kinds before after ∧ x.1.Grows p after y.1
  kinds : y.2.kinds = x.2.kinds
  outcome : y.2.record.outcome? .legacyPolyfills =
    if .legacyPolyfills ∈ x.2.kinds ∧ hasPolyfillScript before = true then some .applied
    else x.2.record.outcome? .legacyPolyfills

theorem Works.append {x y z : Document × Chain Builtin} {p : NodeId}
    {ts us : List (Tree NodeData)} (first : Works x y p ts) (second : Works y z p us)
    (inside : p < x.1.size) : Works x z p (ts ++ us) := by
  obtain ⟨ts', filtered, grows⟩ := first.grows
  obtain ⟨us', filtered', grows'⟩ := second.grows
  rw [first.kinds] at filtered'
  refine ⟨⟨ts' ++ us', filtered.append filtered', grows.trans grows' inside⟩,
    second.kinds.trans first.kinds, ?_⟩
  rw [second.outcome, first.kinds, first.outcome, hasPolyfillScript_append]
  by_cases strips : .legacyPolyfills ∈ x.2.kinds
  · by_cases early : hasPolyfillScript ts = true
    · simp [strips, early]
    · simp [strips, early]
  · simp [strips]

theorem leaf_works {x : Document × Chain Builtin} {p : NodeId} (sound : x.1.WellFormed)
    (container : x.1.IsContainer p) {data : NodeData} (plain : data.isContainer = false) :
    Works x (x.1.attachNew p data, x.2) p [.node data []] := by
  have other := NodeData.not_polyfill_of_plain plain
  refine ⟨⟨_, .leaf plain .nil, Document.attachNew_grows sound container data⟩, rfl, ?_⟩
  simp [other]

theorem element_works {x z : Document × Chain Builtin} {p : NodeId} {e : Element}
    {inside : List (Tree NodeData)} (sound : x.1.WellFormed) (container : x.1.IsContainer p)
    (below : Works (onStartElement x.1.size (x.1.attachNew p (.element e)) x.2) z x.1.size inside) :
    Works x (onEndElement x.1.size z.1 z.2) p [.node (.element e) inside] := by
  obtain ⟨srcs, e', stands, dressed, started⟩ :=
    onStartElement_begun (c := x.2) (e := e) sound container
  have same := onStartElement_sameMake x.2 x.1.size (x.1.attachNew p (.element e))
  have ended := onEndElement_sameMake z.2 x.1.size z.1
  obtain ⟨inside', filtered, grows⟩ := below.grows
  have kinds : z.2.kinds = x.2.kinds := below.kinds.trans same.kinds.symm
  have outcome := below.outcome
  rw [started, ← same.kinds] at outcome
  rw [← same.kinds] at filtered
  have held : z.1.element? x.1.size = some e' :=
    Document.element_of_data (grows.data_eq stands.data)
  by_cases goes : .legacyPolyfills ∈ x.2.kinds ∧ e.isPolyfillScript = true
  · obtain ⟨strips, polyfill⟩ := goes
    obtain ⟨rfl, rfl⟩ := dressed.plain_of_keyword (Element.keyword_of_polyfill polyfill)
    have below := stands.below sound.toLinked container.lt_size grows
    obtain ⟨d', done, gone, refused⟩ := below.delete sound.toLinked container.lt_size
    obtain ⟨src, found⟩ := Option.isSome_iff_exists.mp
      ((Element.isSome_polyfillSrc e').trans polyfill)
    obtain ⟨doc, applied⟩ := onEndElement_goes (c := z.2) (kinds.symm ▸ strips)
      (by rw [held]; exact found) done refused
    refine ⟨⟨[], .gone strips polyfill .nil, [], doc.symm ▸ gone, rfl⟩,
      ended.kinds.symm.trans kinds, ?_⟩
    simp [applied, strips, NodeData.isPolyfillScript, polyfill]
  · have idle : .legacyPolyfills ∈ z.2.kinds →
        (z.1.element? x.1.size).bind LegacyPolyfills.polyfillSrc? = none := by
      intro strips
      rw [kinds] at strips
      rw [held, Option.bind_some, ← Option.not_isSome_iff_eq_none, Element.isSome_polyfillSrc,
        dressed.isPolyfillScript]
      exact fun polyfill => goes ⟨strips, polyfill⟩
    obtain ⟨doc, record⟩ := onEndElement_stays idle
    refine ⟨⟨_, .kept goes dressed filtered .nil, ?_⟩, ended.kinds.symm.trans kinds, ?_⟩
    · rw [doc]
      exact stands.filled sound.toLinked container.lt_size grows
    · rw [record, outcome]
      by_cases strips : .legacyPolyfills ∈ x.2.kinds
      · have kept : e.isPolyfillScript = false := by
          simpa [strips] using goes
        simp [NodeData.isPolyfillScript, kept]
      · simp [strips]

theorem watch_works (o : Outline) {x : Document × Chain Builtin} {p : NodeId}
    (sound : x.1.WellFormed) (container : x.1.IsContainer p) :
    Works x (o.watch observer p x) p o.trees := by
  induction o generalizing x p with
  | done =>
    refine ⟨⟨[], .nil, .refl sound p⟩, rfl, ?_⟩
    simp [Outline.watch, Outline.trees]
  | ignored what rest ih =>
    have later := ih (x := (x.1, observer.ignored what x.2)) sound container
    exact ⟨later.grows, later.kinds, later.outcome⟩
  | leaf data plain rest ih =>
    have first := leaf_works sound container plain
    obtain ⟨_, _, grows⟩ := first.grows
    exact first.append (ih grows.sound (grows.isContainer container)) container.lt_size
  | element e inside rest ihInside ihRest =>
    obtain ⟨srcs, e', stands, _⟩ := onStartElement_begun (c := x.2) (e := e) sound container
    have below := ihInside stands.sound stands.isContainer
    have first := element_works sound container below
    obtain ⟨_, _, grows⟩ := first.grows
    exact first.append (ihRest grows.sound (grows.isContainer container)) container.lt_size

theorem onStartDocument_doc (c : Chain Builtin) (d : Document) :
    (onStartDocument d c).1 = d ∧ ∀ kind ∈ c.kinds,
      (onStartDocument d c).2.record.outcome? kind = some .notApplied := by
  obtain ⟨doc, outcome⟩ := foldl_setOutcome c.kinds ⟨d, {}, c.notices⟩
  unfold onStartDocument
  dsimp only
  rw [runAll_startDocument]
  constructor
  · exact doc
  · intro kind member
    exact (outcome kind).trans (if_pos member)

theorem onEndDocument_doc (c : Chain Builtin) (d : Document) :
    (onEndDocument d c).1 = d ∧ (onEndDocument d c).2.record = c.record := by
  let P : Page → Prop := fun page => page.doc = d ∧ page.record = c.record
  have keeps : ∀ f ∈ c.filters, ∀ cx page, P page → P (PageFilter.endDocument cx page f).1 := by
    intro f _ cx page holds
    cases f with
    | inl f => exact holds
    | inr f => exact holds
  exact runAll_keeps keeps { c.context with noscript := none } (p := c.page d) ⟨rfl, rfl⟩

theorem parseWith_works (c : Chain Builtin) (text : String) :
    (∃ after, Filtered c.kinds (Outline.ofText text).trees after ∧
        Document.Grows .empty Document.root after (parseWith observer text c).1) ∧
      (.legacyPolyfills ∈ c.kinds →
        (parseWith observer text c).2.record.outcome? .legacyPolyfills =
          if hasPolyfillScript (Outline.ofText text).trees = true then some .applied
          else some .notApplied) := by
  let begun := onStartDocument .empty c
  let read := (Outline.ofText text).watch observer Document.root begun
  have whole : parseWith observer text c = onEndDocument read.1 read.2 := parseWith_eq _ _ _
  obtain ⟨doc, started⟩ := onStartDocument_doc c .empty
  obtain ⟨same, record⟩ := onEndDocument_doc read.2 read.1
  have kinds : c.kinds = begun.2.kinds := (onStartDocument_sameMake c .empty).kinds
  have sound : begun.1.WellFormed := doc.symm ▸ Document.empty_wellFormed
  have works : Works begun read Document.root (Outline.ofText text).trees :=
    watch_works (Outline.ofText text) sound (Document.root_isContainer sound.toLinked)
  obtain ⟨after, filtered, grows⟩ := works.grows
  have outcome := works.outcome
  rw [← kinds] at filtered outcome
  rw [show begun.1 = .empty from doc] at grows
  rw [whole, same, record]
  refine ⟨⟨after, filtered, grows⟩, fun strips => ?_⟩
  rw [outcome, started _ strips]
  simp [strips]

end Chain

end PageFilters
