import PageFilters.Proofs.Filter.Outcomes
import PageFilters.Proofs.Filter.Stripping

/-!
The two filters that options know do not get in each other's way. In either order they make the same
of a page, and what they make of it is what the filter for the main image alone makes of it, without
the scripts that have to go.
-/

namespace PageFilters

theorem Document.data_delete {d d' : Document} {id : NodeId} (done : d.delete? id = some d')
    (x : NodeId) : d'.data? x = d.data? x := by
  unfold delete? at done
  split at done
  · cases done
  · split at done
    · cases done
    · next p parent =>
      cases done
      have first := data_modifySlot d p x (f := fun slot =>
        { slot with children := slot.children.filter (· != id) }) fun _ => rfl
      have second := data_modifySlot (d.modifySlot p fun slot =>
        { slot with children := slot.children.filter (· != id) }) id x (f := fun slot =>
        { slot with parent := none, deleted := true }) fun _ => rfl
      exact ((sameLinks_markSubtree false id _).data x).trans (second.trans first)

theorem Document.keyword_eq {d d' : Document} {x : NodeId} (same : d'.data? x = d.data? x) :
    d'.keyword? x = d.keyword? x := by
  rw [keyword?, element_eq same, keyword?]

theorem Document.Stands.place {d d' : Document} {p id : NodeId} {srcs : List String} {e : Element}
    {around : List Element} (stands : d.Stands p id srcs e d') (place : d.Place p around) :
    d'.Place id (e :: around) := by
  have held := element_of_data stands.data
  have container := stands.isContainer
  obtain ⟨links, grown, _, _, _⟩ := stands
  have listed := grown.mem_children place.container.lt_size
    (List.mem_append_right links (List.mem_singleton.mpr rfl))
  have parent := (grown.sound.parent_iff p id).mpr listed
  have outer := place.extended grown
  refine ⟨grown.sound, container, ?_, ?_⟩
  · exact (grown.sound.attached_iff id).mpr
      (.tail ((grown.sound.attached_iff p).mp outer.attached) listed)
  · rw [grown.sound.ancestors_of_parent parent, List.filterMap_cons, held, outer.around]

theorem Tree.pruneAll_append {α : Type} (gone : α → Bool) (ts us : List (Tree α)) :
    pruneAll gone (ts ++ us) = pruneAll gone ts ++ pruneAll gone us := by
  induction ts with
  | nil => simp [pruneAll]
  | cons t rest ih =>
    obtain ⟨label, inside⟩ := t
    rw [List.cons_append, pruneAll, pruneAll, ih]
    split
    · rfl
    · rfl

theorem pruneAll_preloads (srcs : List String) :
    Tree.pruneAll NodeData.isPolyfillScript (preloads srcs) = preloads srcs := by
  have clean := hasPolyfillScript_preloads
  induction srcs with
  | nil => rw [preloads, List.map_nil, Tree.pruneAll]
  | cons src rest ih =>
    have here := clean [src]
    simp only [preloads, List.map_cons, List.map_nil, hasPolyfillScript_cons,
      hasPolyfillScript_nil, Bool.or_false] at here
    rw [preloads] at ih
    rw [preloads, List.map_cons, Tree.pruneAll, if_neg (by simp [here]), Tree.pruneAll, ih]

variable [UrlLibrary]

namespace LegacyPolyfills

variable {id : NodeId} {cx : Context} {p : Page} {f : LegacyPolyfills}

theorem onEnd_data (id : NodeId) (cx : Context) (p : Page) (f : LegacyPolyfills) (x : NodeId) :
    (f.onEnd id cx p).1.doc.data? x = p.doc.data? x := by
  unfold onEnd
  split
  · rfl
  · split
    · rfl
    · next d done =>
      rw [Page.applied, Chain.setOutcome_doc]
      exact Document.data_delete done x

theorem onEnd_script (gone : (f.onEnd id cx p).1.doc ≠ p.doc) :
    p.doc.keyword? id = some .script := by
  have effect := f.onEnd_effect id cx p
  rcases effect with same | ⟨kind, listed, did, _⟩
  · exact absurd same.doc.symm gone
  · rw [List.mem_singleton.mp listed] at did
    obtain ⟨x, call, script, _⟩ := did
    cases call
    exact script

end LegacyPolyfills

theorem ImagePriority.onEnd_filter {id : NodeId} {p q : Page} (cx : Context) (f : ImagePriority)
    (keyword : p.doc.keyword? id = q.doc.keyword? id) :
    (f.onEnd id cx p).2 = (f.onEnd id cx q).2 := by
  unfold onEnd
  rw [keyword]
  split
  · rfl
  · rfl
  · rfl

namespace Chain

structure SameView (c c' : Chain Builtin) : Prop where
  policy : c.policy = c'.policy
  documentUrl : c.documentUrl = c'.documentUrl
  base : c.base = c'.base
  baseSeen : c.baseSeen = c'.baseSeen
  noscript : c.noscript = c'.noscript

namespace SameView

variable {c c' : Chain Builtin} {d d' : Document} {id : NodeId}

theorem context (same : c.SameView c') : c.context = c'.context := by
  rw [Chain.context, Chain.context, same.base, same.noscript, same.policy]

theorem follow (same : c.SameView c') (element : d.element? id = d'.element? id) :
    (c.follow d id).SameView (c'.follow d' id) := by
  obtain ⟨policy, documentUrl, base, baseSeen, noscript⟩ := same
  have keyword : d.keyword? id = d'.keyword? id := by
    rw [Document.keyword?, element, Document.keyword?]
  unfold Chain.follow
  rw [keyword, noscript]
  split
  · split
    · exact ⟨policy, documentUrl, base, baseSeen, rfl⟩
    · exact ⟨policy, documentUrl, base, baseSeen, noscript⟩
  · unfold followBase
    rw [baseSeen, element, documentUrl]
    split
    · exact ⟨policy, documentUrl, base, baseSeen, noscript⟩
    · split
      · exact ⟨policy, documentUrl, base, baseSeen, noscript⟩
      · dsimp only
        split
        · exact ⟨policy, rfl, rfl, rfl, noscript⟩
        · exact ⟨policy, rfl, base, rfl, noscript⟩
  · exact ⟨policy, documentUrl, base, baseSeen, noscript⟩

theorem ended (same : c.SameView c') (id : NodeId) :
    (if c.noscript = some id then none else c.noscript) =
      if c'.noscript = some id then none else c'.noscript := by
  rw [same.noscript]

end SameView

structure Swapped (c c' : Chain Builtin) : Prop where
  view : c.SameView c'
  record : c.record = c'.record
  filters : ∃ f g, c.filters = [.inl f, .inr g] ∧ c'.filters = [.inr g, .inl f]

section

variable {c : Chain Builtin} {f : ImagePriority} {g : LegacyPolyfills}

theorem runWhileAttached_pair {φ : Type} {hook : Hook φ} (cx : Context) {node : NodeId} (a b : φ)
    {p : Page} (attached : p.doc.isAttached node = true) :
    runWhileAttached hook cx node [a, b] p =
      if (hook cx p a).1.doc.isAttached node then runAll hook cx [a, b] p
      else ((hook cx p a).1.notify .deletedEarlier, [(hook cx p a).2, b]) := by
  rw [runWhileAttached, if_pos attached]
  dsimp only
  rw [runWhileAttached]
  split
  · rfl
  · rfl

theorem ending_of_both (filters : c.filters = [.inl f, .inr g]) (id : NodeId) (d : Document) :
    c.ending id d = ((g.onEnd id c.context (c.page d)).1,
      [.inl (f.onEnd id c.context (c.page d)).2, .inr g]) := by
  have page := (ImagePriority.onEnd_keeps id c.context (c.page d) f).1
  have all : runAll (PageFilter.endElement id) c.context [Sum.inl f, Sum.inr g] (c.page d) =
      ((g.onEnd id c.context (f.onEnd id c.context (c.page d)).1).1,
        [.inl (f.onEnd id c.context (c.page d)).2, .inr g]) := rfl
  unfold ending
  rw [filters]
  split
  · next attached =>
    have still : (PageFilter.endElement id c.context (c.page d)
        (Sum.inl f : Builtin)).1.doc.isAttached id = true := by
      change (f.onEnd id c.context (c.page d)).1.doc.isAttached id = true
      rw [page]
      exact attached
    rw [runWhileAttached_pair c.context _ _ attached, if_pos still, all, page]
  · rw [all, page]

theorem ending_of_swapped (filters : c.filters = [.inr g, .inl f]) (id : NodeId) (d : Document) :
    ((g.onEnd id c.context (c.page d)).1).Alike (c.ending id d).1 ∧
      (c.ending id d).2 = [.inr g, .inl (f.onEnd id c.context (c.page d)).2] := by
  let q := (g.onEnd id c.context (c.page d)).1
  have data := g.onEnd_data id c.context (c.page d) id
  have keyword : q.doc.keyword? id = (c.page d).doc.keyword? id := Document.keyword_eq data
  have page := (ImagePriority.onEnd_keeps id c.context q f).1
  have filter := f.onEnd_filter c.context keyword
  have all : runAll (PageFilter.endElement id) c.context [Sum.inr g, Sum.inl f] (c.page d) =
      ((f.onEnd id c.context q).1, [.inr g, .inl (f.onEnd id c.context q).2]) := rfl
  rw [page, filter] at all
  unfold ending
  rw [filters]
  split
  · next attached =>
    rw [runWhileAttached_pair c.context _ _ attached]
    split
    · rw [all]
      exact ⟨⟨rfl, rfl⟩, rfl⟩
    · next left =>
      have gone : q.doc ≠ (c.page d).doc := fun same =>
        left ((congrArg (Document.isAttached · id) same).trans attached)
      have same : (f.onEnd id c.context (c.page d)).2 = f := by
        rw [ImagePriority.onEnd, LegacyPolyfills.onEnd_script gone]
      rw [same]
      exact ⟨⟨rfl, rfl⟩, rfl⟩
  · rw [all]
    exact ⟨⟨rfl, rfl⟩, rfl⟩

end

theorem observer_swapped :
    Observer.Matches (observer : Observer (Chain Builtin)) (observer : Observer (Chain Builtin))
      Swapped := by
  constructor
  case startElement =>
    rintro id ⟨d, c⟩ ⟨_, c'⟩ ⟨rfl, view, record, f, g, filters, filters'⟩
    have followed : (c.follow d id).SameView (c'.follow d id) := view.follow rfl
    have work := follow_keeps c d id
    have work' := follow_keeps c' d id
    have pages : ((c.follow d id).page d).Alike ((c'.follow d id).page d) :=
      ⟨rfl, (work.record.trans record).trans work'.record.symm⟩
    obtain ⟨alike, same⟩ := ImagePriority.onStart_deaf id (c.follow d id).context _ _ f pages
    rw [followed.context] at alike same
    change Alongside Swapped (onStartElement id d c) (onStartElement id d c')
    unfold onStartElement
    dsimp only
    rw [work.filters, work'.filters, filters, filters', followed.context]
    refine ⟨alike.doc, ?_, alike.record, _, g, rfl, ?_⟩
    · exact ⟨followed.policy, followed.documentUrl, followed.base, followed.baseSeen,
        followed.noscript⟩
    · exact congrArg (fun f => [Sum.inr g, Sum.inl f]) same.symm
  case endElement =>
    rintro id ⟨d, c⟩ ⟨_, c'⟩ ⟨rfl, view, record, f, g, filters, filters'⟩
    have ended := ending_of_both filters id d
    obtain ⟨alike', ended'⟩ := ending_of_swapped filters' id d
    have pages : (c.page d).Alike (c'.page d) := ⟨rfl, record⟩
    obtain ⟨alike, _⟩ := LegacyPolyfills.onEnd_deaf id c.context _ _ g pages
    obtain ⟨_, same⟩ := ImagePriority.onEnd_deaf id c.context _ _ f pages
    rw [← view.context] at alike' ended'
    change Alongside Swapped (onEndElement id d c) (onEndElement id d c')
    rw [onEndElement_eq, onEndElement_eq, leave_eq, leave_eq]
    refine ⟨?_, ?_, ?_, ?_⟩
    · exact (congrArg (fun x => x.1.doc) ended).trans (alike.doc.trans alike'.doc)
    · exact ⟨view.policy, view.documentUrl, view.base, view.baseSeen, view.ended id⟩
    · exact (congrArg (fun x => x.1.record) ended).trans (alike.record.trans alike'.record)
    · refine ⟨_, g, congrArg Prod.snd ended, ended'.trans ?_⟩
      rw [same]
  case ignored =>
    rintro what c c' ⟨view, record, filters⟩
    exact ⟨⟨view.policy, view.documentUrl, view.base, view.baseSeen, view.noscript⟩, record,
      filters⟩
  case endDocument =>
    rintro ⟨d, c⟩ ⟨_, c'⟩ ⟨rfl, view, record, f, g, filters, filters'⟩
    change Alongside Swapped (onEndDocument d c) (onEndDocument d c')
    unfold onEndDocument
    rw [filters, filters']
    exact ⟨rfl, ⟨view.policy, view.documentUrl, view.base, view.baseSeen, view.noscript⟩, record,
      f, g, rfl, rfl⟩

structure Beside (c c' : Chain Builtin) : Prop where
  view : c.SameView c'
  policy : c'.policy = Policy.usual
  filters : ∃ f g, c.filters = [.inl f, .inr g] ∧ c'.filters = [.inl f] ∧
    (f.promoted = 0 → f.preloaded = [])
  outcome : c.record.outcome? .imagePriority = c'.record.outcome? .imagePriority

end Chain

namespace ImagePriority

variable {d d' : Document} {p id : NodeId} {e : Element} {page page' : Page} {f : ImagePriority}
  {cx : Context} {around : List Element}

theorem candidate_placed (place : page.doc.Place id around) (place' : page'.doc.Place id around)
    (element : page.doc.element? id = page'.doc.element? id) (policy : cx.policy = Policy.usual) :
    f.candidate? id cx page = f.candidate? id cx page' := by
  have keyword : page.doc.keyword? id = page'.doc.keyword? id := by
    rw [Document.keyword?, element, Document.keyword?]
  have allowed : cx.policy page.doc id = cx.policy page'.doc id := by
    rw [policy, Bool.eq_iff_iff, place.usual_iff, place'.usual_iff]
  rw [candidate?, candidate?, keyword, allowed, element]

theorem onStart_beside (stands : d.Stands p id [] e page.doc)
    (stands' : d'.Stands p id [] e page'.doc) (linked : d.Linked) (linked' : d'.Linked)
    (container : d.IsContainer p) (container' : d'.IsContainer p)
    (size : page.doc.size = page'.doc.size)
    (outcome : page.record.outcome? .imagePriority = page'.record.outcome? .imagePriority)
    (judged : f.candidate? id cx page = f.candidate? id cx page')
    (fresh : f.promoted = 0 → f.preloaded = []) :
    (∃ srcs e', Dressed [.imagePriority] e srcs e' ∧
      d.Stands p id srcs e' (f.onStart id cx page).1.doc ∧
      d'.Stands p id srcs e' (f.onStart id cx page').1.doc) ∧
      (f.onStart id cx page).1.doc.size = (f.onStart id cx page').1.doc.size ∧
      (f.onStart id cx page).1.record.outcome? .imagePriority =
        (f.onStart id cx page').1.record.outcome? .imagePriority ∧
      (f.onStart id cx page).2 = (f.onStart id cx page').2 ∧
      ((f.onStart id cx page).2.promoted = 0 → (f.onStart id cx page).2.preloaded = []) := by
  have held := Document.element_of_data stands.data
  have held' := Document.element_of_data stands'.data
  cases chosen : f.candidate? id cx page with
  | none =>
    have plain : ∃ srcs e', Dressed [.imagePriority] e srcs e' ∧ d.Stands p id srcs e' page.doc ∧
        d'.Stands p id srcs e' page'.doc := ⟨[], e, .inl ⟨rfl, rfl⟩, stands, stands'⟩
    rw [onStart_eq held, onStart_eq held', ← judged, chosen]
    split
    · exact ⟨plain, size, outcome, rfl, fresh⟩
    · split
      · exact ⟨plain, size, outcome, rfl, fresh⟩
      · exact ⟨plain, size, outcome, rfl, fresh⟩
  | some src =>
    obtain ⟨image, first, _⟩ := candidate_spec held chosen
    obtain ⟨after, done, placed, doc, record, filter⟩ :=
      prioritize_spec stands linked container (fresh first) src
    obtain ⟨after', done', placed', doc', record', filter'⟩ :=
      prioritize_spec stands' linked' container' (fresh first) src
    rw [← promote_eq] at placed placed'
    rw [onStart_promotes page held chosen, onStart_promotes page' held' (judged ▸ chosen)]
    have dressed : Dressed [.imagePriority] e [src] (promote e) :=
      .inr ⟨List.mem_singleton.mpr rfl, image, 1, rfl⟩
    refine ⟨⟨[src], promote e, dressed, ?_, ?_⟩, ?_, ?_, ?_, ?_⟩
    · rw [doc]
      exact placed
    · rw [doc']
      exact placed'
    · rw [doc, doc', Document.size_promoteImage stands.sound done,
        Document.size_promoteImage stands'.sound done', size]
    · rw [record, record']
      rfl
    · rw [filter, filter']
    · rw [filter]
      exact fun none => absurd none (Nat.succ_ne_zero _)

end ImagePriority

namespace Chain

section

variable {x y : Document × Chain Builtin} {p : NodeId} {around : List Element}

/-- Two pages in progress at the same place, one of which is read by both filters. -/
structure Coupled (x y : Document × Chain Builtin) (p : NodeId) (around : List Element) :
    Prop where
  left : x.1.Place p around
  right : y.1.Place p around
  size : x.1.size = y.1.size
  chains : Beside x.2 y.2

structure Ran (x y : Document × Chain Builtin) (p : NodeId) (x' y' : Document × Chain Builtin) :
    Prop where
  grows : ∃ ts, x.1.Grows p (Tree.pruneAll NodeData.isPolyfillScript ts) x'.1 ∧
    y.1.Grows p ts y'.1
  size : x'.1.size = y'.1.size
  chains : Beside x'.2 y'.2

theorem Coupled.after {x' y' : Document × Chain Builtin} (coupled : Coupled x y p around)
    (ran : Ran x y p x' y') : Coupled x' y' p around := by
  obtain ⟨ts, left, right⟩ := ran.grows
  exact ⟨coupled.left.grown left, coupled.right.grown right, ran.size, ran.chains⟩

theorem Ran.trans {x' y' x'' y'' : Document × Chain Builtin} (first : Ran x y p x' y')
    (second : Ran x' y' p x'' y'') (coupled : Coupled x y p around) : Ran x y p x'' y'' := by
  obtain ⟨ts, left, right⟩ := first.grows
  obtain ⟨us, left', right'⟩ := second.grows
  refine ⟨⟨ts ++ us, ?_, right.trans right' coupled.right.container.lt_size⟩, second.size,
    second.chains⟩
  rw [Tree.pruneAll_append]
  exact left.trans left' coupled.left.container.lt_size

theorem Coupled.leaf (coupled : Coupled x y p around) {data : NodeData}
    (plain : data.isContainer = false) :
    Ran x y p (x.1.attachNew p data, x.2) (y.1.attachNew p data, y.2) := by
  have left := Document.attachNew_grows coupled.left.sound coupled.left.container data
  have right := Document.attachNew_grows coupled.right.sound coupled.right.container data
  have size := Document.size_attachNew coupled.left.sound coupled.left.container data
  have size' := Document.size_attachNew coupled.right.sound coupled.right.container data
  refine ⟨⟨_, ?_, right⟩, ?_, coupled.chains⟩
  · rw [Tree.pruneAll, if_neg (by simp [NodeData.not_polyfill_of_plain plain]), Tree.pruneAll]
    exact left
  · rw [size, size', coupled.size]

theorem Coupled.start (coupled : Coupled x y p around) (e : Element) :
    let x' := onStartElement x.1.size (x.1.attachNew p (.element e)) x.2
    let y' := onStartElement x.1.size (y.1.attachNew p (.element e)) y.2
    ∃ srcs e', Dressed [.imagePriority] e srcs e' ∧ x.1.Stands p x.1.size srcs e' x'.1 ∧
      y.1.Stands p x.1.size srcs e' y'.1 ∧ Coupled x' y' x.1.size (e' :: around) := by
  intro x' y'
  obtain ⟨left, right, size, view, policy, ⟨f, g, filters, filters', fresh⟩, outcome⟩ := coupled
  let d := x.1.attachNew p (.element e)
  let d' := y.1.attachNew p (.element e)
  have stands : x.1.Stands p x.1.size [] e d :=
    Document.attachNew_stands left.sound left.container e
  have stands' : y.1.Stands p x.1.size [] e d' :=
    size ▸ Document.attachNew_stands right.sound right.container e
  have element : d.element? x.1.size = d'.element? x.1.size :=
    (Document.element_of_data stands.data).trans (Document.element_of_data stands'.data).symm
  have grown : d.size = d'.size := by
    rw [Document.size_attachNew left.sound left.container,
      Document.size_attachNew right.sound right.container, size]
  have followed := view.follow element
  have work := follow_keeps x.2 d x.1.size
  have work' := follow_keeps y.2 d' x.1.size
  have judged : f.candidate? x.1.size (x.2.follow d x.1.size).context
      ((x.2.follow d x.1.size).page d) = f.candidate? x.1.size (x.2.follow d x.1.size).context
      ((y.2.follow d' x.1.size).page d') := by
    refine ImagePriority.candidate_placed (stands.place left) (stands'.place right) element ?_
    exact work.policy.trans (view.policy.trans policy)
  have known : ((x.2.follow d x.1.size).page d).record.outcome? .imagePriority =
      ((y.2.follow d' x.1.size).page d').record.outcome? .imagePriority := by
    change (x.2.follow d x.1.size).record.outcome? _ = (y.2.follow d' x.1.size).record.outcome? _
    rw [work.record, work'.record, outcome]
  obtain ⟨⟨srcs, e', dressed, placed, placed'⟩, sizes, outcomes, same, fresh'⟩ :=
    ImagePriority.onStart_beside stands stands' left.sound.toLinked right.sound.toLinked
      left.container right.container grown known judged fresh
  have startedLeft : x' = (x.2.follow d x.1.size).settle
      (runAll (PageFilter.startElement x.1.size) (x.2.follow d x.1.size).context
        [.inl f, .inr g] ((x.2.follow d x.1.size).page d)) := by
    rw [← filters, ← work.filters]
    rfl
  have startedRight : y' = (y.2.follow d' x.1.size).settle
      (runAll (PageFilter.startElement x.1.size) (x.2.follow d x.1.size).context
        [.inl f] ((y.2.follow d' x.1.size).page d')) := by
    rw [← filters', ← work'.filters, followed.context]
    rfl
  rw [startedLeft, startedRight]
  refine ⟨srcs, e', dressed, placed, placed', placed.place left, placed'.place right, sizes, ?_, ?_,
    ?_, outcomes⟩
  · exact ⟨followed.policy, followed.documentUrl, followed.base, followed.baseSeen,
      followed.noscript⟩
  · exact work'.policy.trans policy
  · exact ⟨_, g, rfl, congrArg (fun f => [Sum.inl f]) same.symm, fresh'⟩

theorem Beside.stop {c c' : Chain Builtin} (beside : Beside c c') {d d' : Document} {id : NodeId}
    (element : d.element? id = d'.element? id) :
    Beside (onEndElement id d c).2 (onEndElement id d' c').2 := by
  obtain ⟨view, policy, ⟨f, g, filters, filters', fresh⟩, outcome⟩ := beside
  have keyword : (c.page d).doc.keyword? id = (c'.page d').doc.keyword? id :=
    congrArg (Option.map Element.keyword) element
  have same := f.onEnd_filter c.context keyword
  obtain ⟨_, promoted, preloaded⟩ := ImagePriority.onEnd_keeps id c.context (c.page d) f
  have record := (ImagePriority.onEnd_keeps id c'.context (c'.page d') f).1
  have ended := ending_of_both filters id d
  have idle : ((g.onEnd id c.context (c.page d)).1).record.outcome? .imagePriority =
      c.record.outcome? .imagePriority := by
    rcases g.onEnd_effect id c.context (c.page d) with alike | ⟨kind, listed, _, record⟩
    · rw [← alike.record]
      rfl
    · rw [record, List.mem_singleton.mp listed]
      rfl
  rw [onEndElement_eq, leave_eq, ended, onEndElement_single filters']
  refine ⟨⟨view.policy, view.documentUrl, view.base, view.baseSeen, view.ended id⟩, policy,
    ⟨_, g, rfl, ?_, ?_⟩, ?_⟩
  · rw [same, view.context]
    rfl
  · rw [promoted, preloaded]
    exact fresh
  · refine idle.trans (outcome.trans ?_)
    exact (congrArg (fun q => Page.record q |>.outcome? .imagePriority) record).symm

theorem Beside.kinds {c c' : Chain Builtin} (beside : Beside c c') :
    .legacyPolyfills ∈ c.kinds ∧ .legacyPolyfills ∉ c'.kinds := by
  obtain ⟨f, g, filters, filters', _⟩ := beside.filters
  rw [Chain.kinds, Chain.kinds, filters, filters']
  refine ⟨List.mem_cons_of_mem _ (List.mem_singleton.mpr rfl), ?_⟩
  intro listed
  cases List.mem_singleton.mp listed

theorem Coupled.element (coupled : Coupled x y p around) (e : Element)
    {z w : Document × Chain Builtin}
    (below : Ran (onStartElement x.1.size (x.1.attachNew p (.element e)) x.2)
      (onStartElement x.1.size (y.1.attachNew p (.element e)) y.2) x.1.size z w) :
    Ran x y p (onEndElement x.1.size z.1 z.2) (onEndElement x.1.size w.1 w.2) := by
  obtain ⟨srcs, e', dressed, placed, placed', _⟩ := coupled.start e
  obtain ⟨⟨inside, grows, grows'⟩, size, beside⟩ := below
  obtain ⟨left, right, _, _⟩ := coupled
  have held : z.1.element? x.1.size = some e' :=
    Document.element_of_data (grows.data_eq placed.data)
  have held' : w.1.element? x.1.size = some e' :=
    Document.element_of_data (grows'.data_eq placed'.data)
  have chains := beside.stop (held.trans held'.symm)
  obtain ⟨strips, leaves⟩ := beside.kinds
  have alone : (onEndElement x.1.size w.1 w.2).1 = w.1 :=
    (onEndElement_stays fun listed => absurd listed leaves).1
  have whole := placed'.filled right.sound.toLinked right.container.lt_size grows'
  -- A script that goes leaves nothing on the left; on the right it stays to be pruned.
  by_cases polyfill : e'.isPolyfillScript = true
  · have notImage : e.keyword ≠ .img :=
      Element.keyword_of_polyfill (dressed.isPolyfillScript ▸ polyfill)
    obtain ⟨rfl, rfl⟩ := dressed.plain_of_keyword notImage
    have grown := placed.below left.sound.toLinked left.container.lt_size grows
    obtain ⟨d, done, gone, refused⟩ := grown.delete left.sound.toLinked left.container.lt_size
    obtain ⟨src, found⟩ := Option.isSome_iff_exists.mp
      ((Element.isSome_polyfillSrc e').trans polyfill)
    obtain ⟨doc, _⟩ := onEndElement_goes (c := z.2) strips (by rw [held]; exact found) done refused
    refine ⟨⟨[.node (.element e') inside], ?_, ?_⟩, ?_, chains⟩
    · rw [Tree.pruneAll, if_pos (show NodeData.isPolyfillScript (.element e') = true from polyfill),
        Tree.pruneAll, doc]
      exact ⟨[], gone, rfl⟩
    · rw [alone]
      exact whole
    · rw [alone, doc, ← size]
      obtain ⟨_, _, _, _, detaches⟩ := Document.delete_detaches grown.sound.toLinked done
      exact detaches.size
  · have idle : .legacyPolyfills ∈ z.2.kinds →
        (z.1.element? x.1.size).bind LegacyPolyfills.polyfillSrc? = none := by
      intro _
      rw [held, Option.bind_some, ← Option.not_isSome_iff_eq_none, Element.isSome_polyfillSrc]
      exact polyfill
    have doc : (onEndElement x.1.size z.1 z.2).1 = z.1 := (onEndElement_stays idle).1
    have pruned := placed.filled left.sound.toLinked left.container.lt_size grows
    refine ⟨⟨preloads srcs ++ [.node (.element e') inside], ?_, ?_⟩, ?_, chains⟩
    · rw [Tree.pruneAll_append, pruneAll_preloads, Tree.pruneAll, if_neg (show
        ¬ NodeData.isPolyfillScript (.element e') = true from polyfill), Tree.pruneAll, doc]
      exact pruned
    · rw [alone]
      exact whole
    · rw [alone, doc, size]

theorem watch_coupled (o : Outline) {x y : Document × Chain Builtin} {p : NodeId}
    {around : List Element} (coupled : Coupled x y p around) :
    Ran x y p (o.watch observer p x) (o.watch observer p y) := by
  induction o generalizing x y p around with
  | done =>
    refine ⟨⟨[], ?_, .refl coupled.right.sound p⟩, coupled.size, coupled.chains⟩
    rw [Tree.pruneAll]
    exact .refl coupled.left.sound p
  | ignored what rest ih =>
    have chains : Beside (observer.ignored what x.2) (observer.ignored what y.2) := by
      obtain ⟨view, policy, filters, outcome⟩ := coupled.chains
      exact ⟨⟨view.policy, view.documentUrl, view.base, view.baseSeen, view.noscript⟩, policy,
        filters, outcome⟩
    obtain ⟨grows, size, later⟩ := ih (x := (x.1, observer.ignored what x.2))
      (y := (y.1, observer.ignored what y.2))
      ⟨coupled.left, coupled.right, coupled.size, chains⟩
    exact ⟨grows, size, later⟩
  | leaf data plain rest ih =>
    have first := coupled.leaf plain
    exact first.trans (ih (coupled.after first)) coupled
  | element e inside rest ihInside ihRest =>
    obtain ⟨srcs, e', _, _, _, started⟩ := coupled.start e
    have first := coupled.element e (ihInside started)
    have later := ihRest (coupled.after first)
    rw [Outline.watch, Outline.watch, ← coupled.size]
    exact first.trans later coupled

end

section

variable {c c' : Chain Builtin}

theorem SameView.begun (policy : c.policy = c'.policy)
    (documentUrl : c.documentUrl = c'.documentUrl) (base : c.base = c'.base) (d : Document) :
    (onStartDocument d c).2.SameView (onStartDocument d c').2 :=
  ⟨policy, documentUrl, base, rfl, rfl⟩

theorem parseWith_swapped (kinds : c.kinds = [.imagePriority, .legacyPolyfills])
    (kinds' : c'.kinds = [.legacyPolyfills, .imagePriority]) (policy : c.policy = c'.policy)
    (documentUrl : c.documentUrl = c'.documentUrl) (base : c.base = c'.base) (text : String) :
    Alongside Swapped (parseWith observer text c) (parseWith observer text c') := by
  refine parseWith_matches observer_swapped ⟨?_, ?_, ?_, {}, {}, ?_, ?_⟩ text
  · exact (onStartDocument_doc c .empty).1.trans (onStartDocument_doc c' .empty).1.symm
  · exact SameView.begun policy documentUrl base .empty
  · apply congrArg OutcomeRecord.mk
    funext kind
    have outcome := onStartDocument_outcome c .empty kind
    have outcome' := onStartDocument_outcome c' .empty kind
    rw [kinds] at outcome
    rw [kinds'] at outcome'
    refine outcome.trans (Eq.trans ?_ outcome'.symm)
    cases kind <;> rfl
  · exact (onStartDocument_filters c .empty).trans (kinds ▸ rfl)
  · exact (onStartDocument_filters c' .empty).trans (kinds' ▸ rfl)

theorem parseWith_beside (kinds : c.kinds = [.imagePriority, .legacyPolyfills])
    (kinds' : c'.kinds = [.imagePriority]) (usual : c'.policy = Policy.usual)
    (policy : c.policy = c'.policy) (documentUrl : c.documentUrl = c'.documentUrl)
    (base : c.base = c'.base) (text : String) :
    (parseWith observer text c).1.tree =
        (parseWith observer text c').1.tree.prune NodeData.isPolyfillScript ∧
      Beside (parseWith observer text c).2 (parseWith observer text c').2 := by
  let x := onStartDocument .empty c
  let y := onStartDocument .empty c'
  have left : x.1 = .empty := (onStartDocument_doc c .empty).1
  have right : y.1 = .empty := (onStartDocument_doc c' .empty).1
  have place := Document.root_place Document.empty_wellFormed
  have chains : Beside x.2 y.2 := by
    have view := SameView.begun policy documentUrl base .empty
    refine ⟨view, usual, ⟨{}, {}, ?_, ?_, fun _ => rfl⟩, ?_⟩
    · exact (onStartDocument_filters c .empty).trans (kinds ▸ rfl)
    · exact (onStartDocument_filters c' .empty).trans (kinds' ▸ rfl)
    · rw [onStartDocument_outcome, onStartDocument_outcome, kinds, kinds']
      rfl
  have coupled : Coupled x y Document.root [] :=
    ⟨left.symm ▸ place, right.symm ▸ place, by rw [left, right], chains⟩
  have ran := watch_coupled (Outline.ofText text) coupled
  obtain ⟨⟨ts, grows, grows'⟩, _, beside⟩ := ran
  rw [left] at grows
  rw [right] at grows'
  rw [parseWith_eq, parseWith_eq]
  let z := (Outline.ofText text).watch observer Document.root x
  let w := (Outline.ofText text).watch observer Document.root y
  change (onEndDocument z.1 z.2).1.tree = (onEndDocument w.1 w.2).1.tree.prune _ ∧
    Beside (onEndDocument z.1 z.2).2 (onEndDocument w.1 w.2).2
  rw [(onEndDocument_doc z.2 z.1).1, (onEndDocument_doc w.2 w.1).1, grows.tree_eq, grows'.tree_eq]
  refine ⟨rfl, ?_⟩
  obtain ⟨view, policy, ⟨f, g, filters, filters', fresh⟩, outcome⟩ := beside
  unfold onEndDocument
  rw [filters, filters']
  exact ⟨⟨view.policy, view.documentUrl, view.base, view.baseSeen, view.noscript⟩, policy,
    ⟨f, g, rfl, rfl, fresh⟩, outcome⟩

end

/-- A new chain of filters of some kinds, in this order. -/
def ofKinds (kinds : List FilterKind) : Chain Builtin :=
  kinds.foldl (fun c kind => c.add (Builtin.ofKind kind)) {}

/-- The order of the two filters makes no difference to a page, nor to what is recorded of it; and
what they make of it is what the filter for the main image makes of it, without the scripts that
have to go. The chains may have served any requests before. -/
theorem filters_independent (earlier : List FilterKind → List Request) (url text : String) :
    let serving kinds := (ofKinds kinds).afterRequests (earlier kinds)
    let both := (serving [.imagePriority, .legacyPolyfills]).parse url text
    let swapped := (serving [.legacyPolyfills, .imagePriority]).parse url text
    let single := (serving [.imagePriority]).parse url text
    both.1.map Document.tree = swapped.1.map Document.tree ∧
      both.1.map Document.tree =
        single.1.map (fun d => d.tree.prune NodeData.isPolyfillScript) ∧
      match Url.parse url with
      | .error cause => both.1 = .error (.invalidUrl url cause)
      | .ok _ => (∃ d, both.1 = .ok d) ∧ both.2.record = swapped.2.record ∧
        both.2.base = swapped.2.base ∧ both.2.base = single.2.base ∧
        both.2.record.outcome? .imagePriority = single.2.record.outcome? .imagePriority := by
  intro serving both swapped single
  have made : ∀ kinds, (ofKinds kinds).SameMake (serving kinds) := fun kinds =>
    afterRequests_sameMake (ofKinds kinds) (earlier kinds)
  let order := [FilterKind.imagePriority, .legacyPolyfills]
  let other := [FilterKind.legacyPolyfills, .imagePriority]
  let alone := [FilterKind.imagePriority]
  have policy : (serving order).policy = Policy.usual := (made order).policy.symm
  have policy' : (serving other).policy = Policy.usual := (made other).policy.symm
  have policy'' : (serving alone).policy = Policy.usual := (made alone).policy.symm
  cases parsed : Url.parse url with
  | error cause =>
    have refused := fun kinds => parse_refused (serving kinds) parsed text
    simp [both, swapped, single, refused, Except.map]
  | ok documentUrl =>
    let opened := fun kinds => (serving kinds).opened documentUrl text
    have read := fun kinds => parse_opened (serving kinds) parsed text
    have kinds : ∀ kinds, (opened kinds).kinds = (ofKinds kinds).kinds := fun kinds =>
      (made kinds).kinds.symm
    obtain ⟨doc, view, record, _⟩ := parseWith_swapped (kinds order) (kinds other)
      (policy.trans policy'.symm) rfl rfl text
    obtain ⟨pruned, beside⟩ := parseWith_beside (kinds order) (kinds alone) policy''
      (policy.trans policy''.symm) rfl rfl text
    simp only [both, swapped, single, read]
    exact ⟨congrArg (fun d => Except.ok (Document.tree d)) doc, congrArg Except.ok pruned, ⟨_, rfl⟩,
      record, view.base, beside.view.base, beside.outcome⟩

end Chain

end PageFilters
