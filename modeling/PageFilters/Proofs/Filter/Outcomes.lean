import PageFilters.Proofs.Filter.Hooks
import PageFilters.Proofs.Markup.Recording

/-!
What is on record about a page. A filter is recorded as applied just when one of the calls did its
work to the document, and each call did the work of one filter or nothing. So where no filter is
recorded as applied, the page is what its text says.
-/

namespace PageFilters

def Document.promoteImage? (id : NodeId) (src : String) (d : Document) : Option Document :=
  ((d.modifyElement id Element.promoted).create
    (.element (Element.preloading src))).2.insertBefore? id d.size

theorem Document.Stands.promoteImage {d d' : Document} {p id : NodeId} {e : Element}
    (stands : d.Stands p id [] e d') (linked : d.Linked) (container : d.IsContainer p)
    (src : String) :
    ∃ d'', d'.promoteImage? id src = some d'' ∧
      d.Stands p id [src] e.promoted d'' := by
  have changed := stands.modify linked container.lt_size Element.promoted
  obtain ⟨d'', done, linkedUp⟩ := changed.link linked container src
  have size : (d'.modifyElement id Element.promoted).size = d'.size := by
    simp [modifyElement]
  refine ⟨d'', ?_, linkedUp⟩
  rw [promoteImage?, ← size]
  exact done

namespace Occasion

def Promotes (o : Occasion) (id : NodeId) (src : String) : Prop :=
  o.call = .startElement id ∧ o.before.keyword? id = some .img ∧
    o.before.promoteImage? id src = some o.after

def Removes (o : Occasion) (id : NodeId) : Prop :=
  o.call = .endElement id ∧ o.before.keyword? id = some .script ∧
    o.before.delete? id = some o.after

def Did (o : Occasion) : FilterKind → Prop
  | .imagePriority => ∃ id src, o.Promotes id src
  | .legacyPolyfills => ∃ id, o.Removes id

end Occasion

theorem Document.size_promoteImage {id : NodeId} {src : String} {d d' : Document}
    (sound : d.WellFormed) (done : d.promoteImage? id src = some d') : d'.size = d.size + 1 := by
  have created := create_wellFormed (modify_wellFormed sound id Element.promoted)
    (.element (Element.preloading src))
  obtain ⟨_, _, _, _, _, _, attaches⟩ := insertBefore_attaches created.toLinked done
  rw [attaches.size, size_create]
  simp [modifyElement]

namespace Occasion

variable {o : Occasion} {kind kind' : FilterKind}

theorem Did.changes (did : o.Did kind) (sound : o.before.WellFormed) : o.after ≠ o.before := by
  intro same
  cases kind with
  | imagePriority =>
    obtain ⟨id, src, _, _, done⟩ := did
    have grown := Document.size_promoteImage sound done
    rw [same] at grown
    omega
  | legacyPolyfills =>
    obtain ⟨id, _, _, done⟩ := did
    obtain ⟨p, _, _, parent, detaches⟩ := Document.delete_detaches sound.toLinked done
    have orphan := detaches.parent id
    rw [same, if_pos rfl, parent] at orphan
    cases orphan

theorem Did.kind_eq (first : o.Did kind) (second : o.Did kind') : kind = kind' := by
  cases kind with
  | imagePriority =>
    cases kind' with
    | imagePriority => rfl
    | legacyPolyfills =>
      obtain ⟨_, _, starts, _⟩ := first
      obtain ⟨_, ends, _⟩ := second
      rw [starts] at ends
      cases ends
  | legacyPolyfills =>
    cases kind' with
    | legacyPolyfills => rfl
    | imagePriority =>
      obtain ⟨_, ends, _⟩ := first
      obtain ⟨_, _, starts, _⟩ := second
      rw [starts] at ends
      cases ends

end Occasion

/-- What filters of some kinds make of a page at a call: they do the work of one of them and record
it, or nothing. -/
def Effect (call : Call NodeId) (kinds : List FilterKind) (p q : Page) : Prop :=
  p.Alike q ∨ ∃ kind ∈ kinds, Occasion.Did ⟨call, p.doc, q.doc⟩ kind ∧
    q.record = p.record.set kind .applied

theorem Effect.alike {call : Call NodeId} {kinds : List FilterKind} {p q r : Page}
    (effect : Effect call kinds p q) (alike : q.Alike r) : Effect call kinds p r := by
  rcases effect with same | ⟨kind, listed, did, record⟩
  · exact .inl ⟨same.doc.trans alike.doc, same.record.trans alike.record⟩
  · exact .inr ⟨kind, listed, alike.doc ▸ did, alike.record ▸ record⟩

theorem Effect.mono {call : Call NodeId} {kinds more : List FilterKind} {p q : Page}
    (effect : Effect call kinds p q) (subset : kinds ⊆ more) : Effect call more p q :=
  effect.imp_right fun ⟨kind, listed, rest⟩ => ⟨kind, subset listed, rest⟩

theorem record_setOutcome (kind : FilterKind) (outcome : Outcome) (p : Page) :
    (p.setOutcome kind outcome).record = p.record.set kind outcome := by
  unfold Page.setOutcome
  dsimp only
  split
  · rfl
  · rfl

namespace OutcomeRecord

variable (record : OutcomeRecord)

theorem names_toList :
    record.toList.map Prod.fst =
      FilterKind.all.filter fun kind => (record.outcome? kind).isSome := by
  rw [toList]
  induction FilterKind.all with
  | nil => rfl
  | cons kind rest ih =>
    cases known : record.outcome? kind with
    | none => simpa [known] using ih
    | some outcome => simpa [known] using ih

theorem mem_toList {kind : FilterKind} {outcome : Outcome} :
    (kind, outcome) ∈ record.toList ↔ record.outcome? kind = some outcome := by
  have all : kind ∈ FilterKind.all := by cases kind <;> decide
  simp [toList, all]

end OutcomeRecord

theorem ImagePriority.prioritize_spec {d : Document} {p id : NodeId} {e : Element} {page : Page}
    {f : ImagePriority} (stands : d.Stands p id [] e page.doc) (linked : d.Linked)
    (container : d.IsContainer p) (fresh : f.preloaded = []) (src : String) :
    ∃ d', page.doc.promoteImage? id src = some d' ∧ d.Stands p id [src] e.promoted d' ∧
      (f.prioritize id src page).1.doc = d' ∧
      (f.prioritize id src page).1.record = page.record.set .imagePriority .applied ∧
      (f.prioritize id src page).2 =
        { f with promoted := f.promoted + 1, preloaded := [src] } := by
  obtain ⟨d', done, linkedUp⟩ := stands.promoteImage linked container src
  have size : (page.doc.modifyElement id promote).size = page.doc.size := by
    simp [Document.modifyElement]
  have inserted := done
  rw [Document.promoteImage?, ← promote_eq_promoted, ← size] at inserted
  have made := preload_eq { page with doc := page.doc.modifyElement id promote } fresh inserted
  refine ⟨d', done, linkedUp, ?_, ?_, ?_⟩
  · rw [prioritize, made]
    exact Chain.setOutcome_doc _ _ _
  · rw [prioritize, made]
    exact record_setOutcome _ _ _
  · rw [prioritize, made]

variable [UrlLibrary]

namespace ImagePriority

variable {d : Document} {p id : NodeId} {e : Element} {page : Page} {f : ImagePriority}
  {cx : Context} {src : String}

theorem candidate_spec (held : page.doc.element? id = some e)
    (chosen : f.candidate? id cx page = some src) :
    e.keyword = .img ∧ f.promoted = 0 ∧ e.eligibleSrc? cx.base = some src := by
  have image : e.keyword = .img := by
    by_contra other
    rw [candidate_of_other page held other] at chosen
    cases chosen
  unfold candidate? at chosen
  split at chosen
  · cases chosen
  · next room =>
    have few : f.promoted < limit := by
      simp only [Bool.or_eq_true, decide_eq_true_eq, not_or] at room
      exact Nat.lt_of_not_le room.1.2
    split at chosen
    · cases chosen
    · rw [held, Option.bind_some] at chosen
      exact ⟨image, Nat.lt_one_iff.mp few, chosen⟩

theorem onStart_effect (stands : d.Stands p id [] e page.doc) (linked : d.Linked)
    (container : d.IsContainer p) (fresh : f.promoted = 0 → f.preloaded = []) (cx : Context) :
    Effect (.startElement id) [.imagePriority] page (f.onStart id cx page).1 := by
  have held := Document.element_of_data stands.data
  have idle : Effect (.startElement id) [.imagePriority] page page := .inl ⟨rfl, rfl⟩
  cases chosen : f.candidate? id cx page with
  | none =>
    rw [onStart_eq held, chosen]
    split
    · exact idle
    · split
      · exact idle
      · exact idle
  | some src =>
    obtain ⟨image, first, _⟩ := candidate_spec held chosen
    obtain ⟨d', done, _, doc, record, _⟩ :=
      prioritize_spec stands linked container (fresh first) src
    have keyword : page.doc.keyword? id = some .img := by
      rw [Chain.keyword_of_element held, image]
    rw [onStart_promotes page held chosen]
    exact .inr ⟨.imagePriority, List.mem_singleton.mpr rfl,
      ⟨id, src, rfl, keyword, doc ▸ done⟩, record⟩

end ImagePriority

theorem LegacyPolyfills.onEnd_effect (id : NodeId) (cx : Context) (page : Page)
    (f : LegacyPolyfills) :
    Effect (.endElement id) [.legacyPolyfills] page (f.onEnd id cx page).1 := by
  unfold onEnd
  split
  · exact .inl ⟨rfl, rfl⟩
  · next src found =>
    split
    · exact .inl ⟨rfl, rfl⟩
    · next d done =>
      obtain ⟨e, held, polyfill⟩ := Option.bind_eq_some_iff.mp found
      have script : e.keyword = .script := by
        by_contra other
        rw [polyfillSrc?, if_neg other] at polyfill
        cases polyfill
      refine .inr ⟨.legacyPolyfills, List.mem_singleton.mpr rfl, ⟨id, rfl, ?_, ?_⟩, ?_⟩
      · rw [Chain.keyword_of_element held, script]
      · rw [Page.applied, Chain.setOutcome_doc]
        exact done
      · exact record_setOutcome _ _ _

namespace Chain

section

variable {hook : Hook Builtin} {call : Call NodeId} {kind : FilterKind} {fs : List Builtin}

theorem idle_alike (others : kind ∉ fs.map PageFilter.kind)
    (idle : ∀ f ∈ fs, PageFilter.kind f ≠ kind → ∀ cx page, (hook cx page f).1 = page)
    (p : Page) : ∀ f ∈ fs, ∀ cx q, p.Alike q → p.Alike (hook cx q f).1 := by
  intro f member cx q alike
  have other : PageFilter.kind f ≠ kind := fun same =>
    others (same ▸ List.mem_map_of_mem member)
  rw [idle f member other]
  exact alike

theorem runAll_effect (once : (fs.map PageFilter.kind).Nodup)
    (idle : ∀ f ∈ fs, PageFilter.kind f ≠ kind → ∀ cx page, (hook cx page f).1 = page)
    (cx : Context) {page : Page}
    (acts : ∀ f ∈ fs, PageFilter.kind f = kind → Effect call [kind] page (hook cx page f).1) :
    Effect call (fs.map PageFilter.kind) page (runAll hook cx fs page).1 := by
  induction fs with
  | nil => exact .inl ⟨rfl, rfl⟩
  | cons f rest ih =>
    rw [List.map_cons, List.nodup_cons] at once
    rw [runAll]
    dsimp only
    by_cases here : PageFilter.kind f = kind
    · have quiet := idle_alike (here ▸ once.1)
        (fun g member => idle g (List.mem_cons_of_mem f member)) (hook cx page f).1
      have done := acts f (List.mem_cons_self ..) here
      have after := done.alike (runAll_keeps (P := (hook cx page f).1.Alike) quiet cx ⟨rfl, rfl⟩)
      exact after.mono (by simp [here])
    · rw [idle f (List.mem_cons_self ..) here]
      have later := ih once.2 (fun g member => idle g (List.mem_cons_of_mem f member))
        fun g member => acts g (List.mem_cons_of_mem f member)
      exact later.mono (List.subset_cons_self ..)

theorem runWhileAttached_early (hook : Hook Builtin) (cx : Context) (node : NodeId)
    (fs : List Builtin) (page : Page) :
    ∃ early later, fs = early ++ later ∧
      (runAll hook cx early page).1.Alike (runWhileAttached hook cx node fs page).1 := by
  induction fs generalizing page with
  | nil => exact ⟨[], [], rfl, rfl, rfl⟩
  | cons f rest ih =>
    unfold runWhileAttached
    split
    · obtain ⟨early, later, split, alike⟩ := ih (hook cx page f).1
      exact ⟨f :: early, later, congrArg (List.cons f) split, alike⟩
    · exact ⟨[], f :: rest, rfl, rfl, rfl⟩

theorem runWhileAttached_effect (once : (fs.map PageFilter.kind).Nodup)
    (idle : ∀ f ∈ fs, PageFilter.kind f ≠ kind → ∀ cx page, (hook cx page f).1 = page)
    (cx : Context) (node : NodeId) {page : Page}
    (acts : ∀ f ∈ fs, PageFilter.kind f = kind → Effect call [kind] page (hook cx page f).1) :
    Effect call (fs.map PageFilter.kind) page (runWhileAttached hook cx node fs page).1 := by
  obtain ⟨early, later, rfl, alike⟩ := runWhileAttached_early hook cx node fs page
  rw [List.map_append] at once ⊢
  have first : ∀ f ∈ early, f ∈ early ++ later := fun f member => List.mem_append_left later member
  have effect := runAll_effect (List.Nodup.of_append_left once)
    (fun f member => idle f (first f member)) cx fun f member => acts f (first f member)
  exact (effect.alike alike).mono (List.subset_append_left ..)

end

def Fresh : Builtin → Prop
  | .inl f => f.promoted = 0 → f.preloaded = []
  | .inr _ => True

theorem startElement_fresh (id : NodeId) {cx : Context} (page : Page) (f : Builtin)
    (fresh : Fresh f) : Fresh (PageFilter.startElement id cx page f).2 := by
  cases f with
  | inl f =>
    change (f.onStart id cx page).2.promoted = 0 → (f.onStart id cx page).2.preloaded = []
    unfold ImagePriority.onStart
    split
    · exact fresh
    · exact fresh
    · split
      · exact fresh
      · exact fun none => absurd none (Nat.succ_ne_zero _)
  | inr f => trivial

theorem endElement_fresh (id : NodeId) {cx : Context} (page : Page) (f : Builtin)
    (fresh : Fresh f) : Fresh (PageFilter.endElement id cx page f).2 := by
  cases f with
  | inl f =>
    obtain ⟨_, promoted, preloaded⟩ := ImagePriority.onEnd_keeps id cx page f
    change (f.onEnd id cx page).2.promoted = 0 → (f.onEnd id cx page).2.preloaded = []
    rw [promoted, preloaded]
    exact fresh
  | inr f => trivial

theorem onStartElement_effect {c : Chain Builtin} (once : c.kinds.Nodup)
    (fresh : ∀ f ∈ c.filters, Fresh f) {d : Document} {p : NodeId} (e : Element)
    (sound : d.WellFormed) (container : d.IsContainer p) :
    let started := onStartElement d.size (d.attachNew p (.element e)) c
    Effect (.startElement d.size) c.kinds (c.page (d.attachNew p (.element e)))
      (started.2.page started.1) := by
  let added := d.attachNew p (.element e)
  have filters : (c.follow added d.size).filters = c.filters := (follow_keeps c added _).filters
  have record : (c.follow added d.size).record = c.record := (follow_keeps c added _).record
  have stands := Document.attachNew_stands sound container e
  have idle : ∀ f ∈ c.filters, PageFilter.kind f ≠ .imagePriority → ∀ cx page,
      (PageFilter.startElement d.size cx page f).1 = page := by
    rintro (f | f) _ other cx page
    · exact absurd rfl other
    · rfl
  have acts : ∀ f ∈ c.filters, PageFilter.kind f = .imagePriority →
      Effect (.startElement d.size) [.imagePriority] ((c.follow added d.size).page added)
        (PageFilter.startElement d.size (c.follow added d.size).context
          ((c.follow added d.size).page added) f).1 := by
    rintro (f | f) member kind
    · exact f.onStart_effect stands sound.toLinked container (fresh _ member) _
    · cases kind
  have effect := runAll_effect once idle (c.follow added d.size).context acts
  rw [← filters] at effect
  rcases effect with same | ⟨kind, listed, did, applied⟩
  · exact .inl ⟨same.doc, record.symm.trans same.record⟩
  · refine .inr ⟨kind, ?_, did, applied.trans (congrArg (OutcomeRecord.set kind .applied) record)⟩
    rwa [filters] at listed

theorem onEndElement_effect {c : Chain Builtin} (once : c.kinds.Nodup) (id : NodeId)
    (d : Document) :
    let ended := onEndElement id d c
    Effect (.endElement id) c.kinds (c.page d) (ended.2.page ended.1) := by
  have idle : ∀ f ∈ c.filters, PageFilter.kind f ≠ .legacyPolyfills → ∀ cx page,
      (PageFilter.endElement id cx page f).1 = page := by
    intro f _ other cx page
    exact endElement_idle cx page fun same => absurd same other
  have acts : ∀ f ∈ c.filters, PageFilter.kind f = .legacyPolyfills →
      Effect (.endElement id) [.legacyPolyfills] (c.page d)
        (PageFilter.endElement id c.context (c.page d) f).1 := by
    rintro (f | f) _ kind
    · cases kind
    · exact f.onEnd_effect id c.context (c.page d)
  have effect : Effect (.endElement id) c.kinds (c.page d) (c.ending id d).1 := by
    unfold ending
    split
    · exact runWhileAttached_effect once idle c.context id acts
    · exact runAll_effect once idle c.context acts
  rw [onEndElement_eq, leave_eq]
  exact effect

/-- The record agrees with the calls in a log. -/
structure Truthful (x : Chain Builtin × List Occasion) : Prop where
  once : x.1.kinds.Nodup
  fresh : ∀ f ∈ x.1.filters, Fresh f
  effects : ∀ o ∈ x.2, o.after = o.before ∨ ∃ kind, o.Did kind
  known : ∀ kind, (x.1.record.outcome? kind).isSome ↔ kind ∈ x.1.kinds
  applied : ∀ kind, x.1.record.outcome? kind = some .applied ↔ ∃ o ∈ x.2, o.Did kind

theorem Truthful.call {c c' : Chain Builtin} {log : List Occasion} (truthful : Truthful (c, log))
    {call : Call NodeId} {d d' : Document} (sound : d.WellFormed) (kinds : c.kinds = c'.kinds)
    (fresh : ∀ f ∈ c'.filters, Fresh f) (effect : Effect call c.kinds (c.page d) (c'.page d')) :
    Truthful (c', log ++ [⟨call, d, d'⟩]) := by
  obtain ⟨once, _, effects, known, applied⟩ := truthful
  dsimp only at once effects known applied
  let o : Occasion := ⟨call, d, d'⟩
  have listed : ∀ kind, (∃ o' ∈ log ++ [o], o'.Did kind) ↔
      c.record.outcome? kind = some .applied ∨ o.Did kind := by
    intro kind
    simp [applied, or_and_right, exists_or]
  rcases effect with ⟨doc, record⟩ | ⟨kind, member, did, record⟩
  · have idle : ∀ kind, ¬ o.Did kind := fun kind did => did.changes sound doc.symm
    have record : c.record = c'.record := record
    refine ⟨kinds ▸ once, fresh, ?_, ?_, ?_⟩
    · intro o' inside
      rcases List.mem_append.mp inside with old | new
      · exact effects o' old
      · rw [List.mem_singleton.mp new]
        exact .inl doc.symm
    · intro kind
      rw [← record, ← kinds]
      exact known kind
    · intro kind
      rw [listed, ← record]
      simp [idle]
  · have record : c'.record = c.record.set kind .applied := record
    have outcome : ∀ other, c'.record.outcome? other =
        if other = kind then some .applied else c.record.outcome? other := by
      intro other
      rw [record]
      rfl
    refine ⟨kinds ▸ once, fresh, ?_, ?_, ?_⟩
    · intro o' inside
      rcases List.mem_append.mp inside with old | new
      · exact effects o' old
      · rw [List.mem_singleton.mp new]
        exact .inr ⟨kind, did⟩
    · intro other
      rw [outcome, ← kinds]
      by_cases same : other = kind
      · simp [same, member]
      · rw [if_neg same]
        exact known other
    · intro other
      rw [listed, outcome]
      by_cases same : other = kind
      · subst same
        have here : o.Did other := did
        simp [here]
      · have not : ¬ o.Did other := fun others => same (others.kind_eq did)
        simp [same, not]

theorem onStartDocument_outcome (c : Chain Builtin) (d : Document) (kind : FilterKind) :
    (onStartDocument d c).2.record.outcome? kind =
      if kind ∈ c.kinds then some .notApplied else none := by
  obtain ⟨_, outcome⟩ := foldl_setOutcome c.kinds ⟨d, {}, c.notices⟩
  unfold onStartDocument
  dsimp only
  rw [runAll_startDocument]
  exact outcome kind

theorem onStartDocument_filters (c : Chain Builtin) (d : Document) :
    (onStartDocument d c).2.filters = c.kinds.map Builtin.ofKind := by
  unfold onStartDocument
  dsimp only
  rw [runAll_startDocument]
  rfl

theorem truthful_started {c : Chain Builtin} (once : c.kinds.Nodup) :
    Truthful ((observer : Observer (Chain Builtin)).recorded.startDocument .empty (c, [])).2 := by
  let begun := onStartDocument .empty c
  have kinds : c.kinds = begun.2.kinds := (onStartDocument_sameMake c .empty).kinds
  have doc : begun.1 = .empty := (onStartDocument_doc c .empty).1
  have outcome := onStartDocument_outcome c .empty
  have filters : begun.2.filters = c.kinds.map Builtin.ofKind := onStartDocument_filters c .empty
  change Truthful (begun.2, [⟨.startDocument, .empty, begun.1⟩])
  refine ⟨kinds ▸ once, ?_, ?_, ?_, ?_⟩
  · intro f member
    rw [filters] at member
    obtain ⟨kind, _, rfl⟩ := List.mem_map.mp member
    cases kind with
    | imagePriority => exact fun _ => rfl
    | legacyPolyfills => trivial
  · intro o member
    rw [List.mem_singleton.mp member]
    exact .inl doc
  · intro kind
    rw [outcome kind, ← kinds]
    simp
  · intro kind
    have idle : ¬ Occasion.Did ⟨.startDocument, .empty, begun.1⟩ kind := by
      intro did
      cases kind with
      | imagePriority =>
        obtain ⟨_, _, call, _⟩ := did
        cases call
      | legacyPolyfills =>
        obtain ⟨_, call, _⟩ := did
        cases call
    rw [outcome kind]
    simp [idle]

theorem parseWith_truthful {c : Chain Builtin} (once : c.kinds.Nodup) (text : String) :
    Truthful (parseWith (observer : Observer (Chain Builtin)).recorded text (c, [])).2 := by
  refine parseWith_kept (observer_editsOnly Builtin.editsOnly).recorded (P := Truthful)
    (truthful_started once) ?_ ?_ ?_ ?_ text
  · rintro d p e ⟨c, log⟩ sound container truthful
    have grown := Document.attachNew_extends sound container (.element e)
    have effect := onStartElement_effect truthful.once truthful.fresh e sound container
    refine truthful.call grown.sound (onStartElement_sameMake c _ _).kinds ?_ effect
    have filters := (follow_keeps c (d.attachNew p (.element e)) d.size).filters
    exact runAll_filters (startElement_fresh d.size) (filters.symm ▸ truthful.fresh) _
  · rintro id d ⟨c, log⟩ sound truthful
    have fresh : ∀ f ∈ (onEndElement id d c).2.filters, Fresh f := by
      rw [onEndElement_eq, leave_eq]
      exact ending_filters (endElement_fresh id) (fun _ fresh => fresh) truthful.fresh d
    exact truthful.call sound (onEndElement_sameMake c id d).kinds fresh
      (onEndElement_effect truthful.once id d)
  · rintro what ⟨c, log⟩ truthful
    exact ⟨truthful.once, truthful.fresh, truthful.effects, truthful.known, truthful.applied⟩
  · rintro d ⟨c, log⟩ sound truthful
    obtain ⟨doc, record⟩ := onEndDocument_doc c d
    have fresh : ∀ f ∈ (onEndDocument d c).2.filters, Fresh f := by
      refine runAll_filters ?_ truthful.fresh (c.page d)
      rintro p (f | f) fresh
      · exact fresh
      · trivial
    exact truthful.call sound (onEndDocument_sameMake c d).kinds fresh
      (.inl ⟨doc.symm, record.symm⟩)

theorem parseWith_record {c : Chain Builtin} (once : c.kinds.Nodup) (text : String) :
    let record := (parseWith observer text c).2.record
    let log := Observer.log observer text c
    (∀ kind, (record.outcome? kind).isSome ↔ kind ∈ c.kinds) ∧
      (∀ kind, record.outcome? kind = some .applied ↔ ∃ o ∈ log, o.Did kind) ∧
      ∀ o ∈ log, o.after = o.before ∨ ∃ kind, o.Did kind := by
  intro record log
  have truthful := parseWith_truthful once text
  have final : (parseWith observer text c).2 =
      (parseWith (observer : Observer (Chain Builtin)).recorded text (c, [])).2.1 := by
    rw [parseWith_recorded]
  have kinds : c.kinds = (parseWith observer text c).2.kinds := (parseWith_sameMake c text).kinds
  have known := truthful.known
  have applied := truthful.applied
  rw [← final] at known applied
  rw [kinds]
  exact ⟨known, applied, truthful.effects⟩

theorem kinds_ofOptions (options : Options) :
    (ofOptions Builtin.ofKind options).kinds = options.enabled := by
  have added : ∀ (ks : List FilterKind) (c : Chain Builtin),
      (ks.foldl (fun c kind => c.add (Builtin.ofKind kind)) c).kinds = c.kinds ++ ks := by
    intro ks
    induction ks with
    | nil => intro c; simp
    | cons kind rest ih =>
      intro c
      have first : (c.add (Builtin.ofKind kind)).kinds = c.kinds ++ [kind] := by
        cases kind <;> simp [kinds, add, notify, Builtin.ofKind, PageFilter.kind]
      rw [List.foldl_cons, ih, first, List.append_assoc]
      rfl
  exact added options.enabled { options }

/-- The record of a page names the filters that are enabled, each once, and says of each whether its
work was done; if no work was done, the page is written as its text is read. -/
theorem record_truthful (enabled : FilterKind → Bool) (policy : Policy) (earlier : List Request)
    (url text : String) :
    let new : Chain Builtin :=
      { ofOptions Builtin.ofKind (Options.ofPred enabled) with policy }
    let c := new.afterRequests earlier
    match Url.parse url with
    | .error cause => c.run url text = (.error (.invalidUrl url cause), c)
    | .ok documentUrl =>
      let log := Observer.log observer text (c.opened documentUrl text)
      let record := (c.run url text).2.record
      (∃ html, (c.run url text).1 = .ok html) ∧
        record.toList.map Prod.fst = FilterKind.all.filter enabled ∧
        (record.outcome? .imagePriority = some .applied ↔ ∃ o ∈ log, ∃ id src, o.Promotes id src) ∧
        (record.outcome? .legacyPolyfills = some .applied ↔ ∃ o ∈ log, ∃ id, o.Removes id) ∧
        (∀ o ∈ log, o.after = o.before ∨ (∃ id src, o.Promotes id src) ∨ ∃ id, o.Removes id) ∧
        ((∀ entry ∈ record.toList, entry.2 = .notApplied) →
          (c.run url text).1 = .ok (PageFilters.parse text).html) := by
  intro new c
  have kinds : c.kinds = FilterKind.all.filter enabled := by
    rw [← (afterRequests_sameMake new earlier).kinds]
    exact kinds_ofOptions (Options.ofPred enabled)
  cases parsed : Url.parse url with
  | error cause =>
    dsimp only
    rw [run, parse_refused c parsed]
    rfl
  | ok documentUrl =>
    let opened := c.opened documentUrl text
    have once : opened.kinds.Nodup := by
      rw [show opened.kinds = c.kinds from rfl, kinds]
      exact List.Nodup.filter _ (by decide)
    obtain ⟨known, applied, effects⟩ := parseWith_record once text
    dsimp only
    rw [run_opened c parsed]
    refine ⟨⟨_, rfl⟩, ?_, applied .imagePriority, applied .legacyPolyfills, ?_, ?_⟩
    · rw [OutcomeRecord.names_toList]
      apply List.filter_congr
      intro kind member
      rw [Bool.eq_iff_iff, known, show opened.kinds = c.kinds from rfl, kinds, List.mem_filter]
      exact and_iff_right member
    · intro o member
      refine (effects o member).imp_right ?_
      rintro ⟨kind, did⟩
      cases kind with
      | imagePriority => exact .inl did
      | legacyPolyfills => exact .inr did
    · intro idle
      have still : ∀ o ∈ Observer.log observer text opened, o.after = o.before := by
        intro o member
        rcases effects o member with same | ⟨kind, did⟩
        · exact same
        · have entry := (OutcomeRecord.mem_toList _).mpr ((applied kind).mpr ⟨o, member, did⟩)
          cases idle _ entry
      rw [parseWith_still still]

end Chain

end PageFilters
