import Mathlib.Data.List.Pairwise
import PageFilters.Proofs.Document.Lost
import PageFilters.Proofs.Filter.Noting
import PageFilters.Proofs.Filter.Stripping
import PageFilters.Proofs.Markup.Remainder

/-!
Filters that delete an element while it ends. An element that was in the tree is out of it then, so
the chain stops there and no later filter is told of the end. But the chain can only see this if the
element was in the tree: one that ends inside a subtree that is out of it already ends before all
filters, whoever deletes it.
-/

namespace PageFilters

/-- Whether a node is deleted in the course of an occasion. -/
def Occasion.Deletes (o : Occasion) (id : NodeId) : Prop :=
  ∃ d d', o.before.Becomes d ∧ d.delete? id = some d' ∧ d'.Becomes o.after

theorem Occasion.Deletes.unattached {o : Occasion} {id : NodeId} (deletes : o.Deletes id)
    (sound : o.before.WellFormed) : o.after.isAttached id = false := by
  obtain ⟨d, d', first, done, last⟩ := deletes
  have other : id ≠ Document.root := by
    rintro rfl
    simp [Document.delete?] at done
  have between := first.wellFormed sound
  have later : d'.WellFormed := by
    obtain ⟨_, _, _, _, detaches⟩ := Document.delete_detaches between.toLinked done
    exact Document.detach_wellFormed between detaches
  exact (last.wellFormed later).unattached_of_isDeleted other
    (last.isDeleted later (Document.isDeleted_delete between done))

structure Logged (φ : Type) where
  filter : φ
  turns : List Occasion := []

namespace Logged

variable {φ : Type}

/-- The turns of a filter when an element ended. -/
def endings (id : NodeId) (f : Logged φ) : List Occasion :=
  f.turns.filter fun o => o.call = .endElement id

theorem mem_endings {id : NodeId} {f : Logged φ} {o : Occasion} :
    o ∈ f.endings id ↔ o ∈ f.turns ∧ o.call = .endElement id := by
  simp [endings]

theorem endings_ne_nil {id : NodeId} {f : Logged φ} :
    f.endings id ≠ [] ↔ ∃ o ∈ f.turns, o.call = .endElement id := by
  simp [endings]

end Logged

namespace Chain

structure Spares (id : NodeId) (log : List Occasion) (turns : List (List Occasion)) : Prop where
  early : .endElement id ∉ log.map Occasion.call → ∀ t ∈ turns, t = []
  outside : ∀ e ∈ log, e.call = .endElement id → e.before.isAttached id = false →
    ∀ t ∈ turns, t ≠ []
  inside : ∀ e ∈ log, e.call = .endElement id → e.before.isAttached id = true →
    turns.Pairwise fun s t => (∃ o ∈ s, o.Deletes id) → t = []

namespace Spares

variable {id : NodeId} {log : List Occasion} {turns : List (List Occasion)} {e : Occasion}

theorem idle (spares : Spares id log turns) (other : e.call ≠ .endElement id) :
    Spares id (log ++ [e]) turns := by
  have earlier : ∀ o ∈ log ++ [e], o.call = .endElement id → o ∈ log := by
    intro o member call
    rcases List.mem_append.mp member with old | new
    · exact old
    · rw [List.mem_singleton.mp new] at call
      exact absurd call other
  constructor
  case early =>
    intro none
    apply spares.early
    simp only [List.map_append, List.mem_append, not_or] at none
    exact none.1
  case outside => exact fun o member call => spares.outside o (earlier o member call) call
  case inside => exact fun o member call => spares.inside o (earlier o member call) call

theorem ended (none : .endElement id ∉ log.map Occasion.call) (call : e.call = .endElement id)
    (outside : e.before.isAttached id = false → ∀ t ∈ turns, t ≠ [])
    (inside : e.before.isAttached id = true →
      turns.Pairwise fun s t => (∃ o ∈ s, o.Deletes id) → t = []) :
    Spares id (log ++ [e]) turns := by
  have this : ∀ o ∈ log ++ [e], o.call = .endElement id → o = e := by
    intro o member same
    rcases List.mem_append.mp member with old | new
    · exact absurd (same ▸ List.mem_map_of_mem old) none
    · exact List.mem_singleton.mp new
  constructor
  case early =>
    intro absent
    simp [call] at absent
  case outside =>
    intro o member same
    rw [this o member same]
    exact outside
  case inside =>
    intro o member same
    rw [this o member same]
    exact inside

theorem after_deletion (spares : Spares id log turns)
    (once : (log.map Occasion.call).count (.endElement id) ≤ 1) :
    turns.Pairwise fun s t => (∃ o ∈ s, o.Deletes id) →
      (t ≠ [] ↔ ∃ e ∈ log, e.call = .endElement id ∧ e.before.isAttached id = false) := by
  by_cases told : .endElement id ∈ log.map Occasion.call
  · obtain ⟨e, member, call⟩ := List.mem_map.mp told
    have only : ∀ e' ∈ log, e'.call = .endElement id → e' = e := by
      intro e' other call'
      refine eq_of_count_one (f := Occasion.call) ?_ other member (call'.trans call.symm)
      have pos := List.count_pos_iff.mpr told
      rw [call]
      omega
    cases attached : e.before.isAttached id with
    | true =>
      have inside : ¬ ∃ e ∈ log, e.call = .endElement id ∧ e.before.isAttached id = false := by
        rintro ⟨e', other, call', outside⟩
        rw [only e' other call', attached] at outside
        cases outside
      refine (spares.inside e member call attached).imp fun last deletes => ?_
      simp [inside, last deletes]
    | false =>
      apply List.pairwise_of_forall_mem_list
      intro s _ t noted _
      have turn := spares.outside e member call attached t noted
      exact iff_of_true turn ⟨e, member, call, attached⟩
  · apply List.pairwise_of_forall_mem_list
    rintro s noted t _ ⟨o, turn, _⟩
    rw [spares.early told s noted] at turn
    cases turn

end Spares

end Chain

section

variable [UrlLibrary]

namespace Logged

variable {φ : Type}

def hook (call : Call NodeId) (inner : Hook φ) : Hook (Logged φ) := fun cx p f =>
  let (q, filter) := inner cx p f.filter
  (q, ⟨filter, f.turns ++ [⟨call, p.doc, q.doc⟩]⟩)

instance [PageFilter φ] : PageFilter (Logged φ) where
  kind f := PageFilter.kind f.filter
  startDocument cx p f :=
    let (p, filter) := PageFilter.startDocument cx p f.filter
    (p, { filter })
  startElement id := hook (.startElement id) (PageFilter.startElement id)
  endElement id := hook (.endElement id) (PageFilter.endElement id)
  endDocument cx p f :=
    let (p, filter) := PageFilter.endDocument cx p f.filter
    (p, { f with filter })

theorem contains [PageFilter φ] : PageFilter.Contains (Logged.filter : Logged φ → φ) := by
  constructor
  case kind => exact fun _ => rfl
  case startElement | endElement => exact fun _ _ _ _ => rfl
  case startDocument | endDocument => exact fun _ _ _ => rfl

theorem editsOnly [PageFilter φ] (edits : PageFilter.EditsOnly φ) :
    PageFilter.EditsOnly (Logged φ) := by
  constructor
  case startDocument => exact fun cx p f => edits.startDocument cx p f.filter
  case startElement => exact fun id cx p f => edits.startElement id cx p f.filter
  case endElement => exact fun id cx p f => edits.endElement id cx p f.filter
  case endDocument => exact fun cx p f => edits.endDocument cx p f.filter

theorem endings_hook (call : Call NodeId) (inner : Hook φ) (cx : Context) (p : Page)
    (f : Logged φ) (id : NodeId) :
    (hook call inner cx p f).2.endings id =
      f.endings id ++ if call = .endElement id
        then [⟨call, p.doc, (inner cx p f.filter).1.doc⟩] else [] := by
  simp only [endings, hook, List.filter_append, List.filter_singleton]
  by_cases here : call = .endElement id <;> simp [here]

end Logged

namespace Chain

variable {φ : Type}

def logged (c : Chain φ) : Chain (Logged φ) :=
  c.mapFilters fun filter => { filter }

def unlogged (c : Chain (Logged φ)) : Chain φ :=
  c.mapFilters Logged.filter

theorem unlogged_logged (c : Chain φ) : c.logged.unlogged = c :=
  c.mapFilters_cancel fun _ => rfl

section

variable {hook : Hook φ} {cx : Context}

theorem runWhileAttached_unattached {node : NodeId} {p : Page}
    (outside : p.doc.isAttached node = false) (fs : List φ) :
    (runWhileAttached hook cx node fs p).2 = fs := by
  cases fs with
  | nil => rfl
  | cons f rest =>
    rw [runWhileAttached, outside]
    rfl

theorem runWhileAttached_spares (edits : hook.EditsOnly) {id : NodeId} {fs : List (Logged φ)}
    (fresh : ∀ f ∈ fs, f.endings id = []) {p : Page} (sound : p.doc.WellFormed) :
    ((runWhileAttached (Logged.hook (.endElement id) hook) cx id fs p).2.map
      (Logged.endings id)).Pairwise fun s t => (∃ o ∈ s, o.Deletes id) → t = [] := by
  induction fs generalizing p with
  | nil => exact .nil
  | cons f rest ih =>
    rw [runWhileAttached]
    split
    · let q := hook cx p f.filter
      have own : (Logged.hook (.endElement id) hook cx p f).2.endings id =
          [⟨.endElement id, p.doc, q.1.doc⟩] := by
        rw [Logged.endings_hook, fresh f (List.mem_cons_self ..)]
        simp [q]
      have others : ∀ g ∈ rest, g.endings id = [] := fun g member =>
        fresh g (List.mem_cons_of_mem f member)
      have later := ih others ((edits cx p f.filter).wellFormed sound)
      refine List.Pairwise.cons ?_ later
      rintro t member ⟨o, turn, deletes⟩
      have here : o = ⟨.endElement id, p.doc, q.1.doc⟩ := List.mem_singleton.mp (own ▸ turn)
      have outside : q.1.doc.isAttached id = false := (here ▸ deletes).unattached sound
      obtain ⟨g, inside, rfl⟩ := List.mem_map.mp member
      exact others g (runWhileAttached_unattached outside rest ▸ inside)
    · rw [List.pairwise_map]
      apply List.pairwise_of_forall_mem_list
      intro g _ h member _
      exact fresh h member

end

def Sparing (id : NodeId) (x : Chain (Logged φ) × List Occasion) : Prop :=
  (x.2.map Occasion.call).count (.endElement id) ≤ 1 →
    Spares id x.2 (x.1.filters.map (Logged.endings id))

theorem Sparing.idle {id : NodeId} {c c' : Chain (Logged φ)} {log : List Occasion} {e : Occasion}
    (sparing : Sparing id (c, log)) (other : e.call ≠ .endElement id)
    (same : c'.filters.map (Logged.endings id) = c.filters.map (Logged.endings id)) :
    Sparing id (c', log ++ [e]) := by
  intro once
  have before : (log.map Occasion.call).count (.endElement id) ≤ 1 := by
    simpa [other] using once
  rw [same]
  exact (sparing before).idle other

theorem endings_hook_of_ne {call : Call NodeId} {id : NodeId} (other : call ≠ .endElement id)
    (inner : Hook φ) (cx : Context) (p : Page) (f : Logged φ) :
    (Logged.hook call inner cx p f).2.endings id = f.endings id := by
  rw [Logged.endings_hook, if_neg other, List.append_nil]

variable [PageFilter φ]

theorem Sparing.ended (edits : PageFilter.EditsOnly φ) {c : Chain (Logged φ)}
    {log : List Occasion} {id : NodeId} {d : Document} (sparing : Sparing id (c, log))
    (sound : d.WellFormed) :
    Sparing id ((onEndElement id d c).2,
      log ++ [⟨.endElement id, d, (onEndElement id d c).1⟩]) := by
  intro once
  have none : .endElement id ∉ log.map Occasion.call := by
    apply List.count_eq_zero.mp
    simpa using once
  have fresh : ∀ f ∈ c.filters, f.endings id = [] := by
    have early := (sparing (by simp [List.count_eq_zero.mpr none])).early none
    simpa using early
  rw [filters_onEndElement, ending]
  refine Spares.ended none rfl ?_ ?_
  · intro outside
    rw [if_neg (by simp [outside]), List.forall_mem_map]
    refine runAll_filters (P := fun f => f.endings id = []) ?_ fresh (c.page d)
    intro p f empty
    simp [PageFilter.endElement, Logged.endings_hook]
  · intro inside
    rw [if_pos inside]
    exact runWhileAttached_spares (edits.endElement id) fresh sound

theorem parseWith_sparing (edits : PageFilter.EditsOnly φ) (c : Chain (Logged φ)) (text : String)
    (id : NodeId) :
    Sparing id (parseWith (observer : Observer (Chain (Logged φ))).recorded text (c, [])).2 := by
  have begun : Sparing id
      ((observer : Observer (Chain (Logged φ))).recorded.startDocument .empty (c, [])).2 := by
    intro _
    constructor
    case early =>
      intro _
      rw [List.forall_mem_map]
      exact runAll_filters (P := fun _ => True) (fun _ _ _ => rfl) (fun _ _ => trivial) _
    case outside | inside =>
      intro e member call
      rw [List.mem_singleton.mp member] at call
      cases call
  refine parseWith_kept (observer_editsOnly (Logged.editsOnly edits)).recorded begun
    ?_ ?_ ?_ ?_ text
  · rintro d p e ⟨c, log⟩ _ _ sparing
    refine sparing.idle (by simp) ?_
    rw [← (follow_keeps c _ d.size).filters]
    exact runAll_map (endings_hook_of_ne (by simp) _) _ _ _
  · rintro other d ⟨c, log⟩ sound sparing
    by_cases here : other = id
    · subst here
      exact sparing.ended edits sound
    · have apart : Call.endElement other ≠ .endElement id := by simpa using here
      change Sparing id ((onEndElement other d c).2, log ++ [_])
      refine sparing.idle apart ?_
      rw [filters_onEndElement]
      exact ending_map (endings_hook_of_ne apart _) c d
  · exact fun _ _ sparing => sparing
  · rintro d ⟨c, log⟩ _ sparing
    refine sparing.idle (by simp) ?_
    exact runAll_map (fun _ _ _ => rfl) _ _ _

/-- A filter that deletes an element while it ends is the last one that is told of the end, just if
the element was in the tree when it came to its end. -/
theorem told_after_deletion_iff (edits : PageFilter.EditsOnly φ) (c : Chain φ) {url : String}
    {documentUrl : Url} (accepted : Url.parse url = .ok documentUrl) (text : String) :
    let logged := c.logged.parse url text
    let events := Observer.log observer text (c.opened documentUrl text)
    logged.1 = (c.parse url text).1 ∧ logged.2.unlogged = (c.parse url text).2 ∧
      ∀ id, logged.2.filters.Pairwise fun f g =>
        (∃ o ∈ f.turns, o.call = .endElement id ∧ o.Deletes id) →
          ((∃ o ∈ g.turns, o.call = .endElement id) ↔
            ∃ e ∈ events, e.call = .endElement id ∧ e.before.isAttached id = false) := by
  intro logged events
  obtain ⟨doc, chain⟩ := parse_mapFilters Logged.contains c.logged url text
  have unlogged : c.logged.mapFilters Logged.filter = c := c.unlogged_logged
  rw [unlogged] at doc chain
  refine ⟨doc, chain, fun id => ?_⟩
  let begun := c.logged.opened documentUrl text
  have same : Observer.log observer text begun = events := by
    rw [log_mapFilters Logged.contains, unlogged]
  have calm := Observer.undisturbed_of_editsOnly (observer_editsOnly (Logged.editsOnly edits))
    text begun
  have once : (events.map Occasion.call).count (.endElement id) ≤ 1 :=
    same ▸ calm.ended_once id
  have spares : Spares id events (logged.2.filters.map (Logged.endings id)) := by
    have sparing := parseWith_sparing edits begun text id (calm.ended_once id)
    rw [show logged = _ from parse_opened _ accepted text, calm.recorded, ← same]
    exact sparing
  refine (List.pairwise_map.mp (spares.after_deletion once)).imp fun {f g} last => ?_
  rintro ⟨o, turn, call, deletes⟩
  rw [← Logged.endings_ne_nil]
  exact last ⟨o, Logged.mem_endings.mpr ⟨turn, call⟩, deletes⟩

end Chain

end

/-- A filter that deletes the elements of one name as they start, and those of another as they
end. -/
structure Pruner where
  atStart : String
  atEnd : String

namespace Pruner

def prune (tag : String) (id : NodeId) (p : Page) : Page :=
  if (p.doc.element? id).map Element.name = some tag
  then { p with doc := p.doc.edit (.delete id) } else p

theorem prune_becomes (tag : String) (id : NodeId) (p : Page) :
    p.doc.Becomes (prune tag id p).doc := by
  unfold prune
  split
  · exact ⟨[.delete id], rfl⟩
  · exact .refl p.doc

variable [UrlLibrary]

instance : PageFilter Pruner where
  kind _ := .legacyPolyfills
  startElement id _ p f := (prune f.atStart id p, f)
  endElement id _ p f := (prune f.atEnd id p, f)

theorem editsOnly : PageFilter.EditsOnly Pruner := by
  constructor
  · exact fun _ p _ => .refl p.doc
  · exact fun id _ p f => prune_becomes f.atStart id p
  · exact fun id _ p f => prune_becomes f.atEnd id p
  · exact fun _ p _ => .refl p.doc

end Pruner

namespace Chain

theorem not_told_after_deletion :
    let c : Chain Pruner := { filters := [⟨"", "p"⟩, ⟨"", ""⟩] }
    PageFilter.EditsOnly Pruner ∧ ∃ documentUrl, Url.parse "https://a.example/" = .ok documentUrl ∧
      ∃ f g rest, (c.logged.parse "https://a.example/" "<p></p>").2.filters = f :: g :: rest ∧
        (∃ o ∈ f.turns, o.call = .endElement 1 ∧ o.Deletes 1) ∧
          ¬ ∃ o ∈ g.turns, o.call = .endElement 1 := by
  intro c
  obtain ⟨documentUrl, accepted⟩ := accepts_example
  refine ⟨Pruner.editsOnly, documentUrl, accepted, ?_⟩
  let before : Document := ⟨#[{ data := .document, children := [1], attached := true },
    { data := .element ⟨"p", []⟩, parent := some 0, attached := true }]⟩
  let after : Document := ⟨#[{ data := .document, attached := true },
    { data := .element ⟨"p", []⟩, deleted := true }]⟩
  have turns : (c.logged.parse "https://a.example/" "<p></p>").2.filters.map (Logged.endings 1) =
      [[⟨.endElement 1, before, after⟩], []] := by
    rw [parse_opened _ accepted, parseWith_eq]
    cbv
  have ends : (Observer.log observer "<p></p>" (c.opened documentUrl "<p></p>")).filterMap
      (fun e => if e.call = .endElement 1 then some (e.before.isAttached 1) else none) =
        [true] := by
    rw [Observer.log, parseWith_eq]
    cbv
  have told := (told_after_deletion_iff Pruner.editsOnly c accepted "<p></p>").2.2 1
  obtain ⟨f, _, whole, own, others⟩ := List.map_eq_cons_iff.mp turns
  obtain ⟨g, rest, rfl, _, _⟩ := List.map_eq_cons_iff.mp others
  rw [whole] at told
  have deleted : ∃ o ∈ f.turns, o.call = .endElement 1 ∧ o.Deletes 1 := by
    obtain ⟨turn, call⟩ := Logged.mem_endings.mp (own ▸ List.mem_singleton_self _)
    exact ⟨_, turn, call, before, after, .refl before, by decide +kernel, .refl after⟩
  refine ⟨f, g, rest, whole, deleted, ?_⟩
  rw [List.rel_of_pairwise_cons told (List.mem_cons_self ..) deleted]
  rintro ⟨e, member, call, outside⟩
  have listed : false ∈ [true] := by
    rw [← ends, List.mem_filterMap]
    exact ⟨e, member, by rw [if_pos call, outside]⟩
  simp at listed

/-- A division is deleted as it starts. A paragraph in it is deleted as it ends, and the second
filter is told of that end nevertheless. -/
theorem told_after_deletion :
    let c : Chain Pruner := { filters := [⟨"div", "p"⟩, ⟨"", ""⟩] }
    PageFilter.EditsOnly Pruner ∧ ∃ documentUrl, Url.parse "https://a.example/" = .ok documentUrl ∧
      ¬ ∀ id, (c.logged.parse "https://a.example/" "<div><p></p></div>").2.filters.Pairwise
        fun f g => (∃ o ∈ f.turns, o.call = .endElement id ∧ o.Deletes id) →
          ¬ ∃ o ∈ g.turns, o.call = .endElement id := by
  intro c
  obtain ⟨documentUrl, accepted⟩ := accepts_example
  refine ⟨Pruner.editsOnly, documentUrl, accepted, ?_⟩
  let before : Document := ⟨#[{ data := .document, attached := true },
    { data := .element ⟨"div", []⟩, children := [2], deleted := true },
    { data := .element ⟨"p", []⟩, parent := some 1 }]⟩
  let after : Document := ⟨#[{ data := .document, attached := true },
    { data := .element ⟨"div", []⟩, deleted := true },
    { data := .element ⟨"p", []⟩, deleted := true }]⟩
  have turns : (c.logged.parse "https://a.example/" "<div><p></p></div>").2.filters.map
      (Logged.endings 2) =
        [[⟨.endElement 2, before, after⟩], [⟨.endElement 2, after, after⟩]] := by
    rw [parse_opened _ accepted, parseWith_eq]
    cbv
  intro last
  obtain ⟨f, _, whole, own, others⟩ := List.map_eq_cons_iff.mp turns
  obtain ⟨g, rest, rfl, other, _⟩ := List.map_eq_cons_iff.mp others
  have pairs := last 2
  rw [whole] at pairs
  refine List.rel_of_pairwise_cons pairs (List.mem_cons_self ..) ?_ ?_
  · obtain ⟨turn, call⟩ := Logged.mem_endings.mp (own ▸ List.mem_singleton_self _)
    exact ⟨_, turn, call, before, after, .refl before, by decide +kernel, .refl after⟩
  · obtain ⟨turn, call⟩ := Logged.mem_endings.mp (other ▸ List.mem_singleton_self _)
    exact ⟨_, turn, call⟩

end Chain

end PageFilters
