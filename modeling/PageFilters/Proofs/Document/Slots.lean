import PageFilters.Proofs.Document.Linked

/-!
Slots that change: what a change of one field leaves as it was, and the marks of a subtree. Links
depend on data, parents and child lists only.
-/

namespace PageFilters

namespace Document

def isDeleted (d : Document) (id : NodeId) : Bool :=
  ((d.slot? id).map Slot.deleted).getD false

section

variable {f : Slot → Slot} (d : Document) (id x : NodeId)

theorem slot_map_modifySlot {β : Type} {g : Slot → β} (keeps : ∀ slot, g (f slot) = g slot) :
    ((d.modifySlot id f).slot? x).map g = (d.slot? x).map g := by
  rw [slot_modifySlot]
  split
  · rw [Option.map_map]
    exact congrArg (Option.map · _) (funext keeps)
  · rfl

theorem data_modifySlot (keeps : ∀ slot, (f slot).data = slot.data) :
    (d.modifySlot id f).data? x = d.data? x :=
  slot_map_modifySlot d id x keeps

theorem children_modifySlot (keeps : ∀ slot, (f slot).children = slot.children) :
    (d.modifySlot id f).children x = d.children x := by
  rw [children, slot_map_modifySlot d id x keeps, children]

theorem isAttached_modifySlot (keeps : ∀ slot, (f slot).attached = slot.attached) :
    (d.modifySlot id f).isAttached x = d.isAttached x := by
  rw [isAttached, slot_map_modifySlot d id x keeps, isAttached]

theorem isDeleted_modifySlot (keeps : ∀ slot, (f slot).deleted = slot.deleted) :
    (d.modifySlot id f).isDeleted x = d.isDeleted x := by
  rw [isDeleted, slot_map_modifySlot d id x keeps, isDeleted]

theorem parent_modifySlot (keeps : ∀ slot, (f slot).parent = slot.parent) :
    (d.modifySlot id f).parent? x = d.parent? x := by
  rw [parent?, slot_modifySlot, parent?]
  split
  · cases d.slot? x with
    | none => rfl
    | some slot => exact keeps slot
  · rfl

end

theorem slot_foldl_mark (attached : Bool) (ids : List NodeId) (d : Document) (x : NodeId) :
    (ids.foldl (fun d id => d.modifySlot id fun slot => { slot with attached }) d).slot? x =
      if x ∈ ids then (d.slot? x).map fun slot => { slot with attached } else d.slot? x := by
  induction ids generalizing d with
  | nil => simp
  | cons id ids ih =>
    rw [List.foldl_cons, ih, slot_modifySlot]
    by_cases here : id = x
    · subst here
      by_cases again : id ∈ ids <;> simp [again, Function.comp_def]
    · have other : ¬ x = id := fun same => here same.symm
      simp [here, other]

theorem slot_markSubtree (attached : Bool) (id : NodeId) (d : Document) (x : NodeId) :
    (d.markSubtree attached id).slot? x =
      if x ∈ d.preorder id then (d.slot? x).map fun slot => { slot with attached }
      else d.slot? x :=
  slot_foldl_mark attached (d.preorder id) d x

structure SameLinks (d d' : Document) : Prop where
  data : ∀ x, d'.data? x = d.data? x
  parent : ∀ x, d'.parent? x = d.parent? x
  children : ∀ x, d'.children x = d.children x
  deleted : ∀ x, d'.isDeleted x = d.isDeleted x

theorem sameLinks_markSubtree (attached : Bool) (id : NodeId) (d : Document) :
    SameLinks d (d.markSubtree attached id) := by
  have slot := d.slot_markSubtree attached id
  constructor <;> intro x <;>
    simp only [data?, parent?, Document.children, isDeleted, slot x] <;>
    split <;> cases d.slot? x <;> rfl

theorem isAttached_markSubtree (attached : Bool) (id : NodeId) (d : Document) {x : NodeId}
    (inside : x < d.size) :
    (d.markSubtree attached id).isAttached x =
      if x ∈ d.preorder id then attached else d.isAttached x := by
  obtain ⟨slot, held⟩ := exists_slot inside
  simp only [isAttached, slot_markSubtree, held]
  split <;> rfl

theorem size_markSubtree (attached : Bool) (id : NodeId) (d : Document) :
    (d.markSubtree attached id).size = d.size := by
  unfold markSubtree
  generalize d.preorder id = ids
  induction ids generalizing d with
  | nil => rfl
  | cons x ids ih => rw [List.foldl_cons, ih, size_modifySlot]

theorem acyclic_of_children {d : Document}
    (parent_iff : ∀ p c, d.parent? c = some p ↔ c ∈ d.children p)
    (apart : ∀ p c, c ∈ d.children p → ¬ d.Reaches c p) :
    ∀ id, ¬ Relation.TransGen (fun c p => d.parent? c = some p) id id := by
  intro id cycle
  obtain ⟨p, parent, climbs⟩ := Relation.TransGen.head'_iff.mp cycle
  apply apart p id ((parent_iff p id).mp parent)
  rw [Reaches, ← Relation.reflTransGen_swap]
  exact Relation.ReflTransGen.mono (fun c q parent => (parent_iff q c).mp parent) _ _ climbs

theorem Linked.not_reaches_parent {d : Document} (linked : d.Linked) {p c : NodeId}
    (listed : c ∈ d.children p) : ¬ d.Reaches c p := by
  intro back
  have same := linked.reaches_antisymm (.single listed) back
  subst same
  exact linked.acyclic p (.single ((linked.parent_iff p p).mpr listed))

def mapChildren (place : List NodeId → List NodeId) (id : NodeId) (d : Document) : Document :=
  d.modifySlot id fun slot => { slot with children := place slot.children }

theorem isAttached_eq_false_of_size_le {d : Document} {x : NodeId} (beyond : d.size ≤ x) :
    d.isAttached x = false := by
  simp [isAttached, slot?, Array.getElem?_eq_none beyond]

theorem Linked.reaches_lt_size {d : Document} (linked : d.Linked) {a x : NodeId}
    (inside : a < d.size) (way : d.Reaches a x) : x < d.size := by
  rcases way.cases_tail with same | ⟨_, _, listed⟩
  · rwa [same]
  · exact linked.child_lt_size listed

end Document

end PageFilters
