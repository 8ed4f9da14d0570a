import PageFilters.Proofs.Document.Slots

/-!
Deleting a node: its parent's child list loses it, and exactly its subtree gets out of reach. Sound
links stay sound.
-/

namespace PageFilters

namespace Document

structure Orphans (d d' : Document) (p c : NodeId) (before after : List NodeId) : Prop where
  siblings : d.children p = before ++ c :: after
  size : d'.size = d.size
  data : ∀ x, d'.data? x = d.data? x
  children : ∀ x, d'.children x = if x = p then before ++ after else d.children x
  parent : ∀ x, d'.parent? x = if x = c then none else d.parent? x
  deleted : ∀ x, d'.isDeleted x = (d.isDeleted x || decide (x = c))

namespace Orphans

variable {d d' : Document} {p c : NodeId} {before after : List NodeId}

theorem listed (orphans : Orphans d d' p c before after) : c ∈ d.children p := by
  simp [orphans.siblings]

theorem mem_children (orphans : Orphans d d' p c before after) (linked : d.Linked) {x y : NodeId} :
    y ∈ d'.children x ↔ y ∈ d.children x ∧ y ≠ c := by
  have once := linked.listed_once p
  rw [orphans.siblings] at once
  have missing := (List.nodup_cons.mp (List.nodup_middle.mp once)).1
  rw [orphans.children]
  by_cases here : x = p
  · subst here
    simp only [↓reduceIte, orphans.siblings, List.mem_append, List.mem_cons]
    constructor
    · intro member
      refine ⟨by tauto, ?_⟩
      intro same
      exact missing (same ▸ List.mem_append.mpr member)
    · tauto
  · simp only [here, ↓reduceIte, iff_self_and]
    intro member same
    have parent := (linked.parent_iff x y).mpr member
    rw [same, (linked.parent_iff p c).mpr orphans.listed, Option.some.injEq] at parent
    exact here parent.symm

theorem reaches_of_reaches (orphans : Orphans d d' p c before after) (linked : d.Linked)
    {a x : NodeId} (way : d'.Reaches a x) : d.Reaches a x :=
  Relation.ReflTransGen.mono (fun _ _ edge => ((orphans.mem_children linked).mp edge).1) _ _ way

theorem reaches_outside (orphans : Orphans d d' p c before after) (linked : d.Linked)
    {a x : NodeId} (way : d.Reaches a x) (outside : ¬ d.Reaches c x) : d'.Reaches a x := by
  induction way with
  | refl => exact .refl
  | @tail y z _ edge ih =>
    have above : ¬ d.Reaches c y := fun below => outside (below.tail edge)
    have other : z ≠ c := fun same => outside (same ▸ .refl)
    exact (ih above).tail ((orphans.mem_children linked).mpr ⟨edge, other⟩)

theorem reaches_below (orphans : Orphans d d' p c before after) (linked : d.Linked) {x : NodeId} :
    d'.Reaches c x ↔ d.Reaches c x := by
  refine ⟨orphans.reaches_of_reaches linked, fun way => ?_⟩
  induction way with
  | refl => exact .refl
  | @tail y z above edge ih =>
    have other : z ≠ c := by
      intro same
      subst same
      exact linked.not_reaches_parent edge above
    exact ih.tail ((orphans.mem_children linked).mpr ⟨edge, other⟩)

theorem root_reaches (orphans : Orphans d d' p c before after) (linked : d.Linked) {x : NodeId} :
    d'.Reaches root x ↔ d.Reaches root x ∧ ¬ d.Reaches c x := by
  have child_parent := (linked.parent_iff p c).mpr orphans.listed
  constructor
  · intro way
    refine ⟨orphans.reaches_of_reaches linked way, ?_⟩
    induction way with
    | refl =>
      intro below
      rcases below.cases_tail with same | ⟨y, _, edge⟩
      · rw [← same, linked.root_orphan] at child_parent
        cases child_parent
      · have parent := (linked.parent_iff y root).mpr edge
        rw [linked.root_orphan] at parent
        cases parent
    | @tail y z _ edge ih =>
      intro below
      obtain ⟨old, other⟩ := (orphans.mem_children linked).mp edge
      rcases below.cases_tail with same | ⟨w, above, last⟩
      · exact other same
      · have parent := (linked.parent_iff y z).mpr old
        rw [(linked.parent_iff w z).mpr last, Option.some.injEq] at parent
        subst parent
        exact ih above
  · rintro ⟨way, outside⟩
    exact orphans.reaches_outside linked way outside

theorem linked (orphans : Orphans d d' p c before after) (linked : d.Linked) : d'.Linked := by
  have parent_iff : ∀ x y, d'.parent? y = some x ↔ y ∈ d'.children x := by
    intro x y
    rw [orphans.mem_children linked, orphans.parent]
    by_cases same : y = c
    · simp [same]
    · simp [same, linked.parent_iff]
  refine ⟨(orphans.data _).trans linked.root_data, ?_, parent_iff, ?_, ?_, ?_⟩
  · rw [orphans.parent]
    split
    · rfl
    · exact linked.root_orphan
  · intro x
    rw [orphans.children]
    split
    · have once := linked.listed_once p
      rw [orphans.siblings] at once
      exact (List.nodup_cons.mp (List.nodup_middle.mp once)).2
    · exact linked.listed_once x
  · intro x some
    rw [orphans.data]
    obtain ⟨y, member⟩ := List.exists_mem_of_ne_nil _ some
    have old := ((orphans.mem_children linked).mp member).1
    exact linked.container x (List.ne_nil_of_mem old)
  · apply acyclic_of_children parent_iff
    intro x y member back
    exact linked.not_reaches_parent ((orphans.mem_children linked).mp member).1
      (orphans.reaches_of_reaches linked back)

end Orphans

/-- `d'` is `d` without the subtree of `c`, none of which can be reached any more. -/
structure Detaches (d d' : Document) (p c : NodeId) (before after : List NodeId) : Prop
    extends Orphans d d' p c before after where
  attached : ∀ x, d'.isAttached x = true ↔ ¬ d.Reaches c x ∧ d.isAttached x = true

def unlink (parent child : NodeId) (d : Document) : Document :=
  (d.mapChildren (·.filter (· != child)) parent).modifySlot child fun slot =>
    { slot with parent := none, deleted := true }

theorem unlink_orphans {d : Document} (linked : d.Linked) {p c : NodeId}
    (parent : d.parent? c = some p) :
    ∃ before after, Orphans d (d.unlink p c) p c before after := by
  have listed := (linked.parent_iff p c).mp parent
  obtain ⟨before, after, siblings⟩ := List.append_of_mem listed
  have once := linked.listed_once p
  rw [siblings] at once
  have missing := (List.nodup_cons.mp (List.nodup_middle.mp once)).1
  have kept : (before ++ c :: after).filter (· != c) = before ++ after := by
    rw [List.filter_append, List.filter_cons_of_neg (by simp), ← List.filter_append,
      List.filter_eq_self]
    intro y member
    have other : y ≠ c := fun same => missing (same ▸ member)
    simpa using other
  obtain ⟨parentSlot, parentHeld⟩ := exists_slot (lt_size_of_mem_children listed)
  obtain ⟨childSlot, childHeld⟩ := exists_slot (lt_size_of_parent parent)
  have lists : d.children p = parentSlot.children := by simp [children, parentHeld]
  refine ⟨before, after, siblings, by simp [unlink, mapChildren], ?_, ?_, ?_, ?_⟩ <;> intro x
  · simp [unlink, mapChildren, data_modifySlot]
  · simp only [unlink, mapChildren, children_modifySlot, implies_true]
    rw [children, slot_modifySlot]
    by_cases here : x = p
    · subst here
      simpa [parentHeld, ← lists, siblings] using kept
    · simp [here, Ne.symm here, children]
  · by_cases here : x = c
    · subst here
      simp [unlink, mapChildren, parent?, slot_modifySlot, childHeld]
    · have old := parent_modifySlot (f := fun slot => { slot with
        children := slot.children.filter (· != c) }) d p x fun _ => rfl
      rw [parent?, unlink, slot_modifySlot, if_neg (Ne.symm here), if_neg here, ← old]
      rfl
  · by_cases here : x = c
    · subst here
      simp only [unlink, mapChildren, isDeleted, slot_modifySlot, childHeld, ↓reduceIte]
      split <;> simp
    · have old := isDeleted_modifySlot (f := fun slot => { slot with
        children := slot.children.filter (· != c) }) d p x fun _ => rfl
      rw [isDeleted, unlink, slot_modifySlot, if_neg (Ne.symm here), ← isDeleted, mapChildren, old]
      simp [here]

theorem delete_detaches {d d' : Document} (linked : d.Linked) {c : NodeId}
    (done : d.delete? c = some d') :
    ∃ p before after, d.parent? c = some p ∧ Detaches d d' p c before after := by
  unfold delete? at done
  split at done
  · simp at done
  · split at done
    · simp at done
    · next p parent =>
      cases done
      obtain ⟨before, after, orphans⟩ := unlink_orphans linked parent
      have same := sameLinks_markSubtree false c (d.unlink p c)
      have below : ∀ x, x ∈ (d.unlink p c).preorder c ↔ d.Reaches c x := by
        intro x
        rw [(orphans.linked linked).mem_preorder_iff, orphans.reaches_below linked]
      have unlinked : ∀ x, (d.unlink p c).isAttached x = d.isAttached x := by
        simp [unlink, mapChildren, isAttached_modifySlot]
      refine ⟨p, before, after, parent, ⟨orphans.siblings, ?_, ?_, ?_, ?_, ?_⟩, ?_⟩
      · exact (size_markSubtree _ _ _).trans orphans.size
      · intro x
        exact (same.data x).trans (orphans.data x)
      · intro x
        exact (same.children x).trans (orphans.children x)
      · intro x
        exact (same.parent x).trans (orphans.parent x)
      · intro x
        exact (same.deleted x).trans (orphans.deleted x)
      · intro x
        change ((d.unlink p c).markSubtree false c).isAttached x = true ↔ _
        by_cases inside : x < d.size
        · rw [isAttached_markSubtree false c _ (orphans.size.symm ▸ inside), unlinked]
          by_cases under : d.Reaches c x
          · simp [under, (below x).mpr under]
          · simp [under, mt (below x).mp under]
        · have beyond := Nat.le_of_not_lt inside
          have size := (size_markSubtree false c (d.unlink p c)).trans orphans.size
          simp [isAttached_eq_false_of_size_le beyond,
            isAttached_eq_false_of_size_le (size.symm ▸ beyond)]

end Document

end PageFilters
