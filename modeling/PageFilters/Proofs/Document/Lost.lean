import PageFilters.Markup.Html
import PageFilters.Proofs.Document.WellFormed

/-!
Leaving the tree is for good. A deleted node never gets a parent again. What lies below it carries
no mark of its own, but it stays below a deleted node, whatever else is done to it: that it is
deleted itself, that more is added to it, or that a node on the way is deleted. What cannot be
reached cannot be seen either.
-/

namespace PageFilters

namespace Document

variable {d d' : Document} {a c id p x : NodeId}

structure SameShape (d d' : Document) : Prop where
  parent : ∀ x, d'.parent? x = d.parent? x
  children : ∀ x, d'.children x = d.children x
  attached : ∀ x, d'.isAttached x = d.isAttached x
  deleted : ∀ x, d'.isDeleted x = d.isDeleted x

theorem SameShape.refl (d : Document) : SameShape d d :=
  ⟨fun _ => rfl, fun _ => rfl, fun _ => rfl, fun _ => rfl⟩

theorem SameShape.reaches (same : SameShape d d') : d'.Reaches a x ↔ d.Reaches a x := by
  simp only [Reaches, same.children]

inductive Edited (d d' : Document) : Prop where
  | still (same : SameShape d d')
  | attached {p c : NodeId} {before after : List NodeId} (legal : d.Attachable p c)
      (attaches : Attaches d d' p c before after)
  | detached {p c : NodeId} {before after : List NodeId} (parent : d.parent? c = some p)
      (detaches : Detaches d d' p c before after)

theorem edited (linked : d.Linked) (e : Edit) : Edited d (d.edit e) := by
  have makes := edit_makes linked e
  generalize d.edit e = d' at makes ⊢
  cases makes with
  | created data =>
    exact .still ⟨d.parent_create data, d.children_create data, d.isAttached_create data,
      d.isDeleted_create data⟩
  | modified node change =>
    have shape := fun x => sameShape_modifyElement d node x change
    exact .still ⟨fun x => (shape x).1, fun x => (shape x).2.1, fun x => (shape x).2.2.1,
      fun x => (shape x).2.2.2⟩
  | refused _ => exact .still (.refl d)
  | attached _ legal attaches => exact .attached legal attaches
  | detached _ parent detaches => exact .detached parent detaches

theorem Becomes.keeps {P : Document → Prop} (becomes : d.Becomes d') (sound : d.WellFormed)
    (step : ∀ d e, d.WellFormed → P d → P (d.edit e)) (holds : P d) : P d' := by
  obtain ⟨edits, rfl⟩ := becomes
  induction edits generalizing d with
  | nil => exact holds
  | cons e edits ih => exact ih (edit_wellFormed sound e) (step d e sound holds)

theorem isDeleted_edit (sound : d.WellFormed) (e : Edit) (deleted : d.isDeleted id = true) :
    (d.edit e).isDeleted id = true := by
  cases edited sound.toLinked e with
  | still same => rw [same.deleted, deleted]
  | attached legal attaches => rw [attaches.deleted, deleted]
  | detached parent detaches => rw [detaches.deleted, deleted, Bool.true_or]

theorem Becomes.isDeleted (becomes : d.Becomes d') (sound : d.WellFormed)
    (deleted : d.isDeleted id = true) : d'.isDeleted id = true :=
  becomes.keeps sound (fun _ e sound => isDeleted_edit sound e) deleted

theorem isDeleted_delete (sound : d.WellFormed) (done : d.delete? id = some d') :
    d'.isDeleted id = true := by
  obtain ⟨_, _, _, _, detaches⟩ := delete_detaches sound.toLinked done
  simp [detaches.deleted]

theorem WellFormed.unattached_of_isDeleted (sound : d.WellFormed) (other : id ≠ root)
    (deleted : d.isDeleted id = true) : d.isAttached id = false := by
  rw [← Bool.not_eq_true, sound.attached_iff]
  intro way
  rcases way.cases_tail with same | ⟨p, _, listed⟩
  · exact other same
  · have parent := (sound.parent_iff p id).mpr listed
    rw [sound.deleted_orphan id deleted] at parent
    cases parent

theorem Becomes.parent_or_deleted (becomes : d.Becomes d') (sound : d.WellFormed)
    (parent : d.parent? c = some p) : d'.parent? c = some p ∨ d'.isDeleted c = true := by
  refine becomes.keeps (P := fun d => d.parent? c = some p ∨ d.isDeleted c = true) sound ?_
    (.inl parent)
  intro d e sound holds
  rcases holds with parent | deleted
  · cases edited sound.toLinked e with
    | still same => rw [same.parent]; exact .inl parent
    | attached legal attaches =>
      rw [attaches.parent, if_neg]
      · exact .inl parent
      · rintro rfl
        rw [legal.orphan] at parent
        cases parent
    | @detached _ gone _ _ _ detaches =>
      by_cases same : c = gone
      · exact .inr (by simp [detaches.deleted, same])
      · rw [detaches.parent, if_neg same]
        exact .inl parent
  · exact .inr (isDeleted_edit sound e deleted)

/-- Whether a node was deleted or lies below one that was. -/
def IsLost (d : Document) (id : NodeId) : Prop :=
  ∃ a, a ≠ root ∧ d.isDeleted a = true ∧ d.Reaches a id

theorem IsLost.child (lost : d.IsLost p) (linked : d.Linked) (parent : d.parent? c = some p) :
    d.IsLost c := by
  obtain ⟨a, other, deleted, way⟩ := lost
  exact ⟨a, other, deleted, way.tail ((linked.parent_iff p c).mp parent)⟩

theorem WellFormed.isAttached_child (sound : d.WellFormed) (parent : d.parent? c = some p)
    (attached : d.isAttached c = true) : d.isAttached p = true := by
  rcases ((sound.attached_iff c).mp attached).cases_tail with same | ⟨q, way, listed⟩
  · rw [same, sound.root_orphan] at parent
    cases parent
  · rw [(sound.parent_iff q c).mpr listed, Option.some.injEq] at parent
    exact parent ▸ (sound.attached_iff q).mpr way

theorem IsLost.unattached (lost : d.IsLost id) (sound : d.WellFormed) :
    d.isAttached id = false := by
  obtain ⟨a, other, deleted, way⟩ := lost
  induction way with
  | refl => exact sound.unattached_of_isDeleted other deleted
  | @tail y z _ listed ih =>
    rw [← Bool.not_eq_true]
    intro attached
    rw [sound.isAttached_child ((sound.parent_iff y z).mpr listed) attached] at ih
    cases ih

theorem Detaches.isLost {before after : List NodeId} (detaches : Detaches d d' p c before after)
    (linked : d.Linked) (parent : d.parent? c = some p) (below : d.Reaches c id) :
    d'.IsLost id := by
  refine ⟨c, ?_, by simp [detaches.deleted], (detaches.reaches_below linked).mpr below⟩
  rintro rfl
  rw [linked.root_orphan] at parent
  cases parent

theorem isLost_edit (sound : d.WellFormed) (e : Edit) (lost : d.IsLost id) :
    (d.edit e).IsLost id := by
  obtain ⟨a, other, deleted, way⟩ := lost
  have still := isDeleted_edit sound e deleted
  cases edited sound.toLinked e with
  | still same => exact ⟨a, other, still, same.reaches.mpr way⟩
  | attached legal attaches => exact ⟨a, other, still, attaches.reaches.mpr (.inl way)⟩
  | @detached _ gone _ _ parent detaches =>
    by_cases below : d.Reaches gone id
    · exact detaches.isLost sound.toLinked parent below
    · exact ⟨a, other, still, detaches.reaches_outside sound.toLinked way below⟩

theorem Becomes.isLost (becomes : d.Becomes d') (sound : d.WellFormed) (lost : d.IsLost id) :
    d'.IsLost id :=
  becomes.keeps sound (fun _ e sound => isLost_edit sound e) lost

theorem Becomes.attached_or_lost (becomes : d.Becomes d') (sound : d.WellFormed)
    (attached : d.isAttached id = true) : d'.isAttached id = true ∨ d'.IsLost id := by
  refine becomes.keeps (P := fun d => d.isAttached id = true ∨ d.IsLost id) sound ?_
    (.inl attached)
  intro d e sound holds
  rcases holds with attached | lost
  · have way := (sound.attached_iff id).mp attached
    cases edited sound.toLinked e with
    | still same => rw [same.attached]; exact .inl attached
    | attached legal attaches =>
      have later := attach_wellFormed sound legal attaches
      exact .inl ((later.attached_iff id).mpr (attaches.reaches.mpr (.inl way)))
    | @detached _ gone _ _ parent detaches =>
      by_cases below : d.Reaches gone id
      · exact .inr (detaches.isLost sound.toLinked parent below)
      · exact .inl ((detaches.attached id).mpr ⟨below, attached⟩)
  · exact .inr (isLost_edit sound e lost)

/-- Whether a node is out of the tree and cannot be seen: it is no element of the document, and what
its slot holds does not matter for the markup. -/
structure Hides (d : Document) (id : NodeId) : Prop where
  unattached : d.isAttached id = false
  unlisted : id ∉ d.elements
  unwritten : ∀ f, (d.modifySlot id f).html = d.html

def Work.target : Work → NodeId
  | .node id _ | .endTag id => id

theorem workStep_below (d : Document) (work : Work) :
    ∀ next ∈ (d.workStep work).2, d.Reaches work.target next.target := by
  have child : ∀ id raw, ∀ next ∈ d.childWork id raw, d.Reaches id next.target := by
    intro id raw next member
    obtain ⟨c, listed, rfl⟩ := List.mem_map.mp member
    exact .single listed
  intro next member
  cases work with
  | endTag id => cases member
  | node id raw =>
    rw [workStep] at member
    split at member
    · cases member
    · exact child id false next member
    · cases member
    · cases member
    · cases member
    · split at member
      · cases member
      · rcases List.mem_append.mp member with below | last
        · exact child id _ next below
        · rw [List.mem_singleton.mp last]
          exact .refl

theorem workStep_modifySlot {f : Slot → Slot} {work : Work} (other : work.target ≠ id) :
    (d.modifySlot id f).workStep work = d.workStep work := by
  have slot : (d.modifySlot id f).slot? work.target = d.slot? work.target := by
    rw [slot_modifySlot, if_neg (Ne.symm other)]
  cases work with
  | endTag x =>
    change (d.modifySlot id f).slot? x = d.slot? x at slot
    simp only [workStep, element?, data?, slot]
  | node x raw =>
    change (d.modifySlot id f).slot? x = d.slot? x at slot
    simp only [workStep, childWork, children, data?, slot]

theorem write_modifySlot (unreached : ¬ d.Reaches root id) (f : Slot → Slot) {n : Nat}
    {works : List Work} {out : String} (within : ∀ work ∈ works, d.Reaches root work.target) :
    (d.modifySlot id f).write n works out = d.write n works out := by
  induction n generalizing works out with
  | zero => cases works <;> rfl
  | succ n ih =>
    cases works with
    | nil => rfl
    | cons work waiting =>
      have way := within work (List.mem_cons_self ..)
      have other : work.target ≠ id := fun same => unreached (same ▸ way)
      rw [write, write, workStep_modifySlot other]
      apply ih
      intro next member
      rcases List.mem_append.mp member with new | old
      · exact way.trans (workStep_below d work next new)
      · exact within next (List.mem_cons_of_mem _ old)

theorem WellFormed.hides (sound : d.WellFormed) (unattached : d.isAttached id = false) :
    d.Hides id := by
  have unreached : ¬ d.Reaches root id := by
    rw [← sound.attached_iff, unattached]
    exact Bool.false_ne_true
  constructor
  case unattached => exact unattached
  case unlisted =>
    intro member
    exact unreached (sound.mem_preorder_iff.mp (List.mem_filter.mp member).1)
  case unwritten =>
    intro f
    have notRoot : root ≠ id := fun same => unreached (same ▸ .refl)
    have start : (d.modifySlot id f).childWork root false = d.childWork root false := by
      rw [childWork, childWork, children, slot_modifySlot, if_neg (Ne.symm notRoot), children]
    rw [html, html, size_modifySlot, start]
    apply write_modifySlot unreached f
    intro work member
    obtain ⟨c, listed, rfl⟩ := List.mem_map.mp member
    exact .single listed

end Document

end PageFilters
