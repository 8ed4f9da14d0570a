import Mathlib.Data.List.Nodup
import Mathlib.Logic.Relation
import PageFilters.Markup.Tree

/-!
The links between the slots of a document, apart from the flags. Where parents and child lists agree
and no node lies below itself, every walk of the document ends, and it computes a structural
recursion on the tree into which the slots unfold.
-/

namespace PageFilters

namespace Tree

theorem mapAll_eq_map (f : α → β) (ts : List (Tree α)) : mapAll f ts = ts.map (map f) := by
  induction ts with
  | nil => rfl
  | cons t ts ih => simp [mapAll, ih]

theorem preorderAll_eq_flatMap (ts : List (Tree α)) : preorderAll ts = ts.flatMap preorder := by
  induction ts with
  | nil => rfl
  | cons t ts ih => simp [preorderAll, ih]

end Tree

namespace Document

def Reaches (d : Document) (a x : NodeId) : Prop :=
  Relation.ReflTransGen (fun p c => c ∈ d.children p) a x

structure Linked (d : Document) : Prop where
  root_data : d.data? root = some .document
  root_orphan : d.parent? root = none
  parent_iff : ∀ p c, d.parent? c = some p ↔ c ∈ d.children p
  listed_once : ∀ p, (d.children p).Nodup
  container : ∀ p, d.children p ≠ [] → ∃ data, d.data? p = some data ∧ data.isContainer = true
  acyclic : ∀ id, ¬ Relation.TransGen (fun c p => d.parent? c = some p) id id

theorem lt_size_of_data {d : Document} {id : NodeId} {data : NodeData}
    (held : d.data? id = some data) : id < d.size := by
  unfold data? slot? at held
  by_contra beyond
  simp [Array.getElem?_eq_none (Nat.le_of_not_lt beyond)] at held

theorem lt_size_of_parent {d : Document} {p c : NodeId} (linked : d.parent? c = some p) :
    c < d.size := by
  unfold parent? slot? at linked
  by_contra beyond
  simp [Array.getElem?_eq_none (Nat.le_of_not_lt beyond)] at linked

theorem exists_slot {d : Document} {id : NodeId} (inside : id < d.size) :
    ∃ slot, d.slot? id = some slot :=
  ⟨d.slots[id], Array.getElem?_eq_getElem inside⟩

theorem children_eq_nil_of_size_le {d : Document} {id : NodeId} (beyond : d.size ≤ id) :
    d.children id = [] := by
  simp [children, slot?, Array.getElem?_eq_none beyond]

theorem parent_eq_none_of_size_le {d : Document} {id : NodeId} (beyond : d.size ≤ id) :
    d.parent? id = none := by
  simp [parent?, slot?, Array.getElem?_eq_none beyond]

theorem lt_size_of_mem_children {d : Document} {p c : NodeId} (listed : c ∈ d.children p) :
    p < d.size := by
  by_contra beyond
  simp [children_eq_nil_of_size_le (Nat.le_of_not_lt beyond)] at listed

namespace Linked

variable {d : Document}

theorem size_pos (linked : d.Linked) : 0 < d.size :=
  lt_size_of_data linked.root_data

theorem child_lt_size (linked : d.Linked) {p c : NodeId} (listed : c ∈ d.children p) :
    c < d.size :=
  lt_size_of_parent ((linked.parent_iff p c).mpr listed)

theorem parent_lt_size (linked : d.Linked) {p c : NodeId} (parent : d.parent? c = some p) :
    p < d.size :=
  lt_size_of_mem_children ((linked.parent_iff p c).mp parent)

theorem reaches_iff_climbs (linked : d.Linked) {a x : NodeId} :
    d.Reaches a x ↔ Relation.ReflTransGen (fun c p => d.parent? c = some p) x a := by
  rw [Reaches, ← Relation.reflTransGen_swap]
  have same : Function.swap (fun p c => c ∈ d.children p) = fun c p => d.parent? c = some p := by
    funext c p
    exact propext (linked.parent_iff p c).symm
  rw [same]

theorem reaches_antisymm (linked : d.Linked) {a b : NodeId} (down : d.Reaches a b)
    (up : d.Reaches b a) : a = b := by
  rcases Relation.reflTransGen_iff_eq_or_transGen.mp (linked.reaches_iff_climbs.mp down) with
    same | climbs
  · exact same
  · exact absurd (climbs.trans_left (linked.reaches_iff_climbs.mp up)) (linked.acyclic b)

theorem mem_parentChain_climbs {n : Nat} {x a : NodeId} (member : a ∈ d.parentChain n (some x)) :
    Relation.ReflTransGen (fun c p => d.parent? c = some p) x a := by
  induction n generalizing x with
  | zero => simp [parentChain] at member
  | succ n ih =>
    rcases List.mem_cons.mp member with same | above
    · rw [same]
    · cases parent : d.parent? x with
      | none => cases n <;> simp [parent, parentChain] at above
      | some p =>
        rw [parent] at above
        exact .head parent (ih above)

theorem parentChain_nodup (linked : d.Linked) (n : Nat) (x : Option NodeId) :
    (d.parentChain n x).Nodup := by
  induction n generalizing x with
  | zero => cases x <;> exact List.nodup_nil
  | succ n ih =>
    cases x with
    | none => exact List.nodup_nil
    | some x =>
      refine List.nodup_cons.mpr ⟨fun again => ?_, ih _⟩
      cases parent : d.parent? x with
      | none => cases n <;> simp [parent, parentChain] at again
      | some p =>
        rw [parent] at again
        exact linked.acyclic x (.head' parent (mem_parentChain_climbs again))

theorem parentChain_complete {n : Nat} {x : Option NodeId}
    (short : (d.parentChain n x).length < n) : d.parentChain (n + 1) x = d.parentChain n x := by
  induction n generalizing x with
  | zero => omega
  | succ n ih =>
    cases x with
    | none => rfl
    | some x =>
      rw [parentChain, List.length_cons] at short
      rw [parentChain, parentChain, ih (by omega)]

theorem parentChain_bounded (linked : d.Linked) {n : Nat} {x : NodeId} (inside : x < d.size) :
    ∀ a ∈ d.parentChain n (some x), a < d.size := by
  intro a member
  rcases (mem_parentChain_climbs member).cases_tail with same | ⟨_, _, parent⟩
  · rwa [same]
  · exact linked.parent_lt_size parent

theorem ancestors_length_lt (linked : d.Linked) (x : NodeId) : (d.ancestors x).length < d.size := by
  cases parent : d.parent? x with
  | none => simpa [ancestors, parent, parentChain] using linked.size_pos
  | some p =>
    have whole : (d.parentChain (d.size + 1) (some x)).Nodup := linked.parentChain_nodup _ _
    have bounded := linked.parentChain_bounded (n := d.size + 1) (lt_size_of_parent parent)
    have subset : d.parentChain (d.size + 1) (some x) ⊆ List.range d.size := fun a member =>
      List.mem_range.mpr (bounded a member)
    have fits := whole.length_le_of_subset subset
    rw [parentChain, List.length_cons, List.length_range] at fits
    exact fits

theorem ancestors_of_parent (linked : d.Linked) {p c : NodeId} (parent : d.parent? c = some p) :
    d.ancestors c = p :: d.ancestors p := by
  have short := linked.ancestors_length_lt c
  rw [ancestors, ← parentChain_complete short, parent]
  rfl

theorem ancestors_of_orphan {c : NodeId} (orphan : d.parent? c = none) : d.ancestors c = [] := by
  rw [ancestors, orphan]
  cases d.size <;> rfl

theorem induction_down (linked : d.Linked) {motive : NodeId → Prop}
    (step : ∀ id, (∀ c ∈ d.children id, motive c) → motive id) : ∀ id, motive id := by
  intro id
  induction h : d.size - (d.ancestors id).length using Nat.strongRecOn generalizing id with
  | ind k ih =>
    apply step
    intro c listed
    have deeper := linked.ancestors_of_parent ((linked.parent_iff id c).mpr listed)
    have room := linked.ancestors_length_lt c
    apply ih _ _ c rfl
    rw [deeper, List.length_cons] at room ⊢
    omega

theorem induction_up (linked : d.Linked) {motive : NodeId → Prop}
    (step : ∀ id, (∀ p, d.parent? id = some p → motive p) → motive id) : ∀ id, motive id := by
  intro id
  induction h : (d.ancestors id).length using Nat.strongRecOn generalizing id with
  | ind k ih =>
    apply step
    intro p parent
    apply ih _ _ p rfl
    rw [← h, linked.ancestors_of_parent parent, List.length_cons]
    omega

theorem mem_ancestors_iff (linked : d.Linked) {a x : NodeId} :
    a ∈ x :: d.ancestors x ↔ d.Reaches a x := by
  induction x using linked.induction_up with
  | step x ih =>
    rw [linked.reaches_iff_climbs, Relation.ReflTransGen.cases_head_iff]
    cases parent : d.parent? x with
    | none => simp [ancestors_of_orphan parent, eq_comm]
    | some p =>
      have above := (ih p parent).trans linked.reaches_iff_climbs
      rw [linked.ancestors_of_parent parent, List.mem_cons, above]
      simp [eq_comm]

theorem unfold_stable (linked : d.Linked) {n : Nat} {id : NodeId}
    (enough : d.size ≤ (d.ancestors id).length + n) : d.unfold (n + 1) id = d.unfold n id := by
  induction n generalizing id with
  | zero =>
    have := linked.ancestors_length_lt id
    omega
  | succ n ih =>
    have same : (d.children id).map (d.unfold (n + 1)) = (d.children id).map (d.unfold n) := by
      apply List.map_congr_left
      intro c listed
      apply ih
      rw [linked.ancestors_of_parent ((linked.parent_iff id c).mpr listed), List.length_cons]
      omega
    rw [unfold, same, unfold]

theorem idTree_eq (linked : d.Linked) (id : NodeId) :
    d.idTree id = .node id ((d.children id).map d.idTree) := by
  have whole : d.unfold (d.size + 1) id = d.unfold d.size id := linked.unfold_stable (by omega)
  rw [unfold] at whole
  exact whole.symm

theorem preorder_idTree (linked : d.Linked) (id : NodeId) :
    (d.idTree id).preorder = id :: (d.children id).flatMap fun c => (d.idTree c).preorder := by
  rw [linked.idTree_eq, Tree.preorder, Tree.preorderAll_eq_flatMap, List.flatMap_map]

theorem mem_idTree_iff (linked : d.Linked) {id x : NodeId} :
    x ∈ (d.idTree id).preorder ↔ d.Reaches id x := by
  induction id using linked.induction_down with
  | step id ih =>
    rw [linked.preorder_idTree, Reaches, Relation.ReflTransGen.cases_head_iff]
    simp only [List.mem_cons, List.mem_flatMap]
    constructor
    · rintro (same | ⟨c, listed, below⟩)
      · exact .inl same.symm
      · exact .inr ⟨c, listed, (ih c listed).mp below⟩
    · rintro (same | ⟨c, listed, below⟩)
      · exact .inl same.symm
      · exact .inr ⟨c, listed, (ih c listed).mpr below⟩

theorem siblings_apart (linked : d.Linked) {p a b x : NodeId} (left : a ∈ d.children p)
    (right : b ∈ d.children p) (underLeft : d.Reaches a x) (underRight : d.Reaches b x) :
    a = b := by
  have parentLeft := (linked.parent_iff p a).mpr left
  have parentRight := (linked.parent_iff p b).mpr right
  have unique : Relator.RightUnique fun c p => d.parent? c = some p := by
    intro c p q first second
    exact Option.some.inj (first.symm.trans second)
  have upLeft := linked.reaches_iff_climbs.mp underLeft
  have upRight := linked.reaches_iff_climbs.mp underRight
  rcases Relation.ReflTransGen.total_of_right_unique unique upLeft upRight with climbs | climbs
  · rcases climbs.cases_head with same | ⟨q, parent, rest⟩
    · exact same
    · rw [parentLeft, Option.some.injEq] at parent
      subst q
      exact absurd (.head' parentRight rest) (linked.acyclic b)
  · rcases climbs.cases_head with same | ⟨q, parent, rest⟩
    · exact same.symm
    · rw [parentRight, Option.some.injEq] at parent
      subst q
      exact absurd (.head' parentLeft rest) (linked.acyclic a)

theorem idTree_nodup (linked : d.Linked) (id : NodeId) : (d.idTree id).preorder.Nodup := by
  induction id using linked.induction_down with
  | step id ih =>
    rw [linked.preorder_idTree, List.nodup_cons, List.nodup_flatMap]
    refine ⟨?_, ih, ?_⟩
    · rw [List.mem_flatMap]
      rintro ⟨c, listed, below⟩
      have down : d.Reaches id c := .single listed
      have same := linked.reaches_antisymm down (linked.mem_idTree_iff.mp below)
      subst same
      exact linked.acyclic id (.single ((linked.parent_iff id id).mpr listed))
    · apply (linked.listed_once id).pairwise_of_forall_ne
      intro a left b right different x inLeft inRight
      exact different (linked.siblings_apart left right (linked.mem_idTree_iff.mp inLeft)
        (linked.mem_idTree_iff.mp inRight))

theorem idTree_length_le (linked : d.Linked) (id : NodeId) :
    (d.idTree id).preorder.length ≤ d.size := by
  by_cases inside : id < d.size
  · have bounded : (d.idTree id).preorder ⊆ List.range d.size := by
      intro x member
      rcases (linked.mem_idTree_iff.mp member).cases_tail with same | ⟨_, _, listed⟩
      · rw [same]
        exact List.mem_range.mpr inside
      · exact List.mem_range.mpr (linked.child_lt_size listed)
    simpa using (linked.idTree_nodup id).length_le_of_subset bounded
  · rw [linked.idTree_eq, children_eq_nil_of_size_le (Nat.le_of_not_lt inside)]
    exact linked.size_pos

theorem visit_eq (linked : d.Linked) {n : Nat} {waiting : List NodeId}
    (enough : (waiting.flatMap fun id => (d.idTree id).preorder).length ≤ n) :
    d.visit n waiting = waiting.flatMap fun id => (d.idTree id).preorder := by
  induction n generalizing waiting with
  | zero =>
    cases waiting with
    | nil => rfl
    | cons id waiting =>
      rw [List.flatMap_cons, linked.idTree_eq] at enough
      simp [Tree.preorder] at enough
  | succ n ih =>
    cases waiting with
    | nil => rfl
    | cons id waiting =>
      have split : (id :: waiting).flatMap (fun id => (d.idTree id).preorder) =
          id :: (d.children id ++ waiting).flatMap fun id => (d.idTree id).preorder := by
        rw [List.flatMap_cons, linked.preorder_idTree, List.flatMap_append, List.cons_append]
      rw [split, List.length_cons] at enough
      rw [visit, split, ih (by omega)]

theorem preorder_eq (linked : d.Linked) (id : NodeId) : d.preorder id = (d.idTree id).preorder := by
  have enough := linked.idTree_length_le id
  have walked : d.visit d.size [id] = [id].flatMap fun id => (d.idTree id).preorder :=
    linked.visit_eq (by simpa using enough)
  simpa [preorder] using walked

theorem mem_preorder_iff (linked : d.Linked) {id x : NodeId} :
    x ∈ d.preorder id ↔ d.Reaches id x := by
  rw [linked.preorder_eq, linked.mem_idTree_iff]

end Linked

end Document

end PageFilters
