import PageFilters.Proofs.Document.Growth
import PageFilters.Proofs.Document.Order

/-!
The first nodes of a document. A node that is added at the very end of a document comes last in its
order too, and what was there before is told by the first slots alone.
-/

namespace PageFilters

def Slot.upTo (n : Nat) (slot : Slot) : Slot :=
  { slot with children := slot.children.filter (· < n) }

namespace Document

variable {d : Document} {p q x : Nat}

def contents (d : Document) : List NodeData :=
  d.slots.toList.map Slot.data

theorem contents_getElem (d : Document) (x : Nat) : d.contents[x]? = d.data? x := by
  rw [contents, List.getElem?_map, Array.getElem?_toList, data?, slot?]

theorem length_contents (d : Document) : d.contents.length = d.size := by
  rw [contents, List.length_map, Array.length_toList, size]

theorem contents_attachNew (sound : d.WellFormed) (container : d.IsContainer p)
    (data : NodeData) : (d.attachNew p data).contents = d.contents ++ [data] := by
  apply List.ext_getElem?
  intro x
  rw [contents_getElem, (attachNew_attaches sound container data).2.data, data_create,
    List.getElem?_append, length_contents, contents_getElem]
  rcases Nat.lt_trichotomy x d.size with small | rfl | large
  · rw [if_neg (Nat.ne_of_lt small), if_pos small]
  · simp
  · rw [if_neg (Nat.ne_of_gt large), if_neg (Nat.not_lt.mpr (Nat.le_of_lt large)),
      ← contents_getElem, List.getElem?_eq_none (by rw [length_contents]; omega),
      List.getElem?_eq_none (by simp; omega)]

def upTo (n : Nat) (d : Document) : Document :=
  ⟨(d.slots.take n).map (Slot.upTo n)⟩

theorem slot_upTo (n : Nat) (d : Document) (x : Nat) :
    (d.upTo n).slot? x = if x < n then (d.slot? x).map (Slot.upTo n) else none := by
  rw [upTo, slot?, Array.getElem?_map, Array.take_eq_extract, Array.getElem?_extract,
    Nat.zero_add, Nat.sub_zero, slot?]
  split
  · next both => rw [if_pos (Nat.lt_of_lt_of_le both (Nat.min_le_left ..))]
  · next either =>
    split
    · rw [Array.getElem?_eq_none (by omega)]
    · rfl

theorem eq_of_slots {d d' : Document} (same : ∀ x, d'.slot? x = d.slot? x) : d' = d := by
  obtain ⟨slots⟩ := d
  obtain ⟨slots'⟩ := d'
  exact congrArg Document.mk (Array.ext_getElem? same)

theorem upTo_upTo {m n : Nat} (early : m ≤ n) (d : Document) : (d.upTo n).upTo m = d.upTo m := by
  apply eq_of_slots
  intro x
  rw [slot_upTo, slot_upTo, slot_upTo]
  split
  · next small =>
    rw [if_pos (Nat.lt_of_lt_of_le small early), Option.map_map]
    congr 1
    funext slot
    have both : ∀ c, (decide (c < m) && decide (c < n)) = decide (c < m) := by
      intro c
      rw [← Bool.decide_and, decide_eq_decide]
      omega
    simp [Slot.upTo, List.filter_filter, both]
  · rfl

theorem Linked.filter_children (linked : d.Linked) (x : Nat) :
    (d.children x).filter (· < d.size) = d.children x :=
  List.filter_eq_self.mpr fun _ listed => decide_eq_true (linked.child_lt_size listed)

theorem upTo_size (linked : d.Linked) : d.upTo d.size = d := by
  apply eq_of_slots
  intro x
  rw [slot_upTo]
  by_cases inside : x < d.size
  · obtain ⟨slot, held⟩ := exists_slot inside
    have all := linked.filter_children x
    rw [children, held, Option.map_some, Option.getD_some] at all
    rw [if_pos inside, held, Option.map_some, Slot.upTo, all]
  · rw [if_neg inside, slot?, Array.getElem?_eq_none (Nat.le_of_not_lt inside)]

theorem children_attachNew_upTo (sound : d.WellFormed) (container : d.IsContainer p)
    (data : NodeData) (inside : x < d.size) :
    ((d.attachNew p data).children x).filter (· < d.size) = d.children x := by
  rw [(attachNew_extends sound container data).children x inside]
  split
  · next here =>
    rw [here, List.filter_append, sound.filter_children]
    simp
  · exact sound.filter_children x

theorem attachNew_upTo (sound : d.WellFormed) (container : d.IsContainer p) (data : NodeData) :
    (d.attachNew p data).upTo d.size = d := by
  have grown := attachNew_extends sound container data
  have attaches := (attachNew_attaches sound container data).2
  apply eq_of_slots
  intro x
  rw [slot_upTo]
  by_cases inside : x < d.size
  · obtain ⟨slot, held⟩ := exists_slot inside
    obtain ⟨slot', held'⟩ := exists_slot (Nat.lt_of_lt_of_le inside grown.size)
    have same := grown.data x inside
    have parent := grown.parent x inside
    have listed := children_attachNew_upTo sound container data inside
    have attached := grown.isAttached_eq sound inside
    have deleted := (attaches.deleted x).trans (isDeleted_create d data x)
    simp only [data?, parent?, children, isAttached, isDeleted, held, held', Option.map_some,
      Option.bind_some, Option.getD_some, Option.some.injEq] at same parent listed attached deleted
    rw [if_pos inside, held, held', Option.map_some, Slot.upTo, listed, same, parent, attached,
      deleted]
  · rw [if_neg inside, slot?, Array.getElem?_eq_none (Nat.le_of_not_lt inside)]

def HoldsRest (d : Document) (q : Nat) : Prop :=
  d.preorder q = List.range' q (d.size - q)

theorem HoldsRest.lt_size (holds : d.HoldsRest q) (linked : d.Linked) : q < d.size := by
  have first := linked.preorder_cons q
  rw [holds] at first
  have long := congrArg List.length first
  rw [List.length_range', List.length_cons] at long
  omega

theorem preorder_create (sound : d.WellFormed) (data : NodeData) (x : Nat) :
    (d.create data).2.preorder x = d.preorder x :=
  sound.preorder_congr (create_wellFormed sound data).toLinked (children_create d data) x

theorem range_ends {start a n : Nat} {front rest : List Nat} (early : a < n)
    (split : List.range' start (n - start) = front ++ List.range' a (n - a) ++ rest) :
    rest = [] := by
  cases rest with
  | nil => rfl
  | cons b rest =>
    have sorted : (List.range' start (n - start)).Pairwise (· < ·) := List.pairwise_lt_range'
    rw [split] at sorted
    have last : n - 1 ∈ front ++ List.range' a (n - a) := by
      refine List.mem_append_right front (List.mem_range'_1.mpr ?_)
      omega
    have less := (List.pairwise_append.mp sorted).2.2 _ last b (List.mem_cons_self ..)
    have member : b ∈ List.range' start (n - start) := by simp [split]
    have within := List.mem_range'_1.mp member
    omega

theorem attachNew_holdsRest (sound : d.WellFormed) (container : d.IsContainer p)
    (data : NodeData) (above : d.Reaches q p) (outer : d.HoldsRest q) (inner : d.HoldsRest p) :
    (d.attachNew p data).HoldsRest q := by
  obtain ⟨legal, attaches⟩ := attachNew_attaches sound container data
  have created := create_wellFormed sound data
  have way : (d.create data).2.Reaches q p := by
    simpa only [Reaches, children_create] using above
  obtain ⟨front, rest, old, new⟩ := attaches.preorder_above created.toLinked legal way
  have same := preorder_create sound data
  have parent := created.preorder_cons p
  have leaf : d.preorder d.size = [d.size] := by
    rw [sound.preorder_cons, children_eq_nil_of_size_le (Nat.le_refl _)]
    rfl
  rw [children_create] at parent
  rw [List.flatMap_nil, List.append_nil, ← parent, same, same, inner] at old
  rw [List.flatMap_nil, List.append_nil, ← parent, same, same, inner, leaf] at new
  rw [outer] at old
  have last := range_ends container.lt_size old
  have small := outer.lt_size sound.toLinked
  rw [last, List.append_nil] at old new
  rw [HoldsRest, size_attachNew sound container]
  calc (d.attachNew p data).preorder q
    _ = List.range' q (d.size - q) ++ [d.size] := by rw [new, old, List.append_assoc]
    _ = List.range' q (d.size + 1 - q) := by
      rw [Nat.sub_add_comm (Nat.le_of_lt small), List.range'_1_concat,
        Nat.add_sub_cancel' (Nat.le_of_lt small)]

theorem attachNew_holdsRest_new (sound : d.WellFormed) (container : d.IsContainer p)
    (data : NodeData) : (d.attachNew p data).HoldsRest d.size := by
  have grown := attachNew_extends sound container data
  rw [HoldsRest, grown.sound.preorder_cons, children_attachNew sound container,
    size_attachNew sound container, Nat.add_sub_cancel_left]
  rfl

end Document

end PageFilters
