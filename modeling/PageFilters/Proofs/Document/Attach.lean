import PageFilters.Proofs.Document.Slots

/-!
Attaching a node: when it is legal, and what it does to links and flags. One child list gets one
member more, and the flags of the subtree follow those of its new parent. Sound links stay sound.
-/

namespace PageFilters

namespace Document

structure Attachable (d : Document) (p c : NodeId) : Prop where
  container : ∃ data, d.data? p = some data ∧ data.isContainer = true
  present : c < d.size
  not_root : c ≠ root
  orphan : d.parent? c = none
  kept : d.isDeleted c = false
  not_above : ¬ d.Reaches c p

theorem canAttach_iff {d : Document} (linked : d.Linked) {p c : NodeId} :
    d.canAttach p c = true ↔ d.Attachable p c := by
  constructor
  · intro legal
    unfold canAttach at legal
    split at legal
    · next parentSlot childSlot parentHeld childHeld =>
      simp only [Bool.and_eq_true, Bool.or_eq_true, bne_iff_ne, Option.isNone_iff_eq_none,
        Bool.not_eq_true', List.isEmpty_iff] at legal
      obtain ⟨⟨⟨⟨⟨container, notRoot⟩, notParent⟩, orphan⟩, kept⟩, free⟩ := legal
      have present : c < d.size := by
        by_contra beyond
        simp [slot?, Array.getElem?_eq_none (Nat.le_of_not_lt beyond)] at childHeld
      refine ⟨⟨parentSlot.data, by simp [data?, parentHeld], container⟩, present, notRoot,
        by simp [parent?, childHeld, orphan], by simp [isDeleted, childHeld, kept], ?_⟩
      intro above
      rcases free with leaf | clear
      · have none : d.children c = [] := by simp [children, childHeld, leaf]
        rcases above.cases_head with same | ⟨x, listed, _⟩
        · exact notParent same
        · simp [none] at listed
      · rcases List.mem_cons.mp (linked.mem_ancestors_iff.mpr above) with same | member
        · exact notParent same
        · simp [member] at clear
    · simp at legal
  · intro legal
    obtain ⟨data, held, container⟩ := legal.container
    obtain ⟨parentSlot, parentHeld⟩ := exists_slot (lt_size_of_data held)
    obtain ⟨childSlot, childHeld⟩ := exists_slot legal.present
    have kind : parentSlot.data = data := by simpa [data?, parentHeld] using held
    have orphan : childSlot.parent = none := by simpa [parent?, childHeld] using legal.orphan
    have kept : childSlot.deleted = false := by simpa [isDeleted, childHeld] using legal.kept
    have notParent : c ≠ p := fun same => legal.not_above (same ▸ .refl)
    have clear : c ∉ d.ancestors p := fun member =>
      legal.not_above (linked.mem_ancestors_iff.mp (List.mem_cons_of_mem p member))
    simp [canAttach, parentHeld, childHeld, kind, container, legal.not_root, notParent, orphan,
      kept, clear]

/-- `d'` is `d` with `c` added to the children of `p` between `before` and `after`. -/
structure Adopts (d d' : Document) (p c : NodeId) (before after : List NodeId) : Prop where
  siblings : d.children p = before ++ after
  size : d'.size = d.size
  data : ∀ x, d'.data? x = d.data? x
  children : ∀ x, d'.children x = if x = p then before ++ c :: after else d.children x
  parent : ∀ x, d'.parent? x = if x = c then some p else d.parent? x
  deleted : ∀ x, d'.isDeleted x = d.isDeleted x

namespace Adopts

variable {d d' : Document} {p c : NodeId} {before after : List NodeId}

theorem mem_children (adopts : Adopts d d' p c before after) {x y : NodeId} :
    y ∈ d'.children x ↔ y ∈ d.children x ∨ (x = p ∧ y = c) := by
  rw [adopts.children]
  by_cases here : x = p
  · subst here
    simp only [↓reduceIte, adopts.siblings, List.mem_append, List.mem_cons, true_and]
    tauto
  · simp [here]

theorem reaches (adopts : Adopts d d' p c before after) {a x : NodeId} :
    d'.Reaches a x ↔ d.Reaches a x ∨ (d.Reaches a p ∧ d.Reaches c x) := by
  have old : ∀ {x y}, d.Reaches x y → d'.Reaches x y := fun way =>
    Relation.ReflTransGen.mono (fun _ _ listed => adopts.mem_children.mpr (.inl listed)) _ _ way
  constructor
  · intro way
    induction way with
    | refl => exact .inl .refl
    | @tail y z _ edge ih =>
      rcases adopts.mem_children.mp edge with listed | ⟨atParent, atChild⟩
      · rcases ih with way | ⟨above, below⟩
        · exact .inl (way.tail listed)
        · exact .inr ⟨above, below.tail listed⟩
      · subst atParent atChild
        rcases ih with way | ⟨above, _⟩
        · exact .inr ⟨way, .refl⟩
        · exact .inr ⟨above, .refl⟩
  · rintro (way | ⟨above, below⟩)
    · exact old way
    · exact (old above).trans (.head (adopts.mem_children.mpr (.inr ⟨rfl, rfl⟩)) (old below))

theorem linked (adopts : Adopts d d' p c before after) (linked : d.Linked)
    (legal : d.Attachable p c) : d'.Linked := by
  have unlisted : ∀ x, c ∉ d.children x := by
    intro x listed
    have parent := (linked.parent_iff x c).mpr listed
    simp [legal.orphan] at parent
  have parent_iff : ∀ x y, d'.parent? y = some x ↔ y ∈ d'.children x := by
    intro x y
    rw [adopts.mem_children, adopts.parent]
    by_cases same : y = c
    · subst same
      simp [unlisted, eq_comm]
    · simp [same, linked.parent_iff]
  refine ⟨(adopts.data _).trans linked.root_data, ?_, parent_iff, ?_, ?_, ?_⟩
  · rw [adopts.parent, if_neg legal.not_root.symm]
    exact linked.root_orphan
  · intro x
    rw [adopts.children]
    split
    · have once := linked.listed_once p
      have new := unlisted p
      rw [adopts.siblings] at once new
      exact List.nodup_middle.mpr (List.nodup_cons.mpr ⟨new, once⟩)
    · exact linked.listed_once x
  · intro x some
    rw [adopts.data]
    by_cases here : x = p
    · rw [here]
      exact legal.container
    · rw [adopts.children, if_neg here] at some
      exact linked.container x some
  · apply acyclic_of_children parent_iff
    intro x y listed back
    rcases adopts.mem_children.mp listed with old | ⟨atParent, atChild⟩
    · rcases adopts.reaches.mp back with way | ⟨above, below⟩
      · exact linked.not_reaches_parent old way
      · exact legal.not_above ((below.tail old).trans above)
    · subst atParent atChild
      rcases adopts.reaches.mp back with way | ⟨above, _⟩
      · exact legal.not_above way
      · exact legal.not_above above

end Adopts

def relink (place : List NodeId → List NodeId) (parent child : NodeId) (d : Document) : Document :=
  (d.mapChildren place parent).modifySlot child fun slot => { slot with parent := some parent }

def adopt (place : List NodeId → List NodeId) (parent child : NodeId) (d : Document) : Document :=
  (d.mapChildren place parent).link parent child

theorem relink_adopts {d : Document} {p c : NodeId} {place : List NodeId → List NodeId}
    {before after : List NodeId} (legal : d.Attachable p c)
    (siblings : d.children p = before ++ after)
    (placed : place (d.children p) = before ++ c :: after) :
    Adopts d (d.relink place p c) p c before after := by
  obtain ⟨_, held, _⟩ := legal.container
  obtain ⟨parentSlot, parentHeld⟩ := exists_slot (lt_size_of_data held)
  obtain ⟨childSlot, childHeld⟩ := exists_slot legal.present
  have different : p ≠ c := fun same => legal.not_above (same ▸ .refl)
  have listed : d.children p = parentSlot.children := by simp [children, parentHeld]
  refine ⟨siblings, by simp [relink, mapChildren], ?_, ?_, ?_, ?_⟩ <;> intro x
  · simp [relink, mapChildren, data_modifySlot]
  · simp only [relink, mapChildren, children_modifySlot, implies_true]
    rw [children, slot_modifySlot]
    by_cases here : x = p
    · subst here
      simpa [parentHeld, listed] using placed
    · simp [here, Ne.symm here, children]
  · simp only [parent?, relink, mapChildren, slot_modifySlot]
    by_cases atChild : x = c
    · subst atChild
      simp [different, childHeld]
    · by_cases atParent : x = p
      · subst atParent
        simp [Ne.symm atChild, atChild, parentHeld]
      · simp [atChild, Ne.symm atChild, Ne.symm atParent]
  · simp [relink, mapChildren, isDeleted_modifySlot]

/-- `d'` is `d` with the subtree of `c` in the place between `before` and `after`, and its flags
say whether it can be reached there. -/
structure Attaches (d d' : Document) (p c : NodeId) (before after : List NodeId) : Prop
    extends Adopts d d' p c before after where
  attached : ∀ x, d'.isAttached x = true ↔
    (d.Reaches c x ∧ d.isAttached p = true) ∨ (¬ d.Reaches c x ∧ d.isAttached x = true)

theorem adopt_attaches {d : Document} (linked : d.Linked) {p c : NodeId}
    (place : List NodeId → List NodeId) {before after : List NodeId} (legal : d.Attachable p c)
    (siblings : d.children p = before ++ after)
    (placed : place (d.children p) = before ++ c :: after) :
    Attaches d (d.adopt place p c) p c before after := by
  have adopts := relink_adopts legal siblings placed
  have same := sameLinks_markSubtree ((d.mapChildren place p).isAttached p) c (d.relink place p c)
  have below : ∀ x, x ∈ (d.relink place p c).preorder c ↔ d.Reaches c x := by
    intro x
    rw [(adopts.linked linked legal).mem_preorder_iff, adopts.reaches]
    exact or_iff_left fun ⟨above, _⟩ => legal.not_above above
  have listed : ∀ x, (d.mapChildren place p).isAttached x = d.isAttached x := fun x =>
    isAttached_modifySlot d p x fun _ => rfl
  have relinked : ∀ x, (d.relink place p c).isAttached x = d.isAttached x := by
    simp [relink, isAttached_modifySlot, listed]
  have size : (d.adopt place p c).size = d.size := by
    rw [← adopts.size]
    exact size_markSubtree _ _ _
  refine ⟨⟨siblings, size, ?_, ?_, ?_, ?_⟩, ?_⟩ <;> intro x
  · exact (same.data x).trans (adopts.data x)
  · exact (same.children x).trans (adopts.children x)
  · exact (same.parent x).trans (adopts.parent x)
  · exact (same.deleted x).trans (adopts.deleted x)
  · by_cases inside : x < d.size
    · have marked : (d.adopt place p c).isAttached x = _ :=
        isAttached_markSubtree ((d.mapChildren place p).isAttached p) c (d.relink place p c)
          (adopts.size.symm ▸ inside)
      rw [marked, relinked, listed]
      by_cases under : d.Reaches c x
      · simp [under, (below x).mpr under]
      · simp [under, mt (below x).mp under]
    · have beyond := Nat.le_of_not_lt inside
      have unreached : ¬ d.Reaches c x := fun way =>
        inside (linked.reaches_lt_size legal.present way)
      simp [unreached, isAttached_eq_false_of_size_le beyond,
        isAttached_eq_false_of_size_le (size.symm ▸ beyond)]

theorem append_attaches {d d' : Document} (linked : d.Linked) {p c : NodeId}
    (done : d.append? p c = some d') :
    d.Attachable p c ∧ Attaches d d' p c (d.children p) [] := by
  unfold append? at done
  split at done
  · next legal =>
    cases done
    have attachable := (canAttach_iff linked).mp legal
    exact ⟨attachable, adopt_attaches linked (· ++ [c]) attachable (by simp) rfl⟩
  · simp at done

theorem append_eq_some {d : Document} (linked : d.Linked) {p c : NodeId}
    (legal : d.Attachable p c) : ∃ d', d.append? p c = some d' := by
  simp [append?, (canAttach_iff linked).mpr legal]

theorem insertInto_append {anchor node : NodeId} {before after : List NodeId}
    (first : anchor ∉ before) :
    insertInto anchor node (before ++ anchor :: after) = before ++ node :: anchor :: after := by
  induction before with
  | nil => simp [insertInto]
  | cons id before ih =>
    rw [List.mem_cons, not_or] at first
    rw [List.cons_append, insertInto, if_neg (Ne.symm first.1), ih first.2]
    rfl

theorem insertBefore_eq_some {d : Document} (linked : d.Linked) {p anchor node : NodeId}
    (parent : d.parent? anchor = some p) (legal : d.Attachable p node) :
    ∃ d', d.insertBefore? anchor node = some d' := by
  have listed := (linked.parent_iff p anchor).mp parent
  simp [insertBefore?, parent, listed, (canAttach_iff linked).mpr legal]

theorem insertBefore_attaches {d d' : Document} (linked : d.Linked) {anchor node : NodeId}
    (done : d.insertBefore? anchor node = some d') :
    ∃ p before after, d.parent? anchor = some p ∧ d.children p = before ++ anchor :: after ∧
      d.Attachable p node ∧ Attaches d d' p node before (anchor :: after) := by
  unfold insertBefore? at done
  split at done
  · simp at done
  · next p parent =>
    split at done
    · next legal =>
      cases done
      rw [Bool.and_eq_true] at legal
      have attachable := (canAttach_iff linked).mp legal.1
      have listed := (linked.parent_iff p anchor).mp parent
      obtain ⟨before, after, split, first⟩ := List.eq_append_cons_of_mem listed
      refine ⟨p, before, after, parent, split, attachable, ?_⟩
      apply adopt_attaches linked (insertInto anchor node) attachable split
      rw [split, insertInto_append first]
    · simp at done

end Document

end PageFilters
