import PageFilters.Proofs.Document.Lost

/-!
Document order. An edit changes the child list of one node; in the order of the nodes below any
other node this shows in one place only, where the subtree of that node stands. So a subtree that is
attached comes in as a whole next to its new neighbours, and one that is deleted leaves a gap.
-/

namespace PageFilters

namespace Document

variable {d d' : Document} {p x : NodeId} {ids : List NodeId}

theorem Linked.preorder_cons (linked : d.Linked) (id : NodeId) :
    d.preorder id = id :: (d.children id).flatMap d.preorder := by
  rw [linked.preorder_eq, linked.preorder_idTree]
  exact congrArg (id :: ·) (List.flatMap_congr fun c _ => (linked.preorder_eq c).symm)

theorem Linked.preorder_congr (linked : d.Linked) (linked' : d'.Linked)
    (same : ∀ x, d'.children x = d.children x) (id : NodeId) : d'.preorder id = d.preorder id := by
  induction id using linked.induction_down with
  | step id ih =>
    rw [linked'.preorder_cons, linked.preorder_cons, same]
    exact congrArg (id :: ·) (List.flatMap_congr ih)

structure Relists (d d' : Document) (p : NodeId) (ids : List NodeId) : Prop where
  size : d'.size = d.size
  data : ∀ x, d'.data? x = d.data? x
  children : ∀ x, d'.children x = if x = p then ids else d.children x

theorem Adopts.relists {c : NodeId} {before after : List NodeId}
    (adopts : Adopts d d' p c before after) : Relists d d' p (before ++ c :: after) :=
  ⟨adopts.size, adopts.data, adopts.children⟩

theorem Orphans.relists {c : NodeId} {before after : List NodeId}
    (orphans : Orphans d d' p c before after) : Relists d d' p (before ++ after) :=
  ⟨orphans.size, orphans.data, orphans.children⟩

namespace Relists

theorem preorder_apart (relists : Relists d d' p ids) (linked : d.Linked) (linked' : d'.Linked)
    (apart : ¬ d.Reaches x p) : d'.preorder x = d.preorder x := by
  induction x using linked.induction_down with
  | step x ih =>
    have other : x ≠ p := fun same => apart (same ▸ .refl)
    rw [linked'.preorder_cons, linked.preorder_cons, relists.children, if_neg other]
    congr 1
    apply List.flatMap_congr
    intro c listed
    exact ih c listed fun way => apart (.head listed way)

theorem flatMap_preorder (relists : Relists d d' p ids) (linked : d.Linked) (linked' : d'.Linked)
    {cs : List NodeId} (apart : ∀ c ∈ cs, ¬ d.Reaches c p) :
    cs.flatMap d'.preorder = cs.flatMap d.preorder :=
  List.flatMap_congr fun c member => relists.preorder_apart linked linked' (apart c member)

theorem preorder_around (relists : Relists d d' p ids) (linked : d.Linked) (linked' : d'.Linked)
    (above : d.Reaches x p) : ∃ before after,
      d.preorder x = before ++ d.preorder p ++ after ∧
      d'.preorder x = before ++ d'.preorder p ++ after := by
  induction x using linked.induction_down with
  | step x ih =>
    rcases above.cases_head with same | ⟨c, listed, way⟩
    · subst same
      exact ⟨[], [], by simp, by simp⟩
    · obtain ⟨left, right, siblings⟩ := List.append_of_mem listed
      obtain ⟨before, after, old, new⟩ := ih c listed way
      have other : x ≠ p := by
        rintro rfl
        exact linked.not_reaches_parent listed way
      have once := linked.listed_once x
      rw [siblings] at once
      have missing := (List.nodup_cons.mp (List.nodup_middle.mp once)).1
      have apart : ∀ y ∈ left ++ right, ¬ d.Reaches y p := by
        intro y member another
        have child : y ∈ d.children x := by
          rw [siblings]
          rcases List.mem_append.mp member with early | late
          · exact List.mem_append_left _ early
          · exact List.mem_append_right _ (List.mem_cons_of_mem c late)
        have same := linked.siblings_apart child listed another way
        exact missing (same ▸ member)
      have first := relists.flatMap_preorder linked linked' fun y member =>
        apart y (List.mem_append_left right member)
      have last := relists.flatMap_preorder linked linked' fun y member =>
        apart y (List.mem_append_right left member)
      refine ⟨x :: left.flatMap d.preorder ++ before, after ++ right.flatMap d.preorder, ?_, ?_⟩
      · rw [linked.preorder_cons x, siblings, List.flatMap_append, List.flatMap_cons, old]
        simp only [List.append_assoc, List.cons_append]
      · rw [linked'.preorder_cons x, relists.children, if_neg other, siblings,
          List.flatMap_append, List.flatMap_cons, new, first, last]
        simp only [List.append_assoc, List.cons_append]

end Relists

section

variable {c : NodeId} {before after : List NodeId}

theorem Attaches.preorder_parent (attaches : Attaches d d' p c before after) (linked : d.Linked)
    (legal : d.Attachable p c) :
    d'.preorder p =
      p :: (before.flatMap d.preorder ++ d.preorder c ++ after.flatMap d.preorder) := by
  have linked' := attaches.linked linked legal
  have apart : ∀ y ∈ before ++ after, ¬ d.Reaches y p := by
    intro y member
    exact linked.not_reaches_parent (attaches.siblings ▸ member)
  have first := attaches.relists.flatMap_preorder linked linked' fun y member =>
    apart y (List.mem_append_left after member)
  have last := attaches.relists.flatMap_preorder linked linked' fun y member =>
    apart y (List.mem_append_right before member)
  have middle := attaches.relists.preorder_apart linked linked' legal.not_above
  rw [linked'.preorder_cons, attaches.children, if_pos rfl, List.flatMap_append,
    List.flatMap_cons, first, middle, last, List.append_assoc]

theorem Attaches.preorder_above (attaches : Attaches d d' p c before after) (linked : d.Linked)
    (legal : d.Attachable p c) (above : d.Reaches x p) : ∃ front rest,
      d.preorder x =
        front ++ (p :: before.flatMap d.preorder ++ after.flatMap d.preorder) ++ rest ∧
      d'.preorder x = front ++
        (p :: before.flatMap d.preorder ++ d.preorder c ++ after.flatMap d.preorder) ++ rest := by
  have linked' := attaches.linked linked legal
  obtain ⟨front, rest, old, new⟩ := attaches.relists.preorder_around linked linked' above
  refine ⟨front, rest, ?_, ?_⟩
  · rw [old, linked.preorder_cons p, attaches.siblings, List.flatMap_append, List.cons_append]
  · rw [new, attaches.preorder_parent linked legal]
    simp only [List.cons_append, List.append_assoc]

theorem Attaches.preorder_apart (attaches : Attaches d d' p c before after) (linked : d.Linked)
    (legal : d.Attachable p c) (apart : ¬ d.Reaches x p) : d'.preorder x = d.preorder x :=
  attaches.relists.preorder_apart linked (attaches.linked linked legal) apart

theorem Detaches.preorder_above (detaches : Detaches d d' p c before after) (linked : d.Linked)
    (above : d.Reaches x p) : ∃ front rest,
      d.preorder x = front ++ d.preorder c ++ rest ∧ d'.preorder x = front ++ rest := by
  have linked' := detaches.linked linked
  have apart : ∀ y ∈ before ++ after, ¬ d.Reaches y p := by
    intro y member
    apply linked.not_reaches_parent
    rw [detaches.siblings]
    rcases List.mem_append.mp member with early | late
    · exact List.mem_append_left _ early
    · exact List.mem_append_right _ (List.mem_cons_of_mem c late)
  obtain ⟨front, rest, old, new⟩ := detaches.relists.preorder_around linked linked' above
  refine ⟨front ++ p :: before.flatMap d.preorder, after.flatMap d.preorder ++ rest, ?_, ?_⟩
  · rw [old, linked.preorder_cons p, detaches.siblings, List.flatMap_append, List.flatMap_cons]
    simp only [List.cons_append, List.append_assoc]
  · rw [new, linked'.preorder_cons p, detaches.children, if_pos rfl,
      detaches.relists.flatMap_preorder linked linked' apart, List.flatMap_append]
    simp only [List.cons_append, List.append_assoc]

theorem Detaches.preorder_apart (detaches : Detaches d d' p c before after) (linked : d.Linked)
    (apart : ¬ d.Reaches x p) : d'.preorder x = d.preorder x :=
  detaches.relists.preorder_apart linked (detaches.linked linked) apart

end

/-- `d'` is `d` with `node` as the sibling before `anchor`. In the tree the whole subtree of `node`
stands right before `anchor`; out of the tree it does not show. -/
def InsertedBefore (d d' : Document) (anchor node : NodeId) : Prop :=
  ∃ p left right, d.parent? anchor = some p ∧ d.children p = left ++ anchor :: right ∧
    Relists d d' p (left ++ node :: anchor :: right) ∧
    if d.isAttached anchor then ∃ before after,
      d.preorder root = before ++ anchor :: after ∧
      d'.preorder root = before ++ d.preorder node ++ anchor :: after
    else d'.preorder root = d.preorder root

/-- `d'` is `d` with `child` as the last child of `p`. In the tree the whole subtree of `child`
stands right after the last node below `p`. -/
def AppendedTo (d d' : Document) (p child : NodeId) : Prop :=
  Relists d d' p (d.children p ++ [child]) ∧
    if d.isAttached p then ∃ before after,
      d.preorder root = before ++ d.preorder p ++ after ∧
      d'.preorder root = before ++ d.preorder p ++ d.preorder child ++ after
    else d'.preorder root = d.preorder root

/-- `d'` is `d` without `node` among the children of its parent. Exactly its subtree is gone. -/
def TakenOut (d d' : Document) (node : NodeId) : Prop :=
  ∃ p left right, d.parent? node = some p ∧ d.children p = left ++ node :: right ∧
    Relists d d' p (left ++ right) ∧
    if d.isAttached node then ∃ before after,
      d.preorder root = before ++ d.preorder node ++ after ∧ d'.preorder root = before ++ after
    else d'.preorder root = d.preorder root

variable {anchor c : NodeId}

theorem insertBefore_order (sound : d.WellFormed) (done : d.insertBefore? anchor c = some d') :
    InsertedBefore d d' anchor c := by
  obtain ⟨p, left, right, parent, siblings, legal, attaches⟩ :=
    insertBefore_attaches sound.toLinked done
  refine ⟨p, left, right, parent, siblings, attaches.relists, ?_⟩
  split
  · next attached =>
    have above := (sound.attached_iff p).mp (sound.isAttached_child parent attached)
    obtain ⟨front, rest, old, new⟩ := attaches.preorder_above sound.toLinked legal above
    rw [List.flatMap_cons, sound.preorder_cons anchor] at old new
    refine ⟨front ++ p :: left.flatMap d.preorder,
      (d.children anchor).flatMap d.preorder ++ right.flatMap d.preorder ++ rest, ?_, ?_⟩
    · simpa only [List.cons_append, List.append_assoc] using old
    · simpa only [List.cons_append, List.append_assoc] using new
  · next detached =>
    have listed := (sound.parent_iff p anchor).mp parent
    apply attaches.preorder_apart sound.toLinked legal
    exact fun above => detached ((sound.attached_iff anchor).mpr (above.tail listed))

theorem append_order (sound : d.WellFormed) (done : d.append? p c = some d') :
    AppendedTo d d' p c := by
  obtain ⟨legal, attaches⟩ := append_attaches sound.toLinked done
  refine ⟨attaches.relists, ?_⟩
  split
  · next attached =>
    have above := (sound.attached_iff p).mp attached
    obtain ⟨front, rest, old, new⟩ := attaches.preorder_above sound.toLinked legal above
    refine ⟨front, rest, ?_, ?_⟩ <;> rw [sound.preorder_cons p]
    · simpa using old
    · simpa using new
  · next detached =>
    apply attaches.preorder_apart sound.toLinked legal
    exact fun above => detached ((sound.attached_iff p).mpr above)

theorem delete_order (sound : d.WellFormed) (done : d.delete? c = some d') :
    TakenOut d d' c := by
  obtain ⟨p, left, right, parent, detaches⟩ := delete_detaches sound.toLinked done
  refine ⟨p, left, right, parent, detaches.siblings, detaches.relists, ?_⟩
  split
  · next attached =>
    have above := (sound.attached_iff p).mp (sound.isAttached_child parent attached)
    exact detaches.preorder_above sound.toLinked above
  · next detached =>
    apply detaches.preorder_apart sound.toLinked
    exact fun above => detached ((sound.attached_iff c).mpr (above.tail detaches.listed))

/-- An edit that succeeds moves a whole subtree in at one place or takes one out, and all other
nodes keep their data, their children and their order. -/
theorem order_after_edit (reachable : d.Reachable) :
    (∀ anchor node d', d.insertBefore? anchor node = some d' →
      InsertedBefore d d' anchor node) ∧
    (∀ parent child d', d.append? parent child = some d' → AppendedTo d d' parent child) ∧
    (∀ node d', d.delete? node = some d' → TakenOut d d' node) := by
  have sound : d.WellFormed := reachable.wellFormed empty_wellFormed
  refine ⟨?_, ?_, ?_⟩
  · exact fun _ _ _ => insertBefore_order sound
  · exact fun _ _ _ => append_order sound
  · exact fun _ _ => delete_order sound

def boxed : Document :=
  empty.editAll [.create (.element ⟨"div", []⟩), .create (.element ⟨"p", []⟩),
    .create (.element ⟨"ul", []⟩), .create (.element ⟨"li", []⟩), .append root 1, .append 1 2,
    .append 3 4]

theorem order_after_boxed :
    boxed.Reachable ∧ (∃ d', boxed.insertBefore? 2 3 = some d' ∧ InsertedBefore boxed d' 2 3) ∧
      (∃ d', boxed.append? 2 3 = some d' ∧ AppendedTo boxed d' 2 3) ∧
      ∃ d', boxed.delete? 1 = some d' ∧ TakenOut boxed d' 1 := by
  have reachable : boxed.Reachable := ⟨_, rfl⟩
  obtain ⟨inserted, appended, taken⟩ := order_after_edit reachable
  exact ⟨reachable, ⟨_, rfl, inserted 2 3 _ rfl⟩, ⟨_, rfl, appended 2 3 _ rfl⟩,
    ⟨_, rfl, taken 1 _ rfl⟩⟩

end Document

end PageFilters
