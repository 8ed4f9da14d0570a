import PageFilters.Proofs.Document.Lost
import PageFilters.Proofs.Markup.TokenOrder

/-!
Which edits succeed. Whether a node was deleted is told by the edits so far alone, so what the slots
remember decides an edit just as the tree and its history do. An edit of the tree that is refused
leaves everything as it is, and only such a one does.
-/

namespace PageFilters

def Edit.movesNode : Edit → Bool
  | .append .. | .insertBefore .. | .delete .. => true
  | .create .. | .modify .. => false

namespace Document

variable {d d' : Document} {a c id p : NodeId}

/-- Whether one of the edits took the node out of the tree. -/
def Deletes (d : Document) (edits : List Edit) (id : NodeId) : Prop :=
  ∃ early late, edits = early ++ .delete id :: late ∧ ((d.editAll early).delete? id).isSome

theorem not_deletes_nil (d : Document) (id : NodeId) : ¬ d.Deletes [] id := by
  rintro ⟨early, late, split, _⟩
  simp at split

theorem not_deletes_root {edits : List Edit} : ¬ d.Deletes edits root := by
  rintro ⟨_, _, _, done⟩
  simp [delete?] at done

theorem deletes_cons {e : Edit} {edits : List Edit} :
    d.Deletes (e :: edits) id ↔
      (e = .delete id ∧ (d.delete? id).isSome) ∨ (d.edit e).Deletes edits id := by
  constructor
  · rintro ⟨early, late, split, done⟩
    rcases List.cons_eq_append_iff.mp split with ⟨rfl, now⟩ | ⟨rest, rfl, later⟩
    · exact .inl ⟨(List.cons.inj now).1.symm, done⟩
    · exact .inr ⟨rest, late, later, done⟩
  · rintro (⟨rfl, done⟩ | ⟨early, late, rfl, done⟩)
    · exact ⟨[], edits, rfl, done⟩
    · exact ⟨e :: early, late, rfl, done⟩

theorem isDeleted_edit_iff (linked : d.Linked) (e : Edit) :
    (d.edit e).isDeleted id = true ↔
      d.isDeleted id = true ∨ (e = .delete id ∧ (d.delete? id).isSome) := by
  have makes := edit_makes linked e
  generalize d.edit e = d' at makes ⊢
  cases makes with
  | created data => simp [isDeleted_create]
  | modified node change => simp [(sameShape_modifyElement d node id change).2.2.2]
  | refused refused =>
    refine (or_iff_left ?_).symm
    rintro ⟨rfl, done⟩
    rw [edit?] at refused
    simp [refused] at done
  | attached other _ attaches => simp [attaches.deleted, other]
  | @detached _ _ c _ _ done _ detaches =>
    by_cases same : id = c
    · subst same
      simp [detaches.deleted, done]
    · simp [detaches.deleted, same, Ne.symm same]

theorem isDeleted_editAll_iff (sound : d.WellFormed) (edits : List Edit) :
    (d.editAll edits).isDeleted id = true ↔ d.isDeleted id = true ∨ d.Deletes edits id := by
  induction edits generalizing d with
  | nil => simp [editAll, not_deletes_nil]
  | cons e edits ih =>
    have later := ih (edit_wellFormed sound e)
    rw [deletes_cons, ← or_assoc, ← isDeleted_edit_iff sound.toLinked e]
    exact later

def IsAncestor (d : Document) (a x : NodeId) : Prop :=
  Relation.TransGen (fun c p => d.parent? c = some p) x a

/-- `c` may become a child of `p` in the document that the edits make of `start`. -/
structure MayAdopt (start : Document) (edits : List Edit) (p c : NodeId) : Prop where
  container : (start.editAll edits).IsContainer p
  present : c < (start.editAll edits).size
  not_root : c ≠ root
  orphan : (start.editAll edits).parent? c = none
  kept : ¬ start.Deletes edits c
  other : c ≠ p
  not_above : ¬ (start.editAll edits).IsAncestor c p

theorem attachable_iff {start : Document} (sound : start.WellFormed)
    (fresh : ∀ id, start.isDeleted id = false) (edits : List Edit) :
    (start.editAll edits).Attachable p c ↔ MayAdopt start edits p c := by
  have linked := (editAll_wellFormed sound edits).toLinked
  have kept : (start.editAll edits).isDeleted c = false ↔ ¬ start.Deletes edits c := by
    rw [← Bool.not_eq_true, isDeleted_editAll_iff sound, fresh]
    simp
  have above : (start.editAll edits).Reaches c p ↔ c = p ∨ (start.editAll edits).IsAncestor c p :=
    linked.reaches_iff_climbs.trans Relation.reflTransGen_iff_eq_or_transGen
  constructor
  · rintro ⟨container, present, notRoot, orphan, undeleted, notAbove⟩
    rw [above, not_or] at notAbove
    exact ⟨container, present, notRoot, orphan, kept.mp undeleted, notAbove.1, notAbove.2⟩
  · rintro ⟨container, present, notRoot, orphan, undeleted, other, notAbove⟩
    refine ⟨container, present, notRoot, orphan, kept.mpr undeleted, ?_⟩
    rw [above, not_or]
    exact ⟨other, notAbove⟩

theorem isSome_append_iff (linked : d.Linked) :
    (d.append? p c).isSome ↔ d.Attachable p c := by
  rw [Option.isSome_iff_exists]
  exact ⟨fun ⟨_, done⟩ => (append_attaches linked done).1, append_eq_some linked⟩

theorem isSome_insertBefore_iff (linked : d.Linked) :
    (d.insertBefore? a c).isSome ↔ ∃ p, d.parent? a = some p ∧ d.Attachable p c := by
  rw [Option.isSome_iff_exists]
  constructor
  · rintro ⟨_, done⟩
    obtain ⟨p, _, _, parent, _, legal, _⟩ := insertBefore_attaches linked done
    exact ⟨p, parent, legal⟩
  · rintro ⟨p, parent, legal⟩
    exact insertBefore_eq_some linked parent legal

theorem isSome_delete_iff (linked : d.Linked) :
    (d.delete? c).isSome ↔ (d.parent? c).isSome := by
  rw [Option.isSome_iff_exists, Option.isSome_iff_exists]
  constructor
  · rintro ⟨_, done⟩
    obtain ⟨p, _, _, parent, _⟩ := delete_detaches linked done
    exact ⟨p, parent⟩
  · rintro ⟨p, parent⟩
    have other : c ≠ root := by
      rintro rfl
      rw [linked.root_orphan] at parent
      cases parent
    rw [delete?, if_neg other, parent]
    exact ⟨_, rfl⟩

theorem edit_ne_self (linked : d.Linked) {e : Edit} (moves : e.movesNode = true)
    (done : d.edit? e = some d') : d' ≠ d := by
  have made : d.edit e = d' := by rw [edit, done, Option.getD_some]
  have makes := edit_makes linked e
  rw [made] at makes
  cases makes with
  | created data => cases moves
  | modified node change => cases moves
  | refused refused =>
    rw [refused] at done
    cases done
  | @attached _ _ p c _ _ _ legal attaches =>
    rintro rfl
    have parent := attaches.parent c
    rw [if_pos rfl, legal.orphan] at parent
    cases parent
  | @detached _ p c _ _ _ parent detaches =>
    rintro rfl
    have orphan := detaches.parent c
    rw [if_pos rfl, parent] at orphan
    cases orphan

theorem edit_eq_self_iff (linked : d.Linked) {e : Edit} (moves : e.movesNode = true) :
    d.edit e = d ↔ d.edit? e = none := by
  rw [edit]
  cases done : d.edit? e with
  | none => simp
  | some d' => simp [edit_ne_self linked moves done]

/-- What decides the next edit of the document that the edits make of `start`. -/
structure Decided (start : Document) (edits : List Edit) : Prop where
  append : ∀ p c, ((start.editAll edits).append? p c).isSome ↔ MayAdopt start edits p c
  insertBefore : ∀ anchor node, ((start.editAll edits).insertBefore? anchor node).isSome ↔
    ∃ p, (start.editAll edits).parent? anchor = some p ∧ MayAdopt start edits p node
  delete : ∀ node, ((start.editAll edits).delete? node).isSome ↔
    ((start.editAll edits).parent? node).isSome
  /-- An edit that fails changes nothing, and one that does not fail changes something. -/
  still : ∀ e : Edit, e.movesNode = true →
    ((start.editAll edits).edit e = start.editAll edits ↔ (start.editAll edits).edit? e = none)

theorem decided {start : Document} (sound : start.WellFormed)
    (fresh : ∀ id, start.isDeleted id = false) (edits : List Edit) : Decided start edits := by
  have linked := (editAll_wellFormed sound edits).toLinked
  constructor
  case append =>
    intro p c
    rw [isSome_append_iff linked, attachable_iff sound fresh]
  case insertBefore =>
    intro anchor node
    simp only [isSome_insertBefore_iff linked, attachable_iff sound fresh]
  case delete => exact fun node => isSome_delete_iff linked
  case still => exact fun e moves => edit_eq_self_iff linked moves

theorem isDeleted_empty (id : NodeId) : empty.isDeleted id = false := by
  cases id <;> rfl

theorem isDeleted_parse (text : String) (id : NodeId) : (parse text).isDeleted id = false := by
  rw [← Bool.not_eq_true]
  intro deleted
  by_cases top : id = root
  · obtain ⟨edits, built⟩ := parse_reachable text
    rw [built, isDeleted_editAll_iff empty_wellFormed, isDeleted_empty, top] at deleted
    exact not_deletes_root (deleted.resolve_left Bool.false_ne_true)
  · have inside : id < (parse text).size := by
      by_contra beyond
      simp [isDeleted, slot?, Array.getElem?_eq_none (Nat.le_of_not_lt beyond)] at deleted
    have attached := (parse_builtInOrder text).attached id inside
    rw [(parse_wellFormed text).unattached_of_isDeleted top deleted] at attached
    cases attached

/-- Whatever edits were tried before on an empty document or on that of a text, the next edit
succeeds just when the tree and the deletions so far allow it, and otherwise changes nothing. -/
theorem edits_decided (text : String) (edits : List Edit) :
    Decided .empty edits ∧ Decided (parse text) edits :=
  ⟨decided empty_wellFormed isDeleted_empty edits,
    decided (parse_wellFormed text) (isDeleted_parse text) edits⟩

end Document

end PageFilters
