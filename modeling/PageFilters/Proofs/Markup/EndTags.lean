import PageFilters.Proofs.Markup.Building
import PageFilters.Proofs.Markup.OpenElements

/-!
End tags close the innermost open element of their name together with all that is open inside it,
and no more. How deep that element lies is told by counts and a search, and these cannot be wrong:
the open elements have only been pushed and popped.
-/

namespace PageFilters

namespace Builder

variable (observer : Observer σ)

def closeTo (left : Nat) (b : Builder σ) : Builder σ :=
  if left < b.elements.stack.length then
    match _popped : b.elements.pop? with
    | none => b
    | some (node, elements) =>
      closeTo left ({ b with elements }.react (observer.endElement node))
  else b
termination_by b.elements.stack.length
decreasing_by
  obtain ⟨doc, ⟨stack, counts⟩, state⟩ := b
  cases stack with
  | nil => cases _popped
  | cons top stack =>
    cases _popped
    exact Nat.lt_succ_self stack.length

theorem elements_close (n : Nat) (b : Builder σ) :
    (b.close observer n).elements = b.elements.popMany n := by
  induction n generalizing b with
  | zero => rfl
  | succ n ih =>
    obtain ⟨doc, ⟨stack, counts⟩, state⟩ := b
    cases stack with
    | nil => exact (OpenElements.popMany_nil (n + 1) counts).symm
    | cons top stack => exact ih _

theorem pair_close (n : Nat) (b : Builder σ) : (b.close observer n).pair =
    (b.nodes.take n).foldl (fun x node => (observer.endElement node).on x) b.pair := by
  induction n generalizing b with
  | zero => rfl
  | succ n ih =>
    obtain ⟨doc, ⟨stack, counts⟩, state⟩ := b
    cases stack with
    | nil => rfl
    | cons top stack => exact ih _

theorem closeTo_eq (left : Nat) (b : Builder σ) :
    b.closeTo observer left = b.close observer (b.elements.stack.length - left) := by
  obtain ⟨doc, ⟨stack, counts⟩, state⟩ := b
  induction stack generalizing doc counts state with
  | nil =>
    rw [closeTo]
    split
    · next more => exact absurd more (Nat.not_lt_zero left)
    · change _ = close observer (0 - left) _
      rw [Nat.zero_sub]
      rfl
  | cons top stack ih =>
    rw [closeTo]
    split
    · next more =>
      have count : (top :: stack).length - left = stack.length - left + 1 := by
        simp only [List.length_cons] at more ⊢
        omega
      rw [count]
      exact ih _ _ _
    · next fewer =>
      rw [Nat.sub_eq_zero_of_le (Nat.not_lt.mp fewer)]
      rfl

/-- What an end tag does. If no element of its name is open, this is noted and that is all. Else the
elements are closed from the innermost one on, down to the last place where the name is open; each
of them ends, in this order, and the elements before that place stay open. -/
def EndsDownTo (atoms : AtomTable) (name : AtomId) (b : Builder σ) : Prop :=
  let after := b.feed observer atoms (.endTag name)
  match b.elements.position? name with
  | none => after = { b with state := observer.ignored (.endTag (atoms.resolve name)) b.state }
  | some place =>
    after = b.closeTo observer place ∧
    after.elements.outermostFirst = b.elements.outermostFirst.take place ∧
    after.pair = (b.elements.outermostFirst.drop place).reverse.foldl
      (fun x top => (observer.endElement top.node).on x) b.pair

theorem endTag_endsDownTo (atoms : AtomTable) (name : AtomId) (b : Builder σ) :
    EndsDownTo observer atoms name b := by
  rw [EndsDownTo, OpenElements.position?]
  cases found : b.elements.depth? name with
  | none => simp only [feed, found, Option.map_none]
  | some inside =>
    have within := OpenElements.depth_lt found
    have depth : b.elements.stack.length - (b.elements.stack.length - 1 - inside) = inside + 1 := by
      omega
    simp only [feed, found, Option.map_some]
    refine ⟨?_, ?_, ?_⟩
    · rw [closeTo_eq, depth]
    · rw [elements_close, OpenElements.outermostFirst, OpenElements.stack_popMany,
        OpenElements.outermostFirst, List.take_reverse, depth]
    · rw [pair_close, OpenElements.outermostFirst, List.drop_reverse, List.reverse_reverse, depth,
        nodes, ← List.map_take, List.foldl_map]

theorem feed_acts (atoms : AtomTable) (token : Token AtomId) (b : Builder σ) :
    ∃ acts : List OpenElements.Act,
      (b.feed observer atoms token).elements = acts.foldl OpenElements.act b.elements := by
  cases token with
  | doctype text => exact ⟨[], rfl⟩
  | comment text => exact ⟨[], rfl⟩
  | text text =>
    rw [feed]
    split
    · exact ⟨[], rfl⟩
    · exact ⟨[], rfl⟩
  | startTag name attributes selfClosing slashed =>
    cases selfClosing with
    | true => exact ⟨[], by cases slashed <;> rfl⟩
    | false => exact ⟨[.push b.doc.size name], by cases slashed <;> rfl⟩
  | endTag name =>
    rw [feed]
    split
    · exact ⟨[], rfl⟩
    · next inside _ => exact ⟨_, elements_close observer (inside + 1) b⟩

theorem after_acts (text : String) (state : σ) (n : Nat) :
    ∃ acts, (after observer text state n).elements = OpenElements.afterActs acts := by
  rw [after]
  generalize (tokenize text).1.take n = tokens
  have first : ∃ acts, (begun observer state).elements = OpenElements.afterActs acts := ⟨[], rfl⟩
  generalize begun observer state = b at first ⊢
  induction tokens generalizing b with
  | nil => exact first
  | cons token rest ih =>
    obtain ⟨done, before⟩ := first
    obtain ⟨acts, now⟩ := feed_acts observer (tokenize text).2 token b
    refine ih _ ⟨done ++ acts, ?_⟩
    rw [now, before, OpenElements.afterActs, OpenElements.afterActs, List.foldl_append]

end Builder

/-- The open elements of a builder are always counted right. So an end tag is ignored only if no
open element has its name, and else closes the innermost one that has. -/
theorem open_elements_faithful (observer : Observer σ) :
    (∀ acts, (OpenElements.afterActs acts).Faithful) ∧
    (∀ text state n, ∃ acts,
      (Builder.after observer text state n).elements = OpenElements.afterActs acts) ∧
    ∀ atoms name b, Builder.EndsDownTo observer atoms name b :=
  ⟨OpenElements.afterActs_faithful, Builder.after_acts observer,
    Builder.endTag_endsDownTo observer⟩

end PageFilters
