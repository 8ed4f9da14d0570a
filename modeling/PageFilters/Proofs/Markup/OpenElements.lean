import PageFilters.Markup.OpenElements

/-!
The counts of open elements agree with the stack, so an end tag is refused exactly when no open
element has its name. Counted from the outermost element, the one that it closes is the last of its
name.
-/

namespace PageFilters

namespace OpenElements

def Counted (elements : OpenElements) : Prop :=
  ∀ name, elements.count name = elements.stack.countP (·.name == name)

theorem empty_counted : Counted {} := by
  intro name
  rfl

theorem push_counted {elements : OpenElements} (counted : elements.Counted) (node : NodeId)
    (name : AtomId) : (elements.push node name).Counted := by
  intro other
  have before := counted other
  rw [count] at before
  rw [count, push, countUp_getD, before, List.countP_cons]
  by_cases same : name = other <;> simp [same]

theorem pop_counted {elements popped : OpenElements} {node : NodeId} (counted : elements.Counted)
    (done : elements.pop? = some (node, popped)) : popped.Counted := by
  obtain ⟨stack, counts⟩ := elements
  cases stack with
  | nil => simp [pop?] at done
  | cons top stack =>
    simp only [pop?, Option.some.injEq, Prod.mk.injEq] at done
    obtain ⟨_, rfl⟩ := done
    intro name
    have before := counted name
    rw [count, List.countP_cons] at before
    rw [count, List.getElem?_modify]
    by_cases same : top.name = name
    · simp only [same, beq_self_eq_true, ↓reduceIte] at before ⊢
      cases held : counts[name]? with
      | none =>
        rw [held] at before
        simp at before
      | some n =>
        simp only [held, Option.getD_some, Option.map_eq_map, Option.map_some] at before ⊢
        omega
    · simpa [same] using before

theorem depth_eq {elements : OpenElements} (counted : elements.Counted) (name : AtomId) :
    elements.depth? name = elements.stack.findIdx? (·.name == name) := by
  rw [depth?, counted name]
  split
  · next none =>
    rw [List.countP_eq_zero] at none
    exact (List.findIdx?_eq_none_iff.mpr fun top member => by simpa using none top member).symm
  · rfl

theorem depth_lt {elements : OpenElements} {name : AtomId} {inside : Nat}
    (found : elements.depth? name = some inside) : inside < elements.stack.length := by
  rw [depth?] at found
  split at found
  · cases found
  · exact (List.findIdx?_eq_some_iff_getElem.mp found).1

def countDown? (name : AtomId) (counts : List Nat) : Option (List Nat) :=
  match counts[name]? with
  | none => some counts
  | some 0 => none
  | some (n + 1) => some (counts.set name n)

theorem pop_counts {top : OpenElement} {stack : List OpenElement} {counts : List Nat}
    (counted : Counted ⟨top :: stack, counts⟩) :
    ∃ fewer, countDown? top.name counts = some fewer ∧
      pop? ⟨top :: stack, counts⟩ = some (top.node, ⟨stack, fewer⟩) := by
  have here := counted top.name
  rw [count, List.countP_cons_of_pos (by simp)] at here
  cases held : counts[top.name]? with
  | none =>
    rw [held] at here
    cases here
  | some n =>
    rw [held, Option.getD_some] at here
    subst here
    have lowered (n : Nat) (held : counts[top.name]? = some (n + 1)) :
        counts.modify top.name (· - 1) = counts.set top.name n := by
      rw [List.modify_eq_set, held]
      rfl
    exact ⟨_, by rw [countDown?, held], by rw [← lowered _ held]; rfl⟩

def outermostFirst (elements : OpenElements) : List OpenElement :=
  elements.stack.reverse

def position? (name : AtomId) (elements : OpenElements) : Option Nat :=
  (elements.depth? name).map (elements.stack.length - 1 - ·)

def IsLast (p : α → Prop) (as : List α) (i : Nat) : Prop :=
  (∃ a, as[i]? = some a ∧ p a) ∧ ∀ j > i, ∀ a, as[j]? = some a → ¬ p a

theorem findIdx_reverse {p : α → Bool} {as : List α} {i : Nat} :
    (as.findIdx? p).map (as.length - 1 - ·) = some i ↔ IsLast (p · = true) as.reverse i := by
  have mirrored {j : Nat} (within : j < as.length) : as.reverse[j]? = as[as.length - 1 - j]? :=
    List.getElem?_reverse within
  have bound {j : Nat} {a : α} (held : as.reverse[j]? = some a) : j < as.length := by
    simpa using (List.getElem?_eq_some_iff.mp held).1
  rw [Option.map_eq_some_iff]
  constructor
  · rintro ⟨d, found, rfl⟩
    obtain ⟨within, here, before⟩ := List.findIdx?_eq_some_iff_getElem.mp found
    have back : as.length - 1 - (as.length - 1 - d) = d := by omega
    refine ⟨⟨as[d], ?_, here⟩, fun j later a held => ?_⟩
    · rw [mirrored (by omega), back, List.getElem?_eq_getElem within]
    · have less := bound held
      rw [mirrored less] at held
      obtain ⟨_, rfl⟩ := List.getElem?_eq_some_iff.mp held
      exact before _ (by omega)
  · rintro ⟨⟨a, held, here⟩, later⟩
    have less := bound held
    rw [mirrored less] at held
    obtain ⟨within, rfl⟩ := List.getElem?_eq_some_iff.mp held
    refine ⟨as.length - 1 - i, ?_, by omega⟩
    refine List.findIdx?_eq_some_iff_getElem.mpr ⟨within, here, fun j before => ?_⟩
    have inside : j < as.length := by omega
    have back : as.length - 1 - (as.length - 1 - j) = j := by omega
    refine later (as.length - 1 - j) (by omega) as[j] ?_
    rw [mirrored (by omega), back, List.getElem?_eq_getElem inside]

theorem position_eq_some {elements : OpenElements} (counted : elements.Counted) {name : AtomId}
    {i : Nat} :
    elements.position? name = some i ↔ IsLast (·.name = name) elements.outermostFirst i := by
  rw [position?, depth_eq counted, findIdx_reverse]
  simp only [beq_iff_eq]
  rfl

theorem position_eq_none {elements : OpenElements} (counted : elements.Counted) {name : AtomId} :
    elements.position? name = none ↔ ∀ top ∈ elements.outermostFirst, top.name ≠ name := by
  rw [position?, depth_eq counted, Option.map_eq_none_iff, List.findIdx?_eq_none_iff]
  simp [outermostFirst]

inductive Act where
  | push (node : NodeId) (name : AtomId)
  | pop
  deriving DecidableEq, Repr

def act (elements : OpenElements) : Act → OpenElements
  | .push node name => elements.push node name
  | .pop => (elements.pop?.map Prod.snd).getD elements

def afterActs (acts : List Act) : OpenElements :=
  acts.foldl act {}

theorem act_counted {elements : OpenElements} (counted : elements.Counted) (a : Act) :
    (elements.act a).Counted := by
  cases a with
  | push node name => exact push_counted counted node name
  | pop =>
    rw [act]
    cases done : elements.pop? with
    | none => exact counted
    | some popped => exact pop_counted counted done

theorem foldl_act_counted {elements : OpenElements} (counted : elements.Counted)
    (acts : List Act) : (acts.foldl act elements).Counted := by
  induction acts generalizing elements with
  | nil => exact counted
  | cons a acts ih => exact ih (act_counted counted a)

structure Faithful (elements : OpenElements) : Prop where
  counted : elements.Counted
  /-- An element that is popped has been counted, so there is one to take off. -/
  popped : ∀ top stack, elements.stack = top :: stack →
    ∃ fewer, countDown? top.name elements.counts = some fewer ∧
      elements.pop? = some (top.node, ⟨stack, fewer⟩)
  /-- What is found by the counts is what a search of the whole stack finds, for all names. -/
  found : ∀ name place, elements.position? name = some place ↔
    IsLast (·.name = name) elements.outermostFirst place
  missing : ∀ name, elements.position? name = none ↔
    ∀ top ∈ elements.outermostFirst, top.name ≠ name

theorem afterActs_faithful (acts : List Act) : (afterActs acts).Faithful := by
  have counted : (afterActs acts).Counted := foldl_act_counted empty_counted acts
  refine ⟨counted, fun top stack held => ?_, fun _ _ => position_eq_some counted,
    fun _ => position_eq_none counted⟩
  generalize afterActs acts = elements at counted held ⊢
  obtain ⟨_, counts⟩ := elements
  subst held
  exact pop_counts counted

example : (afterActs [.push 1 7, .push 2 4, .push 3 7, .pop]).position? 7 = some 0 := by decide

def popMany (n : Nat) (elements : OpenElements) : OpenElements :=
  (List.replicate n Act.pop).foldl act elements

theorem popMany_nil (n : Nat) (counts : List Nat) :
    popMany n ⟨[], counts⟩ = ⟨[], counts⟩ := by
  induction n with
  | zero => rfl
  | succ n ih => exact ih

theorem stack_popMany (n : Nat) (elements : OpenElements) :
    (elements.popMany n).stack = elements.stack.drop n := by
  induction n generalizing elements with
  | zero => rfl
  | succ n ih =>
    obtain ⟨stack, counts⟩ := elements
    cases stack with
    | nil => rw [popMany_nil, List.drop_nil]
    | cons top stack => exact ih _

end OpenElements

end PageFilters
