import PageFilters.Markup.Document
import PageFilters.Markup.Atom

/-!
The elements that are open while a tree is being built, innermost first. The number of open elements
is counted per name, so that an end tag whose name is not open is refused without a search.
-/

namespace PageFilters

structure OpenElement where
  node : NodeId
  name : AtomId
  deriving DecidableEq, Repr

structure OpenElements where
  stack : List OpenElement := []
  /-- The number of open elements of each name; names past the end have none. -/
  counts : List Nat := []
  deriving DecidableEq, Repr

def countUp : Nat → List Nat → List Nat
  | 0, [] => [1]
  | 0, n :: rest => (n + 1) :: rest
  | i + 1, [] => 0 :: countUp i []
  | i + 1, n :: rest => n :: countUp i rest

theorem countUp_getD (i j : Nat) (counts : List Nat) :
    (countUp i counts)[j]?.getD 0 = counts[j]?.getD 0 + if i = j then 1 else 0 := by
  fun_induction countUp i counts generalizing j with
  | case1 => cases j <;> simp
  | case2 => cases j <;> simp
  | case3 i ih => cases j <;> simp_all
  | case4 i n rest ih => cases j <;> simp_all

namespace OpenElements

def current (elements : OpenElements) : NodeId :=
  (elements.stack.head?.map OpenElement.node).getD Document.root

def count (elements : OpenElements) (name : AtomId) : Nat :=
  elements.counts[name]?.getD 0

def push (node : NodeId) (name : AtomId) (elements : OpenElements) : OpenElements :=
  ⟨⟨node, name⟩ :: elements.stack, countUp name elements.counts⟩

def pop? (elements : OpenElements) : Option (NodeId × OpenElements) :=
  match elements.stack with
  | [] => none
  | top :: stack => some (top.node, ⟨stack, elements.counts.modify top.name (· - 1)⟩)

/-- How many elements are open inside the innermost element of this name. -/
def depth? (name : AtomId) (elements : OpenElements) : Option Nat :=
  if elements.count name = 0 then none
  else elements.stack.findIdx? (·.name == name)

end OpenElements

end PageFilters
