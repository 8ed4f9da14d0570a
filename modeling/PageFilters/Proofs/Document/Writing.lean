import Mathlib.Algebra.BigOperators.Ring.List
import Mathlib.Algebra.Ring.Nat
import PageFilters.Proofs.Document.Growth

/-!
The markup of a document. The writer keeps a list of the work that is still to be done, and its
budget is enough for a sound document: what it writes is the recursion on the tree.
-/

namespace PageFilters

namespace Document

def Work.html (d : Document) : Work → String
  | .node id raw => (d.subtree id).html raw
  | .endTag id => ((d.element? id).map Element.endTag).getD ""

def Work.cost (d : Document) : Work → Nat
  | .node id _ => 2 * (d.idTree id).preorder.length
  | .endTag _ => 1

namespace Linked

variable {d : Document}

theorem childWork_html (id : NodeId) (raw : Bool) :
    String.join ((d.childWork id raw).map (Work.html d)) = Tree.htmlAll raw (d.forest id) := by
  rw [childWork, forest]
  induction d.children id with
  | nil => rfl
  | cons c rest ih =>
    rw [List.map_cons, List.map_cons, List.map_cons, String.join_cons, ih, Tree.htmlAll, Work.html]

theorem childWork_cost (linked : d.Linked) (id : NodeId) (raw : Bool) :
    ((d.childWork id raw).map (Work.cost d)).sum + 2 = Work.cost d (.node id raw) := by
  have length : (d.idTree id).preorder.length =
      ((d.children id).map fun c => (d.idTree c).preorder.length).sum + 1 := by
    rw [linked.preorder_idTree, List.length_cons, List.length_flatMap]
  rw [Work.cost, length, childWork, List.map_map]
  have each : Work.cost d ∘ (fun c => Work.node c raw) =
      fun c => 2 * (d.idTree c).preorder.length := rfl
  rw [each, List.sum_map_mul_left]
  omega

theorem workStep_html (linked : d.Linked) (work : Work) :
    work.html d =
      (d.workStep work).1 ++ String.join ((d.workStep work).2.map (Work.html d)) := by
  cases work with
  | endTag id => simp [workStep, Work.html]
  | node id raw =>
    rw [Work.html, linked.subtree_eq, dataAt]
    cases held : d.data? id with
    | none => simp [workStep, held, Tree.html, escapeText]
    | some data =>
      cases data with
      | document => simp [workStep, held, Tree.html, childWork_html]
      | doctype text => simp [workStep, held, Tree.html]
      | comment text => simp [workStep, held, Tree.html]
      | text text => simp [workStep, held, Tree.html]
      | element e =>
        have isElement : d.element? id = some e := by simp [element?, held]
        by_cases void : isVoid e.name = true
        · simp [workStep, held, Tree.html, void]
        · simp [workStep, held, Tree.html, void, childWork_html, Work.html, isElement,
            String.append_assoc]

theorem workStep_cost (linked : d.Linked) (work : Work) :
    ((d.workStep work).2.map (Work.cost d)).sum < work.cost d := by
  cases work with
  | endTag id => simp [workStep, Work.cost]
  | node id raw =>
    have cost := fun inner => linked.childWork_cost id inner
    have same : ∀ inner, Work.cost d (.node id inner) = Work.cost d (.node id raw) := fun _ => rfl
    simp only [same] at cost
    cases held : d.data? id with
    | none => simp [workStep, held, ← cost raw]
    | some data =>
      cases data with
      | document =>
        have := cost false
        simp only [workStep, held]
        omega
      | doctype text => simp [workStep, held, ← cost raw]
      | comment text => simp [workStep, held, ← cost raw]
      | text text => simp [workStep, held, ← cost raw]
      | element e =>
        have children := cost e.keyword.isRawtext
        by_cases void : isVoid e.name = true
        · simp [workStep, held, void, ← cost raw]
        · simp only [workStep, held, void, Bool.false_eq_true, ↓reduceIte, List.map_append,
            List.sum_append, List.map_cons, List.map_nil, List.sum_cons, List.sum_nil]
          have last : Work.cost d (.endTag id) = 1 := rfl
          omega

theorem write_eq (linked : d.Linked) {n : Nat} {works : List Work} {out : String}
    (enough : (works.map (Work.cost d)).sum ≤ n) :
    d.write n works out = out ++ String.join (works.map (Work.html d)) := by
  induction n generalizing works out with
  | zero =>
    cases works with
    | nil => simp [write]
    | cons work works =>
      have := linked.workStep_cost work
      simp only [List.map_cons, List.sum_cons] at enough
      omega
  | succ n ih =>
    cases works with
    | nil => simp [write]
    | cons work works =>
      have step := linked.workStep_cost work
      simp only [List.map_cons, List.sum_cons] at enough
      simp only [write]
      rw [ih]
      · rw [List.map_append, String.join_append, List.map_cons, String.join_cons,
          linked.workStep_html work]
        simp only [String.append_assoc]
      · rw [List.map_append, List.sum_append]
        omega

theorem html_eq (linked : d.Linked) : d.html = Tree.htmlAll false (d.forest root) := by
  have cost := linked.childWork_cost root false
  have fits := linked.idTree_length_le root
  rw [Work.cost] at cost
  rw [html, linked.write_eq (by omega), childWork_html, String.empty_append]

end Linked

end Document

end PageFilters
