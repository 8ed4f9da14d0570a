import PageFilters.Markup.Html

/-!
Documents as trees. A document of linked slots unfolds into a tree from its root, and what the
document's walks compute is a structural recursion on that tree.
-/

namespace PageFilters

/-- An ordered tree with a label at every node. -/
inductive Tree (α : Type) where
  | node (label : α) (children : List (Tree α))

namespace Tree

variable {α : Type}

def label : Tree α → α
  | node label _ => label

def children : Tree α → List (Tree α)
  | node _ children => children

mutual

def map (f : α → β) : Tree α → Tree β
  | node label children => node (f label) (mapAll f children)

def mapAll (f : α → β) : List (Tree α) → List (Tree β)
  | [] => []
  | t :: rest => map f t :: mapAll f rest

end

mutual

def preorder : Tree α → List α
  | node label children => label :: preorderAll children

def preorderAll : List (Tree α) → List α
  | [] => []
  | t :: rest => preorder t ++ preorderAll rest

end

mutual

def html (raw : Bool) : Tree NodeData → String
  | node .document children => htmlAll false children
  | node (.doctype text) _ => "<!" ++ text ++ ">"
  | node (.comment text) _ => "<!--" ++ text ++ "-->"
  | node (.text text) _ => if raw then text else escapeText text
  | node (.element e) children =>
    if isVoid e.name then e.startTag
    else e.startTag ++ htmlAll e.keyword.isRawtext children ++ e.endTag

def htmlAll (raw : Bool) : List (Tree NodeData) → String
  | [] => ""
  | t :: rest => html raw t ++ htmlAll raw rest

end

def text (t : Tree NodeData) : String :=
  String.join (t.preorder.map fun data =>
    match data with
    | .text text => text
    | _ => "")

end Tree

namespace Document

def unfold (d : Document) : Nat → NodeId → Tree NodeId
  | 0, id => .node id []
  | depth + 1, id => .node id ((d.children id).map (unfold d depth))

def idTree (d : Document) (id : NodeId) : Tree NodeId :=
  d.unfold d.size id

/-- What a slot holds; a number without a slot stands for an empty text. -/
def dataAt (d : Document) (id : NodeId) : NodeData :=
  (d.data? id).getD (.text "")

/-- The document from its root, without the numbers of its nodes. -/
def tree (d : Document) : Tree NodeData :=
  (d.idTree root).map d.dataAt

end Document

end PageFilters
