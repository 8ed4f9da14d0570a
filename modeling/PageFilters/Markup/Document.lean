import PageFilters.Markup.Element

/-!
The document tree. Nodes live in numbered slots that are never freed, so a node's number stays good
whatever happens to the tree: inserting and deleting only change the links between slots. Node 0 is
the document itself.

A node has at most one parent, which lists it once. A deleted node never returns to the tree. Each
slot remembers whether its node can be reached from the root, and every edit keeps that up to date
for the whole subtree it moves.
-/

namespace PageFilters

abbrev NodeId := Nat

inductive NodeData where
  | document
  | doctype (text : String)
  | element (e : Element)
  | text (text : String)
  | comment (text : String)
  deriving DecidableEq, Repr

def NodeData.isContainer : NodeData → Bool
  | .document | .element _ => true
  | _ => false

structure Slot where
  data : NodeData
  parent : Option NodeId := none
  children : List NodeId := []
  attached : Bool := false
  deleted : Bool := false
  deriving DecidableEq, Repr

structure Document where
  slots : Array Slot
  deriving DecidableEq, Repr

namespace Document

def root : NodeId := 0

def empty : Document :=
  ⟨#[{ data := .document, attached := true }]⟩

def size (d : Document) : Nat :=
  d.slots.size

def slot? (d : Document) (id : NodeId) : Option Slot :=
  d.slots[id]?

def data? (d : Document) (id : NodeId) : Option NodeData :=
  (d.slot? id).map Slot.data

def element? (d : Document) (id : NodeId) : Option Element :=
  match d.data? id with
  | some (.element e) => some e
  | _ => none

def keyword? (d : Document) (id : NodeId) : Option Keyword :=
  (d.element? id).map Element.keyword

def parent? (d : Document) (id : NodeId) : Option NodeId :=
  (d.slot? id).bind Slot.parent

def children (d : Document) (id : NodeId) : List NodeId :=
  ((d.slot? id).map Slot.children).getD []

/-- Whether the node can be reached from the root. -/
def isAttached (d : Document) (id : NodeId) : Bool :=
  ((d.slot? id).map Slot.attached).getD false

def parentChain (d : Document) : Nat → Option NodeId → List NodeId
  | n + 1, some id => id :: parentChain d n (d.parent? id)
  | _, _ => []

def ancestors (d : Document) (id : NodeId) : List NodeId :=
  d.parentChain d.size (d.parent? id)

/-- The nodes below a list of nodes, the list included, parents before children; at most `n` of
them. The list holds what is still to be visited. -/
def visit (d : Document) : Nat → List NodeId → List NodeId
  | n + 1, id :: waiting => id :: visit d n (d.children id ++ waiting)
  | _, _ => []

def preorder (d : Document) (id : NodeId) : List NodeId :=
  d.visit d.size [id]

def ownText (d : Document) (id : NodeId) : String :=
  match d.data? id with
  | some (.text text) => text
  | _ => ""

def textContent (d : Document) (id : NodeId) : String :=
  String.join ((d.preorder id).map d.ownText)

def elements (d : Document) : List NodeId :=
  (d.preorder root).filter fun id => (d.element? id).isSome

def modifySlot (id : NodeId) (f : Slot → Slot) (d : Document) : Document :=
  ⟨d.slots.modify id f⟩

def modifyElement (id : NodeId) (f : Element → Element) (d : Document) : Document :=
  d.modifySlot id fun slot =>
    match slot.data with
    | .element e => { slot with data := .element (f e) }
    | _ => slot

def create (data : NodeData) (d : Document) : NodeId × Document :=
  (d.size, ⟨d.slots.push { data }⟩)

/-- Whether `child` may become a child of `parent`: both exist, `parent` can have children, and
`child` is not the root, has no parent, was never deleted, and does not lie above `parent`. -/
def canAttach (parent child : NodeId) (d : Document) : Bool :=
  match d.slot? parent, d.slot? child with
  | some p, some c =>
    p.data.isContainer && child != root && child != parent && c.parent.isNone && !c.deleted &&
      (c.children.isEmpty || !(d.ancestors parent).contains child)
  | _, _ => false

def markSubtree (attached : Bool) (id : NodeId) (d : Document) : Document :=
  (d.preorder id).foldl (fun d id => d.modifySlot id fun slot => { slot with attached }) d

def link (parent child : NodeId) (d : Document) : Document :=
  (d.modifySlot child fun slot => { slot with parent := some parent }).markSubtree
    (d.isAttached parent) child

def append? (parent child : NodeId) (d : Document) : Option Document :=
  if d.canAttach parent child then
    some ((d.modifySlot parent fun slot =>
      { slot with children := slot.children ++ [child] }).link parent child)
  else none

def insertInto (anchor node : NodeId) : List NodeId → List NodeId
  | [] => []
  | id :: rest => if id = anchor then node :: id :: rest else id :: insertInto anchor node rest

/-- Adds `node` as the sibling just before `anchor`; `none` if `anchor` has no parent, or if `node`
may not be attached there. -/
def insertBefore? (anchor node : NodeId) (d : Document) : Option Document :=
  match d.parent? anchor with
  | none => none
  | some parent =>
    if d.canAttach parent node && (d.children parent).contains anchor then
      some ((d.modifySlot parent fun slot =>
        { slot with children := insertInto anchor node slot.children }).link parent node)
    else none

/-- Takes a node and everything below it out of the tree for good; `none` if it has no parent. -/
def delete? (id : NodeId) (d : Document) : Option Document :=
  if id = root then none
  else match d.parent? id with
    | none => none
    | some parent =>
      let unlisted := d.modifySlot parent fun slot =>
        { slot with children := slot.children.filter (· != id) }
      some ((unlisted.modifySlot id fun slot =>
        { slot with parent := none, deleted := true }).markSubtree false id)

@[simp] theorem size_modifySlot (id : NodeId) (f : Slot → Slot) (d : Document) :
    (d.modifySlot id f).size = d.size := by
  simp [modifySlot, size]

theorem slot_modifySlot (id other : NodeId) (f : Slot → Slot) (d : Document) :
    (d.modifySlot id f).slot? other =
      if id = other then (d.slot? other).map f else d.slot? other := by
  simp [modifySlot, slot?, Array.getElem?_modify]

@[simp] theorem size_create (data : NodeData) (d : Document) :
    (d.create data).2.size = d.size + 1 := by
  simp [create, size]

theorem slot_create (data : NodeData) (id : NodeId) (d : Document) :
    (d.create data).2.slot? id = if id = d.size then some { data } else d.slot? id := by
  simp only [create, slot?, size, Array.getElem?_push]
  rfl

end Document

end PageFilters
