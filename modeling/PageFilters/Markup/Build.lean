import PageFilters.Markup.OpenElements
import PageFilters.Markup.Tokenizer

/-!
Building the tree of a text while its tokens are read. Each token is attached before the next one is
read, and an observer is told of every element as it starts and ends:

* an element starts once it is attached with its attributes;
* it ends with its end tag, with the end tag of an element around it, at once when it is void, or
  with the text.

The observer may edit the tree whenever it is told something. The builder holds node numbers only,
so no edit can disturb it; what an observer inserts before the current element is behind the builder
and is never reported.
-/

namespace PageFilters

inductive Ignored where
  /-- A `/>` on an element that is not void. -/
  | slash (tag : String)
  /-- An end tag whose name is not open. -/
  | endTag (tag : String)
  deriving DecidableEq, Repr

abbrev Reaction (σ : Type) := Document → σ → Document × σ

/-- One that is told what is read. Each reaction does nothing unless given. -/
structure Observer (σ : Type) where
  startDocument : Reaction σ := Prod.mk
  startElement : NodeId → Reaction σ := fun _ => Prod.mk
  endElement : NodeId → Reaction σ := fun _ => Prod.mk
  endDocument : Reaction σ := Prod.mk
  ignored : Ignored → σ → σ := fun _ state => state

/-- A tree under construction, with the state of its observer. -/
structure Builder (σ : Type) where
  doc : Document
  elements : OpenElements := {}
  state : σ

namespace Builder

variable {σ : Type}

def react (reaction : Reaction σ) (b : Builder σ) : Builder σ :=
  let (doc, state) := reaction b.doc b.state
  { b with doc, state }

def attach (data : NodeData) (b : Builder σ) : NodeId × Builder σ :=
  let (id, doc) := b.doc.create data
  (id, { b with doc := (doc.append? b.elements.current id).getD doc })

def close (observer : Observer σ) : Nat → Builder σ → Builder σ
  | 0, b => b
  | n + 1, b =>
    match b.elements.pop? with
    | none => b
    | some (node, elements) =>
      close observer n ({ b with elements }.react (observer.endElement node))

def feed (observer : Observer σ) (atoms : AtomTable) (token : Token AtomId) (b : Builder σ) :
    Builder σ :=
  match token with
  | .doctype text => (b.attach (.doctype text)).2
  | .comment text => (b.attach (.comment text)).2
  | .text text => if text.isEmpty then b else (b.attach (.text text)).2
  | .startTag name attributes selfClosing _ =>
    let tag := atoms.resolve name
    let b := if token.ignoresSlash
      then { b with state := observer.ignored (.slash tag) b.state } else b
    let (node, b) := b.attach (.element ⟨tag, attributes.map atoms.resolveAttribute⟩)
    let b := b.react (observer.startElement node)
    if selfClosing then b.react (observer.endElement node)
    else { b with elements := b.elements.push node name }
  | .endTag name =>
    match b.elements.depth? name with
    | none => { b with state := observer.ignored (.endTag (atoms.resolve name)) b.state }
    | some inside => b.close observer (inside + 1)

def feedAll (observer : Observer σ) (tokens : Tokenizer) (b : Builder σ) : Builder σ :=
  match _asked : tokens.next with
  | (none, _) => b
  | (some token, after) => feedAll observer after (b.feed observer after.atoms token)
termination_by (tokens.toRead, tokens.pending.length)
decreasing_by exact Tokenizer.next_smaller _asked

end Builder

/-- The tree of a text under the eyes of an observer, and the observer's state at the end. -/
def parseWith (observer : Observer σ) (text : String) (state : σ) : Document × σ :=
  let b : Builder σ := { doc := .empty, state }
  let b := (b.react observer.startDocument).feedAll observer (.ofText text)
  let b := (b.close observer b.elements.stack.length).react observer.endDocument
  (b.doc, b.state)

def parse (text : String) : Document :=
  (parseWith {} text ()).1

end PageFilters
