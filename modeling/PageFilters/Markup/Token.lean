import PageFilters.Markup.Atom
import PageFilters.Markup.Element

/-!
The tokens of a markup text. A token's names are either spelled out or interned.
-/

namespace PageFilters

/-- A token whose names are given as a `ν`. A start tag is `selfClosing` when its element is void,
and `slashed` when it is written with `/>`. -/
inductive Token (ν : Type) where
  | doctype (text : String)
  | startTag (name : ν) (attributes : List (AttributeOf ν)) (selfClosing slashed : Bool)
  | endTag (name : ν)
  | comment (text : String)
  | text (text : String)
  deriving DecidableEq, Repr

namespace AtomTable

def internAttributes : List Attribute → AtomTable → List (AttributeOf AtomId) × AtomTable
  | [], table => ([], table)
  | a :: rest, table =>
    let (id, table) := table.intern a.name
    let (interned, table) := internAttributes rest table
    (⟨id, a.value, a.quote⟩ :: interned, table)

def internToken : Token String → AtomTable → Token AtomId × AtomTable
  | .doctype text, table => (.doctype text, table)
  | .comment text, table => (.comment text, table)
  | .text text, table => (.text text, table)
  | .endTag name, table =>
    let (id, table) := table.intern name
    (.endTag id, table)
  | .startTag name attributes selfClosing slashed, table =>
    let (id, table) := table.intern name
    let (attributes, table) := internAttributes attributes table
    (.startTag id attributes selfClosing slashed, table)

def internTokens : List (Token String) → AtomTable → List (Token AtomId) × AtomTable
  | [], table => ([], table)
  | t :: rest, table =>
    let (token, table) := internToken t table
    let (tokens, table) := internTokens rest table
    (token :: tokens, table)

def resolveAttribute (table : AtomTable) (a : AttributeOf AtomId) : Attribute :=
  ⟨table.resolve a.name, a.value, a.quote⟩

end AtomTable

def Token.ignoresSlash : Token ν → Bool
  | .startTag _ _ selfClosing slashed => slashed && !selfClosing
  | _ => false

end PageFilters
