import PageFilters.Markup.Keyword

/-!
Elements and their attributes. Attributes keep the order and the quotes that they were written with;
look-ups ignore the case of ASCII letters and meet the first attribute of a name.
-/

namespace PageFilters

inductive Quote where
  | double | single | unquoted
  deriving DecidableEq, Repr

/-- An attribute whose name is given as a `ν`. Without a value it is bare, which differs from an
empty value. -/
structure AttributeOf (ν : Type) where
  name : ν
  value : Option String
  quote : Quote := .double
  deriving DecidableEq, Repr

abbrev Attribute := AttributeOf String

def AttributeOf.isNamed (name : String) (a : Attribute) : Bool :=
  eqIgnoreCase a.name name

def modifyFirst (p : α → Bool) (f : α → α) : List α → List α
  | [] => []
  | a :: rest => if p a then f a :: rest else a :: modifyFirst p f rest

structure Element where
  name : String
  attributes : List Attribute := []
  deriving DecidableEq, Repr

namespace Element

def keyword (e : Element) : Keyword :=
  .ofTag e.name

def attribute? (name : String) (e : Element) : Option Attribute :=
  e.attributes.find? (AttributeOf.isNamed name)

def hasAttribute (name : String) (e : Element) : Bool :=
  (e.attribute? name).isSome

def value? (name : String) (e : Element) : Option String :=
  (e.attribute? name).bind AttributeOf.value

def addAttribute (name value : String) (quote : Quote) (e : Element) : Element :=
  { e with attributes := e.attributes ++ [⟨name, some value, quote⟩] }

def eraseAttribute (name : String) (e : Element) : Element :=
  { e with attributes := e.attributes.eraseP (AttributeOf.isNamed name) }

def setValue (name value : String) (e : Element) : Element :=
  { e with attributes :=
      modifyFirst (AttributeOf.isNamed name) ({ · with value := some value }) e.attributes }

end Element

end PageFilters
