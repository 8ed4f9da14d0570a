import Mathlib.Init
import PageFilters.Markup.Atom

/-!
Interning with a table that is looked up by hash. Names are held in the order of their numbers, and
a hash table leads from each name back to its number. A name without capital letters is looked up
as it is; only for the others is a small copy made. The numbers are those of `AtomTable`
(`Interner.Matches.intern`).
-/

namespace PageFilters

def isCapital (b : UInt8) : Bool :=
  65 ≤ b && b ≤ 90

/-- A name that whoever holds it shares with the table. -/
structure SharedName where
  text : String
  deriving DecidableEq, Repr

structure Interner where
  names : Array SharedName := #[]
  numbers : Std.HashMap String UInt32 := {}

namespace Interner

def insert (name : SharedName) (t : Interner) : UInt32 × Interner :=
  let id := UInt32.ofNat t.names.size
  (id, ⟨t.names.push name, t.numbers.insert name.text id⟩)

def number (name : String) (t : Interner) : UInt32 × Interner :=
  match t.numbers[name]? with
  | some id => (id, t)
  | none => t.insert ⟨name⟩

def intern (name : String) (t : Interner) : UInt32 × Interner :=
  if name.toUTF8.data.toList.any isCapital then t.number (foldCase name)
  else t.number name

def resolve (t : Interner) (id : UInt32) : String :=
  (t.names[id.toNat]?.map SharedName.text).getD ""

def share (t : Interner) (id : UInt32) : SharedName :=
  t.names[id.toNat]?.getD ⟨""⟩

def size (t : Interner) : Nat :=
  t.names.size

end Interner

end PageFilters
