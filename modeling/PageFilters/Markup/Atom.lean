import PageFilters.Text.Ascii

/-!
Interned names. Names that differ only in the case of ASCII letters share one atom; atoms are
numbered in the order in which their names are first met.
-/

namespace PageFilters

abbrev AtomId := Nat

/-- The interned names in small letters; the name at place `i` belongs to atom `i`. -/
structure AtomTable where
  names : List String := []
  deriving DecidableEq, Repr

namespace AtomTable

def intern (name : String) (table : AtomTable) : AtomId × AtomTable :=
  let folded := foldCase name
  match table.names.idxOf? folded with
  | some id => (id, table)
  | none => (table.names.length, ⟨table.names ++ [folded]⟩)

def resolve (table : AtomTable) (id : AtomId) : String :=
  table.names[id]?.getD ""

def size (table : AtomTable) : Nat :=
  table.names.length

theorem resolve_intern (name : String) (table : AtomTable) :
    (table.intern name).2.resolve (table.intern name).1 = foldCase name := by
  cases found : table.names.idxOf? (foldCase name) with
  | none => simp [intern, found, resolve]
  | some id =>
    have known := List.of_findIdx?_eq_some found
    simp only [intern, found, resolve]
    split at known <;> simp_all

end AtomTable

end PageFilters
