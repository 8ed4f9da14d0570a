/-!
Values of TOML documents, and the rules by which statements build tables, for the reader that stands
in for a library. A table remembers how it came to be, because that decides what may still be added
to it.
-/

namespace PageFilters

namespace Toml

inductive Origin where
  /-- Written as a value; nothing can be added. -/
  | written
  /-- Opened by a header. -/
  | headed
  /-- Only named on the way to a table with a header. -/
  | implied
  /-- Named on the way to a dotted key. -/
  | dotted
  deriving DecidableEq, Repr

end Toml

/-- A TOML value. Numbers, truth values and dates are kept as they are written. The last table of a
`headed` array comes first. -/
inductive Toml where
  | string (text : String)
  | scalar (text : String)
  | array (origin : Toml.Origin) (items : List Toml)
  | table (origin : Toml.Origin) (entries : List (String × Toml))

namespace Toml

abbrev Entries := List (String × Toml)

def find? (key : String) (entries : Entries) : Option Toml :=
  (entries.find? fun (k, _) => k == key).map Prod.snd

def put (key : String) (value : Toml) : Entries → Entries
  | [] => [(key, value)]
  | (k, v) :: rest => if k == key then (k, value) :: rest else (k, v) :: put key value rest

def insert (value : Toml) : List String → Entries → Option Entries
  | [], _ => none
  | [key], entries => if (find? key entries).isSome then none else some (entries ++ [(key, value)])
  | key :: path, entries =>
    match find? key entries with
    | none => (insert value path []).map fun sub => put key (.table .dotted sub) entries
    | some (.table .dotted sub) =>
      (insert value path sub).map fun sub => put key (.table .dotted sub) entries
    | some (.table .implied sub) =>
      if path.length == 1 then none
      else (insert value path sub).map fun sub => put key (.table .implied sub) entries
    | some (.array .headed (.table origin sub :: rest)) =>
      if path.length == 1 then none
      else (insert value path sub).map fun sub =>
        put key (.array .headed (.table origin sub :: rest)) entries
    | _ => none

/-- Changes the table that a path of headers leads to. Missing tables on the way are implied; of an
array of tables the last one counts. -/
def modifyAt (f : Entries → Option Entries) : List String → Entries → Option Entries
  | [], entries => f entries
  | key :: path, entries =>
    match find? key entries with
    | none => (modifyAt f path []).map fun sub => put key (.table .implied sub) entries
    | some (.table .written _) => none
    | some (.table origin sub) =>
      (modifyAt f path sub).map fun sub => put key (.table origin sub) entries
    | some (.array .headed (.table origin sub :: rest)) =>
      (modifyAt f path sub).map fun sub =>
        put key (.array .headed (.table origin sub :: rest)) entries
    | _ => none

def openTable (key : String) (entries : Entries) : Option Entries :=
  match find? key entries with
  | none => some (put key (.table .headed []) entries)
  | some (.table .implied sub) => some (put key (.table .headed sub) entries)
  | _ => none

def openItem (key : String) (entries : Entries) : Option Entries :=
  match find? key entries with
  | none => some (put key (.array .headed [.table .headed []]) entries)
  | some (.array .headed items) =>
    some (put key (.array .headed (.table .headed [] :: items)) entries)
  | _ => none

def items? : Toml → Option (List Toml)
  | .array .headed items => some items.reverse
  | .array _ items => some items
  | _ => none

def text? : Toml → Option String
  | .string text => some text
  | _ => none

def choice? : Toml → Option String
  | .string text => some text
  | .table _ [(name, .table _ [])] => some name
  | .table _ [(name, .array _ [])] => some name
  | _ => none

end Toml

end PageFilters
