import PageFilters.Text.Blank
import PageFilters.Text.Quoted
import PageFilters.Toml.Read

/-!
Fixtures: pages with the filters to run on them and the markup that should come out. A file of
fixtures is a TOML document with a `format` and an array of `cases`. Cases that are to be skipped
have to say why.
-/

namespace PageFilters

inductive FixtureStatus where
  | run | skip
  deriving DecidableEq, Repr

structure Fixture where
  id : String
  filters : String
  url : String := "http://example.com/"
  contentType : Option String := none
  input : String
  /-- Without an expectation the input has to come out unchanged. -/
  expected : Option String := none
  status : FixtureStatus := .run
  reason : Option String := none
  deriving DecidableEq, Repr

inductive FixtureError where
  | invalidSource
  | unsupportedFormat
  | duplicateId (id origin : String)
  | missingReason (id origin : String)
  deriving DecidableEq, Repr

def FixtureError.message : FixtureError → String
  | invalidSource => "failed to parse fixture TOML"
  | unsupportedFormat => "unsupported fixture format"
  | duplicateId id origin => "duplicate fixture id '" ++ id ++ "' in " ++ quoted origin
  | missingReason id origin =>
    "skipped fixture '" ++ id ++ "' in " ++ quoted origin ++ " needs a reason"

namespace Fixture

def expectedOutput (f : Fixture) : String :=
  f.expected.getD f.input

/-- The keys of a case, in the order in which a case without keys lists their values. -/
def keys : List String :=
  ["id", "filters", "url", "content_type", "input", "expected", "status", "reason"]

def optional (read : Toml → Option α) (key : String) (entries : Toml.Entries) : Option (Option α) :=
  match Toml.find? key entries with
  | none => some none
  | some value => (read value).map some

def required (read : Toml → Option α) (key : String) (entries : Toml.Entries) : Option α :=
  (Toml.find? key entries).bind read

def statusOf? (value : Toml) : Option FixtureStatus :=
  match value.choice? with
  | some "run" => some .run
  | some "skip" => some .skip
  | _ => none

def ofEntries? (entries : Toml.Entries) : Option Fixture := do
  guard (entries.all fun (key, _) => keys.contains key)
  return {
    id := ← required Toml.text? "id" entries
    filters := ← required Toml.text? "filters" entries
    url := (← optional Toml.text? "url" entries).getD "http://example.com/"
    contentType := ← optional Toml.text? "content_type" entries
    input := ← required Toml.text? "input" entries
    expected := ← optional Toml.text? "expected" entries
    status := (← optional statusOf? "status" entries).getD .run
    reason := ← optional Toml.text? "reason" entries }

def ofToml? : Toml → Option Fixture
  | .table _ entries => ofEntries? entries
  | .array .written items => ofEntries? (keys.zip items)
  | _ => none

def file? (entries : Toml.Entries) : Option (String × List Fixture) := do
  guard (entries.all fun (key, _) => key == "format" || key == "cases")
  let format ← required Toml.text? "format" entries
  let cases ← optional Toml.items? "cases" entries
  return (format, ← (cases.getD []).mapM ofToml?)

def fault? (origin : String) (seen : List String) : List Fixture → Option FixtureError
  | [] => none
  | f :: rest =>
    if seen.contains f.id then some (.duplicateId f.id origin)
    else if f.status = .skip && isBlankText (f.reason.getD "") then
      some (.missingReason f.id origin)
    else fault? origin (f.id :: seen) rest

def readAll (source origin : String) : Except FixtureError (List Fixture) :=
  match (Toml.read? source).bind file? with
  | none => .error .invalidSource
  | some (format, cases) =>
    if format != "rewrite-fixtures-v1" then .error .unsupportedFormat
    else match fault? origin [] cases with
      | some error => .error error
      | none => .ok cases

end Fixture

end PageFilters
