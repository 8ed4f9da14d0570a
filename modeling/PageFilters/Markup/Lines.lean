import PageFilters.Text.Split

/-!
Comparing markup line by line. Markup is broken after every `>`, so that a difference shows the tag
it is in. The first difference is shown between the two lines before it and the two after it.
-/

namespace PageFilters

/-- The pieces of a text, each ending with its first `>`; a last piece may be without. -/
def piecesOf : List Char → List (List Char)
  | [] => []
  | c :: cs =>
    if c = '>' then [c] :: piecesOf cs
    else match piecesOf cs with
      | piece :: pieces => (c :: piece) :: pieces
      | [] => [[c]]

def markupLines (html : String) : List String :=
  (piecesOf html.toList).map String.ofList

def firstMismatch? [DecidableEq α] : List α → List α → Option Nat
  | [], [] => none
  | a :: as, b :: bs => if a = b then (firstMismatch? as bs).map (· + 1) else some 0
  | _, _ => some 0

def lineNumber (n : Nat) : String :=
  let digits := toString n
  String.ofList (List.replicate (4 - digits.length) ' ') ++ digits

def diffEntry (expected actual : List String) (mismatch i : Nat) : String :=
  let side (label : String) (lines : List String) : String :=
    (if i = mismatch then ">" else " ") ++ " " ++ lineNumber (i + 1) ++ label ++
      lines[i]?.getD "<missing>" ++ "\n"
  side "  expected: " expected ++ side "    actual: " actual

def diffWindow (expected actual : List String) (mismatch : Nat) : String :=
  let first := mismatch - 2
  let past := min (mismatch + 3) (max expected.length actual.length)
  "first mismatch at line " ++ toString (mismatch + 1) ++ " (showing " ++ toString (first + 1) ++
    "..=" ++ toString past ++ "):\n" ++
    String.join ((List.range' first (past - first)).map (diffEntry expected actual mismatch))

def diffLines (expected actual : List String) : String :=
  ((firstMismatch? expected actual).map (diffWindow expected actual)).getD "" ++
    "expected " ++ toString expected.length ++ " lines, actual " ++ toString actual.length ++
    " lines\n"

def markupMismatch? (caseId expected actual : String) : Option String :=
  if expected = actual then none
  else some ("markup mismatch in case '" ++ caseId ++ "':\n" ++
    diffLines (markupLines expected) (markupLines actual))

end PageFilters
