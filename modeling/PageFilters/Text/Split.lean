/-!
Splitting texts at separators.
-/

namespace PageFilters

/-- The parts between separators; there is always one more of them than there are separators. -/
def splitOn (separates : Char → Bool) : List Char → List (List Char)
  | [] => [[]]
  | c :: cs =>
    if separates c then [] :: splitOn separates cs
    else match splitOn separates cs with
      | part :: parts => (c :: part) :: parts
      | [] => [[c]]

end PageFilters
