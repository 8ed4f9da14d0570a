import PageFilters.Text.Ascii

/-!
Dates and times of TOML documents, for the reader that stands in for a library: `1979-05-27`,
`07:32:00.5`, or a date and a time with `T` or a space between them, then perhaps an offset. Days
have to exist in their month; seconds may be left out.
-/

namespace PageFilters

namespace Toml

def digits? (count : Nat) (cs : List Char) : Option (Nat × List Char) :=
  let digits := cs.take count
  if digits.length == count then (readDigits 10 digits).map fun n => (n, cs.drop count) else none

def between? (low high : Nat) (cs : List Char) : Option (Nat × List Char) :=
  (digits? 2 cs).filter fun (n, _) => low ≤ n && n ≤ high

def isLeapYear (year : Nat) : Bool :=
  year % 4 == 0 && (year % 100 != 0 || year % 400 == 0)

def daysIn (year month : Nat) : Nat :=
  if month == 2 then (if isLeapYear year then 29 else 28)
  else if [4, 6, 9, 11].contains month then 30 else 31

def afterMark? (mark : Char) : List Char → Option (List Char)
  | c :: cs => if c == mark then some cs else none
  | [] => none

def afterDate? (cs : List Char) : Option (List Char) := do
  let (year, cs) ← digits? 4 cs
  let (month, cs) ← between? 1 12 (← afterMark? '-' cs)
  let (_, cs) ← between? 1 (daysIn year month) (← afterMark? '-' cs)
  return cs

def afterFraction? : List Char → Option (List Char)
  | '.' :: cs =>
    if (cs.takeWhile Char.isDigit).isEmpty then none else some (cs.dropWhile Char.isDigit)
  | cs => some cs

def afterTime? (cs : List Char) : Option (List Char) := do
  let (_, cs) ← between? 0 23 cs
  let (_, cs) ← between? 0 59 (← afterMark? ':' cs)
  match cs with
  | ':' :: cs =>
    let (_, cs) ← between? 0 60 cs
    afterFraction? cs
  | cs => return cs

def afterOffset? : List Char → Option (List Char)
  | sign :: cs =>
    if sign == 'Z' || sign == 'z' then some cs
    else if sign == '+' || sign == '-' then do
      let (_, cs) ← between? 0 23 cs
      let (_, cs) ← between? 0 59 (← afterMark? ':' cs)
      return cs
    else none
  | [] => some []

def isMoment (cs : List Char) : Bool :=
  match afterDate? cs with
  | none => afterTime? cs == some []
  | some [] => true
  | some (mark :: cs) =>
    (mark == 'T' || mark == 't' || mark == ' ') && (afterTime? cs).bind afterOffset? == some []

end Toml

end PageFilters
