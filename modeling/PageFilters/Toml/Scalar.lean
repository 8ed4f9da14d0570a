import PageFilters.Toml.Moment

/-!
Which texts are truth values, numbers, dates or times of a TOML document, for the reader that stands
in for a library. They are told by their form alone: no number is computed, so one of any size will
do. Past its first underscore, a whole number is looked at only where underscores stand.
-/

namespace PageFilters

namespace Toml

def spaced (isDigit : Char → Bool) : Bool → List Char → Bool
  | _, [] => true
  | before, '_' :: cs => before && cs.head?.any isDigit && spaced isDigit false cs
  | _, c :: cs => spaced isDigit (isDigit c) cs

def isHexDigit (c : Char) : Bool :=
  (digitValue c).isSome

def isRadixChar (radix : Nat) (c : Char) : Bool :=
  c == '_' || (digitValue c).any (· < radix)

def isRadixNumber (radix : Nat) (cs : List Char) : Bool :=
  cs.all (isRadixChar radix) && spaced isHexDigit false cs

def digitRun (cs : List Char) : Nat × List Char :=
  ((cs.takeWhile (isRadixChar 10)).countP Char.isDigit, cs.dropWhile (isRadixChar 10))

def isExponent : List Char → Bool
  | [] => true
  | mark :: cs =>
    let cs := match cs with
      | sign :: rest => if sign == '+' || sign == '-' then rest else cs
      | [] => []
    (mark == 'e' || mark == 'E') && 0 < (digitRun cs).1 && (digitRun cs).2.isEmpty

def isFloat (cs : List Char) : Bool :=
  let (count, rest) := digitRun cs
  (count == 1 || (1 < count && cs.head? != some '0')) &&
    match rest with
    | '.' :: cs => 0 < (digitRun cs).1 && isExponent (digitRun cs).2
    | cs => isExponent cs

/-- A number without its sign, or a date or time, which have none. Right after a sign an underscore
passes. -/
def isNumber (signed : Bool) : List Char → Bool
  | [] => false
  | ['0'] => true
  | '0' :: 'x' :: cs => !signed && isRadixNumber 16 cs
  | '0' :: 'o' :: cs => !signed && isRadixNumber 8 cs
  | '0' :: 'b' :: cs => !signed && isRadixNumber 2 cs
  | cs =>
    match cs.dropWhile Char.isDigit with
    | [] => cs.head? != some '0'
    | mark :: rest =>
      if mark == '-' || mark == ':' then !signed && isMoment cs
      else if (mark :: rest).contains ' ' then false
      else if (mark :: rest).any (".eE".toList.contains ·) then
        isFloat cs && spaced Char.isDigit signed cs
      else mark == '_' && cs.head? != some '0' && spaced isHexDigit signed cs

def isNumberWord (cs : List Char) : Bool :=
  cs == "inf".toList || cs == "nan".toList

def isScalar (cs : List Char) : Bool :=
  match cs with
  | '+' :: cs => isNumberWord cs || isNumber true cs
  | '-' :: cs => isNumberWord cs || isNumber true cs
  | cs => cs == "true".toList || cs == "false".toList || isNumberWord cs || isNumber false cs

end Toml

end PageFilters
