/-!
ASCII letter case, white space and digits. Comparison ignores the case of `A` to `Z` only; every
other character stands for itself. Search works on the bytes of UTF-8 text.
-/

namespace PageFilters

def isSpace (c : Char) : Bool :=
  c == ' ' || c == '\t' || c == '\n' || c == '\x0c' || c == '\r'

def foldCase (s : String) : String :=
  s.map Char.toLower

def eqIgnoreCase (a b : String) : Bool :=
  foldCase a == foldCase b

def startsIgnoreCase (start cs : List Char) : Bool :=
  (cs.take start.length).map Char.toLower == start

def foldByte (b : UInt8) : UInt8 :=
  if 65 ≤ b && b ≤ 90 then b + 32 else b

def foldedBytes (s : String) : List UInt8 :=
  s.toUTF8.data.toList.map foldByte

def hasWindow [BEq α] (part : List α) : List α → Bool
  | [] => part.isEmpty
  | a :: rest => part.isPrefixOf (a :: rest) || hasWindow part rest

def containsIgnoreCase (text part : String) : Bool :=
  hasWindow (foldedBytes part) (foldedBytes text)

def digitValue (c : Char) : Option Nat :=
  if '0' ≤ c ∧ c ≤ '9' then some (c.toNat - 48)
  else if 'a' ≤ c ∧ c ≤ 'f' then some (c.toNat - 87)
  else if 'A' ≤ c ∧ c ≤ 'F' then some (c.toNat - 55)
  else none

def readDigits (radix : Nat) (cs : List Char) : Option Nat :=
  cs.foldlM (fun n c => do
    let d ← digitValue c
    if d < radix then some (n * radix + d) else none) 0

def hexDigits (n : Nat) : List Char :=
  Nat.toDigits 16 n

end PageFilters
