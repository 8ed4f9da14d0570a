import PageFilters.Markup.Cursor

/-!
Decoding character references by UTF-8 bytes. From each ampersand a semicolon is looked for, however
far away it is; what stands before it is then checked for digits. The outcome is that of
`Reference.decode` (`Cursor.decode_eq`).
-/

namespace PageFilters

namespace Cursor

def number? (radix limit before : Nat) (body : String) : Except Fault (Option (Char × Nat)) := do
  match ← seek body ';' 0 with
  | none => return none
  | some stop =>
    let digits ← slice body 0 stop
    if digits = "" ∨ limit < digits.utf8ByteSize then return none
    else return (readDigits radix digits.toList).bind fun n =>
      if n.isValidChar then some (Char.ofNat n, before + stop + 1) else none

/-- The reference that `tail` completes when an ampersand stands before it: its character, and the
number of bytes that it takes of `tail`. -/
def reference? (tail : String) : Except Fault (Option (Char × Nat)) := do
  if letter? tail 0 = some '#' then
    let numeric ← slice tail 1 tail.utf8ByteSize
    if letter? numeric 0 = some 'x' ∨ letter? numeric 0 = some 'X' then
      number? 16 6 2 (← slice numeric 1 numeric.utf8ByteSize)
    else number? 10 7 1 (← slice numeric 0 numeric.utf8ByteSize)
  else
    return (Reference.named.find? fun (name, _) =>
      utf8Bytes (String.ofList name) <+: utf8Bytes tail).map fun (name, c) =>
        (c, (String.ofList name).utf8ByteSize)

variable (text : String)

/-- One round copies what stands before the next ampersand and decodes what begins with it. The
state holds what is written so far, and the place up to which the text is read. -/
def decodeRound (state : String × Nat) : Except Fault (Round (String × Nat) String) := do
  let (out, pos) := state
  match ← seek text '&' pos with
  | none => return .done (out ++ (← slice text pos text.utf8ByteSize))
  | some amp =>
    let out := out ++ (← slice text pos amp)
    match ← reference? (← slice text (amp + 1) text.utf8ByteSize) with
    | some (c, taken) => return .again (out.push c, amp + 1 + taken)
    | none => return .again (out.push '&', amp + 1)

def decode : Except Fault String := do
  if (← seek text '&' 0) = none then return text
  else loop text.utf8ByteSize Prod.snd (decodeRound text) ("", 0)

end Cursor

end PageFilters
