import PageFilters.Markup.Cursor

/-!
Looking by UTF-8 bytes for a part of a text, in any letter case. Only where the first byte of the
part stands, small or capital, is the part compared with the text. The outcome is that of
`containsIgnoreCase` (`Cursor.contains_eq`).
-/

namespace PageFilters

def raiseByte (b : UInt8) : UInt8 :=
  if 97 ≤ b && b ≤ 122 then b - 32 else b

namespace Cursor

variable (text : String)

def seekEither (a b : UInt8) (pos : Nat) : Except Fault (Option Nat) := do
  return ((← ahead text pos).findIdx? fun c => c == a || c == b).map (pos + ·)

def containsRound (part : String) (first : UInt8) (pos : Nat) :
    Except Fault (Round Nat Bool) := do
  if text.utf8ByteSize < pos + part.utf8ByteSize then return .done false
  match ← seekEither text (foldByte first) (raiseByte first) pos with
  | none => return .done false
  | some start =>
    if startsAt text part start then return .done true
    else return .again (start + 1)

def contains (part : String) : Except Fault Bool :=
  match utf8Bytes part with
  | [] => return true
  | first :: _ => loop text.utf8ByteSize id (containsRound text part first) 0

end Cursor

end PageFilters
