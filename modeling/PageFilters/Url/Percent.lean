import PageFilters.Text.Ascii

/-!
Percent-encoding. A character that a part of a URL cannot hold is written as its UTF-8 bytes, each
as `%` and two capital hexadecimal digits. Which characters these are depends on the part; those
outside ASCII and the controls always are.
-/

namespace PageFilters

namespace Percent

def inBare (c : Char) : Bool :=
  c.toNat < 0x20 || 0x7f ≤ c.toNat

def inFragment (c : Char) : Bool :=
  inBare c || c == ' ' || c == '\x22' || c == '<' || c == '>' || c == '\x60'

def inPath (c : Char) : Bool :=
  inFragment c || c == '#' || c == '?' || c == '\x7b' || c == '\x7d'

def inUserinfo (c : Char) : Bool :=
  inPath c || "/:;=@[\\]^|".toList.contains c

def inQuery (c : Char) : Bool :=
  inBare c || c == ' ' || c == '\x22' || c == '#' || c == '<' || c == '>'

def inWebQuery (c : Char) : Bool :=
  inQuery c || c == '\x27'

def hexDigit (n : Nat) : Char :=
  if n < 10 then Char.ofNat (48 + n) else Char.ofNat (55 + n)

def encodeByte (b : UInt8) : List Char :=
  ['%', hexDigit (b.toNat / 16), hexDigit (b.toNat % 16)]

def encode (encoded : Char → Bool) (cs : List Char) : String :=
  String.ofList <| cs.flatMap fun c =>
    if encoded c then (String.utf8EncodeChar c).flatMap encodeByte else [c]

def decodePair? (high low : Char) : Option Nat :=
  (digitValue high).bind fun h => (digitValue low).map (16 * h + ·)

def decodeAscii? : List Char → Option (List Char)
  | '%' :: high :: low :: cs =>
    match decodePair? high low with
    | some n => if n < 0x80 then (decodeAscii? cs).map (Char.ofNat n :: ·) else none
    | none => (decodeAscii? (high :: low :: cs)).map ('%' :: ·)
  | c :: cs => if c.toNat < 0x80 then (decodeAscii? cs).map (c :: ·) else none
  | [] => some []

end Percent

end PageFilters
