import PageFilters.Markup.Tokenizer

/-!
Reading a text by its UTF-8 bytes. A place in the text is a number of bytes. All marks of markup
are single bytes, and a tag is walked byte by byte, so a place may lie inside a character. A piece
of the text can be taken only between two places where characters begin or end, and a loop may go
round only as often as there are places ahead of it; what asks for more is a fault. No text leads to
a fault, and the tokens are those that `Tokenizer` gives (`Cursor.answer_eq`).
-/

namespace PageFilters

def utf8Bytes (text : String) : List UInt8 :=
  text.toUTF8.data.toList

namespace Cursor

inductive Fault where
  /-- The places are not in order, or one of them is not the border of a character. -/
  | slice (start stop : Nat)
  /-- A loop has gone round too often. -/
  | endless
  deriving DecidableEq, Repr

inductive Round (σ ρ : Type) where
  | again (state : σ)
  | done (result : ρ)

def rounds {σ ρ : Type} (round : σ → Except Fault (Round σ ρ)) : Nat → σ → Except Fault ρ
  | 0, _ => throw .endless
  | n + 1, s => do
    match ← round s with
    | .again next => rounds round n next
    | .done result => return result

/-- As many rounds as there are places from that of `s` up to `limit`. -/
def loop {σ ρ : Type} (limit : Nat) (place : σ → Nat) (round : σ → Except Fault (Round σ ρ))
    (s : σ) : Except Fault ρ :=
  rounds round (limit + 1 - place s) s

def letter (b : UInt8) : Char :=
  Char.ofNat b.toNat

section

variable (text : String)

def letter? (pos : Nat) : Option Char :=
  (utf8Bytes text)[pos]?.map letter

def slice (start stop : Nat) : Except Fault String :=
  if sound : start ≤ stop ∧ String.Pos.Raw.IsValid text ⟨start⟩ ∧
      String.Pos.Raw.IsValid text ⟨stop⟩ then
    return text.extract ⟨⟨start⟩, sound.2.1⟩ ⟨⟨stop⟩, sound.2.2⟩
  else throw (.slice start stop)

def ahead (pos : Nat) : Except Fault (List UInt8) :=
  if pos ≤ text.utf8ByteSize then return (utf8Bytes text).drop pos
  else throw (.slice pos text.utf8ByteSize)

def find? (part : List UInt8) : List UInt8 → Option Nat
  | [] => if part = [] then some 0 else none
  | b :: rest => if part <+: b :: rest then some 0 else (find? part rest).map (· + 1)

def seek (mark : Char) (pos : Nat) : Except Fault (Option Nat) := do
  return (find? [mark.toUInt8] (← ahead text pos)).map (pos + ·)

def startsAt (word : String) (pos : Nat) : Bool :=
  (((utf8Bytes text).drop pos).take word.utf8ByteSize).map foldByte == foldedBytes word

def advance (goes : Nat → Bool) (pos : Nat) : Except Fault Nat :=
  loop text.utf8ByteSize id
    (fun pos => return if goes pos then .again (pos + 1) else .done pos) pos

def skip (p : Char → Bool) (pos : Nat) : Except Fault Nat :=
  advance text (fun pos => (letter? text pos).any p) pos

def name (pos : Nat) : Except Fault (Option String × Nat) := do
  let stop ← skip text Scan.isNameChar pos
  if stop = pos then return (none, pos)
  else return (some (foldCase (← slice text pos stop)), stop)

def decoded (start stop : Nat) : Except Fault String := do
  return String.ofList (Reference.decode (← slice text start stop).toList)

def valueGoes (pos : Nat) : Bool :=
  (letter? text pos).any fun c =>
    !(isSpace c || c == '>' || (c == '/' && letter? text (pos + 1) == some '>'))

def attributeValue (pos : Nat) : Except Fault (Option String × Quote × Nat) := do
  let sign ← skip text isSpace pos
  if letter? text sign ≠ some '=' then return (none, .double, pos)
  let start ← skip text isSpace (sign + 1)
  match letter? text start with
  | some '\x22' => quoted '\x22' .double (start + 1)
  | some '\x27' => quoted '\x27' .single (start + 1)
  | _ =>
    let stop ← advance text (valueGoes text) start
    return (some (← decoded text start stop), .unquoted, stop)
where
  quoted (mark : Char) (quote : Quote) (start : Nat) :
      Except Fault (Option String × Quote × Nat) := do
    let stop := (← seek text mark start).getD text.utf8ByteSize
    return (some (← decoded text start stop), quote, min (stop + 1) text.utf8ByteSize)

abbrev Tag := List Attribute × Nat

/-- One round over what stands in a tag after its name. The last one tells whether the tag ends with
`/>`. -/
def tagRound (tag : Tag) : Except Fault (Round Tag (Tag × Bool)) := do
  let (attributes, pos) := tag
  let pos ← skip text isSpace pos
  match letter? text pos with
  | none => return .done ((attributes, pos), false)
  | some '>' => return .done ((attributes, pos + 1), false)
  | some '/' =>
    if letter? text (pos + 1) = some '>' then return .done ((attributes, pos + 2), true)
    else return .again (attributes, pos + 1)
  | some _ =>
    match ← name text pos with
    | (some name, stop) =>
      let (value, quote, stop) ← attributeValue text stop
      return .again (attributes ++ [⟨name, value, quote⟩], stop)
    | (none, _) => return .again (attributes, pos + 1)

def tagEnd (pos : Nat) : Except Fault (Tag × Bool) :=
  loop text.utf8ByteSize Prod.snd (tagRound text) ([], pos)

structure Reading where
  tokens : List (Token String)
  pos : Nat
  more : Bool

def plain (pos : Nat) : Except Fault Reading := do
  let stop := (← seek text '<' pos).getD text.utf8ByteSize
  let body ← decoded text pos stop
  return ⟨if body = "" then [] else [.text body], stop, true⟩

def comment (pos : Nat) : Except Fault Reading := do
  let body ← slice text (pos + 4) text.utf8ByteSize
  match find? (utf8Bytes "-->") (utf8Bytes body) with
  | some stop => return ⟨[.comment (← slice body 0 stop)], pos + 4 + stop + 3, true⟩
  | none => return ⟨[.comment body], text.utf8ByteSize, false⟩

def doctype (pos : Nat) : Except Fault Reading := do
  let body ← slice text (pos + 2) text.utf8ByteSize
  match find? (utf8Bytes ">") (utf8Bytes body) with
  | some stop =>
    let word ← slice body 0 stop
    return ⟨[.doctype (String.ofList (trim word.toList))], pos + 2 + stop + 1, true⟩
  | none => return ⟨[], pos, false⟩

def endTag (pos : Nat) : Except Fault Reading := do
  let (name, stop) ← name text (pos + 2)
  let stop := ((← seek text '>' stop).map (· + 1)).getD text.utf8ByteSize
  return ⟨(name.map Token.endTag).toList, stop, true⟩

/-- At a `<` the search for a close tag that begins as `closing` ends with where it begins and where
it ends, or goes on behind the `<`. -/
def closeAt (closing : String) (start : Nat) : Except Fault (Round Nat (Option (Nat × Nat))) := do
  if startsAt text closing start then
    let stop ← skip text isSpace (start + closing.utf8ByteSize)
    if letter? text stop = some '>' then return .done (some (start, stop + 1))
  return .again (start + 1)

def closeRound (closing : String) (pos : Nat) : Except Fault (Round Nat (Option (Nat × Nat))) := do
  if text.utf8ByteSize < pos + closing.utf8ByteSize then return .done none
  match ← seek text '<' pos with
  | none => return .done none
  | some start => closeAt text closing start

def closeTag? (closing : String) : Except Fault (Option (Nat × Nat)) :=
  loop text.utf8ByteSize id (closeRound text closing) 0

def rawtext (tag closing : String) (pos : Nat) : Except Fault Reading := do
  let body ← slice text pos text.utf8ByteSize
  match ← closeTag? body closing with
  | some (start, stop) =>
    if start = 0 then return ⟨[.endTag tag], pos + stop, true⟩
    else return ⟨[.text (← slice body 0 start), .endTag tag], pos + stop, true⟩
  | none =>
    if body = "" then return ⟨[.endTag tag], text.utf8ByteSize, false⟩
    else return ⟨[.text body, .endTag tag], text.utf8ByteSize, false⟩

def closing? (tag : String) : Option String :=
  if tag = "script" then some "</script"
  else if tag = "style" then some "</style"
  else none

def startTag (pos : Nat) : Except Fault Reading := do
  match ← name text (pos + 1) with
  | (none, stop) => return ⟨[.text "<"], stop, true⟩
  | (some tag, stop) =>
    let ((attributes, stop), slashed) ← tagEnd text stop
    let opening := .startTag tag attributes (isVoid tag) slashed
    match closing? tag with
    | none => return ⟨[opening], stop, true⟩
    | some closing =>
      if isVoid tag then return ⟨[opening], stop, true⟩
      else
        let content ← rawtext text tag closing stop
        return { content with tokens := opening :: content.tokens }

def construct (pos : Nat) : Except Fault Reading := do
  if letter? text pos ≠ some '<' then plain text pos
  else if utf8Bytes "<!--" <+: utf8Bytes (← slice text pos text.utf8ByteSize) then comment text pos
  else if startsAt text "<!doctype" pos then doctype text pos
  else if letter? text (pos + 1) = some '/' then endTag text pos
  else startTag text pos

end

end Cursor

/-- A text being read by its bytes: the place where the next construct begins, the names met so far,
the tokens that are read but not yet handed out, and whether reading has ended. -/
structure Cursor where
  pos : Nat := 0
  atoms : AtomTable := {}
  pending : List (Token AtomId) := []
  finished : Bool := false

namespace Cursor

variable (text : String)

def step (c : Cursor) : Except Fault Cursor := do
  if text.utf8ByteSize ≤ c.pos then return { c with finished := true }
  else
    let reading ← construct text c.pos
    let (tokens, atoms) := c.atoms.internTokens reading.tokens
    return ⟨reading.pos, atoms, c.pending ++ tokens, !reading.more⟩

def nextRound (c : Cursor) : Except Fault (Round Cursor (Option (Token AtomId) × Cursor)) := do
  match c.pending with
  | token :: pending => return .done (some token, { c with pending })
  | [] =>
    if c.finished then return .done (none, c)
    else return .again (← step text c)

/-- The place of a cursor; once reading has ended it is beyond the text. -/
def place (c : Cursor) : Nat :=
  if c.finished then text.utf8ByteSize + 1 else c.pos

def next (c : Cursor) : Except Fault (Option (Token AtomId) × Cursor) :=
  loop (text.utf8ByteSize + 1) (place text) (nextRound text) c

def asked : Nat → Except Fault Cursor
  | 0 => return {}
  | n + 1 => do return (← next text (← asked n)).2

def answer (n : Nat) : Except Fault (Option (Token AtomId)) := do
  return (← next text (← asked text n)).1

end Cursor

end PageFilters
