import PageFilters.Toml.Scalar
import PageFilters.Toml.Value

/-!
Reading TOML documents. This reader stands in for one that comes from a library of its own, and no
theorem rests on it. It knows comments, keys, strings of all four forms, arrays, tables and headers.
Numbers, truth values and dates are kept as they are written. Line ends and comments may stand
anywhere inside the brackets of an array or of a table written as a value, but not inside a key.
-/

namespace PageFilters

namespace Toml

abbrev Reader (α : Type) := List Char → Option (α × List Char)

def isControl (c : Char) : Bool :=
  (c.toNat < 0x20 && c != '\t') || c.toNat == 0x7f

def isGap (c : Char) : Bool :=
  c == ' ' || c == '\t'

def skipGap (cs : List Char) : List Char :=
  cs.dropWhile isGap

def afterLineEnd? : List Char → Option (List Char)
  | '\n' :: cs => some cs
  | '\r' :: '\n' :: cs => some cs
  | _ => none

def skipComment (cs : List Char) : Option (List Char) :=
  match cs with
  | '#' :: body =>
    let rest := body.dropWhile fun c => !isControl c
    if rest.isEmpty || (afterLineEnd? rest).isSome then some rest else none
  | _ => some cs

def skipLines : Nat → List Char → Option (List Char)
  | 0, cs => some cs
  | n + 1, cs => do
    let cs ← skipComment (skipGap cs)
    match afterLineEnd? cs with
    | some rest => skipLines n rest
    | none => return cs

def skipAll (cs : List Char) : Option (List Char) :=
  skipLines cs.length cs

def hexEscape (count : Nat) : Reader Char := fun cs =>
  let digits := cs.take count
  if digits.length < count then none
  else (readDigits 16 digits).bind fun n =>
    if n.isValidChar then some (Char.ofNat n, cs.drop count) else none

def escape : Reader Char
  | 'b' :: cs => some ('\x08', cs)
  | 't' :: cs => some ('\t', cs)
  | 'n' :: cs => some ('\n', cs)
  | 'f' :: cs => some ('\x0c', cs)
  | 'r' :: cs => some ('\r', cs)
  | 'e' :: cs => some ('\x1b', cs)
  | '\x22' :: cs => some ('\x22', cs)
  | '\\' :: cs => some ('\\', cs)
  | 'x' :: cs => hexEscape 2 cs
  | 'u' :: cs => hexEscape 4 cs
  | 'U' :: cs => hexEscape 8 cs
  | _ => none

def skipBlankLines : List Char → List Char
  | '\r' :: '\n' :: cs => skipBlankLines cs
  | c :: cs => if isGap c || c == '\n' then skipBlankLines cs else c :: cs
  | [] => []

def foldLine? (cs : List Char) : Option (List Char) :=
  (afterLineEnd? (skipGap cs)).map skipBlankLines

def stringBody (close : List Char → Option (List Char × List Char)) (escapes lines : Bool) :
    Nat → Reader (List Char)
  | 0, _ => none
  | n + 1, cs =>
    match close cs with
    | some found => some found
    | none =>
      let go := stringBody close escapes lines n
      let keep (taken : List Char) (rest : List Char) : Option (List Char × List Char) :=
        (go rest).map fun (text, rest) => (taken ++ text, rest)
      match cs with
      | [] => none
      | '\\' :: rest =>
        if !escapes then keep ['\\'] rest
        else match if lines then foldLine? rest else none with
          | some rest => go rest
          | none => (escape rest).bind fun (c, rest) => keep [c] rest
      | '\n' :: rest => if lines then keep ['\n'] rest else none
      | '\r' :: '\n' :: rest => if lines then keep ['\r', '\n'] rest else none
      | c :: rest => if isControl c then none else keep [c] rest

def closeOne (mark : Char) : List Char → Option (List Char × List Char)
  | c :: rest => if c == mark then some ([], rest) else none
  | [] => none

/-- Ends a string at three `mark`s; up to two more right before them belong to the string. -/
def closeThree (mark : Char) (cs : List Char) : Option (List Char × List Char) :=
  let count := min 5 (cs.takeWhile (· == mark)).length
  if count < 3 then none
  else some (List.replicate (count - 3) mark, cs.drop count)

def shortString (mark : Char) (cs : List Char) : Option (String × List Char) :=
  (stringBody (closeOne mark) (mark == '\x22') false (cs.length + 1) cs).map
    fun (text, rest) => (String.ofList text, rest)

def longString (mark : Char) (cs : List Char) : Option (String × List Char) :=
  let cs := (afterLineEnd? cs).getD cs
  (stringBody (closeThree mark) (mark == '\x22') true (cs.length + 1) cs).map
    fun (text, rest) => (String.ofList text, rest)

def isBareKeyChar (c : Char) : Bool :=
  c.isAlphanum || c == '_' || c == '-'

def simpleKey : Reader String
  | '\x22' :: cs => shortString '\x22' cs
  | '\x27' :: cs => shortString '\x27' cs
  | cs =>
    let name := cs.takeWhile isBareKeyChar
    if name.isEmpty then none else some (String.ofList name, cs.drop name.length)

def dottedKey : Nat → Reader (List String)
  | 0, _ => none
  | n + 1, cs => do
    let (part, rest) ← simpleKey (skipGap cs)
    match skipGap rest with
    | '.' :: rest =>
      let (parts, rest) ← dottedKey n rest
      return (part :: parts, rest)
    | rest => return ([part], rest)

def maxDepth : Nat := 80

def key : Reader (List String) := fun cs =>
  (dottedKey cs.length cs).filter fun (parts, _) => parts.length ≤ maxDepth

def afterEquals? : List Char → Option (List Char)
  | '=' :: cs => some cs
  | _ => none

def isScalarChar (c : Char) : Bool :=
  !(isGap c || "=,[]\x7b\x7d#\r\n".toList.contains c)

def resumesScalar (c : Char) : Bool :=
  isScalarChar c && c != '.' && c != '\x22' && c != '\x27'

def scalarText : Nat → List Char → List Char × List Char
  | 0, cs => ([], cs)
  | n + 1, cs =>
    let word := cs.takeWhile isScalarChar
    let rest := cs.dropWhile isScalarChar
    let gap := rest.takeWhile isGap
    let next := skipGap rest
    if !gap.isEmpty && next.head?.any resumesScalar then
      let (text, rest) := scalarText n next
      (word ++ gap ++ text, rest)
    else (word, rest)

def unquoted : Reader Toml := fun cs =>
  let (text, rest) := scalarText (cs.length + 1) cs
  if isScalar text then some (.scalar (String.ofList text), rest) else none

mutual

def value (room : Nat) : Nat → Reader Toml
  | 0, _ => none
  | _ + 1, '\x22' :: '\x22' :: '\x22' :: cs =>
    (longString '\x22' cs).map fun (s, r) => (.string s, r)
  | _ + 1, '\x22' :: cs => (shortString '\x22' cs).map fun (s, r) => (.string s, r)
  | _ + 1, '\x27' :: '\x27' :: '\x27' :: cs =>
    (longString '\x27' cs).map fun (s, r) => (.string s, r)
  | _ + 1, '\x27' :: cs => (shortString '\x27' cs).map fun (s, r) => (.string s, r)
  | n + 1, '[' :: cs =>
    if room == 0 then none
    else (members (room - 1) n cs).map fun (items, rest) => (.array .written items, rest)
  | n + 1, '\x7b' :: cs =>
    if room == 0 then none
    else (fields (room - 1) n [] cs).map fun (entries, rest) => (.table .written entries, rest)
  | _ + 1, cs => unquoted cs

def members (room : Nat) : Nat → Reader (List Toml)
  | 0, _ => none
  | n + 1, cs => do
    match ← skipAll cs with
    | ']' :: rest => return ([], rest)
    | cs =>
      let (item, rest) ← value room n cs
      match ← skipAll rest with
      | ']' :: rest => return ([item], rest)
      | ',' :: rest =>
        let (items, rest) ← members room n rest
        return (item :: items, rest)
      | _ => none

def fields (room : Nat) : Nat → Entries → Reader Entries
  | 0, _, _ => none
  | n + 1, entries, cs => do
    match ← skipAll cs with
    | '\x7d' :: rest => return (entries, rest)
    | cs =>
      let (name, rest) ← key cs
      let rest ← afterEquals? (← skipAll rest)
      let (item, rest) ← value room n (← skipAll rest)
      let entries ← insert item name entries
      match ← skipAll rest with
      | '\x7d' :: rest => return (entries, rest)
      | ',' :: rest => fields room n entries rest
      | _ => none

end

def header (close : List Char) (cs : List Char) : Option ((List String × String) × List Char) := do
  let (parts, rest) ← key cs
  let name ← parts.getLast?
  if close.isPrefixOf rest then return ((parts.dropLast, name), rest.drop close.length) else none

def statements : Nat → List String → Entries → List Char → Option Entries
  | 0, _, _, _ => none
  | n + 1, path, entries, cs => do
    let cs ← skipAll cs
    match cs with
    | [] => return entries
    | '[' :: '[' :: cs =>
      let ((outer, name), rest) ← header [']', ']'] cs
      let entries ← modifyAt (openItem name) outer entries
      let rest ← lineEnd rest
      statements n (outer ++ [name]) entries rest
    | '[' :: cs =>
      let ((outer, name), rest) ← header [']'] cs
      let entries ← modifyAt (openTable name) outer entries
      let rest ← lineEnd rest
      statements n (outer ++ [name]) entries rest
    | cs =>
      let (name, rest) ← key cs
      let rest ← afterEquals? rest
      let (item, rest) ← value maxDepth (2 * rest.length + 2) (skipGap rest)
      let entries ← modifyAt (insert item name) path entries
      let rest ← lineEnd rest
      statements n path entries rest
where
  /-- What follows a statement: nothing but a comment may stand on its line. -/
  lineEnd (cs : List Char) : Option (List Char) := do
    let cs ← skipComment (skipGap cs)
    if cs.isEmpty then return cs else afterLineEnd? cs

def read? (source : String) : Option Entries :=
  let cs := match source.toList with
    | '\ufeff' :: cs => cs
    | cs => cs
  statements (cs.length + 1) [] [] cs

end Toml

end PageFilters
