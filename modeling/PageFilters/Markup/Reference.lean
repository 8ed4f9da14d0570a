import PageFilters.Text.Ascii

/-!
Character references. A reference is an ampersand followed by one of six names, or by `#` and up to
seven decimal digits, or by `#x` and up to six hexadecimal digits, and in each case a semicolon.
Everything else passes through as written.
-/

namespace PageFilters

namespace Reference

def named : List (List Char × Char) :=
  [("amp;".toList, '&'), ("lt;".toList, '<'), ("gt;".toList, '>'), ("quot;".toList, '\x22'),
    ("apos;".toList, '\x27'), ("nbsp;".toList, '\u00a0')]

/-- Reads `digits;` as a character: at least one digit, at most `limit`, and a scalar value. -/
def readNumber (radix limit : Nat) (cs : List Char) : Option (Char × List Char) :=
  match cs.dropWhile (· != ';') with
  | ';' :: rest =>
    let digits := cs.takeWhile (· != ';')
    if digits.isEmpty || limit < digits.length then none
    else (readDigits radix digits).bind fun n =>
      if n.isValidChar then some (Char.ofNat n, rest) else none
  | _ => none

def read : List Char → Option (Char × List Char)
  | '#' :: 'x' :: cs => readNumber 16 6 cs
  | '#' :: 'X' :: cs => readNumber 16 6 cs
  | '#' :: cs => readNumber 10 7 cs
  | cs => (named.find? fun (name, _) => name.isPrefixOf cs).map
      fun (name, c) => (c, cs.drop name.length)

theorem readNumber_shorter {radix limit : Nat} {cs rest : List Char} {c : Char}
    (found : readNumber radix limit cs = some (c, rest)) : rest.length < cs.length := by
  unfold readNumber at found
  split at found
  · next r split =>
    have whole := congrArg List.length (List.takeWhile_append_dropWhile (p := (· != ';')) (l := cs))
    rw [split] at whole
    simp only [List.length_append, List.length_cons] at whole
    simp only at found
    split at found
    · simp at found
    · rw [Option.bind_eq_some_iff] at found
      obtain ⟨n, _, found⟩ := found
      split at found
      · simp only [Option.some.injEq, Prod.mk.injEq] at found
        obtain ⟨_, rfl⟩ := found
        omega
      · simp at found
  · simp at found

theorem read_le {cs rest : List Char} {c : Char} (found : read cs = some (c, rest)) :
    rest.length ≤ cs.length := by
  unfold read at found
  split at found
  · have := readNumber_shorter found; simp only [List.length_cons]; omega
  · have := readNumber_shorter found; simp only [List.length_cons]; omega
  · have := readNumber_shorter found; simp only [List.length_cons]; omega
  · rw [Option.map_eq_some_iff] at found
    obtain ⟨⟨name, _⟩, _, found⟩ := found
    simp only [Prod.mk.injEq] at found
    rw [← found.2, List.length_drop]
    omega

def decode : List Char → List Char
  | [] => []
  | c :: cs =>
    if c = '&' then
      match _found : read cs with
      | some (d, rest) => d :: decode rest
      | none => '&' :: decode cs
    else c :: decode cs
termination_by cs => cs.length
decreasing_by
  · have := read_le _found; simp only [List.length_cons]; omega
  · simp
  · simp

def escapeTextChar (c : Char) : List Char :=
  if c = '&' then "&amp;".toList
  else if c = '<' then "&lt;".toList
  else if c = '>' then "&gt;".toList
  else if c = '\u00a0' then "&nbsp;".toList
  else [c]

def escapeValueChar (mark c : Char) : List Char :=
  if c = '&' then "&amp;".toList
  else if c = '\x22' ∧ mark = '\x22' then "&quot;".toList
  else if c = '\x27' ∧ mark = '\x27' then "&#39;".toList
  else if c = '\u00a0' then "&nbsp;".toList
  else [c]

end Reference

def escapeText (text : String) : String :=
  String.ofList (text.toList.flatMap Reference.escapeTextChar)

def escapeValue (mark : Char) (value : String) : String :=
  String.ofList (value.toList.flatMap (Reference.escapeValueChar mark))

end PageFilters
