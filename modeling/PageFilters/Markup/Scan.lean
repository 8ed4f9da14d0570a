import PageFilters.Markup.Reference
import PageFilters.Text.Blank
import PageFilters.Markup.Token

/-!
Reading one construct from the front of a markup text: a run of text, a comment, a doctype, an end
tag, or a start tag together with the raw text that follows `script` and `style`. Nothing after the
construct is looked at, and every construct is longer than nothing (`scan_shorter`).

Names are runs of ASCII letters, digits, `-`, `_` and `:`. Inside a tag, characters that start no
name are skipped. A `/>` closes void elements only.
-/

namespace PageFilters

namespace Scan

def isNameChar (c : Char) : Bool :=
  c.isAlphanum || c == '-' || c == '_' || c == ':'

def after? (mark cs : List Char) : Option (List Char) :=
  if mark.isPrefixOf cs then some (cs.drop mark.length) else none

def cutAt (close : List Char → Option (List Char)) : List Char → Option (List Char × List Char)
  | [] => (close []).map ([], ·)
  | c :: cs =>
    match close (c :: cs) with
    | some rest => some ([], rest)
    | none => (cutAt close cs).map fun (before, rest) => (c :: before, rest)

def afterCloseTag? (tag cs : List Char) : Option (List Char) :=
  let opening := '<' :: '/' :: tag
  if startsIgnoreCase opening cs then
    match (cs.drop opening.length).dropWhile isSpace with
    | '>' :: rest => some rest
    | _ => none
  else none

def cutAtCloseTag (tag : List Char) : List Char → Option (List Char × List Char) :=
  cutAt (afterCloseTag? tag)

def unquotedValue : List Char → List Char × List Char
  | [] => ([], [])
  | c :: cs =>
    if isSpace c || c == '>' || (c == '/' && cs.head? == some '>') then ([], c :: cs)
    else
      let (value, rest) := unquotedValue cs
      (c :: value, rest)

def quotedValue (mark : Char) (cs : List Char) : List Char × List Char :=
  (cs.takeWhile (· != mark), (cs.dropWhile (· != mark)).tail)

def attributeValue (cs : List Char) : Option (List Char) × Quote × List Char :=
  match cs.dropWhile isSpace with
  | '=' :: cs =>
    match cs.dropWhile isSpace with
    | '\x22' :: cs =>
      let (value, rest) := quotedValue '\x22' cs
      (some value, .double, rest)
    | '\x27' :: cs =>
      let (value, rest) := quotedValue '\x27' cs
      (some value, .single, rest)
    | cs =>
      let (value, rest) := unquotedValue cs
      (some value, .unquoted, rest)
  | _ => (none, .double, cs)

theorem length_dropWhile_le (p : α → Bool) (l : List α) : (l.dropWhile p).length ≤ l.length :=
  (List.dropWhile_suffix p).length_le

theorem unquotedValue_le (cs : List Char) : (unquotedValue cs).2.length ≤ cs.length := by
  induction cs with
  | nil => simp [unquotedValue]
  | cons c cs ih =>
    rw [unquotedValue]
    split
    · simp
    · simp only [List.length_cons]
      omega

theorem quotedValue_le (mark : Char) (cs : List Char) :
    (quotedValue mark cs).2.length ≤ cs.length := by
  have := length_dropWhile_le (· != mark) cs
  simp only [quotedValue, List.length_tail]
  omega

theorem attributeValue_le (cs : List Char) : (attributeValue cs).2.2.length ≤ cs.length := by
  have skipped := length_dropWhile_le isSpace cs
  unfold attributeValue
  split
  · next value start =>
    rw [start, List.length_cons] at skipped
    have inner := length_dropWhile_le isSpace value
    split
    · next body opened =>
      rw [opened, List.length_cons] at inner
      have := quotedValue_le '\x22' body
      simp only
      omega
    · next body opened =>
      rw [opened, List.length_cons] at inner
      have := quotedValue_le '\x27' body
      simp only
      omega
    · have := unquotedValue_le (value.dropWhile isSpace)
      simp only
      omega
  · simp

def keepAttribute (name : List Char) (value : Option (List Char)) (quote : Quote) : Attribute :=
  ⟨foldCase (String.ofList name), value.map fun v => String.ofList (Reference.decode v), quote⟩

def attributes : List Char → List Attribute × Bool × List Char
  | [] => ([], false, [])
  | c :: cs =>
    if c = '>' then ([], false, cs)
    else if c = '/' ∧ cs.head? = some '>' then ([], true, cs.tail)
    else if isNameChar c then
      match _read : attributeValue (cs.dropWhile isNameChar) with
      | (value, quote, rest) =>
        let (others, slashed, rest) := attributes rest
        (keepAttribute (c :: cs.takeWhile isNameChar) value quote :: others, slashed, rest)
    else attributes cs
termination_by cs => cs.length
decreasing_by
  · have := attributeValue_le (cs.dropWhile isNameChar)
    have := length_dropWhile_le isNameChar cs
    simp_all only [List.length_cons]
    omega
  · simp

theorem attributes_le (cs : List Char) : (attributes cs).2.2.length ≤ cs.length := by
  fun_induction attributes cs with
  | case1 => simp
  | case2 => simp
  | case3 c cs => simp only [List.length_tail, List.length_cons]; omega
  | case4 c cs _ _ _ value quote rest read others slashed rest' whole ih =>
    have := attributeValue_le (cs.dropWhile isNameChar)
    have := length_dropWhile_le isNameChar cs
    simp_all only [List.length_cons]
    omega
  | case5 c cs _ _ _ ih => simp only [List.length_cons]; omega

end Scan

/-- One construct of a markup text: its tokens, the text after it, and whether that text is to be
read too. A text that ends inside a comment, a doctype or raw text is not read further. -/
structure Construct where
  tokens : List (Token String)
  rest : List Char
  more : Bool

namespace Scan

def text (cs : List Char) : Construct :=
  ⟨[.text (String.ofList (Reference.decode (cs.takeWhile (· != '<'))))],
    cs.dropWhile (· != '<'), true⟩

def comment (cs : List Char) : Construct :=
  match cutAt (after? ['-', '-', '>']) cs with
  | some (body, rest) => ⟨[.comment (String.ofList body)], rest, true⟩
  | none => ⟨[.comment (String.ofList cs)], [], false⟩

def doctype (cs : List Char) : Construct :=
  match cutAt (after? ['>']) cs with
  | some (body, rest) => ⟨[.doctype (String.ofList (trim body))], rest, true⟩
  | none => ⟨[], [], false⟩

/-- An end tag after its `</`. What stands between its name and the next `>` is dropped, and the
whole tag is when it has no name. -/
def endTag (cs : List Char) : Construct :=
  let name := cs.takeWhile isNameChar
  let rest := (cs.dropWhile (· != '>')).tail
  ⟨if name.isEmpty then [] else [.endTag (foldCase (String.ofList name))], rest, true⟩

def rawtext (tag : String) (cs : List Char) : Construct :=
  let tokens (body : List Char) : List (Token String) :=
    if body.isEmpty then [.endTag tag] else [.text (String.ofList body), .endTag tag]
  match cutAtCloseTag tag.toList cs with
  | some (body, rest) => ⟨tokens body, rest, true⟩
  | none => ⟨tokens cs, [], false⟩

def startTag (cs : List Char) : Construct :=
  let name := cs.takeWhile isNameChar
  if name.isEmpty then ⟨[.text "<"], cs, true⟩
  else
    let tag := foldCase (String.ofList name)
    let (attributes, slashed, rest) := attributes (cs.dropWhile isNameChar)
    let opening : Token String := .startTag tag attributes (isVoid tag) slashed
    if (Keyword.ofTag tag).isRawtext then
      let content := rawtext tag rest
      ⟨opening :: content.tokens, content.rest, content.more⟩
    else ⟨[opening], rest, true⟩

end Scan

def scan : List Char → Construct
  | '<' :: '!' :: '-' :: '-' :: cs => Scan.comment cs
  | '<' :: '/' :: cs => Scan.endTag cs
  | '<' :: '!' :: cs =>
    if startsIgnoreCase "doctype".toList cs then Scan.doctype cs else Scan.startTag ('!' :: cs)
  | '<' :: cs => Scan.startTag cs
  | cs => Scan.text cs

namespace Scan

theorem cutAt_le {close : List Char → Option (List Char)}
    (shrinks : ∀ cs rest, close cs = some rest → rest.length ≤ cs.length)
    {cs before rest : List Char} (cut : cutAt close cs = some (before, rest)) :
    rest.length ≤ cs.length := by
  induction cs generalizing before rest with
  | nil =>
    simp only [cutAt, Option.map_eq_some_iff] at cut
    obtain ⟨found, closed, same⟩ := cut
    cases same
    exact shrinks _ _ closed
  | cons c cs ih =>
    unfold cutAt at cut
    split at cut
    · next closed =>
      cases cut
      exact shrinks _ _ closed
    · rw [Option.map_eq_some_iff] at cut
      obtain ⟨⟨inner, left⟩, found, same⟩ := cut
      cases same
      have := ih found
      simp only [List.length_cons]
      omega

theorem after_le (mark : List Char) (cs rest : List Char) (found : after? mark cs = some rest) :
    rest.length ≤ cs.length := by
  unfold after? at found
  split at found
  · cases found; simp
  · simp at found

theorem afterCloseTag_le (tag cs rest : List Char) (found : afterCloseTag? tag cs = some rest) :
    rest.length ≤ cs.length := by
  unfold afterCloseTag? at found
  simp only at found
  split at found
  · split at found
    · next left ended =>
      cases found
      have := length_dropWhile_le isSpace (cs.drop ('<' :: '/' :: tag).length)
      rw [ended] at this
      simp only [List.length_cons, List.length_drop] at this
      omega
    · simp at found
  · simp at found

theorem comment_le (cs : List Char) : (comment cs).rest.length ≤ cs.length := by
  unfold comment
  split
  · next cut => exact cutAt_le (after_le _) cut
  · simp

theorem doctype_le (cs : List Char) : (doctype cs).rest.length ≤ cs.length := by
  unfold doctype
  split
  · next cut => exact cutAt_le (after_le _) cut
  · simp

theorem endTag_le (cs : List Char) : (endTag cs).rest.length ≤ cs.length := by
  have := length_dropWhile_le (· != '>') cs
  simp only [endTag, List.length_tail]
  omega

theorem rawtext_le (tag : String) (cs : List Char) : (rawtext tag cs).rest.length ≤ cs.length := by
  unfold rawtext
  simp only
  split
  · next cut => exact cutAt_le (afterCloseTag_le _) cut
  · simp

theorem startTag_le (cs : List Char) : (startTag cs).rest.length ≤ cs.length := by
  have named := length_dropWhile_le isNameChar cs
  have tail := attributes_le (cs.dropWhile isNameChar)
  have raw := rawtext_le (foldCase (String.ofList (cs.takeWhile isNameChar)))
    (attributes (cs.dropWhile isNameChar)).2.2
  unfold startTag
  simp only
  split
  · exact Nat.le_refl _
  · split
    · exact Nat.le_trans (Nat.le_trans raw tail) named
    · exact Nat.le_trans tail named

theorem text_shorter {c : Char} (cs : List Char) (h : c ≠ '<') :
    (text (c :: cs)).rest.length < (c :: cs).length := by
  have := length_dropWhile_le (· != '<') cs
  simp only [text, List.dropWhile_cons, bne_iff_ne, ne_eq, h, not_false_eq_true, ↓reduceIte,
    List.length_cons]
  omega

end Scan

theorem scan_shorter {cs : List Char} (h : cs ≠ []) : (scan cs).rest.length < cs.length := by
  unfold scan
  split
  · next cs => have := Scan.comment_le cs; simp only [List.length_cons]; omega
  · next cs => have := Scan.endTag_le cs; simp only [List.length_cons]; omega
  · next cs _ =>
    split
    · have := Scan.doctype_le cs; simp only [List.length_cons]; omega
    · have := Scan.startTag_le ('!' :: cs); simp only [List.length_cons] at this ⊢; omega
  · next cs _ _ _ => have := Scan.startTag_le cs; simp only [List.length_cons]; omega
  · next notComment notEnd notDoctype notTag =>
    cases cs with
    | nil => exact absurd rfl h
    | cons c cs => exact Scan.text_shorter cs fun same => notTag cs (by rw [same])

end PageFilters
