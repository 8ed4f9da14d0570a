import PageFilters.Markup.Reference

/-!
Escaped text and values read back as what they were, whatever follows them, and hold none of the
characters that would end them.
-/

namespace PageFilters

namespace Reference

theorem decode_reference {cs rest : List Char} {c : Char} (found : read cs = some (c, rest)) :
    decode ('&' :: cs) = c :: decode rest := by
  rw [decode, if_pos rfl]
  split
  · next d left other =>
    rw [found, Option.some.injEq, Prod.mk.injEq] at other
    rw [other.1, other.2]
  · next none =>
    rw [found] at none
    cases none

theorem decode_plain {c : Char} (cs : List Char) (plain : c ≠ '&') :
    decode (c :: cs) = c :: decode cs := by
  rw [decode, if_neg plain]

theorem decode_amp (rest : List Char) : decode ("&amp;".toList ++ rest) = '&' :: decode rest :=
  decode_reference rfl

theorem decode_lt (rest : List Char) : decode ("&lt;".toList ++ rest) = '<' :: decode rest :=
  decode_reference rfl

theorem decode_gt (rest : List Char) : decode ("&gt;".toList ++ rest) = '>' :: decode rest :=
  decode_reference rfl

theorem decode_quot (rest : List Char) :
    decode ("&quot;".toList ++ rest) = '\x22' :: decode rest :=
  decode_reference rfl

theorem decode_nbsp (rest : List Char) :
    decode ("&nbsp;".toList ++ rest) = '\u00a0' :: decode rest :=
  decode_reference rfl

theorem decode_apos (rest : List Char) :
    decode ("&#39;".toList ++ rest) = '\x27' :: decode rest :=
  decode_reference rfl

theorem decode_escapeTextChar (c : Char) (rest : List Char) :
    decode (escapeTextChar c ++ rest) = c :: decode rest := by
  unfold escapeTextChar
  split
  · next same => rw [same, decode_amp]
  · next notAmp =>
    split
    · next same => rw [same, decode_lt]
    · split
      · next same => rw [same, decode_gt]
      · split
        · next same => rw [same, decode_nbsp]
        · exact decode_plain rest notAmp

theorem decode_escapeValueChar (mark c : Char) (rest : List Char) :
    decode (escapeValueChar mark c ++ rest) = c :: decode rest := by
  unfold escapeValueChar
  split
  · next same => rw [same, decode_amp]
  · next notAmp =>
    split
    · next same => rw [same.1, decode_quot]
    · split
      · next same => rw [same.1, decode_apos]
      · split
        · next same => rw [same, decode_nbsp]
        · exact decode_plain rest notAmp

theorem decode_ne_nil {cs : List Char} (some : cs ≠ []) : decode cs ≠ [] := by
  cases cs with
  | nil => exact absurd rfl some
  | cons c cs =>
    rw [decode]
    split
    · split <;> simp
    · simp

theorem decode_flatMap {escape : Char → List Char}
    (each : ∀ c rest, decode (escape c ++ rest) = c :: decode rest) (cs rest : List Char) :
    decode (cs.flatMap escape ++ rest) = cs ++ decode rest := by
  induction cs with
  | nil => rfl
  | cons c cs ih => rw [List.flatMap_cons, List.append_assoc, each, ih, List.cons_append]

theorem not_mem_flatMap {escape : Char → List Char} {bad : Char} {cs : List Char}
    (each : ∀ c ∈ cs, bad ∉ escape c) : bad ∉ cs.flatMap escape := by
  rw [List.mem_flatMap]
  rintro ⟨c, inside, member⟩
  exact each c inside member

def valueLetters : List Char :=
  "&amp;quot;#39;nbsp;".toList

end Reference

open Reference

theorem decode_escapeText (text : String) (rest : List Char) :
    decode ((escapeText text).toList ++ rest) = text.toList ++ decode rest := by
  rw [escapeText, String.toList_ofList]
  exact decode_flatMap decode_escapeTextChar _ _

theorem decode_escapeValue (mark : Char) (value : String) (rest : List Char) :
    decode ((escapeValue mark value).toList ++ rest) = value.toList ++ decode rest := by
  rw [escapeValue, String.toList_ofList]
  exact decode_flatMap (decode_escapeValueChar mark) _ _

theorem escapeText_ne_nil {text : String} (long : text ≠ "") : (escapeText text).toList ≠ [] := by
  intro none
  have undone := decode_escapeText text []
  rw [none, List.nil_append, decode, List.append_nil] at undone
  exact long (String.toList_injective undone.symm)

theorem angle_not_mem_escapeText {angle : Char} (isAngle : angle = '<' ∨ angle = '>')
    (text : String) : angle ∉ (escapeText text).toList := by
  rw [escapeText, String.toList_ofList]
  apply not_mem_flatMap
  intro c _
  unfold escapeTextChar
  split
  · rcases isAngle with rfl | rfl <;> decide
  · split
    · rcases isAngle with rfl | rfl <;> decide
    · split
      · rcases isAngle with rfl | rfl <;> decide
      · split
        · rcases isAngle with rfl | rfl <;> decide
        · next notLt notGt _ =>
          intro member
          rw [← List.mem_singleton.mp member] at notLt notGt
          exact isAngle.elim notLt notGt

theorem lt_not_mem_escapeText (text : String) : '<' ∉ (escapeText text).toList :=
  angle_not_mem_escapeText (.inl rfl) text

theorem not_mem_escapeValue {mark bad : Char} {value : String} (letter : bad ∉ valueLetters)
    (absent : bad ∉ value.toList) : bad ∉ (escapeValue mark value).toList := by
  rw [escapeValue, String.toList_ofList]
  apply not_mem_flatMap
  intro c inside member
  have other : bad ≠ c := fun same => absent (same ▸ inside)
  unfold escapeValueChar at member
  split at member
  · exact letter ((by decide : "&amp;".toList ⊆ valueLetters) member)
  · split at member
    · exact letter ((by decide : "&quot;".toList ⊆ valueLetters) member)
    · split at member
      · exact letter ((by decide : "&#39;".toList ⊆ valueLetters) member)
      · split at member
        · exact letter ((by decide : "&nbsp;".toList ⊆ valueLetters) member)
        · exact other (List.mem_singleton.mp member)

theorem mark_not_mem_escapeValue {mark : Char} (quotes : mark = '\x22' ∨ mark = '\x27')
    (value : String) : mark ∉ (escapeValue mark value).toList := by
  rw [escapeValue, String.toList_ofList]
  apply not_mem_flatMap
  intro c _
  unfold escapeValueChar
  split
  · rcases quotes with rfl | rfl <;> decide
  · split
    · rcases quotes with rfl | rfl <;> decide
    · split
      · rcases quotes with rfl | rfl <;> decide
      · next notDouble notSingle =>
        split
        · rcases quotes with rfl | rfl <;> decide
        · intro member
          have same := List.mem_singleton.mp member
          subst same
          rcases quotes with rfl | rfl
          · exact notDouble ⟨rfl, rfl⟩
          · exact notSingle ⟨rfl, rfl⟩

/-- What decoding makes of an escaped value does not depend on what follows: it is the value, and
the rest is decoded as if it stood alone. None of the characters in `hidden` shows. -/
structure Undone (escape : String → String) (hidden : List Char) : Prop where
  decode_append : ∀ value rest : String,
    decode (escape value ++ rest).toList = value.toList ++ decode rest.toList
  hides : ∀ value, ∀ c ∈ hidden, c ∉ (escape value).toList

theorem escaping_undone :
    Undone escapeText ['<', '>'] ∧ Undone (escapeValue '\x22') ['\x22'] ∧
      Undone (escapeValue '\x27') ['\x27'] := by
  have quoted : ∀ mark, mark = '\x22' ∨ mark = '\x27' → Undone (escapeValue mark) [mark] := by
    intro mark quotes
    constructor
    case decode_append =>
      intro value rest
      rw [String.toList_append, decode_escapeValue]
    case hides =>
      intro value c member
      rw [List.mem_singleton.mp member]
      exact mark_not_mem_escapeValue quotes value
  refine ⟨⟨?_, ?_⟩, quoted _ (.inl rfl), quoted _ (.inr rfl)⟩
  · intro value rest
    rw [String.toList_append, decode_escapeText]
  · intro value c member
    exact angle_not_mem_escapeText (by simpa using member) value

end PageFilters
