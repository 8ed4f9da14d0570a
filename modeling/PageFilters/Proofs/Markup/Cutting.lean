import PageFilters.Proofs.Markup.Names

/-!
Where comments, doctypes and raw texts end: at the first place where their end can be read. A text
without such a place stays whole when its end is written after it.
-/

namespace PageFilters

namespace Scan

variable {close : List Char → Option (List Char)}

def Unclosed (close : List Char → Option (List Char)) (cs : List Char) : Prop :=
  ∀ before tail, cs = before ++ tail → close tail = none

theorem cutAt_eq_some {cs before rest : List Char} (cut : cutAt close cs = some (before, rest)) :
    ∃ tail, cs = before ++ tail ∧ close tail = some rest ∧
      ∀ skipped left, before = skipped ++ left → left ≠ [] → close (left ++ tail) = none := by
  induction cs generalizing before rest with
  | nil =>
    simp only [cutAt, Option.map_eq_some_iff, Prod.mk.injEq] at cut
    obtain ⟨found, closed, rfl, rfl⟩ := cut
    refine ⟨[], rfl, closed, ?_⟩
    intro skipped left empty some
    exact absurd (List.append_eq_nil_iff.mp empty.symm).2 some
  | cons c cs ih =>
    unfold cutAt at cut
    split at cut
    · next closed =>
      cases cut
      refine ⟨c :: cs, rfl, closed, ?_⟩
      intro skipped left empty some
      exact absurd (List.append_eq_nil_iff.mp empty.symm).2 some
    · next open' =>
      rw [Option.map_eq_some_iff] at cut
      obtain ⟨⟨inner, left⟩, found, same⟩ := cut
      cases same
      obtain ⟨tail, whole, closed, first⟩ := ih found
      refine ⟨tail, by rw [whole, List.cons_append], closed, ?_⟩
      intro skipped left split some
      cases skipped with
      | nil =>
        rw [List.nil_append] at split
        rw [← split, List.cons_append, ← whole]
        exact open'
      | cons d skipped =>
        exact first skipped left (List.cons.inj split).2 some

theorem cutAt_eq_none {cs : List Char} (cut : cutAt close cs = none) : Unclosed close cs := by
  induction cs with
  | nil =>
    intro before tail whole
    obtain ⟨rfl, rfl⟩ := List.append_eq_nil_iff.mp whole.symm
    simpa [cutAt] using cut
  | cons c cs ih =>
    intro before tail whole
    unfold cutAt at cut
    split at cut
    · cases cut
    · next open' =>
      rw [Option.map_eq_none_iff] at cut
      cases before with
      | nil =>
        rw [List.nil_append] at whole
        rw [← whole]
        exact open'
      | cons d before => exact ih cut before tail (List.cons.inj whole).2

theorem cutAt_unclosed (needs : close [] = none)
    (lasts : ∀ cs rest more, close cs = some rest → close (cs ++ more) = some (rest ++ more))
    {cs before rest : List Char} (cut : cutAt close cs = some (before, rest)) :
    Unclosed close before := by
  obtain ⟨tail, _, _, first⟩ := cutAt_eq_some cut
  intro skipped left split
  cases left with
  | nil => exact needs
  | cons c left =>
    have missing := first skipped (c :: left) split (List.cons_ne_nil c left)
    cases found : close (c :: left) with
    | none => rfl
    | some more =>
      rw [lasts _ _ tail found] at missing
      cases missing

theorem cutAt_append {before tail rest : List Char} (closed : close tail = some rest)
    (first : ∀ skipped left, before = skipped ++ left → left ≠ [] → close (left ++ tail) = none) :
    cutAt close (before ++ tail) = some (before, rest) := by
  induction before with
  | nil =>
    cases tail with
    | nil => simp [cutAt, closed]
    | cons c tail => simp [cutAt, closed]
  | cons c before ih =>
    have open' := first [] (c :: before) rfl (List.cons_ne_nil c before)
    have inner := ih fun skipped left split some =>
      first (c :: skipped) left (congrArg (List.cons c) split) some
    rw [List.cons_append] at open' ⊢
    rw [cutAt, open', inner]
    rfl

theorem after_eq_some {mark cs rest : List Char} :
    after? mark cs = some rest ↔ cs = mark ++ rest := by
  rw [after?]
  constructor
  · intro found
    split at found
    · next begins =>
      obtain ⟨left, whole⟩ := List.isPrefixOf_iff_prefix.mp begins
      rw [← whole, List.drop_left] at found
      rw [← whole, Option.some.inj found]
    · cases found
  · intro whole
    rw [whole, if_pos (List.isPrefixOf_iff_prefix.mpr (List.prefix_append _ _)), List.drop_left]

end Scan

def HasCloseTag (tag cs : List Char) : Prop :=
  ∃ before name spaces rest, cs = before ++ '<' :: '/' :: name ++ spaces ++ '>' :: rest ∧
    name.map Char.toLower = tag ∧ ∀ c ∈ spaces, isSpace c = true

def IsComment (cs : List Char) : Prop :=
  ¬ "-->".toList <:+: cs

/-- Whether a text can stand in a doctype: it begins with the word itself, has no `>` and no blank
at its end. -/
structure IsDoctype (cs : List Char) : Prop where
  word : startsIgnoreCase "doctype".toList cs = true
  unended : '>' ∉ cs
  trimmed : ∀ c, cs.getLast? = some c → isBlank c = false

theorem toLower_eq_mark {c mark : Char} (isMark : mark = '<' ∨ mark = '/')
    (same : c.toLower = mark) : c = mark := by
  have letter := ascii_of_numbers
    (P := fun c => (c.toLower = '<' → c = '<') ∧ (c.toLower = '/' → c = '/')) (by decide) c
  rcases isMark with rfl | rfl
  · exact (letter (ascii_of_toLower (by rw [same]; decide))).1 same
  · exact (letter (ascii_of_toLower (by rw [same]; decide))).2 same

namespace Scan

theorem afterCloseTag_eq_some {tag cs rest : List Char} :
    afterCloseTag? tag cs = some rest ↔
      ∃ name spaces, cs = '<' :: '/' :: name ++ spaces ++ '>' :: rest ∧
        name.map Char.toLower = tag ∧ ∀ c ∈ spaces, isSpace c = true := by
  constructor
  · intro found
    unfold afterCloseTag? at found
    simp only at found
    split at found
    · next begins =>
      split at found
      · next left ended =>
        cases found
        obtain ⟨word, after, whole, same⟩ := startsIgnoreCase_iff.mp begins
        have length : ('<' :: '/' :: tag).length = word.length := by rw [← same, List.length_map]
        obtain ⟨a, others, rfl, lower, same⟩ := List.map_eq_cons_iff.mp same
        obtain ⟨b, name, rfl, lower', named⟩ := List.map_eq_cons_iff.mp same
        rw [toLower_eq_mark (.inl rfl) lower, toLower_eq_mark (.inr rfl) lower'] at whole length
        rw [whole, length, List.drop_left] at ended
        refine ⟨name, after.takeWhile isSpace, ?_, named,
          fun c member => List.all_eq_true.mp List.all_takeWhile c member⟩
        rw [whole, List.append_assoc, ← ended, List.takeWhile_append_dropWhile]
      · cases found
    · cases found
  · rintro ⟨name, spaces, rfl, named, blank⟩
    have length : name.length = tag.length := by rw [← named, List.length_map]
    have whole : '<' :: '/' :: name ++ spaces ++ '>' :: rest =
        ('<' :: '/' :: name) ++ (spaces ++ '>' :: rest) := List.append_assoc ..
    have size : ('<' :: '/' :: tag).length = ('<' :: '/' :: name).length := by simp [length]
    have begins : startsIgnoreCase ('<' :: '/' :: tag)
        ('<' :: '/' :: name ++ spaces ++ '>' :: rest) = true := by
      refine startsIgnoreCase_iff.mpr ⟨'<' :: '/' :: name, _, whole, ?_⟩
      rw [List.map_cons, List.map_cons, named]
      rfl
    have left : (('<' :: '/' :: name ++ spaces ++ '>' :: rest).drop
        ('<' :: '/' :: tag).length).dropWhile isSpace = '>' :: rest := by
      rw [whole, size, List.drop_left, List.dropWhile_append_of_pos blank]
      rfl
    simp only [afterCloseTag?, begins, ↓reduceIte, left]

end Scan

theorem unclosed_tag_iff {tag cs : List Char} :
    Scan.Unclosed (Scan.afterCloseTag? tag) cs ↔ ¬ HasCloseTag tag cs := by
  constructor
  · rintro none ⟨before, name, spaces, rest, whole, named, blank⟩
    have missing := none before ('<' :: '/' :: name ++ spaces ++ '>' :: rest) (by simp [whole])
    rw [Scan.afterCloseTag_eq_some.mpr ⟨name, spaces, rfl, named, blank⟩] at missing
    cases missing
  · intro absent before tail whole
    cases found : Scan.afterCloseTag? tag tail with
    | none => rfl
    | some rest =>
      obtain ⟨name, spaces, split, named, blank⟩ := Scan.afterCloseTag_eq_some.mp found
      refine absurd ⟨before, name, spaces, rest, ?_, named, blank⟩ absent
      rw [whole, split]
      simp

theorem unclosed_mark_iff {mark cs : List Char} :
    Scan.Unclosed (Scan.after? mark) cs ↔ ¬ mark <:+: cs := by
  constructor
  · rintro none ⟨before, rest, whole⟩
    have missing := none before (mark ++ rest) (by rw [← whole, List.append_assoc])
    rw [Scan.after_eq_some.mpr rfl] at missing
    cases missing
  · intro absent before tail whole
    cases found : Scan.after? mark tail with
    | none => rfl
    | some rest =>
      refine absurd ⟨before, rest, ?_⟩ absent
      rw [whole, Scan.after_eq_some.mp found, List.append_assoc]

namespace Scan

theorem cut_mark {mark cs before rest : List Char} (long : mark ≠ [])
    (cut : cutAt (after? mark) cs = some (before, rest)) : ¬ mark <:+: before := by
  refine unclosed_mark_iff.mp (cutAt_unclosed ?_ ?_ cut)
  · cases mark with
    | nil => exact absurd rfl long
    | cons c mark => rfl
  · intro cs rest more found
    rw [after_eq_some] at found ⊢
    rw [found, List.append_assoc]

theorem cut_tag {tag cs before rest : List Char}
    (cut : cutAtCloseTag tag cs = some (before, rest)) : ¬ HasCloseTag tag before := by
  refine unclosed_tag_iff.mp (cutAt_unclosed rfl ?_ cut)
  intro cs rest more found
  rw [afterCloseTag_eq_some] at found ⊢
  obtain ⟨name, spaces, rfl, named, blank⟩ := found
  exact ⟨name, spaces, by simp, named, blank⟩

end Scan

namespace Scan

theorem cut_comment {cs : List Char} (comment : IsComment cs) (rest : List Char) :
    cutAt (after? ['-', '-', '>']) (cs ++ '-' :: '-' :: '>' :: rest) = some (cs, rest) := by
  apply cutAt_append (after_eq_some.mpr rfl)
  intro skipped left split some
  rw [after?, if_neg]
  intro begins
  obtain ⟨more, whole⟩ := List.isPrefixOf_iff_prefix.mp begins
  match left with
  | [] => exact some rfl
  | [a] => simp at whole
  | [a, b] => simp at whole
  | a :: b :: c :: left =>
    simp only [List.cons_append, List.nil_append, List.cons.injEq] at whole
    obtain ⟨rfl, rfl, rfl, _⟩ := whole
    exact comment ⟨skipped, left, by simp [split]⟩

theorem cut_doctype {cs : List Char} (unended : '>' ∉ cs) (rest : List Char) :
    cutAt (after? ['>']) (cs ++ '>' :: rest) = some (cs, rest) := by
  apply cutAt_append (after_eq_some.mpr rfl)
  intro skipped left split some
  rw [after?, if_neg]
  intro begins
  obtain ⟨more, whole⟩ := List.isPrefixOf_iff_prefix.mp begins
  match left with
  | [] => exact some rfl
  | a :: left =>
    simp only [List.cons_append, List.nil_append, List.cons.injEq] at whole
    apply unended
    simp [split, whole.1.symm]

theorem cut_rawtext {tag cs : List Char} (plain : ∀ c ∈ tag, isPlainChar c = true)
    (absent : ¬ HasCloseTag tag cs) (rest : List Char) :
    cutAtCloseTag tag (cs ++ '<' :: '/' :: tag ++ '>' :: rest) = some (cs, rest) := by
  have small : tag.map Char.toLower = tag := by
    refine (List.map_congr_left fun c member => ?_).trans (List.map_id _)
    exact toLower_of_not_upper (not_special_of_plain (plain c member)).1
  have closed : afterCloseTag? tag ('<' :: '/' :: tag ++ '>' :: rest) = some rest :=
    afterCloseTag_eq_some.mpr ⟨tag, [], by simp, small, by simp⟩
  rw [List.append_assoc]
  apply cutAt_append closed
  intro skipped left split some
  cases found : afterCloseTag? tag (left ++ ('<' :: '/' :: tag ++ '>' :: rest)) with
  | none => rfl
  | some other =>
    obtain ⟨name, spaces, whole, named, blank⟩ := afterCloseTag_eq_some.mp found
    exfalso
    have marked : '<' :: '/' :: name ++ spaces ++ '>' :: other =
        ('<' :: '/' :: (name ++ spaces ++ ['>'])) ++ other := by simp
    rw [marked, List.append_eq_append_iff] at whole
    rcases whole with ⟨inner, earlier, later⟩ | ⟨extra, earlier, _⟩
    · match inner with
      | [] =>
        refine absent ⟨skipped, name, spaces, [], ?_, named, blank⟩
        rw [split, ← List.append_nil left, ← earlier]
        simp
      | c :: inner =>
        have mark : c = '<' := by
          rw [List.cons_append, List.cons_append] at later
          exact (List.cons.inj later).1.symm
        match left with
        | [] => exact some rfl
        | a :: left =>
          have inside : '<' ∈ '/' :: (name ++ spaces ++ ['>']) := by
            rw [List.cons_append, List.cons.injEq] at earlier
            rw [earlier.2, mark]
            simp
          simp only [List.mem_cons, List.mem_append] at inside
          rcases inside with slash | (inName | inSpaces) | ends | none
          · exact absurd slash (by decide)
          · have inTag : '<' ∈ tag := by
              rw [← named]
              exact List.mem_map.mpr ⟨'<', inName, by decide⟩
            exact (not_special_of_plain (plain '<' inTag)).2.2 (by decide)
          · exact absurd (blank '<' inSpaces) (by decide)
          · exact absurd ends (by decide)
          · cases none
    · refine absent ⟨skipped, name, spaces, extra, ?_, named, blank⟩
      rw [split, earlier]
      simp

end Scan

end PageFilters
