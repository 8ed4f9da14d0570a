import PageFilters.Text.Blank

/-!
What trimming leaves: it ends in no blank, and nothing from the last character that is no blank
backwards is lost.
-/

namespace PageFilters

theorem trimEnd_begins (cs : List Char) : trimEnd cs <+: cs := by
  rw [trimEnd, ← List.reverse_suffix, List.reverse_reverse]
  exact List.dropWhile_suffix _

theorem isBlank_getLast_trimEnd {cs : List Char} {c : Char}
    (last : (trimEnd cs).getLast? = some c) : isBlank c = false := by
  rw [trimEnd, List.getLast?_reverse] at last
  have solid := List.head?_dropWhile_not isBlank cs.reverse
  rw [last] at solid
  simpa using solid

theorem trimEnd_append {c : Char} (solid : isBlank c = false) (front rest : List Char) :
    trimEnd (front ++ c :: rest) = front ++ c :: trimEnd rest := by
  rw [trimEnd, List.reverse_append, List.reverse_cons, List.append_assoc, List.dropWhile_append]
  split
  · next none =>
    rw [List.isEmpty_iff] at none
    have stays : ([c] ++ front.reverse).dropWhile isBlank = [c] ++ front.reverse := by
      simp [solid]
    rw [stays, trimEnd, none]
    simp
  · rw [trimEnd]
    simp

theorem trimEnd_of_solid {cs : List Char} (solid : ∀ c, cs.getLast? = some c → isBlank c = false) :
    trimEnd cs = cs := by
  rcases List.eq_nil_or_concat cs with rfl | ⟨front, c, rfl⟩
  · rfl
  · rw [List.concat_eq_append] at solid ⊢
    exact trimEnd_append (solid c (by simp)) front []

theorem trimEnd_trimEnd (cs : List Char) : trimEnd (trimEnd cs) = trimEnd cs :=
  trimEnd_of_solid fun _ last => isBlank_getLast_trimEnd last

theorem trim_of_head {c : Char} (solid : isBlank c = false) (rest : List Char) :
    trim (c :: rest) = trimEnd (c :: rest) := by
  rw [trim, List.dropWhile_cons_of_neg (by simp [solid])]

theorem trim_trim (cs : List Char) : trim (trim cs) = trim cs := by
  rw [trim.eq_def cs]
  cases left : cs.dropWhile isBlank with
  | nil => rfl
  | cons c rest =>
    have solid : isBlank c = false := by
      have first := List.head?_dropWhile_not isBlank cs
      rw [left] at first
      simpa using first
    have kept (rest : List Char) : trimEnd (c :: rest) = c :: trimEnd rest :=
      trimEnd_append solid [] rest
    rw [kept, trim_of_head solid, kept, trimEnd_trimEnd]

end PageFilters
