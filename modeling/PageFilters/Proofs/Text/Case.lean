import Mathlib
import PageFilters.Text.Ascii

/-!
Letter case of single characters and of texts: writing a text small twice is the same as once.
-/

namespace PageFilters

theorem ascii_of_numbers {P : Char → Prop} (each : ∀ n, n < 128 → P (Char.ofNat n)) (c : Char)
    (ascii : c.toNat < 128) : P c := by
  have here := each c.toNat ascii
  rwa [Char.ofNat_toNat] at here

theorem isUpper_iff {c : Char} : c.isUpper = true ↔ 65 ≤ c.toNat ∧ c.toNat ≤ 90 := by
  simp only [Char.isUpper, decide_eq_true_eq, ge_iff_le, UInt32.le_iff_toNat_le, Char.toNat_val]
  rfl

theorem toLower_of_not_upper {c : Char} (small : c.isUpper = false) : c.toLower = c := by
  rw [Char.toLower, dif_neg]
  simpa [Char.isUpper] using small

theorem isUpper_toLower (c : Char) : c.toLower.isUpper = false := by
  by_cases upper : c.isUpper = true
  · have ascii := isUpper_iff.mp upper
    exact ascii_of_numbers (P := fun c => c.toLower.isUpper = false) (by decide) c (by omega)
  · rw [toLower_of_not_upper (by simpa using upper)]
    simpa using upper

theorem toLower_toLower (c : Char) : c.toLower.toLower = c.toLower :=
  toLower_of_not_upper (isUpper_toLower c)

theorem toList_foldCase (s : String) : (foldCase s).toList = s.toList.map Char.toLower := by
  rw [foldCase, String.toList_map]

theorem foldCase_foldCase (s : String) : foldCase (foldCase s) = foldCase s := by
  rw [foldCase, foldCase, String.map_map]
  congr 1
  funext c
  exact toLower_toLower c

theorem foldCase_of_small {s : String} (small : ∀ c ∈ s.toList, c.isUpper = false) :
    foldCase s = s := by
  apply String.toList_injective
  rw [toList_foldCase]
  calc s.toList.map Char.toLower
      = s.toList.map id := List.map_congr_left fun c member => toLower_of_not_upper (small c member)
    _ = s.toList := List.map_id _

theorem startsIgnoreCase_iff {start cs : List Char} :
    startsIgnoreCase start cs = true ↔
      ∃ word rest, cs = word ++ rest ∧ word.map Char.toLower = start := by
  rw [startsIgnoreCase, beq_iff_eq]
  constructor
  · intro same
    exact ⟨cs.take start.length, cs.drop start.length, (List.take_append_drop ..).symm, same⟩
  · rintro ⟨word, rest, rfl, rfl⟩
    rw [List.length_map, List.take_left]

theorem ascii_of_toLower {c : Char} (ascii : c.toLower.toNat < 128) : c.toNat < 128 := by
  by_cases upper : c.isUpper = true
  · have := isUpper_iff.mp upper
    omega
  · rwa [toLower_of_not_upper (by simpa using upper)] at ascii

end PageFilters
