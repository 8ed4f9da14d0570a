import Mathlib.Data.List.Infix
import PageFilters.Text.Ascii

/-!
Search without regard to letter case: what it finds are windows of the folded bytes, so a longer
text contains all that a part of it contains.
-/

namespace PageFilters

theorem hasWindow_iff [BEq α] [LawfulBEq α] {part text : List α} :
    hasWindow part text = true ↔ part <:+: text := by
  induction text with
  | nil => rw [hasWindow, List.isEmpty_iff, List.infix_nil]
  | cons a rest ih =>
    rw [hasWindow, Bool.or_eq_true, ih, List.isPrefixOf_iff_prefix, List.infix_cons_iff]

theorem containsIgnoreCase_iff {text part : String} :
    containsIgnoreCase text part = true ↔ foldedBytes part <:+: foldedBytes text :=
  hasWindow_iff

theorem foldedBytes_append (a b : String) :
    foldedBytes (a ++ b) = foldedBytes a ++ foldedBytes b := by
  simp [foldedBytes]

theorem containsIgnoreCase_append {text part : String} (more : String)
    (found : containsIgnoreCase text part = true) :
    containsIgnoreCase (text ++ more) part = true := by
  rw [containsIgnoreCase_iff] at found ⊢
  rw [foldedBytes_append]
  exact found.trans (List.prefix_append ..).isInfix

end PageFilters
