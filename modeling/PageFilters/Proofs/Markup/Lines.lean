import Mathlib.Data.List.Infix
import PageFilters.Markup.Lines

/-!
Breaking markup into lines loses nothing, so two texts that differ have lines that differ. Their
diff shows the first such place, with what is around it.
-/

namespace PageFilters

inductive Broken : List (List Char) → Prop where
  | nil : Broken []
  | last {piece : List Char} (some : piece ≠ []) (clear : '>' ∉ piece) : Broken [piece]
  | cons {piece : List Char} {pieces : List (List Char)} (clear : '>' ∉ piece)
      (others : Broken pieces) : Broken ((piece ++ ['>']) :: pieces)

theorem piecesOf_closed {piece : List Char} (clear : '>' ∉ piece) (rest : List Char) :
    piecesOf (piece ++ '>' :: rest) = (piece ++ ['>']) :: piecesOf rest := by
  induction piece with
  | nil => rfl
  | cons c piece ih =>
    rw [List.mem_cons, not_or] at clear
    rw [List.cons_append, piecesOf, if_neg (Ne.symm clear.1), ih clear.2]
    rfl

theorem piecesOf_open {piece : List Char} (some : piece ≠ []) (clear : '>' ∉ piece) :
    piecesOf piece = [piece] := by
  induction piece with
  | nil => exact absurd rfl some
  | cons c piece ih =>
    rw [List.mem_cons, not_or] at clear
    rw [piecesOf, if_neg (Ne.symm clear.1)]
    cases piece with
    | nil => rfl
    | cons d piece => rw [ih (List.cons_ne_nil d piece) clear.2]

theorem Broken.piecesOf_flatten {pieces : List (List Char)} (broken : Broken pieces) :
    piecesOf pieces.flatten = pieces := by
  induction broken with
  | nil => rfl
  | last some clear => rw [List.flatten_singleton, piecesOf_open some clear]
  | cons clear _ ih =>
    rw [List.flatten_cons, List.append_assoc, List.singleton_append, piecesOf_closed clear, ih]

theorem flatten_piecesOf (cs : List Char) : (piecesOf cs).flatten = cs := by
  fun_induction piecesOf cs with
  | case1 => rfl
  | case2 cs ih => rw [List.flatten_cons, ih, List.singleton_append]
  | case3 c cs _ piece pieces split ih =>
    rw [split, List.flatten_cons] at ih
    rw [List.flatten_cons, List.cons_append, ih]
  | case4 c cs _ none ih =>
    rw [none] at ih
    rw [← ih]
    rfl

theorem broken_piecesOf (cs : List Char) : Broken (piecesOf cs) := by
  fun_induction piecesOf cs with
  | case1 => exact .nil
  | case2 cs ih => exact @Broken.cons [] _ (by simp) ih
  | case3 c cs other piece pieces split ih =>
    rw [split] at ih
    cases ih with
    | last some clear => exact .last (by simp) (by simp [clear, Ne.symm other])
    | @cons piece _ clear others =>
      exact @Broken.cons (c :: piece) _ (by simp [clear, Ne.symm other]) others
  | case4 c cs other none ih => exact .last (by simp) (by simpa using Ne.symm other)

theorem broken_iff {pieces : List (List Char)} : Broken pieces ↔ (∀ piece ∈ pieces, piece ≠ []) ∧
    (∀ piece ∈ pieces.dropLast, piece.getLast? = some '>') ∧
    (∀ piece ∈ pieces, '>' ∉ piece.dropLast) := by
  constructor
  · intro broken
    induction broken with
    | nil => simp
    | last some clear => simpa [some] using mt List.mem_of_mem_dropLast clear
    | @cons piece pieces clear others ih =>
      obtain ⟨long, closed, clears⟩ := ih
      refine ⟨List.forall_mem_cons.mpr ⟨by simp, long⟩, ?_,
        List.forall_mem_cons.mpr ⟨by simpa using clear, clears⟩⟩
      cases pieces with
      | nil => simp
      | cons next pieces =>
        rw [List.dropLast_cons_of_ne_nil (List.cons_ne_nil next pieces)]
        exact List.forall_mem_cons.mpr ⟨by simp, closed⟩
  · rintro ⟨long, closed, clears⟩
    induction pieces with
    | nil => exact .nil
    | cons piece pieces ih =>
      obtain ⟨some, longer⟩ := List.forall_mem_cons.mp long
      obtain ⟨clear, others⟩ := List.forall_mem_cons.mp clears
      have closing : ∀ later ∈ pieces.dropLast, later.getLast? = .some '>' := by
        intro later member
        have more : pieces ≠ [] := List.ne_nil_of_mem (List.mem_of_mem_dropLast member)
        rw [List.dropLast_cons_of_ne_nil more] at closed
        exact closed later (List.mem_cons_of_mem _ member)
      have broken := ih longer closing others
      rcases List.eq_nil_or_concat piece with rfl | ⟨body, c, rfl⟩
      · exact absurd rfl some
      · rw [List.concat_eq_append] at some clear closed ⊢
        rw [List.dropLast_concat] at clear
        by_cases mark : c = '>'
        · exact mark ▸ .cons clear broken
        · cases pieces with
          | nil => exact .last some (by simp [clear, Ne.symm mark])
          | cons next pieces =>
            have ended := closed (body ++ [c]) (by simp)
            simp [mark] at ended

/-- Lines that are the text when they are put together. Each ends with its only `>`, except that the
last may be without. -/
structure BrokenInto (text : String) (lines : List String) : Prop where
  joined : String.join lines = text
  nonempty : ∀ line ∈ lines, line ≠ ""
  closed : ∀ line ∈ lines.dropLast, line.toList.getLast? = some '>'
  clear : ∀ line ∈ lines, '>' ∉ line.toList.dropLast

theorem brokenInto_pieces {text : String} {lines : List String} : BrokenInto text lines ↔
    (lines.map String.toList).flatten = text.toList ∧ Broken (lines.map String.toList) := by
  have joined : String.join lines = text ↔ (lines.map String.toList).flatten = text.toList := by
    rw [← String.toList_inj, String.toList_join, List.flatMap_def]
  rw [broken_iff, ← List.map_dropLast, ← joined]
  simp only [List.forall_mem_map, ne_eq, String.toList_eq_nil_iff]
  constructor
  · rintro ⟨joined, nonempty, closed, clear⟩
    exact ⟨joined, nonempty, closed, clear⟩
  · rintro ⟨joined, nonempty, closed, clear⟩
    exact ⟨joined, nonempty, closed, clear⟩

theorem brokenInto_iff {text : String} {lines : List String} :
    BrokenInto text lines ↔ lines = markupLines text := by
  rw [brokenInto_pieces, markupLines]
  constructor
  · rintro ⟨joined, broken⟩
    rw [← joined, broken.piecesOf_flatten, List.map_map]
    simp
  · rintro rfl
    have same : ((piecesOf text.toList).map String.ofList).map String.toList =
        piecesOf text.toList := by simp
    rw [same]
    exact ⟨flatten_piecesOf _, broken_piecesOf _⟩

theorem markupLines_injective : Function.Injective markupLines := by
  intro a b same
  rw [← (brokenInto_iff.mpr rfl : BrokenInto a _).joined, same,
    (brokenInto_iff.mpr rfl : BrokenInto b _).joined]

section

variable {α : Type} [DecidableEq α] {as bs : List α}

theorem firstMismatch_eq_none : firstMismatch? as bs = none ↔ as = bs := by
  induction as generalizing bs with
  | nil => cases bs <;> simp [firstMismatch?]
  | cons a as ih =>
    cases bs with
    | nil => simp [firstMismatch?]
    | cons b bs => by_cases same : a = b <;> simp [firstMismatch?, same, ih]

theorem firstMismatch_spec {i : Nat} (found : firstMismatch? as bs = some i) :
    as[i]? ≠ bs[i]? ∧ ∀ j < i, as[j]? = bs[j]? := by
  induction as generalizing bs i with
  | nil =>
    cases bs with
    | nil => cases found
    | cons b bs =>
      cases found
      exact ⟨by simp, fun j less => absurd less (Nat.not_lt_zero j)⟩
  | cons a as ih =>
    cases bs with
    | nil =>
      cases found
      exact ⟨by simp, fun j less => absurd less (Nat.not_lt_zero j)⟩
    | cons b bs =>
      rw [firstMismatch?] at found
      split at found
      · next same =>
        obtain ⟨n, inside, rfl⟩ := Option.map_eq_some_iff.mp found
        obtain ⟨differs, before⟩ := ih inside
        refine ⟨by simpa using differs, fun j less => ?_⟩
        cases j with
        | zero => simp [same]
        | succ j => simpa using before j (Nat.lt_of_succ_lt_succ less)
      · next other =>
        cases found
        exact ⟨by simpa using other, fun j less => absurd less (Nat.not_lt_zero j)⟩

end

/-- The places that a diff shows: the first one at which two lists of lines differ, a missing line
differing from every other, with two before it and two behind it as far as the longer list goes. -/
structure Shows (expected actual : List String) (mismatch : Nat) (places : List Nat) : Prop where
  differs : expected[mismatch]? ≠ actual[mismatch]?
  first : ∀ j < mismatch, expected[j]? = actual[j]?
  ascending : places.Pairwise (· < ·)
  around : ∀ j, j ∈ places ↔
    mismatch ≤ j + 2 ∧ j ≤ mismatch + 2 ∧ j < max expected.length actual.length

/-- What is printed of one of the two lists at a place: a mark if the place is the mismatch, the
number of the line, counted from one and set at the right of four columns, and the line itself. -/
def printed (side : String) (lines : List String) (mismatch place : Nat) : String :=
  let mark := if place = mismatch then ">" else " "
  let number := String.ofList (List.leftpad 4 ' ' (toString (place + 1)).toList)
  let line := match lines[place]? with
    | some line => line
    | none => "<missing>"
  mark ++ " " ++ number ++ "  " ++ side ++ ": " ++ line ++ "\n"

def mismatchSection (expected actual : List String) (mismatch : Nat) (places : List Nat) : String :=
  "first mismatch at line " ++ toString (mismatch + 1) ++
    " (showing " ++ toString (places.headD 0 + 1) ++ "..=" ++ toString (places.getLastD 0 + 1) ++
    "):\n" ++ String.join (places.map fun place =>
      printed "expected" expected mismatch place ++ printed "  actual" actual mismatch place)

variable {expected actual : List String}

theorem diffEntry_eq (mismatch : Nat) : diffEntry expected actual mismatch = fun place =>
    printed "expected" expected mismatch place ++ printed "  actual" actual mismatch place := by
  funext place
  have number : String.ofList (List.leftpad 4 ' ' (toString (place + 1)).toList) =
      lineNumber (place + 1) := by
    rw [lineNumber, List.leftpad, String.ofList_append, String.ofList_toList, String.length_toList]
  have shown (lines : List String) : lines[place]?.getD "<missing>" =
      match lines[place]? with
        | some line => line
        | none => "<missing>" := by
    cases lines[place]? <;> rfl
  have expects : "  expected: " = "  " ++ "expected" ++ ": " := by decide
  have acts : "    actual: " = "  " ++ "  actual" ++ ": " := by decide
  simp only [diffEntry, printed, number, shown, expects, acts, String.append_assoc]

theorem range_around {i size : Nat} (within : i < size) :
    ∃ places, List.range' (i - 2) (min (i + 3) size - (i - 2)) = places ∧
      places.Pairwise (· < ·) ∧ (∀ j, j ∈ places ↔ i ≤ j + 2 ∧ j ≤ i + 2 ∧ j < size) ∧
      places.headD 0 = i - 2 ∧ places.getLastD 0 + 1 = min (i + 3) size := by
  have some : min (i + 3) size - (i - 2) ≠ 0 := by omega
  refine ⟨_, rfl, List.pairwise_lt_range' 1 (Nat.succ_pos 0), fun j => ?_, ?_, ?_⟩
  · rw [List.mem_range'_1]
    omega
  · rw [List.headD_eq_head?_getD, List.head?_range', if_neg some, Option.getD_some]
  · rw [List.getLastD_eq_getLast?, List.getLast?_range', if_neg some, Option.getD_some]
    omega

theorem diffWindow_shows {i : Nat} (differs : expected[i]? ≠ actual[i]?)
    (first : ∀ j < i, expected[j]? = actual[j]?) : ∃ places, Shows expected actual i places ∧
      diffWindow expected actual i = mismatchSection expected actual i places := by
  have within : i < max expected.length actual.length := by
    by_contra beyond
    rw [Nat.not_lt, Nat.max_le] at beyond
    exact differs (by rw [List.getElem?_eq_none beyond.1, List.getElem?_eq_none beyond.2])
  obtain ⟨places, range, ascending, around, head, last⟩ := range_around within
  refine ⟨places, ⟨differs, first, ascending, around⟩, ?_⟩
  unfold diffWindow mismatchSection
  simp only [range, head, last, diffEntry_eq]

/-- Lines are broken off without loss, in the only way there is. A diff of two texts has a section
that shows where they differ first, unless they are the same. -/
theorem differences_shown :
    (∀ text lines, BrokenInto text lines ↔ lines = markupLines text) ∧
    ∀ a b : String, a ≠ b ↔ ∃ mismatch places,
      Shows (markupLines a) (markupLines b) mismatch places ∧
      diffLines (markupLines a) (markupLines b) =
        mismatchSection (markupLines a) (markupLines b) mismatch places ++
          "expected " ++ toString (markupLines a).length ++ " lines, actual " ++
          toString (markupLines b).length ++ " lines\n" := by
  refine ⟨fun text lines => brokenInto_iff, fun a b => ?_⟩
  constructor
  · intro distinct
    have other : markupLines a ≠ markupLines b := fun same => distinct (markupLines_injective same)
    cases found : firstMismatch? (markupLines a) (markupLines b) with
    | none => exact absurd (firstMismatch_eq_none.mp found) other
    | some i =>
      obtain ⟨differs, first⟩ := firstMismatch_spec found
      obtain ⟨places, shows, window⟩ := diffWindow_shows differs first
      refine ⟨i, places, shows, ?_⟩
      rw [diffLines, found, Option.map_some, Option.getD_some, window]
  · rintro ⟨mismatch, places, shows, _⟩ rfl
    exact shows.differs rfl

example : diffLines (markupLines "<a><b><c>") (markupLines "<a><x>") =
    "first mismatch at line 2 (showing 1..=3):\n" ++
      "     1  expected: <a>\n     1    actual: <a>\n" ++
      ">    2  expected: <b>\n>    2    actual: <x>\n" ++
      "     3  expected: <c>\n     3    actual: <missing>\n" ++
      "expected 3 lines, actual 2 lines\n" := by decide +kernel

end PageFilters
