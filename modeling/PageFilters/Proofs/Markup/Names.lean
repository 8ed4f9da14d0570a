import PageFilters.Markup.Scan
import PageFilters.Proofs.Text.Case

/-!
Names as the tokenizer gives them: never empty, in small letters, and free of every character that
means something around a name.
-/

namespace PageFilters

def isPlainChar (c : Char) : Bool :=
  c.isLower || c.isDigit || c == ':' || c == '_' || c == '-'

def IsName (s : String) : Prop :=
  s ≠ "" ∧ ∀ c ∈ s.toList, isPlainChar c = true

theorem ascii_of_nameChar {c : Char} (name : Scan.isNameChar c = true) : c.toNat < 128 := by
  simp only [Scan.isNameChar, Char.isAlphanum, Char.isAlpha, Char.isUpper, Char.isLower,
    Char.isDigit, Bool.or_eq_true, Bool.and_eq_true, decide_eq_true_eq, beq_iff_eq, ge_iff_le,
    UInt32.le_iff_toNat_le, Char.toNat_val] at name
  rcases name with ((((⟨_, small⟩ | ⟨_, small⟩) | ⟨_, small⟩) | rfl) | rfl) | rfl
  · exact Nat.lt_of_le_of_lt small (by decide)
  · exact Nat.lt_of_le_of_lt small (by decide)
  · exact Nat.lt_of_le_of_lt small (by decide)
  · decide
  · decide
  · decide

theorem isPlainChar_toLower {c : Char} (name : Scan.isNameChar c = true) :
    isPlainChar c.toLower = true :=
  ascii_of_numbers (P := fun c => Scan.isNameChar c = true → isPlainChar c.toLower = true)
    (by decide) c (ascii_of_nameChar name) name

theorem isNameChar_of_plain {c : Char} (plain : isPlainChar c = true) :
    Scan.isNameChar c = true := by
  simp only [isPlainChar, Bool.or_eq_true, beq_iff_eq] at plain
  simp only [Scan.isNameChar, Char.isAlphanum, Char.isAlpha, Bool.or_eq_true, beq_iff_eq]
  tauto

theorem not_special_of_plain {c : Char} (plain : isPlainChar c = true) :
    c.isUpper = false ∧ isSpace c = false ∧ c ∉ "<>/=!\x22\x27".toList :=
  ascii_of_numbers (P := fun c => isPlainChar c = true →
    c.isUpper = false ∧ isSpace c = false ∧ c ∉ "<>/=!\x22\x27".toList)
    (by decide) c (ascii_of_nameChar (isNameChar_of_plain plain)) plain

theorem IsName.foldCase_eq {s : String} (name : IsName s) : foldCase s = s :=
  foldCase_of_small fun c member => (not_special_of_plain (name.2 c member)).1

theorem isName_foldCase {cs : List Char} (some : cs ≠ [])
    (named : ∀ c ∈ cs, Scan.isNameChar c = true) : IsName (foldCase (String.ofList cs)) := by
  constructor
  · intro empty
    have none := congrArg String.toList empty
    rw [toList_foldCase, String.toList_ofList] at none
    exact some (List.map_eq_nil_iff.mp none)
  · intro c member
    rw [toList_foldCase, String.toList_ofList, List.mem_map] at member
    obtain ⟨d, inside, rfl⟩ := member
    exact isPlainChar_toLower (named d inside)

theorem IsName.mem_tags {s : String} (name : IsName s) (known : Keyword.ofTag s ≠ .other) :
    (s, Keyword.ofTag s) ∈ Keyword.tags := by
  rw [Keyword.ofTag] at known ⊢
  generalize found : List.find? _ Keyword.tags = entry at known ⊢
  cases entry with
  | none => exact absurd rfl known
  | some entry =>
    have same := List.find?_some found
    have listed := List.mem_of_find?_eq_some found
    have small : ∀ entry ∈ Keyword.tags, foldCase entry.1 = entry.1 := by
      simp only [Keyword.tags, List.forall_mem_cons]
      cbv
      simp
    simp only [eqIgnoreCase, name.foldCase_eq, small entry listed, beq_iff_eq] at same
    rw [← same]
    exact listed

theorem IsName.rawtext_cases {s : String} (name : IsName s)
    (raw : (Keyword.ofTag s).isRawtext = true) : s = "script" ∨ s = "style" := by
  have known : Keyword.ofTag s ≠ .other := by
    intro other
    rw [other] at raw
    cases raw
  have rawTags : ∀ entry ∈ Keyword.tags, entry.2.isRawtext = true →
      entry.1 = "script" ∨ entry.1 = "style" := by decide
  exact rawTags _ (name.mem_tags known) raw

theorem isRawtext_of_tag {s : String} (known : s = "script" ∨ s = "style") :
    (Keyword.ofTag s).isRawtext = true := by
  rcases known with rfl | rfl <;> cbv

theorem IsName.not_void_of_rawtext {s : String} (name : IsName s)
    (raw : (Keyword.ofTag s).isRawtext = true) : isVoid s = false := by
  rcases name.rawtext_cases raw with rfl | rfl <;> decide

theorem IsName.void_of_image {s : String} (name : IsName s) (image : Keyword.ofTag s = .img) :
    isVoid s = true := by
  have imageTags : ∀ entry ∈ Keyword.tags, entry.2 = .img → isVoid entry.1 = true := by decide
  exact imageTags _ (name.mem_tags (by rw [image]; decide)) image

def Element.HasNames (e : Element) : Prop :=
  IsName e.name ∧ ∀ a ∈ e.attributes, IsName a.name

namespace Element.HasNames

variable {e : Element} {name : String}

theorem eraseAttribute (named : e.HasNames) (name : String) : (e.eraseAttribute name).HasNames := by
  constructor
  · exact named.1
  · intro a member
    exact named.2 a (List.mem_of_mem_eraseP member)

theorem addAttribute (named : e.HasNames) (plain : IsName name) (value : String) (quote : Quote) :
    (e.addAttribute name value quote).HasNames := by
  constructor
  · exact named.1
  · intro a member
    rcases List.mem_append.mp member with old | new
    · exact named.2 a old
    · rw [List.mem_singleton.mp new]
      exact plain

theorem setValue (named : e.HasNames) (name value : String) : (e.setValue name value).HasNames := by
  have each : ∀ as : List Attribute, (∀ a ∈ as, IsName a.name) →
      ∀ a ∈ modifyFirst (AttributeOf.isNamed name) ({ · with value := some value }) as,
        IsName a.name := by
    intro as all
    induction as with
    | nil => exact all
    | cons b rest ih =>
      rw [List.forall_mem_cons] at all
      rw [modifyFirst]
      split
      · rw [List.forall_mem_cons]
        exact all
      · rw [List.forall_mem_cons]
        exact ⟨all.1, ih all.2⟩
  exact ⟨named.1, each e.attributes named.2⟩

end Element.HasNames

end PageFilters
