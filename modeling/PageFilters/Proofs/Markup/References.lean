import PageFilters.Markup.Decoding
import PageFilters.Proofs.Markup.Escaping
import PageFilters.Proofs.Markup.Places

/-!
Character references by their grammar. What decoding looks for, from an ampersand on to the next
semicolon, is there exactly if a reference of the grammar begins at the ampersand; reading by bytes
finds the same. A reference is never shorter than its character.
-/

namespace PageFilters

namespace Reference

/-- Whether the digits, in any letter case, write the number. -/
def Writes (radix : Nat) (digits : List Char) (n : Nat) : Prop :=
  ∃ values : List Nat, (∀ v ∈ values, v < radix) ∧
    digits.map Char.toLower = values.map Nat.digitChar ∧ n = Nat.ofDigits radix values.reverse

structure IsNumber (radix limit : Nat) (digits : List Char) (c : Char) : Prop where
  some : digits ≠ []
  few : digits.length ≤ limit
  writes : Writes radix digits c.toNat

inductive IsReference : List Char → Char → Prop where
  | amp : IsReference "&amp;".toList '&'
  | lt : IsReference "&lt;".toList '<'
  | gt : IsReference "&gt;".toList '>'
  | quot : IsReference "&quot;".toList '\x22'
  | apos : IsReference "&apos;".toList '\x27'
  | nbsp : IsReference "&nbsp;".toList '\u00a0'
  | decimal {digits : List Char} {c : Char} (number : IsNumber 10 7 digits c) :
      IsReference ('&' :: '#' :: (digits ++ [';'])) c
  | hexadecimal {x : Char} {digits : List Char} {c : Char} (mark : x = 'x' ∨ x = 'X')
      (number : IsNumber 16 6 digits c) : IsReference ('&' :: '#' :: x :: (digits ++ [';'])) c

/-- Reading from left to right, each reference becomes its character, and a character at which no
reference begins stays. -/
inductive Decodes : List Char → List Char → Prop where
  | nil : Decodes [] []
  | reference {ref rest out : List Char} {c : Char} (is : IsReference ref c)
      (others : Decodes rest out) : Decodes (ref ++ rest) (c :: out)
  | plain {cs out : List Char} {c : Char} (none : ∀ ref d, IsReference ref d → ¬ ref <+: c :: cs)
      (others : Decodes cs out) : Decodes (c :: cs) (c :: out)

theorem digitValue_high {c : Char} (high : 128 ≤ c.toNat) : digitValue c = none := by
  have above : ∀ d : Char, d.toNat < 128 → ¬ c ≤ d := by
    intro d ascii
    rw [Char.le_def, UInt32.le_iff_toNat_le]
    change ¬ c.toNat ≤ d.toNat
    omega
  rw [digitValue, if_neg fun small => above '9' (by decide) small.2,
    if_neg fun small => above 'f' (by decide) small.2,
    if_neg fun small => above 'F' (by decide) small.2]

theorem digitValue_eq_some {v : Nat} (bound : v < 16) (c : Char) :
    digitValue c = some v ↔ c.toLower = Nat.digitChar v := by
  by_cases ascii : c.toNat < 128
  · exact ascii_of_numbers
      (P := fun c => ∀ v < 16, digitValue c = some v ↔ c.toLower = Nat.digitChar v)
      (by decide +kernel) c ascii v bound
  · have other : c.toLower ≠ Nat.digitChar v := by
      intro same
      have small : ∀ v < 16, (Nat.digitChar v).toNat < 128 := by decide
      exact ascii (ascii_of_toLower (same ▸ small v bound))
    simp [digitValue_high (Nat.le_of_not_lt ascii), other]

theorem foldlM_digits {radix : Nat} (bound : radix ≤ 16) (cs : List Char) (n m : Nat) :
    cs.foldlM (fun n c => do
      let d ← digitValue c
      if d < radix then some (n * radix + d) else none) n = some m ↔
    ∃ values : List Nat, (∀ v ∈ values, v < radix) ∧
      cs.map Char.toLower = values.map Nat.digitChar ∧
      m = values.foldl (fun n v => n * radix + v) n := by
  induction cs generalizing n with
  | nil => simp [eq_comm]
  | cons c cs ih =>
    rw [List.foldlM_cons, Option.bind_eq_bind, Option.bind_eq_some_iff]
    constructor
    · rintro ⟨next, first, others⟩
      obtain ⟨v, value, small⟩ := Option.bind_eq_some_iff.mp first
      obtain ⟨less, rfl⟩ : v < radix ∧ n * radix + v = next := by simpa using small
      obtain ⟨values, smaller, same, rfl⟩ := (ih _).mp others
      have here := (digitValue_eq_some (Nat.lt_of_lt_of_le less bound) c).mp value
      exact ⟨v :: values, List.forall_mem_cons.mpr ⟨less, smaller⟩, by simp [here, same], rfl⟩
    · rintro ⟨values, smaller, same, rfl⟩
      cases values with
      | nil => simp at same
      | cons v values =>
        obtain ⟨less, smaller⟩ := List.forall_mem_cons.mp smaller
        obtain ⟨here, same⟩ := List.cons.inj same
        have value := (digitValue_eq_some (Nat.lt_of_lt_of_le less bound) c).mpr here
        exact ⟨n * radix + v, by simp [value, less], (ih _).mpr ⟨values, smaller, same, rfl⟩⟩

theorem readDigits_eq_some {radix : Nat} (bound : radix ≤ 16) (cs : List Char) (n : Nat) :
    readDigits radix cs = some n ↔ Writes radix cs n := by
  have positional (values : List Nat) : values.foldl (fun n v => n * radix + v) 0 =
      Nat.ofDigits radix values.reverse := by
    simp [Nat.ofDigits_eq_foldr, Nat.add_comm, Nat.mul_comm]
  rw [readDigits, foldlM_digits bound]
  simp only [positional]
  rfl

theorem Writes.plain {radix : Nat} (bound : radix ≤ 16) {digits : List Char} {n : Nat}
    (writes : Writes radix digits n) : ∀ c ∈ digits, c.toNat < 128 ∧ c ∉ [';', 'x', 'X'] := by
  obtain ⟨values, small, same, _⟩ := writes
  intro c member
  have folded : c.toLower ∈ values.map Nat.digitChar := same ▸ List.mem_map_of_mem member
  obtain ⟨v, value, here⟩ := List.mem_map.mp folded
  have less := Nat.lt_of_lt_of_le (small v value) bound
  have plain : ∀ v < 16, (Nat.digitChar v).toNat < 128 ∧
      Nat.digitChar v ∉ [';', 'x', 'X'].map Char.toLower := by decide
  refine ⟨ascii_of_toLower (here ▸ (plain v less).1), fun mark => (plain v less).2 ?_⟩
  exact here ▸ List.mem_map_of_mem mark

theorem checked_iff {α : Type} {radix limit size : Nat} (bound : radix ≤ 16) {digits : List Char}
    (sized : ∀ n, Writes radix digits n → size = digits.length) {c : Char} {given left : α} :
    (if digits = [] ∨ limit < size then none
      else (readDigits radix digits).bind fun n =>
        if n.isValidChar then some (Char.ofNat n, given) else none) = some (c, left) ↔
      IsNumber radix limit digits c ∧ given = left := by
  constructor
  · intro found
    split at found
    · cases found
    · next good =>
      obtain ⟨n, read, made⟩ := Option.bind_eq_some_iff.mp found
      have writes := (readDigits_eq_some bound _ _).mp read
      rw [sized n writes, not_or, Nat.not_lt] at good
      split at made
      · next valid =>
        cases made
        have same : (Char.ofNat n).toNat = n := by rw [Char.toNat_ofNat, if_pos valid]
        exact ⟨⟨good.1, good.2, same.symm ▸ writes⟩, rfl⟩
      · cases made
  · rintro ⟨⟨some, few, writes⟩, rfl⟩
    have good : ¬ (digits = [] ∨ limit < size) := by
      rw [sized _ writes, not_or, Nat.not_lt]
      exact ⟨some, few⟩
    have valid : c.toNat.isValidChar := c.valid
    rw [if_neg good, (readDigits_eq_some bound _ _).mpr writes, Option.bind_some, if_pos valid,
      Char.ofNat_toNat]

theorem readNumber_at {radix limit : Nat} (bound : radix ≤ 16) {digits : List Char}
    (clear : ';' ∉ digits) {rest left : List Char} {c : Char} :
    readNumber radix limit (digits ++ ';' :: rest) = some (c, left) ↔
      IsNumber radix limit digits c ∧ rest = left := by
  have others : ∀ d ∈ digits, (d != ';') = true := by
    intro d member
    rw [bne_iff_ne]
    rintro rfl
    exact clear member
  simp only [readNumber, List.dropWhile_append_of_pos others, List.takeWhile_append_of_pos others,
    List.takeWhile_cons_of_neg (p := (· != ';')) (a := ';') (l := rest) (by decide),
    List.dropWhile_cons_of_neg (p := (· != ';')) (a := ';') (l := rest) (by decide),
    List.append_nil, Bool.or_eq_true, List.isEmpty_iff, decide_eq_true_eq]
  exact checked_iff bound fun _ _ => rfl

theorem readNumber_clear {radix limit : Nat} {cs : List Char} (clear : ';' ∉ cs) :
    readNumber radix limit cs = none := by
  have none : cs.dropWhile (· != ';') = [] := by
    rw [List.dropWhile_eq_nil_iff]
    intro c member
    rw [bne_iff_ne]
    rintro rfl
    exact clear member
  rw [readNumber, none]

theorem readNumber_eq_some {radix limit : Nat} (bound : radix ≤ 16) {cs rest : List Char}
    {c : Char} : readNumber radix limit cs = some (c, rest) ↔
      ∃ digits, cs = digits ++ ';' :: rest ∧ IsNumber radix limit digits c := by
  constructor
  · intro found
    by_cases closed : ';' ∈ cs
    · obtain ⟨digits, left, rfl, clear⟩ := List.eq_append_cons_of_mem closed
      obtain ⟨number, rfl⟩ := (readNumber_at bound clear).mp found
      exact ⟨digits, rfl, number⟩
    · rw [readNumber_clear closed] at found
      cases found
  · rintro ⟨digits, rfl, number⟩
    refine (readNumber_at bound fun mark => ?_).mpr ⟨number, rfl⟩
    exact (number.writes.plain bound ';' mark).2 (List.mem_cons_self ..)

theorem read_decimal {cs : List Char} (plain : ∀ c ∈ cs.head?, c ≠ 'x' ∧ c ≠ 'X') :
    read ('#' :: cs) = readNumber 10 7 cs := by
  unfold read
  split
  · next same =>
    cases same
    exact absurd rfl (plain 'x' rfl).1
  · next same =>
    cases same
    exact absurd rfl (plain 'X' rfl).2
  · next same =>
    cases same
    rfl
  · next other => exact absurd rfl (other cs)

theorem named_ascii : ∀ entry ∈ named, ∀ c ∈ entry.1, c.toNat < 128 := by
  simp [named]

theorem read_other {cs : List Char} (other : cs.head? ≠ some '#') :
    read cs = (named.find? fun (name, _) => name.isPrefixOf cs).map
      fun (name, c) => (c, cs.drop name.length) := by
  unfold read
  split
  · exact absurd rfl other
  · exact absurd rfl other
  · exact absurd rfl other
  · rfl

theorem reference_of_read {cs rest : List Char} {c : Char} (found : read cs = some (c, rest)) :
    ∃ ref, IsReference ref c ∧ '&' :: cs = ref ++ rest := by
  unfold read at found
  split at found
  · obtain ⟨digits, rfl, number⟩ := (readNumber_eq_some (by decide)).mp found
    exact ⟨_, .hexadecimal (.inl rfl) number, by simp⟩
  · obtain ⟨digits, rfl, number⟩ := (readNumber_eq_some (by decide)).mp found
    exact ⟨_, .hexadecimal (.inr rfl) number, by simp⟩
  · obtain ⟨digits, rfl, number⟩ := (readNumber_eq_some (by decide)).mp found
    exact ⟨_, .decimal number, by simp⟩
  · obtain ⟨⟨name, d⟩, first, same⟩ := Option.map_eq_some_iff.mp found
    obtain ⟨rfl, rfl⟩ := Prod.mk.inj same
    have begins : name.isPrefixOf cs = true := by simpa using List.find?_some first
    obtain ⟨rest, rfl⟩ := List.isPrefixOf_iff_prefix.mp begins
    have listed := List.mem_of_find?_eq_some first
    rw [List.drop_left]
    refine ⟨'&' :: name, ?_, rfl⟩
    simp only [named, List.mem_cons, Prod.mk.injEq, List.not_mem_nil, or_false] at listed
    rcases listed with ⟨rfl, rfl⟩ | ⟨rfl, rfl⟩ | ⟨rfl, rfl⟩ | ⟨rfl, rfl⟩ | ⟨rfl, rfl⟩ | ⟨rfl, rfl⟩
    · exact .amp
    · exact .lt
    · exact .gt
    · exact .quot
    · exact .apos
    · exact .nbsp

theorem read_reference {ref cs rest : List Char} {c : Char} (is : IsReference ref c)
    (whole : '&' :: cs = ref ++ rest) : read cs = some (c, rest) := by
  cases is with
  | decimal number =>
    obtain ⟨d, digits, rfl⟩ := List.exists_cons_of_ne_nil number.some
    have plain : d ≠ ';' ∧ d ≠ 'x' ∧ d ≠ 'X' := by
      simpa using (number.writes.plain (by decide) d (List.mem_cons_self ..)).2
    obtain rfl : cs = '#' :: (d :: digits ++ ';' :: rest) := by simpa using whole
    rw [read_decimal, readNumber_eq_some (by decide)]
    · exact ⟨d :: digits, rfl, number⟩
    · rintro _ ⟨⟩
      exact plain.2
  | hexadecimal mark number =>
    rcases mark with rfl | rfl
    · cases whole
      exact (readNumber_eq_some (by decide)).mpr ⟨_, by simp, number⟩
    · cases whole
      exact (readNumber_eq_some (by decide)).mpr ⟨_, by simp, number⟩
  | amp => cases whole; rfl
  | lt => cases whole; rfl
  | gt => cases whole; rfl
  | quot => cases whole; rfl
  | apos => cases whole; rfl
  | nbsp => cases whole; rfl

theorem decode_amp_plain {cs : List Char} (none : read cs = none) :
    decode ('&' :: cs) = '&' :: decode cs := by
  rw [decode, if_pos rfl]
  split
  · next found =>
    rw [none] at found
    cases found
  · rfl

theorem IsReference.begins {ref : List Char} {c : Char} (is : IsReference ref c) :
    ∃ cs, ref = '&' :: cs := by
  cases is <;> exact ⟨_, rfl⟩

/-- Decoding does what the grammar says, and nothing else. -/
theorem decodes_iff {cs out : List Char} : Decodes cs out ↔ out = decode cs := by
  constructor
  · intro decodes
    induction decodes with
    | nil => rw [decode]
    | @reference ref rest out c is _ ih =>
      obtain ⟨name, rfl⟩ := is.begins
      have found : read (name ++ rest) = some (c, rest) := read_reference is rfl
      rw [List.cons_append, decode_reference found, ih]
    | @plain cs out c none _ ih =>
      by_cases amp : c = '&'
      · subst amp
        have missing : read cs = .none := by
          cases found : read cs with
          | none => rfl
          | some result =>
            obtain ⟨ref, is, whole⟩ := reference_of_read found
            exact absurd (whole ▸ List.prefix_append ..) (none ref _ is)
        rw [decode_amp_plain missing, ih]
      · rw [decode_plain cs amp, ih]
  · rintro rfl
    fun_induction decode cs with
    | case1 => exact .nil
    | case2 cs d rest found ih =>
      obtain ⟨ref, is, whole⟩ := reference_of_read found
      rw [whole]
      exact .reference is ih
    | case3 cs missing ih =>
      refine .plain (fun ref d is begins => ?_) ih
      obtain ⟨rest, whole⟩ := begins
      rw [read_reference is whole.symm] at missing
      cases missing
    | case4 c cs other ih =>
      refine .plain (fun ref d is begins => other ?_) ih
      obtain ⟨name, rfl⟩ := is.begins
      exact (List.cons_prefix_cons.mp begins).1.symm

theorem decode_append_clear {cs : List Char} (clear : '&' ∉ cs) (rest : List Char) :
    decode (cs ++ rest) = cs ++ decode rest := by
  induction cs with
  | nil => rfl
  | cons c cs ih =>
    rw [List.mem_cons, not_or] at clear
    rw [List.cons_append, decode_plain _ (Ne.symm clear.1), ih clear.2, List.cons_append]

theorem decode_clear {cs : List Char} (clear : '&' ∉ cs) : decode cs = cs := by
  have whole := decode_append_clear clear []
  rwa [decode, List.append_nil] at whole

theorem IsReference.wide {ref : List Char} {c : Char} (is : IsReference ref c) :
    4 ≤ ref.length := by
  cases is with
  | decimal number =>
    have := List.length_pos_of_ne_nil number.some
    simp
    omega
  | hexadecimal _ number => simp
  | amp => decide
  | lt => decide
  | gt => decide
  | quot => decide
  | apos => decide
  | nbsp => decide

theorem Decodes.width_le {cs out : List Char} (decodes : Decodes cs out) :
    width out ≤ width cs := by
  induction decodes with
  | nil => exact Nat.le_refl _
  | @reference ref rest out c is _ ih =>
    have widest := c.utf8Size_le_four
    have long := is.wide
    have bytes := length_le_width ref
    rw [width_cons, width_append]
    omega
  | plain _ _ ih =>
    rw [width_cons, width_cons]
    exact Nat.add_le_add_left ih _

end Reference

namespace Cursor

open Reference

variable {text : String} {pos : Nat} {cs : List Char}

def Finds (tail : String) (bytes : Except Fault (Option (Char × Nat))) :
    Option (Char × List Char) → Prop
  | none => bytes = .ok none
  | some (c, rest) => ∃ taken, Stands tail taken rest ∧ bytes = .ok (some (c, taken))

variable {tail : String} {before : Nat} {body : List Char}

theorem finds_pure {found : Option (Char × Nat)} {expected : Option (Char × List Char)}
    (missing : expected = none → found = none)
    (placed : ∀ c rest, expected = some (c, rest) →
      ∃ taken, Stands tail taken rest ∧ found = some (c, taken)) :
    Finds tail (pure found) expected := by
  cases expected with
  | none =>
    rw [missing rfl]
    rfl
  | some result =>
    obtain ⟨taken, stands, same⟩ := placed result.1 result.2 rfl
    rw [same]
    exact ⟨taken, stands, rfl⟩

theorem number_finds {radix : Nat} (bound : radix ≤ 16) (limit : Nat)
    (stands : Stands tail before body) :
    Finds tail (number? radix limit before (String.ofList body)) (readNumber radix limit body) := by
  have start := Stands.start (String.ofList body)
  rw [String.toList_ofList] at start
  rw [number?]
  rcases start.seek ';' (by decide) with ⟨digits, rest, rfl, clear, _, sought⟩ | ⟨clear, sought⟩
  · have taken := start.slice
    have behind := stands.move.ascii (by decide)
    have single (n : Nat) (writes : Writes radix digits n) : width digits = digits.length :=
      width_ascii fun d member => (writes.plain bound d member).1
    rw [Nat.zero_add] at taken sought
    rw [sought, ok_bind]
    simp only [taken, ok_bind, String.toList_ofList, String.ofList_eq_empty_iff, utf8ByteSize_eq]
    rw [← apply_ite (pure (f := Except Fault))]
    refine finds_pure (fun missing => ?_) fun c left read => ?_
    · rw [Option.eq_none_iff_forall_ne_some]
      rintro ⟨c, stop⟩ made
      have number := ((checked_iff bound single).mp made).1
      rw [(readNumber_at bound clear).mpr ⟨number, rfl⟩] at missing
      cases missing
    · obtain ⟨number, rfl⟩ := (readNumber_at bound clear).mp read
      exact ⟨_, behind, (checked_iff bound single).mpr ⟨number, rfl⟩⟩
  · rw [sought, readNumber_clear clear]
    rfl

theorem numeric_finds (stands : Stands tail 0 ('#' :: cs)) :
    Finds tail (reference? tail) (read ('#' :: cs)) := by
  have numeric := stands.ascii (by decide)
  have inner := Stands.start (String.ofList cs)
  rw [String.toList_ofList] at inner
  rw [reference?, if_pos (stands.letter_ascii (by decide)), numeric.slice_rest, ok_bind]
  simp only [inner.letter_iff 'x' (by decide), inner.letter_iff 'X' (by decide)]
  by_cases hex : cs.head? = some 'x' ∨ cs.head? = some 'X'
  · obtain ⟨x, body, rfl, ascii, same⟩ : ∃ x body, cs = x :: body ∧ x.toNat < 128 ∧
        read ('#' :: x :: body) = readNumber 16 6 body := by
      rcases hex with begins | begins
      · obtain ⟨body, rfl⟩ := List.head?_eq_some_iff.mp begins
        exact ⟨'x', body, rfl, by decide, rfl⟩
      · obtain ⟨body, rfl⟩ := List.head?_eq_some_iff.mp begins
        exact ⟨'X', body, rfl, by decide, rfl⟩
    rw [if_pos hex, (inner.ascii ascii).slice_rest, ok_bind, same]
    exact number_finds (by decide) 6 (numeric.ascii ascii)
  · rw [if_neg hex, inner.slice_rest, ok_bind, read_decimal]
    · exact number_finds (by decide) 7 numeric
    · intro c first
      rw [not_or] at hex
      exact ⟨fun same => hex.1 (same ▸ first), fun same => hex.2 (same ▸ first)⟩

theorem named_finds (stands : Stands tail 0 cs) (other : cs.head? ≠ some '#') :
    Finds tail (reference? tail) (read cs) := by
  have bytes : utf8Bytes tail = encode cs := by simpa using stands.drop
  have alike : ∀ entry ∈ named,
      decide (utf8Bytes (String.ofList entry.1) <+: utf8Bytes tail) = entry.1.isPrefixOf cs := by
    intro entry listed
    rw [Bool.eq_iff_iff, decide_eq_true_eq, List.isPrefixOf_iff_prefix, utf8Bytes_eq, bytes,
      String.toList_ofList, prefix_encode_iff _ (named_ascii entry listed)]
  rw [reference?, if_neg (mt (stands.letter_iff '#' (by decide)).mp other), read_other other,
    List.find?_congr alike]
  cases first : named.find? fun entry => entry.1.isPrefixOf cs with
  | none => rfl
  | some entry =>
    obtain ⟨name, c⟩ := entry
    have begins : name.isPrefixOf cs = true := by simpa using List.find?_some first
    obtain ⟨rest, rfl⟩ := List.isPrefixOf_iff_prefix.mp begins
    simp only [Option.map_some, List.drop_left, utf8ByteSize_eq, String.toList_ofList]
    exact ⟨_, stands.move, by rw [Nat.zero_add]; rfl⟩

theorem reference_finds (tail : String) : Finds tail (reference? tail) (read tail.toList) := by
  have start := Stands.start tail
  by_cases mark : tail.toList.head? = some '#'
  · obtain ⟨cs, whole⟩ := List.head?_eq_some_iff.mp mark
    rw [whole] at start ⊢
    exact numeric_finds start
  · exact named_finds start mark

namespace Stands

theorem decodeRound (stands : Stands text pos cs) (out : String) :
    ('&' ∉ cs ∧ decodeRound text (out, pos) = .ok (.done (out ++ String.ofList cs))) ∨
    (∃ copied rest stop, Reference.decode cs = copied ++ Reference.decode rest ∧
      Stands text stop rest ∧ rest.length < cs.length ∧
      decodeRound text (out, pos) = .ok (.again (out ++ String.ofList copied, stop))) := by
  rw [Cursor.decodeRound]
  rcases stands.seek '&' (by decide) with
    ⟨before, tail, rfl, clear, here, sought⟩ | ⟨clear, sought⟩
  · refine .inr ?_
    have behind := here.ascii (by decide)
    rw [sought, ok_bind]
    simp only [stands.slice, behind.slice_rest, ok_bind]
    have finds := reference_finds (String.ofList tail)
    rw [String.toList_ofList] at finds
    cases found : read tail with
    | none =>
      have bytes : reference? (String.ofList tail) = .ok none := by rwa [found] at finds
      refine ⟨before ++ ['&'], tail, _, ?_, behind, ?_, ?_⟩
      · rw [decode_append_clear clear, decode_amp_plain found, List.append_assoc]
        rfl
      · rw [List.length_append, List.length_cons]
        omega
      · rw [bytes, String.ofList_append, ← String.append_assoc]
        rfl
    | some result =>
      obtain ⟨c, rest⟩ := result
      rw [found] at finds
      obtain ⟨taken, inner, bytes⟩ := finds
      have less := read_le found
      refine ⟨before ++ [c], rest, _, ?_, behind.within inner, ?_, ?_⟩
      · rw [decode_append_clear clear, decode_reference found, List.append_assoc]
        rfl
      · rw [List.length_append, List.length_cons]
        omega
      · rw [bytes, String.ofList_append, ← String.append_assoc]
        rfl
  · refine .inl ⟨clear, ?_⟩
    rw [sought, ok_bind]
    simp only [stands.slice_rest, ok_bind]
    rfl

theorem decodeRounds (stands : Stands text pos cs) (out : String) {n : Nat}
    (enough : width cs ≤ n) : rounds (Cursor.decodeRound text) (n + 1) (out, pos) =
      .ok (out ++ String.ofList (Reference.decode cs)) := by
  induction n using Nat.strong_induction_on generalizing pos cs out with
  | h n ih =>
    rcases stands.decodeRound out with
      ⟨clear, round⟩ | ⟨copied, rest, stop, split, behind, shorter, round⟩
    · rw [rounds_done round, decode_clear clear]
    · have forward := stands.lt_of_length behind shorter
      have size := stands.size.symm.trans behind.size
      obtain ⟨n, rfl⟩ : ∃ m, n = m + 1 := ⟨n - 1, by omega⟩
      rw [rounds_again round, ih n (Nat.lt_succ_self n) behind _ (by omega), split,
        String.ofList_append, String.append_assoc]

end Stands

theorem decode_eq (text : String) :
    decode text = .ok (String.ofList (Reference.decode text.toList)) := by
  have start := Stands.start text
  rw [decode]
  rcases start.seek '&' (by decide) with ⟨before, tail, _, _, _, sought⟩ | ⟨clear, sought⟩
  · have written := start.decodeRounds "" (Nat.le_refl _)
    rw [sought, ok_bind, if_neg (Option.some_ne_none _), loop, start.fuel, written,
      String.empty_append]
  · rw [sought, ok_bind, if_pos rfl, decode_clear clear, String.ofList_toList]
    rfl

end Cursor

/-- Decoding ends without a fault, whatever the text. It gives the one text that the grammar allows,
and never one with more bytes. -/
theorem references_decoded (text : String) : ∃ out : String, Cursor.decode text = .ok out ∧
    out.toList = Reference.decode text.toList ∧
    (∀ other, Reference.Decodes text.toList other ↔ other = out.toList) ∧
    out.utf8ByteSize ≤ text.utf8ByteSize := by
  have decodes : Reference.Decodes text.toList (Reference.decode text.toList) :=
    Reference.decodes_iff.mpr rfl
  refine ⟨_, Cursor.decode_eq text, String.toList_ofList, fun other => ?_, ?_⟩
  · rw [String.toList_ofList]
    exact Reference.decodes_iff
  · rw [utf8ByteSize_eq, utf8ByteSize_eq, String.toList_ofList]
    exact decodes.width_le

example : Reference.decode "&#12&#34;".toList = "&#12\x22".toList := by cbv

end PageFilters
