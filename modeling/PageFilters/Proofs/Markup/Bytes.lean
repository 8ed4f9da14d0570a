import Mathlib.Data.List.TakeWhile
import PageFilters.Markup.Cursor
import PageFilters.Proofs.Markup.Cutting

/-!
The UTF-8 bytes of characters. An ASCII character is a byte of its own, all bytes of other
characters are above those, so what is looked for among ASCII characters is found at the same place
among the bytes.
-/

namespace PageFilters

open Cursor (letter)

def encode (cs : List Char) : List UInt8 :=
  cs.flatMap String.utf8EncodeChar

def width (cs : List Char) : Nat :=
  (encode cs).length

theorem utf8Bytes_eq (s : String) : utf8Bytes s = encode s.toList := by
  obtain ⟨cs, rfl⟩ := s.exists_eq_ofList
  rw [utf8Bytes, String.toUTF8_eq_toByteArray, String.toByteArray_ofList, String.toList_ofList,
    List.utf8Encode, List.toList_data_toByteArray, encode]

theorem utf8ByteSize_eq (s : String) : s.utf8ByteSize = width s.toList := by
  rw [width, ← utf8Bytes_eq, utf8Bytes]
  simp

@[simp] theorem encode_nil : encode [] = [] :=
  rfl

theorem encode_cons (c : Char) (cs : List Char) :
    encode (c :: cs) = String.utf8EncodeChar c ++ encode cs :=
  List.flatMap_cons

@[simp] theorem encode_append (cs ds : List Char) : encode (cs ++ ds) = encode cs ++ encode ds :=
  List.flatMap_append

@[simp] theorem width_nil : width [] = 0 :=
  rfl

@[simp] theorem width_cons (c : Char) (cs : List Char) :
    width (c :: cs) = c.utf8Size + width cs := by
  rw [width, encode_cons, List.length_append, String.length_utf8EncodeChar, width]

@[simp] theorem width_append (cs ds : List Char) : width (cs ++ ds) = width cs + width ds := by
  rw [width, encode_append, List.length_append, width, width]

theorem length_le_width (cs : List Char) : cs.length ≤ width cs := by
  induction cs with
  | nil => exact Nat.le_refl 0
  | cons c cs ih =>
    have := c.utf8Size_pos
    rw [List.length_cons, width_cons]
    omega

theorem utf8Size_ascii {c : Char} (ascii : c.toNat < 128) : c.utf8Size = 1 := by
  rw [Char.utf8Size_eq_one_iff, UInt32.le_iff_toNat_le]
  exact Nat.le_of_lt_succ ascii

theorem width_ascii {cs : List Char} (ascii : ∀ c ∈ cs, c.toNat < 128) : width cs = cs.length := by
  induction cs with
  | nil => rfl
  | cons c cs ih =>
    obtain ⟨first, others⟩ := List.forall_mem_cons.mp ascii
    rw [width_cons, utf8Size_ascii first, ih others, List.length_cons, Nat.add_comm]

theorem encodeChar_ascii {c : Char} (ascii : c.toNat < 128) :
    String.utf8EncodeChar c = [c.toUInt8] := by
  rw [String.utf8EncodeChar_eq_singleton (utf8Size_ascii ascii)]
  rfl

theorem encode_cons_ascii {c : Char} (ascii : c.toNat < 128) (cs : List Char) :
    encode (c :: cs) = c.toUInt8 :: encode cs := by
  rw [encode_cons, encodeChar_ascii ascii, List.singleton_append]

theorem letter_toUInt8 {c : Char} (ascii : c.toNat < 128) : letter c.toUInt8 = c := by
  have small : c.toUInt8.toNat = c.toNat := Nat.mod_eq_of_lt (by omega : c.toNat < 256)
  rw [letter, small, Char.ofNat_toNat]

theorem toNat_letter (b : UInt8) : (letter b).toNat = b.toNat := by
  have bound := b.toNat_lt
  have valid : b.toNat.isValidChar := .inl (by omega)
  rw [letter, Char.toNat_ofNat, if_pos valid]

theorem high_of_mem {c : Char} (high : 128 ≤ c.toNat) :
    ∀ b ∈ String.utf8EncodeChar c, 128 ≤ (letter b).toNat := by
  have big : ¬ c.val.toNat ≤ 127 := by
    change ¬ c.toNat ≤ 127
    omega
  simp only [String.utf8EncodeChar, big, ↓reduceIte, toNat_letter]
  split
  · simp only [List.mem_cons, List.not_mem_nil, or_false, forall_eq_or_imp, forall_eq,
      UInt8.toNat_ofNat']
    omega
  · split
    · simp only [List.mem_cons, List.not_mem_nil, or_false, forall_eq_or_imp, forall_eq,
      UInt8.toNat_ofNat']
      omega
    · simp only [List.mem_cons, List.not_mem_nil, or_false, forall_eq_or_imp, forall_eq,
      UInt8.toNat_ofNat']
      omega

theorem toUInt8_ascii_inj {c d : Char} (first : c.toNat < 128) (second : d.toNat < 128) :
    c.toUInt8 = d.toUInt8 ↔ c = d := by
  constructor
  · intro same
    rw [← letter_toUInt8 first, ← letter_toUInt8 second, same]
  · exact congrArg Char.toUInt8

theorem encodeChar_cons (c : Char) : ∃ b bs, String.utf8EncodeChar c = b :: bs := by
  apply List.exists_cons_of_ne_nil
  intro none
  have size := String.length_utf8EncodeChar c
  rw [none] at size
  exact absurd size c.utf8Size_pos.ne

theorem toUInt8_ne_high {m : Char} (ascii : m.toNat < 128) {b : UInt8}
    (high : 128 ≤ (letter b).toNat) : m.toUInt8 ≠ b := by
  intro same
  rw [← same, letter_toUInt8 ascii] at high
  omega

def Beyond (p : Char → Bool) (d : Bool) : Prop :=
  ∀ c : Char, 128 ≤ c.toNat → p c = d

theorem letter_class {p : Char → Bool} {d : Bool} (beyond : Beyond p d) (c : Char) :
    ∀ b ∈ String.utf8EncodeChar c, p (letter b) = p c := by
  intro b member
  by_cases ascii : c.toNat < 128
  · rw [encodeChar_ascii ascii, List.mem_singleton] at member
    rw [member, letter_toUInt8 ascii]
  · have high : 128 ≤ c.toNat := by omega
    rw [beyond c high, beyond _ (high_of_mem high b member)]

theorem takeWhile_encode {p : Char → Bool} {d : Bool} (beyond : Beyond p d) (cs : List Char) :
    (encode cs).takeWhile (fun b => p (letter b)) = encode (cs.takeWhile p) := by
  induction cs with
  | nil => rfl
  | cons c cs ih =>
    have alike := letter_class beyond c
    rw [encode_cons, List.takeWhile_cons]
    cases goes : p c with
    | true =>
      rw [List.takeWhile_append_of_pos (fun b member => (alike b member).trans goes), ih]
      exact (encode_cons c _).symm
    | false =>
      obtain ⟨b, bs, bytes⟩ := encodeChar_cons c
      have stops : p (letter b) = false := (alike b (by simp [bytes])).trans goes
      simp [bytes, stops]

theorem beyond_isSpace : Beyond isSpace false := by
  intro c high
  by_contra blank
  simp only [Bool.not_eq_false, isSpace, Bool.or_eq_true, beq_iff_eq] at blank
  rcases blank with (((rfl | rfl) | rfl) | rfl) | rfl <;> exact absurd high (by decide)

theorem beyond_isNameChar : Beyond Scan.isNameChar false := by
  intro c high
  by_contra named
  have small := ascii_of_nameChar (by simpa using named)
  omega

theorem prefix_encode_iff (mark : List Char) (ascii : ∀ c ∈ mark, c.toNat < 128)
    (cs : List Char) : encode mark <+: encode cs ↔ mark <+: cs := by
  induction mark generalizing cs with
  | nil => simp
  | cons m mark ih =>
    obtain ⟨first, others⟩ := List.forall_mem_cons.mp ascii
    rw [encode_cons_ascii first]
    cases cs with
    | nil => simp
    | cons c cs =>
      by_cases small : c.toNat < 128
      · rw [encode_cons_ascii small, List.cons_prefix_cons, List.cons_prefix_cons, ih others,
          toUInt8_ascii_inj first small]
      · obtain ⟨b, bs, bytes⟩ := encodeChar_cons c
        have high := high_of_mem (c := c) (by omega) b (by simp [bytes])
        have apart : m ≠ c := by
          rintro rfl
          exact small first
        rw [encode_cons, bytes, List.cons_append, List.cons_prefix_cons, List.cons_prefix_cons]
        simp [toUInt8_ne_high first high, apart]

theorem find_skip {first : UInt8} {part bs : List UInt8} (absent : first ∉ bs)
    (rest : List UInt8) :
    Cursor.find? (first :: part) (bs ++ rest) =
      (Cursor.find? (first :: part) rest).map (bs.length + ·) := by
  induction bs with
  | nil => simp
  | cons b bs ih =>
    rw [List.mem_cons, not_or] at absent
    obtain ⟨apart, others⟩ := absent
    have missing : ¬ first :: part <+: b :: (bs ++ rest) := by
      rw [List.cons_prefix_cons]
      exact fun same => apart same.1
    rw [List.cons_append, Cursor.find?, if_neg missing, ih others, Option.map_map]
    congr 1
    funext n
    simp only [Function.comp_apply, List.length_cons]
    omega

theorem find_encode (mark : List Char) (long : mark ≠ []) (ascii : ∀ c ∈ mark, c.toNat < 128)
    (cs : List Char) :
    Cursor.find? (encode mark) (encode cs) =
      (Scan.cutAt (Scan.after? mark) cs).map fun cut => width cut.1 := by
  obtain ⟨m, others, rfl⟩ := List.exists_cons_of_ne_nil long
  have first := (List.forall_mem_cons.mp ascii).1
  have part := encode_cons_ascii first others
  induction cs with
  | nil =>
    rw [encode_nil, part]
    rfl
  | cons c cs ih =>
    obtain ⟨b, bs, bytes⟩ := encodeChar_cons c
    have whole : encode (c :: cs) = b :: (bs ++ encode cs) := by
      rw [encode_cons, bytes, List.cons_append]
    rw [Scan.cutAt]
    by_cases begins : m :: others <+: c :: cs
    · have here := (prefix_encode_iff _ ascii _).mpr begins
      obtain ⟨rest, split⟩ := begins
      rw [Scan.after_eq_some.mpr split.symm]
      rw [whole] at here ⊢
      rw [Cursor.find?, if_pos here]
      rfl
    · have missing : Scan.after? (m :: others) (c :: cs) = none := by
        rw [Scan.after?, if_neg]
        rwa [List.isPrefixOf_iff_prefix]
      have notHere := mt (prefix_encode_iff _ ascii _).mp begins
      have inside : m.toUInt8 ∉ bs := by
        by_cases small : c.toNat < 128
        · rw [encodeChar_ascii small, List.cons.injEq] at bytes
          simp [← bytes.2]
        · intro member
          have high := high_of_mem (c := c) (by omega) m.toUInt8 (by simp [bytes, member])
          exact toUInt8_ne_high first high rfl
      have size : bs.length + 1 = c.utf8Size := by
        rw [← String.length_utf8EncodeChar, bytes, List.length_cons]
      rw [missing]
      rw [whole] at notHere ⊢
      rw [Cursor.find?, if_neg notHere, part, find_skip inside, ← part, ih]
      simp only [Option.map_map]
      congr 1
      funext cut
      simp only [Function.comp_apply, width_cons]
      omega

theorem foldByte_toUInt8 {c : Char} (ascii : c.toNat < 128) :
    foldByte c.toUInt8 = c.toLower.toUInt8 :=
  ascii_of_numbers (P := fun c => foldByte c.toUInt8 = c.toLower.toUInt8) (by decide) c ascii

theorem foldByte_high {b : UInt8} (high : 128 ≤ (letter b).toNat) : foldByte b = b := by
  rw [toNat_letter] at high
  rw [foldByte, if_neg]
  simp only [Bool.and_eq_true, decide_eq_true_eq, UInt8.le_iff_toNat_le, not_and]
  intro _
  change ¬ b.toNat ≤ 90
  omega

theorem folded_encode_iff {word : List Char}
    (plain : ∀ c ∈ word, c.toNat < 128 ∧ c.toLower = c) (cs : List Char) :
    ((encode cs).take (width word)).map foldByte = (encode word).map foldByte ↔
      startsIgnoreCase word cs = true := by
  rw [startsIgnoreCase, beq_iff_eq]
  induction word generalizing cs with
  | nil => simp
  | cons w word ih =>
    obtain ⟨⟨ascii, small⟩, others⟩ := List.forall_mem_cons.mp plain
    have foldW := foldByte_toUInt8 ascii
    rw [small] at foldW
    rw [encode_cons_ascii ascii, width_cons, utf8Size_ascii ascii, Nat.add_comm 1, List.map_cons,
      foldW, List.length_cons]
    cases cs with
    | nil => simp
    | cons c cs =>
      by_cases single : c.toNat < 128
      · have lowered : c.toLower.toNat < 128 :=
          ascii_of_numbers (P := fun c => c.toLower.toNat < 128) (by decide) c single
        rw [encode_cons_ascii single, List.take_succ_cons, List.map_cons, foldByte_toUInt8 single,
          List.take_succ_cons, List.map_cons, List.cons.injEq, List.cons.injEq, ih others,
          toUInt8_ascii_inj lowered ascii]
      · obtain ⟨b, bs, bytes⟩ := encodeChar_cons c
        have high := high_of_mem (c := c) (by omega) b (by simp [bytes])
        have apart : c.toLower ≠ w := by
          rintro rfl
          exact single (ascii_of_toLower ascii)
        rw [encode_cons, bytes, List.cons_append, List.take_succ_cons, List.map_cons,
          foldByte_high high, List.take_succ_cons, List.map_cons]
        simp [(toUInt8_ne_high ascii high).symm, apart]

end PageFilters
