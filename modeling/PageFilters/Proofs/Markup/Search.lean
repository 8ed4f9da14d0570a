import PageFilters.Markup.Search
import PageFilters.Proofs.Markup.Progress
import PageFilters.Proofs.Text.Search

/-!
Searches by bytes, which leap from one place where the sought thing can begin to the next. What they
leap over cannot begin it, so a part of a text is found just when some window of the text is that
part, the letter case of ASCII letters apart.
-/

namespace PageFilters

theorem toNat_foldByte (b : UInt8) :
    (foldByte b).toNat = if 65 ≤ b.toNat ∧ b.toNat ≤ 90 then b.toNat + 32 else b.toNat := by
  simp only [foldByte, Bool.and_eq_true, decide_eq_true_eq, UInt8.le_iff_toNat_le,
    UInt8.reduceToNat]
  split
  · simp only [UInt8.toNat_add, UInt8.reduceToNat]
    omega
  · rfl

theorem toNat_raiseByte (b : UInt8) :
    (raiseByte b).toNat = if 97 ≤ b.toNat ∧ b.toNat ≤ 122 then b.toNat - 32 else b.toNat := by
  have bound := b.toNat_lt
  simp only [raiseByte, Bool.and_eq_true, decide_eq_true_eq, UInt8.le_iff_toNat_le,
    UInt8.reduceToNat]
  split
  · simp only [UInt8.toNat_sub, UInt8.reduceToNat]
    omega
  · rfl

theorem foldByte_eq_iff {b c : UInt8} :
    foldByte b = foldByte c ↔ b = foldByte c ∨ b = raiseByte c := by
  rw [← UInt8.toNat_inj, ← UInt8.toNat_inj, ← UInt8.toNat_inj, toNat_foldByte, toNat_foldByte,
    toNat_raiseByte]
  split <;> split <;> split <;> omega

theorem encodeChar_folded (c : Char) :
    (String.utf8EncodeChar c).map foldByte = String.utf8EncodeChar c.toLower := by
  by_cases ascii : c.toNat < 128
  · have lowered : c.toLower.toNat < 128 :=
      ascii_of_numbers (P := fun c => c.toLower.toNat < 128) (by decide) c ascii
    rw [encodeChar_ascii ascii, encodeChar_ascii lowered, ← foldByte_toUInt8 ascii]
    rfl
  · have high : 128 ≤ c.toNat := Nat.le_of_not_lt ascii
    have same : c.toLower = c := toLower_of_not_upper <| by
      rw [← Bool.not_eq_true, isUpper_iff]
      omega
    have kept : ∀ b ∈ String.utf8EncodeChar c, foldByte b = id b :=
      fun b member => foldByte_high (high_of_mem high b member)
    rw [same, List.map_congr_left kept, List.map_id]

theorem foldedBytes_eq (s : String) : foldedBytes s = utf8Bytes (foldCase s) := by
  have each : ∀ cs : List Char, (encode cs).map foldByte = encode (cs.map Char.toLower) := by
    intro cs
    induction cs with
    | nil => rfl
    | cons c cs ih =>
      rw [encode_cons, List.map_append, encodeChar_folded, ih, List.map_cons, encode_cons]
  have bytes : foldedBytes s = (utf8Bytes s).map foldByte := rfl
  rw [bytes, utf8Bytes_eq, utf8Bytes_eq, toList_foldCase, each]

def raiseCase (s : String) : String :=
  s.map Char.toUpper

theorem toLower_toUpper (c : Char) : c.toUpper.toLower = c.toLower := by
  by_cases ascii : c.toNat < 128
  · exact ascii_of_numbers (P := fun c => c.toUpper.toLower = c.toLower) (by decide) c ascii
  · have same : c.toUpper = c := by
      rw [Char.toUpper, dif_neg]
      simp only [UInt32.le_iff_toNat_le, Char.toNat_val]
      change ¬ (97 ≤ c.toNat ∧ c.toNat ≤ 122)
      omega
    rw [same]

theorem foldCase_raiseCase (s : String) : foldCase (raiseCase s) = foldCase s := by
  rw [foldCase, foldCase, raiseCase, String.map_map]
  congr 1
  funext c
  exact toLower_toUpper c

namespace Cursor

variable {text : String} {pos : Nat}

theorem loop_ok {σ ρ : Type} {limit : Nat} (place : σ → Nat)
    {round : σ → Except Fault (Round σ ρ)} {P : σ → ρ → Prop}
    (each : ∀ s, place s ≤ limit →
      (∃ result, round s = .ok (.done result) ∧ P s result) ∨
      (∃ next, round s = .ok (.again next) ∧ place s < place next ∧ place next ≤ limit ∧
        ∀ result, P next result → P s result))
    {s : σ} (within : place s ≤ limit) :
    ∃ result, loop limit place round s = .ok result ∧ P s result := by
  -- On the rounds that are left, of which there are more than places up to the limit.
  have enough : ∀ n s, place s ≤ limit → limit < n + place s →
      ∃ result, rounds round n s = .ok result ∧ P s result := by
    intro n
    induction n with
    | zero =>
      intro s within budget
      omega
    | succ n ih =>
      intro s within budget
      rcases each s within with ⟨result, done, holds⟩ | ⟨next, again, forward, inside, back⟩
      · exact ⟨result, rounds_done done n, holds⟩
      · obtain ⟨result, ended, holds⟩ := ih next inside (by omega)
        exact ⟨result, by rw [rounds_again again, ended], back result holds⟩
  exact enough _ s within (by omega)

structure FirstByte (text : String) (p : UInt8 → Bool) (pos : Nat) (found : Option Nat) :
    Prop where
  inside : ∀ start ∈ found, pos ≤ start ∧ start < text.utf8ByteSize
  skipped : ∀ i ≥ pos, (∀ start ∈ found, i < start) →
    ∀ b, (utf8Bytes text)[i]? = some b → p b = false

theorem findIdx_first (text : String) (p : UInt8 → Bool) (pos : Nat) :
    FirstByte text p pos ((((utf8Bytes text).drop pos).findIdx? p).map (pos + ·)) := by
  have shifted : ∀ i ≥ pos, (utf8Bytes text)[i]? = ((utf8Bytes text).drop pos)[i - pos]? := by
    intro i later
    rw [List.getElem?_drop, Nat.add_sub_cancel' later]
  cases found : ((utf8Bytes text).drop pos).findIdx? p with
  | none =>
    refine ⟨fun _ none => (nomatch none), fun i later _ b held => ?_⟩
    rw [shifted i later] at held
    exact List.findIdx?_eq_none_iff.mp found b (List.mem_of_getElem? held)
  | some n =>
    obtain ⟨inside, _, before⟩ := List.findIdx?_eq_some_iff_getElem.mp found
    have size : ((utf8Bytes text).drop pos).length = text.utf8ByteSize - pos := by
      rw [List.length_drop, length_utf8Bytes]
    rw [Option.map_some]
    refine ⟨?_, fun i later early b held => ?_⟩
    · rintro start ⟨⟩
      exact ⟨Nat.le_add_right pos n, by omega⟩
    · have less : i < pos + n := early (pos + n) rfl
      rw [shifted i later] at held
      obtain ⟨within, rfl⟩ := List.getElem?_eq_some_iff.mp held
      exact Bool.eq_false_iff.mpr (before (i - pos) (by omega))

theorem find_single (mark : UInt8) (bytes : List UInt8) :
    find? [mark] bytes = bytes.findIdx? (· == mark) := by
  induction bytes with
  | nil => rfl
  | cons b bytes ih =>
    have begins : [mark] <+: b :: bytes ↔ (b == mark) = true := by
      rw [List.cons_prefix_cons, beq_iff_eq, and_iff_left List.nil_prefix, eq_comm]
    rw [find?, ih, List.findIdx?_cons]
    exact if_congr begins rfl rfl

theorem seek_first (mark : Char) (within : pos ≤ text.utf8ByteSize) :
    ∃ found, seek text mark pos = .ok found ∧ FirstByte text (· == mark.toUInt8) pos found := by
  have first := findIdx_first text (· == mark.toUInt8) pos
  rw [← find_single] at first
  rw [seek, ahead, if_pos within]
  exact ⟨_, rfl, first⟩

theorem seekEither_first (a b : UInt8) (within : pos ≤ text.utf8ByteSize) :
    ∃ found, seekEither text a b pos = .ok found ∧
      FirstByte text (fun c => c == a || c == b) pos found := by
  rw [seekEither, ahead, if_pos within]
  exact ⟨_, rfl, findIdx_first text _ pos⟩

theorem length_foldedBytes (s : String) : (foldedBytes s).length = s.utf8ByteSize := by
  rw [← length_utf8Bytes]
  exact List.length_map ..

theorem first_of_startsAt {word : String} {first : UInt8} {others : List UInt8}
    (spelled : utf8Bytes word = first :: others) (begins : startsAt text word pos = true) :
    ∃ b, (utf8Bytes text)[pos]? = some b ∧ foldByte b = foldByte first := by
  have folded : foldedBytes word = foldByte first :: others.map foldByte := by
    change (utf8Bytes word).map foldByte = _
    rw [spelled, List.map_cons]
  have long : word.utf8ByteSize ≠ 0 := by
    rw [← length_utf8Bytes, spelled]
    exact Nat.succ_ne_zero _
  rw [startsAt, beq_iff_eq, folded] at begins
  have head := congrArg List.head? begins
  rw [List.head?_map, List.head?_take, if_neg long, List.head?_drop, List.head?_cons] at head
  exact Option.map_eq_some_iff.mp head

theorem startsAt_inside {word : String} {first : UInt8} {others : List UInt8}
    (spelled : utf8Bytes word = first :: others) (begins : startsAt text word pos = true) :
    pos + word.utf8ByteSize ≤ text.utf8ByteSize := by
  obtain ⟨b, held, _⟩ := first_of_startsAt spelled begins
  have inside := (List.getElem?_eq_some_iff.mp held).1
  rw [length_utf8Bytes] at inside
  exact startsAt_within (Nat.le_of_lt inside) begins

theorem FirstByte.reaches {p : UInt8 → Bool} {found : Option Nat} {word : String} {first : UInt8}
    {others : List UInt8} (leap : FirstByte text p pos found)
    (spelled : utf8Bytes word = first :: others)
    (fits : ∀ b, foldByte b = foldByte first → p b = true) {start : Nat} (later : pos ≤ start)
    (begins : startsAt text word start = true) : ∃ s ∈ found, s ≤ start := by
  obtain ⟨b, held, same⟩ := first_of_startsAt spelled begins
  by_contra beyond
  push Not at beyond
  have other := leap.skipped start later beyond b held
  rw [fits b same] at other
  cases other

/-- Whether some window of the bytes of `text` is `part`, with `A` to `Z` written small in both. -/
def HasPart (text part : String) : Prop :=
  ∃ before window after, utf8Bytes text = before ++ window ++ after ∧
    window.map foldByte = (utf8Bytes part).map foldByte

theorem hasPart_iff_startsAt {text part : String} :
    HasPart text part ↔ ∃ start, startsAt text part start = true := by
  constructor
  · rintro ⟨before, window, after, whole, same⟩
    have size := congrArg List.length same
    rw [List.length_map, List.length_map, length_utf8Bytes] at size
    refine ⟨before.length, ?_⟩
    rw [startsAt, whole, List.append_assoc, List.drop_left, ← size, List.take_left, same]
    exact beq_self_eq_true _
  · rintro ⟨start, begins⟩
    rw [startsAt, beq_iff_eq] at begins
    refine ⟨(utf8Bytes text).take start, ((utf8Bytes text).drop start).take part.utf8ByteSize,
      ((utf8Bytes text).drop start).drop part.utf8ByteSize, ?_, begins⟩
    rw [List.append_assoc, List.take_append_drop, List.take_append_drop]

theorem hasPart_iff_contains {text part : String} :
    HasPart text part ↔ containsIgnoreCase text part = true := by
  rw [containsIgnoreCase_iff]
  constructor
  · rintro ⟨before, window, after, whole, same⟩
    refine ⟨before.map foldByte, after.map foldByte, ?_⟩
    change _ ++ (utf8Bytes part).map foldByte ++ _ = (utf8Bytes text).map foldByte
    rw [whole, List.map_append, List.map_append, same]
  · rintro ⟨before, after, whole⟩
    obtain ⟨front, rest, split, inner, _⟩ := List.map_eq_append_iff.mp whole.symm
    obtain ⟨first, window, rfl, _, same⟩ := List.map_eq_append_iff.mp inner
    exact ⟨first, window, rest, split, same⟩

def FoundFrom (text part : String) (pos : Nat) (result : Bool) : Prop :=
  result = true ↔ ∃ start ≥ pos, startsAt text part start = true

theorem FoundFrom.absent {part : String}
    (missing : ∀ start ≥ pos, startsAt text part start ≠ true) :
    FoundFrom text part pos false := by
  refine ⟨Bool.noConfusion, ?_⟩
  rintro ⟨start, later, begins⟩
  exact absurd begins (missing start later)

theorem FoundFrom.back {part : String} {next : Nat} {result : Bool} (forward : pos ≤ next)
    (leapt : ∀ start ≥ pos, startsAt text part start = true → next ≤ start)
    (tells : FoundFrom text part next result) : FoundFrom text part pos result := by
  refine tells.trans ⟨?_, ?_⟩
  · rintro ⟨start, later, begins⟩
    exact ⟨start, Nat.le_trans forward later, begins⟩
  · rintro ⟨start, later, begins⟩
    exact ⟨start, leapt start later begins, begins⟩

theorem containsRound_ok {part : String} {first : UInt8} {others : List UInt8}
    (spelled : utf8Bytes part = first :: others) (within : pos ≤ text.utf8ByteSize) :
    (∃ result, containsRound text part first pos = .ok (.done result) ∧
      FoundFrom text part pos result) ∨
    (∃ next, containsRound text part first pos = .ok (.again next) ∧ pos < next ∧
      next ≤ text.utf8ByteSize ∧
      ∀ result, FoundFrom text part next result → FoundFrom text part pos result) := by
  unfold containsRound
  by_cases short : text.utf8ByteSize < pos + part.utf8ByteSize
  · refine .inl ⟨false, by rw [if_pos short]; rfl, .absent fun start later begins => ?_⟩
    have := startsAt_inside spelled begins
    omega
  · obtain ⟨found, sought, leap⟩ := seekEither_first (foldByte first) (raiseByte first) within
    have reached : ∀ start ≥ pos, startsAt text part start = true → ∃ s ∈ found, s ≤ start :=
      fun start => leap.reaches spelled fun b same => by simpa using foldByte_eq_iff.mp same
    rw [if_neg short, sought, ok_bind]
    cases found with
    | none =>
      refine .inl ⟨false, rfl, .absent fun start later begins => ?_⟩
      obtain ⟨s, none, _⟩ := reached start later begins
      cases none
    | some start =>
      obtain ⟨forward, inside⟩ := leap.inside start rfl
      by_cases begins : startsAt text part start = true
      · refine .inl ⟨true, ?_, fun _ => ⟨start, forward, begins⟩, fun _ => rfl⟩
        simp only [begins]
        rfl
      · refine .inr ⟨start + 1, ?_, Nat.lt_succ_of_le forward, inside,
          fun result => .back (Nat.le_succ_of_le forward) fun s later here => ?_⟩
        · simp only [begins]
          rfl
        · obtain ⟨_, ⟨⟩, behind⟩ := reached s later here
          refine Nat.lt_of_le_of_ne behind ?_
          rintro rfl
          exact begins here

theorem contains_ok (text part : String) :
    ∃ result, contains text part = .ok result ∧ (result = true ↔ HasPart text part) := by
  rw [hasPart_iff_startsAt]
  cases spelled : utf8Bytes part with
  | nil =>
    refine ⟨true, by rw [contains, spelled]; rfl, fun _ => ⟨0, ?_⟩, fun _ => rfl⟩
    rw [startsAt, foldedBytes, ← length_utf8Bytes]
    change _ == (utf8Bytes part).map foldByte
    rw [spelled]
    rfl
  | cons first others =>
    have start : id 0 ≤ text.utf8ByteSize := Nat.zero_le _
    obtain ⟨result, ended, tells⟩ :=
      loop_ok id (P := FoundFrom text part) (fun _ => containsRound_ok spelled) start
    refine ⟨result, by rw [contains, spelled]; exact ended, tells.trans ?_⟩
    simp

theorem contains_eq (text part : String) :
    contains text part = .ok (containsIgnoreCase text part) := by
  obtain ⟨result, ended, tells⟩ := contains_ok text part
  have same : result = containsIgnoreCase text part := by
    rw [Bool.eq_iff_iff, tells, hasPart_iff_contains]
  rw [ended, same]

theorem contains_congr {text text' part part' : String} (texts : eqIgnoreCase text text' = true)
    (parts : eqIgnoreCase part part' = true) : contains text' part' = contains text part := by
  rw [eqIgnoreCase, beq_iff_eq] at texts parts
  rw [contains_eq, contains_eq, containsIgnoreCase, containsIgnoreCase, foldedBytes_eq,
    foldedBytes_eq, foldedBytes_eq text, foldedBytes_eq part, texts, parts]

structure SearchExact (text part : String) : Prop where
  found : contains text part = .ok true ↔ HasPart text part
  missing : contains text part = .ok false ↔ ¬ HasPart text part
  nothing : contains text "" = .ok true
  /-- It is the plain search over all windows. -/
  plain : contains text part = .ok (containsIgnoreCase text part)
  /-- Whichever letters are written otherwise, small or capital, the answer is the same. -/
  caseless : ∀ text' part', eqIgnoreCase text text' = true → eqIgnoreCase part part' = true →
    contains text' part' = contains text part
  small : contains (foldCase text) part = contains text part ∧
    contains text (foldCase part) = contains text part
  capital : contains (raiseCase text) part = contains text part ∧
    contains text (raiseCase part) = contains text part

/-- The search that leaps from one first byte to the next finds what a comparison of all windows
finds. -/
theorem search_exact (text part : String) : SearchExact text part := by
  obtain ⟨result, ended, tells⟩ := contains_ok text part
  have self : ∀ s, eqIgnoreCase s s = true := fun s => beq_self_eq_true _
  have small : ∀ s, eqIgnoreCase s (foldCase s) = true := by
    intro s
    rw [eqIgnoreCase, foldCase_foldCase]
    exact beq_self_eq_true _
  have capital : ∀ s, eqIgnoreCase s (raiseCase s) = true := by
    intro s
    rw [eqIgnoreCase, foldCase_raiseCase]
    exact beq_self_eq_true _
  refine ⟨?_, ?_, rfl, contains_eq text part, fun _ _ => contains_congr,
    ⟨contains_congr (small text) (self part), contains_congr (self text) (small part)⟩,
    ⟨contains_congr (capital text) (self part), contains_congr (self text) (capital part)⟩⟩
  · rw [ended, Except.ok.injEq, tells]
  · rw [ended, Except.ok.injEq, ← Bool.not_eq_true, tells]

example : contains "aaB" "Ab" = .ok true := by decide

end Cursor

end PageFilters
