import PageFilters.Proofs.Markup.ByteReading

/-!
Reading by bytes always moves on. From any place, also inside a character, every loop ends, nothing
moves back or beyond the end of the text, and each construct is longer than nothing.
-/

namespace PageFilters

namespace Cursor

/-- `x` is not caught in a loop, and what it gives, unless it is refused a piece, has the
property. -/
def Ends {α : Type} (x : Except Fault α) (P : α → Prop) : Prop :=
  match x with
  | .ok a => P a
  | .error fault => fault ≠ .endless

def Round.Leads {σ ρ : Type} (on : σ → Prop) (last : ρ → Prop) : Round σ ρ → Prop
  | .again next => on next
  | .done result => last result

namespace Ends

variable {α β : Type} {P : α → Prop} {Q : β → Prop}

theorem bind {x : Except Fault α} {f : α → Except Fault β} (first : Ends x P)
    (rest : ∀ a, P a → Ends (f a) Q) : Ends (x >>= f) Q := by
  cases x with
  | error fault => exact first
  | ok a => exact rest a first

theorem mono {x : Except Fault α} {P' : α → Prop} (ends : Ends x P) (weaker : ∀ a, P a → P' a) :
    Ends x P' := by
  cases x with
  | error fault => exact ends
  | ok a => exact weaker a ends

/-- A loop ends when every round that goes on leads forward, but not beyond the limit. What holds of
the last round's result holds of the loop's, when it lasts through the rounds before. -/
theorem loop {σ ρ : Type} {limit : Nat} (place : σ → Nat)
    {round : σ → Except Fault (Round σ ρ)} {P : σ → ρ → Prop}
    (back : ∀ s next result, place s < place next → P next result → P s result)
    (each : ∀ s, place s ≤ limit →
      Ends (round s) (Round.Leads (fun next => place s < place next ∧ place next ≤ limit) (P s)))
    {s : σ} (within : place s ≤ limit) : Ends (Cursor.loop limit place round s) (P s) := by
  -- On the rounds that are left, of which there are more than places up to the limit.
  have enough : ∀ n s, place s ≤ limit → limit < n + place s → Ends (rounds round n s) (P s) := by
    intro n
    induction n with
    | zero =>
      intro s within budget
      omega
    | succ n ih =>
      intro s within budget
      refine (each s within).bind ?_
      rintro (next | result) outcome
      · obtain ⟨forward, inside⟩ := outcome
        exact (ih next inside (by omega)).mono fun result => back s next result forward
      · exact outcome
  exact enough _ s within (by omega)

end Ends

variable {text : String} {pos : Nat}

theorem lt_of_any {p : Char → Bool} (held : (letter? text pos).any p = true) :
    pos < text.utf8ByteSize := by
  cases found : letter? text pos with
  | none => simp [found] at held
  | some c => exact letter_lt found

theorem slice_ends (start stop : Nat) : Ends (slice text start stop) fun piece =>
    start ≤ stop ∧ stop ≤ text.utf8ByteSize ∧ piece.utf8ByteSize = stop - start := by
  cases taken : slice text start stop with
  | error fault =>
    unfold slice at taken
    split at taken
    · cases taken
    · cases taken
      exact Fault.noConfusion
  | ok piece =>
    obtain ⟨order, within, bytes⟩ := slice_eq_ok taken
    refine ⟨order, within, ?_⟩
    rw [← length_utf8Bytes, bytes, List.length_take, List.length_drop, length_utf8Bytes]
    omega

theorem find_eq_some {part bytes : List UInt8} {n : Nat} (found : find? part bytes = some n) :
    part <+: bytes.drop n := by
  induction bytes generalizing n with
  | nil =>
    simp only [find?] at found
    split at found
    · next empty => simp [empty]
    · cases found
  | cons b bytes ih =>
    rw [find?] at found
    split at found
    · next here =>
      cases found
      exact here
    · obtain ⟨m, inside, rfl⟩ := Option.map_eq_some_iff.mp found
      exact ih inside

theorem find_within {part : String} {body : String} {n : Nat} (long : part.utf8ByteSize ≠ 0)
    (found : find? (utf8Bytes part) (utf8Bytes body) = some n) :
    n + part.utf8ByteSize ≤ body.utf8ByteSize := by
  have size := (find_eq_some found).length_le
  rw [List.length_drop, length_utf8Bytes, length_utf8Bytes] at size
  omega

theorem seek_ends (mark : Char) (ascii : mark.toNat < 128) (within : pos ≤ text.utf8ByteSize) :
    Ends (seek text mark pos) fun found =>
      ∀ stop ∈ found, pos ≤ stop ∧ letter? text stop = some mark := by
  rw [seek, ahead, if_pos within]
  intro stop found
  obtain ⟨n, inside, rfl⟩ := Option.map_eq_some_iff.mp found
  obtain ⟨rest, whole⟩ := find_eq_some inside
  rw [List.drop_drop, List.singleton_append] at whole
  refine ⟨Nat.le_add_right pos n, ?_⟩
  rw [letter?, ← List.head?_drop, ← whole]
  exact congrArg some (letter_toUInt8 ascii)

theorem advance_ends {goes : Nat → Bool} (inside : ∀ pos, goes pos = true → pos < text.utf8ByteSize)
    (within : pos ≤ text.utf8ByteSize) :
    Ends (advance text goes pos) fun stop => pos ≤ stop ∧ stop ≤ text.utf8ByteSize := by
  refine Ends.loop id (P := fun pos stop => pos ≤ stop ∧ stop ≤ text.utf8ByteSize)
    ?_ ?_ within
  · intro pos next stop forward reached
    exact ⟨Nat.le_trans (Nat.le_of_lt forward) reached.1, reached.2⟩
  · intro pos within
    change Ends (.ok _) _
    by_cases goesOn : goes pos = true
    · rw [if_pos goesOn]
      exact ⟨Nat.lt_succ_self pos, inside pos goesOn⟩
    · rw [if_neg goesOn]
      exact ⟨Nat.le_refl pos, within⟩

theorem skip_ends (p : Char → Bool) (within : pos ≤ text.utf8ByteSize) :
    Ends (skip text p pos) fun stop => pos ≤ stop ∧ stop ≤ text.utf8ByteSize :=
  advance_ends (fun _ => lt_of_any) within

theorem name_ends (within : pos ≤ text.utf8ByteSize) :
    Ends (name text pos) fun (found, stop) =>
      pos ≤ stop ∧ stop ≤ text.utf8ByteSize ∧ (found ≠ none → pos < stop) := by
  refine (skip_ends Scan.isNameChar within).bind fun stop ⟨forward, inside⟩ => ?_
  split
  · exact ⟨Nat.le_refl pos, within, fun some => absurd rfl some⟩
  · next moved =>
    exact (slice_ends pos stop).bind fun _ _ => ⟨forward, inside, fun _ => by omega⟩

theorem decoded_ends (start stop : Nat) : Ends (decoded text start stop) fun _ => True :=
  (slice_ends start stop).bind fun _ _ => trivial

theorem valueGoes_lt (goes : valueGoes text pos = true) : pos < text.utf8ByteSize :=
  lt_of_any goes

theorem quoted_ends (mark : Char) (ascii : mark.toNat < 128) (quote : Quote)
    (within : pos ≤ text.utf8ByteSize) :
    Ends (attributeValue.quoted text mark quote pos) fun (_, _, stop) =>
      pos ≤ stop ∧ stop ≤ text.utf8ByteSize := by
  refine (seek_ends mark ascii within).bind fun found bound => ?_
  refine (decoded_ends pos _).bind fun _ _ => ⟨Nat.le_min.mpr ⟨?_, within⟩, Nat.min_le_right ..⟩
  cases found with
  | none => exact Nat.le_succ_of_le within
  | some stop => exact Nat.le_succ_of_le (bound stop rfl).1

theorem attributeValue_ends (within : pos ≤ text.utf8ByteSize) :
    Ends (attributeValue text pos) fun (_, _, stop) => pos ≤ stop ∧ stop ≤ text.utf8ByteSize := by
  refine (skip_ends isSpace within).bind fun sign ⟨toSign, _⟩ => ?_
  split
  · exact ⟨Nat.le_refl pos, within⟩
  · next equals =>
    have inside := letter_lt (not_not.mp equals)
    refine (skip_ends isSpace inside).bind fun start ⟨toStart, startWithin⟩ => ?_
    split
    · next mark =>
      have ends := quoted_ends '\x22' (by decide) .double (letter_lt mark)
      exact ends.mono fun _ ⟨forward, reached⟩ => ⟨by omega, reached⟩
    · next mark =>
      have ends := quoted_ends '\x27' (by decide) .single (letter_lt mark)
      exact ends.mono fun _ ⟨forward, reached⟩ => ⟨by omega, reached⟩
    · have ends := advance_ends (fun _ => valueGoes_lt) startWithin
      refine ends.bind fun stop ⟨forward, reached⟩ => ?_
      exact (decoded_ends start stop).bind fun _ _ => ⟨by omega, reached⟩

theorem tagRound_ends (tag : Tag) (within : tag.2 ≤ text.utf8ByteSize) :
    Ends (tagRound text tag) (Round.Leads
      (fun next => tag.2 < next.2 ∧ next.2 ≤ text.utf8ByteSize)
      (fun result => tag.2 ≤ result.1.2 ∧ result.1.2 ≤ text.utf8ByteSize)) := by
  obtain ⟨attributes, pos⟩ := tag
  refine (skip_ends isSpace within).bind fun start ⟨forward, startWithin⟩ => ?_
  split
  · exact ⟨forward, startWithin⟩
  · next mark =>
    have := letter_lt mark
    exact ⟨Nat.le_succ_of_le forward, this⟩
  · next mark =>
    have := letter_lt mark
    split
    · next ended =>
      have := letter_lt ended
      exact ⟨Nat.le_add_right_of_le forward, this⟩
    · exact ⟨Nat.lt_succ_of_le forward, this⟩
  · next c _ _ mark =>
    have here := letter_lt mark
    refine (name_ends startWithin).bind ?_
    rintro ⟨_ | found, stop⟩ ⟨_, inside, named⟩
    · exact ⟨Nat.lt_succ_of_le forward, here⟩
    · have moved := named (Option.some_ne_none found)
      refine (attributeValue_ends inside).bind fun (value, quote, last) ⟨further, reached⟩ => ?_
      exact ⟨by omega, reached⟩

theorem tagEnd_ends (within : pos ≤ text.utf8ByteSize) :
    Ends (tagEnd text pos) fun (tag, _) => pos ≤ tag.2 ∧ tag.2 ≤ text.utf8ByteSize := by
  refine Ends.loop Prod.snd (P := fun (tag : Tag) (result : Tag × Bool) =>
    tag.2 ≤ result.1.2 ∧ result.1.2 ≤ text.utf8ByteSize) ?_ ?_ within
  · intro tag next result forward reached
    exact ⟨Nat.le_trans (Nat.le_of_lt forward) reached.1, reached.2⟩
  · exact tagRound_ends

structure Reading.Forward (text : String) (pos : Nat) (r : Reading) : Prop where
  within : r.pos ≤ text.utf8ByteSize
  back : pos ≤ r.pos
  forward : r.more = true → pos < r.pos

theorem Reading.Forward.of_lt {r : Reading} (within : r.pos ≤ text.utf8ByteSize)
    (forward : pos < r.pos) : r.Forward text pos :=
  ⟨within, Nat.le_of_lt forward, fun _ => forward⟩

theorem plain_ends (within : pos < text.utf8ByteSize) (start : letter? text pos ≠ some '<') :
    Ends (plain text pos) (Reading.Forward text pos) := by
  refine (seek_ends '<' (by decide) (Nat.le_of_lt within)).bind fun found bound => ?_
  refine (decoded_ends pos _).bind fun body _ => ?_
  cases found with
  | none => exact .of_lt (Nat.le_refl _) within
  | some stop =>
    obtain ⟨forward, mark⟩ := bound stop rfl
    refine .of_lt (Nat.le_of_lt (letter_lt mark)) (Nat.lt_of_le_of_ne forward ?_)
    rintro rfl
    exact start mark

theorem comment_ends : Ends (comment text pos) (Reading.Forward text pos) := by
  refine (slice_ends _ _).bind fun body ⟨within, _, size⟩ => ?_
  split
  · next stop found =>
    have inside : stop + 3 ≤ body.utf8ByteSize := find_within (by decide) found
    exact (slice_ends 0 stop).bind fun _ _ => .of_lt (by simp only; omega) (by simp only; omega)
  · exact ⟨Nat.le_refl _, Nat.le_of_add_right_le within, Bool.noConfusion⟩

theorem doctype_ends (start : pos ≤ text.utf8ByteSize) :
    Ends (doctype text pos) (Reading.Forward text pos) := by
  refine (slice_ends _ _).bind fun body ⟨within, _, size⟩ => ?_
  split
  · next stop found =>
    have inside : stop + 1 ≤ body.utf8ByteSize := find_within (by decide) found
    exact (slice_ends 0 stop).bind fun _ _ => .of_lt (by simp only; omega) (by simp only; omega)
  · exact ⟨start, Nat.le_refl pos, Bool.noConfusion⟩

theorem endTag_ends (within : pos + 2 ≤ text.utf8ByteSize) :
    Ends (endTag text pos) (Reading.Forward text pos) := by
  refine (name_ends within).bind fun (name, stop) ⟨forward, inside, _⟩ => ?_
  refine (seek_ends '>' (by decide) inside).bind fun found bound => ?_
  cases found with
  | none => exact .of_lt (Nat.le_refl _) (Nat.lt_of_succ_lt within)
  | some last =>
    obtain ⟨further, mark⟩ := bound last rfl
    have := letter_lt mark
    exact .of_lt this (Nat.lt_succ_of_le (by omega))

theorem startsAt_within {word : String} (start : pos ≤ text.utf8ByteSize)
    (begins : startsAt text word pos = true) : pos + word.utf8ByteSize ≤ text.utf8ByteSize := by
  rw [startsAt, beq_iff_eq] at begins
  have size := congrArg List.length begins
  rw [foldedBytes, List.length_map, List.length_map, List.length_take, List.length_drop,
    length_utf8Bytes] at size
  change _ = (utf8Bytes word).length at size
  rw [length_utf8Bytes] at size
  omega

theorem closeAt_ends (closing : String) (inside : pos < text.utf8ByteSize) :
    Ends (closeAt text closing pos) (Round.Leads (· = pos + 1)
      (fun found => ∀ tag ∈ found, tag.2 ≤ text.utf8ByteSize)) := by
  unfold closeAt
  split
  · next begins =>
    have whole := startsAt_within (Nat.le_of_lt inside) begins
    refine (skip_ends isSpace whole).bind fun stop _ => ?_
    split
    · next ended =>
      rintro _ ⟨⟩
      exact letter_lt ended
    · rfl
  · rfl

theorem closeRound_ends (closing : String) (within : pos ≤ text.utf8ByteSize) :
    Ends (closeRound text closing pos) (Round.Leads
      (fun next => pos < next ∧ next ≤ text.utf8ByteSize)
      (fun found => ∀ tag ∈ found, tag.2 ≤ text.utf8ByteSize)) := by
  unfold closeRound
  split
  · exact fun _ none => nomatch none
  · refine (seek_ends '<' (by decide) within).bind fun found bound => ?_
    cases found with
    | none => exact fun _ none => nomatch none
    | some start =>
      obtain ⟨forward, mark⟩ := bound start rfl
      have inside := letter_lt mark
      refine (closeAt_ends closing inside).mono ?_
      rintro (next | found) outcome
      · obtain rfl : next = start + 1 := outcome
        exact ⟨Nat.lt_succ_of_le forward, inside⟩
      · exact outcome

theorem closeTag_ends (closing : String) : Ends (closeTag? text closing) fun result =>
    ∀ tag ∈ result, tag.2 ≤ text.utf8ByteSize :=
  Ends.loop id
    (P := fun _ (result : Option (Nat × Nat)) => ∀ tag ∈ result, tag.2 ≤ text.utf8ByteSize)
    (fun _ _ _ _ last => last) (fun _ => closeRound_ends closing) (Nat.zero_le _)

theorem rawtext_ends (tag closing : String) : Ends (rawtext text tag closing pos)
    fun r => pos ≤ r.pos ∧ r.pos ≤ text.utf8ByteSize := by
  refine (slice_ends _ _).bind fun body ⟨within, _, size⟩ => ?_
  refine (closeTag_ends closing).bind fun found bound => ?_
  cases found with
  | none =>
    simp only
    split <;> exact ⟨within, Nat.le_refl _⟩
  | some place =>
    obtain ⟨start, stop⟩ := place
    have inside := bound _ rfl
    have reached : pos ≤ pos + stop ∧ pos + stop ≤ text.utf8ByteSize := by
      simp only at inside
      omega
    simp only
    split
    · exact reached
    · exact (slice_ends 0 start).bind fun _ _ => reached

theorem startTag_ends (within : pos < text.utf8ByteSize) :
    Ends (startTag text pos) (Reading.Forward text pos) := by
  refine (name_ends within).bind ?_
  rintro ⟨_ | tag, stop⟩ ⟨forward, inside, _⟩
  · exact .of_lt inside forward
  · refine (tagEnd_ends inside).bind ?_
    rintro ⟨⟨attributes, last⟩, slashed⟩ ⟨further, reached⟩
    have whole : pos < last := Nat.lt_of_lt_of_le forward further
    simp only
    split
    · exact .of_lt reached whole
    · split
      · exact .of_lt reached whole
      · refine (rawtext_ends tag _).bind fun content ⟨behind, ended⟩ => ?_
        exact .of_lt ended (Nat.lt_of_lt_of_le whole behind)

theorem construct_ends (within : pos < text.utf8ByteSize) :
    Ends (construct text pos) (Reading.Forward text pos) := by
  unfold construct
  split
  · next start => exact plain_ends within start
  · refine (slice_ends pos _).bind fun _ _ => ?_
    split
    · exact comment_ends
    · split
      · exact doctype_ends (Nat.le_of_lt within)
      · split
        · next slash => exact endTag_ends (letter_lt slash)
        · exact startTag_ends within

theorem step_ends {c : Cursor} (within : c.pos ≤ text.utf8ByteSize) :
    Ends (step text c) fun after => after.pos ≤ text.utf8ByteSize ∧
      (after.finished = false → c.pos < after.pos) := by
  unfold step
  split
  · exact ⟨within, fun going => Bool.noConfusion going⟩
  · next inside =>
    refine (construct_ends (Nat.lt_of_not_le inside)).bind fun r reached => ?_
    exact ⟨reached.within, fun going => reached.forward (by simpa using going)⟩

theorem Reached.within {c : Cursor} (reached : Reached text c) : c.pos ≤ text.utf8ByteSize := by
  induction reached with
  | start => exact Nat.zero_le _
  | again _ round ih =>
    have ends := step_ends ih
    rw [(step_of_again round).2] at ends
    exact ends.1
  | done _ round ih =>
    obtain ⟨pending, rfl⟩ := frame_of_done round
    exact ih

theorem Reached.step_spec {c : Cursor} (reached : Reached text c) (going : c.finished = false) :
    ∃ after, step text c = .ok after ∧ after.pos ≤ text.utf8ByteSize ∧
      (after.finished = false → c.pos < after.pos) := by
  obtain ⟨after, stepped⟩ := reached.step_ok going
  have ends := step_ends reached.within
  rw [stepped] at ends
  exact ⟨after, stepped, ends⟩

end Cursor

namespace Scan

theorem length_of_rawtext {name : List Char} (long : name ≠ [])
    (named : ∀ c ∈ name, isNameChar c = true)
    (raw : (Keyword.ofTag (foldCase (String.ofList name))).isRawtext = true) : 5 ≤ name.length := by
  have same : name.length = (foldCase (String.ofList name)).toList.length := by
    rw [toList_foldCase, String.toList_ofList, List.length_map]
  rw [same]
  rcases (isName_foldCase long named).rawtext_cases raw with script | style
  · simp [script]
  · simp [style]

theorem startTag_count (cs : List Char) :
    (startTag cs).tokens.length + (startTag cs).rest.length ≤ cs.length + 1 := by
  have whole := congrArg List.length (List.takeWhile_append_dropWhile (p := isNameChar) (l := cs))
  have named : ∀ c ∈ cs.takeWhile isNameChar, isNameChar c = true :=
    fun c member => List.mem_takeWhile_imp member
  have tail := attributes_le (cs.dropWhile isNameChar)
  rw [List.length_append] at whole
  unfold startTag
  generalize cs.takeWhile isNameChar = name at whole named ⊢
  generalize attributes (cs.dropWhile isNameChar) = read at tail ⊢
  obtain ⟨as, slashed, rest⟩ := read
  simp only at tail ⊢
  split
  · simp only [List.length_singleton]
    omega
  · next some =>
    have long : name ≠ [] := by simpa using some
    have size := List.length_pos_of_ne_nil long
    split
    · next isRaw =>
      have five := length_of_rawtext long named isRaw
      have less := rawtext_le (foldCase (String.ofList name)) rest
      obtain ⟨body, tokens, _⟩ := rawtext_tokens (foldCase (String.ofList name)) rest
      have few : (rawTokens (foldCase (String.ofList name)) body).length ≤ 2 := by
        unfold rawTokens
        split <;> simp
      simp only [tokens, List.length_cons]
      omega
    · simp only [List.length_singleton]
      omega

end Scan

theorem scan_count {cs : List Char} (long : cs ≠ []) :
    (scan cs).tokens.length + (scan cs).rest.length ≤ cs.length := by
  have shorter := scan_shorter long
  suffices (scan cs).tokens.length ≤ 1 ∨ ∃ tag, cs = '<' :: tag ∧ scan cs = Scan.startTag tag by
    rcases this with single | ⟨tag, whole, made⟩
    · omega
    · rw [made]
      simpa [whole] using Scan.startTag_count tag
  clear shorter
  unfold scan
  split
  · unfold Scan.comment
    split <;> exact .inl (Nat.le_refl 1)
  · unfold Scan.endTag
    simp only
    split
    · exact .inl (Nat.zero_le 1)
    · exact .inl (Nat.le_refl 1)
  · split
    · unfold Scan.doctype
      split
      · exact .inl (Nat.le_refl 1)
      · exact .inl (Nat.zero_le 1)
    · exact .inr ⟨_, rfl, rfl⟩
  · exact .inr ⟨_, rfl, rfl⟩
  · exact .inl (Nat.le_refl 1)

namespace Tokenizer

variable {t after : Tokenizer} {token : Token AtomId}

def left (t : Tokenizer) : Nat :=
  t.pending.length + if t.finished then 0 else t.rest.length

theorem step_left (going : t.finished = false) : t.step.left ≤ t.left := by
  unfold step
  split
  · simp [left, going]
  · next long =>
    have count := scan_count long
    have tokens := congrArg List.length
      (AtomTable.internTokens_spec (scan t.rest).tokens t.atoms).2.2
    rw [List.length_map, List.length_map] at tokens
    simp only [left, going, List.length_append, Bool.false_eq_true, ↓reduceIte]
    split <;> omega

theorem next_left (found : t.next = (some token, after)) : after.left < t.left := by
  fun_induction next t with
  | case1 t token' pending held =>
    cases found
    simp [left, held]
  | case2 => cases found
  | case3 t _ more ih =>
    exact Nat.lt_of_lt_of_le (ih found) (step_left (Bool.eq_false_iff.mpr more))

theorem run_length_le (t : Tokenizer) : t.run.1.length ≤ t.left := by
  induction size : t.left using Nat.strong_induction_on generalizing t with
  | h n ih =>
    cases found : t.next with
    | mk token after =>
      cases token with
      | none =>
        rw [run_none found]
        exact Nat.zero_le n
      | some token =>
        have fewer := next_left found
        have others := ih after.left (size ▸ fewer) after rfl
        rw [run_some found, List.length_cons]
        omega

end Tokenizer

theorem length_tokenize_le (text : String) : (tokenize text).1.length ≤ text.utf8ByteSize := by
  have tokens := (Tokenizer.ofText text).run_length_le
  have bytes := length_le_width text.toList
  rw [utf8ByteSize_eq]
  exact Nat.le_trans tokens (by simpa [Tokenizer.left, Tokenizer.ofText] using bytes)

namespace Cursor

structure Progress (text : String) : Prop where
  /-- From every place before the end, also inside a character, no loop is endless, and a construct
  ends behind its beginning, but not behind the end of the text. -/
  constructs : ∀ pos < text.utf8ByteSize, Ends (construct text pos) (Reading.Forward text pos)
  /-- The walk over a tag ends, wherever it is begun. -/
  tags : ∀ pos ≤ text.utf8ByteSize, Ends (tagEnd text pos) fun (tag, _) =>
    pos ≤ tag.2 ∧ tag.2 ≤ text.utf8ByteSize
  /-- The search for a close tag ends, whatever tag it is. -/
  searches : ∀ closing, Ends (closeTag? text closing) fun found =>
    ∀ tag ∈ found, tag.2 ≤ text.utf8ByteSize
  /-- Whichever cursor has come up, a step on it that does not finish leads further. -/
  steps : ∀ c, Reached text c → c.finished = false → ∃ after, step text c = .ok after ∧
    after.pos ≤ text.utf8ByteSize ∧ (after.finished = false → c.pos < after.pos)
  /-- Each time the reader is asked it gives the next token. -/
  answers : ∀ n, answer text n = .ok (tokenize text).1[n]?
  few : (tokenize text).1.length ≤ text.utf8ByteSize
  /-- So it has no more to give once it has been asked as often as there are bytes. -/
  ended : ∀ n, text.utf8ByteSize ≤ n → answer text n = .ok none

/-- Every text is read to its end, in steps that lead forward, with no more tokens than bytes. -/
theorem reading_progresses (text : String) : Progress text where
  constructs _ within := construct_ends within
  tags _ within := tagEnd_ends within
  searches := closeTag_ends
  steps _ reached going := reached.step_spec going
  answers := answer_tokenize text
  few := length_tokenize_le text
  ended n enough := by
    rw [answer_tokenize, List.getElem?_eq_none (Nat.le_trans (length_tokenize_le text) enough)]

end Cursor

end PageFilters
