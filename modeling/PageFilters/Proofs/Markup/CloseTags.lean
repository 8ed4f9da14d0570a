import PageFilters.Proofs.Markup.Search

/-!
Raw text ends at the first close tag of its element. The search for it leaps from one `<` to the
next, and gives up near the end of the text; no close tag is missed, and none is found too early.
-/

namespace PageFilters

namespace Cursor

variable {text closing : String} {pos start stop : Nat}

/-- Whether a close tag stands between two places: it begins as `closing`, in any letter case, and
goes on with white space, if there is any, and `>`. -/
def IsCloseTag (text closing : String) (start stop : Nat) : Prop :=
  ∃ word spaces after,
    (utf8Bytes text).drop start = word ++ (spaces ++ '>'.toUInt8 :: after) ∧
      word.map foldByte = (utf8Bytes closing).map foldByte ∧
      (∀ b ∈ spaces, isSpace (letter b) = true) ∧
      stop = start + word.length + spaces.length + 1

theorem letter_eq_iff {b : UInt8} {c : Char} (ascii : c.toNat < 128) :
    letter b = c ↔ b = c.toUInt8 := by
  constructor
  · rintro rfl
    rw [toNat_letter] at ascii
    rw [← UInt8.toNat_inj]
    change b.toNat = (letter b).toNat % 256
    rw [toNat_letter]
    omega
  · rintro rfl
    exact letter_toUInt8 ascii

theorem letter_afterRun (text : String) (p : UInt8 → Bool) (pos : Nat) :
    letter? text (pos + (((utf8Bytes text).drop pos).takeWhile p).length) =
      (((utf8Bytes text).drop pos).dropWhile p).head?.map letter := by
  have run := List.takeWhile_append_dropWhile (p := p) (l := (utf8Bytes text).drop pos)
  generalize ((utf8Bytes text).drop pos).takeWhile p = front at run ⊢
  generalize ((utf8Bytes text).drop pos).dropWhile p = rest at run ⊢
  rw [letter?, ← List.getElem?_drop, ← run, List.getElem?_append_right (Nat.le_refl _),
    Nat.sub_self, ← List.head?_eq_getElem?]

def behindSpaces (text word : String) (start : Nat) : Nat :=
  start + word.utf8ByteSize + (((utf8Bytes text).drop (start + word.utf8ByteSize)).takeWhile
    fun b => isSpace (letter b)).length

theorem isCloseTag_iff : IsCloseTag text closing start stop ↔
    startsAt text closing start = true ∧
      letter? text (behindSpaces text closing start) = some '>' ∧
      stop = behindSpaces text closing start + 1 := by
  rw [behindSpaces, letter_afterRun, startsAt, beq_iff_eq]
  constructor
  · rintro ⟨word, spaces, after, whole, same, blank, rfl⟩
    have size := congrArg List.length same
    rw [List.length_map, List.length_map, length_utf8Bytes] at size
    have moved : (utf8Bytes text).drop (start + closing.utf8ByteSize) =
        spaces ++ '>'.toUInt8 :: after := by
      rw [← List.drop_drop, whole, ← size, List.drop_left]
    have solid : ¬ isSpace (letter '>'.toUInt8) = true := by decide
    rw [moved, List.takeWhile_append_of_pos blank,
      List.takeWhile_cons_of_neg (p := fun b => isSpace (letter b)) solid,
      List.dropWhile_append_of_pos blank,
      List.dropWhile_cons_of_neg (p := fun b => isSpace (letter b)) solid, whole, ← size,
      List.take_left, List.append_nil]
    exact ⟨same, congrArg some (letter_toUInt8 (by decide)), rfl⟩
  · rintro ⟨begins, ended, rfl⟩
    obtain ⟨b, head, mark⟩ := Option.map_eq_some_iff.mp ended
    rw [letter_eq_iff (by decide)] at mark
    obtain ⟨after, rest⟩ := List.head?_eq_some_iff.mp head
    have size := congrArg List.length begins
    rw [List.length_map, length_foldedBytes] at size
    refine ⟨((utf8Bytes text).drop start).take closing.utf8ByteSize,
      ((utf8Bytes text).drop (start + closing.utf8ByteSize)).takeWhile
        fun b => isSpace (letter b), after, ?_, begins, fun b => List.mem_takeWhile_imp, ?_⟩
    · rw [← mark, ← rest, List.takeWhile_append_dropWhile, ← List.drop_drop,
        List.take_append_drop]
    · rw [size]

theorem IsCloseTag.stop_eq {other : Nat} (tag : IsCloseTag text closing start stop)
    (same : IsCloseTag text closing start other) : stop = other := by
  rw [isCloseTag_iff] at tag same
  exact tag.2.2.trans same.2.2.symm

theorem closeAt_ok (closing : String) (within : start ≤ text.utf8ByteSize) :
    (∃ stop, closeAt text closing start = .ok (.done (some (start, stop))) ∧
      IsCloseTag text closing start stop) ∨
    (closeAt text closing start = .ok (.again (start + 1)) ∧
      ∀ stop, ¬ IsCloseTag text closing start stop) := by
  simp only [isCloseTag_iff]
  unfold closeAt
  by_cases begins : startsAt text closing start = true
  · have inside := startsAt_within within begins
    have skipped : skip text isSpace (start + closing.utf8ByteSize) =
        .ok (behindSpaces text closing start) := skip_eq isSpace inside
    rw [if_pos begins, skipped, ok_bind]
    by_cases ended : letter? text (behindSpaces text closing start) = some '>'
    · rw [if_pos ended]
      exact .inl ⟨_, rfl, begins, ended, rfl⟩
    · rw [if_neg ended]
      exact .inr ⟨rfl, fun stop tag => ended tag.2.1⟩
  · rw [if_neg begins]
    exact .inr ⟨rfl, fun stop tag => begins tag.1⟩

/-- Whether `found` is the first close tag from `pos` on; `none` when there is none. -/
structure FirstFrom (text closing : String) (pos : Nat) (found : Option (Nat × Nat)) : Prop where
  tag : ∀ place ∈ found, pos ≤ place.1 ∧ IsCloseTag text closing place.1 place.2
  first : ∀ start ≥ pos, ∀ stop, IsCloseTag text closing start stop →
    ∃ place ∈ found, place.1 ≤ start

theorem FirstFrom.absent
    (missing : ∀ start ≥ pos, ∀ stop, ¬ IsCloseTag text closing start stop) :
    FirstFrom text closing pos none :=
  ⟨fun _ found => (nomatch found),
    fun start later stop tag => absurd tag (missing start later stop)⟩

theorem FirstFrom.back {next : Nat} {found : Option (Nat × Nat)} (forward : pos ≤ next)
    (leapt : ∀ start ≥ pos, ∀ stop, IsCloseTag text closing start stop → next ≤ start)
    (first : FirstFrom text closing next found) : FirstFrom text closing pos found := by
  refine ⟨fun place member => ?_, fun start later stop tag => ?_⟩
  · obtain ⟨further, tag⟩ := first.tag place member
    exact ⟨Nat.le_trans forward further, tag⟩
  · exact first.first start (leapt start later stop tag) stop tag

theorem closeRound_ok {others : List UInt8} (spelled : utf8Bytes closing = '<'.toUInt8 :: others)
    (within : pos ≤ text.utf8ByteSize) :
    (∃ found, closeRound text closing pos = .ok (.done found) ∧
      FirstFrom text closing pos found) ∨
    (∃ next, closeRound text closing pos = .ok (.again next) ∧ pos < next ∧
      next ≤ text.utf8ByteSize ∧
      ∀ found, FirstFrom text closing next found → FirstFrom text closing pos found) := by
  unfold closeRound
  by_cases short : text.utf8ByteSize < pos + closing.utf8ByteSize
  · refine .inl ⟨none, by rw [if_pos short]; rfl, .absent fun start later stop tag => ?_⟩
    have := startsAt_inside spelled (isCloseTag_iff.mp tag).1
    omega
  · obtain ⟨found, sought, leap⟩ := seek_first '<' within
    have only : ∀ b, foldByte b = foldByte '<'.toUInt8 → (b == '<'.toUInt8) = true := by
      intro b same
      rw [beq_iff_eq]
      exact (foldByte_eq_iff.mp same).elim id id
    have reached : ∀ start ≥ pos, ∀ stop, IsCloseTag text closing start stop →
        ∃ s ∈ found, s ≤ start :=
      fun start later stop tag => leap.reaches spelled only later (isCloseTag_iff.mp tag).1
    rw [if_neg short, sought, ok_bind]
    cases found with
    | none =>
      refine .inl ⟨none, rfl, .absent fun start later stop tag => ?_⟩
      obtain ⟨_, none, _⟩ := reached start later stop tag
      cases none
    | some start =>
      obtain ⟨forward, inside⟩ := leap.inside start rfl
      rcases closeAt_ok closing (Nat.le_of_lt inside) with
        ⟨stop, round, tag⟩ | ⟨round, other⟩
      · refine .inl ⟨some (start, stop), round, ?_, fun s later e here => ?_⟩
        · rintro _ ⟨⟩
          exact ⟨forward, tag⟩
        · obtain ⟨_, ⟨⟩, behind⟩ := reached s later e here
          exact ⟨_, rfl, behind⟩
      · refine .inr ⟨start + 1, round, Nat.lt_succ_of_le forward, inside,
          fun found => .back (Nat.le_succ_of_le forward) fun s later e here => ?_⟩
        obtain ⟨_, ⟨⟩, behind⟩ := reached s later e here
        refine Nat.lt_of_le_of_ne behind ?_
        rintro rfl
        exact other e here

theorem closeTag_ok (text : String) {others : List UInt8}
    (spelled : utf8Bytes closing = '<'.toUInt8 :: others) :
    ∃ found, closeTag? text closing = .ok found ∧ FirstFrom text closing 0 found := by
  have start : id 0 ≤ text.utf8ByteSize := Nat.zero_le _
  exact loop_ok id (P := FirstFrom text closing) (fun _ => closeRound_ok spelled) start

theorem FirstFrom.eq_some_iff {found : Option (Nat × Nat)}
    (first : FirstFrom text closing 0 found) :
    found = some (start, stop) ↔ IsCloseTag text closing start stop ∧
      ∀ earlier < start, ∀ stop, ¬ IsCloseTag text closing earlier stop := by
  constructor
  · rintro rfl
    refine ⟨(first.tag _ rfl).2, fun earlier before stop' tag => ?_⟩
    obtain ⟨_, ⟨⟩, behind⟩ := first.first earlier (Nat.zero_le _) stop' tag
    exact Nat.not_lt.mpr behind before
  · rintro ⟨tag, none⟩
    obtain ⟨place, member, before⟩ := first.first start (Nat.zero_le _) stop tag
    obtain ⟨_, other⟩ := first.tag place member
    have same : place.1 = start := by
      by_contra apart
      exact none place.1 (Nat.lt_of_le_of_ne before apart) place.2 other
    rw [same] at other
    rw [member, tag.stop_eq other, ← same]

theorem FirstFrom.eq_none_iff {found : Option (Nat × Nat)}
    (first : FirstFrom text closing 0 found) :
    found = none ↔ ∀ start stop, ¬ IsCloseTag text closing start stop := by
  constructor
  · rintro rfl start stop tag
    obtain ⟨_, none, _⟩ := first.first start (Nat.zero_le _) stop tag
    cases none
  · intro missing
    cases found with
    | none => rfl
    | some place => exact absurd (first.tag place rfl).2 (missing place.1 place.2)

structure ClosesFirst (text tag closing : String) : Prop where
  found : ∀ start stop, closeTag? text closing = .ok (some (start, stop)) ↔
    IsCloseTag text closing start stop ∧
      ∀ earlier < start, ∀ stop, ¬ IsCloseTag text closing earlier stop
  missing : closeTag? text closing = .ok none ↔ ∀ start stop, ¬ IsCloseTag text closing start stop
  /-- The characters before the close tag, and those behind it, are those that reading by
  characters parts. -/
  parted : closeTag? text closing = .ok ((Scan.cutAtCloseTag tag.toList text.toList).map
    fun cut => (width cut.1, text.utf8ByteSize - width cut.2))

theorem closesFirst_of_spelled (text : String) {tag closing : String}
    (word : closing.toList = '<' :: '/' :: tag.toList) (small : IsSmall closing.toList) :
    ClosesFirst text tag closing := by
  have spelled : utf8Bytes closing = '<'.toUInt8 :: encode ('/' :: tag.toList) := by
    rw [utf8Bytes_eq, word, encode_cons_ascii (by decide)]
  obtain ⟨found, ended, first⟩ := closeTag_ok text spelled
  refine ⟨fun start stop => ?_, ?_, ?_⟩
  · rw [ended, Except.ok.injEq, first.eq_some_iff]
  · rw [ended, Except.ok.injEq, first.eq_none_iff]
  · rcases (Stands.start text).closeTag word small with
      ⟨cut, none⟩ | ⟨before, rest, stop, cut, stands, some⟩
    · rw [cut, none]
      rfl
    · have place : text.utf8ByteSize - width rest = stop := by
        rw [stands.size, Nat.add_sub_cancel]
      rw [cut, some, Option.map_some, place]

/-- The raw text of `script` and `style` ends at the first close tag that there is. -/
theorem first_close_tag (text : String) :
    ClosesFirst text "script" "</script" ∧ ClosesFirst text "style" "</style" :=
  ⟨closesFirst_of_spelled text (by decide) (by simp [IsSmall]),
    closesFirst_of_spelled text (by decide) (by simp [IsSmall])⟩

example : closeTag? "</scr</SCRIPT\n></script>" "</script" = .ok (some (5, 15)) := by decide

end Cursor

end PageFilters
