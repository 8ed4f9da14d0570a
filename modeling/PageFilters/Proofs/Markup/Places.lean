import PageFilters.Proofs.Markup.Bytes

/-!
Places in a text. From a place where characters begin, reading by bytes finds what reading by
characters finds: what is skipped, sought and taken ends at such a place again. Inside a character
only the bytes of that character are met, and none of them is a mark.
-/

namespace PageFilters

namespace Cursor

variable {text : String} {pos : Nat} {cs : List Char}

@[simp] theorem ok_bind {α β : Type} (a : α) (f : α → Except Fault β) :
    (Except.ok a >>= f) = f a :=
  rfl

theorem length_utf8Bytes (text : String) : (utf8Bytes text).length = text.utf8ByteSize := by
  rw [utf8Bytes_eq, utf8ByteSize_eq, width]

theorem utf8Bytes_inj {s t : String} (same : utf8Bytes s = utf8Bytes t) : s = t := by
  rw [← String.toByteArray_inj]
  exact ByteArray.ext (Array.toList_inj.mp same)

theorem slice_eq_ok {start stop : Nat} {piece : String}
    (taken : slice text start stop = .ok piece) : start ≤ stop ∧ stop ≤ text.utf8ByteSize ∧
      utf8Bytes piece = ((utf8Bytes text).drop start).take (stop - start) := by
  unfold slice at taken
  split at taken
  · next sound =>
    cases taken
    refine ⟨sound.1, sound.2.2.le_rawEndPos, ?_⟩
    rw [utf8Bytes, String.toUTF8_eq_toByteArray, String.toByteArray_extract]
    simp [utf8Bytes, List.take_drop, sound.1]
  · cases taken

theorem isValid_iff {text : String} {pos : Nat} : String.Pos.Raw.IsValid text ⟨pos⟩ ↔
    ∃ front rest, text.toList = front ++ rest ∧ pos = width front := by
  rw [String.Pos.Raw.isValid_iff_exists_append]
  constructor
  · rintro ⟨front, rest, rfl, here⟩
    refine ⟨front.toList, rest.toList, String.toList_append, ?_⟩
    rw [← utf8ByteSize_eq]
    exact congrArg String.Pos.Raw.byteIdx here
  · rintro ⟨front, rest, whole, here⟩
    refine ⟨String.ofList front, String.ofList rest, ?_, ?_⟩
    · rw [← String.ofList_append, ← whole, String.ofList_toList]
    · rw [here, ← String.toList_ofList (l := front), ← utf8ByteSize_eq, String.toList_ofList]
      rfl

def Stands (text : String) (pos : Nat) (cs : List Char) : Prop :=
  ∃ front, text.toList = front ++ cs ∧ pos = width front

namespace Stands

theorem start (text : String) : Stands text 0 text.toList :=
  ⟨[], rfl, rfl⟩

theorem isValid (stands : Stands text pos cs) : String.Pos.Raw.IsValid text ⟨pos⟩ := by
  obtain ⟨front, whole, here⟩ := stands
  exact isValid_iff.mpr ⟨front, cs, whole, here⟩

theorem size (stands : Stands text pos cs) : text.utf8ByteSize = pos + width cs := by
  obtain ⟨front, whole, rfl⟩ := stands
  rw [utf8ByteSize_eq, whole, width_append]

theorem le (stands : Stands text pos cs) : pos ≤ text.utf8ByteSize := by
  rw [stands.size]
  exact Nat.le_add_right ..

theorem fuel (stands : Stands text pos cs) : text.utf8ByteSize + 1 - pos = width cs + 1 := by
  rw [stands.size]
  omega

theorem drop (stands : Stands text pos cs) : (utf8Bytes text).drop pos = encode cs := by
  obtain ⟨front, whole, rfl⟩ := stands
  rw [utf8Bytes_eq, whole, encode_append, width, List.drop_left]

theorem move {a b : List Char} (stands : Stands text pos (a ++ b)) :
    Stands text (pos + width a) b := by
  obtain ⟨front, whole, rfl⟩ := stands
  exact ⟨front ++ a, by rw [whole, List.append_assoc], (width_append front a).symm⟩

theorem next {c : Char} (stands : Stands text pos (c :: cs)) :
    Stands text (pos + c.utf8Size) cs := by
  have moved := move (a := [c]) stands
  rwa [width_cons, width_nil, Nat.add_zero] at moved

theorem ascii {c : Char} (stands : Stands text pos (c :: cs)) (ascii : c.toNat < 128) :
    Stands text (pos + 1) cs := by
  have moved := next stands
  rwa [utf8Size_ascii ascii] at moved

theorem stop (stands : Stands text pos cs) : Stands text text.utf8ByteSize [] := by
  rw [stands.size]
  exact move (by rwa [List.append_nil])

theorem within {n : Nat} {ds : List Char} (stands : Stands text pos cs)
    (inner : Stands (String.ofList cs) n ds) : Stands text (pos + n) ds := by
  obtain ⟨front, whole, rfl⟩ := inner
  rw [String.toList_ofList] at whole
  exact move (whole ▸ stands)

theorem lt_of_length {later : Nat} {ds : List Char} (stands : Stands text pos cs)
    (other : Stands text later ds) (shorter : ds.length < cs.length) : pos < later := by
  obtain ⟨front, whole, rfl⟩ := stands
  obtain ⟨longer, same, rfl⟩ := other
  rw [whole, List.append_eq_append_iff] at same
  rcases same with ⟨between, rfl, rfl⟩ | ⟨between, rfl, rfl⟩
  · have some : between ≠ [] := by
      rintro rfl
      exact absurd shorter (by simp)
    have := length_le_width between
    have := List.length_pos_of_ne_nil some
    rw [width_append]
    omega
  · rw [List.length_append] at shorter
    omega

theorem slice {a b : List Char} (stands : Stands text pos (a ++ b)) :
    slice text pos (pos + width a) = .ok (String.ofList a) := by
  have sound := And.intro (Nat.le_add_right pos (width a))
    (And.intro stands.isValid (move stands).isValid)
  have taken : ∃ piece, Cursor.slice text pos (pos + width a) = .ok piece := by
    unfold Cursor.slice
    rw [dif_pos sound]
    exact ⟨_, rfl⟩
  obtain ⟨piece, taken⟩ := taken
  have bytes := (slice_eq_ok taken).2.2
  rw [stands.drop, Nat.add_sub_cancel_left, encode_append, width, List.take_left] at bytes
  rw [taken]
  refine congrArg Except.ok (utf8Bytes_inj ?_)
  rw [bytes, utf8Bytes_eq, String.toList_ofList]

theorem slice_rest (stands : Stands text pos cs) :
    Cursor.slice text pos text.utf8ByteSize = .ok (String.ofList cs) := by
  rw [stands.size]
  exact slice (b := []) (by rwa [List.append_nil])

theorem decoded {a b : List Char} (stands : Stands text pos (a ++ b)) :
    decoded text pos (pos + width a) = .ok (String.ofList (Reference.decode a)) := by
  rw [Cursor.decoded, stands.slice, ok_bind, String.toList_ofList]
  rfl

end Stands

theorem prefix_of_width {front rest longer left : List Char} (same : front ++ rest = longer ++ left)
    (order : width front ≤ width longer) : ∃ between, longer = front ++ between := by
  rcases List.append_eq_append_iff.mp same with ⟨between, split, _⟩ | ⟨between, split, _⟩
  · exact ⟨between, split⟩
  · have long := length_le_width between
    rw [split, width_append] at order
    have none : between = [] := List.length_eq_zero_iff.mp (by omega)
    exact ⟨[], by rw [split, none, List.append_nil, List.append_nil]⟩

theorem slice_iff {start stop : Nat} {piece : String} : Cursor.slice text start stop = .ok piece ↔
    ∃ front rest, text.toList = front ++ piece.toList ++ rest ∧ start = width front ∧
      stop = start + piece.utf8ByteSize := by
  constructor
  · intro taken
    have sound : start ≤ stop ∧ String.Pos.Raw.IsValid text ⟨start⟩ ∧
        String.Pos.Raw.IsValid text ⟨stop⟩ := by
      unfold Cursor.slice at taken
      split at taken
      · next sound => exact sound
      · cases taken
    obtain ⟨order, first, last⟩ := sound
    obtain ⟨front, behind, whole, rfl⟩ := isValid_iff.mp first
    obtain ⟨longer, rest, same, rfl⟩ := isValid_iff.mp last
    obtain ⟨between, rfl⟩ := prefix_of_width (whole.symm.trans same) order
    have stands : Stands text (width front) (between ++ rest) :=
      ⟨front, by rw [same, List.append_assoc], rfl⟩
    rw [width_append, stands.slice] at taken
    cases taken
    rw [String.toList_ofList, utf8ByteSize_eq, String.toList_ofList]
    exact ⟨front, rest, same, rfl, width_append front between⟩
  · rintro ⟨front, rest, whole, rfl, rfl⟩
    have stands : Stands text (width front) (piece.toList ++ rest) :=
      ⟨front, by rw [whole, List.append_assoc], rfl⟩
    rw [utf8ByteSize_eq, stands.slice, String.ofList_toList]

example : Cursor.slice "\u00e9" 1 2 = .error (.slice 1 2) := by decide

theorem not_isValid_inside {front rest : List Char} {c : Char}
    (whole : text.toList = front ++ c :: rest) {i : Nat} (some : 0 < i) (within : i < c.utf8Size) :
    ¬ String.Pos.Raw.IsValid text ⟨width front + i⟩ := by
  intro valid
  obtain ⟨longer, left, same, place⟩ := isValid_iff.mp valid
  obtain ⟨between, rfl⟩ := prefix_of_width (whole.symm.trans same) (by omega)
  rw [width_append] at place
  rw [whole, List.append_assoc, List.append_cancel_left_eq] at same
  cases between with
  | nil =>
    rw [width_nil] at place
    omega
  | cons d between =>
    obtain ⟨rfl, _⟩ := List.cons.inj same
    rw [width_cons] at place
    omega

namespace Stands

theorem inside {c : Char} (stands : Stands text pos (c :: cs)) {i : Nat} (within : i < c.utf8Size) :
    ∃ b ∈ String.utf8EncodeChar c, letter? text (pos + i) = some (letter b) := by
  rw [← String.length_utf8EncodeChar] at within
  refine ⟨(String.utf8EncodeChar c)[i], List.getElem_mem within, ?_⟩
  rw [letter?, ← List.getElem?_drop, stands.drop, encode_cons, List.getElem?_append_left within,
    List.getElem?_eq_getElem within]
  rfl

theorem letter_nil (stands : Stands text pos []) : letter? text pos = none := by
  rw [letter?, ← List.head?_drop, stands.drop]
  rfl

theorem letter_ascii {c : Char} (stands : Stands text pos (c :: cs)) (ascii : c.toNat < 128) :
    letter? text pos = some c := by
  rw [letter?, ← List.head?_drop, stands.drop, encode_cons_ascii ascii]
  exact congrArg some (letter_toUInt8 ascii)

theorem letter_high {c : Char} (stands : Stands text pos (c :: cs)) (high : 128 ≤ c.toNat) {i : Nat}
    (within : i < c.utf8Size) : ∃ d, letter? text (pos + i) = some d ∧ 128 ≤ d.toNat := by
  obtain ⟨b, member, found⟩ := stands.inside within
  exact ⟨letter b, found, high_of_mem high b member⟩

theorem letter_iff (stands : Stands text pos cs) (mark : Char) (ascii : mark.toNat < 128) :
    letter? text pos = some mark ↔ cs.head? = some mark := by
  cases cs with
  | nil => simp [stands.letter_nil]
  | cons c cs =>
    by_cases small : c.toNat < 128
    · rw [stands.letter_ascii small, List.head?_cons]
    · obtain ⟨d, found, high⟩ := stands.letter_high (i := 0) (by omega) c.utf8Size_pos
      rw [Nat.add_zero] at found
      rw [found, List.head?_cons, Option.some.injEq, Option.some.injEq]
      constructor
      · rintro rfl
        omega
      · rintro rfl
        exact absurd ascii small

end Stands

theorem rounds_again {σ ρ : Type} {round : σ → Except Fault (Round σ ρ)} {s next : σ}
    (again : round s = .ok (.again next)) (n : Nat) :
    rounds round (n + 1) s = rounds round n next := by
  rw [rounds, again, ok_bind]

theorem rounds_done {σ ρ : Type} {round : σ → Except Fault (Round σ ρ)} {s : σ} {result : ρ}
    (done : round s = .ok (.done result)) (n : Nat) : rounds round (n + 1) s = .ok result := by
  rw [rounds, done, ok_bind]
  rfl

theorem advance_stop {goes : Nat → Bool} (stops : goes pos = false)
    (within : pos ≤ text.utf8ByteSize) : advance text goes pos = .ok pos := by
  rw [advance, loop, id_eq, Nat.succ_sub within]
  exact rounds_done (by rw [stops]; rfl) _

theorem advance_on {goes : Nat → Bool} (on : goes pos = true) (inside : pos < text.utf8ByteSize) :
    advance text goes pos = advance text goes (pos + 1) := by
  have fuel : text.utf8ByteSize + 1 - pos = text.utf8ByteSize + 1 - (pos + 1) + 1 := by omega
  have again : (return if goes pos then .again (pos + 1) else .done pos :
      Except Fault (Round Nat Nat)) = .ok (.again (pos + 1)) := by
    rw [on]
    rfl
  rw [advance, loop, id_eq, fuel, rounds_again again]
  rfl

theorem advance_eq {goes : Nat → Bool} {n : Nat} (on : ∀ i < n, goes (pos + i) = true)
    (stops : goes (pos + n) = false) (within : pos + n ≤ text.utf8ByteSize) :
    advance text goes pos = .ok (pos + n) := by
  induction n generalizing pos with
  | zero => exact advance_stop stops within
  | succ n ih =>
    have here : goes pos = true := on 0 (Nat.succ_pos n)
    have inside : pos < text.utf8ByteSize := by omega
    have place : pos + (n + 1) = pos + 1 + n := (Nat.add_right_comm pos 1 n).symm
    rw [advance_on here inside, place]
    rw [place] at stops within
    refine ih (fun i less => ?_) stops within
    rw [Nat.add_right_comm]
    exact on (i + 1) (Nat.succ_lt_succ less)

theorem any_letter (p : Char → Bool) (i : Nat) : (letter? text (pos + i)).any p =
    (((utf8Bytes text).drop pos)[i]?).any (fun b => p (letter b)) := by
  rw [letter?, ← List.getElem?_drop, Option.any_map]

theorem skip_eq (p : Char → Bool) (within : pos ≤ text.utf8ByteSize) :
    skip text p pos = .ok
      (pos + (((utf8Bytes text).drop pos).takeWhile (fun b => p (letter b))).length) := by
  have run := List.takeWhile_append_dropWhile
    (p := fun b => p (letter b)) (l := (utf8Bytes text).drop pos)
  have first := List.head?_dropWhile_not (fun b => p (letter b)) ((utf8Bytes text).drop pos)
  have all := List.all_takeWhile (p := fun b => p (letter b)) (l := (utf8Bytes text).drop pos)
  have size := congrArg List.length run
  rw [List.length_append, List.length_drop, length_utf8Bytes] at size
  generalize ((utf8Bytes text).drop pos).takeWhile (fun b => p (letter b)) = before at *
  refine advance_eq (fun i less => ?_) ?_ (by omega)
  · rw [any_letter, ← run, List.getElem?_append_left less, List.getElem?_eq_getElem less]
    exact List.all_eq_true.mp all _ (List.getElem_mem less)
  · rw [any_letter, ← run, List.getElem?_append_right (Nat.le_refl _), Nat.sub_self,
      ← List.head?_eq_getElem?]
    cases found : (((utf8Bytes text).drop pos).dropWhile (fun b => p (letter b))).head? with
    | none => rfl
    | some b =>
      rw [found] at first
      simpa using first

namespace Stands

theorem skip (stands : Stands text pos cs) {p : Char → Bool} {d : Bool} (beyond : Beyond p d) :
    skip text p pos = .ok (pos + width (cs.takeWhile p)) := by
  rw [skip_eq p stands.le, stands.drop, takeWhile_encode beyond, width]

theorem parted (stands : Stands text pos cs) (p : Char → Bool) :
    Stands text pos (cs.takeWhile p ++ cs.dropWhile p) := by
  rwa [List.takeWhile_append_dropWhile]

theorem afterWhile (stands : Stands text pos cs) (p : Char → Bool) :
    Stands text (pos + width (cs.takeWhile p)) (cs.dropWhile p) :=
  (stands.parted p).move

theorem seek (stands : Stands text pos cs) (mark : Char) (ascii : mark.toNat < 128) :
    (∃ before rest, cs = before ++ mark :: rest ∧ mark ∉ before ∧
      Stands text (pos + width before) (mark :: rest) ∧
      seek text mark pos = .ok (some (pos + width before))) ∨
    (mark ∉ cs ∧ seek text mark pos = .ok none) := by
  have found := find_encode [mark] (by simp) (by simpa using ascii) cs
  rw [encode_cons_ascii ascii, encode_nil] at found
  have sought : Cursor.seek text mark pos =
      .ok (((Scan.cutAt (Scan.after? [mark]) cs).map fun cut => width cut.1).map (pos + ·)) := by
    rw [Cursor.seek, Cursor.ahead, if_pos stands.le, ← found, ← stands.drop]
    rfl
  rw [sought]
  cases cut : Scan.cutAt (Scan.after? [mark]) cs with
  | none =>
    refine .inr ⟨fun member => ?_, rfl⟩
    obtain ⟨before, rest, split⟩ := List.append_of_mem member
    exact unclosed_mark_iff.mp (Scan.cutAt_eq_none cut) ⟨before, rest, by simp [split]⟩
  | some parts =>
    obtain ⟨before, rest⟩ := parts
    obtain ⟨tail, whole, closed, _⟩ := Scan.cutAt_eq_some cut
    obtain rfl := Scan.after_eq_some.mp closed
    have clear := Scan.cut_mark (List.cons_ne_nil _ _) cut
    refine .inl ⟨before, rest, whole, fun member => clear ?_, (whole ▸ stands).move, rfl⟩
    obtain ⟨front, behind, split⟩ := List.append_of_mem member
    exact ⟨front, behind, by simp [split]⟩

theorem seek_end (stands : Stands text pos cs) (mark : Char) (ascii : mark.toNat < 128) :
    ∃ found, Cursor.seek text mark pos = .ok found ∧
      found.getD text.utf8ByteSize = pos + width (cs.takeWhile (· != mark)) ∧
      min (found.getD text.utf8ByteSize + 1) text.utf8ByteSize =
        (found.map (· + 1)).getD text.utf8ByteSize ∧
      Stands text ((found.map (· + 1)).getD text.utf8ByteSize) (cs.dropWhile (· != mark)).tail := by
  have others : ∀ l : List Char, mark ∉ l → ∀ c ∈ l, (c != mark) = true := by
    intro l absent c member
    rw [bne_iff_ne]
    rintro rfl
    exact absent member
  rcases stands.seek mark ascii with ⟨before, rest, whole, clear, after, found⟩ | ⟨absent, found⟩
  · have behind := after.ascii ascii
    have all := others before clear
    refine ⟨_, found, ?_, Nat.min_eq_left behind.le, ?_⟩
    · rw [whole, List.takeWhile_append_of_pos all]
      simp
    · rw [whole, List.dropWhile_append_of_pos all]
      simpa using behind
  · have all := others cs absent
    refine ⟨none, found, ?_, Nat.min_eq_right (Nat.le_succ _), ?_⟩
    · rw [List.takeWhile_eq_self_iff.mpr all, ← stands.size]
      rfl
    · rw [List.dropWhile_eq_nil_iff.mpr all]
      exact stands.stop

end Stands

namespace Stands

theorem name (stands : Stands text pos cs) : name text pos = .ok
    (if cs.takeWhile Scan.isNameChar = [] then none
      else some (foldCase (String.ofList (cs.takeWhile Scan.isNameChar))),
      pos + width (cs.takeWhile Scan.isNameChar)) := by
  have taken := (stands.parted Scan.isNameChar).slice
  rw [Cursor.name, stands.skip beyond_isNameChar, ok_bind]
  by_cases empty : cs.takeWhile Scan.isNameChar = []
  · rw [empty, if_pos rfl, if_pos (by simp)]
    rfl
  · have long := length_le_width (cs.takeWhile Scan.isNameChar)
    have some := List.length_pos_of_ne_nil empty
    rw [if_neg (by omega), if_neg empty, taken]
    rfl

theorem valueGoes_ascii {c : Char} (stands : Stands text pos (c :: cs)) (ascii : c.toNat < 128) :
    valueGoes text pos = !(isSpace c || c == '>' || (c == '/' && cs.head? == some '>')) := by
  have next : (letter? text (pos + 1) == some '>') = (cs.head? == some '>') := by
    rw [Bool.eq_iff_iff, beq_iff_eq, beq_iff_eq]
    exact (stands.ascii ascii).letter_iff '>' (by decide)
  rw [valueGoes, stands.letter_ascii ascii, Option.any_some, next]

end Stands

theorem beq_high {c : Char} (high : 128 ≤ c.toNat) (mark : Char) (ascii : mark.toNat < 128) :
    (c == mark) = false := by
  rw [beq_eq_false_iff_ne]
  rintro rfl
  omega

theorem valueGoes_high {d : Char} (found : letter? text pos = some d) (high : 128 ≤ d.toNat) :
    valueGoes text pos = true := by
  rw [valueGoes, found, Option.any_some, beyond_isSpace d high, beq_high high '>' (by decide),
    beq_high high '/' (by decide)]
  rfl

theorem unquotedValue_split (cs : List Char) :
    (Scan.unquotedValue cs).1 ++ (Scan.unquotedValue cs).2 = cs := by
  fun_induction Scan.unquotedValue cs with
  | case1 => rfl
  | case2 => rfl
  | case3 c cs _ value rest read ih =>
    rw [read] at ih
    rw [List.cons_append, ih]

theorem Stands.valueGoes (stands : Stands text pos cs) :
    (∀ i < width (Scan.unquotedValue cs).1, valueGoes text (pos + i) = true) ∧
      valueGoes text (pos + width (Scan.unquotedValue cs).1) = false := by
  fun_induction Scan.unquotedValue cs generalizing pos with
  | case1 =>
    refine ⟨fun i none => absurd none (Nat.not_lt_zero i), ?_⟩
    rw [width_nil, Nat.add_zero, Cursor.valueGoes, stands.letter_nil]
    rfl
  | case2 c cs ends =>
    refine ⟨fun i none => absurd none (Nat.not_lt_zero i), ?_⟩
    by_cases small : c.toNat < 128
    · rw [width_nil, Nat.add_zero, stands.valueGoes_ascii small, ends]
      rfl
    · have high : 128 ≤ c.toNat := by omega
      simp [beyond_isSpace c high, beq_high high '>' (by decide),
        beq_high high '/' (by decide)] at ends
  | case3 c cs goes value rest read ih =>
    obtain ⟨on, stops⟩ := ih stands.next
    rw [read] at on stops
    rw [width_cons, ← Nat.add_assoc]
    dsimp only at on
    refine ⟨fun i less => ?_, stops⟩
    by_cases here : i < c.utf8Size
    · by_cases small : c.toNat < 128
      · rw [utf8Size_ascii small, Nat.lt_one_iff] at here
        rw [here, Nat.add_zero, stands.valueGoes_ascii small, Bool.not_eq_true']
        exact Bool.eq_false_iff.mpr goes
      · obtain ⟨d, found, high⟩ := stands.letter_high (by omega) here
        exact valueGoes_high found high
    · have place : pos + i = pos + c.utf8Size + (i - c.utf8Size) := by omega
      rw [place]
      exact on _ (by omega)

theorem Stands.quoted (stands : Stands text pos cs) {mark : Char} (ascii : mark.toNat < 128)
    (quote : Quote) : ∃ stop, Stands text stop (Scan.quotedValue mark cs).2 ∧
      attributeValue.quoted text mark quote pos = .ok
        (some (String.ofList (Reference.decode (Scan.quotedValue mark cs).1)), quote, stop) := by
  obtain ⟨found, sought, place, last, behind⟩ := stands.seek_end mark ascii
  have value := (stands.parted (· != mark)).decoded
  refine ⟨_, behind, ?_⟩
  rw [attributeValue.quoted, sought, ok_bind]
  simp only [last]
  rw [place, value]
  rfl

theorem Stands.attributeValue (stands : Stands text pos cs) :
    ∃ stop, Stands text stop (Scan.attributeValue cs).2.2 ∧
      attributeValue text pos = .ok
        ((Scan.attributeValue cs).1.map (fun v => String.ofList (Reference.decode v)),
          (Scan.attributeValue cs).2.1, stop) := by
  have sign := stands.afterWhile isSpace
  rw [Cursor.attributeValue, stands.skip beyond_isSpace, ok_bind, Scan.attributeValue]
  split
  · next behind equals =>
    rw [equals] at sign
    have start := (sign.ascii (by decide)).afterWhile isSpace
    rw [if_neg (by rw [sign.letter_ascii (by decide)]; simp),
      (sign.ascii (by decide)).skip beyond_isSpace, ok_bind]
    split
    · next body mark =>
      rw [mark] at start
      rw [start.letter_ascii (by decide)]
      exact (start.ascii (by decide)).quoted (by decide) .double
    · next body mark =>
      rw [mark] at start
      rw [start.letter_ascii (by decide)]
      exact (start.ascii (by decide)).quoted (by decide) .single
    · next notDouble notSingle =>
      have other : ∀ mark, (∀ body, behind.dropWhile isSpace ≠ mark :: body) → mark.toNat < 128 →
          letter? text (pos + width (cs.takeWhile isSpace) + 1 +
            width (behind.takeWhile isSpace)) ≠ some mark := by
        intro mark absent ascii found
        rw [start.letter_iff mark ascii, List.head?_eq_some_iff] at found
        obtain ⟨body, here⟩ := found
        exact absent body here
      obtain ⟨on, stops⟩ := start.valueGoes
      have whole := unquotedValue_split (behind.dropWhile isSpace)
      cases read : Scan.unquotedValue (behind.dropWhile isSpace) with
      | mk value rest =>
        rw [read] at on stops whole
        rw [← whole] at start
        simp only
        split
        · next found => exact absurd found (other _ notDouble (by decide))
        · next found => exact absurd found (other _ notSingle (by decide))
        · rw [advance_eq on stops start.move.le, ok_bind, start.decoded]
          exact ⟨_, start.move, rfl⟩
  · next other =>
    refine ⟨pos, stands, ?_⟩
    rw [if_pos]
    · rfl
    · intro found
      rw [sign.letter_iff '=' (by decide), List.head?_eq_some_iff] at found
      obtain ⟨behind, equals⟩ := found
      exact other behind equals

theorem rounds_along {σ ρ : Type} {round : σ → Except Fault (Round σ ρ)} {s : Nat → σ} {k : Nat}
    (each : ∀ i < k, round (s i) = .ok (.again (s (i + 1)))) (n : Nat) :
    rounds round (n + k) (s 0) = rounds round n (s k) := by
  induction k generalizing n with
  | zero => rfl
  | succ k ih =>
    rw [Nat.add_comm k 1, ← Nat.add_assoc, ih (fun i less => each i (Nat.lt_succ_of_lt less)),
      rounds_again (each k (Nat.lt_succ_self k)), Nat.add_comm 1]

section

variable {attributes : List Attribute} {d : Char}

theorem letter_lt (found : letter? text pos = some d) : pos < text.utf8ByteSize := by
  rw [letter?, Option.map_eq_some_iff] at found
  obtain ⟨b, there, _⟩ := found
  rw [← length_utf8Bytes]
  exact (List.getElem?_eq_some_iff.mp there).1

theorem skip_stop {p : Char → Bool} (found : letter? text pos = some d) (stops : p d = false) :
    skip text p pos = .ok pos :=
  advance_stop (by rw [found]; exact stops) (Nat.le_of_lt (letter_lt found))

theorem skip_on {p : Char → Bool} (found : letter? text pos = some d) (goes : p d = true) :
    skip text p pos = skip text p (pos + 1) :=
  advance_on (by rw [found]; exact goes) (letter_lt found)

theorem tagRound_space (found : letter? text pos = some d) (space : isSpace d = true) :
    tagRound text (attributes, pos) = tagRound text (attributes, pos + 1) := by
  rw [tagRound, tagRound, skip_on found space]

theorem tagRound_other (found : letter? text pos = some d) (solid : isSpace d = false)
    (notEnd : d ≠ '>') (notSlash : d ≠ '/') (nameless : Scan.isNameChar d = false) :
    tagRound text (attributes, pos) = .ok (.again (attributes, pos + 1)) := by
  rw [tagRound]
  simp only [skip_stop found solid, ok_bind, found]
  rw [name, skip_stop found nameless, ok_bind, if_pos rfl]
  rfl

theorem tagRound_slash (found : letter? text pos = some '/')
    (alone : letter? text (pos + 1) ≠ some '>') :
    tagRound text (attributes, pos) = .ok (.again (attributes, pos + 1)) := by
  rw [tagRound]
  simp only [skip_stop (p := isSpace) found (by decide), ok_bind, found, if_neg alone]
  rfl

theorem tagRound_close (found : letter? text pos = some '/')
    (ended : letter? text (pos + 1) = some '>') :
    tagRound text (attributes, pos) = .ok (.done ((attributes, pos + 2), true)) := by
  rw [tagRound]
  simp only [skip_stop (p := isSpace) found (by decide), ok_bind, found, if_pos ended]
  rfl

theorem tagRound_end (found : letter? text pos = some '>') :
    tagRound text (attributes, pos) = .ok (.done ((attributes, pos + 1), false)) := by
  rw [tagRound]
  simp only [skip_stop (p := isSpace) found (by decide), ok_bind, found]
  rfl

theorem Stands.tagRound_nil (stands : Stands text pos []) :
    tagRound text (attributes, pos) = .ok (.done ((attributes, pos), false)) := by
  rw [tagRound]
  simp only [stands.skip beyond_isSpace, ok_bind, List.takeWhile_nil, width_nil, Nat.add_zero,
    stands.letter_nil]
  rfl

theorem Stands.tagRound_high {c : Char} (stands : Stands text pos (c :: cs)) (high : 128 ≤ c.toNat)
    {i : Nat} (within : i < c.utf8Size) :
    tagRound text (attributes, pos + i) = .ok (.again (attributes, pos + i + 1)) := by
  obtain ⟨d, found, above⟩ := stands.letter_high high within
  refine tagRound_other found (beyond_isSpace d above) ?_ ?_ (beyond_isNameChar d above)
  · rintro rfl
    exact absurd above (by decide)
  · rintro rfl
    exact absurd above (by decide)

theorem Stands.tagRound_name {c : Char} (stands : Stands text pos (c :: cs))
    (attributes : List Attribute) (named : Scan.isNameChar c = true) :
    let read := Scan.attributeValue (cs.dropWhile Scan.isNameChar)
    ∃ stop, Stands text stop read.2.2 ∧ tagRound text (attributes, pos) = .ok (.again
      (attributes ++ [Scan.keepAttribute (c :: cs.takeWhile Scan.isNameChar) read.1 read.2.1],
        stop)) := by
  intro read
  have found := stands.letter_ascii (ascii_of_nameChar named)
  have after := stands.afterWhile Scan.isNameChar
  have name := stands.name
  rw [List.takeWhile_cons_of_pos named] at after name
  rw [List.dropWhile_cons_of_pos named] at after
  rw [if_neg (List.cons_ne_nil _ _)] at name
  obtain ⟨stop, behind, value⟩ := after.attributeValue
  refine ⟨stop, behind, ?_⟩
  obtain ⟨solid, notEnd, notSlash⟩ : isSpace c = false ∧ c ≠ '>' ∧ c ≠ '/' :=
    ascii_of_numbers
      (P := fun c => Scan.isNameChar c = true → isSpace c = false ∧ c ≠ '>' ∧ c ≠ '/')
      (by decide) c (ascii_of_nameChar named) named
  rw [tagRound]
  simp only [skip_stop found solid, ok_bind, found, name, value]
  rfl

end

theorem Stands.tagRounds_other {c : Char} (stands : Stands text pos (c :: cs))
    (attributes : List Attribute) (notEnd : c ≠ '>') (notClose : ¬ (c = '/' ∧ cs.head? = some '>'))
    (nameless : Scan.isNameChar c = false) {n : Nat} (enough : width (c :: cs) ≤ n) :
    ∃ m, width cs ≤ m ∧ rounds (tagRound text) (n + 1) (attributes, pos) =
      rounds (tagRound text) (m + 1) (attributes, pos + c.utf8Size) := by
  rw [width_cons] at enough
  by_cases small : c.toNat < 128
  · have found := stands.letter_ascii small
    have next := stands.ascii small
    rw [utf8Size_ascii small] at enough ⊢
    by_cases space : isSpace c = true
    · refine ⟨n, by omega, ?_⟩
      rw [rounds, tagRound_space found space, ← rounds]
    · have round : tagRound text (attributes, pos) = .ok (.again (attributes, pos + 1)) := by
        by_cases slash : c = '/'
        · rw [slash] at found
          refine tagRound_slash found fun ended => notClose ⟨slash, ?_⟩
          exact (next.letter_iff '>' (by decide)).mp ended
        · exact tagRound_other found (Bool.eq_false_iff.mpr space) notEnd slash nameless
      obtain ⟨n, rfl⟩ : ∃ m, n = m + 1 := ⟨n - 1, by omega⟩
      exact ⟨n, by omega, rounds_again round _⟩
  · have each : ∀ i < c.utf8Size,
        tagRound text (attributes, pos + i) = .ok (.again (attributes, pos + (i + 1))) :=
      fun i less => stands.tagRound_high (by omega) less
    have along := rounds_along (s := fun i => (attributes, pos + i)) each (n - c.utf8Size + 1)
    have fuel : n + 1 = n - c.utf8Size + 1 + c.utf8Size := by omega
    rw [fuel]
    exact ⟨n - c.utf8Size, by omega, along⟩

theorem Stands.attributes (stands : Stands text pos cs) (before : List Attribute) {n : Nat}
    (enough : width cs ≤ n) : ∃ stop, Stands text stop (Scan.attributes cs).2.2 ∧
      rounds (tagRound text) (n + 1) (before, pos) =
        .ok ((before ++ (Scan.attributes cs).1, stop), (Scan.attributes cs).2.1) := by
  fun_induction Scan.attributes cs generalizing pos before n with
  | case1 =>
    refine ⟨pos, stands, ?_⟩
    rw [rounds_done stands.tagRound_nil, List.append_nil]
  | case2 cs =>
    refine ⟨pos + 1, stands.ascii (by decide), ?_⟩
    rw [rounds_done (tagRound_end (stands.letter_ascii (by decide))), List.append_nil]
  | case3 c cs notEnd close =>
    obtain ⟨rfl, ended⟩ := close
    obtain ⟨rest, rfl⟩ := List.head?_eq_some_iff.mp ended
    have next := stands.ascii (by decide)
    refine ⟨pos + 2, next.ascii (by decide), ?_⟩
    rw [rounds_done (tagRound_close (stands.letter_ascii (by decide))
      (next.letter_ascii (by decide))), List.append_nil]
  | case4 c cs notEnd notClose named value quote rest read others slashed left whole ih =>
    obtain ⟨stop, behind, round⟩ := stands.tagRound_name before named
    simp only [read] at behind round
    have shorter : rest.length < (c :: cs).length := by
      have skipped := Scan.length_dropWhile_le Scan.isNameChar cs
      have taken := Scan.attributeValue_le (cs.dropWhile Scan.isNameChar)
      rw [read] at taken
      exact Nat.lt_succ_of_le (Nat.le_trans taken skipped)
    have forward := stands.lt_of_length behind shorter
    have size := stands.size.symm.trans behind.size
    obtain ⟨n, rfl⟩ : ∃ m, n = m + 1 := ⟨n - 1, by omega⟩
    rw [whole] at ih
    obtain ⟨last, ended, others⟩ := ih behind
      (before ++ [Scan.keepAttribute (c :: cs.takeWhile Scan.isNameChar) value quote])
      (n := n) (by omega)
    refine ⟨last, ended, ?_⟩
    rw [rounds_again round, others, List.append_assoc]
    rfl
  | case5 c cs notEnd notClose nameless ih =>
    obtain ⟨m, fuel, passed⟩ :=
      stands.tagRounds_other before notEnd notClose (Bool.eq_false_iff.mpr nameless) enough
    rw [passed]
    exact ih stands.next before fuel

theorem Stands.tagEnd (stands : Stands text pos cs) :
    ∃ stop, Stands text stop (Scan.attributes cs).2.2 ∧
      tagEnd text pos = .ok (((Scan.attributes cs).1, stop), (Scan.attributes cs).2.1) := by
  rw [Cursor.tagEnd, loop, stands.fuel]
  exact stands.attributes [] (Nat.le_refl _)

end Cursor

end PageFilters
