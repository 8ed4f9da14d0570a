import PageFilters.Proofs.Markup.Constructs
import PageFilters.Proofs.Markup.Lockstep
import PageFilters.Proofs.Markup.Places

/-!
Constructs read by bytes. Where characters begin, the bytes give the construct that the characters
give, no piece is refused on the way, and if reading goes on, it goes on where characters begin.
-/

namespace PageFilters

def IsSmall (word : List Char) : Prop :=
  ∀ c ∈ word, c.toNat < 128 ∧ c.toLower = c

theorem IsSmall.width_eq {word spelled : List Char} (small : IsSmall word)
    (same : spelled.map Char.toLower = word) : width spelled = width word := by
  have ascii : ∀ c ∈ spelled, c.toNat < 128 := by
    intro c member
    have lower : c.toLower ∈ word := same ▸ List.mem_map_of_mem member
    exact ascii_of_toLower (small _ lower).1
  rw [width_ascii ascii, width_ascii fun c member => (small c member).1, ← same, List.length_map]

namespace Scan

variable {tag : List Char}

theorem afterCloseTag_cons {c : Char} (other : c ≠ '<') (cs : List Char) :
    afterCloseTag? tag (c :: cs) = none := by
  cases found : afterCloseTag? tag (c :: cs) with
  | none => rfl
  | some rest =>
    obtain ⟨name, spaces, whole, _⟩ := afterCloseTag_eq_some.mp found
    exact absurd (List.cons.inj whole).1 other

theorem cutAtCloseTag_skip (tag : List Char) {before : List Char} (clear : '<' ∉ before)
    (tail : List Char) : cutAtCloseTag tag (before ++ tail) =
      (cutAtCloseTag tag tail).map fun cut => (before ++ cut.1, cut.2) := by
  induction before with
  | nil => simp
  | cons c before ih =>
    rw [List.mem_cons, not_or] at clear
    obtain ⟨other, clear⟩ := clear
    rw [cutAtCloseTag] at ih ⊢
    rw [List.cons_append, cutAt, afterCloseTag_cons (Ne.symm other), ih clear, Option.map_map]
    rfl

theorem cutAtCloseTag_none {cs : List Char} (clear : '<' ∉ cs) : cutAtCloseTag tag cs = none := by
  have skipped := cutAtCloseTag_skip tag clear []
  rwa [List.append_nil] at skipped

theorem cutAtCloseTag_mark (rest : List Char) : cutAtCloseTag tag ('<' :: rest) =
    match afterCloseTag? tag ('<' :: rest) with
    | some left => some ([], left)
    | none => (cutAtCloseTag tag rest).map fun cut => ('<' :: cut.1, cut.2) :=
  rfl

theorem afterCloseTag_spelled {spelled : List Char}
    (same : spelled.map Char.toLower = '<' :: '/' :: tag) (more : List Char) :
    afterCloseTag? tag (spelled ++ more) = after? ['>'] (more.dropWhile isSpace) := by
  have starts : startsIgnoreCase ('<' :: '/' :: tag) (spelled ++ more) = true :=
    startsIgnoreCase_iff.mpr ⟨spelled, more, rfl, same⟩
  have length : ('<' :: '/' :: tag).length = spelled.length := by rw [← same, List.length_map]
  rw [afterCloseTag?]
  simp only [starts, ↓reduceIte, length, List.drop_left]
  split
  · next rest ended =>
    rw [ended]
    exact (after_eq_some.mpr rfl).symm
  · next other =>
    cases found : after? ['>'] (more.dropWhile isSpace) with
    | none => rfl
    | some rest => exact absurd (after_eq_some.mp found) (other rest)

theorem length_of_cutAtCloseTag {cs before rest : List Char}
    (cut : cutAtCloseTag tag cs = some (before, rest)) :
    ('<' :: '/' :: tag).length ≤ cs.length := by
  obtain ⟨tail, rfl, closed, _⟩ := cutAt_eq_some cut
  obtain ⟨name, spaces, rfl, rfl, _⟩ := afterCloseTag_eq_some.mp closed
  simp only [List.length_append, List.length_cons, List.length_map]
  omega

end Scan

namespace Cursor

variable {text : String} {pos : Nat} {cs : List Char}

namespace Stands

theorem startsAt (stands : Stands text pos cs) (word : String) (small : IsSmall word.toList) :
    startsAt text word pos = startsIgnoreCase word.toList cs := by
  rw [Bool.eq_iff_iff, ← folded_encode_iff small, Cursor.startsAt, beq_iff_eq, stands.drop,
    utf8ByteSize_eq, ← utf8Bytes_eq]
  rfl

theorem closeAt {rest : List Char} (stands : Stands text pos ('<' :: rest)) {closing : String}
    {tag : List Char} (word : closing.toList = '<' :: '/' :: tag) (small : IsSmall closing.toList) :
    (Scan.afterCloseTag? tag ('<' :: rest) = none ∧
      closeAt text closing pos = .ok (.again (pos + 1))) ∨
    (∃ tail stop, Scan.afterCloseTag? tag ('<' :: rest) = some tail ∧ Stands text stop tail ∧
      closeAt text closing pos = .ok (.done (some (pos, stop)))) := by
  unfold Cursor.closeAt
  simp only [stands.startsAt closing small, word]
  cases starts : startsIgnoreCase ('<' :: '/' :: tag) ('<' :: rest) with
  | false =>
    refine .inl ⟨?_, rfl⟩
    rw [Scan.afterCloseTag?]
    simp only [starts, Bool.false_eq_true, ↓reduceIte]
  | true =>
    obtain ⟨spelled, more, split, same⟩ := startsIgnoreCase_iff.mp starts
    have bytes : closing.utf8ByteSize = width spelled := by
      rw [utf8ByteSize_eq, small.width_eq (same.trans word.symm)]
    rw [split] at stands ⊢
    have stop := stands.move.afterWhile isSpace
    rw [bytes, stands.move.skip beyond_isSpace, Scan.afterCloseTag_spelled same more]
    simp only [↓reduceIte, ok_bind, stop.letter_iff '>' (by decide)]
    cases ended : Scan.after? ['>'] (more.dropWhile isSpace) with
    | none =>
      refine .inl ⟨rfl, ?_⟩
      rw [if_neg]
      · rfl
      · intro mark
        obtain ⟨tail, here⟩ := List.head?_eq_some_iff.mp mark
        rw [Scan.after_eq_some.mpr here] at ended
        cases ended
    | some tail =>
      rw [Scan.after_eq_some.mp ended] at stop ⊢
      exact .inr ⟨tail, _, rfl, stop.ascii (by decide), rfl⟩

theorem closeRound (stands : Stands text pos cs) {closing : String} {tag : List Char}
    (word : closing.toList = '<' :: '/' :: tag) (small : IsSmall closing.toList) :
    (Scan.cutAtCloseTag tag cs = none ∧ closeRound text closing pos = .ok (.done none)) ∨
    (∃ before rest stop, Scan.cutAtCloseTag tag cs = some (before, rest) ∧ Stands text stop rest ∧
      closeRound text closing pos = .ok (.done (some (pos + width before, stop)))) ∨
    (∃ before rest, cs = before ++ '<' :: rest ∧
      Scan.cutAtCloseTag tag cs =
        (Scan.cutAtCloseTag tag rest).map (fun cut => (before ++ '<' :: cut.1, cut.2)) ∧
      closeRound text closing pos = .ok (.again (pos + width before + 1))) := by
  unfold Cursor.closeRound
  by_cases short : text.utf8ByteSize < pos + closing.utf8ByteSize
  · refine .inl ⟨?_, by rw [if_pos short]; rfl⟩
    cases cut : Scan.cutAtCloseTag tag cs with
    | none => rfl
    | some cut =>
      have long := Scan.length_of_cutAtCloseTag cut
      have bytes := length_le_width cs
      have ascii := width_ascii fun c member => (small c member).1
      rw [stands.size, utf8ByteSize_eq, ascii, word] at short
      omega
  · rw [if_neg short]
    rcases stands.seek '<' (by decide) with
      ⟨before, rest, whole, clear, here, found⟩ | ⟨absent, found⟩
    · have cut := Scan.cutAtCloseTag_skip tag clear ('<' :: rest)
      rw [Scan.cutAtCloseTag_mark, ← whole] at cut
      rw [found, ok_bind]
      rcases here.closeAt word small with ⟨none, round⟩ | ⟨tail, stop, some, behind, round⟩
      · refine .inr (.inr ⟨before, rest, whole, ?_, round⟩)
        rw [cut, none, Option.map_map]
        rfl
      · refine .inr (.inl ⟨before, tail, stop, ?_, behind, round⟩)
        rw [cut, some, Option.map_some, List.append_nil]
    · exact .inl ⟨Scan.cutAtCloseTag_none absent, by rw [found]; rfl⟩

theorem closeRounds (stands : Stands text pos cs) {closing : String} {tag : List Char}
    (word : closing.toList = '<' :: '/' :: tag) (small : IsSmall closing.toList) {n : Nat}
    (enough : width cs ≤ n) :
    (Scan.cutAtCloseTag tag cs = none ∧
      rounds (Cursor.closeRound text closing) (n + 1) pos = .ok none) ∨
    (∃ before rest stop, Scan.cutAtCloseTag tag cs = some (before, rest) ∧ Stands text stop rest ∧
      rounds (Cursor.closeRound text closing) (n + 1) pos =
        .ok (some (pos + width before, stop))) := by
  induction n using Nat.strong_induction_on generalizing pos cs with
  | h n ih =>
    rcases stands.closeRound word small with
      ⟨cut, round⟩ | ⟨before, rest, stop, cut, behind, round⟩ | ⟨before, rest, whole, cut, round⟩
    · exact .inl ⟨cut, rounds_done round n⟩
    · exact .inr ⟨before, rest, stop, cut, behind, rounds_done round n⟩
    · rw [whole] at stands enough
      have next := stands.move.ascii (by decide)
      rw [width_append, width_cons, utf8Size_ascii (by decide : '<'.toNat < 128)] at enough
      obtain ⟨n, rfl⟩ : ∃ m, n = m + 1 := ⟨n - 1, by omega⟩
      rw [rounds_again round, cut]
      rcases ih n (Nat.lt_succ_self n) next (by omega) with
        ⟨none, rest'⟩ | ⟨before', rest', stop, some, behind, found⟩
      · exact .inl ⟨by rw [none]; rfl, rest'⟩
      · refine .inr ⟨before ++ '<' :: before', rest', stop, by rw [some]; rfl, behind, ?_⟩
        rw [found, width_append, width_cons, utf8Size_ascii (by decide : '<'.toNat < 128),
          ← Nat.add_assoc, ← Nat.add_assoc]

end Stands

structure Agrees (text : String) (r : Reading) (k : Construct) : Prop where
  tokens : r.tokens = k.tokens
  more : r.more = k.more
  stands : k.more = true → Stands text r.pos k.rest

namespace Stands

theorem plain (stands : Stands text pos cs) (long : cs ≠ []) (start : cs.head? ≠ some '<') :
    ∃ r, plain text pos = .ok r ∧ Agrees text r (Scan.text cs) := by
  obtain ⟨found, sought, place, _⟩ := stands.seek_end '<' (by decide)
  have after := stands.afterWhile (· != '<')
  have body := (stands.parted (· != '<')).decoded
  have read : String.ofList (Reference.decode (cs.takeWhile (· != '<'))) ≠ "" := by
    refine mt String.ofList_eq_empty_iff.mp (Reference.decode_ne_nil ?_)
    obtain ⟨c, rest, rfl⟩ := List.exists_cons_of_ne_nil long
    have other : c ≠ '<' := fun same => start (congrArg _ same)
    simp [other]
  rw [Cursor.plain, sought, ok_bind, place]
  simp only [body, ok_bind, if_neg read]
  exact ⟨_, rfl, rfl, rfl, fun _ => after⟩

theorem cut (stands : Stands text pos cs) (mark : String) (long : mark.toList ≠ [])
    (ascii : ∀ c ∈ mark.toList, c.toNat < 128) :
    (Scan.cutAt (Scan.after? mark.toList) cs = none ∧
      find? (utf8Bytes mark) (utf8Bytes (String.ofList cs)) = none) ∨
    (∃ body rest, Scan.cutAt (Scan.after? mark.toList) cs = some (body, rest) ∧
      find? (utf8Bytes mark) (utf8Bytes (String.ofList cs)) = some (width body) ∧
      Cursor.slice (String.ofList cs) 0 (width body) = .ok (String.ofList body) ∧
      Stands text (pos + width body + mark.utf8ByteSize) rest) := by
  have found := find_encode _ long ascii cs
  rw [← utf8Bytes_eq, ← String.toList_ofList (l := cs), ← utf8Bytes_eq,
    String.toList_ofList] at found
  rw [found]
  cases split : Scan.cutAt (Scan.after? mark.toList) cs with
  | none => exact .inl ⟨rfl, rfl⟩
  | some parts =>
    obtain ⟨body, rest⟩ := parts
    obtain ⟨tail, whole, closed, _⟩ := Scan.cutAt_eq_some split
    rw [Scan.after_eq_some] at closed
    refine .inr ⟨body, rest, rfl, rfl, ?_, ?_⟩
    · have start := Stands.start (String.ofList cs)
      rw [String.toList_ofList, whole] at start
      rw [whole]
      simpa using start.slice
    · rw [whole, closed] at stands
      rw [utf8ByteSize_eq]
      exact stands.move.move

theorem comment (stands : Stands text pos ('<' :: '!' :: '-' :: '-' :: cs)) :
    ∃ r, comment text pos = .ok r ∧ Agrees text r (Scan.comment cs) := by
  have body : Stands text (pos + 4) cs := move (a := ['<', '!', '-', '-']) stands
  rw [Cursor.comment, body.slice_rest, ok_bind, Scan.comment]
  rcases body.cut "-->" (by simp) (by simp) with
    ⟨none, found⟩ | ⟨inside, rest, cut, found, piece, behind⟩
  · rw [found]
    change Scan.cutAt (Scan.after? ['-', '-', '>']) cs = _ at none
    rw [none]
    exact ⟨_, rfl, rfl, rfl, fun more => Bool.noConfusion more⟩
  · rw [found]
    change Scan.cutAt (Scan.after? ['-', '-', '>']) cs = _ at cut
    rw [cut]
    simp only [piece, ok_bind]
    exact ⟨_, rfl, rfl, rfl, fun _ => behind⟩

theorem doctype (stands : Stands text pos ('<' :: '!' :: cs)) :
    ∃ r, doctype text pos = .ok r ∧ Agrees text r (Scan.doctype cs) := by
  have body : Stands text (pos + 2) cs := move (a := ['<', '!']) stands
  rw [Cursor.doctype, body.slice_rest, ok_bind, Scan.doctype]
  rcases body.cut ">" (by simp) (by simp) with
    ⟨none, found⟩ | ⟨inside, rest, cut, found, piece, behind⟩
  · rw [found]
    change Scan.cutAt (Scan.after? ['>']) cs = _ at none
    rw [none]
    exact ⟨_, rfl, rfl, rfl, fun more => Bool.noConfusion more⟩
  · rw [found]
    change Scan.cutAt (Scan.after? ['>']) cs = _ at cut
    rw [cut]
    simp only [piece, ok_bind, String.toList_ofList]
    exact ⟨_, rfl, rfl, rfl, fun _ => behind⟩

theorem endTag (stands : Stands text pos ('<' :: '/' :: cs)) :
    ∃ r, endTag text pos = .ok r ∧ Agrees text r (Scan.endTag cs) := by
  have start : Stands text (pos + 2) cs := move (a := ['<', '/']) stands
  obtain ⟨found, sought, _, _, behind⟩ :=
    (start.afterWhile Scan.isNameChar).seek_end '>' (by decide)
  have nameless : ∀ c ∈ cs.takeWhile Scan.isNameChar, (c != '>') = true := by
    intro c member
    rw [bne_iff_ne]
    rintro rfl
    exact absurd (List.mem_takeWhile_imp member) (by decide)
  have same : (cs.dropWhile (· != '>')).tail =
      ((cs.dropWhile Scan.isNameChar).dropWhile (· != '>')).tail := by
    conv_lhs => rw [← List.takeWhile_append_dropWhile (p := Scan.isNameChar) (l := cs)]
    rw [List.dropWhile_append_of_pos nameless]
  rw [Cursor.endTag, start.name, ok_bind]
  simp only [sought, ok_bind]
  refine ⟨_, rfl, ?_, rfl, fun _ => ?_⟩
  · rw [Scan.endTag]
    cases cs.takeWhile Scan.isNameChar <;> rfl
  · rw [Scan.endTag, same]
    exact behind

theorem closeTag (stands : Stands text 0 cs) {closing : String} {tag : List Char}
    (word : closing.toList = '<' :: '/' :: tag) (small : IsSmall closing.toList) :
    (Scan.cutAtCloseTag tag cs = none ∧ closeTag? text closing = .ok none) ∨
    (∃ before rest stop, Scan.cutAtCloseTag tag cs = some (before, rest) ∧ Stands text stop rest ∧
      closeTag? text closing = .ok (some (width before, stop))) := by
  rw [closeTag?, loop, id_eq, stands.fuel]
  simpa only [Nat.zero_add] using stands.closeRounds word small (Nat.le_refl (width cs))

theorem rawtext (stands : Stands text pos cs) (tag : String) {closing : String}
    (word : closing.toList = '<' :: '/' :: tag.toList) (small : IsSmall closing.toList) :
    ∃ r, rawtext text tag closing pos = .ok r ∧ Agrees text r (Scan.rawtext tag cs) := by
  have start := Stands.start (String.ofList cs)
  rw [String.toList_ofList] at start
  rw [Cursor.rawtext, stands.slice_rest, ok_bind, Scan.rawtext]
  rcases start.closeTag word small with ⟨none, found⟩ | ⟨before, rest, stop, cut, behind, found⟩
  · rw [found, ok_bind, none]
    cases cs with
    | nil => exact ⟨_, rfl, rfl, rfl, fun more => Bool.noConfusion more⟩
    | cons c cs =>
      have long : String.ofList (c :: cs) ≠ "" :=
        mt String.ofList_eq_empty_iff.mp (List.cons_ne_nil c cs)
      simp only [if_neg long]
      exact ⟨_, rfl, rfl, rfl, fun more => Bool.noConfusion more⟩
  · rw [found, ok_bind, cut]
    have after := stands.within behind
    cases before with
    | nil => exact ⟨_, rfl, rfl, rfl, fun _ => after⟩
    | cons c before =>
      have long : width (c :: before) ≠ 0 := by
        have := length_le_width (c :: before)
        simp only [List.length_cons] at this
        omega
      obtain ⟨tail, whole, _⟩ := Scan.cutAt_eq_some cut
      rw [whole] at start
      have piece := start.slice
      rw [Nat.zero_add, ← whole] at piece
      simp only [if_neg long, piece, ok_bind]
      exact ⟨_, rfl, rfl, rfl, fun _ => after⟩

end Stands

theorem closing_of_rawtext {tag : String} (name : IsName tag) :
    ((Keyword.ofTag tag).isRawtext = false ∧ closing? tag = none) ∨
    ((Keyword.ofTag tag).isRawtext = true ∧ isVoid tag = false ∧ ∃ closing,
      closing? tag = some closing ∧ closing.toList = '<' :: '/' :: tag.toList ∧
        IsSmall closing.toList) := by
  cases raw : (Keyword.ofTag tag).isRawtext with
  | false =>
    refine .inl ⟨rfl, ?_⟩
    have others : ¬ (tag = "script" ∨ tag = "style") := by
      intro known
      rw [isRawtext_of_tag known] at raw
      cases raw
    rw [not_or] at others
    rw [closing?, if_neg others.1, if_neg others.2]
  | true =>
    refine .inr ⟨rfl, name.not_void_of_rawtext raw, ?_⟩
    rcases name.rawtext_cases raw with rfl | rfl
    · exact ⟨"</script", rfl, by simp, by simp [IsSmall]⟩
    · exact ⟨"</style", rfl, by simp, by simp [IsSmall]⟩

namespace Stands

theorem startTag (stands : Stands text pos ('<' :: cs)) :
    ∃ r, startTag text pos = .ok r ∧ Agrees text r (Scan.startTag cs) := by
  have start := stands.ascii (by decide)
  have after := start.afterWhile Scan.isNameChar
  rw [Cursor.startTag, start.name, ok_bind, Scan.startTag]
  by_cases nameless : cs.takeWhile Scan.isNameChar = []
  · rw [if_pos nameless, nameless]
    refine ⟨_, rfl, rfl, rfl, fun _ => ?_⟩
    simpa using start
  · have name : IsName (foldCase (String.ofList (cs.takeWhile Scan.isNameChar))) :=
      isName_foldCase nameless fun c member => List.mem_takeWhile_imp member
    obtain ⟨stop, behind, tag⟩ := after.tagEnd
    rw [if_neg nameless]
    simp only [List.isEmpty_iff, nameless, ↓reduceIte, tag, ok_bind]
    rcases closing_of_rawtext name with ⟨plain, none⟩ | ⟨raw, notVoid, closing, some, word, small⟩
    · simp only [none, plain, Bool.false_eq_true, ↓reduceIte]
      exact ⟨_, rfl, rfl, rfl, fun _ => behind⟩
    · obtain ⟨content, found, agrees⟩ := behind.rawtext _ word small
      simp only [some, raw, notVoid, Bool.false_eq_true, ↓reduceIte, found, ok_bind]
      refine ⟨_, rfl, ?_, agrees.more, agrees.stands⟩
      simp only [agrees.tokens]

theorem comment_iff (cs : List Char) : utf8Bytes "<!--" <+: utf8Bytes (String.ofList cs) ↔
    ∃ rest, cs = '<' :: '!' :: '-' :: '-' :: rest := by
  have bytes : utf8Bytes (String.ofList cs) = encode cs := by
    rw [utf8Bytes_eq, String.toList_ofList]
  have starts := prefix_encode_iff ['<', '!', '-', '-'] (by simp) cs
  rw [utf8Bytes_eq, bytes]
  exact starts.trans (exists_congr fun rest => eq_comm)

theorem declared_iff (cs : List Char) : startsIgnoreCase "<!doctype".toList ('<' :: cs) = true ↔
    ∃ rest, cs = '!' :: rest ∧ startsIgnoreCase "doctype".toList rest = true := by
  cases cs with
  | nil => simp [startsIgnoreCase]
  | cons c cs =>
    by_cases bang : c = '!'
    · subst bang
      simp [startsIgnoreCase]
    · have lower : c.toLower ≠ '!' := by
        intro same
        exact bang (ascii_of_numbers (P := fun c => c.toLower = '!' → c = '!') (by decide) c
          (ascii_of_toLower (by rw [same]; decide)) same)
      simp [startsIgnoreCase, lower, bang]

theorem slash_iff (stands : Stands text pos ('<' :: cs)) :
    letter? text (pos + 1) = some '/' ↔ ∃ rest, cs = '/' :: rest := by
  rw [(stands.ascii (by decide)).letter_iff '/' (by decide), List.head?_eq_some_iff]

theorem construct (stands : Stands text pos cs) (long : cs ≠ []) :
    ∃ r, construct text pos = .ok r ∧ Agrees text r (scan cs) := by
  have word := stands.startsAt "<!doctype" (by simp [IsSmall])
  have first := stands.letter_iff '<' (by decide)
  generalize made : scan cs = k
  unfold scan at made
  unfold Cursor.construct
  rw [word, stands.slice_rest]
  simp only [ok_bind, ne_eq, first]
  -- The bytes are asked in another order than the characters: for `<!doctype` before `</`.
  split at made
  · next cs =>
    subst made
    rw [if_neg (by simp), if_pos ((comment_iff _).mpr ⟨cs, rfl⟩)]
    exact stands.comment
  · next cs =>
    subst made
    have undeclared := mt (declared_iff ('/' :: cs)).mp (by simp)
    rw [if_neg (by simp), if_neg (by rw [comment_iff]; simp), if_neg undeclared,
      if_pos (stands.slash_iff.mpr ⟨cs, rfl⟩)]
    exact stands.endTag
  · next cs notComment =>
    have unmarked : ¬ utf8Bytes "<!--" <+: utf8Bytes (String.ofList ('<' :: '!' :: cs)) := by
      rw [comment_iff]
      rintro ⟨rest, whole⟩
      cases whole
      exact notComment rest rfl
    have notEnd := mt stands.slash_iff.mp (by simp)
    rw [if_neg (by simp), if_neg unmarked]
    by_cases starts : startsIgnoreCase "doctype".toList cs = true
    · rw [if_pos starts] at made
      subst made
      rw [if_pos ((declared_iff _).mpr ⟨cs, rfl, starts⟩)]
      exact stands.doctype
    · have undeclared := mt (declared_iff ('!' :: cs)).mp (by simpa using starts)
      rw [if_neg starts] at made
      subst made
      rw [if_neg undeclared, if_neg notEnd]
      exact stands.startTag
  · next cs _ notEnd notBang =>
    subst made
    have unmarked : ¬ utf8Bytes "<!--" <+: utf8Bytes (String.ofList ('<' :: cs)) := by
      rw [comment_iff]
      rintro ⟨rest, whole⟩
      cases whole
      exact notBang _ rfl
    have undeclared := mt (declared_iff cs).mp fun ⟨rest, bang, _⟩ => notBang rest (by rw [bang])
    have opens := mt stands.slash_iff.mp fun ⟨rest, slash⟩ => notEnd rest (by rw [slash])
    rw [if_neg (by simp), if_neg unmarked, if_neg undeclared, if_neg opens]
    exact stands.startTag
  · next _ _ _ noMark =>
    subst made
    have start : cs.head? ≠ some '<' := by
      intro mark
      obtain ⟨rest, rfl⟩ := List.head?_eq_some_iff.mp mark
      exact noMark rest rfl
    rw [if_pos start]
    exact stands.plain long start

end Stands

structure Matches (text : String) (c : Cursor) (t : Tokenizer) : Prop where
  atoms : c.atoms = t.atoms
  pending : c.pending = t.pending
  finished : c.finished = t.finished
  stands : t.finished = false → Stands text c.pos t.rest

namespace Matches

variable {c : Cursor} {t : Tokenizer}

theorem start (text : String) : Matches text {} (.ofText text) :=
  ⟨rfl, rfl, rfl, fun _ => Stands.start text⟩

theorem step (same : Matches text c t) (going : t.finished = false) :
    ∃ after, step text c = .ok after ∧ Matches text after t.step := by
  have stands := same.stands going
  unfold Cursor.step Tokenizer.step
  by_cases ended : t.rest = []
  · have beyond : text.utf8ByteSize ≤ c.pos := by
      rw [stands.size, ended]
      exact Nat.le_refl _
    rw [if_pos ended, if_pos beyond]
    exact ⟨_, rfl, same.atoms, same.pending, rfl, fun going => Bool.noConfusion going⟩
  · have inside : ¬ text.utf8ByteSize ≤ c.pos := by
      have := length_le_width t.rest
      have := List.length_pos_of_ne_nil ended
      rw [stands.size]
      omega
    obtain ⟨r, found, agrees⟩ := stands.construct ended
    rw [if_neg ended, if_neg inside, found, ok_bind]
    refine ⟨_, rfl, ?_, ?_, ?_, ?_⟩
    · simp only [same.atoms, agrees.tokens]
    · simp only [same.atoms, same.pending, agrees.tokens]
    · simp only [agrees.more]
    · intro more
      exact agrees.stands (by simpa using more)

theorem step_forward {after : Cursor} (same : Matches text c t) (going : t.finished = false)
    (reached : Matches text after t.step) (on : t.step.finished = false) : c.pos < after.pos := by
  refine (same.stands going).lt_of_length (reached.stands on) ?_
  have smaller := Tokenizer.step_toRead going
  simpa [Tokenizer.toRead, going, on] using smaller

theorem next_rounds (same : Matches text c t) {n : Nat}
    (enough : t.finished = false → width t.rest < n) :
    ∃ after, rounds (nextRound text) (n + 1) c = .ok (t.next.1, after) ∧
      Matches text after t.next.2 := by
  fun_induction Tokenizer.next t generalizing c n with
  | case1 t token pending held =>
    refine ⟨{ c with pending }, rounds_done ?_ n, same.atoms, rfl, same.finished, same.stands⟩
    rw [nextRound, same.pending, held]
    rfl
  | case2 t empty ended =>
    refine ⟨c, rounds_done ?_ n, same⟩
    rw [nextRound, same.pending, empty]
    simp only [same.finished, ended, ↓reduceIte]
    rfl
  | case3 t empty more ih =>
    have going : t.finished = false := Bool.eq_false_iff.mpr more
    obtain ⟨after, stepped, reached⟩ := same.step going
    have round : nextRound text c = .ok (.again after) := by
      rw [nextRound, same.pending, empty]
      simp only [same.finished, going, Bool.false_eq_true, ↓reduceIte, stepped, ok_bind]
      rfl
    obtain ⟨n, rfl⟩ : ∃ m, n = m + 1 := ⟨n - 1, by have := enough going; omega⟩
    rw [rounds_again round]
    refine ih reached fun on => ?_
    have forward := same.step_forward going reached on
    have before := (same.stands going).size
    have behind := (reached.stands on).size
    have := enough going
    omega

theorem next (same : Matches text c t) :
    ∃ after, next text c = .ok (t.next.1, after) ∧ Matches text after t.next.2 := by
  rw [Cursor.next, loop, place, same.finished]
  cases going : t.finished with
  | true =>
    rw [if_pos rfl, Nat.add_sub_cancel_left]
    exact same.next_rounds (n := 0) fun on => absurd (going.symm.trans on) (by decide)
  | false =>
    have fuel : text.utf8ByteSize + 1 + 1 - c.pos = width t.rest + 1 + 1 := by
      rw [(same.stands going).size]
      omega
    rw [if_neg Bool.false_ne_true, fuel]
    exact same.next_rounds fun _ => Nat.lt_succ_self _

end Matches

end Cursor

namespace Tokenizer

theorem asked_next (n : Nat) (t : Tokenizer) : t.asked (n + 1) = (t.asked n).next.2 := by
  induction n generalizing t with
  | zero => rfl
  | succ n ih => exact ih t.next.2

end Tokenizer

namespace Cursor

theorem asked_matches (text : String) (n : Nat) :
    ∃ c, asked text n = .ok c ∧ Matches text c ((Tokenizer.ofText text).asked n) := by
  induction n with
  | zero => exact ⟨{}, rfl, .start text⟩
  | succ n ih =>
    obtain ⟨c, reached, same⟩ := ih
    obtain ⟨after, given, same⟩ := same.next
    refine ⟨after, ?_, by rwa [Tokenizer.asked_next]⟩
    rw [asked, reached, ok_bind, given]
    rfl

theorem answer_eq (text : String) (n : Nat) :
    answer text n = .ok ((Tokenizer.ofText text).asked n).next.1 := by
  obtain ⟨c, reached, same⟩ := asked_matches text n
  obtain ⟨after, given, _⟩ := same.next
  rw [answer, reached, ok_bind, given]
  rfl

end Cursor

namespace Tokenizer

theorem next_of_none {t after : Tokenizer} (ended : t.next = (none, after)) :
    after.next = (none, after) := by
  fun_induction next t with
  | case1 => cases ended
  | case2 t empty finished =>
    cases ended
    rw [next, empty]
    simp only [finished, ↓reduceIte]
  | case3 t _ _ ih => exact ih ended

theorem next_asked_of_none {t : Tokenizer} (ended : t.next = (none, t)) (n : Nat) :
    (t.asked n).next.1 = none := by
  induction n with
  | zero => rw [asked, ended]
  | succ n ih =>
    rw [asked, ended]
    exact ih

theorem next_asked (t : Tokenizer) (n : Nat) : (t.asked n).next.1 = t.run.1[n]? := by
  induction n generalizing t with
  | zero =>
    cases found : t.next with
    | mk token after =>
      rw [asked, found]
      cases token with
      | none => rw [run_none found, List.getElem?_nil]
      | some token => rw [run_some found, List.getElem?_cons_zero]
  | succ n ih =>
    cases found : t.next with
    | mk token after =>
      cases token with
      | none =>
        rw [run_none found, asked, found, List.getElem?_nil]
        exact next_asked_of_none (next_of_none found) n
      | some token => rw [run_some found, asked_succ found, ih, List.getElem?_cons_succ]

end Tokenizer

namespace Cursor

theorem answer_tokenize (text : String) (n : Nat) :
    answer text n = .ok (tokenize text).1[n]? := by
  rw [answer_eq, Tokenizer.next_asked]
  rfl

/-- The cursors that come up when a text is read: the first one, and those that a round on one of
them leads to. -/
inductive Reached (text : String) : Cursor → Prop where
  | start : Reached text {}
  | again {c after : Cursor} : Reached text c → nextRound text c = .ok (.again after) →
      Reached text after
  | done {c after : Cursor} {token : Option (Token AtomId)} : Reached text c →
      nextRound text c = .ok (.done (token, after)) → Reached text after

section

variable {c after : Cursor} {t : Tokenizer}

theorem step_of_again (round : nextRound text c = .ok (.again after)) :
    c.finished = false ∧ step text c = .ok after := by
  unfold nextRound at round
  split at round
  · cases round
  · split at round
    · cases round
    · next more =>
      cases stepped : step text c with
      | error fault =>
        rw [stepped] at round
        cases round
      | ok found =>
        rw [stepped] at round
        cases round
        exact ⟨Bool.eq_false_iff.mpr more, rfl⟩

theorem frame_of_done {token : Option (Token AtomId)}
    (round : nextRound text c = .ok (.done (token, after))) :
    ∃ pending, after = { c with pending } := by
  unfold nextRound at round
  split at round
  · cases round
    exact ⟨_, rfl⟩
  · split at round
    · cases round
      exact ⟨_, rfl⟩
    · cases stepped : step text c with
      | error fault =>
        rw [stepped] at round
        cases round
      | ok found =>
        rw [stepped] at round
        cases round

theorem Reached.matches (reached : Reached text c) : ∃ t, Matches text c t := by
  induction reached with
  | start => exact ⟨_, .start text⟩
  | again _ round ih =>
    obtain ⟨t, same⟩ := ih
    obtain ⟨going, stepped⟩ := step_of_again round
    obtain ⟨after, found, kept⟩ := same.step (same.finished.symm.trans going)
    rw [stepped] at found
    cases found
    exact ⟨_, kept⟩
  | done _ round ih =>
    obtain ⟨t, same⟩ := ih
    obtain ⟨pending, rfl⟩ := frame_of_done round
    exact ⟨{ t with pending }, same.atoms, rfl, same.finished, same.stands⟩

theorem Reached.step_ok (reached : Reached text c) (going : c.finished = false) :
    ∃ after, step text c = .ok after := by
  obtain ⟨t, same⟩ := reached.matches
  obtain ⟨after, stepped, _⟩ := same.step (same.finished.symm.trans going)
  exact ⟨after, stepped⟩

theorem Reached.round_ok (reached : Reached text c) :
    ∃ outcome, nextRound text c = .ok outcome := by
  unfold nextRound
  split
  · exact ⟨_, rfl⟩
  · split
    · exact ⟨_, rfl⟩
    · next more =>
      obtain ⟨after, stepped⟩ := reached.step_ok (Bool.eq_false_iff.mpr more)
      exact ⟨.again after, by rw [stepped]; rfl⟩

end

structure SlicesSound (text : String) : Prop where
  /-- A piece is refused unless both of its ends are borders of characters, the first one not behind
  the last. -/
  pieces : ∀ start stop piece, slice text start stop = .ok piece ↔
    ∃ front rest, text.toList = front ++ piece.toList ++ rest ∧ start = width front ∧
      stop = start + piece.utf8ByteSize
  /-- No round of reading is refused one, whichever cursor has come up. -/
  rounds : ∀ c, Reached text c → ∃ outcome, nextRound text c = .ok outcome
  /-- So each time the reader is asked it gives the next token, and none at the end. -/
  answers : ∀ n, answer text n = .ok (tokenize text).1[n]?
  /-- Yet in a tag it does stand inside a character, at each of its bytes. -/
  inside : ∀ front c rest, text.toList = front ++ c :: rest → 128 ≤ c.toNat →
    ∀ attributes i, i < c.utf8Size →
      tagRound text (attributes, width front + i) =
        .ok (.again (attributes, width front + i + 1)) ∧
      (0 < i → ¬ String.Pos.Raw.IsValid text ⟨width front + i⟩)

/-- Every text is read without a piece that begins or ends inside a character, although the walk
over a tag stops there. -/
theorem slices_sound (text : String) : SlicesSound text where
  pieces _ _ _ := slice_iff
  rounds _ reached := reached.round_ok
  answers := answer_tokenize text
  inside front c rest whole high attributes i within := by
    have stands : Stands text (width front) (c :: rest) := ⟨front, whole, rfl⟩
    exact ⟨stands.tagRound_high high within, fun some => not_isValid_inside whole some within⟩

example : answer "<p \u00e9>" 0 = .ok (some (.startTag 0 [] false false)) := by cbv

end Cursor

end PageFilters
