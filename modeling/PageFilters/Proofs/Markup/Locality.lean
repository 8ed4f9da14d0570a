import PageFilters.Proofs.Markup.Cutting

/-!
What is read of a text before its end does not depend on the end. A construct that ends with a `>`
is read alike whatever follows. A run of text ends before a mark, and it takes up to eight
characters to tell what the mark is; a `>` in what follows settles that.
-/

namespace PageFilters

namespace Scan

section

variable {p : Char → Bool} {c : Char}

theorem dropWhile_stop (stops : p c = false) (front rest : List Char) :
    (front ++ c :: rest).dropWhile p = front.dropWhile p ++ c :: rest := by
  induction front with
  | nil => simp [stops]
  | cons d front ih =>
    cases goes : p d with
    | true => simpa [goes] using ih
    | false => simp [goes]

theorem takeWhile_stop (stops : p c = false) (front rest : List Char) :
    (front ++ c :: rest).takeWhile p = front.takeWhile p := by
  induction front with
  | nil => simp [stops]
  | cons d front ih =>
    cases goes : p d with
    | true => simpa [goes] using ih
    | false => simp [goes]

theorem dropWhile_takeWhile (p : Char → Bool) (cs : List Char) :
    (cs.takeWhile p).dropWhile p = [] :=
  List.dropWhile_eq_nil_iff.mpr fun c member => List.all_eq_true.mp List.all_takeWhile c member

theorem dropWhile_run (stops : p c = false) (cs rest : List Char) :
    (cs.takeWhile p ++ c :: rest).dropWhile p = c :: rest := by
  rw [dropWhile_stop stops, dropWhile_takeWhile, List.nil_append]

end

theorem head_stop (front rest rest' : List Char) :
    (front ++ '>' :: rest).head? = (front ++ '>' :: rest').head? := by
  cases front with
  | nil => rfl
  | cons c front => rfl

/-- What is read before some `>` is read alike whatever follows the `>`. -/
def Local (read : List Char → α × List Char) : Prop :=
  ∀ {cs : List Char} {what : α} {front rest : List Char}, read cs = (what, front ++ '>' :: rest) →
    ∃ start, cs = start ++ front ++ '>' :: rest ∧
      ∀ rest', read (start ++ front ++ '>' :: rest') = (what, front ++ '>' :: rest')

theorem Local.skip {read : List Char → α × List Char} (locally : Local read) {p : Char → Bool}
    (stops : p '>' = false) : Local fun cs => read (cs.dropWhile p) := by
  intro cs what front rest found
  obtain ⟨start, dropped, same⟩ := locally found
  have whole : cs = cs.takeWhile p ++ start ++ front ++ '>' :: rest := by
    rw [List.append_assoc _ start, List.append_assoc, ← dropped, List.takeWhile_append_dropWhile]
  refine ⟨cs.takeWhile p ++ start, whole, ?_⟩
  intro rest'
  have before : (cs.takeWhile p ++ start ++ front).dropWhile p = start ++ front := by
    have stopped := dropWhile_stop stops (cs.takeWhile p ++ start ++ front) rest
    rw [← whole, dropped] at stopped
    exact (List.append_cancel_right stopped).symm
  dsimp only
  rw [dropWhile_stop stops, before]
  exact same rest'

theorem unquotedValue_local : Local unquotedValue := by
  intro cs what front rest found
  induction cs generalizing what with
  | nil => simp [unquotedValue] at found
  | cons c cs ih =>
    rw [unquotedValue] at found
    split at found
    · next stops =>
      obtain ⟨none, same⟩ := Prod.mk.inj found
      refine ⟨[], same, ?_⟩
      intro rest'
      rw [← none]
      cases front with
      | nil => simp [unquotedValue]
      | cons d front =>
        rw [List.cons_append] at same
        obtain ⟨rfl, rfl⟩ := List.cons.inj same
        rw [head_stop front rest rest'] at stops
        rw [List.nil_append, List.cons_append, unquotedValue, if_pos stops]
    · next goes =>
      obtain ⟨value, left⟩ := Prod.mk.inj found
      obtain ⟨start, whole, same⟩ := ih (Prod.ext rfl left)
      refine ⟨c :: start, congrArg (List.cons c) whole, ?_⟩
      intro rest'
      rw [whole, head_stop (start ++ front) rest rest'] at goes
      rw [List.cons_append, List.cons_append, unquotedValue, if_neg goes, same rest', ← value]

theorem quotedValue_local (mark : Char) : Local (quotedValue mark) := by
  intro cs what front rest found
  obtain ⟨value, left⟩ := Prod.mk.inj found
  have stops : (mark != mark) = false := bne_self_eq_false mark
  have marked : cs.dropWhile (· != mark) = mark :: (front ++ '>' :: rest) := by
    cases dropped : cs.dropWhile (· != mark) with
    | nil => simp [dropped] at left
    | cons c more =>
      have same : c = mark := by
        have := List.head?_dropWhile_not (· != mark) cs
        simpa [dropped] using this
      rw [dropped, List.tail_cons] at left
      rw [same, left]
  refine ⟨what ++ [mark], ?_, ?_⟩
  · rw [← value, List.append_assoc, List.append_assoc, List.singleton_append, ← marked,
      List.takeWhile_append_dropWhile]
  · intro rest'
    have whole : what ++ [mark] ++ front ++ '>' :: rest' =
        what ++ mark :: (front ++ '>' :: rest') := by simp
    have taken := takeWhile_stop (p := (· != mark)) stops what (front ++ '>' :: rest')
    have after := dropWhile_run (p := (· != mark)) stops cs (front ++ '>' :: rest')
    have all : what.takeWhile (· != mark) = what := by
      rw [← value, List.takeWhile_eq_self_iff]
      exact fun c member => List.all_eq_true.mp List.all_takeWhile c member
    rw [whole, quotedValue, taken, all, ← value, after, List.tail_cons]

def signedValue (cs : List Char) : (Option (List Char) × Quote) × List Char :=
  match cs with
  | '\x22' :: cs => ((some (quotedValue '\x22' cs).1, .double), (quotedValue '\x22' cs).2)
  | '\x27' :: cs => ((some (quotedValue '\x27' cs).1, .single), (quotedValue '\x27' cs).2)
  | cs => ((some (unquotedValue cs).1, .unquoted), (unquotedValue cs).2)

theorem attributeValue_sign {cs more : List Char} (sign : cs.dropWhile isSpace = '=' :: more) :
    attributeValue cs =
      ((signedValue (more.dropWhile isSpace)).1.1, (signedValue (more.dropWhile isSpace)).1.2,
        (signedValue (more.dropWhile isSpace)).2) := by
  simp only [attributeValue, sign]
  cases more.dropWhile isSpace with
  | nil => rfl
  | cons c value =>
    by_cases double : c = '\x22'
    · subst double
      rfl
    · by_cases single : c = '\x27'
      · subst single
        rfl
      · simp [signedValue, double, single]

theorem attributeValue_bare {cs : List Char} (bare : (cs.dropWhile isSpace).head? ≠ some '=') :
    attributeValue cs = (none, .double, cs) := by
  unfold attributeValue
  split
  · next sign =>
    rw [sign] at bare
    exact absurd rfl bare
  · rfl

theorem signedValue_local : Local signedValue := by
  intro cs what front rest found
  unfold signedValue at found
  split at found
  · next body =>
    obtain ⟨value, left⟩ := Prod.mk.inj found
    obtain ⟨start, whole, same⟩ := quotedValue_local '\x22' (Prod.ext rfl left)
    refine ⟨'\x22' :: start, congrArg (List.cons '\x22') whole, ?_⟩
    intro rest'
    rw [List.cons_append, List.cons_append, signedValue, same rest', ← value]
  · next body =>
    obtain ⟨value, left⟩ := Prod.mk.inj found
    obtain ⟨start, whole, same⟩ := quotedValue_local '\x27' (Prod.ext rfl left)
    refine ⟨'\x27' :: start, congrArg (List.cons '\x27') whole, ?_⟩
    intro rest'
    rw [List.cons_append, List.cons_append, signedValue, same rest', ← value]
  · next notDouble notSingle =>
    obtain ⟨value, left⟩ := Prod.mk.inj found
    obtain ⟨start, whole, same⟩ := unquotedValue_local (Prod.ext rfl left)
    refine ⟨start, whole, ?_⟩
    intro rest'
    have head := head_stop (start ++ front) rest rest'
    rw [← whole] at head
    unfold signedValue
    split
    · next body first =>
      rw [first] at head
      obtain ⟨others, second⟩ := List.head?_eq_some_iff.mp head
      exact absurd second (notDouble others)
    · next body first =>
      rw [first] at head
      obtain ⟨others, second⟩ := List.head?_eq_some_iff.mp head
      exact absurd second (notSingle others)
    · rw [same rest', ← value]

theorem attributeValue_local :
    Local fun cs =>
      (((attributeValue cs).1, (attributeValue cs).2.1), (attributeValue cs).2.2) := by
  intro cs what front rest found
  dsimp only at found ⊢
  by_cases bare : (cs.dropWhile isSpace).head? = some '='
  · obtain ⟨more, sign⟩ := List.head?_eq_some_iff.mp bare
    rw [attributeValue_sign sign] at found
    obtain ⟨start, whole, same⟩ := signedValue_local.skip (p := isSpace) rfl found
    have all : cs = cs.takeWhile isSpace ++ '=' :: start ++ front ++ '>' :: rest := by
      rw [List.append_assoc, List.append_assoc, List.cons_append, ← List.append_assoc start,
        ← whole, ← sign, List.takeWhile_append_dropWhile]
    refine ⟨cs.takeWhile isSpace ++ '=' :: start, all, ?_⟩
    intro rest'
    have again : (cs.takeWhile isSpace ++ '=' :: start ++ front ++ '>' :: rest').dropWhile isSpace =
        '=' :: (start ++ front ++ '>' :: rest') := by
      rw [List.append_assoc, List.append_assoc, List.cons_append, dropWhile_run rfl]
      simp
    rw [attributeValue_sign again]
    exact same rest'
  · rw [attributeValue_bare bare] at found
    obtain ⟨none, same⟩ := Prod.mk.inj found
    have same : cs = front ++ '>' :: rest := same
    refine ⟨[], same, ?_⟩
    intro rest'
    rw [same, dropWhile_stop rfl, head_stop _ rest rest'] at bare
    rw [List.nil_append, attributeValue_bare (by rwa [dropWhile_stop rfl]), none]

theorem attributes_closed {cs : List Char} (some : (attributes cs).2.2 ≠ []) :
    ∃ start, cs = start ++ '>' :: (attributes cs).2.2 ∧
      ∀ rest, attributes (start ++ '>' :: rest) =
        ((attributes cs).1, (attributes cs).2.1, rest) := by
  fun_induction attributes cs with
  | case1 => exact absurd rfl some
  | case2 cs =>
    refine ⟨[], rfl, ?_⟩
    intro rest
    rw [List.nil_append, attributes, if_pos rfl]
  | case3 c cs notEnd slash =>
    obtain ⟨rfl, next⟩ := slash
    obtain ⟨more, rfl⟩ := List.head?_eq_some_iff.mp next
    refine ⟨['/'], rfl, ?_⟩
    intro rest
    rw [List.singleton_append, attributes, if_neg (by decide), if_pos ⟨rfl, rfl⟩]
    rfl
  | case4 c cs notEnd notSlash named value quote rest read others slashed left tail ih =>
    rw [tail] at ih
    obtain ⟨start, split, same⟩ := ih some
    obtain ⟨before, whole, again⟩ := attributeValue_local.skip (p := isNameChar) rfl
      (show _ = ((value, quote), start ++ '>' :: left) by dsimp only; rw [read, split])
    refine ⟨c :: (before ++ start), congrArg (List.cons c) whole, ?_⟩
    intro rest'
    have found := again rest'
    have value' : attributeValue ((before ++ start ++ '>' :: rest').dropWhile isNameChar) =
        (value, quote, start ++ '>' :: rest') :=
      Prod.ext (congrArg (·.1.1) found) (Prod.ext (congrArg (·.1.2) found) (congrArg (·.2) found))
    have stop : isNameChar '>' = false := by decide
    have head := head_stop (before ++ start) left rest'
    have taken : (before ++ start ++ '>' :: rest').takeWhile isNameChar =
        cs.takeWhile isNameChar := by
      rw [whole, takeWhile_stop stop, takeWhile_stop stop]
    rw [whole, head] at notSlash
    rw [List.cons_append, attributes, if_neg notEnd, if_neg notSlash, if_pos named]
    simp only [value', taken, same rest']
  | case5 c cs notEnd notSlash notName ih =>
    obtain ⟨start, split, same⟩ := ih some
    refine ⟨c :: start, congrArg (List.cons c) split, ?_⟩
    intro rest
    rw [split, head_stop start _ rest] at notSlash
    rw [List.cons_append, attributes, if_neg notEnd, if_neg notSlash, if_neg notName, same rest]

def Closed (read : List Char → Construct) (cs : List Char) : Prop :=
  ∃ start, cs = start ++ '>' :: (read cs).rest ∧
    ∀ rest, read (start ++ '>' :: rest) = { read cs with rest }

theorem comment_closed {cs : List Char} (some : (comment cs).rest ≠ []) : Closed comment cs := by
  cases cut : cutAt (after? ['-', '-', '>']) cs with
  | none => simp [comment, cut] at some
  | some parts =>
    obtain ⟨body, rest⟩ := parts
    have absent : IsComment body := cut_mark (List.cons_ne_nil _ _) cut
    obtain ⟨tail, whole, found, _⟩ := cutAt_eq_some cut
    rw [after_eq_some.mp found] at whole
    have read : comment cs = ⟨[.comment (String.ofList body)], rest, true⟩ := by
      rw [comment, cut]
    refine ⟨body ++ ['-', '-'], ?_, ?_⟩
    · rw [read, whole]
      simp
    · intro rest'
      rw [read, comment, List.append_assoc, List.cons_append, List.cons_append, List.nil_append,
        cut_comment absent rest']

theorem doctype_closed {cs : List Char} (some : (doctype cs).rest ≠ []) : Closed doctype cs := by
  cases cut : cutAt (after? ['>']) cs with
  | none => simp [doctype, cut] at some
  | some parts =>
    obtain ⟨body, rest⟩ := parts
    have absent : '>' ∉ body := by
      intro member
      obtain ⟨before, after, split⟩ := List.append_of_mem member
      exact cut_mark (List.cons_ne_nil _ _) cut ⟨before, after, by simp [split]⟩
    obtain ⟨tail, whole, found, _⟩ := cutAt_eq_some cut
    rw [after_eq_some.mp found] at whole
    have read : doctype cs = ⟨[.doctype (String.ofList (trim body))], rest, true⟩ := by
      rw [doctype, cut]
    refine ⟨body, ?_, ?_⟩
    · rw [read, whole]
      simp
    · intro rest'
      rw [read, doctype, cut_doctype absent rest']

theorem endTag_closed {cs : List Char} (some : (endTag cs).rest ≠ []) : Closed endTag cs := by
  have stop : isNameChar '>' = false := by decide
  have marked : cs.dropWhile (· != '>') = '>' :: (endTag cs).rest := by
    cases dropped : cs.dropWhile (· != '>') with
    | nil => simp [endTag, dropped] at some
    | cons c more =>
      have same : c = '>' := by
        have := List.head?_dropWhile_not (· != '>') cs
        simpa [dropped] using this
      rw [endTag, dropped, same]
      rfl
  have whole : cs = cs.takeWhile (· != '>') ++ '>' :: (endTag cs).rest := by
    rw [← marked, List.takeWhile_append_dropWhile]
  refine ⟨cs.takeWhile (· != '>'), whole, ?_⟩
  intro rest
  have name : (cs.takeWhile (· != '>') ++ '>' :: rest).takeWhile isNameChar =
      cs.takeWhile isNameChar := by
    conv => rhs; rw [whole]
    rw [takeWhile_stop stop, takeWhile_stop stop]
  have left := dropWhile_run (p := (· != '>')) (c := '>') (by decide) cs rest
  simp only [endTag, name, left, List.tail_cons]

theorem afterCloseTag_none {tag front : List Char} (long : tag.length + 2 ≤ front.length)
    {rest : List Char} (none : afterCloseTag? tag (front ++ '>' :: rest) = none)
    (rest' : List Char) : afterCloseTag? tag (front ++ '>' :: rest') = .none := by
  cases found : afterCloseTag? tag (front ++ '>' :: rest') with
  | none => rfl
  | some left =>
    obtain ⟨name, spaces, whole, named, blank⟩ := afterCloseTag_eq_some.mp found
    have length : name.length = tag.length := by rw [← named, List.length_map]
    have ends : ∀ more, front ++ '>' :: rest ≠ '<' :: '/' :: name ++ spaces ++ '>' :: more := by
      intro more same
      rw [afterCloseTag_eq_some.mpr ⟨name, spaces, same, named, blank⟩] at none
      cases none
    rcases List.append_eq_append_iff.mp whole with ⟨more, opening, marked⟩ | ⟨more, opening, marked⟩
    · cases more with
      | nil =>
        rw [List.append_nil] at opening
        exact absurd (by rw [opening]) (ends rest)
      | cons c more =>
        obtain ⟨rfl, _⟩ := List.cons.inj marked
        have place : ('<' :: '/' :: name ++ spaces)[front.length]? = some '>' := by
          rw [opening]
          simp
        rw [List.getElem?_append_right (by simp; omega)] at place
        have inside : '>' ∈ spaces := List.mem_of_getElem? place
        exact absurd (blank '>' inside) (by decide)
    · cases more with
      | nil =>
        rw [List.append_nil] at opening
        exact absurd (by rw [opening]) (ends rest)
      | cons c more =>
        obtain ⟨rfl, _⟩ := List.cons.inj marked
        exact absurd (by simp [opening]) (ends (more ++ '>' :: rest))

theorem rawtext_closed {tag : String} {cs : List Char} (some : (rawtext tag cs).rest ≠ []) :
    Closed (rawtext tag) cs := by
  cases cut : cutAtCloseTag tag.toList cs with
  | none => simp [rawtext, cut] at some
  | some parts =>
    obtain ⟨body, rest⟩ := parts
    obtain ⟨tail, whole, found, first⟩ := cutAt_eq_some cut
    obtain ⟨name, spaces, closing, named, blank⟩ := afterCloseTag_eq_some.mp found
    have length : name.length = tag.toList.length := by rw [← named, List.length_map]
    have read : rawtext tag cs =
        ⟨if body.isEmpty then [.endTag tag] else [.text (String.ofList body), .endTag tag], rest,
          true⟩ := by
      rw [rawtext, cut]
    refine ⟨body ++ '<' :: '/' :: name ++ spaces, ?_, ?_⟩
    · rw [read, whole, closing]
      simp
    · intro rest'
      have again :
          cutAtCloseTag tag.toList (body ++ ('<' :: '/' :: name ++ spaces ++ '>' :: rest')) =
          .some (body, rest') := by
        apply cutAt_append
        · exact afterCloseTag_eq_some.mpr ⟨name, spaces, rfl, named, blank⟩
        · intro skipped left split long
          have missing := first skipped left split long
          rw [closing] at missing
          have moved : ∀ r, left ++ ('<' :: '/' :: name ++ spaces ++ '>' :: r) =
              (left ++ '<' :: '/' :: name ++ spaces) ++ '>' :: r := by simp
          rw [moved] at missing ⊢
          refine afterCloseTag_none ?_ missing rest'
          simp
          omega
      have moved : body ++ '<' :: '/' :: name ++ spaces ++ '>' :: rest' =
          body ++ ('<' :: '/' :: name ++ spaces ++ '>' :: rest') := by simp
      rw [moved, read, rawtext, again]

theorem opening_closed {cs : List Char} (some : (attributes (cs.dropWhile isNameChar)).2.2 ≠ []) :
    ∃ front, cs = front ++ '>' :: (attributes (cs.dropWhile isNameChar)).2.2 ∧
      ∀ rest, (front ++ '>' :: rest).takeWhile isNameChar = cs.takeWhile isNameChar ∧
        attributes ((front ++ '>' :: rest).dropWhile isNameChar) =
          ((attributes (cs.dropWhile isNameChar)).1, (attributes (cs.dropWhile isNameChar)).2.1,
            rest) := by
  have stop : isNameChar '>' = false := by decide
  obtain ⟨start, whole, same⟩ := attributes_closed some
  have split : cs = cs.takeWhile isNameChar ++ start ++
      '>' :: (attributes (cs.dropWhile isNameChar)).2.2 := by
    rw [List.append_assoc, ← whole, List.takeWhile_append_dropWhile]
  refine ⟨cs.takeWhile isNameChar ++ start, split, ?_⟩
  intro rest
  have taken := takeWhile_stop stop (cs.takeWhile isNameChar ++ start)
    (attributes (cs.dropWhile isNameChar)).2.2
  have dropped := dropWhile_stop stop (cs.takeWhile isNameChar ++ start)
    (attributes (cs.dropWhile isNameChar)).2.2
  rw [← split] at taken dropped
  have left : (cs.takeWhile isNameChar ++ start).dropWhile isNameChar = start :=
    (List.append_cancel_right (whole.symm.trans dropped)).symm
  rw [takeWhile_stop stop, dropWhile_stop stop, ← taken, left]
  exact ⟨rfl, same rest⟩

theorem startTag_closed {cs : List Char} (named : cs.takeWhile isNameChar ≠ [])
    (some : (startTag cs).rest ≠ []) : Closed startTag cs := by
  have tag : (cs.takeWhile isNameChar).isEmpty = false := by simpa using named
  cases raw : (Keyword.ofTag (foldCase (String.ofList (cs.takeWhile isNameChar)))).isRawtext with
  | false =>
    have left : (startTag cs).rest = (attributes (cs.dropWhile isNameChar)).2.2 := by
      simp [startTag, tag, raw]
    rw [left] at some
    obtain ⟨front, whole, same⟩ := opening_closed some
    refine ⟨front, left ▸ whole, ?_⟩
    intro rest
    obtain ⟨name, read⟩ := same rest
    simp [startTag, name, read, tag, raw]
  | true =>
    have left : (startTag cs).rest =
        (rawtext (foldCase (String.ofList (cs.takeWhile isNameChar)))
          (attributes (cs.dropWhile isNameChar)).2.2).rest := by
      simp [startTag, tag, raw]
    rw [left] at some
    obtain ⟨body, content, again⟩ := rawtext_closed some
    have long : (attributes (cs.dropWhile isNameChar)).2.2 ≠ [] := by
      rw [content]
      simp
    obtain ⟨front, whole, same⟩ := opening_closed long
    refine ⟨front ++ '>' :: body, ?_, ?_⟩
    · rw [left, List.append_assoc, List.cons_append, ← content]
      exact whole
    · intro rest
      obtain ⟨name, read⟩ := same (body ++ '>' :: rest)
      rw [List.append_assoc, List.cons_append]
      simp [startTag, name, read, tag, raw, again rest]

end Scan

section

open Scan

theorem scan_tag {c : Char} (notMark : c ≠ '!' ∧ c ≠ '/') (cs : List Char) :
    scan ('<' :: c :: cs) = startTag (c :: cs) := by
  unfold scan
  split
  · next same => exact absurd (List.cons.inj (List.cons.inj same).2).1 notMark.1
  · next same => exact absurd (List.cons.inj (List.cons.inj same).2).1 notMark.2
  · next same => exact absurd (List.cons.inj (List.cons.inj same).2).1 notMark.1
  · next same => rw [(List.cons.inj same).2]
  · next other => exact absurd rfl (other _)

theorem scan_bang {cs : List Char} (notComment : ∀ more, cs ≠ '-' :: '-' :: more) :
    scan ('<' :: '!' :: cs) =
      if startsIgnoreCase "doctype".toList cs then doctype cs else startTag ('!' :: cs) := by
  unfold scan
  split
  · next same => exact absurd (List.cons.inj (List.cons.inj same).2).2 (notComment _)
  · next same => exact absurd (List.cons.inj (List.cons.inj same).2).1 (by decide)
  · next same => rw [(List.cons.inj (List.cons.inj same).2).2]
  · next other same => exact absurd (List.cons.inj same).2.symm (other _)
  · next other => exact absurd rfl (other _)

theorem scan_plain {cs : List Char} (notMark : cs.head? ≠ some '<') : scan cs = text cs := by
  cases cs with
  | nil => rfl
  | cons c cs =>
    have other : c ≠ '<' := by simpa using notMark
    unfold scan
    split
    · next same => exact absurd (List.cons.inj same).1 other
    · next same => exact absurd (List.cons.inj same).1 other
    · next same => exact absurd (List.cons.inj same).1 other
    · next same => exact absurd (List.cons.inj same).1 other
    · rfl

theorem startsIgnoreCase_stop {word : List Char} (free : '>' ∉ word) {front rest : List Char}
    (starts : startsIgnoreCase word (front ++ '>' :: rest) = true) (rest' : List Char) :
    startsIgnoreCase word (front ++ '>' :: rest') = true := by
  obtain ⟨first, others, whole, lower⟩ := startsIgnoreCase_iff.mp starts
  rw [startsIgnoreCase_iff]
  rcases List.append_eq_append_iff.mp whole with ⟨more, longer, marked⟩ | ⟨more, shorter, _⟩
  · cases more with
    | nil => exact ⟨first, '>' :: rest', by rw [longer, List.append_nil], lower⟩
    | cons c more =>
      obtain ⟨rfl, _⟩ := List.cons.inj marked
      refine absurd ?_ free
      rw [← lower, longer]
      exact List.mem_map.mpr ⟨'>', by simp, by decide⟩
  · exact ⟨first, more ++ '>' :: rest', by simp [shorter], lower⟩

theorem dashes_stop {front rest : List Char}
    (notComment : ∀ more, front ++ '>' :: rest ≠ '-' :: '-' :: more) (rest' : List Char) :
    ∀ more, front ++ '>' :: rest' ≠ '-' :: '-' :: more := by
  intro more same
  match front with
  | [] => cases same
  | [a] =>
    rw [List.singleton_append, List.cons.injEq, List.cons.injEq] at same
    exact absurd same.2.1 (by decide)
  | a :: b :: front =>
    rw [List.cons_append, List.cons_append, List.cons.injEq, List.cons.injEq] at same
    obtain ⟨rfl, rfl, _⟩ := same
    exact notComment (front ++ '>' :: rest) rfl

def Settled (cs front rest : List Char) : Prop :=
  ∃ start, cs = start ++ (front ++ rest) ∧ '>' ∈ start ++ front ∧
    ∀ rest', scan (start ++ (front ++ rest')) = { scan cs with rest := front ++ rest' }

theorem Scan.Closed.settled {read : List Char → Construct} (mark : List Char)
    {cs front rest : List Char} (closed : Closed read cs)
    (reads : ∀ start, cs = start ++ '>' :: (read cs).rest →
      ∀ rest, scan (mark ++ (start ++ '>' :: rest)) = read (start ++ '>' :: rest))
    (left : (scan (mark ++ cs)).rest = front ++ rest) : Settled (mark ++ cs) front rest := by
  obtain ⟨start, whole, same⟩ := closed
  have again := reads start whole
  have found : scan (mark ++ cs) = read cs := by
    have := again (read cs).rest
    rwa [← whole] at this
  rw [found] at left
  refine ⟨mark ++ start ++ ['>'], ?_, by simp, ?_⟩
  · rw [← left, List.append_assoc, List.append_assoc, List.singleton_append, ← whole]
  · intro rest'
    rw [List.append_assoc, List.append_assoc, List.singleton_append, again, same, found]

theorem startTag_nameless {c : Char} (nameless : isNameChar c = false) (cs : List Char) :
    startTag (c :: cs) = ⟨[.text "<"], c :: cs, true⟩ := by
  simp [startTag, nameless]

theorem settled_lone {c : Char} {cs front rest : List Char} (ended : '>' ∈ front)
    (reads : ∀ rest', scan ('<' :: (front ++ rest')) = ⟨[.text "<"], front ++ rest', true⟩)
    (whole : c :: cs = front ++ rest) : Settled ('<' :: c :: cs) front rest := by
  refine ⟨['<'], by rw [whole, List.singleton_append], List.mem_append_right _ ended, ?_⟩
  intro rest'
  rw [List.singleton_append, reads, whole, reads]

theorem settled_text {cs front rest : List Char} (notMark : cs.head? ≠ some '<')
    (left : (scan cs).rest = front ++ rest) (ended : '>' ∈ front) : Settled cs front rest := by
  rw [scan_plain notMark] at left
  have left : cs.dropWhile (· != '<') = front ++ rest := left
  cases front with
  | nil => cases ended
  | cons c front =>
    have mark : c = '<' := by
      have := List.head?_dropWhile_not (· != '<') cs
      simpa [left] using this
    subst mark
    have whole : cs = cs.takeWhile (· != '<') ++ ('<' :: front ++ rest) := by
      rw [← left, List.takeWhile_append_dropWhile]
    refine ⟨cs.takeWhile (· != '<'), whole, List.mem_append_right _ ended, ?_⟩
    intro rest'
    have head : (cs.takeWhile (· != '<') ++ ('<' :: front ++ rest')).head? ≠ some '<' := by
      cases first : cs.takeWhile (· != '<') with
      | nil =>
        rw [first] at whole
        rw [whole] at notMark
        exact absurd rfl notMark
      | cons d run =>
        have other : d ∈ cs.takeWhile (· != '<') := by simp [first]
        simpa using List.all_eq_true.mp List.all_takeWhile d other
    have taken := takeWhile_stop (p := (· != '<')) (c := '<') (by decide)
    have after := dropWhile_run (p := (· != '<')) (c := '<') (by decide) cs (front ++ rest')
    have same : (cs.takeWhile (· != '<') ++ ('<' :: front ++ rest')).takeWhile (· != '<') =
        cs.takeWhile (· != '<') := by
      conv => rhs; rw [whole]
      rw [List.cons_append, taken, List.cons_append, taken]
    rw [scan_plain head, scan_plain notMark, text, same, List.cons_append, after]
    rfl

theorem settled_bang {cs front rest : List Char} (notComment : ∀ more, cs ≠ '-' :: '-' :: more)
    (left : (scan ('<' :: '!' :: cs)).rest = front ++ rest) (some : rest ≠ [])
    (ended : ∀ text, (scan ('<' :: '!' :: cs)).tokens = [.text text] → '>' ∈ front) :
    Settled ('<' :: '!' :: cs) front rest := by
  have free : '>' ∉ "doctype".toList := by decide
  have long : front ++ rest ≠ [] := List.append_ne_nil_of_right_ne_nil front some
  have bang := scan_bang notComment
  by_cases word : startsIgnoreCase "doctype".toList cs = true
  · rw [if_pos word] at bang
    have closed : Closed doctype cs := doctype_closed (by rw [← bang, left]; exact long)
    refine closed.settled ['<', '!'] ?_ left
    intro start whole rest'
    rw [whole] at notComment word
    have again := scan_bang (dashes_stop notComment rest')
    rwa [if_pos (startsIgnoreCase_stop free word rest')] at again
  · rw [if_neg word, startTag_nameless (by decide)] at bang
    have mark := ended "<" (congrArg Construct.tokens bang)
    have whole : '!' :: cs = front ++ rest := (congrArg Construct.rest bang).symm.trans left
    refine settled_lone mark ?_ whole
    intro rest'
    cases front with
    | nil => cases mark
    | cons c front =>
      obtain ⟨rfl, split⟩ := List.cons.inj whole
      have inside : '>' ∈ front := (List.mem_cons.mp mark).resolve_left (by decide)
      obtain ⟨before, after, rfl⟩ := List.append_of_mem inside
      have moved : ∀ r, before ++ '>' :: after ++ r = before ++ '>' :: (after ++ r) := by simp
      have split : cs = before ++ '>' :: (after ++ rest) := split.trans (moved rest)
      rw [split] at notComment word
      rw [List.cons_append, moved, scan_bang (dashes_stop notComment _), if_neg,
        startTag_nameless (by decide)]
      intro starts
      exact word (startsIgnoreCase_stop free starts _)

theorem settled_tag {c : Char} (notMark : c ≠ '!' ∧ c ≠ '/') {cs front rest : List Char}
    (left : (scan ('<' :: c :: cs)).rest = front ++ rest) (some : rest ≠ [])
    (ended : ∀ text, (scan ('<' :: c :: cs)).tokens = [.text text] → '>' ∈ front) :
    Settled ('<' :: c :: cs) front rest := by
  have long : front ++ rest ≠ [] := List.append_ne_nil_of_right_ne_nil front some
  have tag := scan_tag notMark cs
  cases named : isNameChar c with
  | true =>
    have closed : Closed startTag (c :: cs) :=
      startTag_closed (by simp [named]) (by rw [← tag, left]; exact long)
    refine closed.settled ['<'] ?_ left
    intro start whole rest'
    cases start with
    | nil =>
      obtain ⟨rfl, _⟩ := List.cons.inj whole
      exact absurd named (by decide)
    | cons d start =>
      obtain ⟨rfl, _⟩ := List.cons.inj whole
      exact scan_tag notMark _
  | false =>
    rw [startTag_nameless named] at tag
    have mark := ended "<" (congrArg Construct.tokens tag)
    have whole : c :: cs = front ++ rest := (congrArg Construct.rest tag).symm.trans left
    refine settled_lone mark ?_ whole
    intro rest'
    cases front with
    | nil => cases mark
    | cons d front =>
      obtain ⟨rfl, _⟩ := List.cons.inj whole
      rw [List.cons_append, scan_tag notMark, startTag_nameless named]

/-- A construct is settled by what comes before `rest`, if a `>` comes before `rest` and after the
construct, or the construct is more than text. -/
theorem scan_settled {cs front rest : List Char} (left : (scan cs).rest = front ++ rest)
    (some : rest ≠ []) (clear : '>' ∈ front ∨ ∀ text, (scan cs).tokens ≠ [.text text]) :
    Settled cs front rest := by
  have long : front ++ rest ≠ [] := List.append_ne_nil_of_right_ne_nil front some
  have ended : ∀ text, (scan cs).tokens = [.text text] → '>' ∈ front := by
    intro text only
    exact clear.resolve_right fun others => others text only
  by_cases mark : cs.head? = .some '<'
  · obtain ⟨cs, rfl⟩ := List.head?_eq_some_iff.mp mark
    cases cs with
    | nil => exact absurd left.symm long
    | cons c cs =>
      by_cases slash : c = '/'
      · subst slash
        have closed : Closed endTag cs := endTag_closed (left ▸ long)
        exact closed.settled ['<', '/'] (fun _ _ _ => rfl) left
      · by_cases bang : c = '!'
        · subst bang
          by_cases comment : ∃ more, cs = '-' :: '-' :: more
          · obtain ⟨more, rfl⟩ := comment
            have closed : Closed comment more := comment_closed (left ▸ long)
            exact closed.settled ['<', '!', '-', '-'] (fun _ _ _ => rfl) left
          · exact settled_bang (not_exists.mp comment) left some ended
        · exact settled_tag ⟨bang, slash⟩ left some ended
  · exact settled_text mark left (ended _ (congrArg Construct.tokens (scan_plain mark)))

end

end PageFilters
