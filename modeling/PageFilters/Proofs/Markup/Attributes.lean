import PageFilters.Markup.Html
import PageFilters.Proofs.Markup.Escaping
import PageFilters.Proofs.Markup.Names

/-!
Written attributes, read back. Names and values come back as they were, and only the quotes may
differ, where the writer had to choose them. The exception is the last attribute of a tag: a slash
at the end of its unquoted value is taken for the end of the tag.
-/

namespace PageFilters

namespace AttributeOf

def isSlashed (a : Attribute) : Bool :=
  match a.quote, a.value with
  | .unquoted, some value => canStayUnquoted value && value.toList.getLast? == some '/'
  | _, _ => false

def requote (a : Attribute) : Attribute :=
  match a.quote, a.value with
  | _, none => { a with quote := .double }
  | .unquoted, some value => if canStayUnquoted value then a else { a with quote := .double }
  | _, some _ => a

theorem name_requote (a : Attribute) : a.requote.name = a.name := by
  unfold requote
  split
  · rfl
  · split <;> rfl
  · rfl

def unslash (a : Attribute) : Attribute :=
  { a with value := a.value.map fun value => String.ofList value.toList.dropLast }

end AttributeOf

def rereadAttributes : List Attribute → List Attribute
  | [] => []
  | [a] => [if a.isSlashed then a.unslash else a.requote]
  | a :: rest => a.requote :: rereadAttributes rest

/-- Whether the last attribute of a tag runs into the end of the tag. -/
def endsSlashed (attributes : List Attribute) : Bool :=
  (attributes.getLast?.map AttributeOf.isSlashed).getD false

theorem rereadAttributes_of_not_slashed {attributes : List Attribute}
    (clear : endsSlashed attributes = false) :
    rereadAttributes attributes = attributes.map AttributeOf.requote := by
  fun_induction rereadAttributes attributes with
  | case1 => rfl
  | case2 a =>
    have notSlashed : a.isSlashed = false := clear
    rw [notSlashed]
    rfl
  | case3 a rest some ih =>
    rw [List.map_cons, ih]
    cases rest with
    | nil => exact absurd rfl (some)
    | cons b rest => simpa [endsSlashed] using clear

def valueText (a : Attribute) : List Char :=
  match a.value with
  | none => []
  | some value => '=' :: (AttributeOf.quotedValue a.quote value).toList

def attributesText (attributes : List Attribute) : List Char :=
  attributes.flatMap fun a => ' ' :: (a.name.toList ++ valueText a)

theorem toList_html (a : Attribute) : a.html.toList = a.name.toList ++ valueText a := by
  unfold AttributeOf.html valueText
  cases a.value <;> simp

theorem toList_attributes (attributes : List Attribute) :
    (String.join (attributes.map fun a => " " ++ a.html)).toList = attributesText attributes := by
  rw [String.toList_join, List.flatMap_map, attributesText]
  congr 1
  funext a
  rw [String.toList_append, toList_html]
  rfl

theorem escapeValue_of_unquoted {value : String} (stays : canStayUnquoted value = true) :
    ∀ c ∈ (escapeValue '\x22' value).toList,
      isSpace c = false ∧ c ≠ '>' ∧ c ≠ '\x22' ∧ c ≠ '\x27' := by
  simp only [canStayUnquoted, Bool.and_eq_true, List.all_eq_true, Bool.not_eq_true',
    Bool.or_eq_false_iff, beq_eq_false_iff_ne] at stays
  have letters : Reference.valueLetters.all (fun c =>
      !isSpace c && c != '>' && c != '\x22' && c != '\x27') = true := by decide
  intro c member
  by_cases letter : c ∈ Reference.valueLetters
  · simpa [and_assoc] using List.all_eq_true.mp letters c letter
  · have inside : c ∈ value.toList := Decidable.byContradiction fun absent =>
      not_mem_escapeValue letter absent member
    obtain ⟨⟨⟨⟨⟨⟨space, double⟩, single⟩, _⟩, _⟩, ends⟩, _⟩ := stays.2 c inside
    exact ⟨space, ends, double, single⟩

theorem escapeValue_ne_nil {value : String} (stays : canStayUnquoted value = true) :
    (escapeValue '\x22' value).toList ≠ [] := by
  intro none
  have undone := decode_escapeValue '\x22' value []
  rw [none, List.nil_append, Reference.decode, List.append_nil] at undone
  have empty : value = "" := String.toList_injective undone.symm
  rw [empty] at stays
  exact absurd stays (by decide)

theorem escapeValue_slash {front : List Char} :
    (escapeValue '\x22' (String.ofList (front ++ ['/']))).toList =
      (escapeValue '\x22' (String.ofList front)).toList ++ ['/'] := by
  simp [escapeValue, Reference.escapeValueChar]

theorem getLast_escapeValueChar (mark c : Char) :
    (Reference.escapeValueChar mark c).getLast? = some c ∨
      (Reference.escapeValueChar mark c).getLast? = some ';' := by
  unfold Reference.escapeValueChar
  split
  · exact .inr rfl
  · split
    · exact .inr rfl
    · split
      · exact .inr rfl
      · split
        · exact .inr rfl
        · exact .inl rfl

theorem getLast_escapeValue {value : String}
    (slash : (escapeValue '\x22' value).toList.getLast? = some '/') :
    value.toList.getLast? = some '/' := by
  rw [escapeValue, String.toList_ofList] at slash
  rcases List.eq_nil_or_concat value.toList with none | ⟨front, c, whole⟩
  · rw [none] at slash
    cases slash
  · rw [List.concat_eq_append] at whole
    rw [whole, List.flatMap_append, List.flatMap_singleton, List.getLast?_append] at slash
    rw [whole, List.getLast?_concat]
    rcases getLast_escapeValueChar '\x22' c with last | last
    · rwa [last] at slash
    · rw [last, Option.some_or] at slash
      exact absurd slash (by decide)

theorem ofList_decode_escapeValue (mark : Char) (value : String) :
    String.ofList (Reference.decode (escapeValue mark value).toList) = value := by
  have undone := decode_escapeValue mark value []
  rw [List.append_nil] at undone
  rw [undone, Reference.decode, List.append_nil, String.ofList_toList]

theorem isSlashed_iff {a : Attribute} :
    a.isSlashed = true ↔ ∃ front, a.quote = .unquoted ∧
      a.value = some (String.ofList (front ++ ['/'])) ∧
      canStayUnquoted (String.ofList (front ++ ['/'])) = true := by
  obtain ⟨name, value, quote⟩ := a
  constructor
  · intro slashed
    unfold AttributeOf.isSlashed at slashed
    split at slashed
    · next value unquoted held =>
      simp only at unquoted held
      rw [Bool.and_eq_true, beq_iff_eq, List.getLast?_eq_some_iff] at slashed
      obtain ⟨stays, front, whole⟩ := slashed
      have same : value = String.ofList (front ++ ['/']) := by
        rw [← whole, String.ofList_toList]
      exact ⟨front, unquoted, by rw [held, same], same ▸ stays⟩
    · cases slashed
  · rintro ⟨front, unquoted, held, stays⟩
    simp only at unquoted held
    rw [unquoted, held, AttributeOf.isSlashed]
    simp only
    rw [stays, String.toList_ofList, List.getLast?_concat]
    rfl

namespace Scan

def EndsValue : List Char → Prop
  | [] => True
  | c :: cs => isSpace c = true ∨ c = '>' ∨ (c = '/' ∧ cs.head? = some '>')

theorem unquotedValue_append {value rest : List Char}
    (plain : ∀ c ∈ value, isSpace c = false ∧ c ≠ '>') (ends : EndsValue rest)
    (clear : ¬ (value.getLast? = some '/' ∧ rest.head? = some '>')) :
    unquotedValue (value ++ rest) = (value, rest) := by
  induction value with
  | nil =>
    cases rest with
    | nil => rfl
    | cons c cs =>
      rw [List.nil_append, unquotedValue, if_pos]
      simpa [EndsValue, or_assoc] using ends
  | cons c value ih =>
    obtain ⟨notSpace, notEnd⟩ := plain c (List.mem_cons_self ..)
    have goesOn : ¬ (c = '/' ∧ (value ++ rest).head? = some '>') := by
      cases value with
      | nil => simpa using clear
      | cons d value =>
        obtain ⟨_, other⟩ := plain d (by simp)
        simp [other]
    have inner := ih (fun d member => plain d (List.mem_cons_of_mem c member)) (by
      cases value with
      | nil => simp
      | cons d value => simpa using clear)
    rw [List.cons_append, unquotedValue, inner, if_neg]
    simpa [notSpace, notEnd] using goesOn

theorem quotedValue_append {mark : Char} {value : List Char} (absent : mark ∉ value)
    (rest : List Char) : quotedValue mark (value ++ mark :: rest) = (value, rest) := by
  have others : ∀ c ∈ value, (c != mark) = true := by
    intro c member
    simpa using fun same : c = mark => absent (same ▸ member)
  rw [quotedValue, List.takeWhile_append_of_pos others, List.dropWhile_append_of_pos others]
  simp

def IsTail (tail : List Char) : Prop :=
  (∃ more, tail = '>' :: more) ∨ ∃ c more, tail = ' ' :: c :: more ∧ isPlainChar c = true

theorem isTail_attributesText {attributes : List Attribute}
    (named : ∀ a ∈ attributes, IsName a.name) (rest : List Char) :
    IsTail (attributesText attributes ++ '>' :: rest) := by
  cases attributes with
  | nil => exact .inl ⟨rest, rfl⟩
  | cons a others =>
    obtain ⟨some, plain⟩ := named a (List.mem_cons_self ..)
    cases split : a.name.toList with
    | nil => exact absurd (String.toList_injective split) some
    | cons c name =>
      refine .inr ⟨c, name ++ valueText a ++ (attributesText others ++ '>' :: rest), ?_, ?_⟩
      · simp [attributesText, split]
      · exact plain c (by simp [split])

theorem IsTail.bare {tail : List Char} (isTail : IsTail tail) :
    attributeValue tail = (none, .double, tail) := by
  rcases isTail with ⟨more, rfl⟩ | ⟨c, more, rfl, plain⟩
  · rfl
  · have special := not_special_of_plain plain
    have notEqual : c ≠ '=' := fun same => special.2.2 (by rw [same]; decide)
    have skipped : (' ' :: c :: more).dropWhile isSpace = c :: more := by
      rw [List.dropWhile_cons_of_pos (by decide),
        List.dropWhile_cons_of_neg (by simp [special.2.1])]
    unfold attributeValue
    rw [skipped]
    split
    · next same => exact absurd (List.cons.inj same).1 notEqual
    · rfl

theorem attributeValue_quoted {mark : Char} {quote : Quote}
    (quotes : mark = '\x22' ∧ quote = .double ∨ mark = '\x27' ∧ quote = .single)
    {value : List Char} (absent : mark ∉ value) (rest : List Char) :
    attributeValue ('=' :: mark :: (value ++ mark :: rest)) = (some value, quote, rest) := by
  have found := quotedValue_append absent rest
  have sign : ('=' :: mark :: (value ++ mark :: rest)).dropWhile isSpace =
      '=' :: mark :: (value ++ mark :: rest) := List.dropWhile_cons_of_neg (by decide)
  rcases quotes with ⟨rfl, rfl⟩ | ⟨rfl, rfl⟩
  · have mark : ('\x22' :: (value ++ '\x22' :: rest)).dropWhile isSpace =
        '\x22' :: (value ++ '\x22' :: rest) := List.dropWhile_cons_of_neg (by decide)
    simp only [attributeValue, sign, mark, found]
  · have mark : ('\x27' :: (value ++ '\x27' :: rest)).dropWhile isSpace =
        '\x27' :: (value ++ '\x27' :: rest) := List.dropWhile_cons_of_neg (by decide)
    simp only [attributeValue, sign, mark, found]

theorem attributeValue_unquoted {value rest : List Char} {c : Char} {more : List Char}
    (first : value ++ rest = c :: more)
    (plain : isSpace c = false ∧ c ≠ '\x22' ∧ c ≠ '\x27')
    (found : unquotedValue (value ++ rest) = (value, rest)) :
    attributeValue ('=' :: (value ++ rest)) = (some value, .unquoted, rest) := by
  have sign : ('=' :: (value ++ rest)).dropWhile isSpace = '=' :: (value ++ rest) :=
    List.dropWhile_cons_of_neg (by decide)
  have start : (value ++ rest).dropWhile isSpace = value ++ rest := by
    rw [first, List.dropWhile_cons_of_neg (by simp [plain.1])]
  unfold attributeValue
  rw [sign]
  simp only [start]
  split
  · next same => exact absurd (List.cons.inj (first.symm.trans same)).1 plain.2.1
  · next same => exact absurd (List.cons.inj (first.symm.trans same)).1 plain.2.2
  · rw [found]

theorem endsValue_of_isTail {tail : List Char} (isTail : IsTail tail) : EndsValue tail := by
  rcases isTail with ⟨more, rfl⟩ | ⟨c, more, rfl, _⟩
  · exact .inr (.inl rfl)
  · exact .inl rfl

theorem attributeValue_written {a : Attribute} {tail : List Char} (isTail : IsTail tail)
    (clear : ¬ (a.isSlashed = true ∧ tail.head? = some '>')) :
    ∃ value, attributeValue (valueText a ++ tail) = (value, a.requote.quote, tail) ∧
      (value.map fun v => String.ofList (Reference.decode v)) = a.requote.value := by
  obtain ⟨name, value, quote⟩ := a
  have quoted : ∀ (mark : Char) (kept : Quote) (text : String),
      mark = '\x22' ∧ kept = .double ∨ mark = '\x27' ∧ kept = .single →
      ∃ value, attributeValue ('=' :: mark :: ((escapeValue mark text).toList ++ mark :: tail)) =
          (value, kept, tail) ∧
        (value.map fun v => String.ofList (Reference.decode v)) = some text := by
    intro mark kept text quotes
    have absent : mark ∉ (escapeValue mark text).toList :=
      mark_not_mem_escapeValue (by tauto) text
    refine ⟨_, attributeValue_quoted quotes absent tail, ?_⟩
    rw [Option.map_some, ofList_decode_escapeValue]
  cases value with
  | none => exact ⟨none, isTail.bare, rfl⟩
  | some value =>
    cases quote with
    | double =>
      have read := quoted '\x22' .double value (.inl ⟨rfl, rfl⟩)
      simpa [valueText, AttributeOf.quotedValue, AttributeOf.requote] using read
    | single =>
      have read := quoted '\x27' .single value (.inr ⟨rfl, rfl⟩)
      simpa [valueText, AttributeOf.quotedValue, AttributeOf.requote] using read
    | unquoted =>
      by_cases stays : canStayUnquoted value = true
      · have plain := escapeValue_of_unquoted stays
        obtain ⟨c, more, first⟩ := List.exists_cons_of_ne_nil (escapeValue_ne_nil stays)
        have special := plain c (by simp [first])
        have found := unquotedValue_append (fun c member => ⟨(plain c member).1,
          (plain c member).2.1⟩) (endsValue_of_isTail isTail) (by
            rintro ⟨slash, ends⟩
            refine clear ⟨?_, ends⟩
            simp [AttributeOf.isSlashed, stays, getLast_escapeValue slash])
        have start : (escapeValue '\x22' value).toList ++ tail = c :: (more ++ tail) := by
          rw [first, List.cons_append]
        have read := attributeValue_unquoted start ⟨special.1, special.2.2⟩ found
        refine ⟨some (escapeValue '\x22' value).toList, ?_, ?_⟩
        · simpa [valueText, AttributeOf.quotedValue, AttributeOf.requote, stays] using read
        · simp [AttributeOf.requote, stays, ofList_decode_escapeValue]
      · have read := quoted '\x22' .double value (.inl ⟨rfl, rfl⟩)
        simpa [valueText, AttributeOf.quotedValue, AttributeOf.requote, stays] using read

theorem attributeValue_slashed {a : Attribute} (slashed : a.isSlashed = true) (rest : List Char) :
    ∃ value, attributeValue (valueText a ++ '>' :: rest) =
        (value, a.unslash.quote, '/' :: '>' :: rest) ∧
      (value.map fun v => String.ofList (Reference.decode v)) = a.unslash.value := by
  obtain ⟨front, unquoted, held, stays⟩ := isSlashed_iff.mp slashed
  have plain := escapeValue_of_unquoted stays
  rw [escapeValue_slash] at plain
  have ends : EndsValue ('/' :: '>' :: rest) := .inr (.inr ⟨rfl, rfl⟩)
  have found := unquotedValue_append
    (fun c member => ⟨(plain c (List.mem_append_left _ member)).1,
      (plain c (List.mem_append_left _ member)).2.1⟩) ends (by simp)
  obtain ⟨c, more, first⟩ : ∃ c more, (escapeValue '\x22' (String.ofList front)).toList ++
      '/' :: '>' :: rest = c :: more := List.exists_cons_of_ne_nil (by simp)
  have special : isSpace c = false ∧ c ≠ '\x22' ∧ c ≠ '\x27' := by
    have member : c ∈ (escapeValue '\x22' (String.ofList front)).toList ++ ['/'] := by
      have head : ((escapeValue '\x22' (String.ofList front)).toList ++ ['/']) ++ '>' :: rest =
          c :: more := by rw [List.append_assoc]; exact first
      cases whole : (escapeValue '\x22' (String.ofList front)).toList ++ ['/'] with
      | nil => simp at whole
      | cons d others =>
        rw [whole, List.cons_append, List.cons.injEq] at head
        simp [head.1]
    have all := plain c member
    exact ⟨all.1, all.2.2⟩
  have read := attributeValue_unquoted first special found
  refine ⟨some (escapeValue '\x22' (String.ofList front)).toList, ?_, ?_⟩
  · rw [valueText, held, unquoted]
    simp only [AttributeOf.quotedValue, stays, ↓reduceIte, escapeValue_slash]
    rw [List.cons_append, List.append_assoc]
    exact read.trans (by rw [AttributeOf.unslash, unquoted])
  · simp [AttributeOf.unslash, held, ofList_decode_escapeValue]

theorem takeWhile_name {name : List Char} (plain : ∀ c ∈ name, isPlainChar c = true)
    (tail : List Char) (ended : ∀ c, tail.head? = some c → isNameChar c = false) :
    (name ++ tail).takeWhile isNameChar = name ∧ (name ++ tail).dropWhile isNameChar = tail := by
  have all : ∀ c ∈ name, isNameChar c = true := fun c member =>
    isNameChar_of_plain (plain c member)
  rw [List.takeWhile_append_of_pos all, List.dropWhile_append_of_pos all]
  cases tail with
  | nil => simp
  | cons c tail =>
    have ends := ended c rfl
    rw [List.takeWhile_cons_of_neg (by simp [ends]), List.dropWhile_cons_of_neg (by simp [ends])]
    simp

theorem head_valueText {a : Attribute} {tail : List Char} (isTail : IsTail tail) :
    ∀ c, (valueText a ++ tail).head? = some c → isNameChar c = false := by
  intro c first
  rw [valueText] at first
  cases held : a.value with
  | some value =>
    simp only [held, List.cons_append, List.head?_cons, Option.some.injEq] at first
    rw [← first]
    decide
  | none =>
    simp only [held, List.nil_append] at first
    rcases isTail with ⟨more, rfl⟩ | ⟨d, more, rfl, _⟩ <;>
    · rw [List.head?_cons, Option.some.injEq] at first
      rw [← first]
      decide

theorem attributes_cons {a : Attribute} (named : IsName a.name) {tail left : List Char}
    (ended : ∀ c, tail.head? = some c → isNameChar c = false) {value : Option (List Char)}
    {quote : Quote} (read : attributeValue tail = (value, quote, left)) :
    attributes (' ' :: (a.name.toList ++ tail)) =
      (⟨a.name, value.map fun v => String.ofList (Reference.decode v), quote⟩ ::
        (attributes left).1, (attributes left).2) := by
  obtain ⟨taken, dropped⟩ := takeWhile_name named.2 tail ended
  cases split : a.name.toList with
  | nil => exact absurd (String.toList_injective split) named.1
  | cons c name =>
    have plain := named.2 c (by simp [split])
    have special := not_special_of_plain plain
    have notEnd : c ≠ '>' := fun same => special.2.2 (by rw [same]; decide)
    have notSlash : c ≠ '/' := fun same => special.2.2 (by rw [same]; decide)
    rw [split] at taken dropped
    rw [List.cons_append, List.dropWhile_cons_of_pos (isNameChar_of_plain plain)] at dropped
    rw [List.cons_append, List.takeWhile_cons_of_pos (isNameChar_of_plain plain)] at taken
    rw [attributes, if_neg (by decide), if_neg (by simp), if_neg (by decide), List.cons_append,
      attributes, if_neg notEnd, if_neg (by simp [notSlash]), if_pos (isNameChar_of_plain plain)]
    have kept : keepAttribute (c :: (name ++ tail).takeWhile isNameChar) value quote =
        ⟨a.name, value.map fun v => String.ofList (Reference.decode v), quote⟩ := by
      rw [taken, ← split, keepAttribute, String.ofList_toList, named.foldCase_eq]
    rw [← kept]
    simp only [dropped, read]

theorem attributes_written {as : List Attribute} (named : ∀ a ∈ as, IsName a.name)
    (rest : List Char) :
    attributes (attributesText as ++ '>' :: rest) =
      (rereadAttributes as, endsSlashed as, rest) := by
  have done : attributes ('>' :: rest) = ([], false, rest) := by rw [attributes, if_pos rfl]
  induction as with
  | nil => exact done
  | cons a others ih =>
    have isTail := isTail_attributesText
      (fun b member => named b (List.mem_cons_of_mem a member)) rest
    have name := named a (List.mem_cons_self ..)
    have text : attributesText (a :: others) ++ '>' :: rest =
        ' ' :: (a.name.toList ++ (valueText a ++ (attributesText others ++ '>' :: rest))) := by
      simp [attributesText]
    rw [text]
    by_cases slashed : a.isSlashed = true ∧ others = []
    · obtain ⟨runs, rfl⟩ := slashed
      obtain ⟨value, read, same⟩ := attributeValue_slashed runs rest
      rw [attributes_cons name (head_valueText isTail) read, same, attributes, if_neg (by decide),
        if_pos ⟨rfl, rfl⟩, rereadAttributes, if_pos runs]
      simp [endsSlashed, runs, AttributeOf.unslash]
    · obtain ⟨value, read, same⟩ := attributeValue_written (a := a) isTail (by
        rintro ⟨runs, ends⟩
        cases others with
        | nil => exact slashed ⟨runs, rfl⟩
        | cons b others => simp [attributesText] at ends)
      have kept : (⟨a.name, a.requote.value, a.requote.quote⟩ : Attribute) = a.requote := by
        rw [← AttributeOf.name_requote a]
      rw [attributes_cons name (head_valueText isTail) read, same,
        ih fun b member => named b (List.mem_cons_of_mem a member), kept]
      cases others with
      | nil =>
        have clear : a.isSlashed = false := by simpa using slashed
        simp [rereadAttributes, endsSlashed, clear]
      | cons b others => simp [rereadAttributes, endsSlashed]

end Scan

theorem valueText_requote (a : Attribute) : valueText a.requote = valueText a := by
  obtain ⟨name, value, quote⟩ := a
  cases value with
  | none => rfl
  | some value =>
    cases quote with
    | double => rfl
    | single => rfl
    | unquoted =>
      by_cases stays : canStayUnquoted value = true
      · simp [AttributeOf.requote, stays]
      · simp [AttributeOf.requote, stays, valueText, AttributeOf.quotedValue]

theorem valueText_unslash {a : Attribute} (slashed : a.isSlashed = true) (rest rest' : List Char) :
    valueText a.unslash ++ '>' :: rest' ≠ valueText a ++ '>' :: rest := by
  obtain ⟨front, unquoted, held, stays⟩ := isSlashed_iff.mp slashed
  have plain := escapeValue_of_unquoted stays
  intro same
  rw [valueText, valueText, AttributeOf.unslash, held, unquoted] at same
  simp only [Option.map_some, String.toList_ofList, List.dropLast_concat,
    AttributeOf.quotedValue, stays, ↓reduceIte, List.cons_append, List.cons.injEq,
    true_and] at same
  split at same
  · rw [escapeValue_slash, List.append_assoc, List.append_cancel_left_eq] at same
    exact absurd (List.cons.inj same).1 (by decide)
  · cases whole : (escapeValue '\x22' (String.ofList (front ++ ['/']))).toList with
    | nil => exact escapeValue_ne_nil stays whole
    | cons c others =>
      rw [whole] at same
      simp only [String.toList_append, List.append_assoc, List.cons_append] at same
      have first := (List.cons.inj same).1
      exact (plain c (by rw [whole]; exact List.mem_cons_self ..)).2.2.1 first.symm

theorem attributesText_reread {as : List Attribute} {rest rest' : List Char}
    (same : attributesText (rereadAttributes as) ++ '>' :: rest' =
      attributesText as ++ '>' :: rest) : endsSlashed as = false ∧ rest' = rest := by
  induction as with
  | nil => exact ⟨rfl, (List.cons.inj same).2⟩
  | cons a others ih =>
    cases others with
    | nil =>
      by_cases slashed : a.isSlashed = true
      · rw [rereadAttributes, if_pos slashed] at same
        simp only [attributesText, List.flatMap_cons, List.flatMap_nil, List.append_nil,
          List.cons_append, List.append_assoc, List.cons.injEq, true_and] at same
        exact absurd (List.append_cancel_left same) (valueText_unslash slashed rest rest')
      · rw [rereadAttributes, if_neg slashed] at same
        simp only [attributesText, List.flatMap_cons, List.flatMap_nil, List.append_nil,
          valueText_requote, AttributeOf.name_requote] at same
        have cut := List.append_cancel_left same
        exact ⟨by simpa [endsSlashed] using slashed, (List.cons.inj cut).2⟩
    | cons b others =>
      have text : ∀ c cs left, attributesText (c :: cs) ++ '>' :: left =
          ' ' :: (c.name.toList ++ valueText c) ++ (attributesText cs ++ '>' :: left) := by
        simp [attributesText]
      have first : rereadAttributes (a :: b :: others) =
          a.requote :: rereadAttributes (b :: others) := by simp [rereadAttributes]
      rw [first, text, text, valueText_requote, AttributeOf.name_requote,
        List.append_cancel_left_eq] at same
      obtain ⟨clear, equal⟩ := ih same
      exact ⟨by simpa [endsSlashed] using clear, equal⟩

end PageFilters
