import PageFilters.Proofs.Document.WellFormed
import PageFilters.Proofs.Markup.Attributes
import PageFilters.Proofs.Markup.Constructs

/-!
Written trees, read back. Each construct that the writer puts out is one construct for the scanner,
whatever follows it, so the trees that markup tells are those that it was written from, up to the
attributes that are read back otherwise.
-/

namespace PageFilters

def Element.reread (e : Element) : Element :=
  { e with attributes := rereadAttributes e.attributes }

def Element.endsSlashed (e : Element) : Bool :=
  PageFilters.endsSlashed e.attributes

def rereadAll (ts : List (Tree NodeData)) : List (Tree NodeData) :=
  Tree.mapAll (NodeData.mapElement Element.reread) ts

def Stops (cs : List Char) : Prop :=
  ∀ c, cs.head? = some c → c = '<'

theorem spell_scan {cs rest : List Char} {tokens : List (Token String)} (long : cs ≠ [])
    (found : scan cs = ⟨tokens, rest, true⟩) : spell cs = tokens ++ spell rest := by
  rw [spell, dif_neg long, found]
  rfl

theorem scan_text {text : String} (long : text ≠ "") {rest : List Char} (stops : Stops rest) :
    scan ((escapeText text).toList ++ rest) = ⟨[.text text], rest, true⟩ := by
  have absent := lt_not_mem_escapeText text
  have others : ∀ c ∈ (escapeText text).toList, (c != '<') = true := by
    intro c member
    simpa using fun same : c = '<' => absent (same ▸ member)
  have body : Scan.text ((escapeText text).toList ++ rest) = ⟨[.text text], rest, true⟩ := by
    have undone := decode_escapeText text []
    rw [List.append_nil] at undone
    have ended : rest.takeWhile (· != '<') = [] ∧ rest.dropWhile (· != '<') = rest := by
      cases rest with
      | nil => exact ⟨rfl, rfl⟩
      | cons c rest => simp [stops c rfl]
    rw [Scan.text, List.takeWhile_append_of_pos others, List.dropWhile_append_of_pos others,
      ended.1, ended.2, List.append_nil, undone, Reference.decode, List.append_nil,
      String.ofList_toList]
  obtain ⟨c, cs, split⟩ := List.exists_cons_of_ne_nil (escapeText_ne_nil long)
  have first : c ≠ '<' := fun same => absent (by rw [split, same]; exact List.mem_cons_self ..)
  rw [← body, split, List.cons_append]
  unfold scan
  split <;> simp_all

theorem scan_comment {text : String} (comment : IsComment text.toList) (rest : List Char) :
    scan ('<' :: '!' :: '-' :: '-' :: (text.toList ++ '-' :: '-' :: '>' :: rest)) =
      ⟨[.comment text], rest, true⟩ := by
  rw [scan, Scan.comment, Scan.cut_comment comment]
  simp only [String.ofList_toList]

theorem scan_declaration {c : Char} (notDash : c ≠ '-') (cs : List Char) :
    scan ('<' :: '!' :: c :: cs) =
      if startsIgnoreCase "doctype".toList (c :: cs) then Scan.doctype (c :: cs)
      else Scan.startTag ('!' :: c :: cs) := by
  rw [scan]
  intro rest same
  exact notDash (List.cons.inj same).1

theorem scan_doctype {text : String} (doctype : IsDoctype text.toList) (rest : List Char) :
    scan ('<' :: '!' :: (text.toList ++ '>' :: rest)) = ⟨[.doctype text], rest, true⟩ := by
  obtain ⟨front, others, whole, lower⟩ := startsIgnoreCase_iff.mp doctype.word
  obtain ⟨c, cs, split⟩ := List.exists_cons_of_ne_nil (word_ne_nil lower)
  have solid := solid_of_word lower c (by simp [split])
  have notDash : c ≠ '-' := fun same => solid.2 (by rw [same]; decide)
  have begins : text.toList = c :: (cs ++ others) := by rw [whole, split, List.cons_append]
  have word : startsIgnoreCase "doctype".toList (text.toList ++ '>' :: rest) = true :=
    startsIgnoreCase_iff.mpr
      ⟨front, others ++ '>' :: rest, by rw [whole, List.append_assoc], lower⟩
  have trimmed : trim text.toList = text.toList := by
    rw [begins, trim_of_head solid.1, ← begins]
    exact trimEnd_of_solid doctype.trimmed
  have read : Scan.doctype (text.toList ++ '>' :: rest) = ⟨[.doctype text], rest, true⟩ := by
    rw [Scan.doctype, Scan.cut_doctype doctype.unended]
    simp only [trimmed, String.ofList_toList]
  have tag : scan ('<' :: '!' :: (text.toList ++ '>' :: rest)) =
      if startsIgnoreCase "doctype".toList (text.toList ++ '>' :: rest) then
        Scan.doctype (text.toList ++ '>' :: rest)
      else Scan.startTag ('!' :: (text.toList ++ '>' :: rest)) := by
    rw [begins, List.cons_append]
    exact scan_declaration notDash _
  rw [tag, if_pos word, read]

theorem scan_endTag {name : String} (named : IsName name) (rest : List Char) :
    scan ('<' :: '/' :: (name.toList ++ '>' :: rest)) = ⟨[.endTag name], rest, true⟩ := by
  obtain ⟨taken, _⟩ := Scan.takeWhile_name named.2 ('>' :: rest) (by
    intro c first
    rw [← Option.some.inj first]
    decide)
  have others : ∀ c ∈ name.toList, (c != '>') = true := by
    intro c member
    simpa using fun same : c = '>' =>
      (not_special_of_plain (named.2 c member)).2.2 (by rw [same]; decide)
  have some : name.toList.isEmpty = false := by
    rw [List.isEmpty_eq_false_iff]
    exact fun none => named.1 (String.toList_injective none)
  rw [scan, Scan.endTag, taken, List.dropWhile_append_of_pos others]
  simp [some, named.foldCase_eq]

theorem startTag_written {e : Element} (named : e.HasNames) (rest : List Char) :
    scan ('<' :: (e.name.toList ++ (attributesText e.attributes ++ '>' :: rest))) =
      let opening : Token String :=
        .startTag e.name (rereadAttributes e.attributes) (isVoid e.name) e.endsSlashed
      if e.keyword.isRawtext then
        let content := Scan.rawtext e.name rest
        ⟨opening :: content.tokens, content.rest, content.more⟩
      else ⟨[opening], rest, true⟩ := by
  have isTail := Scan.isTail_attributesText named.2 rest
  obtain ⟨taken, dropped⟩ := Scan.takeWhile_name named.1.2
    (attributesText e.attributes ++ '>' :: rest) (by
      intro c first
      rcases isTail with ⟨more, same⟩ | ⟨d, more, same, _⟩ <;>
      · rw [same, List.head?_cons, Option.some.injEq] at first
        rw [← first]
        decide)
  have some : e.name.toList.isEmpty = false := by
    rw [List.isEmpty_eq_false_iff]
    exact fun none => named.1.1 (String.toList_injective none)
  have read := Scan.attributes_written named.2 rest
  have tag : scan ('<' :: (e.name.toList ++ (attributesText e.attributes ++ '>' :: rest))) =
      Scan.startTag (e.name.toList ++ (attributesText e.attributes ++ '>' :: rest)) := by
    cases split : e.name.toList with
    | nil => simp [split] at some
    | cons c name =>
      have special := not_special_of_plain (named.1.2 c (by simp [split]))
      have notSlash : c ≠ '/' := fun same => special.2.2 (by rw [same]; decide)
      have notMark : c ≠ '!' := fun same => special.2.2 (by rw [same]; decide)
      rw [List.cons_append]
      unfold scan
      split <;> simp_all
  rw [tag, Scan.startTag, taken, dropped, some, read]
  simp only [Bool.false_eq_true, ↓reduceIte, String.ofList_toList, named.1.foldCase_eq]
  rfl

theorem rawtext_written {name body : String} (named : IsName name)
    (absent : ¬ HasCloseTag name.toList body.toList) (rest : List Char) :
    Scan.rawtext name (body.toList ++ '<' :: '/' :: name.toList ++ '>' :: rest) =
      ⟨rawTokens name body, rest, true⟩ := by
  have cut := Scan.cut_rawtext named.2 absent rest
  rw [Scan.rawtext, cut, rawTokens]
  simp only [String.ofList_toList]
  by_cases empty : body = ""
  · simp [empty]
  · have long : body.toList.isEmpty = false := by
      rw [List.isEmpty_eq_false_iff]
      exact fun none => empty (String.toList_injective none)
    simp [empty, long]

theorem toList_startTag (e : Element) :
    e.startTag.toList = '<' :: (e.name.toList ++ (attributesText e.attributes ++ ['>'])) := by
  rw [Element.startTag, String.toList_append, String.toList_append, toList_attributes]
  simp

theorem toList_endTag (e : Element) :
    e.endTag.toList = '<' :: '/' :: (e.name.toList ++ ['>']) := by
  simp [Element.endTag]

theorem htmlAll_rawText (body : String) : Tree.htmlAll true (rawText body) = body := by
  unfold rawText
  split
  · next empty => rw [empty, Tree.htmlAll]
  · simp [Tree.htmlAll, Tree.html]

theorem rereadAll_rawText (body : String) : rereadAll (rawText body) = rawText body := by
  unfold rawText
  split <;> rfl

theorem Writable.stops {ts : List (Tree NodeData)} (writable : Writable ts)
    (notText : startsWithText ts = false) {rest : List Char} (stops : Stops rest) :
    Stops ((Tree.htmlAll false ts).toList ++ rest) := by
  intro c first
  cases writable with
  | nil => exact stops c (by simpa [Tree.htmlAll] using first)
  | text _ _ _ => simp [startsWithText] at notText
  | doctype _ _ => exact (by simpa [Tree.htmlAll, Tree.html] using first : '<' = c).symm
  | comment _ _ => exact (by simpa [Tree.htmlAll, Tree.html] using first : '<' = c).symm
  | void _ void _ =>
    exact (by simpa [Tree.htmlAll, Tree.html, void, toList_startTag] using first : '<' = c).symm
  | raw named raw _ _ =>
    have notVoid := named.1.not_void_of_rawtext raw
    exact (by simpa [Tree.htmlAll, Tree.html, notVoid, toList_startTag] using first : '<' = c).symm
  | element _ notVoid _ _ _ =>
    exact (by simpa [Tree.htmlAll, Tree.html, notVoid, toList_startTag] using first : '<' = c).symm

section

variable {e : Element} (ts : List (Tree NodeData)) (rest : List Char)

theorem spell_doctype {text : String} (doctype : IsDoctype text.toList) :
    spell ((Tree.htmlAll false (.node (.doctype text) [] :: ts)).toList ++ rest) =
      .doctype text :: spell ((Tree.htmlAll false ts).toList ++ rest) := by
  have written : (Tree.htmlAll false (.node (.doctype text) [] :: ts)).toList ++ rest =
      '<' :: '!' :: (text.toList ++ '>' :: ((Tree.htmlAll false ts).toList ++ rest)) := by
    simp [Tree.htmlAll, Tree.html]
  rw [written, spell_scan (List.cons_ne_nil _ _) (scan_doctype doctype _), List.singleton_append]

theorem spell_comment {text : String} (comment : IsComment text.toList) :
    spell ((Tree.htmlAll false (.node (.comment text) [] :: ts)).toList ++ rest) =
      .comment text :: spell ((Tree.htmlAll false ts).toList ++ rest) := by
  have written : (Tree.htmlAll false (.node (.comment text) [] :: ts)).toList ++ rest =
      '<' :: '!' :: '-' :: '-' ::
        (text.toList ++ '-' :: '-' :: '>' :: ((Tree.htmlAll false ts).toList ++ rest)) := by
    simp [Tree.htmlAll, Tree.html]
  rw [written, spell_scan (List.cons_ne_nil _ _) (scan_comment comment _), List.singleton_append]

theorem spell_text {text : String} (long : text ≠ "")
    (stops : Stops ((Tree.htmlAll false ts).toList ++ rest)) :
    spell ((Tree.htmlAll false (.node (.text text) [] :: ts)).toList ++ rest) =
      .text text :: spell ((Tree.htmlAll false ts).toList ++ rest) := by
  have written : (Tree.htmlAll false (.node (.text text) [] :: ts)).toList ++ rest =
      (escapeText text).toList ++ ((Tree.htmlAll false ts).toList ++ rest) := by
    simp [Tree.htmlAll, Tree.html]
  have some := List.append_ne_nil_of_left_ne_nil (escapeText_ne_nil long)
    ((Tree.htmlAll false ts).toList ++ rest)
  rw [written, spell_scan some (scan_text long stops), List.singleton_append]

theorem spell_endTag {name : String} (named : IsName name) :
    spell ('<' :: '/' :: (name.toList ++ '>' :: rest)) = .endTag name :: spell rest := by
  rw [spell_scan (List.cons_ne_nil _ _) (scan_endTag named rest), List.singleton_append]

theorem spell_void (named : e.HasNames) (void : isVoid e.name = true) :
    spell ((Tree.htmlAll false (.node (.element e) [] :: ts)).toList ++ rest) =
      .startTag e.name (rereadAttributes e.attributes) (isVoid e.name) e.endsSlashed ::
        spell ((Tree.htmlAll false ts).toList ++ rest) := by
  have notRaw : e.keyword.isRawtext = false := by
    by_contra raw
    rw [named.1.not_void_of_rawtext (Bool.not_eq_false _ ▸ raw)] at void
    cases void
  have written : (Tree.htmlAll false (.node (.element e) [] :: ts)).toList ++ rest =
      '<' :: (e.name.toList ++ (attributesText e.attributes ++
        '>' :: ((Tree.htmlAll false ts).toList ++ rest))) := by
    simp [Tree.htmlAll, Tree.html, void, toList_startTag]
  have found := startTag_written named ((Tree.htmlAll false ts).toList ++ rest)
  rw [notRaw] at found
  rw [written, spell_scan (List.cons_ne_nil _ _) found, List.singleton_append]

theorem spell_raw {body : String} (named : e.HasNames) (raw : e.keyword.isRawtext = true)
    (absent : ¬ HasCloseTag e.name.toList body.toList) :
    spell ((Tree.htmlAll false (.node (.element e) (rawText body) :: ts)).toList ++ rest) =
      .startTag e.name (rereadAttributes e.attributes) (isVoid e.name) e.endsSlashed ::
        (rawTokens e.name body ++ spell ((Tree.htmlAll false ts).toList ++ rest)) := by
  have notVoid := named.1.not_void_of_rawtext raw
  have written : (Tree.htmlAll false (.node (.element e) (rawText body) :: ts)).toList ++ rest =
      '<' :: (e.name.toList ++ (attributesText e.attributes ++ '>' ::
        (body.toList ++ '<' :: '/' :: e.name.toList ++
          '>' :: ((Tree.htmlAll false ts).toList ++ rest)))) := by
    simp [Tree.htmlAll, Tree.html, notVoid, raw, htmlAll_rawText, toList_startTag, toList_endTag]
  have found := startTag_written named (body.toList ++ '<' :: '/' :: e.name.toList ++
    '>' :: ((Tree.htmlAll false ts).toList ++ rest))
  rw [raw, rawtext_written named.1 absent] at found
  rw [written, spell_scan (List.cons_ne_nil _ _) found]
  rfl

theorem spell_element {inside : List (Tree NodeData)} (named : e.HasNames)
    (notVoid : isVoid e.name = false) (notRaw : e.keyword.isRawtext = false) :
    spell ((Tree.htmlAll false (.node (.element e) inside :: ts)).toList ++ rest) =
      .startTag e.name (rereadAttributes e.attributes) (isVoid e.name) e.endsSlashed ::
        spell ((Tree.htmlAll false inside).toList ++ '<' :: '/' :: (e.name.toList ++
          '>' :: ((Tree.htmlAll false ts).toList ++ rest))) := by
  have written : (Tree.htmlAll false (.node (.element e) inside :: ts)).toList ++ rest =
      '<' :: (e.name.toList ++ (attributesText e.attributes ++ '>' ::
        ((Tree.htmlAll false inside).toList ++ '<' :: '/' :: (e.name.toList ++
          '>' :: ((Tree.htmlAll false ts).toList ++ rest))))) := by
    simp [Tree.htmlAll, Tree.html, notVoid, notRaw, toList_startTag, toList_endTag]
  have found := startTag_written named ((Tree.htmlAll false inside).toList ++
    '<' :: '/' :: (e.name.toList ++ '>' :: ((Tree.htmlAll false ts).toList ++ rest)))
  rw [notRaw] at found
  rw [written, spell_scan (List.cons_ne_nil _ _) found, List.singleton_append]

end

open Outline

theorem modifyHead_append {levels : List (List (Tree NodeData))} (t : Tree NodeData)
    (ts : List (Tree NodeData)) :
    (levels.modifyHead (ts ++ ·)).modifyHead (t :: ·) = levels.modifyHead ((t :: ts) ++ ·) := by
  cases levels <;> rfl

theorem levelTrees_written {ts : List (Tree NodeData)} (writable : Writable ts)
    {rest : List Char} (stops : Stops rest) (names : List String) :
    levelTrees names (spell ((Tree.htmlAll false ts).toList ++ rest)) =
      (levelTrees names (spell rest)).modifyHead (rereadAll ts ++ ·) := by
  induction writable generalizing rest names with
  | nil => exact (modifyHead_id _).symm
  | @doctype text ts doctype _ ih =>
    rw [spell_doctype ts rest doctype, levelTrees_doctype, ih stops, modifyHead_append]
    rfl
  | @comment text ts comment _ ih =>
    rw [spell_comment ts rest comment, levelTrees_comment, ih stops, modifyHead_append]
    rfl
  | @text text ts long notText writable ih =>
    rw [spell_text ts rest long (writable.stops notText stops), levelTrees_text _ _ long, ih stops,
      modifyHead_append]
    rfl
  | @void e ts named void _ ih =>
    have read := levelTrees_startTag names (spell ((Tree.htmlAll false ts).toList ++ rest)) e.reread
      (isVoid e.name) e.endsSlashed
    rw [if_pos void, ih stops, modifyHead_append] at read
    rw [spell_void ts rest named void]
    exact read
  | @raw e body ts named raw absent _ ih =>
    have notVoid := named.1.not_void_of_rawtext raw
    have read := levelTrees_startTag names (rawTokens e.name body ++
      spell ((Tree.htmlAll false ts).toList ++ rest)) e.reread (isVoid e.name) e.endsSlashed
    have inside := levelTrees_rawTokens names e.name body
      (spell ((Tree.htmlAll false ts).toList ++ rest))
    have same := rereadAll_rawText body
    rw [if_neg (by simp [notVoid])] at read
    rw [spell_raw ts rest named raw absent]
    refine read.trans ?_
    rw [Element.reread, inside, nestTrees_cons, ih stops, modifyHead_append]
    rw [rereadAll] at same
    rw [rereadAll, rereadAll, Tree.mapAll, Tree.map, same]
    rfl
  | @element e inside ts named notVoid notRaw _ _ ihInside ihRest =>
    have ended : Stops ('<' :: '/' :: (e.name.toList ++
        '>' :: ((Tree.htmlAll false ts).toList ++ rest))) := by
      intro c first
      exact (Option.some.inj first).symm
    have read := levelTrees_startTag names (spell ((Tree.htmlAll false inside).toList ++
      '<' :: '/' :: (e.name.toList ++ '>' :: ((Tree.htmlAll false ts).toList ++ rest)))) e.reread
      (isVoid e.name) e.endsSlashed
    rw [if_neg (by simp [notVoid])] at read
    rw [spell_element ts rest named notVoid notRaw]
    refine read.trans ?_
    rw [Element.reread, ihInside ended, spell_endTag _ named.1, levelTrees_close,
      List.modifyHead_cons, nestTrees_cons, ihRest stops, modifyHead_append, List.append_nil]
    rfl

theorem trees_written {ts : List (Tree NodeData)} (writable : Writable ts) :
    (Outline.ofText (Tree.htmlAll false ts)).trees = rereadAll ts := by
  have stops : Stops [] := fun _ first => nomatch first
  have told := levelTrees_written writable stops []
  rw [List.append_nil, spell_nil, levelTrees_nil] at told
  rw [trees_ofText, told]
  simp

end PageFilters
