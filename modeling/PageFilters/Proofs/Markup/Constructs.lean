import PageFilters.Proofs.Markup.Escaping
import PageFilters.Proofs.Markup.Outline
import PageFilters.Proofs.Markup.Writable
import PageFilters.Proofs.Text.Trim

/-!
What the scanner finds in any text. A construct is a single token, or a start tag with its raw text
and its end tag; the names in it are names, and what it holds is free of its own end. So the trees
that a text says are writable, once texts side by side are merged.
-/

namespace PageFilters

def rawTokens (tag body : String) : List (Token String) :=
  if body = "" then [.endTag tag] else [.text body, .endTag tag]

inductive IsConstruct : List (Token String) → Prop where
  | none : IsConstruct []
  | doctype {text} : IsDoctype text.toList → IsConstruct [.doctype text]
  | comment {text} : IsComment text.toList → IsConstruct [.comment text]
  | text {text} : IsConstruct [.text text]
  | endTag {name} : IsConstruct [.endTag name]
  | startTag {e : Element} {slashed} : e.HasNames → e.keyword.isRawtext = false →
      IsConstruct [.startTag e.name e.attributes (isVoid e.name) slashed]
  | raw {e : Element} {slashed body} : e.HasNames → e.keyword.isRawtext = true →
      ¬ HasCloseTag e.name.toList body.toList →
      IsConstruct (.startTag e.name e.attributes (isVoid e.name) slashed :: rawTokens e.name body)

theorem solid_of_word {word : List Char} (lower : word.map Char.toLower = "doctype".toList) :
    ∀ c ∈ word, isBlank c = false ∧ c ∉ "-/>".toList := by
  intro c member
  have letter : c.toLower ∈ "doctype".toList := lower ▸ List.mem_map_of_mem member
  have small : "doctype".toList.all (fun d => d.toNat < 128) = true := by decide
  exact ascii_of_numbers
    (P := fun c => c.toLower ∈ "doctype".toList → isBlank c = false ∧ c ∉ "-/>".toList)
    (by decide) c (ascii_of_toLower (by simpa using List.all_eq_true.mp small _ letter)) letter

theorem word_ne_nil {word : List Char} (lower : word.map Char.toLower = "doctype".toList) :
    word ≠ [] := by
  intro none
  rw [none] at lower
  exact absurd lower (by decide)

theorem isDoctype_trim {body : List Char} (word : startsIgnoreCase "doctype".toList body = true)
    (unended : '>' ∉ body) : IsDoctype (trim body) := by
  obtain ⟨front, rest, rfl, lower⟩ := startsIgnoreCase_iff.mp word
  have solid := fun c member => (solid_of_word lower c member).1
  obtain ⟨a, others, split⟩ := List.exists_cons_of_ne_nil (word_ne_nil lower)
  have first : trim (front ++ rest) = trimEnd (front ++ rest) := by
    rw [split, List.cons_append]
    exact trim_of_head (solid a (by simp [split])) _
  have kept : trimEnd (front ++ rest) = front ++ trimEnd rest := by
    rcases List.eq_nil_or_concat front with none | ⟨start, last, whole⟩
    · exact absurd none (word_ne_nil lower)
    · rw [List.concat_eq_append] at whole
      rw [whole, List.append_assoc, List.append_assoc]
      exact trimEnd_append (solid last (by simp [whole])) start rest
  rw [first]
  refine ⟨?_, fun member => unended ((trimEnd_begins _).subset member),
    fun c last => isBlank_getLast_trimEnd last⟩
  rw [kept]
  exact startsIgnoreCase_iff.mpr ⟨front, trimEnd rest, rfl, lower⟩

namespace Scan

theorem attributes_names (cs : List Char) : ∀ a ∈ (attributes cs).1, IsName a.name := by
  fun_induction attributes cs with
  | case1 => simp
  | case2 => simp
  | case3 => simp
  | case4 c cs _ _ named value quote rest _ others slashed left whole ih =>
    rw [whole] at ih
    intro a member
    rcases List.mem_cons.mp member with rfl | member
    · refine isName_foldCase (List.cons_ne_nil c _) ?_
      intro d inside
      rcases List.mem_cons.mp inside with rfl | inside
      · exact named
      · exact List.all_eq_true.mp List.all_takeWhile d inside
    · exact ih a member
  | case5 c cs _ _ _ ih => exact ih

theorem comment_construct (cs : List Char) : IsConstruct (comment cs).tokens := by
  unfold comment
  split
  · next body rest cut =>
    refine .comment ?_
    rw [String.toList_ofList]
    exact cut_mark (List.cons_ne_nil _ _) cut
  · next cut =>
    refine .comment ?_
    rw [String.toList_ofList]
    exact unclosed_mark_iff.mp (cutAt_eq_none cut)

theorem doctype_construct {cs : List Char} (word : startsIgnoreCase "doctype".toList cs = true) :
    IsConstruct (doctype cs).tokens := by
  unfold doctype
  split
  · next body rest cut =>
    refine .doctype ?_
    rw [String.toList_ofList]
    have ended := cut_mark (List.cons_ne_nil _ _) cut
    have unended : '>' ∉ body := by
      intro member
      obtain ⟨before, after, split⟩ := List.append_of_mem member
      exact ended ⟨before, after, by simp [split]⟩
    obtain ⟨tail, whole, closed, _⟩ := cutAt_eq_some cut
    refine isDoctype_trim ?_ unended
    rw [after_eq_some] at closed
    obtain ⟨front, left, begins, lower⟩ := startsIgnoreCase_iff.mp word
    rw [whole, closed, List.append_eq_append_iff] at begins
    rcases begins with ⟨extra, longer, later⟩ | ⟨extra, shorter, _⟩
    · cases extra with
      | nil => exact startsIgnoreCase_iff.mpr ⟨front, [], by simp [longer], lower⟩
      | cons c extra =>
        rw [List.singleton_append, List.cons_append, List.cons.injEq] at later
        have special := (solid_of_word lower c (by simp [longer])).2
        rw [← later.1] at special
        exact absurd (by decide) special
    · exact startsIgnoreCase_iff.mpr ⟨front, extra, shorter, lower⟩
  · exact .none

theorem rawtext_tokens (tag : String) (cs : List Char) :
    ∃ body : String, (rawtext tag cs).tokens = rawTokens tag body ∧
      ¬ HasCloseTag tag.toList body.toList := by
  have each : ∀ body : List Char, (if body.isEmpty then [Token.endTag tag]
      else [.text (String.ofList body), .endTag tag]) = rawTokens tag (String.ofList body) := by
    intro body
    cases body with
    | nil => rfl
    | cons c body =>
      have some : String.ofList (c :: body) ≠ "" := by
        intro empty
        have none := congrArg String.toList empty
        simp at none
      rw [rawTokens, if_neg some]
      rfl
  unfold rawtext
  simp only [each]
  split
  · next body rest cut =>
    refine ⟨String.ofList body, rfl, ?_⟩
    rw [String.toList_ofList]
    exact cut_tag cut
  · next cut =>
    refine ⟨String.ofList cs, rfl, ?_⟩
    rw [String.toList_ofList]
    exact unclosed_tag_iff.mp (cutAt_eq_none cut)

theorem startTag_construct (cs : List Char) : IsConstruct (startTag cs).tokens := by
  unfold startTag
  simp only
  split
  · exact .text
  · next some =>
    have named : Element.HasNames ⟨foldCase (String.ofList (cs.takeWhile isNameChar)),
        (attributes (cs.dropWhile isNameChar)).1⟩ := by
      refine ⟨isName_foldCase (by simpa using some) fun c member => ?_, attributes_names _⟩
      exact List.all_eq_true.mp List.all_takeWhile c member
    split
    · next raw =>
      obtain ⟨body, tokens, absent⟩ := rawtext_tokens
        (foldCase (String.ofList (cs.takeWhile isNameChar)))
        (attributes (cs.dropWhile isNameChar)).2.2
      rw [tokens]
      exact .raw named raw absent
    · next notRaw => exact .startTag named (Bool.eq_false_iff.mpr notRaw)

end Scan

theorem scan_construct (cs : List Char) : IsConstruct (scan cs).tokens := by
  unfold scan
  split
  · exact Scan.comment_construct _
  · unfold Scan.endTag
    simp only
    split
    · exact .none
    · exact .endTag
  · split
    · next word => exact Scan.doctype_construct word
    · exact Scan.startTag_construct _
  · exact Scan.startTag_construct _
  · exact .text

theorem Scan.empty_text_not_mem_startTag (cs : List Char) :
    .text "" ∉ (Scan.startTag cs).tokens := by
  obtain ⟨body, tokens, _⟩ := Scan.rawtext_tokens
    (foldCase (String.ofList (cs.takeWhile Scan.isNameChar)))
    (Scan.attributes (cs.dropWhile Scan.isNameChar)).2.2
  unfold Scan.startTag
  simp only [tokens, rawTokens]
  split
  · simp
  · split
    · split
      · simp
      · next long => simpa using Ne.symm long
    · simp

theorem empty_text_not_mem_scan {cs : List Char} (some : cs ≠ []) :
    .text "" ∉ (scan cs).tokens := by
  unfold scan
  split
  · unfold Scan.comment
    split <;> simp
  · unfold Scan.endTag
    simp only
    split <;> simp
  · split
    · unfold Scan.doctype
      split <;> simp
    · exact Scan.empty_text_not_mem_startTag _
  · exact Scan.empty_text_not_mem_startTag _
  · next notTag =>
    cases cs with
    | nil => exact absurd rfl some
    | cons c cs =>
      have other : c ≠ '<' := fun same => notTag cs (by rw [same])
      have read : Reference.decode ((c :: cs).takeWhile (· != '<')) ≠ [] :=
        Reference.decode_ne_nil (by simp [other])
      simp only [Scan.text, List.mem_singleton, Token.text.injEq]
      intro empty
      exact read (by simpa using congrArg String.toList empty.symm)

def AllLegible (levels : List (List (Tree NodeData))) : Prop :=
  ∀ ts ∈ levels, Legible ts

open Outline in
theorem levelTrees_rawTokens (names : List String) (name body : String)
    (rest : List (Token String)) :
    levelTrees (name :: names) (rawTokens name body ++ rest) =
      rawText body :: levelTrees names rest := by
  unfold rawTokens rawText
  split
  · rw [List.singleton_append, levelTrees_close]
  · next some =>
    rw [List.cons_append, List.singleton_append, levelTrees_text _ _ some, levelTrees_close]
    rfl

namespace AllLegible

open Outline

theorem modifyHead {levels : List (List (Tree NodeData))} (all : AllLegible levels)
    {f : List (Tree NodeData) → List (Tree NodeData)}
    (first : ∀ ts, Legible ts → Legible (f ts)) :
    AllLegible (levels.modifyHead f) := by
  cases levels with
  | nil => exact all
  | cons here outer =>
    intro ts member
    rcases List.mem_cons.mp member with rfl | member
    · exact first here (all here (List.mem_cons_self ..))
    · exact all ts (List.mem_cons_of_mem here member)

theorem nestTrees {levels : List (List (Tree NodeData))} (all : AllLegible levels) {e : Element}
    (named : e.HasNames) (notVoid : isVoid e.name = false) (notRaw : e.keyword.isRawtext = false) :
    AllLegible (nestTrees e levels) := by
  match levels with
  | [] | [_] => exact all
  | inside :: here :: outer =>
    intro ts member
    rcases List.mem_cons.mp member with rfl | member
    · exact .element named notVoid notRaw (all inside (by simp)) (all here (by simp))
    · exact all ts (by simp [member])

theorem construct {tokens rest : List (Token String)} (construct : IsConstruct tokens)
    (after : ∀ names, AllLegible (levelTrees names rest)) (names : List String) :
    AllLegible (levelTrees names (tokens ++ rest)) := by
  cases construct with
  | none => exact after names
  | @doctype text doctype =>
    rw [List.singleton_append, levelTrees_doctype]
    exact (after names).modifyHead fun ts legible => .doctype doctype legible
  | @comment text comment =>
    rw [List.singleton_append, levelTrees_comment]
    exact (after names).modifyHead fun ts legible => .comment comment legible
  | @text text =>
    by_cases some : text = ""
    · rw [some, List.singleton_append, levelTrees_empty]
      exact after names
    · rw [List.singleton_append, levelTrees_text names rest some]
      exact (after names).modifyHead fun ts legible => .text some legible
  | @endTag name =>
    rw [List.singleton_append, levelTrees_endTag]
    split
    · exact after names
    · intro ts member
      rcases List.mem_append.mp member with early | late
      · rw [List.eq_of_mem_replicate early]
        exact .nil
      · exact after _ ts late
  | @startTag e slashed named notRaw =>
    rw [List.singleton_append, levelTrees_startTag]
    split
    · next void =>
      exact (after names).modifyHead fun ts legible => .void named void legible
    · next notVoid => exact (after _).nestTrees named (by simpa using notVoid) notRaw
  | @raw e slashed body named raw absent =>
    have notVoid := named.1.not_void_of_rawtext raw
    rw [List.cons_append, levelTrees_startTag, notVoid]
    simp only [Bool.false_eq_true, ↓reduceIte]
    rw [levelTrees_rawTokens, nestTrees_cons]
    exact (after names).modifyHead fun ts legible => .raw named raw absent legible

theorem spell (cs : List Char) (names : List String) :
    AllLegible (levelTrees names (spell cs)) := by
  have done : ∀ names, AllLegible (levelTrees names []) := by
    intro names ts member
    rw [levelTrees_nil] at member
    rw [List.eq_of_mem_replicate member]
    exact .nil
  fun_induction PageFilters.spell cs generalizing names with
  | case1 => exact done names
  | case2 cs some ih =>
    refine construct (scan_construct cs) (fun names => ?_) names
    split
    · exact ih names
    · exact done names

end AllLegible

theorem legible_ofText (text : String) : Legible (Outline.ofText text).trees := by
  rw [Outline.trees_ofText]
  obtain ⟨here, outer, first⟩ :=
    List.exists_cons_of_length_eq_add_one (Outline.levelTrees_length [] (spell text.toList))
  rw [first]
  exact AllLegible.spell text.toList [] here (by simp [first])

theorem writable_ofText (text : String) :
    Writable (Tree.mergeTexts (Outline.ofText text).trees) :=
  (legible_ofText text).writable

end PageFilters
