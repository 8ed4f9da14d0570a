import PageFilters.Filter.LegacyPolyfills
import PageFilters.Proofs.Markup.Reading
import PageFilters.Proofs.Text.Search

/-!
Scripts with legacy polyfills in a page that is complete. Writing a page and reading it back makes
no such script: all that can happen to an address is that its last character gets lost.
-/

namespace PageFilters

/-- Trees without the subtrees whose roots are `gone`. -/
def Tree.pruneAll (gone : α → Bool) : List (Tree α) → List (Tree α)
  | [] => []
  | .node label inside :: rest =>
    if gone label then pruneAll gone rest
    else .node label (pruneAll gone inside) :: pruneAll gone rest

def Tree.prune (gone : α → Bool) : Tree α → Tree α
  | .node label inside => .node label (pruneAll gone inside)

/-- Whether this is a script whose first `src` is the address of a legacy polyfill. -/
def Element.isPolyfillScript (e : Element) : Bool :=
  e.keyword == .script &&
    ((e.attributes.find? (AttributeOf.isNamed "src")).bind AttributeOf.value).any fun src =>
      ["wp-polyfill", "polyfill.io", "/polyfill.min.js", "/polyfills.min.js"].any
        (containsIgnoreCase src)

def NodeData.isPolyfillScript : NodeData → Bool
  | .element e => e.isPolyfillScript
  | _ => false

def hasPolyfillScript (ts : List (Tree NodeData)) : Bool :=
  (Tree.preorderAll ts).any NodeData.isPolyfillScript

namespace Element

variable {e : Element}

theorem isSome_polyfillSrc (e : Element) :
    (LegacyPolyfills.polyfillSrc? e).isSome = e.isPolyfillScript := by
  have same : e.isPolyfillScript = (e.keyword == .script && (e.value? "src").any isPolyfillUrl) :=
    rfl
  rw [same, LegacyPolyfills.polyfillSrc?]
  by_cases script : e.keyword = .script
  · rw [if_pos script, script, Option.isSome_filter]
    rfl
  · simp [script]

theorem not_polyfill_of_keyword (other : e.keyword ≠ .script) : e.isPolyfillScript = false := by
  simp [isPolyfillScript, other]

theorem keyword_of_polyfill (polyfill : e.isPolyfillScript = true) : e.keyword ≠ .img := by
  intro image
  rw [not_polyfill_of_keyword (by simp [image])] at polyfill
  cases polyfill

end Element

theorem NodeData.not_polyfill_of_plain {data : NodeData} (plain : data.isContainer = false) :
    data.isPolyfillScript = false := by
  cases data with
  | element e => cases plain
  | _ => rfl

@[simp] theorem hasPolyfillScript_nil : hasPolyfillScript [] = false :=
  rfl

@[simp] theorem hasPolyfillScript_cons (data : NodeData) (inside rest : List (Tree NodeData)) :
    hasPolyfillScript (.node data inside :: rest) =
      (data.isPolyfillScript || hasPolyfillScript inside || hasPolyfillScript rest) := by
  simp [hasPolyfillScript, Tree.preorderAll, Tree.preorder, Bool.or_assoc]

@[simp] theorem hasPolyfillScript_append (ts us : List (Tree NodeData)) :
    hasPolyfillScript (ts ++ us) = (hasPolyfillScript ts || hasPolyfillScript us) := by
  simp [hasPolyfillScript, Tree.preorderAll_eq_flatMap]

theorem hasPolyfillScript_joinText (text : String) (ts : List (Tree NodeData)) :
    hasPolyfillScript (Tree.joinText text ts) = hasPolyfillScript ts := by
  unfold Tree.joinText
  split
  · simp [NodeData.isPolyfillScript]
  · simp [NodeData.isPolyfillScript]

theorem hasPolyfillScript_mergeTexts {ts : List (Tree NodeData)}
    (clean : hasPolyfillScript ts = false) : hasPolyfillScript (Tree.mergeTexts ts) = false := by
  induction ts using Tree.forest_induction with
  | nil => simp [Tree.mergeTexts]
  | cons data inside rest ihInside ihRest =>
    simp only [hasPolyfillScript_cons, Bool.or_eq_false_iff] at clean
    obtain ⟨⟨here, cleanInside⟩, cleanRest⟩ := clean
    cases data with
    | text text =>
      rw [Tree.mergeTexts, hasPolyfillScript_joinText]
      exact ihRest cleanRest
    | _ =>
      rw [Tree.mergeTexts_of_not_text fun _ => NodeData.noConfusion]
      simp [here, ihInside cleanInside, ihRest cleanRest]

theorem AttributeOf.value_requote (a : Attribute) : a.requote.value = a.value := by
  unfold requote
  split
  · rfl
  · split <;> rfl
  · rfl

/-- An attribute, and what is read back of it: the value may have lost its end. -/
def AttributeOf.ReadAs (a b : Attribute) : Prop :=
  b.name = a.name ∧ ∀ read, b.value = some read → ∃ lost, a.value = some (read ++ lost)

theorem AttributeOf.readAs_requote (a : Attribute) : a.ReadAs a.requote := by
  constructor
  · exact a.name_requote
  · intro read held
    refine ⟨"", ?_⟩
    rw [← value_requote, held, String.append_empty]

theorem AttributeOf.readAs_unslash (a : Attribute) : a.ReadAs a.unslash := by
  constructor
  · rfl
  · intro read held
    obtain ⟨value, old, rfl⟩ := Option.map_eq_some_iff.mp held
    refine ⟨String.ofList (value.toList.drop (value.toList.length - 1)), old.trans ?_⟩
    apply congrArg some
    apply String.toList_injective
    rw [String.toList_append, String.toList_ofList, String.toList_ofList, List.dropLast_eq_take,
      List.take_append_drop]

theorem readAs_rereadAttributes (as : List Attribute) :
    List.Forall₂ AttributeOf.ReadAs as (rereadAttributes as) := by
  fun_induction rereadAttributes as with
  | case1 => exact .nil
  | case2 a =>
    refine .cons ?_ .nil
    split
    · exact a.readAs_unslash
    · exact a.readAs_requote
  | case3 a rest _ ih => exact .cons a.readAs_requote ih

theorem value_of_readAs {as bs : List Attribute} (reads : List.Forall₂ AttributeOf.ReadAs as bs)
    {name read : String}
    (held : (bs.find? (AttributeOf.isNamed name)).bind AttributeOf.value = some read) :
    ∃ lost, (as.find? (AttributeOf.isNamed name)).bind AttributeOf.value = some (read ++ lost) := by
  induction reads with
  | nil => simp at held
  | @cons a b as bs first _ ih =>
    have named : b.isNamed name = a.isNamed name := by
      rw [AttributeOf.isNamed, first.1, AttributeOf.isNamed]
    rw [List.find?_cons, named] at held
    rw [List.find?_cons]
    cases here : a.isNamed name with
    | true =>
      rw [here] at held
      exact first.2 read held
    | false =>
      rw [here] at held
      exact ih held

theorem Element.isPolyfillScript_reread {e : Element} (clean : e.isPolyfillScript = false) :
    e.reread.isPolyfillScript = false := by
  by_contra polyfill
  simp only [isPolyfillScript, Bool.not_eq_false, Bool.and_eq_true, Option.any_eq_true,
    List.any_eq_true] at polyfill
  obtain ⟨script, read, held, pattern, listed, found⟩ := polyfill
  obtain ⟨lost, value⟩ := value_of_readAs (readAs_rereadAttributes e.attributes) held
  have whole : e.isPolyfillScript = true := by
    simp only [isPolyfillScript, Bool.and_eq_true, Option.any_eq_true, List.any_eq_true]
    exact ⟨script, _, value, pattern, listed, containsIgnoreCase_append lost found⟩
  rw [clean] at whole
  cases whole

theorem hasPolyfillScript_rereadAll {ts : List (Tree NodeData)}
    (clean : hasPolyfillScript ts = false) : hasPolyfillScript (rereadAll ts) = false := by
  induction ts using Tree.forest_induction with
  | nil => rfl
  | cons data inside rest ihInside ihRest =>
    simp only [hasPolyfillScript_cons, Bool.or_eq_false_iff] at clean
    obtain ⟨⟨here, cleanInside⟩, cleanRest⟩ := clean
    have inner := ihInside cleanInside
    have after := ihRest cleanRest
    have read : (data.mapElement Element.reread).isPolyfillScript = false := by
      cases data with
      | element e => exact Element.isPolyfillScript_reread here
      | _ => rfl
    rw [rereadAll] at inner after
    rw [rereadAll, Tree.mapAll, Tree.map, hasPolyfillScript_cons, read, inner, after]
    rfl

end PageFilters
