import PageFilters.Proofs.Document.Writing
import PageFilters.Proofs.Markup.Building
import PageFilters.Proofs.Markup.Reading

/-!
Writing a tree and reading it back. A document whose tree is writable comes back with the quotes
that the writer chose, as long as no tag ends in an unquoted value with a slash at its end: the
reader takes that slash for the end of the tag. For the same reason markup that was written once is
written the same again exactly when no tag of it ends so.
-/

namespace PageFilters

def Element.requote (e : Element) : Element :=
  { e with attributes := e.attributes.map AttributeOf.requote }

def NodeData.endsSlashed : NodeData → Bool
  | .element e => e.endsSlashed
  | _ => false

/-- Whether no tag in the trees would swallow a slash. -/
def Clear (ts : List (Tree NodeData)) : Prop :=
  ∀ data ∈ Tree.preorderAll ts, data.endsSlashed = false

theorem clear_nil : Clear [] :=
  fun _ member => nomatch member

theorem clear_cons {data : NodeData} {inside rest : List (Tree NodeData)} :
    Clear (.node data inside :: rest) ↔ data.endsSlashed = false ∧ Clear inside ∧ Clear rest := by
  simp only [Clear, Tree.preorderAll, Tree.preorder, List.mem_append, List.mem_cons]
  constructor
  · intro all
    exact ⟨all data (.inl (.inl rfl)), fun d member => all d (.inl (.inr member)),
      fun d member => all d (.inr member)⟩
  · rintro ⟨first, clearInside, clearRest⟩ d ((rfl | member) | member)
    · exact first
    · exact clearInside d member
    · exact clearRest d member

theorem clear_joinText (text : String) (ts : List (Tree NodeData)) :
    Clear (Tree.joinText text ts) ↔ Clear ts := by
  unfold Tree.joinText
  split
  · rw [clear_cons, clear_cons]
    rfl
  · rw [clear_cons]
    simp [NodeData.endsSlashed, Clear, Tree.preorderAll]

theorem clear_mergeTexts (o : Outline) : Clear (Tree.mergeTexts o.trees) ↔ Clear o.trees := by
  induction o with
  | done => rw [Outline.trees, Tree.mergeTexts]
  | ignored what rest ih => exact ih
  | element e inside rest ihInside ihRest =>
    rw [Outline.trees, Tree.mergeTexts_of_not_text fun _ => NodeData.noConfusion, clear_cons,
      clear_cons, ihInside, ihRest]
  | leaf data _ rest ih =>
    cases data with
    | text text =>
      rw [Outline.trees, Tree.mergeTexts, clear_joinText, ih, clear_cons]
      simp [NodeData.endsSlashed, Clear, Tree.preorderAll]
    | _ =>
      rw [Outline.trees, Tree.mergeTexts_of_not_text fun _ => NodeData.noConfusion, clear_cons,
        clear_cons, ih, Tree.mergeTexts]

theorem rereadAll_of_clear {ts : List (Tree NodeData)} (clear : Clear ts) :
    rereadAll ts = Tree.mapAll (NodeData.mapElement Element.requote) ts := by
  induction ts using Tree.forest_induction with
  | nil => rfl
  | cons data inside rest ihInside ihRest =>
    obtain ⟨first, clearInside, clearRest⟩ := clear_cons.mp clear
    have same : data.mapElement Element.reread = data.mapElement Element.requote := by
      cases data with
      | element e =>
        exact congrArg (fun as => NodeData.element { e with attributes := as })
          (rereadAttributes_of_not_slashed first)
      | _ => rfl
    have inner := ihInside clearInside
    have after := ihRest clearRest
    rw [rereadAll] at inner after
    rw [rereadAll, Tree.mapAll, Tree.mapAll, Tree.map, Tree.map, same, inner, after]

theorem htmlAll_requote (ts : List (Tree NodeData)) (raw : Bool) :
    Tree.htmlAll raw (Tree.mapAll (NodeData.mapElement Element.requote) ts) =
      Tree.htmlAll raw ts := by
  induction ts using Tree.forest_induction generalizing raw with
  | nil => rfl
  | cons data inside rest ihInside ihRest =>
    cases data with
    | element e =>
      have tag : e.requote.startTag = e.startTag := by
        apply String.toList_injective
        rw [toList_startTag, toList_startTag]
        simp [Element.requote, attributesText, List.flatMap_map, valueText_requote,
          AttributeOf.name_requote]
      have ended : e.requote.endTag = e.endTag := rfl
      have kind : e.requote.keyword = e.keyword := rfl
      have name : e.requote.name = e.name := rfl
      simp only [Tree.mapAll, Tree.map, Tree.htmlAll, NodeData.mapElement, Tree.html, tag, ended,
        kind, name, ihInside, ihRest]
    | _ => simp only [Tree.mapAll, Tree.map, Tree.htmlAll, NodeData.mapElement, Tree.html,
        ihInside, ihRest]

theorem clear_rawText (body : String) : Clear (rawText body) := by
  unfold rawText
  split
  · exact clear_nil
  · exact clear_cons.mpr ⟨rfl, clear_nil, clear_nil⟩

theorem startTag_reread {e : Element} {rest rest' : List Char}
    (same : e.reread.startTag.toList ++ rest' = e.startTag.toList ++ rest) :
    e.endsSlashed = false ∧ rest' = rest := by
  rw [toList_startTag, toList_startTag] at same
  simp only [List.cons_append, List.append_assoc, List.cons.injEq, true_and] at same
  exact attributesText_reread (List.append_cancel_left same)

theorem leaf_reread {data : NodeData} (plain : data.isContainer = false)
    {ts : List (Tree NodeData)} {rest rest' : List Char}
    (same : (Tree.htmlAll false (rereadAll (.node data [] :: ts))).toList ++ rest' =
      (Tree.htmlAll false (.node data [] :: ts)).toList ++ rest) :
    (Tree.htmlAll false (rereadAll ts)).toList ++ rest' =
      (Tree.htmlAll false ts).toList ++ rest := by
  have kept : data.mapElement Element.reread = data := by
    cases data with
    | element e => cases plain
    | _ => rfl
  simpa only [rereadAll, Tree.mapAll, Tree.map, Tree.htmlAll, kept, String.toList_append,
    List.append_assoc, List.append_cancel_left_eq] using same

theorem clear_of_same {ts : List (Tree NodeData)} (writable : Writable ts) {rest rest' : List Char}
    (same : (Tree.htmlAll false (rereadAll ts)).toList ++ rest' =
      (Tree.htmlAll false ts).toList ++ rest) : Clear ts ∧ rest' = rest := by
  -- Up to the first lost slash both texts are the same, and there they part.
  induction writable generalizing rest rest' with
  | nil => exact ⟨clear_nil, by simpa [rereadAll, Tree.mapAll, Tree.htmlAll] using same⟩
  | doctype _ _ ih | comment _ _ ih | text _ _ _ ih =>
    obtain ⟨clear, equal⟩ := ih (leaf_reread rfl same)
    exact ⟨clear_cons.mpr ⟨rfl, clear_nil, clear⟩, equal⟩
  | @void e ts _ void _ ih =>
    have voids : isVoid e.reread.name = true := void
    simp only [rereadAll, Tree.mapAll, Tree.map, Tree.htmlAll, NodeData.mapElement, Tree.html,
      void, voids, ↓reduceIte, String.toList_append, List.append_assoc] at same
    obtain ⟨first, after⟩ := startTag_reread same
    obtain ⟨clear, equal⟩ := ih after
    exact ⟨clear_cons.mpr ⟨first, clear_nil, clear⟩, equal⟩
  | @raw e body ts named raw _ _ ih =>
    have notVoid := named.1.not_void_of_rawtext raw
    have notVoid' : isVoid e.reread.name = false := notVoid
    have raw' : e.reread.keyword.isRawtext = true := raw
    have ended : e.reread.endTag = e.endTag := rfl
    have body' := rereadAll_rawText body
    rw [rereadAll] at body'
    simp only [rereadAll, Tree.mapAll, Tree.map, Tree.htmlAll, NodeData.mapElement, Tree.html,
      notVoid, notVoid', raw, raw', ended, body', Bool.false_eq_true, ↓reduceIte,
      String.toList_append, List.append_assoc] at same
    obtain ⟨first, after⟩ := startTag_reread same
    obtain ⟨clear, equal⟩ := ih (List.append_cancel_left (List.append_cancel_left after))
    exact ⟨clear_cons.mpr ⟨first, clear_rawText body, clear⟩, equal⟩
  | @element e inside ts named notVoid notRaw _ _ ihInside ihRest =>
    have notVoid' : isVoid e.reread.name = false := notVoid
    have notRaw' : e.reread.keyword.isRawtext = false := notRaw
    have ended : e.reread.endTag = e.endTag := rfl
    simp only [rereadAll, Tree.mapAll, Tree.map, Tree.htmlAll, NodeData.mapElement, Tree.html,
      notVoid, notVoid', notRaw, notRaw', ended, Bool.false_eq_true, ↓reduceIte,
      String.toList_append, List.append_assoc] at same
    obtain ⟨first, after⟩ := startTag_reread same
    obtain ⟨clearInside, after⟩ := ihInside after
    obtain ⟨clear, equal⟩ := ihRest (List.append_cancel_left after)
    exact ⟨clear_cons.mpr ⟨first, clearInside, clear⟩, equal⟩

namespace Document

/-- A document that can come about, whose tree is writable and of whose tags none swallows a slash,
is read back from its markup; only the quotes of attributes may be others. -/
theorem parse_html {d : Document} (reachable : d.Reachable) (writable : Writable d.tree.children)
    (clear : Clear d.tree.children) :
    (parse d.html).tree = d.tree.map (NodeData.mapElement Element.requote) := by
  have sound := reachable.wellFormed empty_wellFormed
  rw [sound.tree_eq, Tree.children] at writable clear
  rw [sound.tree_eq, parse_tree, sound.html_eq, trees_written writable, rereadAll_of_clear clear]
  rfl

def paragraph : Document :=
  empty.editAll [.create (.element ⟨"p", [⟨"title", some "a b", .unquoted⟩]⟩), .append 0 1,
    .create (.text "x<y"), .append 1 2]

theorem paragraph_comes_back :
    paragraph.Reachable ∧ Writable paragraph.tree.children ∧ Clear paragraph.tree.children ∧
      (parse paragraph.html).tree = paragraph.tree.map (NodeData.mapElement Element.requote) := by
  have reachable : paragraph.Reachable := ⟨_, rfl⟩
  have trees : paragraph.tree.children =
      [.node (.element ⟨"p", [⟨"title", some "a b", .unquoted⟩]⟩) [.node (.text "x<y") []]] := rfl
  have named : Element.HasNames ⟨"p", [⟨"title", some "a b", .unquoted⟩]⟩ := by
    refine ⟨⟨by decide, List.all_eq_true.mp rfl⟩, fun a member => ?_⟩
    rw [List.mem_singleton.mp member]
    exact ⟨by decide, List.all_eq_true.mp rfl⟩
  have writable : Writable paragraph.tree.children := by
    rw [trees]
    exact .element named rfl (by cbv) (.text (by decide) rfl .nil) .nil
  have clear : Clear paragraph.tree.children := by
    rw [trees]
    exact clear_cons.mpr ⟨by decide, clear_cons.mpr ⟨rfl, clear_nil, clear_nil⟩, clear_nil⟩
  exact ⟨reachable, writable, clear, parse_html reachable writable clear⟩

end Document

theorem html_parse (text : String) :
    (parse text).html = Tree.htmlAll false (Outline.ofText text).trees := by
  rw [(parse_wellFormed text).html_eq, parse_forest]

theorem trees_html_parse (text : String) :
    (Outline.ofText (parse text).html).trees =
      rereadAll (Tree.mergeTexts (Outline.ofText text).trees) := by
  rw [html_parse, ← Tree.htmlAll_mergeTexts, trees_written (writable_ofText text)]

/-- The markup of a text is written the same again exactly when no tag in it swallows a slash. -/
theorem html_parse_stable_iff (text : String) :
    (parse (parse text).html).html = (parse text).html ↔ Clear (parse text).tree.children := by
  rw [parse_tree, Tree.children, ← clear_mergeTexts, html_parse (parse text).html,
    trees_html_parse, html_parse, ← Tree.htmlAll_mergeTexts (Outline.ofText text).trees]
  constructor
  · intro same
    let ts := Tree.mergeTexts (Outline.ofText text).trees
    have equal : (Tree.htmlAll false (rereadAll ts)).toList ++ [] =
        (Tree.htmlAll false ts).toList ++ [] := by
      rw [same]
    exact (clear_of_same (writable_ofText text) equal).1
  · intro clear
    rw [rereadAll_of_clear clear, htmlAll_requote]

theorem html_parse_not_stable : ¬ ∀ text, (parse (parse text).html).html = (parse text).html := by
  intro stable
  have told : (Outline.ofText "<a href=foo/ >").trees =
      [.node (.element ⟨"a", [⟨"href", some "foo/", .unquoted⟩]⟩) []] := by cbv
  have again : (Outline.ofText "<a href=foo/></a>").trees =
      [.node (.element ⟨"a", [⟨"href", some "foo", .unquoted⟩]⟩) []] := by cbv
  have written : (parse "<a href=foo/ >").html = "<a href=foo/></a>" := by
    rw [html_parse, told]
    rfl
  have same := stable "<a href=foo/ >"
  rw [written, html_parse, again] at same
  exact absurd same (by decide)

end PageFilters
