import PageFilters.Markup.Tree
import PageFilters.Proofs.Markup.Cutting

/-!
The trees that markup can tell apart. Their names can be read as names, nothing in a comment, a
doctype or a raw text ends it early, and no two texts stand side by side. Texts side by side can be
merged without a change of the markup.
-/

namespace PageFilters

def rawText (body : String) : List (Tree NodeData) :=
  if body = "" then [] else [.node (.text body) []]

def startsWithText : List (Tree NodeData) → Bool
  | .node (.text _) _ :: _ => true
  | _ => false

/-- Trees side by side that markup can tell apart. -/
inductive Writable : List (Tree NodeData) → Prop where
  | nil : Writable []
  | doctype {text rest} : IsDoctype text.toList → Writable rest →
      Writable (.node (.doctype text) [] :: rest)
  | comment {text rest} : IsComment text.toList → Writable rest →
      Writable (.node (.comment text) [] :: rest)
  | text {text rest} : text ≠ "" → startsWithText rest = false → Writable rest →
      Writable (.node (.text text) [] :: rest)
  | void {e rest} : e.HasNames → isVoid e.name = true → Writable rest →
      Writable (.node (.element e) [] :: rest)
  | raw {e body rest} : e.HasNames → e.keyword.isRawtext = true →
      ¬ HasCloseTag e.name.toList body.toList → Writable rest →
      Writable (.node (.element e) (rawText body) :: rest)
  | element {e inside rest} : e.HasNames → isVoid e.name = false →
      e.keyword.isRawtext = false → Writable inside → Writable rest →
      Writable (.node (.element e) inside :: rest)

inductive Legible : List (Tree NodeData) → Prop where
  | nil : Legible []
  | doctype {text rest} : IsDoctype text.toList → Legible rest →
      Legible (.node (.doctype text) [] :: rest)
  | comment {text rest} : IsComment text.toList → Legible rest →
      Legible (.node (.comment text) [] :: rest)
  | text {text rest} : text ≠ "" → Legible rest → Legible (.node (.text text) [] :: rest)
  | void {e rest} : e.HasNames → isVoid e.name = true → Legible rest →
      Legible (.node (.element e) [] :: rest)
  | raw {e body rest} : e.HasNames → e.keyword.isRawtext = true →
      ¬ HasCloseTag e.name.toList body.toList → Legible rest →
      Legible (.node (.element e) (rawText body) :: rest)
  | element {e inside rest} : e.HasNames → isVoid e.name = false →
      e.keyword.isRawtext = false → Legible inside → Legible rest →
      Legible (.node (.element e) inside :: rest)

namespace Tree

theorem forest_induction {motive : List (Tree α) → Prop} (nil : motive [])
    (cons : ∀ label inside rest, motive inside → motive rest →
      motive (.node label inside :: rest)) : ∀ ts, motive ts
  | [] => nil
  | .node label inside :: rest =>
    cons label inside rest (forest_induction nil cons inside) (forest_induction nil cons rest)

def joinText (text : String) : List (Tree NodeData) → List (Tree NodeData)
  | .node (.text other) inside :: rest => .node (.text (text ++ other)) inside :: rest
  | ts => .node (.text text) [] :: ts

def mergeTexts : List (Tree NodeData) → List (Tree NodeData)
  | [] => []
  | .node (.text text) _ :: rest => joinText text (mergeTexts rest)
  | .node data inside :: rest => .node data (mergeTexts inside) :: mergeTexts rest

theorem mergeTexts_of_not_text {data : NodeData} (other : ∀ text, data ≠ .text text)
    (inside rest : List (Tree NodeData)) :
    mergeTexts (.node data inside :: rest) = .node data (mergeTexts inside) :: mergeTexts rest := by
  cases data with
  | text text => exact absurd rfl (other text)
  | _ => rw [mergeTexts]; simp

theorem escapeText_append (a b : String) : escapeText (a ++ b) = escapeText a ++ escapeText b := by
  apply String.toList_injective
  simp [escapeText]

theorem htmlAll_joinText (raw : Bool) (text : String) (ts : List (Tree NodeData)) :
    htmlAll raw (joinText text ts) = html raw (.node (.text text) []) ++ htmlAll raw ts := by
  unfold joinText
  split
  · next other inside rest =>
    cases raw <;> simp [htmlAll, html, escapeText_append, String.append_assoc]
  · rfl

theorem htmlAll_mergeTexts (ts : List (Tree NodeData)) (raw : Bool) :
    htmlAll raw (mergeTexts ts) = htmlAll raw ts := by
  induction ts using forest_induction generalizing raw with
  | nil => rw [mergeTexts]
  | cons data inside rest ihInside ihRest =>
    cases data with
    | text text =>
      rw [mergeTexts, htmlAll_joinText, ihRest, htmlAll]
      rfl
    | _ => simp [mergeTexts, htmlAll, html, ihInside, ihRest]

end Tree

theorem Writable.joinText {text : String} (some : text ≠ "") {ts : List (Tree NodeData)}
    (writable : Writable ts) : Writable (Tree.joinText text ts) := by
  unfold Tree.joinText
  split
  · next other inside rest =>
    cases writable with
    | text _ apart others =>
      refine .text (fun empty => some ?_) apart others
      have both := congrArg String.toList empty
      rw [String.toList_append] at both
      exact String.toList_injective (List.append_eq_nil_iff.mp both).1
  · next other =>
    refine .text some ?_ writable
    unfold startsWithText
    split
    · next text' inside rest => exact absurd rfl (other text' inside rest)
    · rfl

theorem Tree.mergeTexts_rawText (body : String) : mergeTexts (rawText body) = rawText body := by
  unfold rawText
  split
  · rw [mergeTexts]
  · rw [mergeTexts, mergeTexts]
    rfl

theorem Legible.writable {ts : List (Tree NodeData)} (legible : Legible ts) :
    Writable (Tree.mergeTexts ts) := by
  induction legible with
  | nil =>
    rw [Tree.mergeTexts]
    exact .nil
  | doctype doctype _ ih =>
    rw [Tree.mergeTexts_of_not_text fun _ => NodeData.noConfusion, Tree.mergeTexts]
    exact .doctype doctype ih
  | comment comment _ ih =>
    rw [Tree.mergeTexts_of_not_text fun _ => NodeData.noConfusion, Tree.mergeTexts]
    exact .comment comment ih
  | text some _ ih =>
    rw [Tree.mergeTexts]
    exact ih.joinText some
  | void named void _ ih =>
    rw [Tree.mergeTexts_of_not_text fun _ => NodeData.noConfusion, Tree.mergeTexts]
    exact .void named void ih
  | raw named raw absent _ ih =>
    rw [Tree.mergeTexts_of_not_text fun _ => NodeData.noConfusion, Tree.mergeTexts_rawText]
    exact .raw named raw absent ih
  | element named notVoid notRaw _ _ ihInside ihRest =>
    rw [Tree.mergeTexts_of_not_text fun _ => NodeData.noConfusion]
    exact .element named notVoid notRaw ihInside ihRest

end PageFilters
