import PageFilters.Proofs.Document.Growth
import PageFilters.Proofs.Markup.OpenElements
import PageFilters.Proofs.Markup.Spelling

/-!
What a text says, apart from how it is read. Its outline nests what its start and end tags nest. An
outline can be watched like a page that is being built, and reading a text token by token under the
eyes of any observer comes to the same as watching its outline, whatever the observer does to the
tree.
-/

namespace PageFilters

/-- The things that stand one after the other in an element, or in a text as a whole. -/
inductive Outline where
  | done
  | leaf (data : NodeData) (plain : data.isContainer = false) (rest : Outline)
  | ignored (what : Ignored) (rest : Outline)
  | element (e : Element) (inside rest : Outline)

def Reaction.on (reaction : Reaction σ) (x : Document × σ) : Document × σ :=
  reaction x.1 x.2

namespace Outline

def trees : Outline → List (Tree NodeData)
  | done => []
  | leaf data _ rest => .node data [] :: rest.trees
  | ignored _ rest => rest.trees
  | element e inside rest => .node (.element e) inside.trees :: rest.trees

def watch (observer : Observer σ) : Outline → NodeId → Document × σ → Document × σ
  | done, _, x => x
  | leaf data _ rest, p, x => rest.watch observer p (x.1.attachNew p data, x.2)
  | ignored what rest, p, x => rest.watch observer p (x.1, observer.ignored what x.2)
  | element e inside rest, p, x =>
    let id := x.1.size
    let started := (observer.startElement id).on (x.1.attachNew p (.element e), x.2)
    let ended := (observer.endElement id).on (inside.watch observer id started)
    rest.watch observer p ended

def nest (e : Element) : List Outline → List Outline
  | inside :: rest :: outer => element e inside rest :: outer
  | other => other

/-- What tokens say about each open element, from the innermost outwards, and at last about the text
as a whole: the things that are still to come in it. `names` are the names of the open elements. -/
def levels : List String → List (Token String) → List Outline
  | names, [] => List.replicate (names.length + 1) done
  | names, .doctype text :: rest => (levels names rest).modifyHead (leaf (.doctype text) rfl)
  | names, .comment text :: rest => (levels names rest).modifyHead (leaf (.comment text) rfl)
  | names, .text text :: rest =>
    if text.isEmpty then levels names rest
    else (levels names rest).modifyHead (leaf (.text text) rfl)
  | names, .startTag name attributes selfClosing slashed :: rest =>
    let read :=
      if selfClosing then (levels names rest).modifyHead (element ⟨name, attributes⟩ done)
      else nest ⟨name, attributes⟩ (levels (name :: names) rest)
    if slashed && !selfClosing then read.modifyHead (ignored (.slash name)) else read
  | names, .endTag name :: rest =>
    match names.findIdx? (· == name) with
    | none => (levels names rest).modifyHead (ignored (.endTag name))
    | some inside =>
      List.replicate (inside + 1) done ++ levels (names.drop (inside + 1)) rest

theorem nest_length (e : Element) (os : List Outline) (two : 2 ≤ os.length) :
    (nest e os).length + 1 = os.length := by
  match os with
  | inside :: rest :: outer => rfl

theorem levels_length (names : List String) (tokens : List (Token String)) :
    (levels names tokens).length = names.length + 1 := by
  induction tokens generalizing names with
  | nil => simp [levels]
  | cons token rest ih =>
    cases token with
    | doctype text => simp [levels, ih]
    | comment text => simp [levels, ih]
    | text text =>
      rw [levels]
      split <;> simp [ih]
    | startTag name attributes selfClosing slashed =>
      have nested := nest_length ⟨name, attributes⟩ (levels (name :: names) rest)
      rw [ih, List.length_cons] at nested
      have plain := ih names
      cases selfClosing with
      | true => cases slashed <;> simp [levels, plain]
      | false =>
        have read := nested (by simp)
        cases slashed <;> simp [levels] <;> omega
    | endTag name =>
      rw [levels]
      split
      · simp [ih]
      · next inside found =>
        have open' : inside < names.length := (List.findIdx?_eq_some_iff_getElem.mp found).1
        rw [List.length_append, List.length_replicate, ih, List.length_drop]
        omega

def ofText (text : String) : Outline :=
  (levels [] (spell text.toList)).headD done

def levelTrees (names : List String) (tokens : List (Token String)) :
    List (List (Tree NodeData)) :=
  (levels names tokens).map trees

def nestTrees (e : Element) : List (List (Tree NodeData)) → List (List (Tree NodeData))
  | inside :: rest :: outer => (.node (.element e) inside :: rest) :: outer
  | other => other

theorem map_modifyHead {f : Outline → Outline} {g : List (Tree NodeData) → List (Tree NodeData)}
    (same : ∀ o, (f o).trees = g o.trees) (os : List Outline) :
    (os.modifyHead f).map trees = (os.map trees).modifyHead g := by
  cases os with
  | nil => rfl
  | cons o os => rw [List.modifyHead_cons, List.map_cons, List.map_cons, List.modifyHead_cons, same]

theorem map_nest (e : Element) (os : List Outline) :
    (nest e os).map trees = nestTrees e (os.map trees) := by
  match os with
  | [] | [_] => rfl
  | inside :: rest :: outer => rfl

theorem modifyHead_id {α : Type} (l : List α) : l.modifyHead (fun a => a) = l := by
  cases l <;> rfl

section

variable (names : List String) (rest : List (Token String))

theorem levelTrees_length : (levelTrees names rest).length = names.length + 1 := by
  rw [levelTrees, List.length_map, levels_length]

theorem levelTrees_nil : levelTrees names [] = List.replicate (names.length + 1) [] := by
  rw [levelTrees, levels, List.map_replicate, trees]

theorem levelTrees_doctype (text : String) :
    levelTrees names (.doctype text :: rest) =
      (levelTrees names rest).modifyHead (.node (.doctype text) [] :: ·) :=
  map_modifyHead (fun _ => rfl) _

theorem levelTrees_comment (text : String) :
    levelTrees names (.comment text :: rest) =
      (levelTrees names rest).modifyHead (.node (.comment text) [] :: ·) :=
  map_modifyHead (fun _ => rfl) _

theorem levelTrees_text {text : String} (some : text ≠ "") :
    levelTrees names (.text text :: rest) =
      (levelTrees names rest).modifyHead (.node (.text text) [] :: ·) := by
  rw [levelTrees, levels, if_neg (by simpa using some)]
  exact map_modifyHead (fun _ => rfl) _

theorem levelTrees_empty : levelTrees names (.text "" :: rest) = levelTrees names rest := by
  rw [levelTrees, levels, if_pos (by simp), levelTrees]

theorem levelTrees_startTag (e : Element) (selfClosing slashed : Bool) :
    levelTrees names (.startTag e.name e.attributes selfClosing slashed :: rest) =
      if selfClosing then (levelTrees names rest).modifyHead (.node (.element e) [] :: ·)
      else nestTrees e (levelTrees (e.name :: names) rest) := by
  have read : (if selfClosing then (levels names rest).modifyHead (element e done)
      else nest e (levels (e.name :: names) rest)).map trees =
      if selfClosing then (levelTrees names rest).modifyHead (.node (.element e) [] :: ·)
      else nestTrees e (levelTrees (e.name :: names) rest) := by
    split
    · exact map_modifyHead (fun _ => rfl) _
    · exact map_nest _ _
  rw [← read, levelTrees, levels]
  split
  · exact (map_modifyHead (fun _ => rfl) _).trans (modifyHead_id _)
  · rfl

theorem levelTrees_endTag (name : String) :
    levelTrees names (.endTag name :: rest) =
      match names.findIdx? (· == name) with
      | none => levelTrees names rest
      | some inside =>
        List.replicate (inside + 1) [] ++ levelTrees (names.drop (inside + 1)) rest := by
  rw [levelTrees, levels]
  cases names.findIdx? (· == name) with
  | none =>
    exact (map_modifyHead (fun _ => rfl) _).trans (modifyHead_id _)
  | some inside =>
    simp only
    rw [List.map_append, List.map_replicate]
    rfl

theorem levelTrees_close (name : String) :
    levelTrees (name :: names) (.endTag name :: rest) = [] :: levelTrees names rest := by
  rw [levelTrees_endTag, List.findIdx?_cons, if_pos (beq_self_eq_true name)]
  rfl

theorem nestTrees_cons (e : Element) (inside : List (Tree NodeData)) :
    nestTrees e (inside :: levelTrees names rest) =
      (levelTrees names rest).modifyHead (.node (.element e) inside :: ·) := by
  obtain ⟨here, outer, first⟩ :=
    List.exists_cons_of_length_eq_add_one (levelTrees_length names rest)
  rw [first]
  rfl

end

theorem trees_ofText (text : String) :
    (ofText text).trees = (levelTrees [] (spell text.toList)).headD [] := by
  rw [ofText, levelTrees]
  cases levels [] (spell text.toList) <;> rfl

end Outline

end PageFilters
