import PageFilters.Proofs.Document.Uniform
import PageFilters.Proofs.Markup.Recording

/-!
Texts that say the same up to the quotes of their attributes. An observer that does not look at
quotes is called alike for both of them, and what it makes of them differs in quotes only.
-/

namespace PageFilters

def Token.uniform {ν : Type} : Token ν → Token ν
  | .startTag name attributes selfClosing _ =>
    .startTag name (attributes.map AttributeOf.uniform) selfClosing false
  | token => token

def Occasion.uniform (o : Occasion) : Occasion :=
  ⟨o.call, o.before.uniform, o.after.uniform⟩

namespace Outline

def uniform : Outline → Outline
  | done => done
  | leaf data plain rest => leaf data plain rest.uniform
  | ignored _ rest => rest.uniform
  | element e inside rest => element e.uniform inside.uniform rest.uniform

theorem uniform_modifyHead {f g : Outline → Outline} {os os' : List Outline}
    (each : ∀ o o', o.uniform = o'.uniform → (f o).uniform = (g o').uniform)
    (same : os.map uniform = os'.map uniform) :
    (os.modifyHead f).map uniform = (os'.modifyHead g).map uniform := by
  match os, os', same with
  | [], [], _ => rfl
  | o :: os, o' :: os', same =>
    obtain ⟨here, others⟩ := List.cons.inj same
    exact congrArg₂ List.cons (each o o' here) others

theorem uniform_nest {e e' : Element} {os os' : List Outline} (tag : e.uniform = e'.uniform)
    (same : os.map uniform = os'.map uniform) :
    (nest e os).map uniform = (nest e' os').map uniform := by
  match os, os', same with
  | [], [], _ => rfl
  | [_], [_], same => exact same
  | [_], _ :: _ :: _, same | _ :: _ :: _, [_], same => simp at same
  | inside :: rest :: outer, inside' :: rest' :: outer', same =>
    obtain ⟨within, others⟩ := List.cons.inj same
    obtain ⟨after, others⟩ := List.cons.inj others
    rw [nest, nest, List.map_cons, List.map_cons, others, uniform, uniform, tag, within, after]

theorem levels_uniform (names : List String) (tokens : List (Token String)) :
    (levels names (tokens.map Token.uniform)).map uniform = (levels names tokens).map uniform := by
  have leaf_uniform : ∀ data plain (o o' : Outline), o.uniform = o'.uniform →
      (leaf data plain o).uniform = (leaf data plain o').uniform := by
    intro data plain o o' same
    rw [uniform, uniform, same]
  have ignored_uniform : ∀ what (os : List Outline),
      (os.modifyHead (ignored what)).map uniform = os.map uniform := by
    intro what os
    have dropped := uniform_modifyHead (f := ignored what) (g := fun o => o)
      (fun _ _ same => same) (rfl : os.map uniform = _)
    rwa [modifyHead_id] at dropped
  induction tokens generalizing names with
  | nil => rfl
  | cons token rest ih =>
    cases token with
    | doctype text => exact uniform_modifyHead (leaf_uniform _ _) (ih names)
    | comment text => exact uniform_modifyHead (leaf_uniform _ _) (ih names)
    | text text =>
      rw [List.map_cons, levels]
      change (if text.isEmpty then _ else _ : List Outline).map uniform = _
      split
      · exact ih names
      · exact uniform_modifyHead (leaf_uniform _ _) (ih names)
    | startTag name attributes selfClosing slashed =>
      have tag : Element.uniform ⟨name, attributes.map AttributeOf.uniform⟩ =
          Element.uniform ⟨name, attributes⟩ := Element.uniform_uniform ⟨name, attributes⟩
      have void := uniform_modifyHead
        (f := element ⟨name, attributes.map AttributeOf.uniform⟩ done)
        (g := element ⟨name, attributes⟩ done)
        (fun o o' same => by simp only [uniform, same, tag]) (ih names)
      have nested := uniform_nest tag (ih (name :: names))
      cases selfClosing with
      | true => cases slashed <;> exact void
      | false =>
        cases slashed with
        | false => exact nested
        | true => exact nested.trans (ignored_uniform _ _).symm
    | endTag name =>
      change (levels names (.endTag name :: rest.map Token.uniform)).map uniform = _
      rw [levels, levels]
      split
      · exact uniform_modifyHead (fun _ _ same => same) (ih names)
      · rw [List.map_append, List.map_append, ih]

theorem ofText_uniform {text other : String}
    (same : (spelled text).map Token.uniform = (spelled other).map Token.uniform) :
    (ofText text).uniform = (ofText other).uniform := by
  have first : ∀ os : List Outline, (os.headD done).uniform = (os.map uniform).headD done := by
    intro os
    cases os <;> rfl
  rw [ofText, ofText, first, first, ← levels_uniform, ← spelled_eq, same, levels_uniform,
    spelled_eq]

end Outline

def SameButQuotes (R : σ → σ → Prop) (x y : Document × σ) : Prop :=
  x.1.uniform = y.1.uniform ∧ R x.2 y.2

/-- An observer that does the same whatever the quotes of the document, as far as `R` can tell. -/
structure Observer.QuoteBlind (observer : Observer σ) (R : σ → σ → Prop) : Prop where
  symm : ∀ s t, R s t → R t s
  trans : ∀ s t u, R s t → R t u → R s u
  startElement : ∀ id x y, SameButQuotes R x y →
    SameButQuotes R ((observer.startElement id).on x) ((observer.startElement id).on y)
  endElement : ∀ id x y, SameButQuotes R x y →
    SameButQuotes R ((observer.endElement id).on x) ((observer.endElement id).on y)
  ignored : ∀ what s t, R s t → R (observer.ignored what s) t
  endDocument : ∀ x y, SameButQuotes R x y →
    SameButQuotes R (observer.endDocument.on x) (observer.endDocument.on y)

section

variable {observer : Observer σ} {R : σ → σ → Prop} {x y z : Document × σ}

theorem SameButQuotes.symm (blind : observer.QuoteBlind R) (same : SameButQuotes R x y) :
    SameButQuotes R y x :=
  ⟨same.1.symm, blind.symm _ _ same.2⟩

theorem SameButQuotes.trans (blind : observer.QuoteBlind R) (first : SameButQuotes R x y)
    (second : SameButQuotes R y z) : SameButQuotes R x z :=
  ⟨first.1.trans second.1, blind.trans _ _ _ first.2 second.2⟩

theorem SameButQuotes.attachNew (same : SameButQuotes R x y) (p : NodeId) {data data' : NodeData}
    (tag : data.uniform = data'.uniform) :
    SameButQuotes R (x.1.attachNew p data, x.2) (y.1.attachNew p data', y.2) := by
  refine ⟨?_, same.2⟩
  rw [← Document.attachNew_uniform, same.1, tag, Document.attachNew_uniform]

theorem Outline.watch_uniform (blind : observer.QuoteBlind R) (o : Outline) (p : NodeId)
    (same : SameButQuotes R x y) :
    SameButQuotes R (o.watch observer p x) (o.uniform.watch observer p y) := by
  induction o generalizing p x y with
  | done => exact same
  | ignored what rest ih => exact ih p (x := (x.1, _)) ⟨same.1, blind.ignored what _ _ same.2⟩
  | leaf data _ rest ih => exact ih p (same.attachNew p rfl)
  | element e inside rest ihInside ihRest =>
    have size : x.1.size = y.1.size := by
      rw [← Document.size_uniform, same.1, Document.size_uniform]
    have tag : (NodeData.element e).uniform = (NodeData.element e.uniform).uniform :=
      (NodeData.uniform_uniform (.element e)).symm
    have started := blind.startElement x.1.size _ _ (same.attachNew p tag)
    have ended := blind.endElement x.1.size _ _ (ihInside x.1.size started)
    have whole := ihRest p ended
    rw [watch, uniform, watch, ← size]
    exact whole

theorem parseWith_uniform (blind : observer.QuoteBlind R) {text other : String} {s t : σ}
    (same : (spelled text).map Token.uniform = (spelled other).map Token.uniform)
    (begun : SameButQuotes R (observer.startDocument .empty s) (observer.startDocument .empty t)) :
    SameButQuotes R (parseWith observer text s) (parseWith observer other t) := by
  have back := begun.symm blind
  have one := (Outline.ofText text).watch_uniform blind Document.root begun
  have two := (Outline.ofText other).watch_uniform blind Document.root (back.trans blind begun)
  rw [Outline.ofText_uniform same] at one
  rw [parseWith_eq, parseWith_eq]
  exact blind.endDocument _ _ (one.trans blind (two.symm blind))

theorem SameButQuotes.recorded {first second : Reaction σ} {log log' : List Occasion}
    (same : SameButQuotes R x y) (after : SameButQuotes R (first.on x) (second.on y))
    (notes : log.map Occasion.uniform = log'.map Occasion.uniform) (call : Call NodeId) :
    SameButQuotes (fun s t => R s.1 t.1 ∧ s.2.map Occasion.uniform = t.2.map Occasion.uniform)
      ((first.recorded call).on (x.1, x.2, log)) ((second.recorded call).on (y.1, y.2, log')) := by
  refine ⟨after.1, after.2, ?_⟩
  have note : Occasion.uniform ⟨call, x.1, (first.on x).1⟩ =
      Occasion.uniform ⟨call, y.1, (second.on y).1⟩ := by
    rw [Occasion.uniform, Occasion.uniform, same.1, after.1]
  change (log ++ [_]).map Occasion.uniform = (log' ++ [_]).map Occasion.uniform
  rw [List.map_append, List.map_append, notes]
  exact congrArg (fun o => log'.map Occasion.uniform ++ [o]) note

theorem Observer.QuoteBlind.recorded (blind : observer.QuoteBlind R) :
    observer.recorded.QuoteBlind fun s t =>
      R s.1 t.1 ∧ s.2.map Occasion.uniform = t.2.map Occasion.uniform := by
  constructor
  case symm => exact fun s t same => ⟨blind.symm _ _ same.1, same.2.symm⟩
  case trans =>
    exact fun s t u first second =>
      ⟨blind.trans _ _ _ first.1 second.1, first.2.trans second.2⟩
  case startElement =>
    rintro id ⟨d, s, log⟩ ⟨d', t, log'⟩ ⟨same, related, notes⟩
    have before : SameButQuotes R (d, s) (d', t) := ⟨same, related⟩
    exact before.recorded (blind.startElement id _ _ before) notes _
  case endElement =>
    rintro id ⟨d, s, log⟩ ⟨d', t, log'⟩ ⟨same, related, notes⟩
    have before : SameButQuotes R (d, s) (d', t) := ⟨same, related⟩
    exact before.recorded (blind.endElement id _ _ before) notes _
  case ignored =>
    rintro what ⟨s, log⟩ ⟨t, log'⟩ ⟨related, notes⟩
    exact ⟨blind.ignored what _ _ related, notes⟩
  case endDocument =>
    rintro ⟨d, s, log⟩ ⟨d', t, log'⟩ ⟨same, related, notes⟩
    have before : SameButQuotes R (d, s) (d', t) := ⟨same, related⟩
    exact before.recorded (blind.endDocument _ _ before) notes _

theorem Observer.log_uniform (blind : observer.QuoteBlind R) {text other : String} {s t : σ}
    (same : (spelled text).map Token.uniform = (spelled other).map Token.uniform)
    (related : R s t)
    (begun : SameButQuotes R (observer.startDocument .empty s) (observer.startDocument .empty t)) :
    (observer.log text s).map Occasion.uniform = (observer.log other t).map Occasion.uniform := by
  have before : SameButQuotes R (.empty, s) (.empty, t) := ⟨rfl, related⟩
  have nothing : ([] : List Occasion).map Occasion.uniform = [].map Occasion.uniform := rfl
  have noted := before.recorded begun nothing .startDocument
  exact (parseWith_uniform blind.recorded same (s := (s, [])) (t := (t, [])) noted).2.2

end

end PageFilters
