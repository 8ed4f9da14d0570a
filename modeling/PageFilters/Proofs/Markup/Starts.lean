import PageFilters.Proofs.Markup.Remainder

/-!
The elements that start while a text is read. Whatever an observer does to the tree, they are the
start tags of the text, one after the other, and each starts as its tag has it.
-/

namespace PageFilters

def Token.element? : Token String → Option Element
  | .startTag name attributes _ _ => some ⟨name, attributes⟩
  | _ => none

def startTags (tokens : List (Token String)) : List (Nat × Element) :=
  (List.range tokens.length).filterMap fun k => (tokens[k]?.bind Token.element?).map (k, ·)

def Call.started? : Call ι → Option ι
  | .startElement k => some k
  | _ => none

/-- The element that starts at an occasion, as it is then. -/
def Occasion.starter? (o : Occasion) : Option (NodeId × Element) :=
  o.call.started?.bind fun id => (o.before.element? id).map (id, ·)

theorem isSome_element (tokens : List (Token String)) (k : Nat) :
    (tokens[k]?.bind Token.element?).isSome = (startName? tokens k).isSome := by
  rw [startName?]
  cases tokens[k]? with
  | none => rfl
  | some token => cases token <;> rfl

theorem startTag_of_element {tokens : List (Token String)} {k : Nat} {e : Element}
    (held : tokens[k]?.bind Token.element? = some e) :
    ∃ selfClosing slashed,
      tokens[k]? = some (.startTag e.name e.attributes selfClosing slashed) := by
  obtain ⟨token, there, element⟩ := Option.bind_eq_some_iff.mp held
  cases token with
  | startTag name attributes selfClosing slashed =>
    cases element
    exact ⟨selfClosing, slashed, there⟩
  | _ => cases element

section

variable (tokens : List (Token String))

theorem started_ends (opened : List Nat) :
    (opened.map Call.endElement).filterMap Call.started? = [] := by
  simp [List.filterMap_map, Call.started?, Function.comp_def]

theorem started_answer (calls : List (Call Nat)) (n : Nat) :
    (answer tokens calls n).filterMap Call.started? =
      if (startName? tokens n).isSome then [n] else [] := by
  cases held : tokens[n]? with
  | none => simp [answer, startName?, held]
  | some token =>
    cases token with
    | startTag name attributes selfClosing slashed =>
      rw [answer_startTag calls held]
      cases selfClosing <;> simp [startName?, held, Token.startName?, Call.started?]
    | endTag name =>
      have none : startName? tokens n = none := by simp [startName?, held, Token.startName?]
      rw [none]
      rcases answer_endTag calls held with ⟨_, empty⟩ | ⟨inner, j, _, _, _, _, closes⟩
      · simp [empty]
      · rw [closes, started_ends]
        rfl
    | _ => simp [answer, startName?, held, Token.startName?]

theorem started_told (n : Nat) :
    (told tokens n).filterMap Call.started? =
      (List.range n).filter fun k => (startName? tokens k).isSome := by
  induction n with
  | zero => simp [told]
  | succ n ih =>
    rw [told_succ, List.filterMap_append, ih, started_answer, List.range_succ, List.filter_append,
      List.filter_singleton, Bool.cond_eq_ite]

theorem started_story :
    (story tokens).filterMap Call.started? =
      (List.range tokens.length).filter fun k => (startName? tokens k).isSome := by
  rw [story, elementCalls, ← started_told]
  simp [List.filterMap_cons, Call.started?]

end

theorem filterMap_starter {tokens : List (Token String)} {node : Nat → NodeId}
    {log : List Occasion} {calls : List (Call Nat)}
    (same : log.map Occasion.call = calls.map (Call.map node))
    (shown : ∀ o ∈ log, ∀ k, .startElement k ∈ calls → o.call = .startElement (node k) →
      o.before.element? (node k) = tokens[k]?.bind Token.element?) :
    log.filterMap Occasion.starter? = (calls.filterMap Call.started?).filterMap fun k =>
      (tokens[k]?.bind Token.element?).map (node k, ·) := by
  induction calls generalizing log with
  | nil =>
    rw [List.map_nil, List.map_eq_nil_iff] at same
    rw [same]
    rfl
  | cons call rest ih =>
    cases log with
    | nil => cases same
    | cons o log =>
      simp only [List.map_cons, List.cons.injEq] at same
      obtain ⟨here, later⟩ := same
      have others := ih later fun o' member k inside =>
        shown o' (List.mem_cons_of_mem _ member) k (List.mem_cons_of_mem _ inside)
      cases call with
      | startElement k =>
        have held := shown o (List.mem_cons_self ..) k (List.mem_cons_self ..) here
        have starter : o.starter? = (tokens[k]?.bind Token.element?).map (node k, ·) := by
          rw [Occasion.starter?, here, ← held]
          rfl
        simp only [List.filterMap_cons, starter, Call.started?, others]
      | _ =>
        have starter : o.starter? = none := by
          rw [Occasion.starter?, here]
          rfl
        simp only [List.filterMap_cons, starter, Call.started?, others]

theorem Observer.Undisturbed.starters {observer : Observer σ} {text : String} {state : σ}
    (calm : observer.Undisturbed text state) :
    (observer.log text state).filterMap Occasion.starter? =
      (startTags (spelled text)).map (Prod.map (observer.node text state) id) := by
  have shown : ∀ o ∈ observer.log text state, ∀ k, .startElement k ∈ story (spelled text) →
      o.call = .startElement (observer.node text state k) →
        o.before.element? (observer.node text state k) =
          (spelled text)[k]?.bind Token.element? := by
    intro o member k inside call
    have tag := (spelled_orderly text).only k (.inl inside)
    rw [← isSome_element, Option.isSome_iff_exists] at tag
    obtain ⟨e, element⟩ := tag
    obtain ⟨selfClosing, slashed, held⟩ := startTag_of_element element
    rw [element, calm.shown_as held member call]
  rw [filterMap_starter calm.whole shown, started_story, startTags, List.filterMap_filter,
    List.map_filterMap]
  apply List.filterMap_congr
  intro k _
  rw [← isSome_element]
  cases (spelled text)[k]?.bind Token.element? with
  | none => rfl
  | some e => rfl

end PageFilters
