import Mathlib.Data.List.Basic
import PageFilters.Markup.Token

/-!
The story that tokens tell an observer. Each token is answered by calls that depend on the tokens
and on the calls before only; an element is known by the number of the token that starts it. The
calls of a whole story nest like brackets, and every start tag gets its two.
-/

namespace PageFilters

inductive Call (ι : Type) where
  | startDocument
  | startElement (element : ι)
  | endElement (element : ι)
  | endDocument
  deriving DecidableEq, Repr

def Call.map (f : ι → κ) : Call ι → Call κ
  | .startDocument => .startDocument
  | .startElement element => .startElement (f element)
  | .endElement element => .endElement (f element)
  | .endDocument => .endDocument

def Token.startName? : Token ν → Option ν
  | .startTag name _ _ _ => some name
  | _ => none

def startName? (tokens : List (Token ν)) (k : Nat) : Option ν :=
  tokens[k]?.bind Token.startName?

theorem startName_lt {tokens : List (Token ν)} {k : Nat}
    (tag : (startName? tokens k).isSome) : k < tokens.length := by
  by_contra beyond
  rw [startName?, List.getElem?_eq_none (Nat.le_of_not_lt beyond)] at tag
  cases tag

/-- Calls, each of which is about an element: every element that starts ends, and those that start
in between end first. -/
inductive Balanced : List (Call ι) → Prop where
  | nil : Balanced []
  | element (k : ι) {inside rest} : Balanced inside → Balanced rest →
      Balanced (.startElement k :: (inside ++ .endElement k :: rest))

section

variable {ι : Type} [DecidableEq ι]

def Call.update (opened : List ι) : Call ι → List ι
  | .startElement k => k :: opened
  | .endElement k => opened.erase k
  | _ => opened

def openAfter (calls : List (Call ι)) : List ι :=
  calls.foldl Call.update []

end

section

variable [DecidableEq ν] (tokens : List (Token ν))

/-- The calls that the token number `k` gives rise to when there were `calls` before. An end tag
closes the innermost open element of its name, after all that are open inside it. -/
def answer (calls : List (Call Nat)) (k : Nat) : List (Call Nat) :=
  match tokens[k]? with
  | some (.startTag _ _ true _) => [.startElement k, .endElement k]
  | some (.startTag _ _ false _) => [.startElement k]
  | some (.endTag name) =>
    match (openAfter calls).findIdx? fun j => startName? tokens j == some name with
    | none => []
    | some inside => ((openAfter calls).take (inside + 1)).map .endElement
  | _ => []

def told (n : Nat) : List (Call Nat) :=
  (List.range n).foldl (fun calls k => calls ++ answer tokens calls k) []

/-- The calls about elements: what is open when the tokens end is closed from the innermost
outwards. -/
def elementCalls : List (Call Nat) :=
  let calls := told tokens tokens.length
  calls ++ (openAfter calls).map .endElement

def story : List (Call Nat) :=
  .startDocument :: (elementCalls tokens ++ [.endDocument])

end

theorem openAfter_append [DecidableEq ι] (calls more : List (Call ι)) :
    openAfter (calls ++ more) = more.foldl Call.update (openAfter calls) :=
  List.foldl_append

namespace Balanced

theorem append {a b : List (Call ι)} (first : Balanced a) (second : Balanced b) :
    Balanced (a ++ b) := by
  induction first with
  | nil => exact second
  | element k inside _ _ ih =>
    have whole := Balanced.element k inside ih
    simpa using whole

theorem single (k : ι) {inside : List (Call ι)} (balanced : Balanced inside) :
    Balanced (.startElement k :: (inside ++ [.endElement k])) :=
  .element k balanced .nil

section

variable [DecidableEq ι]

theorem foldl_update {calls : List (Call ι)} (balanced : Balanced calls) (opened : List ι) :
    calls.foldl Call.update opened = opened := by
  induction balanced generalizing opened with
  | nil => rfl
  | element k _ _ ihInside ihRest =>
    rw [List.foldl_cons, List.foldl_append, List.foldl_cons, Call.update, ihInside, Call.update,
      List.erase_cons_head, ihRest]

theorem count_eq {calls : List (Call ι)} (balanced : Balanced calls) (k : ι) :
    calls.count (.endElement k) = calls.count (.startElement k) := by
  induction balanced with
  | nil => rfl
  | element j _ _ ihInside ihRest =>
    simp only [List.count_cons, List.count_append, ihInside, ihRest]
    simp
    omega

end

theorem around {calls : List (Call ι)} (balanced : Balanced calls) {k : ι}
    (member : .startElement k ∈ calls) :
    ∃ before inside after, Balanced inside ∧
      calls = before ++ .startElement k :: (inside ++ .endElement k :: after) := by
  induction balanced with
  | nil => cases member
  | @element j inside rest balanced _ ihInside ihRest =>
    rcases List.mem_cons.mp member with same | member
    · cases same
      exact ⟨[], inside, rest, balanced, rfl⟩
    · rcases List.mem_append.mp member with early | late
      · obtain ⟨before, middle, after, closed, same⟩ := ihInside early
        refine ⟨.startElement j :: before, middle, after ++ .endElement j :: rest, closed, ?_⟩
        simp [same]
      · rcases List.mem_cons.mp late with other | late
        · cases other
        · obtain ⟨before, middle, after, closed, same⟩ := ihRest late
          refine ⟨.startElement j :: (inside ++ .endElement j :: before), middle, after, closed, ?_⟩
          simp [same]

end Balanced

inductive Pending : List (Call ι) → List ι → Prop where
  | balanced {calls} : Balanced calls → Pending calls []
  | start {calls opened} (k : ι) {inside} : Pending calls opened → Balanced inside →
      Pending (calls ++ .startElement k :: inside) (k :: opened)

namespace Pending

variable {calls : List (Call ι)} {opened : List ι}

theorem append_balanced (pending : Pending calls opened) {more : List (Call ι)}
    (balanced : Balanced more) : Pending (calls ++ more) opened := by
  cases pending with
  | balanced all => exact .balanced (all.append balanced)
  | start k before inside =>
    rw [List.append_assoc, List.cons_append]
    exact .start k before (inside.append balanced)

theorem close {k : ι} (pending : Pending calls (k :: opened)) :
    Pending (calls ++ [.endElement k]) opened := by
  cases pending with
  | start k before inside =>
    rw [List.append_assoc, List.cons_append]
    exact before.append_balanced (.single k inside)

theorem closeAll {first : List ι} (pending : Pending calls (first ++ opened)) :
    Pending (calls ++ first.map .endElement) opened := by
  induction first generalizing calls with
  | nil => simpa using pending
  | cons k first ih =>
    have later := ih pending.close
    simpa using later

theorem openAfter_eq [DecidableEq ι] (pending : Pending calls opened) :
    openAfter calls = opened := by
  induction pending with
  | balanced all => exact all.foldl_update []
  | start k _ inside ih =>
    rw [openAfter_append, ih, List.foldl_cons, Call.update, inside.foldl_update]

theorem closed (pending : Pending calls []) : Balanced calls := by
  cases pending with
  | balanced all => exact all

end Pending

section

variable [DecidableEq ν] {tokens : List (Token ν)} {calls : List (Call Nat)} {opened : List Nat}

theorem told_succ (tokens : List (Token ν)) (n : Nat) :
    told tokens (n + 1) = told tokens n ++ answer tokens (told tokens n) n := by
  rw [told, List.range_succ, List.foldl_append]
  rfl

theorem told_prefix (tokens : List (Token ν)) {m n : Nat} (early : m ≤ n) :
    told tokens m <+: told tokens n := by
  induction early with
  | refl => exact List.prefix_refl _
  | step _ ih =>
    rw [told_succ]
    exact ih.trans (List.prefix_append ..)

theorem answer_startTag (calls : List (Call Nat)) {n : Nat} {name : ν}
    {attributes : List (AttributeOf ν)} {selfClosing slashed : Bool}
    (held : tokens[n]? = some (.startTag name attributes selfClosing slashed)) :
    answer tokens calls n =
      if selfClosing then [.startElement n, .endElement n] else [.startElement n] := by
  cases selfClosing <;> simp [answer, held]

theorem answer_of_endTag (calls : List (Call Nat)) {n : Nat} {name : ν}
    (held : tokens[n]? = some (.endTag name)) :
    answer tokens calls n =
      match (openAfter calls).findIdx? fun j => startName? tokens j == some name with
      | none => []
      | some inside => ((openAfter calls).take (inside + 1)).map .endElement := by
  rw [answer, held]

theorem answer_endTag (calls : List (Call Nat)) {n : Nat} {name : ν}
    (held : tokens[n]? = some (.endTag name)) :
    ((∀ j ∈ openAfter calls, startName? tokens j ≠ some name) ∧ answer tokens calls n = []) ∨
      ∃ inner j outer, openAfter calls = inner ++ j :: outer ∧ startName? tokens j = some name ∧
        (∀ i ∈ inner, startName? tokens i ≠ some name) ∧
        answer tokens calls n = (inner ++ [j]).map .endElement := by
  rw [answer_of_endTag calls held]
  cases found : (openAfter calls).findIdx? fun j => startName? tokens j == some name with
  | none =>
    left
    rw [List.findIdx?_eq_none_iff] at found
    exact ⟨fun j member => by simpa using found j member, rfl⟩
  | some inside =>
    right
    obtain ⟨within, here, before⟩ := List.findIdx?_eq_some_iff_getElem.mp found
    refine ⟨(openAfter calls).take inside, (openAfter calls)[inside],
      (openAfter calls).drop (inside + 1), by simp, by simpa using here, ?_, by simp⟩
    intro i member
    obtain ⟨place, early, rfl⟩ := List.mem_take_iff_getElem.mp member
    simpa using before place (by omega)

theorem answer_other (calls : List (Call Nat)) {n : Nat} (noStart : startName? tokens n = none)
    (noEnd : ∀ name, tokens[n]? ≠ some (.endTag name)) : answer tokens calls n = [] := by
  cases held : tokens[n]? with
  | none => simp [answer, held]
  | some token =>
    cases token with
    | startTag name => simp [startName?, held, Token.startName?] at noStart
    | endTag name => exact absurd held (noEnd name)
    | _ => simp [answer, held]

theorem Pending.answer (pending : Pending calls opened) (n : Nat) :
    ∃ later, Pending (calls ++ answer tokens calls n) later := by
  cases held : tokens[n]? with
  | none => exact ⟨opened, by simpa [PageFilters.answer, held] using pending⟩
  | some token =>
    cases token with
    | startTag name attributes selfClosing slashed =>
      rw [answer_startTag calls held]
      cases selfClosing with
      | true => exact ⟨opened, pending.append_balanced (.single n .nil)⟩
      | false => exact ⟨n :: opened, pending.start n .nil⟩
    | endTag name =>
      rcases answer_endTag calls held with ⟨_, none⟩ | ⟨inner, j, outer, split, _, _, closes⟩
      · exact ⟨opened, by simpa [none] using pending⟩
      · rw [pending.openAfter_eq] at split
        have whole : opened = (inner ++ [j]) ++ outer := by simp [split]
        rw [whole] at pending
        rw [closes]
        exact ⟨outer, pending.closeAll⟩
    | _ => exact ⟨opened, by simpa [PageFilters.answer, held] using pending⟩

theorem told_pending (tokens : List (Token ν)) (n : Nat) :
    Pending (told tokens n) (openAfter (told tokens n)) := by
  have some : ∃ opened, Pending (told tokens n) opened := by
    induction n with
    | zero => exact ⟨[], .balanced .nil⟩
    | succ n ih =>
      obtain ⟨opened, pending⟩ := ih
      rw [told_succ]
      exact pending.answer n
  obtain ⟨opened, pending⟩ := some
  rw [pending.openAfter_eq]
  exact pending

theorem count_start_answer (tokens : List (Token ν)) (calls : List (Call Nat)) (n k : Nat) :
    (answer tokens calls n).count (.startElement k) =
      if k = n ∧ (startName? tokens n).isSome then 1 else 0 := by
  cases held : tokens[n]? with
  | none => simp [answer, startName?, held]
  | some token =>
    cases token with
    | startTag name attributes selfClosing slashed =>
      rw [answer_startTag calls held]
      by_cases here : k = n
      · subst here
        cases selfClosing <;> simp [startName?, held, Token.startName?]
      · have other : n ≠ k := Ne.symm here
        cases selfClosing <;> simp [here, other]
    | endTag name =>
      have none : startName? tokens n = none := by simp [startName?, held, Token.startName?]
      rw [none]
      rcases answer_endTag calls held with ⟨_, empty⟩ | ⟨inner, j, _, _, _, _, closes⟩
      · simp [empty]
      · rw [closes, List.count_eq_zero.mpr (by simp)]
        simp
    | _ => simp [answer, startName?, held, Token.startName?]

theorem count_start_told (tokens : List (Token ν)) (n k : Nat) :
    (told tokens n).count (.startElement k) =
      if k < n ∧ (startName? tokens k).isSome then 1 else 0 := by
  induction n with
  | zero => simp [told]
  | succ n ih =>
    rw [told_succ, List.count_append, ih, count_start_answer]
    by_cases here : k = n
    · subst here
      simp
    · have same : k < n + 1 ↔ k < n := by omega
      simp [here, same]

theorem elementCalls_balanced (tokens : List (Token ν)) : Balanced (elementCalls tokens) := by
  have pending := told_pending tokens tokens.length
  rw [← List.append_nil (openAfter _)] at pending
  exact pending.closeAll.closed

theorem count_start_elementCalls (tokens : List (Token ν)) (k : Nat) :
    (elementCalls tokens).count (.startElement k) =
      if (startName? tokens k).isSome then 1 else 0 := by
  have ends : ((openAfter (told tokens tokens.length)).map Call.endElement).count
      (.startElement k) = 0 := List.count_eq_zero.mpr (by simp)
  rw [elementCalls, List.count_append, count_start_told, ends]
  by_cases tag : (startName? tokens k).isSome
  · simp [tag, startName_lt tag]
  · simp [tag]

theorem count_end_elementCalls (tokens : List (Token ν)) (k : Nat) :
    (elementCalls tokens).count (.endElement k) =
      if (startName? tokens k).isSome then 1 else 0 := by
  rw [(elementCalls_balanced tokens).count_eq, count_start_elementCalls]

end

def VoidOnly (tokens : List (Token String)) : Prop :=
  ∀ name attributes selfClosing slashed,
    .startTag name attributes selfClosing slashed ∈ tokens → selfClosing = isVoid name

/-- How an observer is told of tokens. `told n` are the calls about elements that come before the
token number `n` is taken in; `calls` are all calls. -/
structure Orderly (tokens : List (Token String)) (told : Nat → List (Call Nat))
    (calls : List (Call Nat)) : Prop where
  framed : ∃ body, calls = .startDocument :: (body ++ [.endDocument]) ∧ Balanced body
  /-- A start tag is told as one start and one end, which comes later, and what starts in between
  ends in between. -/
  paired : ∀ k, (startName? tokens k).isSome →
    calls.count (.startElement k) = 1 ∧ calls.count (.endElement k) = 1 ∧
      ∃ before inside after, Balanced inside ∧
        calls = before ++ .startElement k :: (inside ++ .endElement k :: after)
  only : ∀ k, .startElement k ∈ calls ∨ .endElement k ∈ calls → (startName? tokens k).isSome
  grows : ∀ n ≤ tokens.length, .startDocument :: told n <+: calls
  startTag : ∀ n name attributes selfClosing slashed,
    tokens[n]? = some (.startTag name attributes selfClosing slashed) →
      told (n + 1) =
        told n ++ if isVoid name then [.startElement n, .endElement n] else [.startElement n]
  endTag : ∀ n name, tokens[n]? = some (.endTag name) →
    ((∀ j ∈ openAfter (told n), startName? tokens j ≠ some name) ∧ told (n + 1) = told n) ∨
      ∃ inner j outer, openAfter (told n) = inner ++ j :: outer ∧
        startName? tokens j = some name ∧ (∀ i ∈ inner, startName? tokens i ≠ some name) ∧
        told (n + 1) = told n ++ (inner ++ [j]).map .endElement
  other : ∀ n, startName? tokens n = none → (∀ name, tokens[n]? ≠ some (.endTag name)) →
    told (n + 1) = told n

theorem story_orderly {tokens : List (Token String)} (void : VoidOnly tokens) :
    Orderly tokens (told tokens) (story tokens) := by
  have balanced := elementCalls_balanced tokens
  have starts : ∀ k, (story tokens).count (.startElement k) =
      if (startName? tokens k).isSome then 1 else 0 := by
    intro k
    rw [← count_start_elementCalls]
    simp [story]
  have ends : ∀ k, (story tokens).count (.endElement k) =
      if (startName? tokens k).isSome then 1 else 0 := by
    intro k
    rw [← count_end_elementCalls]
    simp [story]
  constructor
  case framed => exact ⟨elementCalls tokens, rfl, balanced⟩
  case paired =>
    intro k tag
    refine ⟨by rw [starts, if_pos tag], by rw [ends, if_pos tag], ?_⟩
    have member : .startElement k ∈ elementCalls tokens := by
      apply List.count_pos_iff.mp
      rw [count_start_elementCalls, if_pos tag]
      exact Nat.one_pos
    obtain ⟨before, inside, after, closed, split⟩ := balanced.around member
    refine ⟨.startDocument :: before, inside, after ++ [.endDocument], closed, ?_⟩
    simp [story, split]
  case only =>
    intro k member
    by_contra noTag
    rcases member with start | ending
    · have some := List.count_pos_iff.mpr start
      rw [starts, if_neg noTag] at some
      cases some
    · have some := List.count_pos_iff.mpr ending
      rw [ends, if_neg noTag] at some
      cases some
  case grows =>
    intro n early
    obtain ⟨later, whole⟩ := told_prefix tokens early
    refine ⟨later ++ (openAfter (told tokens tokens.length)).map .endElement ++ [.endDocument], ?_⟩
    simp [story, elementCalls, ← whole]
  case startTag =>
    intro n name attributes selfClosing slashed held
    rw [told_succ, answer_startTag _ held,
      void name attributes selfClosing slashed (List.mem_of_getElem? held)]
  case endTag =>
    intro n name held
    rw [told_succ]
    rcases answer_endTag (told tokens n) held with ⟨none, empty⟩ | closes
    · exact .inl ⟨none, by rw [empty, List.append_nil]⟩
    · obtain ⟨inner, j, outer, split, named, first, ended⟩ := closes
      exact .inr ⟨inner, j, outer, split, named, first, by rw [ended]⟩
  case other =>
    intro n noStart noEnd
    rw [told_succ, answer_other _ noStart noEnd, List.append_nil]

end PageFilters
