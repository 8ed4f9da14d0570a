import PageFilters.Markup.Scan

/-!
Tokens on demand. A tokenizer reads one construct at a time, and only when the tokens of the one
before have all been handed out; names are interned as they are read. Asking often enough always
ends (`next_smaller`).
-/

namespace PageFilters

/-- A text being read: what is left of it, the names met so far, the tokens that are read but not
yet handed out, and whether reading has ended. -/
structure Tokenizer where
  rest : List Char
  atoms : AtomTable := {}
  pending : List (Token AtomId) := []
  finished : Bool := false

namespace Tokenizer

def ofText (text : String) : Tokenizer :=
  { rest := text.toList }

def step (t : Tokenizer) : Tokenizer :=
  if t.rest = [] then { t with finished := true }
  else
    let construct := scan t.rest
    let (tokens, atoms) := t.atoms.internTokens construct.tokens
    ⟨construct.rest, atoms, t.pending ++ tokens, !construct.more⟩

def toRead (t : Tokenizer) : Nat :=
  if t.finished then 0 else t.rest.length + 1

theorem step_toRead {t : Tokenizer} (h : t.finished = false) : t.step.toRead < t.toRead := by
  unfold step
  split
  · simp [toRead, h]
  · next some =>
    have := scan_shorter some
    simp only [toRead, h]
    split <;> simp_all

def next (t : Tokenizer) : Option (Token AtomId) × Tokenizer :=
  match t.pending with
  | token :: pending => (some token, { t with pending })
  | [] =>
    if t.finished then (none, t)
    else next t.step
termination_by t.toRead
decreasing_by exact step_toRead (by simp_all)

theorem next_smaller {t after : Tokenizer} {token : Token AtomId}
    (asked : t.next = (some token, after)) :
    Prod.Lex (· < ·) (· < ·) (after.toRead, after.pending.length) (t.toRead, t.pending.length) := by
  fun_induction next t with
  | case1 t token' pending held =>
    simp only [Prod.mk.injEq, Option.some.injEq] at asked
    obtain ⟨_, rfl⟩ := asked
    rw [held]
    exact Prod.Lex.right _ (by simp)
  | case2 => simp at asked
  | case3 t _ more ih =>
    have step := step_toRead (t := t) (by simpa using more)
    have := ih asked
    rw [Prod.lex_def] at this
    exact Prod.Lex.left _ _ (by omega)

def run (t : Tokenizer) : List (Token AtomId) × AtomTable :=
  match _asked : t.next with
  | (some token, after) =>
    let (tokens, atoms) := run after
    (token :: tokens, atoms)
  | (none, after) => ([], after.atoms)
termination_by (t.toRead, t.pending.length)
decreasing_by exact next_smaller _asked

end Tokenizer

def tokenize (text : String) : List (Token AtomId) × AtomTable :=
  (Tokenizer.ofText text).run

end PageFilters
