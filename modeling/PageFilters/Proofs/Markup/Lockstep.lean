import PageFilters.Proofs.Markup.Locality
import PageFilters.Proofs.Markup.Undisturbed

/-!
Two texts that begin alike, read side by side. Once a tag has been handed out, all that has been
handed out before depends only on the text up to the end of the tag: whatever follows, the tokens
are the same, and a builder that takes them in has built the same.
-/

namespace PageFilters

namespace Tokenizer

def asked : Nat → Tokenizer → Tokenizer
  | 0, t => t
  | n + 1, t => asked n t.next.2

variable {t after : Tokenizer} {token : Token AtomId}

theorem run_some (found : t.next = (some token, after)) :
    t.run = (token :: after.run.1, after.run.2) := by
  rw [run]
  split
  · next other =>
    rw [found] at other
    cases other
    rfl
  · next other => simp [found] at other

theorem run_none (found : t.next = (none, after)) : t.run = ([], after.atoms) := by
  rw [run]
  split
  · next other => simp [found] at other
  · next other =>
    rw [found] at other
    cases other
    rfl

theorem asked_succ (found : t.next = (some token, after)) (n : Nat) :
    t.asked (n + 1) = after.asked n := by
  rw [asked, found]

theorem next_of_run {n : Nat} (held : t.run.1[n]? = some token) :
    ∃ first after, t.next = (some first, after) ∧ (n = 0 → first = token) ∧
      ∀ m, n = m + 1 → after.run.1[m]? = some token := by
  cases found : t.next with
  | mk first after =>
    cases first with
    | none =>
      rw [run_none found] at held
      cases held
    | some first =>
      rw [run_some found] at held
      refine ⟨first, after, rfl, ?_, ?_⟩
      · rintro rfl
        exact Option.some.inj held
      · rintro m rfl
        exact held

theorem asked_spec {n : Nat} (sound : t.Sound) (within : n ≤ t.run.1.length) :
    (t.asked n).Sound ∧ (t.asked n).run.2 = t.run.2 ∧ t.atoms.Precedes (t.asked n).atoms ∧
      ∀ token ∈ t.run.1.take n, (t.asked n).atoms.Knows token := by
  induction n generalizing t with
  | zero => exact ⟨sound, rfl, .refl _, by simp⟩
  | succ n ih =>
    obtain ⟨first, after, found, _⟩ := next_of_run (List.getElem?_eq_getElem within)
    have spec := t.next_spec sound
    rw [found] at spec
    obtain ⟨later, kept, known, _⟩ := spec
    have whole := run_some found
    rw [whole] at within
    obtain ⟨again, last, precedes, others⟩ := ih kept (Nat.le_of_succ_le_succ within)
    rw [asked_succ found, whole]
    refine ⟨again, last, later.trans precedes, ?_⟩
    intro token member
    rw [List.take_succ_cons] at member
    rcases List.mem_cons.mp member with rfl | member
    · exact precedes.knows known
    · exact others token member

theorem step_some (some : t.rest ≠ []) :
    t.step = ⟨(scan t.rest).rest, (t.atoms.internTokens (scan t.rest).tokens).2,
      t.pending ++ (t.atoms.internTokens (scan t.rest).tokens).1, !(scan t.rest).more⟩ := by
  rw [step, if_neg some]

theorem next_of_step (empty : t.pending = []) (more : t.finished = false) :
    t.next = t.step.next := by
  rw [next]
  simp [empty, more]

theorem step_settled {start front rest : List Char} (whole : t.rest = start ++ (front ++ rest))
    (ended : '>' ∈ start ++ front)
    (same : ∀ rest', scan (start ++ (front ++ rest')) =
      { scan t.rest with rest := front ++ rest' }) (rest' : List Char) :
    ({ t with rest := start ++ (front ++ rest') } : Tokenizer).step =
      { t.step with rest := front ++ rest' } := by
  have long : ∀ more, start ++ (front ++ more) ≠ [] := by
    intro more none
    rw [← List.append_assoc] at none
    rw [(List.append_eq_nil_iff.mp none).1] at ended
    cases ended
  rw [step_some (long rest'), step_some (whole ▸ long rest), same]

theorem next_settled {front rest : List Char} (found : t.next = (some token, after))
    (left : after.rest = front ++ rest) (long : rest ≠ [])
    (clear : after.pending = [] → '>' ∈ front ∨ ∀ text, token ≠ .text text) :
    ∃ start, t.rest = start ++ rest ∧ (t.pending = [] → '>' ∈ start) ∧
      ∀ rest', ({ t with rest := start ++ rest' } : Tokenizer).next =
        (some token, { after with rest := front ++ rest' }) := by
  fun_induction next t with
  | case1 t token' pending held =>
    cases found
    refine ⟨front, left, ?_, ?_⟩
    · intro none
      rw [held] at none
      cases none
    · intro rest'
      rw [next]
      simp only [held]
  | case2 => cases found
  | case3 t empty more ih =>
    obtain ⟨middle, stepped, ended, same⟩ := ih found
    have some : t.rest ≠ [] := by
      intro none
      rw [step, if_pos none] at stepped
      rw [none] at stepped
      exact List.append_ne_nil_of_right_ne_nil middle long stepped.symm
    have scanned : (scan t.rest).rest = middle ++ rest := by
      rw [← stepped, step_some some]
    have settles : '>' ∈ middle ∨ ∀ text, (scan t.rest).tokens ≠ [.text text] := by
      by_cases lone : ∃ text, (scan t.rest).tokens = [.text text]
      · obtain ⟨text, lone⟩ := lone
        have pending : t.step.pending = [.text text] := by
          rw [step_some some, empty, lone]
          rfl
        rw [next, pending] at found
        cases found
        have same : front = middle := List.append_cancel_right (left.symm.trans stepped)
        rcases clear rfl with inside | others
        · exact .inl (same ▸ inside)
        · exact absurd rfl (others text)
      · exact .inr (not_exists.mp lone)
    obtain ⟨start, whole, inside, again⟩ := scan_settled scanned long settles
    refine ⟨start ++ middle, ?_, fun _ => inside, ?_⟩
    · rw [whole, List.append_assoc]
    · intro rest'
      have goes := next_of_step (t := { t with rest := start ++ (middle ++ rest') }) empty
        (by simpa using more)
      rw [List.append_assoc, goes, step_settled whole inside again rest']
      exact same rest'

theorem asked_settled {n : Nat} {rest : List Char} (held : t.run.1[n]? = some token)
    (tag : ∀ text, token ≠ .text text) (left : (t.asked (n + 1)).rest = rest) (long : rest ≠ []) :
    ∃ start, t.rest = start ++ rest ∧ (t.pending = [] → '>' ∈ start) ∧
      ∀ rest', let other : Tokenizer := { t with rest := start ++ rest' }
        other.asked (n + 1) = { t.asked (n + 1) with rest := rest' } ∧
          other.run.1.take (n + 1) = t.run.1.take (n + 1) := by
  induction n generalizing t with
  | zero =>
    obtain ⟨first, after, found, only, _⟩ := next_of_run held
    obtain rfl := only rfl
    rw [asked_succ found] at left
    obtain ⟨start, whole, ended, same⟩ := next_settled found
      (show after.rest = [] ++ rest from left) long fun _ => .inr tag
    refine ⟨start, whole, ended, ?_⟩
    intro rest' other
    have found' : other.next = _ := same rest'
    rw [asked_succ found, asked_succ found', run_some found, run_some found']
    exact ⟨rfl, rfl⟩
  | succ n ih =>
    obtain ⟨first, after, found, _, later⟩ := next_of_run held
    rw [asked_succ found] at left
    obtain ⟨front, middle, ended, same⟩ := ih (later n rfl) left
    obtain ⟨start, whole, ended', same'⟩ := next_settled found middle long
      fun none => .inl (ended none)
    refine ⟨start, whole, ended', ?_⟩
    intro rest' other
    have found' : other.next = _ := same' rest'
    obtain ⟨asked', taken⟩ := same rest'
    rw [asked_succ found, asked_succ found', run_some found, run_some found', List.take_succ_cons,
      List.take_succ_cons, taken]
    exact ⟨asked', rfl⟩

end Tokenizer

theorem tokenize_settled {start rest : String} {n : Nat} {token : Token AtomId}
    (held : (tokenize (start ++ rest)).1[n]? = some token) (tag : ∀ text, token ≠ .text text)
    (left : ((Tokenizer.ofText (start ++ rest)).asked (n + 1)).rest = rest.toList)
    (long : rest ≠ "") (rest' : String) :
    (Tokenizer.ofText (start ++ rest')).asked (n + 1) =
        { (Tokenizer.ofText (start ++ rest)).asked (n + 1) with rest := rest'.toList } ∧
      (tokenize (start ++ rest')).1.take (n + 1) = (tokenize (start ++ rest)).1.take (n + 1) ∧
      n + 1 ≤ (tokenize (start ++ rest)).1.length ∧
      n + 1 ≤ (tokenize (start ++ rest')).1.length := by
  have some : rest.toList ≠ [] := by
    intro none
    exact long (String.toList_injective none)
  obtain ⟨front, whole, _, same⟩ := Tokenizer.asked_settled held tag left some
  have whole : (start ++ rest).toList = front ++ rest.toList := whole
  rw [String.toList_append] at whole
  have text : { Tokenizer.ofText (start ++ rest) with rest := front ++ rest'.toList } =
      Tokenizer.ofText (start ++ rest') := by
    simp [Tokenizer.ofText, ← List.append_cancel_right whole]
  have read := same rest'.toList
  rw [text] at read
  obtain ⟨asked, taken⟩ := read
  have taken : (tokenize (start ++ rest')).1.take (n + 1) =
      (tokenize (start ++ rest)).1.take (n + 1) := taken
  have within : n + 1 ≤ (tokenize (start ++ rest)).1.length :=
    (List.getElem?_eq_some_iff.mp held).1
  have length := congrArg List.length taken
  rw [List.length_take, List.length_take, Nat.min_eq_left within] at length
  exact ⟨asked, taken, within, by omega⟩

namespace Builder

variable (observer : Observer σ) (state : σ)

theorem after_eq_asked {text : String} {n m : Nat} (within : n ≤ (tokenize text).1.length)
    (early : m ≤ n) :
    after observer text state m =
      ((tokenize text).1.take m).foldl
        (fun b token => b.feed observer ((Tokenizer.ofText text).asked n).atoms token)
        (begun observer state) := by
  obtain ⟨sound, last, _, known⟩ := Tokenizer.asked_spec (Tokenizer.ofText_sound text) within
  have precedes := (Tokenizer.run_spec sound).1
  rw [last] at precedes
  rw [after]
  apply List.foldl_ext
  intro b token member
  have subset : (tokenize text).1.take m ⊆ (tokenize text).1.take n :=
    (List.take_prefix_take_left early).subset
  exact feed_later observer precedes (known token (subset member)) b

theorem after_settled {start rest : String} {n : Nat} {token : Token AtomId}
    (held : (tokenize (start ++ rest)).1[n]? = some token) (tag : ∀ text, token ≠ .text text)
    (left : ((Tokenizer.ofText (start ++ rest)).asked (n + 1)).rest = rest.toList)
    (long : rest ≠ "") (rest' : String) {m : Nat} (early : m ≤ n + 1) :
    after observer (start ++ rest') state m = after observer (start ++ rest) state m := by
  obtain ⟨asked, taken, within, within'⟩ := tokenize_settled held tag left long rest'
  have tokens : (tokenize (start ++ rest')).1.take m = (tokenize (start ++ rest)).1.take m := by
    have shorter := congrArg (List.take m) taken
    rwa [List.take_take, List.take_take, Nat.min_eq_left early] at shorter
  rw [after_eq_asked observer state within' early, after_eq_asked observer state within early,
    asked, tokens]

end Builder

theorem spelled_take {text : String} {n : Nat} (within : n ≤ (tokenize text).1.length) :
    (spelled text).take n = ((tokenize text).1.take n).map
      (Token.rename ((Tokenizer.ofText text).asked n).atoms.resolve) := by
  obtain ⟨sound, last, _, known⟩ := Tokenizer.asked_spec (Tokenizer.ofText_sound text) within
  have precedes := (Tokenizer.run_spec sound).1
  rw [last] at precedes
  rw [spelled, ← List.map_take]
  exact List.map_congr_left fun token member => precedes.rename_eq (known token member)

theorem spelled_settled {start rest : String} {n : Nat} {token : Token AtomId}
    (held : (tokenize (start ++ rest)).1[n]? = some token) (tag : ∀ text, token ≠ .text text)
    (left : ((Tokenizer.ofText (start ++ rest)).asked (n + 1)).rest = rest.toList)
    (long : rest ≠ "") (rest' : String) :
    (spelled (start ++ rest')).take (n + 1) = (spelled (start ++ rest)).take (n + 1) := by
  obtain ⟨asked, taken, within, within'⟩ := tokenize_settled held tag left long rest'
  rw [spelled_take within', spelled_take within, asked, taken]

end PageFilters
