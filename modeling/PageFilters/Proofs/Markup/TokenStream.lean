import PageFilters.Proofs.Markup.Constructs
import PageFilters.Proofs.Markup.Lockstep

/-!
Well-formed streams of tokens. What one construct says is well formed by itself, streams stay well
formed side by side, and interning keeps them so; hence all that a tokenizer has read of a text is
well formed at any time, with the names that are interned by then.
-/

namespace PageFilters

def ClosesRaw (resolve : ν → String) (name : ν) (tokens : List (Token ν)) : Prop :=
  ∃ rest, tokens = .endTag name :: rest ∨ ∃ body, body ≠ "" ∧
    ¬ HasCloseTag (resolve name).toList body.toList ∧ tokens = .text body :: .endTag name :: rest

/-- What may be relied on in a stream of tokens, whose names stand for the texts that `resolve`
gives. -/
structure WellFormedTokens (resolve : ν → String) (tokens : List (Token ν)) : Prop where
  named : ∀ token ∈ tokens, ∀ name ∈ token.names, IsName (resolve name)
  void : ∀ name attributes selfClosing slashed,
    .startTag name attributes selfClosing slashed ∈ tokens → selfClosing = isVoid (resolve name)
  raw : ∀ before name attributes selfClosing slashed after,
    tokens = before ++ .startTag name attributes selfClosing slashed :: after →
      resolve name = "script" ∨ resolve name = "style" → ClosesRaw resolve name after
  texts : ∀ body, .text body ∈ tokens → body ≠ ""
  comments : ∀ body, .comment body ∈ tokens → IsComment body.toList
  doctypes : ∀ body, .doctype body ∈ tokens → IsDoctype body.toList

theorem ClosesRaw.append {resolve : ν → String} {name : ν} {tokens : List (Token ν)}
    (closes : ClosesRaw resolve name tokens) (more : List (Token ν)) :
    ClosesRaw resolve name (tokens ++ more) := by
  obtain ⟨rest, rfl | ⟨body, some, absent, rfl⟩⟩ := closes
  · exact ⟨rest ++ more, .inl rfl⟩
  · exact ⟨rest ++ more, .inr ⟨body, some, absent, rfl⟩⟩

namespace WellFormedTokens

section

variable {resolve : ν → String} {tokens first second : List (Token ν)}

theorem nil (resolve : ν → String) : WellFormedTokens resolve [] := by
  constructor
  case raw =>
    intro before name attributes selfClosing slashed after none
    exact absurd none.symm (by simp)
  all_goals simp

theorem append (front : WellFormedTokens resolve first) (back : WellFormedTokens resolve second) :
    WellFormedTokens resolve (first ++ second) := by
  constructor
  case named =>
    intro token member
    exact (List.mem_append.mp member).elim (front.named token) (back.named token)
  case void =>
    intro name attributes selfClosing slashed member
    exact (List.mem_append.mp member).elim (front.void _ _ _ _) (back.void _ _ _ _)
  case texts =>
    intro body member
    exact (List.mem_append.mp member).elim (front.texts body) (back.texts body)
  case comments =>
    intro body member
    exact (List.mem_append.mp member).elim (front.comments body) (back.comments body)
  case doctypes =>
    intro body member
    exact (List.mem_append.mp member).elim (front.doctypes body) (back.doctypes body)
  case raw =>
    intro before name attributes selfClosing slashed after whole isRaw
    rcases List.append_eq_append_iff.mp whole with ⟨between, _, later⟩ | ⟨between, early, later⟩
    · exact back.raw between _ _ _ _ _ later isRaw
    · cases between with
      | nil => exact back.raw [] _ _ _ _ _ later.symm isRaw
      | cons tag between =>
        obtain ⟨rfl, rfl⟩ := List.cons.inj later
        exact (front.raw before _ _ _ _ _ early isRaw).append second

theorem congr {other : ν → String} (formed : WellFormedTokens resolve tokens)
    (same : ∀ token ∈ tokens, ∀ name ∈ token.names, other name = resolve name) :
    WellFormedTokens other tokens := by
  have tag : ∀ {name attributes selfClosing slashed},
      .startTag name attributes selfClosing slashed ∈ tokens → other name = resolve name :=
    fun member => same _ member _ (List.mem_cons_self ..)
  constructor
  case named =>
    intro token member name inside
    rw [same token member name inside]
    exact formed.named token member name inside
  case void =>
    intro name attributes selfClosing slashed member
    rw [tag member]
    exact formed.void _ _ _ _ member
  case raw =>
    intro before name attributes selfClosing slashed after whole isRaw
    have name_eq := tag (whole ▸ List.mem_append_right before (List.mem_cons_self ..))
    rw [name_eq] at isRaw
    have closes := formed.raw before _ _ _ _ _ whole isRaw
    rwa [ClosesRaw, ← name_eq] at closes
  case texts => exact formed.texts
  case comments => exact formed.comments
  case doctypes => exact formed.doctypes

end

theorem names_rename (f : ν → μ) (token : Token ν) :
    (token.rename f).names = token.names.map f := by
  cases token with
  | startTag => simp [Token.rename, Token.names, AttributeOf.rename, Function.comp_def]
  | _ => rfl

theorem of_rename {resolve : ν → String} {tokens : List (Token ν)}
    (apart : ∀ first ∈ tokens, ∀ a ∈ first.names, ∀ second ∈ tokens, ∀ b ∈ second.names,
      resolve a = resolve b → a = b)
    (formed : WellFormedTokens id (tokens.map (Token.rename resolve))) :
    WellFormedTokens resolve tokens := by
  have inside : ∀ token ∈ tokens, token.rename resolve ∈ tokens.map (Token.rename resolve) :=
    fun _ => List.mem_map_of_mem
  constructor
  case named =>
    intro token member name held
    refine formed.named _ (inside token member) (resolve name) ?_
    rw [names_rename]
    exact List.mem_map_of_mem held
  case void =>
    intro name attributes selfClosing slashed member
    exact formed.void _ _ _ _ (inside _ member)
  case raw =>
    intro before name attributes selfClosing slashed after whole isRaw
    have here : .startTag name attributes selfClosing slashed ∈ tokens := by simp [whole]
    have ended : ∀ {token}, token ∈ after → token.rename resolve = .endTag (resolve name) →
        token = .endTag name := by
      intro token member same
      cases token with
      | endTag other =>
        have there : .endTag other ∈ tokens := by simp [whole, member]
        have equal :=
          apart _ there other (List.mem_cons_self ..) _ here name (List.mem_cons_self ..)
          (Token.endTag.inj same)
        rw [equal]
      | _ => cases same
    have closes := formed.raw (before.map (Token.rename resolve)) (resolve name) _ _ _
      (after.map (Token.rename resolve)) (by rw [whole, List.map_append]; rfl) isRaw
    obtain ⟨rest, single | ⟨body, some, absent, double⟩⟩ := closes
    · obtain ⟨token, others, rfl, same, _⟩ := List.map_eq_cons_iff.mp single
      rw [ended (List.mem_cons_self ..) same]
      exact ⟨others, .inl rfl⟩
    · obtain ⟨text, others, rfl, spelled, double⟩ := List.map_eq_cons_iff.mp double
      obtain ⟨token, others, rfl, same, _⟩ := List.map_eq_cons_iff.mp double
      rw [ended (by simp) same]
      cases text with
      | text text =>
        cases spelled
        exact ⟨others, .inr ⟨body, some, absent, rfl⟩⟩
      | _ => cases spelled
  case texts => exact fun body member => formed.texts body (inside _ member)
  case comments => exact fun body member => formed.comments body (inside _ member)
  case doctypes => exact fun body member => formed.doctypes body (inside _ member)

end WellFormedTokens

namespace Scan

theorem rawtext_names (tag : String) (cs : List Char) :
    ∀ token ∈ (rawtext tag cs).tokens, ∀ name ∈ token.names, name = tag := by
  obtain ⟨body, tokens, _⟩ := rawtext_tokens tag cs
  rw [tokens, rawTokens]
  split <;> simp [Token.names]

theorem startTag_names (cs : List Char) :
    ∀ token ∈ (startTag cs).tokens, ∀ name ∈ token.names, IsName name := by
  unfold startTag
  simp only
  split
  · simp [Token.names]
  · next some =>
    let tag := foldCase (String.ofList (cs.takeWhile isNameChar))
    have tagName : IsName tag := isName_foldCase (by simpa using some)
      fun c member => List.all_eq_true.mp List.all_takeWhile c member
    have opening : ∀ selfClosing slashed, ∀ name ∈ (Token.startTag tag
        (attributes (cs.dropWhile isNameChar)).1 selfClosing slashed).names, IsName name := by
      intro selfClosing slashed name member
      rcases List.mem_cons.mp member with rfl | member
      · exact tagName
      · obtain ⟨a, inside, rfl⟩ := List.mem_map.mp member
        exact attributes_names _ a inside
    split
    · intro token member name held
      rcases List.mem_cons.mp member with rfl | member
      · exact opening _ _ name held
      · rw [rawtext_names _ _ token member name held]
        exact tagName
    · intro token member
      rw [List.mem_singleton.mp member]
      exact opening _ _

theorem endTag_names (cs : List Char) :
    ∀ token ∈ (endTag cs).tokens, ∀ name ∈ token.names, IsName name := by
  unfold endTag
  simp only
  split
  · simp
  · next some =>
    intro token member name held
    rw [List.mem_singleton.mp member, Token.names, List.mem_singleton] at held
    rw [held]
    exact isName_foldCase (by simpa using some)
      fun c inside => List.all_eq_true.mp List.all_takeWhile c inside

end Scan

theorem scan_names (cs : List Char) :
    ∀ token ∈ (scan cs).tokens, ∀ name ∈ token.names, IsName name := by
  unfold scan
  split
  · unfold Scan.comment
    split <;> simp [Token.names]
  · exact Scan.endTag_names _
  · split
    · unfold Scan.doctype
      split <;> simp [Token.names]
    · exact Scan.startTag_names _
  · exact Scan.startTag_names _
  · simp [Scan.text, Token.names]

theorem rawTokens_close {tag body : String} (absent : ¬ HasCloseTag tag.toList body.toList) :
    ClosesRaw id tag (rawTokens tag body) := by
  unfold rawTokens
  split
  · exact ⟨[], .inl rfl⟩
  · next some => exact ⟨[], .inr ⟨body, some, absent, rfl⟩⟩

theorem IsConstruct.startTag_first {tokens before after : List (Token String)}
    (construct : IsConstruct tokens) {name : String} {attributes : List Attribute}
    {selfClosing slashed : Bool}
    (whole : tokens = before ++ .startTag name attributes selfClosing slashed :: after) :
    selfClosing = isVoid name ∧
      (name = "script" ∨ name = "style" → ClosesRaw id name after) := by
  cases construct with
  | none => simp at whole
  | @startTag e slashed' named notRaw =>
    cases before with
    | nil =>
      obtain ⟨same, rfl⟩ := List.cons.inj whole
      cases same
      refine ⟨rfl, fun isRaw => ?_⟩
      rw [Element.keyword, isRawtext_of_tag isRaw] at notRaw
      cases notRaw
    | cons => simp at whole
  | @raw e slashed' body named raw absent =>
    cases before with
    | nil =>
      obtain ⟨same, rfl⟩ := List.cons.inj whole
      cases same
      exact ⟨rfl, fun _ => rawTokens_close absent⟩
    | cons tag before =>
      have inside : .startTag name attributes selfClosing slashed ∈ rawTokens e.name body := by
        rw [(List.cons.inj whole).2]
        simp
      rw [rawTokens] at inside
      split at inside <;> simp at inside
  | _ => cases before <;> simp at whole

theorem IsConstruct.bodies {tokens : List (Token String)} (construct : IsConstruct tokens) :
    (∀ body, .comment body ∈ tokens → IsComment body.toList) ∧
      ∀ body, .doctype body ∈ tokens → IsDoctype body.toList := by
  cases construct with
  | raw =>
    rw [rawTokens]
    split <;> simp
  | _ => simp_all

theorem scan_wellFormed {cs : List Char} (some : cs ≠ []) :
    WellFormedTokens id (scan cs).tokens := by
  have construct := scan_construct cs
  constructor
  case named => exact scan_names cs
  case void =>
    intro name attributes selfClosing slashed member
    obtain ⟨before, after, whole⟩ := List.append_of_mem member
    exact (construct.startTag_first whole).1
  case raw =>
    intro before name attributes selfClosing slashed after whole
    exact (construct.startTag_first whole).2
  case texts =>
    intro body member empty
    rw [empty] at member
    exact empty_text_not_mem_scan some member
  case comments => exact construct.bodies.1
  case doctypes => exact construct.bodies.2

namespace Tokenizer

def handed : Nat → Tokenizer → List (Token AtomId)
  | 0, _ => []
  | n + 1, t => t.next.1.toList ++ handed n t.next.2

structure Told (t : Tokenizer) (before : List (Token AtomId)) : Prop where
  sound : t.Sound
  known : ∀ token ∈ before ++ t.pending, t.atoms.Knows token
  formed : WellFormedTokens t.atoms.resolve (before ++ t.pending)

theorem interned_wellFormed {table : AtomTable} (once : table.names.Nodup) {cs : List Char}
    (some : cs ≠ []) :
    WellFormedTokens (table.internTokens (scan cs).tokens).2.resolve
      (table.internTokens (scan cs).tokens).1 := by
  obtain ⟨later, known, spelled⟩ := AtomTable.internTokens_spec (scan cs).tokens table
  apply WellFormedTokens.of_rename
  · intro first member a held second member' b held' same
    exact (AtomTable.resolve_inj (later.once once) (known first member a held)
      (known second member' b held')).mp same
  · have small : (scan cs).tokens.map (Token.rename foldCase) = (scan cs).tokens := by
      refine (List.map_congr_left fun token member => ?_).trans (List.map_id _)
      exact scan_small cs token member
    rw [spelled, small]
    exact scan_wellFormed some

variable {t : Tokenizer} {before : List (Token AtomId)}

theorem Told.step (told : t.Told before) : t.step.Told before := by
  by_cases ended : t.rest = []
  · rw [Tokenizer.step, if_pos ended]
    exact ⟨⟨told.sound.once, told.sound.known⟩, told.known, told.formed⟩
  · obtain ⟨later, names, _⟩ := AtomTable.internTokens_spec (scan t.rest).tokens t.atoms
    have kept : WellFormedTokens (t.atoms.internTokens (scan t.rest).tokens).2.resolve
        (before ++ t.pending) :=
      told.formed.congr fun token member id held =>
        later.resolve_eq (told.known token member id held)
    have formed := kept.append (interned_wellFormed told.sound.once ended)
    have sound := step_sound told.sound
    rw [step_some ended] at sound ⊢
    rw [List.append_assoc] at formed
    refine ⟨sound, ?_, formed⟩
    intro token member
    rw [← List.append_assoc] at member
    rcases List.mem_append.mp member with old | new
    · exact later.knows (told.known token old)
    · exact names token new

theorem Told.next (told : t.Told before) :
    t.next.2.Told (before ++ t.next.1.toList) ∧ (t.next.1 = none → t.next.2.pending = []) := by
  fun_induction Tokenizer.next t with
  | case1 t token pending held =>
    obtain ⟨⟨once, known⟩, names, formed⟩ := told
    rw [held] at known names formed
    rw [List.append_cons] at names formed
    exact ⟨⟨⟨once, fun other member => known other (List.mem_cons_of_mem _ member)⟩, names, formed⟩,
      fun none => by cases none⟩
  | case2 t empty ended =>
    rw [Option.toList_none, List.append_nil]
    exact ⟨told, fun _ => empty⟩
  | case3 t _ more ih => exact ih told.step

theorem Told.run (told : t.Told before) :
    WellFormedTokens t.run.2.resolve (before ++ t.run.1) := by
  fun_induction Tokenizer.run t generalizing before with
  | case1 t token after asked tokens atoms whole ih =>
    have further := told.next.1
    rw [asked] at further
    have formed := ih further
    rw [whole, Option.toList_some, List.append_assoc] at formed
    exact formed
  | case2 t after asked =>
    obtain ⟨told, empty⟩ := told.next
    have formed := told.formed
    rw [empty (by rw [asked]), asked] at formed
    simpa using formed

theorem Told.asked (told : t.Told before) (n : Nat) :
    (t.asked n).Told (before ++ t.handed n) := by
  induction n generalizing t before with
  | zero => simpa [Tokenizer.asked, handed] using told
  | succ n ih =>
    have further := ih told.next.1
    rw [List.append_assoc] at further
    exact further

theorem ofText_told (text : String) : (ofText text).Told [] :=
  ⟨ofText_sound text, by simp [ofText], .nil _⟩

end Tokenizer

/-- All tokens of a text are a well-formed stream, and so are those that are handed out by some time
together with those that are held back then, with the names that are interned by then. -/
theorem streams_wellFormed (text : String) :
    WellFormedTokens (tokenize text).2.resolve (tokenize text).1 ∧
      ∀ n, let t := (Tokenizer.ofText text).asked n
        WellFormedTokens t.atoms.resolve ((Tokenizer.ofText text).handed n ++ t.pending) := by
  have told := Tokenizer.ofText_told text
  exact ⟨told.run, fun n => (told.asked n).formed⟩

end PageFilters
