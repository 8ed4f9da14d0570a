import PageFilters.Markup.Tokenizer
import PageFilters.Proofs.Text.Case

/-!
The tokens of a text without the atoms. Interning renames the tokens of a text and does nothing
else: equal names share an atom and different names do not, so the tokens that a tokenizer hands out
spell, with the names that it has met, what the constructs of the text say.
-/

namespace PageFilters

def AttributeOf.rename (f : ν → μ) (a : AttributeOf ν) : AttributeOf μ :=
  ⟨f a.name, a.value, a.quote⟩

namespace Token

def rename (f : ν → μ) : Token ν → Token μ
  | .doctype body => .doctype body
  | .startTag name attributes selfClosing slashed =>
    .startTag (f name) (attributes.map (AttributeOf.rename f)) selfClosing slashed
  | .endTag name => .endTag (f name)
  | .comment body => .comment body
  | .text body => .text body

def names : Token ν → List ν
  | .startTag name attributes _ _ => name :: attributes.map AttributeOf.name
  | .endTag name => [name]
  | _ => []

theorem rename_congr {f g : ν → μ} {token : Token ν} (same : ∀ n ∈ token.names, f n = g n) :
    token.rename f = token.rename g := by
  cases token with
  | startTag name attributes selfClosing slashed =>
    have each : attributes.map (AttributeOf.rename f) = attributes.map (AttributeOf.rename g) := by
      apply List.map_congr_left
      intro a member
      have renamed := same a.name (List.mem_cons_of_mem _ (List.mem_map_of_mem member))
      rw [AttributeOf.rename, AttributeOf.rename, renamed]
    rw [rename, rename, each, same name (List.mem_cons_self ..)]
  | endTag name => rw [rename, rename, same name (List.mem_singleton.mpr rfl)]
  | _ => rfl

end Token

namespace AtomTable

def Knows (table : AtomTable) (token : Token AtomId) : Prop :=
  ∀ id ∈ token.names, id < table.size

structure Precedes (table later : AtomTable) : Prop where
  kept : table.names <+: later.names
  once : table.names.Nodup → later.names.Nodup

namespace Precedes

variable {table later last : AtomTable}

theorem refl (table : AtomTable) : Precedes table table :=
  ⟨List.prefix_refl _, id⟩

theorem trans (first : Precedes table later) (second : Precedes later last) :
    Precedes table last :=
  ⟨first.kept.trans second.kept, fun once => second.once (first.once once)⟩

theorem lt_size (precedes : Precedes table later) {id : AtomId} (known : id < table.size) :
    id < later.size :=
  Nat.lt_of_lt_of_le known precedes.kept.length_le

theorem resolve_eq (precedes : Precedes table later) {id : AtomId} (known : id < table.size) :
    later.resolve id = table.resolve id := by
  obtain ⟨more, grown⟩ := precedes.kept
  rw [resolve, ← grown, List.getElem?_append_left known, resolve]

theorem knows (precedes : Precedes table later) {token : Token AtomId}
    (known : table.Knows token) : later.Knows token :=
  fun id member => precedes.lt_size (known id member)

theorem rename_eq (precedes : Precedes table later) {token : Token AtomId}
    (known : table.Knows token) : token.rename later.resolve = token.rename table.resolve :=
  Token.rename_congr fun id member => precedes.resolve_eq (known id member)

end Precedes

theorem resolve_inj {table : AtomTable} (once : table.names.Nodup) {a b : AtomId}
    (knownA : a < table.size) (knownB : b < table.size) :
    table.resolve a = table.resolve b ↔ a = b := by
  rw [resolve, resolve, List.getElem?_eq_getElem knownA, List.getElem?_eq_getElem knownB]
  exact once.getElem_inj_iff

theorem intern_precedes (name : String) (table : AtomTable) :
    Precedes table (table.intern name).2 := by
  cases found : table.names.idxOf? (foldCase name) with
  | some id => simpa [intern, found] using Precedes.refl table
  | none =>
    have missing : foldCase name ∉ table.names := by simpa using found
    simp only [intern, found]
    refine ⟨List.prefix_append _ _, fun once => ?_⟩
    rw [List.nodup_append]
    refine ⟨once, List.nodup_singleton _, ?_⟩
    intro a member b last same
    rw [same, List.mem_singleton.mp last] at member
    exact missing member

theorem intern_lt (name : String) (table : AtomTable) :
    (table.intern name).1 < (table.intern name).2.size := by
  cases found : table.names.idxOf? (foldCase name) with
  | none => simp [intern, found, size]
  | some id =>
    have inside := List.of_findIdx?_eq_some found
    simp only [intern, found, size]
    by_contra beyond
    simp [List.getElem?_eq_none (Nat.le_of_not_lt beyond)] at inside

theorem internAttributes_spec (attributes : List Attribute) (table : AtomTable) :
    Precedes table (internAttributes attributes table).2 ∧
      (∀ a ∈ (internAttributes attributes table).1,
        a.name < (internAttributes attributes table).2.size) ∧
      (internAttributes attributes table).1.map
          (AttributeOf.rename (internAttributes attributes table).2.resolve) =
        attributes.map (AttributeOf.rename foldCase) := by
  induction attributes generalizing table with
  | nil => exact ⟨.refl table, by simp [internAttributes], rfl⟩
  | cons a rest ih =>
    have first := intern_precedes a.name table
    have known := intern_lt a.name table
    obtain ⟨later, names, spelled⟩ := ih (table.intern a.name).2
    refine ⟨first.trans later, ?_, ?_⟩
    · intro b member
      rcases List.mem_cons.mp member with same | member
      · rw [same]
        exact later.lt_size known
      · exact names b member
    · have name := (later.resolve_eq known).trans (resolve_intern a.name table)
      rw [List.map_cons, ← spelled, AttributeOf.rename, ← name]
      rfl

theorem internToken_spec (token : Token String) (table : AtomTable) :
    Precedes table (internToken token table).2 ∧
      (internToken token table).2.Knows (internToken token table).1 ∧
      (internToken token table).1.rename (internToken token table).2.resolve =
        token.rename foldCase := by
  cases token with
  | doctype text => exact ⟨.refl table, by simp [internToken, Knows, Token.names], rfl⟩
  | comment text => exact ⟨.refl table, by simp [internToken, Knows, Token.names], rfl⟩
  | text text => exact ⟨.refl table, by simp [internToken, Knows, Token.names], rfl⟩
  | endTag name =>
    refine ⟨intern_precedes name table, ?_, ?_⟩
    · intro id member
      rw [List.mem_singleton.mp member]
      exact intern_lt name table
    · exact congrArg Token.endTag (resolve_intern name table)
  | startTag name attributes selfClosing slashed =>
    have known := intern_lt name table
    obtain ⟨later, names, spelled⟩ := internAttributes_spec attributes (table.intern name).2
    refine ⟨(intern_precedes name table).trans later, ?_, ?_⟩
    · intro id member
      rcases List.mem_cons.mp member with same | member
      · rw [same]
        exact later.lt_size known
      · obtain ⟨a, inside, rfl⟩ := List.mem_map.mp member
        exact names a inside
    · have resolved := (later.resolve_eq known).trans (resolve_intern name table)
      rw [Token.rename, ← spelled, ← resolved]
      rfl

theorem internTokens_spec (tokens : List (Token String)) (table : AtomTable) :
    Precedes table (internTokens tokens table).2 ∧
      (∀ token ∈ (internTokens tokens table).1, (internTokens tokens table).2.Knows token) ∧
      (internTokens tokens table).1.map (Token.rename (internTokens tokens table).2.resolve) =
        tokens.map (Token.rename foldCase) := by
  induction tokens generalizing table with
  | nil => exact ⟨.refl table, by simp [internTokens], rfl⟩
  | cons token rest ih =>
    obtain ⟨first, known, spelled⟩ := internToken_spec token table
    obtain ⟨later, names, others⟩ := ih (internToken token table).2
    refine ⟨first.trans later, ?_, ?_⟩
    · intro t member
      rcases List.mem_cons.mp member with same | member
      · rw [same]
        exact later.knows known
      · exact names t member
    · rw [List.map_cons, ← others, ← spelled, ← later.rename_eq known]
      rfl

end AtomTable

def Token.IsSmall (token : Token String) : Prop :=
  token.rename foldCase = token

namespace Scan

theorem attributes_small (cs : List Char) :
    (attributes cs).1.map (AttributeOf.rename foldCase) = (attributes cs).1 := by
  fun_induction attributes cs with
  | case1 => rfl
  | case2 => rfl
  | case3 => rfl
  | case4 c cs _ _ _ value quote rest _ others slashed left whole ih =>
    rw [whole] at ih
    rw [List.map_cons, ih, AttributeOf.rename, keepAttribute, foldCase_foldCase]
  | case5 c cs _ _ _ ih => exact ih

theorem rawtext_small {tag : String} (small : foldCase tag = tag) (cs : List Char) :
    ∀ token ∈ (rawtext tag cs).tokens, token.IsSmall := by
  have each : ∀ body : List Char, ∀ token ∈ (if body.isEmpty then [Token.endTag tag]
      else [.text (String.ofList body), .endTag tag]), token.IsSmall := by
    intro body token member
    split at member
    · rw [List.mem_singleton.mp member]
      exact congrArg Token.endTag small
    · rcases List.mem_cons.mp member with same | member
      · rw [same]
        rfl
      · rw [List.mem_singleton.mp member]
        exact congrArg Token.endTag small
  unfold rawtext
  simp only
  split
  · exact each _
  · exact each _

theorem startTag_small (cs : List Char) : ∀ token ∈ (startTag cs).tokens, token.IsSmall := by
  have folded := foldCase_foldCase (String.ofList (cs.takeWhile isNameChar))
  have attributes := attributes_small (cs.dropWhile isNameChar)
  unfold startTag
  simp only
  split
  · simp [Token.IsSmall, Token.rename]
  · split
    · intro token member
      rcases List.mem_cons.mp member with same | member
      · rw [same, Token.IsSmall, Token.rename, folded, attributes]
      · exact rawtext_small folded _ token member
    · simp [Token.IsSmall, Token.rename, folded, attributes]

end Scan

theorem scan_small (cs : List Char) : ∀ token ∈ (scan cs).tokens, token.IsSmall := by
  unfold scan
  split
  · unfold Scan.comment
    split <;> simp [Token.IsSmall, Token.rename]
  · next cs =>
    have folded := foldCase_foldCase (String.ofList (cs.takeWhile Scan.isNameChar))
    unfold Scan.endTag
    simp only
    split <;> simp [Token.IsSmall, Token.rename, folded]
  · split
    · unfold Scan.doctype
      split <;> simp [Token.IsSmall, Token.rename]
    · exact Scan.startTag_small _
  · exact Scan.startTag_small _
  · simp [Scan.text, Token.IsSmall, Token.rename]

def spell (cs : List Char) : List (Token String) :=
  if _some : cs = [] then []
  else (scan cs).tokens ++ if (scan cs).more then spell (scan cs).rest else []
termination_by cs.length
decreasing_by exact scan_shorter _some

theorem spell_nil : spell [] = [] := by
  rw [spell]
  rfl

namespace Tokenizer

def toCome (t : Tokenizer) : List (Token String) :=
  t.pending.map (Token.rename t.atoms.resolve) ++ if t.finished then [] else spell t.rest

structure Sound (t : Tokenizer) : Prop where
  once : t.atoms.names.Nodup
  known : ∀ token ∈ t.pending, t.atoms.Knows token

theorem ofText_sound (text : String) : (ofText text).Sound :=
  ⟨List.nodup_nil, by simp [ofText]⟩

theorem toCome_ofText (text : String) : (ofText text).toCome = spell text.toList := by
  simp [ofText, toCome]

theorem step_precedes (t : Tokenizer) : t.atoms.Precedes t.step.atoms := by
  unfold step
  split
  · exact .refl _
  · exact (AtomTable.internTokens_spec _ _).1

theorem step_sound {t : Tokenizer} (sound : t.Sound) : t.step.Sound := by
  refine ⟨t.step_precedes.once sound.once, ?_⟩
  unfold step
  split
  · exact sound.known
  · obtain ⟨later, names, _⟩ := AtomTable.internTokens_spec (scan t.rest).tokens t.atoms
    intro token member
    rcases List.mem_append.mp member with old | new
    · exact later.knows (sound.known token old)
    · exact names token new

theorem step_toCome {t : Tokenizer} (sound : t.Sound) (more : t.finished = false) :
    t.step.toCome = t.toCome := by
  unfold step
  split
  · next ended => simp [toCome, more, ended, spell_nil]
  · next some =>
    obtain ⟨later, _, spelled⟩ := AtomTable.internTokens_spec (scan t.rest).tokens t.atoms
    have small : (scan t.rest).tokens.map (Token.rename foldCase) = (scan t.rest).tokens := by
      refine (List.map_congr_left fun token member => ?_).trans (List.map_id _)
      exact scan_small t.rest token member
    have held : t.pending.map (Token.rename
        (AtomTable.internTokens (scan t.rest).tokens t.atoms).2.resolve) =
        t.pending.map (Token.rename t.atoms.resolve) :=
      List.map_congr_left fun token member => later.rename_eq (sound.known token member)
    simp only [toCome, more, Bool.false_eq_true, ↓reduceIte, List.map_append, spelled, small, held]
    rw [spell.eq_def t.rest, dif_neg some, List.append_assoc]
    cases (scan t.rest).more <;> simp

theorem next_spec {t : Tokenizer} (sound : t.Sound) :
    t.atoms.Precedes t.next.2.atoms ∧ t.next.2.Sound ∧
      match t.next.1 with
      | none => t.toCome = []
      | some token => t.next.2.atoms.Knows token ∧
          t.toCome = token.rename t.next.2.atoms.resolve :: t.next.2.toCome := by
  fun_induction next t with
  | case1 t token pending held =>
    have known := sound.known
    rw [held] at known
    refine ⟨.refl _, ⟨sound.once, fun t member => known t (List.mem_cons_of_mem _ member)⟩,
      known token (List.mem_cons_self ..), ?_⟩
    rw [toCome, held]
    rfl
  | case2 t empty ended =>
    refine ⟨.refl _, sound, ?_⟩
    simp [toCome, empty, ended]
  | case3 t _ more ih =>
    obtain ⟨later, kept, spelled⟩ := ih (step_sound sound)
    refine ⟨t.step_precedes.trans later, kept, ?_⟩
    rw [step_toCome sound (by simpa using more)] at spelled
    exact spelled

theorem run_spec {t : Tokenizer} (sound : t.Sound) :
    t.atoms.Precedes t.run.2 ∧ (∀ token ∈ t.run.1, t.run.2.Knows token) ∧
      t.run.1.map (Token.rename t.run.2.resolve) = t.toCome := by
  fun_induction run t with
  | case1 t token after asked tokens atoms whole ih =>
    have spec := t.next_spec sound
    rw [asked] at spec
    obtain ⟨first, kept, known, spelled⟩ := spec
    obtain ⟨later, others, rest⟩ := ih kept
    rw [whole] at later others rest
    refine ⟨first.trans later, ?_, ?_⟩
    · intro other member
      rcases List.mem_cons.mp member with same | member
      · rw [same]
        exact later.knows known
      · exact others other member
    · rw [List.map_cons, rest, later.rename_eq known, spelled]
  | case2 t after asked =>
    have spec := t.next_spec sound
    rw [asked] at spec
    obtain ⟨first, _, ended⟩ := spec
    exact ⟨first, by simp, ended.symm⟩

end Tokenizer

def spelled (text : String) : List (Token String) :=
  (tokenize text).1.map (Token.rename (tokenize text).2.resolve)

theorem spelled_eq (text : String) : spelled text = spell text.toList := by
  rw [← Tokenizer.toCome_ofText]
  exact (Tokenizer.run_spec (Tokenizer.ofText_sound text)).2.2

end PageFilters
