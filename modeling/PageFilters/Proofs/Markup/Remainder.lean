import PageFilters.Proofs.Document.Front
import PageFilters.Proofs.Markup.Recording

/-!
A page from some token on. The builder tells the rest of its story from there, and once an observer
leaves the tree alone, all that is still to come stands behind what is there: the front up to any
node inside the innermost open element stays.
-/

namespace PageFilters

namespace Builder

variable {observer : Observer σ}

theorem foldl_resume (observer : Observer σ) {atoms : AtomTable} (once : atoms.names.Nodup)
    {tokens : List (Token AtomId)} (known : ∀ token ∈ tokens, atoms.Knows token) {b : Builder σ}
    (steady : b.Steady atoms) :
    let fed := tokens.foldl (fun b token => b.feed observer atoms token) b
    (fed.close observer fed.elements.stack.length).pair =
      Outline.resume observer b.nodes
        (Outline.levels (b.names atoms) (tokens.map (Token.rename atoms.resolve))) b.pair := by
  induction tokens generalizing b with
  | nil => exact close_all steady
  | cons token tokens ih =>
    have told := feed_tells observer once steady (known token (List.mem_cons_self ..))
    have rest := ih (fun other member => known other (List.mem_cons_of_mem token member))
      told.steady
    rw [List.map_cons, told.resume_eq]
    exact rest

theorem parseWith_resume (observer : Observer σ) (text : String) (state : σ) {n : Nat}
    (within : n ≤ (tokenize text).1.length) :
    let b := after observer text state n
    parseWith observer text state =
      observer.endDocument.on (Outline.resume observer b.nodes
        (Outline.levels (b.names (tokenize text).2) ((spelled text).drop n)) b.pair) := by
  intro b
  obtain ⟨later, known, _⟩ := Tokenizer.run_spec (Tokenizer.ofText_sound text)
  have once := later.once (Tokenizer.ofText_sound text).once
  have steady : b.Steady (tokenize text).2 := after_steady observer text state within
  have others : ∀ token ∈ (tokenize text).1.drop n, (tokenize text).2.Knows token :=
    fun token member => known token (List.mem_of_mem_drop member)
  have rest := foldl_resume observer once others steady
  have whole : after observer text state (tokenize text).1.length =
      ((tokenize text).1.drop n).foldl (fun b token => b.feed observer (tokenize text).2 token)
        b := by
    rw [after, List.take_length]
    conv => lhs; rw [← List.take_append_drop n (tokenize text).1]
    exact List.foldl_append
  rw [parseWith_eq_finish, whole, finish]
  rw [List.map_drop] at rest
  exact congrArg observer.endDocument.on rest

end Builder

namespace Outline

variable {observer : Observer σ} {P : σ → Prop}

theorem resume_keeps (keeps : observer.Keeps P) (os : List Outline) (ids : List NodeId)
    {x : Document × σ} (holds : P x.2) : P (resume observer ids os x).2 := by
  induction os generalizing ids x with
  | nil =>
    cases ids with
    | nil => exact holds
    | cons id outer => exact holds
  | cons here rest ih =>
    cases ids with
    | nil => exact here.watch_keeps keeps Document.root holds
    | cons id outer => exact ih outer (keeps.endElement id _ _ (here.watch_keeps keeps id holds))

theorem resume_keepsFront (quiet : observer.Quiet P) (os : List Outline) {ids : List NodeId}
    {x : Document × σ} (holds : P x.2) (sound : x.1.WellFormed) {id : NodeId}
    (small : id < x.1.size)
    (around : ∀ p ∈ Document.root :: ids, x.1.Reaches p id ∧ x.1.IsContainer p) :
    x.1.KeepsFront id (resume observer ids os x).1 := by
  -- On the open elements: the end of one changes nothing, so the next one starts from a front
  -- that is kept.
  induction os generalizing ids x with
  | nil =>
    cases ids with
    | nil => exact .refl sound id
    | cons p outer => exact .refl sound id
  | cons here rest ih =>
    cases ids with
    | nil =>
      obtain ⟨way, container⟩ := around Document.root (List.mem_cons_self ..)
      obtain ⟨new, grown, _⟩ := here.watch_grows quiet holds sound container
      exact grown.keepsFront sound.toLinked small way
    | cons p outer =>
      obtain ⟨way, container⟩ := around p (by simp)
      obtain ⟨new, grown, _⟩ := here.watch_grows quiet holds sound container
      let filled := here.watch observer p x
      let ended := (observer.endElement p).on filled
      have kept : P filled.2 := here.watch_keeps quiet.toKeeps p holds
      have same : ended.1 = filled.1 := quiet.ended p _ _ kept
      have first : x.1.KeepsFront id ended.1 := by
        rw [same]
        exact grown.keepsFront sound.toLinked small way
      refine first.trans (ih (quiet.endElement p _ _ kept) first.sound
        (Nat.lt_of_lt_of_le small first.size) ?_)
      intro q member
      obtain ⟨reaches, holder⟩ := around q <| by
        rcases List.mem_cons.mp member with rfl | member
        · exact List.mem_cons_self ..
        · simp [member]
      exact ⟨first.reaches sound.toLinked reaches, first.isContainer holder⟩

end Outline

/-- An observer that, while its state has a property, which it keeps, adds nodes right before an
element that starts, may change the element, and leaves the rest of the tree alone. -/
structure Observer.Appends (observer : Observer σ) (P : σ → Prop) : Prop
    extends observer.Keeps P where
  started : ∀ (d : Document) p e s, d.WellFormed → d.IsContainer p → P s →
    ∃ ids e', e'.name = e.name ∧
      let d' := (observer.startElement d.size (d.attachNew p (.element e)) s).1
      Document.Extends d p (ids ++ [d.size]) d' ∧ d'.data? d.size = some (.element e')
  ended : ∀ id (d : Document) s, P s → (observer.endElement id d s).1 = d

namespace Builder

variable {observer : Observer σ} {P : σ → Prop} {b : Builder σ}

structure Ordered (P : σ → Prop) (b : Builder σ) : Prop where
  sound : b.doc.WellFormed
  nested : b.doc.Nested b.nodes
  holds : P b.state

theorem Ordered.container (ordered : b.Ordered P) :
    b.doc.IsContainer (b.nodes.headD Document.root) :=
  ordered.nested.isContainer ordered.sound.toLinked

theorem Ordered.attach (ordered : b.Ordered P) (data : NodeData) : (b.attach data).2.Ordered P := by
  have grown := Document.attachNew_extends ordered.sound ordered.container data
  have doc : (b.attach data).2.doc = b.doc.attachNew (b.nodes.headD Document.root) data :=
    congrArg Prod.fst (pair_attach data b)
  constructor
  case sound => exact doc ▸ grown.sound
  case nested =>
    rw [doc]
    exact ordered.nested.extended grown
  case holds => exact ordered.holds

theorem Ordered.close (appends : observer.Appends P) (ordered : b.Ordered P) (n : Nat) :
    (b.close observer n).Ordered P := by
  induction n generalizing b with
  | zero => exact ordered
  | succ n ih =>
    obtain ⟨doc, ⟨stack, counts⟩, state⟩ := b
    cases stack with
    | nil => exact ordered
    | cons top stack =>
      obtain ⟨sound, nested, holds⟩ := ordered
      have same : (observer.endElement top.node doc state).1 = doc := appends.ended _ _ _ holds
      apply ih
      constructor
      case sound =>
        change (observer.endElement top.node doc state).1.WellFormed
        rw [same]
        exact sound
      case nested =>
        change (observer.endElement top.node doc state).1.Nested (stack.map OpenElement.node)
        rw [same]
        exact nested.2.2
      case holds => exact appends.endElement _ _ _ holds

theorem Ordered.startTag (appends : observer.Appends P) (ordered : b.Ordered P)
    {atoms : AtomTable} {name : AtomId} {attributes : List (AttributeOf AtomId)}
    {selfClosing slashed : Bool} (void : selfClosing = isVoid (atoms.resolve name)) :
    (b.feed observer atoms (.startTag name attributes selfClosing slashed)).Ordered P := by
  let e : Element := ⟨atoms.resolve name, attributes.map atoms.resolveAttribute⟩
  obtain ⟨noted, which, read⟩ := feed_startTag observer atoms b name attributes selfClosing slashed
  have ordered : noted.Ordered P := by
    rcases which with rfl | rfl
    · exact ordered
    · exact ⟨ordered.sound, ordered.nested, appends.ignored _ _ ordered.holds⟩
  let p := noted.elements.current
  have container : noted.doc.IsContainer p := by
    rw [show p = _ from current_eq noted]
    exact ordered.container
  obtain ⟨ids, e', named, grown, held⟩ :=
    appends.started noted.doc p e noted.state ordered.sound container ordered.holds
  let begun := (noted.attach (.element e)).2.react (observer.startElement noted.doc.size)
  have grown : Document.Extends noted.doc p (ids ++ [noted.doc.size]) begun.doc := grown
  have held : begun.doc.data? noted.doc.size = some (.element e') := held
  have nested : begun.doc.Nested noted.nodes := ordered.nested.extended grown
  have holds : P begun.state := appends.startElement _ _ _ ordered.holds
  rw [read]
  split
  · have same : (observer.endElement noted.doc.size begun.doc begun.state).1 = begun.doc :=
      appends.ended _ _ _ holds
    constructor
    case sound =>
      change (observer.endElement noted.doc.size begun.doc begun.state).1.WellFormed
      rw [same]
      exact grown.sound
    case nested =>
      change (observer.endElement noted.doc.size begun.doc begun.state).1.Nested noted.nodes
      rw [same]
      exact nested
    case holds => exact appends.endElement _ _ _ holds
  · next open' =>
    have child : begun.doc.parent? noted.doc.size = some (noted.nodes.headD Document.root) := by
      rw [← current_eq, grown.sound.parent_iff]
      exact grown.mem_children container.lt_size (by simp)
    have notVoid : isVoid e'.name = false := by
      rw [named, ← void]
      simpa using open'
    exact ⟨grown.sound, ⟨child, ⟨e', held, notVoid⟩, nested⟩, holds⟩

theorem Ordered.feed (appends : observer.Appends P) (ordered : b.Ordered P) {atoms : AtomTable}
    {token : Token AtomId}
    (void : ∀ name attributes selfClosing slashed,
      token.rename atoms.resolve = .startTag name attributes selfClosing slashed →
        selfClosing = isVoid name) : (b.feed observer atoms token).Ordered P := by
  cases token with
  | doctype text => exact ordered.attach _
  | comment text => exact ordered.attach _
  | text text =>
    rw [Builder.feed]
    split
    · exact ordered
    · exact ordered.attach _
  | startTag name attributes selfClosing slashed =>
    exact ordered.startTag appends (void _ _ _ _ rfl)
  | endTag name =>
    rw [Builder.feed]
    split
    · exact ⟨ordered.sound, ordered.nested, appends.ignored _ _ ordered.holds⟩
    · exact ordered.close appends _

theorem after_ordered (appends : observer.Appends P) {text : String} {state : σ}
    (first : (begun observer state).Ordered P) {n : Nat} (within : n ≤ (tokenize text).1.length) :
    (after observer text state n).Ordered P := by
  induction n with
  | zero => exact first
  | succ n ih =>
    have held := List.getElem?_eq_getElem (Nat.lt_of_succ_le within)
    rw [after_succ observer state held]
    refine (ih (by omega)).feed appends ?_
    intro name attributes selfClosing slashed same
    refine spelled_voidOnly text name attributes selfClosing slashed ?_
    rw [← same, spelled]
    exact List.mem_map_of_mem (List.getElem_mem _)

theorem after_log (observer : Observer σ) (text : String) (state : σ) {n : Nat}
    (within : n ≤ (tokenize text).1.length) :
    (after observer.recorded text (state, []) n).state.2 <+: observer.log text state := by
  have whole := parseWith_resume observer.recorded text (state, []) within
  rw [Observer.log, whole]
  have kept := Outline.resume_keeps
    (observer.recorded_keeps (after observer.recorded text (state, []) n).state.2)
    (Outline.levels ((after observer.recorded text (state, []) n).names (tokenize text).2)
      ((spelled text).drop n))
    (after observer.recorded text (state, []) n).nodes
    (x := (after observer.recorded text (state, []) n).pair) (List.prefix_refl _)
  exact kept.trans (List.prefix_append ..)

theorem after_void (observer : Observer σ) {text : String} (state : σ) {n : Nat} {e : Element}
    {slashed : Bool}
    (held : (spelled text)[n]? = some (.startTag e.name e.attributes true slashed)) :
    let b := after observer text state n
    let started := observer.startElement b.doc.size
      (b.doc.attachNew (b.nodes.headD Document.root) (.element e)) b.state
    let ended := observer.endElement b.doc.size started.1 started.2
    let next := after observer text state (n + 1)
    next.doc = ended.1 ∧ next.nodes = b.nodes ∧ next.state = ended.2 := by
  intro b started ended next
  rw [spelled, List.getElem?_map, Option.map_eq_some_iff] at held
  obtain ⟨token, found, same⟩ := held
  simp only [next, ended, started, after_succ observer state found, ← current_eq]
  cases token with
  | startTag name attributes selfClosing slashed =>
    obtain ⟨tag, as⟩ := e
    simp only [Token.rename, Token.startTag.injEq] at same
    obtain ⟨rfl, rfl, rfl, -⟩ := same
    simp only [feed, Token.ignoresSlash, Bool.not_true, Bool.and_false]
    exact ⟨rfl, rfl, rfl⟩
  | _ => cases same

theorem after_void_log (observer : Observer σ) {text : String} (state : σ) {n : Nat} {e : Element}
    {slashed : Bool}
    (held : (spelled text)[n]? = some (.startTag e.name e.attributes true slashed)) :
    let b := after observer text state n
    let added := b.doc.attachNew (b.nodes.headD Document.root) (.element e)
    ⟨.startElement b.doc.size, added, (observer.startElement b.doc.size added b.state).1⟩ ∈
      (after observer.recorded text (state, []) (n + 1)).state.2 := by
  obtain ⟨_, _, next⟩ := after_void observer.recorded (state, []) held
  rw [next, ← forget_after]
  exact List.mem_append_left _ (List.mem_append_right _ (List.mem_singleton.mpr rfl))

end Builder

theorem eq_of_count_one {α β : Type} [DecidableEq β] {f : α → β} {l : List α} {a b : α}
    (once : (l.map f).count (f b) = 1) (first : a ∈ l) (second : b ∈ l) (same : f a = f b) :
    a = b := by
  rw [List.count, List.countP_map, List.countP_eq_length_filter, List.length_eq_one_iff] at once
  obtain ⟨x, only⟩ := once
  have each : ∀ y ∈ l, f y = f b → y = x := by
    intro y member same
    have inside := List.mem_filter.mpr ⟨member, show ((· == f b) ∘ f) y = true by simp [same]⟩
    rw [only] at inside
    exact List.mem_singleton.mp inside
  rw [each a first same, each b second rfl]

namespace Observer.Undisturbed

variable {observer : Observer σ} {text : String} {state : σ} {j k : Nat}

theorem node_injective (calm : observer.Undisturbed text state)
    (first : (startName? (spelled text) j).isSome) (second : (startName? (spelled text) k).isSome)
    (same : observer.node text state j = observer.node text state k) : j = k := by
  rcases Nat.lt_trichotomy j k with before | here | behind
  · exact absurd same (calm.ordered j k before first second).ne
  · exact here
  · exact absurd same (calm.ordered k j behind second first).ne'

theorem count_call (calm : observer.Undisturbed text state) {c : Call Nat}
    (inside : c ∈ story (spelled text)) :
    ((observer.log text state).map Occasion.call).count (c.map (observer.node text state)) =
      (story (spelled text)).count c := by
  have only := (spelled_orderly text).only
  rw [calm.whole, List.count, List.count, List.countP_map]
  apply List.countP_congr
  intro other member
  simp only [Function.comp_apply, beq_iff_eq]
  refine ⟨?_, congrArg _⟩
  cases c with
  | startElement k =>
    cases other with
    | startElement j =>
      intro same
      exact congrArg _ (calm.node_injective (only j (.inl member)) (only k (.inl inside))
        (Call.startElement.inj same))
    | _ => simp [Call.map]
  | endElement k =>
    cases other with
    | endElement j =>
      intro same
      exact congrArg _ (calm.node_injective (only j (.inr member)) (only k (.inr inside))
        (Call.endElement.inj same))
    | _ => simp [Call.map]
  | _ => cases other <;> simp [Call.map]

theorem told_once (calm : observer.Undisturbed text state)
    (tag : (startName? (spelled text) k).isSome) :
    ((observer.log text state).map Occasion.call).count
      (.startElement (observer.node text state k)) = 1 := by
  obtain ⟨once, _⟩ := (spelled_orderly text).paired k tag
  have inside : .startElement k ∈ story (spelled text) := List.count_pos_iff.mp (by omega)
  rw [← once, ← calm.count_call inside]
  rfl

theorem ended_once (calm : observer.Undisturbed text state) (id : NodeId) :
    ((observer.log text state).map Occasion.call).count (.endElement id) ≤ 1 := by
  by_cases none : .endElement id ∈ (observer.log text state).map Occasion.call
  · rw [calm.whole] at none
    obtain ⟨c, inside, same⟩ := List.mem_map.mp none
    cases c with
    | endElement k =>
      obtain ⟨_, once, _⟩ :=
        (spelled_orderly text).paired k ((spelled_orderly text).only k (.inr inside))
      rw [← same, calm.count_call inside, once]
    | _ => cases same
  · rw [List.count_eq_zero.mpr none]
    exact Nat.zero_le 1

theorem shown_as (calm : observer.Undisturbed text state) {e : Element} {selfClosing slashed : Bool}
    (held : (spelled text)[k]? = some (.startTag e.name e.attributes selfClosing slashed))
    {o : Occasion} (member : o ∈ observer.log text state)
    (call : o.call = .startElement (observer.node text state k)) :
    o.before.element? (observer.node text state k) = some e := by
  obtain ⟨j, name, attributes, _, _, found, same, shown⟩ := calm.shown o member _ call
  have here : k = j := by
    apply calm.node_injective ?_ ?_ same
    · simp [startName?, held, Token.startName?]
    · simp [startName?, found, Token.startName?]
  subst here
  rw [held] at found
  cases found
  exact shown

end Observer.Undisturbed

end PageFilters
