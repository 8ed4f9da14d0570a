import PageFilters.Proofs.Markup.Building
import PageFilters.Proofs.Markup.Calls
import PageFilters.Proofs.Markup.Constructs

/-!
An observer that edits the tree does not disturb what it is told. The builder keeps node numbers
only, and an edit neither takes a node away nor makes it unable to have children, so each new node
finds its place; and which calls come next depends on the tokens and on the calls before only.
-/

namespace PageFilters

structure Occasion where
  call : Call NodeId
  before : Document
  after : Document

def Reaction.recorded (call : Call NodeId) (reaction : Reaction σ) :
    Reaction (σ × List Occasion) :=
  fun d (state, log) =>
    let (after, state) := reaction d state
    (after, state, log ++ [⟨call, d, after⟩])

def Observer.recorded (observer : Observer σ) : Observer (σ × List Occasion) where
  startDocument := observer.startDocument.recorded .startDocument
  startElement id := (observer.startElement id).recorded (.startElement id)
  endElement id := (observer.endElement id).recorded (.endElement id)
  endDocument := observer.endDocument.recorded .endDocument
  ignored what := fun (state, log) => (observer.ignored what state, log)

namespace Builder

def forget (b : Builder (σ × List Occasion)) : Builder σ :=
  { doc := b.doc, elements := b.elements, state := b.state.1 }

variable (observer : Observer σ)

theorem forget_close (n : Nat) (b : Builder (σ × List Occasion)) :
    (b.close observer.recorded n).forget = b.forget.close observer n := by
  induction n generalizing b with
  | zero => rfl
  | succ n ih =>
    have same : b.forget.elements.pop? = b.elements.pop? := rfl
    rw [close, close, same]
    cases b.elements.pop? with
    | none => rfl
    | some popped => exact ih _

theorem forget_feed (atoms : AtomTable) (token : Token AtomId)
    (b : Builder (σ × List Occasion)) :
    (b.feed observer.recorded atoms token).forget = b.forget.feed observer atoms token := by
  cases token with
  | doctype text => rfl
  | comment text => rfl
  | text text =>
    rw [feed, feed]
    split <;> rfl
  | startTag name attributes selfClosing slashed =>
    cases selfClosing <;> cases slashed <;> rfl
  | endTag name =>
    have same : b.forget.elements.depth? name = b.elements.depth? name := rfl
    rw [feed, feed, same]
    cases b.elements.depth? name with
    | none => rfl
    | some inside => exact forget_close observer (inside + 1) b

theorem forget_after (text : String) (state : σ) (n : Nat) :
    (after observer.recorded text (state, []) n).forget = after observer text state n := by
  rw [after, after]
  have begun : begun observer state = (begun observer.recorded (state, [])).forget := rfl
  rw [begun]
  exact (List.foldl_hom forget fun b token => (forget_feed observer _ token b).symm).symm

end Builder

theorem parseWith_recorded (observer : Observer σ) (text : String) (state : σ) :
    parseWith observer text state =
      ((parseWith observer.recorded text (state, [])).1,
        (parseWith observer.recorded text (state, [])).2.1) := by
  rw [Builder.parseWith_eq_finish, Builder.parseWith_eq_finish, Builder.finish, Builder.finish,
    ← Builder.forget_after]
  generalize Builder.after observer.recorded text (state, []) (tokenize text).1.length = b
  change Builder.pair (Builder.react observer.endDocument
    (b.forget.close observer b.elements.stack.length)) = _
  rw [← Builder.forget_close]
  rfl

section

variable (tokens : List (Token String)) (node : Nat → NodeId)

def Occasion.Shows (o : Occasion) : Prop :=
  ∀ id, o.call = .startElement id → ∃ k name attributes selfClosing slashed,
    tokens[k]? = some (.startTag name attributes selfClosing slashed) ∧ id = node k ∧
      o.before.element? id = some ⟨name, attributes⟩

/-- What holds of a document and a log once the first `n` tokens have their nodes, and the calls
about elements have been `calls`. The token number `k` has the node `node k`. -/
structure Heard (n : Nat) (calls : List (Call Nat)) (d : Document) (log : List Occasion) :
    Prop where
  sound : d.WellFormed
  made : ∀ k < n, (startName? tokens k).isSome → d.IsContainer (node k)
  ordered : ∀ j k, j < k → k < n → (startName? tokens j).isSome → (startName? tokens k).isSome →
    node j < node k
  told : log.map Occasion.call = .startDocument :: calls.map (Call.map node)
  past : ∀ o ∈ log, o.after.size ≤ d.size
  shown : ∀ o ∈ log, o.Shows tokens node
  apart : ∀ o ∈ log, ∀ k < n, (startName? tokens k).isSome →
    node k < o.before.size ∨ o.after.size ≤ node k

end

theorem Occasion.shows_end {tokens : List (Token String)} {node : Nat → NodeId} {id : NodeId}
    {before after : Document} : Occasion.Shows tokens node ⟨.endElement id, before, after⟩ := by
  intro _ same
  cases same

namespace Heard

variable {tokens : List (Token String)} {node : Nat → NodeId} {n : Nat} {calls : List (Call Nat)}
  {d : Document} {log : List Occasion}

theorem start (becomes : Document.empty.Becomes d) :
    Heard tokens node 0 [] d [⟨.startDocument, .empty, d⟩] := by
  constructor
  case sound => exact becomes.wellFormed Document.empty_wellFormed
  case told => rfl
  case past => simp
  case shown => simp [Occasion.Shows]
  all_goals
    intros
    omega

theorem call (heard : Heard tokens node n calls d log) {after : Document}
    (becomes : d.Becomes after) (c : Call Nat) {made : Call NodeId} (same : made = c.map node)
    (shows : Occasion.Shows tokens node ⟨made, d, after⟩) :
    Heard tokens node n (calls ++ [c]) after (log ++ [⟨made, d, after⟩]) := by
  have retains := becomes.retains heard.sound
  constructor
  case sound => exact becomes.wellFormed heard.sound
  case made =>
    intro k early tag
    exact retains.container _ (heard.made k early tag)
  case ordered => exact heard.ordered
  case told => simp [heard.told, same]
  case past =>
    intro o member
    rcases List.mem_append.mp member with old | new
    · exact Nat.le_trans (heard.past o old) retains.size
    · rw [List.mem_singleton.mp new]
  case shown =>
    intro o member
    rcases List.mem_append.mp member with old | new
    · exact heard.shown o old
    · rw [List.mem_singleton.mp new]
      exact shows
  case apart =>
    intro o member k early tag
    rcases List.mem_append.mp member with old | new
    · exact heard.apart o old k early tag
    · rw [List.mem_singleton.mp new]
      exact .inl (heard.made k early tag).lt_size

theorem attach (heard : Heard tokens node n calls d log) {p : NodeId}
    (container : d.IsContainer p) (here : node n = d.size) {data : NodeData}
    (fits : (startName? tokens n).isSome → data.isContainer = true) :
    Heard tokens node (n + 1) calls (d.attachNew p data) log := by
  have grown := Document.attachNew_extends heard.sound container data
  constructor
  case sound => exact grown.sound
  case made =>
    intro k early tag
    by_cases new : k = n
    · subst new
      exact ⟨data, by rw [here, Document.data_attachNew heard.sound container], fits tag⟩
    · exact grown.isContainer (heard.made k (by omega) tag)
  case ordered =>
    intro j k before early first second
    by_cases new : k = n
    · subst new
      rw [here]
      exact (heard.made j before first).lt_size
    · exact heard.ordered j k before (by omega) first second
  case told => exact heard.told
  case past =>
    intro o member
    exact Nat.le_trans (heard.past o member) grown.size
  case shown => exact heard.shown
  case apart =>
    intro o member k early tag
    by_cases new : k = n
    · subst new
      rw [here]
      exact .inr (heard.past o member)
    · exact heard.apart o member k (by omega) tag

theorem pass (heard : Heard tokens node n calls d log) (noTag : startName? tokens n = none) :
    Heard tokens node (n + 1) calls d log := by
  have earlier : ∀ {k}, k < n + 1 → (startName? tokens k).isSome → k < n := by
    intro k early tag
    have other : k ≠ n := by
      rintro rfl
      rw [noTag] at tag
      cases tag
    omega
  constructor
  case sound => exact heard.sound
  case made =>
    intro k early tag
    exact heard.made k (earlier early tag) tag
  case ordered =>
    intro j k before early first second
    exact heard.ordered j k before (earlier early second) first second
  case told => exact heard.told
  case past => exact heard.past
  case shown => exact heard.shown
  case apart =>
    intro o member k early tag
    exact heard.apart o member k (earlier early tag) tag

end Heard

namespace Builder

variable {observer : Observer σ} {tokens : List (Token String)} {node : Nat → NodeId}
  {atoms : AtomTable} {n : Nat} {calls : List (Call Nat)} {b : Builder (σ × List Occasion)}

structure Follows (tokens : List (Token String)) (node : Nat → NodeId) (atoms : AtomTable)
    (n : Nat) (calls : List (Call Nat)) (b : Builder (σ × List Occasion)) : Prop where
  heard : Heard tokens node n calls b.doc b.state.2
  nodes : b.nodes = (openAfter calls).map node
  names : (b.names atoms).map some = (openAfter calls).map (startName? tokens)
  early : ∀ k ∈ openAfter calls, k < n

theorem Follows.current_container (follows : b.Follows tokens node atoms n calls) :
    b.doc.IsContainer b.elements.current := by
  have nodes := follows.nodes
  have names := follows.names
  have early := follows.early
  rw [current_eq, nodes]
  generalize openAfter calls = opened at names early ⊢
  cases opened with
  | nil => exact Document.root_isContainer follows.heard.sound.toLinked
  | cons k outer =>
    have tag : (startName? tokens k).isSome := by
      have member : startName? tokens k ∈ (b.names atoms).map some := by simp [names]
      obtain ⟨name, _, same⟩ := List.mem_map.mp member
      rw [← same]
      rfl
    exact follows.heard.made k (early k (List.mem_cons_self ..)) tag

theorem Follows.attach (follows : b.Follows tokens node atoms n calls) (here : node n = b.doc.size)
    {data : NodeData} (fits : (startName? tokens n).isSome → data.isContainer = true) :
    (b.attach data).2.Follows tokens node atoms (n + 1) calls := by
  constructor
  case heard => exact follows.heard.attach follows.current_container here fits
  case nodes => exact follows.nodes
  case names => exact follows.names
  case early =>
    intro k member
    exact Nat.lt_succ_of_lt (follows.early k member)

theorem Follows.pass (follows : b.Follows tokens node atoms n calls)
    (noTag : startName? tokens n = none) : b.Follows tokens node atoms (n + 1) calls := by
  constructor
  case heard => exact follows.heard.pass noTag
  case nodes => exact follows.nodes
  case names => exact follows.names
  case early =>
    intro k member
    exact Nat.lt_succ_of_lt (follows.early k member)

theorem Follows.close (edits : observer.EditsOnly) (follows : b.Follows tokens node atoms n calls)
    {first outer : List Nat} (split : openAfter calls = first ++ outer) :
    (b.close observer.recorded first.length).Follows tokens node atoms n
      (calls ++ first.map .endElement) := by
  -- On the elements to close: the builder after one of them ends follows the calls so far.
  induction first generalizing calls b with
  | nil => simpa [Builder.close] using follows
  | cons k first ih =>
    obtain ⟨doc, ⟨stack, counts⟩, state, log⟩ := b
    obtain ⟨heard, nodes, names, early⟩ := follows
    rw [split] at nodes names early
    cases stack with
    | nil => simp [Builder.nodes] at nodes
    | cons top stack =>
      simp only [Builder.nodes, Builder.names, List.map_cons, List.cons_append,
        List.cons.injEq] at nodes names
      have left : openAfter (calls ++ [.endElement k]) = first ++ outer := by
        rw [openAfter_append, split]
        simp [Call.update]
      have ended := heard.call (edits.endElement top.node doc state) (.endElement k)
        (congrArg Call.endElement nodes.1) Occasion.shows_end
      have after : Builder.Follows tokens node atoms n (calls ++ [.endElement k])
          (Builder.react (observer.recorded.endElement top.node)
            ⟨doc, ⟨stack, counts.modify top.name (· - 1)⟩, state, log⟩) := by
        constructor
        case heard => exact ended
        case nodes =>
          rw [left]
          exact nodes.2
        case names =>
          rw [left]
          exact names.2
        case early =>
          intro j member
          rw [left] at member
          exact early j (List.mem_cons_of_mem k member)
      have whole := ih after left
      rw [List.append_assoc] at whole
      exact whole

theorem Follows.starts (edits : observer.EditsOnly)
    (follows : b.Follows tokens node atoms n calls) (here : node n = b.doc.size) {e : Element}
    {selfClosing slashed : Bool}
    (held : tokens[n]? = some (.startTag e.name e.attributes selfClosing slashed)) :
    let started := (b.attach (.element e)).2.react (observer.recorded.startElement b.doc.size)
    Heard tokens node (n + 1) (calls ++ [.startElement n]) started.doc started.state.2 := by
  let added := (b.attach (.element e)).2
  have attached : added.Follows tokens node atoms (n + 1) calls := follows.attach here fun _ => rfl
  have there : added.doc.data? b.doc.size = some (.element e) :=
    Document.data_attachNew follows.heard.sound follows.current_container (.element e)
  refine attached.heard.call (edits.startElement b.doc.size added.doc added.state.1)
    (.startElement n) (congrArg Call.startElement here.symm) ?_
  intro id same
  cases same
  refine ⟨n, _, _, _, _, held, here.symm, ?_⟩
  rw [Document.element?, there]

theorem Follows.opens (edits : observer.EditsOnly)
    (follows : b.Follows tokens node atoms n calls) (here : node n = b.doc.size) {e : Element}
    {name : AtomId} (spelled : e.name = atoms.resolve name) {slashed : Bool}
    (held : tokens[n]? = some (.startTag e.name e.attributes false slashed)) :
    let started := (b.attach (.element e)).2.react (observer.recorded.startElement b.doc.size)
    Builder.Follows tokens node atoms (n + 1) (calls ++ [.startElement n])
      { started with elements := started.elements.push b.doc.size name } := by
  have attached : (b.attach (.element e)).2.Follows tokens node atoms (n + 1) calls :=
    follows.attach here fun _ => rfl
  have left : openAfter (calls ++ [.startElement n]) = n :: openAfter calls := by
    rw [openAfter_append]
    rfl
  have tag : startName? tokens n = some (atoms.resolve name) := by
    rw [startName?, held, ← spelled]
    rfl
  constructor
  case heard => exact follows.starts edits here held
  case nodes =>
    rw [left, List.map_cons, here]
    exact congrArg (b.doc.size :: ·) attached.nodes
  case names =>
    rw [left, List.map_cons, tag]
    exact congrArg (some (atoms.resolve name) :: ·) attached.names
  case early =>
    rw [left]
    intro k member
    rcases List.mem_cons.mp member with same | member
    · omega
    · exact attached.early k member

theorem Follows.comes (edits : observer.EditsOnly)
    (follows : b.Follows tokens node atoms n calls) (here : node n = b.doc.size) {e : Element}
    {slashed : Bool} (held : tokens[n]? = some (.startTag e.name e.attributes true slashed)) :
    let started := (b.attach (.element e)).2.react (observer.recorded.startElement b.doc.size)
    (started.react (observer.recorded.endElement b.doc.size)).Follows tokens node atoms (n + 1)
      (calls ++ [.startElement n, .endElement n]) := by
  have attached : (b.attach (.element e)).2.Follows tokens node atoms (n + 1) calls :=
    follows.attach here fun _ => rfl
  have left : openAfter (calls ++ [.startElement n, .endElement n]) = openAfter calls := by
    rw [openAfter_append]
    simp [Call.update]
  constructor
  case heard =>
    have both : calls ++ [.startElement n, .endElement n] =
        calls ++ [.startElement n] ++ [.endElement n] := by simp
    rw [both]
    exact (follows.starts edits here held).call (edits.endElement b.doc.size _ _) (.endElement n)
      (congrArg Call.endElement here.symm) Occasion.shows_end
  case nodes =>
    rw [left]
    exact attached.nodes
  case names =>
    rw [left]
    exact attached.names
  case early =>
    rw [left]
    exact attached.early

theorem Follows.startTag (edits : observer.EditsOnly)
    (follows : b.Follows tokens node atoms n calls) (here : node n = b.doc.size) {name : AtomId}
    {attributes : List (AttributeOf AtomId)} {selfClosing slashed : Bool}
    (held : tokens[n]? = some ((Token.startTag name attributes selfClosing slashed).rename
      atoms.resolve)) :
    (b.feed observer.recorded atoms (.startTag name attributes selfClosing slashed)).Follows
      tokens node atoms (n + 1)
      (calls ++ if selfClosing then [.startElement n, .endElement n] else [.startElement n]) := by
  obtain ⟨noted, which, read⟩ :=
    feed_startTag observer.recorded atoms b name attributes selfClosing slashed
  have same : noted.Follows tokens node atoms n calls ∧ node n = noted.doc.size := by
    rcases which with rfl | rfl
    · exact ⟨follows, here⟩
    · exact ⟨⟨follows.heard, follows.nodes, follows.names, follows.early⟩, here⟩
  obtain ⟨follows, here⟩ := same
  rw [read]
  let e : Element := ⟨atoms.resolve name, attributes.map atoms.resolveAttribute⟩
  cases selfClosing with
  | true => exact follows.comes edits here (e := e) held
  | false => exact follows.opens edits here (e := e) rfl held

theorem Follows.depth_eq (follows : b.Follows tokens node atoms n calls)
    (once : atoms.names.Nodup) (steady : b.Steady atoms) {name : AtomId}
    (known : name < atoms.size) :
    b.elements.depth? name =
      (openAfter calls).findIdx? fun j => startName? tokens j == some (atoms.resolve name) := by
  have told := congrArg (List.findIdx? (· == some (atoms.resolve name))) follows.names
  rw [List.findIdx?_map, List.findIdx?_map] at told
  rw [← findIdx_names once steady known]
  exact told

theorem Follows.feed (edits : observer.EditsOnly) (follows : b.Follows tokens node atoms n calls)
    (once : atoms.names.Nodup) (steady : b.Steady atoms) (here : node n = b.doc.size)
    {token : Token AtomId} (known : atoms.Knows token)
    (held : tokens[n]? = some (token.rename atoms.resolve)) :
    (b.feed observer.recorded atoms token).Follows tokens node atoms (n + 1)
      (calls ++ answer tokens calls n) := by
  have quiet : startName? tokens n = (token.rename atoms.resolve).startName? := by
    rw [startName?, held]
    rfl
  cases token with
  | startTag name attributes selfClosing slashed =>
    rw [answer_startTag calls held]
    exact follows.startTag edits here held
  | endTag name =>
    have depth := follows.depth_eq once steady (known name (List.mem_singleton.mpr rfl))
    have passed := follows.pass quiet
    rw [answer_of_endTag calls held, Builder.feed, depth]
    cases found : (openAfter calls).findIdx? fun j =>
        startName? tokens j == some (atoms.resolve name) with
    | none =>
      rw [List.append_nil]
      exact ⟨passed.heard, passed.nodes, passed.names, passed.early⟩
    | some inside =>
      have enough : inside + 1 ≤ (openAfter calls).length :=
        (List.findIdx?_eq_some_iff_getElem.mp found).1
      have closed := passed.close edits (List.take_append_drop (inside + 1) (openAfter calls)).symm
      rw [List.length_take, Nat.min_eq_left enough] at closed
      exact closed
  | text text =>
    rw [answer_other calls quiet (by simp [held, Token.rename]), List.append_nil, Builder.feed]
    split
    · exact follows.pass quiet
    · exact follows.attach here (by simp [quiet, Token.rename, Token.startName?])
  | doctype text | comment text =>
    rw [answer_other calls quiet (by simp [held, Token.rename]), List.append_nil]
    exact follows.attach here (by simp [quiet, Token.rename, Token.startName?])

theorem Follows.finish (edits : observer.EditsOnly)
    (follows : b.Follows tokens node atoms n calls) :
    Heard tokens node n (calls ++ (openAfter calls).map .endElement ++ [.endDocument])
      (b.finish observer.recorded).doc (b.finish observer.recorded).state.2 := by
  have deep := congrArg List.length follows.nodes
  rw [Builder.nodes, List.length_map, List.length_map] at deep
  have closed := (follows.close edits (List.append_nil _).symm).heard
  rw [← deep] at closed
  rw [Builder.finish]
  generalize b.close observer.recorded b.elements.stack.length = final at closed ⊢
  refine closed.call (edits.endDocument final.doc final.state.1) .endDocument rfl ?_
  intro _ same
  cases same

theorem after_steady (observer : Observer σ) (text : String) (state : σ) {n : Nat}
    (within : n ≤ (tokenize text).1.length) :
    (after observer text state n).Steady (tokenize text).2 := by
  have sound := Tokenizer.ofText_sound text
  obtain ⟨later, known, _⟩ := Tokenizer.run_spec sound
  induction n with
  | zero => exact ⟨OpenElements.empty_counted, fun top member => by cases member⟩
  | succ n ih =>
    have held := List.getElem?_eq_getElem (Nat.lt_of_succ_le within)
    rw [after_succ observer state held]
    exact (feed_tells observer (later.once sound.once) (ih (by omega))
      (known _ (List.getElem_mem _))).steady

theorem after_follows (edits : observer.EditsOnly) (text : String) (state : σ) {n : Nat}
    (within : n ≤ (tokenize text).1.length) :
    (after observer.recorded text (state, []) n).Follows (spelled text)
      (fun k => (after observer text state k).doc.size) (tokenize text).2 n
      (told (spelled text) n) := by
  have sound := Tokenizer.ofText_sound text
  obtain ⟨later, known, _⟩ := Tokenizer.run_spec sound
  induction n with
  | zero =>
    constructor
    case heard => exact .start (edits.startDocument .empty state)
    case nodes => rfl
    case names => rfl
    case early =>
      intro k member
      cases member
  | succ n ih =>
    have held := List.getElem?_eq_getElem (Nat.lt_of_succ_le within)
    have follows := ih (by omega)
    rw [after_succ observer.recorded (state, []) held, told_succ]
    refine follows.feed edits (later.once sound.once) (after_steady _ _ _ (by omega)) ?_
      (known _ (List.getElem_mem _)) ?_
    · rw [← forget_after]
      rfl
    · rw [spelled, List.getElem?_map, held, Option.map_some]

end Builder

theorem IsConstruct.startTag_spec {tokens : List (Token String)} (construct : IsConstruct tokens)
    {e : Element} {selfClosing slashed : Bool}
    (member : .startTag e.name e.attributes selfClosing slashed ∈ tokens) :
    selfClosing = isVoid e.name ∧ e.HasNames := by
  obtain ⟨name, attributes⟩ := e
  cases construct with
  | startTag named => simp_all
  | raw named =>
    unfold rawTokens at member
    split at member <;> simp_all
  | _ => simp at member

theorem construct_of_spelled (text : String) :
    ∀ token ∈ spelled text, ∃ tokens, IsConstruct tokens ∧ token ∈ tokens := by
  rw [spelled_eq]
  fun_induction spell text.toList with
  | case1 =>
    intro token member
    cases member
  | case2 cs some ih =>
    intro token member
    rcases List.mem_append.mp member with first | later
    · exact ⟨_, scan_construct cs, first⟩
    · split at later
      · exact ih token later
      · cases later

theorem spelled_startTag {text : String} {e : Element} {selfClosing slashed : Bool}
    (member : .startTag e.name e.attributes selfClosing slashed ∈ spelled text) :
    selfClosing = isVoid e.name ∧ e.HasNames := by
  obtain ⟨tokens, construct, inside⟩ := construct_of_spelled text _ member
  exact construct.startTag_spec inside

theorem spelled_voidOnly (text : String) : VoidOnly (spelled text) := by
  intro name attributes selfClosing slashed member
  exact (spelled_startTag (e := ⟨name, attributes⟩) member).1

theorem spelled_orderly (text : String) :
    Orderly (spelled text) (told (spelled text)) (story (spelled text)) :=
  story_orderly (spelled_voidOnly text)

theorem tag_of_told {text : String} {node : Nat → NodeId} {made : Call NodeId} {id : NodeId}
    (told : made ∈ (story (spelled text)).map (Call.map node))
    (about : made = .startElement id ∨ made = .endElement id) :
    ∃ k, id = node k ∧ (startName? (spelled text) k).isSome := by
  obtain ⟨c, member, rfl⟩ := List.mem_map.mp told
  have only := (spelled_orderly text).only
  cases c with
  | startElement k =>
    refine ⟨k, ?_, only k (.inl member)⟩
    rcases about with same | same <;> cases same
    rfl
  | endElement k =>
    refine ⟨k, ?_, only k (.inr member)⟩
    rcases about with same | same <;> cases same
    rfl
  | startDocument => rcases about with same | same <;> cases same
  | endDocument => rcases about with same | same <;> cases same

namespace Observer

def node (observer : Observer σ) (text : String) (state : σ) (k : Nat) : NodeId :=
  (Builder.after observer text state k).doc.size

/-- The calls of an observer of a text. -/
def log (observer : Observer σ) (text : String) (state : σ) : List Occasion :=
  (parseWith observer.recorded text (state, [])).2.2

structure Undisturbed (observer : Observer σ) (text : String) (state : σ) : Prop where
  /-- A new node can always become a child of the innermost open element. -/
  attaches : ∀ n ≤ (tokenize text).1.length, ∀ data,
    let b := Builder.after observer text state n
    ((b.doc.create data).2.append? b.elements.current b.doc.size).isSome
  built : parseWith observer text state =
    ((Builder.after observer text state (tokenize text).1.length).finish observer).pair
  recorded : parseWith observer text state =
    ((parseWith observer.recorded text (state, [])).1,
      (parseWith observer.recorded text (state, [])).2.1)
  passing : ∀ n ≤ (tokenize text).1.length,
    (Builder.after observer.recorded text (state, []) n).state.2.map Occasion.call =
      .startDocument :: (told (spelled text) n).map (Call.map (observer.node text state))
  whole : (observer.log text state).map Occasion.call =
    (story (spelled text)).map (Call.map (observer.node text state))
  ordered : ∀ j k, j < k → (startName? (spelled text) j).isSome →
    (startName? (spelled text) k).isSome → observer.node text state j < observer.node text state k
  shown : ∀ o ∈ observer.log text state, o.Shows (spelled text) (observer.node text state)
  /-- No call is about a node that was made in a call. -/
  foreign : ∀ o ∈ observer.log text state, ∀ id, o.call = .startElement id ∨
    o.call = .endElement id → ∀ other ∈ observer.log text state,
      id < other.before.size ∨ other.after.size ≤ id

theorem log_heard {observer : Observer σ} (edits : observer.EditsOnly) (text : String)
    (state : σ) :
    Heard (spelled text) (observer.node text state) (spelled text).length
      (elementCalls (spelled text) ++ [.endDocument]) (parseWith observer text state).1
      (observer.log text state) := by
  have length : (spelled text).length = (tokenize text).1.length := List.length_map _
  have heard := (Builder.after_follows edits text state (Nat.le_refl _)).finish edits
  rw [log, parseWith_recorded, Builder.parseWith_eq_finish, elementCalls, length]
  exact heard

theorem nobody_editsOnly : EditsOnly ({} : Observer Unit) := by
  constructor
  · exact fun d _ => .refl d
  · exact fun _ d _ => .refl d
  · exact fun _ d _ => .refl d
  · exact fun d _ => .refl d

theorem undisturbed_of_editsOnly {observer : Observer σ} (edits : observer.EditsOnly)
    (text : String) (state : σ) : observer.Undisturbed text state := by
  have heard := log_heard edits text state
  have whole : (observer.log text state).map Occasion.call =
      (story (spelled text)).map (Call.map (observer.node text state)) := heard.told
  constructor
  case attaches =>
    intro n within data
    have follows := Builder.after_follows edits text state within
    have container := follows.current_container
    have legal := Document.create_attachable follows.heard.sound container data
    have linked := (Document.create_wellFormed follows.heard.sound data).toLinked
    obtain ⟨d, done⟩ := Document.append_eq_some linked legal
    rw [← Builder.forget_after]
    exact Option.isSome_iff_exists.mpr ⟨d, done⟩
  case built => exact Builder.parseWith_eq_finish observer text state
  case recorded => exact parseWith_recorded observer text state
  case passing =>
    intro n within
    exact (Builder.after_follows edits text state within).heard.told
  case whole => exact whole
  case ordered =>
    intro j k before first second
    exact heard.ordered j k before (startName_lt second) first second
  case shown => exact heard.shown
  case foreign =>
    intro o member id about other made
    have listed : o.call ∈ (observer.log text state).map Occasion.call :=
      List.mem_map_of_mem member
    rw [whole] at listed
    obtain ⟨k, rfl, tag⟩ := tag_of_told listed about
    exact heard.apart other made k (startName_lt tag) tag

end Observer

/-- Whatever an observer does to the tree by edits, each node finds its place, and the observer is
told of the start tags and end tags of the text just as one that does nothing is. -/
theorem calls_undisturbed {observer : Observer σ} (edits : observer.EditsOnly) (text : String)
    (state : σ) :
    observer.Undisturbed text state ∧ Observer.Undisturbed ({} : Observer Unit) text () ∧
      Orderly (spelled text) (told (spelled text)) (story (spelled text)) := by
  refine ⟨?_, ?_, ?_⟩
  · exact Observer.undisturbed_of_editsOnly edits text state
  · exact Observer.undisturbed_of_editsOnly Observer.nobody_editsOnly text ()
  · exact spelled_orderly text

def meddler : Observer Unit where
  startElement id := fun d s =>
    (d.editAll [.create (.comment "new"), .insertBefore id d.size], s)
  endElement id := fun d s => (d.edit (.delete id), s)

theorem meddler_editsOnly : meddler.EditsOnly := by
  constructor
  · exact fun d _ => .refl d
  · exact fun id d _ => ⟨_, rfl⟩
  · exact fun id d _ => ⟨[.delete id], rfl⟩
  · exact fun d _ => .refl d

theorem meddler_undisturbed :
    meddler.EditsOnly ∧
      (meddler.log "<p>a<br></i>b</p>" ()).map Occasion.call =
        [.startDocument, .startElement 0, .startElement 2, .endElement 2, .endElement 0,
          .endDocument].map (Call.map (meddler.node "<p>a<br></i>b</p>" ())) := by
  have told : story (spelled "<p>a<br></i>b</p>") =
      [.startDocument, .startElement 0, .startElement 2, .endElement 2, .endElement 0,
        .endDocument] := by
    rw [spelled_eq]
    cbv
  rw [← told]
  exact ⟨meddler_editsOnly, (calls_undisturbed meddler_editsOnly _ ()).1.whole⟩

end PageFilters
