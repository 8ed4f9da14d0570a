import PageFilters.Markup.Build
import PageFilters.Proofs.Markup.Outline

/-!
The builder follows the outline. What its open elements are still to hold is told by the tokens that
are still to come, one outline for each open element; taking in a token leaves the end of the story
as it was.
-/

namespace PageFilters

namespace Outline

variable {observer : Observer σ}

/-- Watches what is still to come in each open element, and lets it end, from the innermost
outwards; at last what is still to come in the document. -/
def resume (observer : Observer σ) : List NodeId → List Outline → Document × σ → Document × σ
  | _, [], x => x
  | [], here :: _, x => here.watch observer Document.root x
  | id :: outer, here :: rest, x =>
    resume observer outer rest ((observer.endElement id).on (here.watch observer id x))

theorem resume_head {f : Outline → Outline} {ids : List NodeId} {x y : Document × σ}
    (first : ∀ here : Outline, (f here).watch observer (ids.headD Document.root) x =
      here.watch observer (ids.headD Document.root) y)
    (names : List String) (tokens : List (Token String)) :
    resume observer ids ((levels names tokens).modifyHead f) x =
      resume observer ids (levels names tokens) y := by
  obtain ⟨here, rest, same⟩ := List.exists_cons_of_length_eq_add_one (levels_length names tokens)
  rw [same, List.modifyHead_cons]
  cases ids with
  | nil => exact first here
  | cons id outer =>
    rw [resume, resume]
    exact congrArg (fun z => resume observer outer rest ((observer.endElement id).on z))
      (first here)

theorem resume_nest (e : Element) (ids : List NodeId) (x : Document × σ) (name : String)
    (names : List String) (tokens : List (Token String)) :
    resume observer ids (nest e (levels (name :: names) tokens)) x =
      resume observer (x.1.size :: ids) (levels (name :: names) tokens)
        ((observer.startElement x.1.size).on
          (x.1.attachNew (ids.headD Document.root) (.element e), x.2)) := by
  obtain ⟨inside, others, first⟩ :=
    List.exists_cons_of_length_eq_add_one (levels_length (name :: names) tokens)
  have length := levels_length (name :: names) tokens
  rw [first, List.length_cons] at length
  obtain ⟨here, rest, second⟩ := List.exists_cons_of_length_eq_add_one (Nat.succ.inj length)
  rw [first, second, nest]
  cases ids <;> rfl

end Outline

namespace Builder

variable {observer : Observer σ}

def pair (b : Builder σ) : Document × σ :=
  (b.doc, b.state)

def nodes (b : Builder σ) : List NodeId :=
  b.elements.stack.map OpenElement.node

def names (atoms : AtomTable) (b : Builder σ) : List String :=
  b.elements.stack.map fun top => atoms.resolve top.name

structure Steady (b : Builder σ) (atoms : AtomTable) : Prop where
  counted : b.elements.Counted
  known : ∀ top ∈ b.elements.stack, top.name < atoms.size

theorem Steady.later {b : Builder σ} {atoms later : AtomTable} (steady : b.Steady atoms)
    (precedes : atoms.Precedes later) : b.Steady later :=
  ⟨steady.counted, fun top member => precedes.lt_size (steady.known top member)⟩

theorem names_later {b : Builder σ} {atoms later : AtomTable} (steady : b.Steady atoms)
    (precedes : atoms.Precedes later) : b.names later = b.names atoms :=
  List.map_congr_left fun top member => precedes.resolve_eq (steady.known top member)

theorem current_eq (b : Builder σ) : b.elements.current = b.nodes.headD Document.root := by
  rw [OpenElements.current, nodes]
  cases b.elements.stack <;> rfl

theorem pair_attach (data : NodeData) (b : Builder σ) :
    (b.attach data).2.pair = (b.doc.attachNew (b.nodes.headD Document.root) data, b.state) := by
  rw [← current_eq]
  rfl

theorem close_spec (observer : Observer σ) {atoms : AtomTable} {b : Builder σ}
    (steady : b.Steady atoms) {n : Nat} (enough : n ≤ b.elements.stack.length) :
    (b.close observer n).elements.stack = b.elements.stack.drop n ∧
      (b.close observer n).Steady atoms ∧
      ∀ later, Outline.resume observer b.nodes (List.replicate n .done ++ later) b.pair =
        Outline.resume observer (b.close observer n).nodes later (b.close observer n).pair := by
  induction n generalizing b with
  | zero => exact ⟨rfl, steady, fun _ => rfl⟩
  | succ n ih =>
    obtain ⟨doc, ⟨stack, counts⟩, state⟩ := b
    cases stack with
    | nil => simp at enough
    | cons top stack =>
      let popped : OpenElements := ⟨stack, counts.modify top.name (· - 1)⟩
      let after : Builder σ :=
        Builder.react (observer.endElement top.node) ⟨doc, popped, state⟩
      have fewer : after.Steady atoms := by
        have done : OpenElements.pop? ⟨top :: stack, counts⟩ = some (top.node, popped) := rfl
        refine ⟨OpenElements.pop_counted steady.counted done, ?_⟩
        intro other member
        exact steady.known other (List.mem_cons_of_mem top member)
      exact ih fewer (Nat.le_of_succ_le_succ enough)

theorem findIdx_names {atoms : AtomTable} (once : atoms.names.Nodup) {b : Builder σ}
    (steady : b.Steady atoms) {name : AtomId} (known : name < atoms.size) :
    (b.names atoms).findIdx? (· == atoms.resolve name) = b.elements.depth? name := by
  rw [OpenElements.depth_eq steady.counted, names]
  have each := steady.known
  generalize b.elements.stack = stack at each ⊢
  induction stack with
  | nil => rfl
  | cons top stack ih =>
    have same := AtomTable.resolve_inj once (each top (List.mem_cons_self ..)) known
    rw [List.map_cons, List.findIdx?_cons, List.findIdx?_cons,
      ih fun other member => each other (List.mem_cons_of_mem top member)]
    simp [same]

structure Tells (observer : Observer σ) (atoms : AtomTable) (token : Token AtomId)
    (b after : Builder σ) : Prop where
  steady : after.Steady atoms
  resume_eq : ∀ later,
    Outline.resume observer b.nodes
        (Outline.levels (b.names atoms) (token.rename atoms.resolve :: later)) b.pair =
      Outline.resume observer after.nodes (Outline.levels (after.names atoms) later) after.pair

theorem attach_tells {atoms : AtomTable} {b : Builder σ} (steady : b.Steady atoms)
    {token : Token AtomId} {data : NodeData} (plain : data.isContainer = false)
    (spelled : ∀ names later, Outline.levels names (token.rename atoms.resolve :: later) =
      (Outline.levels names later).modifyHead (.leaf data plain)) :
    Tells observer atoms token b (b.attach data).2 := by
  refine ⟨⟨steady.counted, steady.known⟩, fun later => ?_⟩
  rw [spelled, pair_attach]
  refine Outline.resume_head ?_ (b.names atoms) later
  intro here
  rfl

theorem start_tells (observer : Observer σ) {atoms : AtomTable} {b : Builder σ}
    (steady : b.Steady atoms) {name : AtomId} (known : name < atoms.size)
    (attributes : List (AttributeOf AtomId)) (selfClosing : Bool) :
    Tells observer atoms (.startTag name attributes selfClosing false) b
      (b.feed observer atoms (.startTag name attributes selfClosing false)) := by
  cases selfClosing with
  | true =>
    refine ⟨⟨steady.counted, steady.known⟩, fun later => ?_⟩
    refine Outline.resume_head ?_ (b.names atoms) later
    intro here
    rw [← current_eq]
    rfl
  | false =>
    refine ⟨⟨OpenElements.push_counted steady.counted b.doc.size name, ?_⟩, fun later => ?_⟩
    · intro top member
      rcases List.mem_cons.mp member with same | member
      · rw [same]
        exact known
      · exact steady.known top member
    · refine (Outline.resume_nest _ b.nodes b.pair _ (b.names atoms) later).trans ?_
      rw [← current_eq]
      rfl

theorem slash_tells (observer : Observer σ) {atoms : AtomTable} {b : Builder σ}
    (steady : b.Steady atoms) {name : AtomId} (known : name < atoms.size)
    (attributes : List (AttributeOf AtomId)) :
    Tells observer atoms (.startTag name attributes false true) b
      (b.feed observer atoms (.startTag name attributes false true)) := by
  let noted : Builder σ :=
    { b with state := observer.ignored (.slash (atoms.resolve name)) b.state }
  have plain := start_tells observer (b := noted) ⟨steady.counted, steady.known⟩ known attributes
    false
  refine ⟨plain.steady, fun later => ?_⟩
  refine Eq.trans ?_ (plain.resume_eq later)
  refine Outline.resume_head (f := .ignored (.slash (atoms.resolve name))) ?_ (b.names atoms)
    ((Token.startTag name attributes false false).rename atoms.resolve :: later)
  intro here
  rfl

theorem endTag_tells (observer : Observer σ) {atoms : AtomTable} (once : atoms.names.Nodup)
    {b : Builder σ} (steady : b.Steady atoms) {name : AtomId} (known : name < atoms.size) :
    Tells observer atoms (.endTag name) b (b.feed observer atoms (.endTag name)) := by
  have found := findIdx_names once steady known
  rw [feed]
  split
  · next none =>
    refine ⟨⟨steady.counted, steady.known⟩, fun later => ?_⟩
    rw [Token.rename, Outline.levels, found, none]
    refine Outline.resume_head ?_ (b.names atoms) later
    intro here
    rfl
  · next inside some =>
    have enough : inside + 1 ≤ b.elements.stack.length := by
      rw [some] at found
      have within := (List.findIdx?_eq_some_iff_getElem.mp found).1
      rwa [names, List.length_map] at within
    obtain ⟨left, closed, told⟩ := close_spec observer steady enough
    refine ⟨closed, fun later => ?_⟩
    have outer : (b.close observer (inside + 1)).names atoms =
        (b.names atoms).drop (inside + 1) := by
      rw [names, left, names, List.map_drop]
    rw [outer, ← told, Token.rename, Outline.levels, found, some]

theorem feed_tells (observer : Observer σ) {atoms : AtomTable} (once : atoms.names.Nodup)
    {b : Builder σ} (steady : b.Steady atoms) {token : Token AtomId} (known : atoms.Knows token) :
    Tells observer atoms token b (b.feed observer atoms token) := by
  cases token with
  | doctype text => exact attach_tells steady rfl fun _ _ => rfl
  | comment text => exact attach_tells steady rfl fun _ _ => rfl
  | text text =>
    rw [feed]
    split
    · next empty =>
      refine ⟨steady, fun later => ?_⟩
      rw [Token.rename, Outline.levels, if_pos empty]
    · next some =>
      refine attach_tells steady rfl fun names later => ?_
      rw [Token.rename, Outline.levels, if_neg some]
  | startTag name attributes selfClosing slashed =>
    have first : name < atoms.size := known name (List.mem_cons_self ..)
    cases slashed with
    | false => exact start_tells observer steady first attributes selfClosing
    | true =>
      cases selfClosing with
      | false => exact slash_tells observer steady first attributes
      | true =>
        have plain := start_tells observer steady first attributes true
        exact ⟨plain.steady, plain.resume_eq⟩
  | endTag name =>
    exact endTag_tells observer once steady (known name (List.mem_singleton.mpr rfl))

theorem close_all {atoms : AtomTable} {b : Builder σ} (steady : b.Steady atoms) :
    (b.close observer b.elements.stack.length).pair =
      Outline.resume observer b.nodes (Outline.levels (b.names atoms) []) b.pair := by
  obtain ⟨left, _, told⟩ := close_spec observer steady (Nat.le_refl _)
  have none : (b.close observer b.elements.stack.length).nodes = [] := by
    rw [nodes, left, List.drop_length]
    rfl
  have length : (b.names atoms).length = b.elements.stack.length := List.length_map _
  rw [Outline.levels, length, List.replicate_succ', told [.done], none]
  rfl

theorem feedAll_eq (observer : Observer σ) {t : Tokenizer} (sound : t.Sound) {b : Builder σ}
    (steady : b.Steady t.atoms) :
    ((b.feedAll observer t).close observer (b.feedAll observer t).elements.stack.length).pair =
      Outline.resume observer b.nodes (Outline.levels (b.names t.atoms) t.toCome) b.pair := by
  fun_induction feedAll observer t b with
  | case1 t b after asked =>
    have spec := (t.next_spec sound).2.2
    rw [asked] at spec
    rw [close_all steady, spec]
  | case2 t b token after asked ih =>
    have spec := t.next_spec sound
    rw [asked] at spec
    obtain ⟨later, kept, known, spelled⟩ := spec
    have told := feed_tells observer kept.once (steady.later later) known
    rw [ih kept told.steady, spelled, ← names_later steady later, ← told.resume_eq]

end Builder

/-- Building the tree of a text under the eyes of an observer comes to the same as watching what the
text says. -/
theorem parseWith_eq (observer : Observer σ) (text : String) (state : σ) :
    parseWith observer text state =
      observer.endDocument.on ((Outline.ofText text).watch observer Document.root
        (observer.startDocument.on (.empty, state))) := by
  let begun : Builder σ := Builder.react observer.startDocument { doc := .empty, state }
  have steady : begun.Steady (Tokenizer.ofText text).atoms :=
    ⟨OpenElements.empty_counted, fun top member => by cases member⟩
  have built := Builder.feedAll_eq observer (Tokenizer.ofText_sound text) steady
  rw [Tokenizer.toCome_ofText] at built
  obtain ⟨whole, rest, only⟩ :=
    List.exists_cons_of_length_eq_add_one (Outline.levels_length [] (spell text.toList))
  have told : Outline.resume observer begun.nodes
      (Outline.levels (begun.names (Tokenizer.ofText text).atoms) (spell text.toList)) begun.pair =
      (Outline.ofText text).watch observer Document.root begun.pair := by
    change Outline.resume observer [] (Outline.levels [] (spell text.toList)) begun.pair = _
    rw [Outline.ofText, only]
    rfl
  rw [told] at built
  exact congrArg observer.endDocument.on built

namespace Builder

variable {observer : Observer σ}

theorem feed_later (observer : Observer σ) {atoms later : AtomTable}
    (precedes : atoms.Precedes later) {token : Token AtomId} (known : atoms.Knows token)
    (b : Builder σ) : b.feed observer later token = b.feed observer atoms token := by
  cases token with
  | doctype text => rfl
  | comment text => rfl
  | text text => rfl
  | startTag name attributes selfClosing slashed =>
    have tag := precedes.resolve_eq (known name (List.mem_cons_self ..))
    have each : attributes.map later.resolveAttribute =
        attributes.map atoms.resolveAttribute := by
      apply List.map_congr_left
      intro a member
      have read := precedes.resolve_eq
        (known a.name (List.mem_cons_of_mem name (List.mem_map_of_mem member)))
      rw [AtomTable.resolveAttribute, AtomTable.resolveAttribute, read]
    simp only [feed, tag, each]
  | endTag name =>
    simp only [feed, precedes.resolve_eq (known name (List.mem_singleton.mpr rfl))]

theorem feedAll_eq_foldl (observer : Observer σ) {t : Tokenizer} (sound : t.Sound)
    (b : Builder σ) :
    b.feedAll observer t = t.run.1.foldl (fun b token => b.feed observer t.run.2 token) b := by
  fun_induction feedAll observer t b with
  | case1 t b after asked =>
    have ended : t.run = ([], after.atoms) := by
      rw [Tokenizer.run]
      split
      · next other => simp [asked] at other
      · next other =>
        rw [asked] at other
        cases other
        rfl
    rw [ended]
    rfl
  | case2 t b token after asked ih =>
    have spec := t.next_spec sound
    rw [asked] at spec
    obtain ⟨_, kept, known, _⟩ := spec
    have goes : t.run = (token :: after.run.1, after.run.2) := by
      rw [Tokenizer.run]
      split
      · next other =>
        rw [asked] at other
        cases other
        rfl
      · next other => simp [asked] at other
    rw [ih kept, goes, List.foldl_cons,
      feed_later observer (Tokenizer.run_spec kept).1 known]

def begun (observer : Observer σ) (state : σ) : Builder σ :=
  Builder.react observer.startDocument { doc := .empty, state }

def after (observer : Observer σ) (text : String) (state : σ) (n : Nat) : Builder σ :=
  ((tokenize text).1.take n).foldl (fun b token => b.feed observer (tokenize text).2 token)
    (begun observer state)

def finish (observer : Observer σ) (b : Builder σ) : Builder σ :=
  (b.close observer b.elements.stack.length).react observer.endDocument

theorem parseWith_eq_finish (observer : Observer σ) (text : String) (state : σ) :
    parseWith observer text state =
      ((after observer text state (tokenize text).1.length).finish observer).pair := by
  have fed := feedAll_eq_foldl observer (Tokenizer.ofText_sound text) (begun observer state)
  rw [after, List.take_length, tokenize, ← fed]
  rfl

theorem after_succ (observer : Observer σ) {text : String} (state : σ) {n : Nat}
    {token : Token AtomId} (held : (tokenize text).1[n]? = some token) :
    after observer text state (n + 1) =
      (after observer text state n).feed observer (tokenize text).2 token := by
  rw [after, List.take_add_one, held, Option.toList_some, List.foldl_append]
  rfl

end Builder

structure Observer.Keeps (observer : Observer σ) (P : σ → Prop) : Prop where
  startElement : ∀ id (d : Document) s, P s → P (observer.startElement id d s).2
  endElement : ∀ id (d : Document) s, P s → P (observer.endElement id d s).2
  ignored : ∀ what s, P s → P (observer.ignored what s)

structure Observer.Quiet (observer : Observer σ) (P : σ → Prop) : Prop
    extends observer.Keeps P where
  started : ∀ id (d : Document) s, P s → (observer.startElement id d s).1 = d
  ended : ∀ id (d : Document) s, P s → (observer.endElement id d s).1 = d

namespace Outline

variable {observer : Observer σ} {P : σ → Prop}

theorem watch_keeps (keeps : observer.Keeps P) (o : Outline) (p : NodeId) {x : Document × σ}
    (holds : P x.2) : P (o.watch observer p x).2 := by
  induction o generalizing p x with
  | done => exact holds
  | ignored what rest ih => exact ih p (keeps.ignored what _ holds)
  | leaf data _ rest ih => exact ih p holds
  | element e inside rest ihInside ihRest =>
    have started := keeps.startElement x.1.size (x.1.attachNew p (.element e)) _ holds
    exact ihRest p (keeps.endElement _ _ _ (ihInside _ started))

theorem watch_grows (quiet : observer.Quiet P) (o : Outline) {x : Document × σ} {p : NodeId}
    (holds : P x.2) (sound : x.1.WellFormed) (container : x.1.IsContainer p) :
    x.1.Grows p o.trees (o.watch observer p x).1 := by
  -- What is built inside an element hangs below its node, and so grows at `p` with it.
  induction o generalizing x p with
  | done => exact .refl sound p
  | ignored what rest ih =>
    exact ih (x := (x.1, observer.ignored what x.2)) (quiet.ignored what x.2 holds) sound container
  | leaf data _ rest ih =>
    have first := Document.attachNew_grows sound container data
    have later := ih (x := (x.1.attachNew p data, x.2)) holds first.sound
      (first.isContainer container)
    exact first.trans later container.lt_size
  | element e inside rest ihInside ihRest =>
    have held := Document.data_attachNew sound container (.element e)
    have grown := Document.attachNew_extends sound container (.element e)
    let started := observer.startElement x.1.size (x.1.attachNew p (.element e)) x.2
    let filled := inside.watch observer x.1.size started
    let ended := observer.endElement x.1.size filled.1 filled.2
    have same : started.1 = x.1.attachNew p (.element e) := quiet.started _ _ _ holds
    have begun : P started.2 := quiet.startElement _ _ _ holds
    have below : started.1.Grows x.1.size inside.trees filled.1 :=
      ihInside begun (same ▸ grown.sound) (same ▸ Document.isContainer_of_element held)
    have kept : P filled.2 := watch_keeps quiet.toKeeps inside _ begun
    have first : x.1.Grows p [.node (.element e) inside.trees] ended.1 := by
      rw [show ended.1 = filled.1 from quiet.ended _ _ _ kept]
      exact Document.attachNew_filled sound container (same ▸ below)
    have later := ihRest (quiet.endElement x.1.size filled.1 _ kept) first.sound
      (first.isContainer container)
    exact first.trans later container.lt_size

end Outline

theorem nobody_quiet : Observer.Quiet ({} : Observer Unit) fun _ => True :=
  ⟨⟨fun _ _ _ _ => trivial, fun _ _ _ _ => trivial, fun _ _ _ => trivial⟩, fun _ _ _ _ => rfl,
    fun _ _ _ _ => rfl⟩

theorem parse_forest (text : String) :
    (parse text).forest Document.root = (Outline.ofText text).trees := by
  have sound := Document.empty_wellFormed
  have grows := (Outline.ofText text).watch_grows nobody_quiet (x := (.empty, ())) trivial sound
    (Document.root_isContainer sound.toLinked)
  have built : (parse text) = ((Outline.ofText text).watch {} Document.root (.empty, ())).1 :=
    congrArg Prod.fst (parseWith_eq {} text ())
  rw [built, grows.forest_eq sound.toLinked sound.size_pos]
  rfl

theorem parse_tree (text : String) :
    (parse text).tree = .node .document (Outline.ofText text).trees := by
  rw [(parse_wellFormed text).tree_eq, parse_forest]

def Alongside (R : σ → τ → Prop) (x : Document × σ) (y : Document × τ) : Prop :=
  x.1 = y.1 ∧ R x.2 y.2

/-- Two observers that do the same to a document while their states are related, and keep them
related. -/
structure Observer.Matches (left : Observer σ) (right : Observer τ) (R : σ → τ → Prop) : Prop where
  startElement : ∀ id x y, Alongside R x y →
    Alongside R ((left.startElement id).on x) ((right.startElement id).on y)
  endElement : ∀ id x y, Alongside R x y →
    Alongside R ((left.endElement id).on x) ((right.endElement id).on y)
  ignored : ∀ what s t, R s t → R (left.ignored what s) (right.ignored what t)
  endDocument : ∀ x y, Alongside R x y →
    Alongside R (left.endDocument.on x) (right.endDocument.on y)

section

variable {left : Observer σ} {right : Observer τ} {R : σ → τ → Prop}

theorem Outline.watch_matches (same : left.Matches right R) (o : Outline) (p : NodeId)
    {x : Document × σ} {y : Document × τ} (along : Alongside R x y) :
    Alongside R (o.watch left p x) (o.watch right p y) := by
  induction o generalizing p x y with
  | done => exact along
  | ignored what rest ih => exact ih p ⟨along.1, same.ignored what _ _ along.2⟩
  | leaf data _ rest ih => exact ih p ⟨congrArg (Document.attachNew p data) along.1, along.2⟩
  | element e inside rest ihInside ihRest =>
    have added : Alongside R (x.1.attachNew p (.element e), x.2)
        (y.1.attachNew p (.element e), y.2) :=
      ⟨congrArg (Document.attachNew p (.element e)) along.1, along.2⟩
    rw [watch, watch, ← along.1]
    rw [← along.1] at added
    have filled := ihInside x.1.size (same.startElement x.1.size _ _ added)
    exact ihRest p (same.endElement x.1.size _ _ filled)

theorem parseWith_matches (same : left.Matches right R) {s : σ} {t : τ}
    (begun : Alongside R (left.startDocument .empty s) (right.startDocument .empty t))
    (text : String) : Alongside R (parseWith left text s) (parseWith right text t) := by
  rw [parseWith_eq, parseWith_eq]
  exact same.endDocument _ _ ((Outline.ofText text).watch_matches same Document.root begun)

structure Builder.Alongside (R : σ → τ → Prop) (a : Builder σ) (b : Builder τ) : Prop where
  doc : a.doc = b.doc
  elements : a.elements = b.elements
  state : R a.state b.state

namespace Builder

variable {a : Builder σ} {b : Builder τ}

theorem Alongside.attach (along : a.Alongside R b) (data : NodeData) :
    (a.attach data).1 = (b.attach data).1 ∧ (a.attach data).2.Alongside R (b.attach data).2 := by
  obtain ⟨doc, elements, state⟩ := along
  unfold Builder.attach
  rw [doc, elements]
  exact ⟨rfl, rfl, rfl, state⟩

theorem Alongside.react {first : Reaction σ} {second : Reaction τ} (along : a.Alongside R b)
    (same : PageFilters.Alongside R (first.on a.pair) (second.on b.pair)) :
    (a.react first).Alongside R (b.react second) :=
  ⟨same.1, along.elements, same.2⟩

theorem close_matches (same : left.Matches right R) (n : Nat) (along : a.Alongside R b) :
    (a.close left n).Alongside R (b.close right n) := by
  induction n generalizing a b with
  | zero => exact along
  | succ n ih =>
    rw [close, close, along.elements]
    split
    · exact along
    · next node elements _ =>
      apply ih
      have pair : PageFilters.Alongside R (a.doc, a.state) (b.doc, b.state) :=
        ⟨along.doc, along.state⟩
      have ended := same.endElement node _ _ pair
      exact ⟨ended.1, rfl, ended.2⟩

theorem feed_matches (same : left.Matches right R) (atoms : AtomTable) (token : Token AtomId)
    (along : a.Alongside R b) :
    (a.feed left atoms token).Alongside R (b.feed right atoms token) := by
  cases token with
  | doctype text => exact (along.attach _).2
  | comment text => exact (along.attach _).2
  | text text =>
    rw [feed, feed]
    split
    · exact along
    · exact (along.attach _).2
  | endTag name =>
    rw [feed, feed, along.elements]
    split
    · exact ⟨along.doc, rfl, same.ignored _ _ _ along.state⟩
    · exact close_matches same _ along
  | startTag name attributes selfClosing slashed =>
    simp only [feed]
    generalize (Token.startTag name attributes selfClosing slashed).ignoresSlash = noticed
    generalize ha : (if noticed = true then
      { a with state := left.ignored (.slash (atoms.resolve name)) a.state } else a) = first
    generalize hb : (if noticed = true then
      { b with state := right.ignored (.slash (atoms.resolve name)) b.state } else b) = second
    have noted : first.Alongside R second := by
      rw [← ha, ← hb]
      split
      · exact ⟨along.doc, along.elements, same.ignored _ _ _ along.state⟩
      · exact along
    obtain ⟨node, attached⟩ :=
      noted.attach (.element ⟨atoms.resolve name, attributes.map atoms.resolveAttribute⟩)
    rw [← node]
    generalize first.attach _ = x at attached ⊢
    generalize second.attach _ = y at attached ⊢
    have started : (x.2.react (left.startElement x.1)).Alongside R
        (y.2.react (right.startElement x.1)) :=
      attached.react (same.startElement x.1 _ _ ⟨attached.doc, attached.state⟩)
    split
    · exact started.react (same.endElement x.1 _ _ ⟨started.doc, started.state⟩)
    · exact ⟨started.doc, congrArg (·.push x.1 name) started.elements, started.state⟩

theorem after_matches (same : left.Matches right R) {s : σ} {t : τ}
    (begun : PageFilters.Alongside R (left.startDocument .empty s) (right.startDocument .empty t))
    (text : String) (n : Nat) : (after left text s n).Alongside R (after right text t n) := by
  unfold after
  have first : (Builder.begun left s).Alongside R (Builder.begun right t) :=
    ⟨begun.1, rfl, begun.2⟩
  generalize Builder.begun left s = a at first
  generalize Builder.begun right t = b at first
  generalize (tokenize text).1.take n = tokens
  induction tokens generalizing a b with
  | nil => exact first
  | cons token rest ih => exact ih _ _ (feed_matches same _ token first)

end Builder

end

end PageFilters
