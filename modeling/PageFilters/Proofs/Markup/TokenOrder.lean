import PageFilters.Proofs.Document.Prefix
import PageFilters.Proofs.Markup.Remainder

/-!
Building in the order of the tokens. While nobody edits the tree, each token but the end tags makes
one node, the next one, which becomes the last child of the innermost open element, and nothing else
happens to the tree. So the document at every call is the front of the one at the end.
-/

namespace PageFilters

/-- What the node of a token holds. An end tag has no node. -/
def Token.data? : Token String → Option NodeData
  | .doctype body => some (.doctype body)
  | .comment body => some (.comment body)
  | .text body => some (.text body)
  | .startTag name attributes _ _ => some (.element ⟨name, attributes⟩)
  | .endTag _ => none

section

variable (tokens : List (Token String)) (k : Nat)

def nodeNumber : NodeId :=
  ((tokens.take k).filterMap Token.data?).length + 1

/-- The innermost element that is open when the token number `k` comes; the root if none is. -/
def nodeAround : NodeId :=
  ((openAfter (told tokens k)).map (nodeNumber tokens)).headD Document.root

end

theorem data_take_succ (tokens : List (Token String)) (k : Nat) :
    (tokens.take (k + 1)).filterMap Token.data? =
      (tokens.take k).filterMap Token.data? ++ (tokens[k]?.bind Token.data?).toList := by
  rw [List.take_add_one, List.filterMap_append]
  cases tokens[k]? with
  | none => rfl
  | some token => cases data : token.data? <;> simp [data]

theorem nodeNumber_lt {tokens : List (Token String)} {k n : Nat} (early : k < n)
    (made : (tokens[k]?.bind Token.data?).isSome) : nodeNumber tokens k < nodeNumber tokens n := by
  obtain ⟨data, here⟩ := Option.isSome_iff_exists.mp made
  have front : tokens.take (k + 1) <+: tokens.take n := List.take_prefix_take_left early
  have later := (front.filterMap Token.data?).length_le
  rw [data_take_succ, here, List.length_append] at later
  exact Nat.succ_lt_succ later

theorem getElem_nodeNumber {tokens : List (Token String)} {k : Nat} {data : NodeData}
    (made : tokens[k]?.bind Token.data? = some data) :
    (NodeData.document :: tokens.filterMap Token.data?)[nodeNumber tokens k]? = some data := by
  have whole : tokens.filterMap Token.data? = (tokens.take (k + 1)).filterMap Token.data? ++
      (tokens.drop (k + 1)).filterMap Token.data? := by
    rw [← List.filterMap_append, List.take_append_drop]
  rw [nodeNumber, List.getElem?_cons_succ, whole, data_take_succ, made, Option.toList_some,
    List.append_assoc, List.getElem?_append_right (Nat.le_refl _), Nat.sub_self]
  rfl

theorem exists_nodeNumber {tokens : List (Token String)} {id n : Nat} (below : 0 < id)
    (early : id < nodeNumber tokens n) :
    ∃ k < n, (tokens[k]?.bind Token.data?).isSome ∧ nodeNumber tokens k = id := by
  induction n with
  | zero => exact absurd early (Nat.not_lt.mpr below)
  | succ n ih =>
    by_cases before : id < nodeNumber tokens n
    · obtain ⟨k, within, made, same⟩ := ih before
      exact ⟨k, Nat.lt_succ_of_lt within, made, same⟩
    · rw [nodeNumber, data_take_succ, List.length_append] at early
      rw [nodeNumber] at before
      cases here : tokens[n]?.bind Token.data? with
      | none =>
        rw [here] at early
        exact absurd early before
      | some data =>
        rw [here, Option.toList_some, List.length_singleton] at early
        refine ⟨n, Nat.lt_succ_self n, by rw [here]; rfl, ?_⟩
        exact Nat.le_antisymm (Nat.not_lt.mp before) (Nat.lt_succ_iff.mp early)

theorem empty_text_not_mem_spelled (text : String) : .text "" ∉ spelled text := by
  rw [spelled_eq]
  fun_induction spell text.toList with
  | case1 => exact List.not_mem_nil
  | case2 cs some ih =>
    rw [List.mem_append, not_or]
    refine ⟨empty_text_not_mem_scan some, ?_⟩
    split
    · exact ih
    · exact List.not_mem_nil

structure Observer.ReadsOnly (observer : Observer σ) : Prop where
  startDocument : ∀ (d : Document) s, (observer.startDocument d s).1 = d
  startElement : ∀ id (d : Document) s, (observer.startElement id d s).1 = d
  endElement : ∀ id (d : Document) s, (observer.endElement id d s).1 = d
  endDocument : ∀ (d : Document) s, (observer.endDocument d s).1 = d

namespace Observer.ReadsOnly

variable {observer : Observer σ}

theorem editsOnly (reads : observer.ReadsOnly) : observer.EditsOnly := by
  constructor
  · exact fun d s => by rw [reads.startDocument]; exact .refl d
  · exact fun id d s => by rw [reads.startElement]; exact .refl d
  · exact fun id d s => by rw [reads.endElement]; exact .refl d
  · exact fun d s => by rw [reads.endDocument]; exact .refl d

theorem recorded (reads : observer.ReadsOnly) : observer.recorded.ReadsOnly := by
  constructor
  · exact fun d s => reads.startDocument d s.1
  · exact fun id d s => reads.startElement id d s.1
  · exact fun id d s => reads.endElement id d s.1
  · exact fun d s => reads.endDocument d s.1

theorem appends (reads : observer.ReadsOnly) : observer.Appends fun _ => True := by
  constructor
  case toKeeps => exact ⟨fun _ _ _ _ => trivial, fun _ _ _ _ => trivial, fun _ _ _ => trivial⟩
  case started =>
    intro d p e s sound container _
    refine ⟨[], e, rfl, ?_⟩
    rw [reads.startElement]
    exact ⟨Document.attachNew_extends sound container (.element e),
      Document.data_attachNew sound container (.element e)⟩
  case ended => exact fun id d s _ => reads.endElement id d s

end Observer.ReadsOnly

namespace Builder

variable {observer : Observer σ} {tokens : List (Token String)} {atoms : AtomTable} {n : Nat}
  {b : Builder (σ × List Occasion)}

structure InOrder (tokens : List (Token String)) (n : Nat) (b : Builder (σ × List Occasion)) :
    Prop where
  sound : b.doc.WellFormed
  contents : b.doc.contents = .document :: (tokens.take n).filterMap Token.data?
  /-- The subtrees of the open elements reach to the end of the document. -/
  rest : ∀ q ∈ Document.root :: b.nodes, b.doc.HoldsRest q
  parents : ∀ k < n, (tokens[k]?.bind Token.data?).isSome →
    b.doc.parent? (nodeNumber tokens k) = some (nodeAround tokens k)
  fronts : ∀ o ∈ b.state.2, o.after = o.before ∧ o.before.size ≤ b.doc.size ∧
    o.before = b.doc.upTo o.before.size

namespace InOrder

theorem size_eq (ordered : b.InOrder tokens n) : b.doc.size = nodeNumber tokens n := by
  rw [← Document.length_contents, ordered.contents, List.length_cons, nodeNumber]

theorem call (ordered : b.InOrder tokens n) (call : Call NodeId) {reaction : Reaction σ}
    (still : ∀ s, (reaction b.doc s).1 = b.doc) :
    (b.react (reaction.recorded call)).InOrder tokens n := by
  have doc : (b.react (reaction.recorded call)).doc = b.doc := still b.state.1
  constructor
  case sound => exact doc ▸ ordered.sound
  case contents => exact doc ▸ ordered.contents
  case rest =>
    intro q member
    rw [doc]
    exact ordered.rest q member
  case parents => exact doc ▸ ordered.parents
  case fronts =>
    intro o member
    rw [doc]
    rcases List.mem_append.mp member with old | new
    · exact ordered.fronts o old
    · rw [List.mem_singleton.mp new]
      exact ⟨still b.state.1, Nat.le_refl _, (Document.upTo_size ordered.sound.toLinked).symm⟩

theorem pass (ordered : b.InOrder tokens n) {token : Token String} (held : tokens[n]? = some token)
    (none : token.data? = none) : b.InOrder tokens (n + 1) := by
  constructor
  case sound => exact ordered.sound
  case contents =>
    rw [ordered.contents, data_take_succ, held, Option.bind_some, none, Option.toList_none,
      List.append_nil]
  case rest => exact ordered.rest
  case parents =>
    intro k early some
    refine ordered.parents k ?_ some
    have other : k ≠ n := by
      rintro rfl
      simp [held, none] at some
    omega
  case fronts => exact ordered.fronts

theorem attach (ordered : b.InOrder tokens n) (nested : b.doc.Nested b.nodes)
    (around : b.elements.current = nodeAround tokens n) {token : Token String}
    (held : tokens[n]? = some token) {data : NodeData} (some : token.data? = some data) :
    (b.attach data).2.InOrder tokens (n + 1) := by
  have linked := ordered.sound.toLinked
  have container := nested.isContainer linked
  have grown := Document.attachNew_extends ordered.sound container data
  have attaches := (Document.attachNew_attaches ordered.sound container data).2
  have doc : (b.attach data).2.doc = b.doc.attachNew (b.nodes.headD Document.root) data :=
    congrArg Prod.fst (pair_attach data b)
  have inner : b.doc.HoldsRest (b.nodes.headD Document.root) := by
    apply ordered.rest
    cases b.nodes <;> simp
  constructor
  case sound => exact doc ▸ grown.sound
  case contents =>
    rw [doc, Document.contents_attachNew ordered.sound container, ordered.contents,
      data_take_succ, held, Option.bind_some, some, Option.toList_some]
    rfl
  case rest =>
    intro q member
    rw [doc]
    exact Document.attachNew_holdsRest ordered.sound container data
      (nested.reaches linked q member) (ordered.rest q member) inner
  case parents =>
    intro k early made
    rw [doc]
    by_cases new : k = n
    · subst new
      rw [← ordered.size_eq, attaches.parent, if_pos rfl, ← around, current_eq]
    · have earlier : k < n := by omega
      have small : nodeNumber tokens k < b.doc.size := ordered.size_eq ▸ nodeNumber_lt earlier made
      rw [grown.parent _ small]
      exact ordered.parents k earlier made
  case fronts =>
    intro o member
    obtain ⟨still, small, front⟩ := ordered.fronts o member
    rw [doc]
    refine ⟨still, Nat.le_trans small grown.size, ?_⟩
    rw [← Document.upTo_upTo small, Document.attachNew_upTo ordered.sound container]
    exact front

theorem close (reads : observer.ReadsOnly) (ordered : b.InOrder tokens n) (m : Nat) :
    (b.close observer.recorded m).InOrder tokens n := by
  induction m generalizing b with
  | zero => exact ordered
  | succ m ih =>
    obtain ⟨doc, ⟨stack, counts⟩, state⟩ := b
    cases stack with
    | nil => exact ordered
    | cons top stack =>
      let popped : Builder (σ × List Occasion) :=
        ⟨doc, ⟨stack, counts.modify top.name (· - 1)⟩, state⟩
      have fewer : popped.InOrder tokens n := by
        refine ⟨ordered.sound, ordered.contents, ?_, ordered.parents, ordered.fronts⟩
        intro q member
        apply ordered.rest
        rcases List.mem_cons.mp member with same | outer
        · exact same ▸ List.mem_cons_self ..
        · exact List.mem_cons_of_mem _ (List.mem_cons_of_mem _ outer)
      exact ih (fewer.call (.endElement top.node) fun s => reads.endElement top.node doc s)

theorem startTag (reads : observer.ReadsOnly) (ordered : b.InOrder tokens n)
    (nested : b.doc.Nested b.nodes) (around : b.elements.current = nodeAround tokens n)
    {name : AtomId} {attributes : List (AttributeOf AtomId)} {selfClosing slashed : Bool}
    (held : tokens[n]? =
      some ((Token.startTag name attributes selfClosing slashed).rename atoms.resolve)) :
    (b.feed observer.recorded atoms (.startTag name attributes selfClosing slashed)).InOrder
      tokens (n + 1) := by
  let e : Element := ⟨atoms.resolve name, attributes.map atoms.resolveAttribute⟩
  obtain ⟨noted, which, read⟩ :=
    feed_startTag observer.recorded atoms b name attributes selfClosing slashed
  have same : noted.InOrder tokens n ∧ noted.doc.Nested noted.nodes ∧
      noted.elements.current = nodeAround tokens n := by
    rcases which with rfl | rfl
    · exact ⟨ordered, nested, around⟩
    · exact ⟨⟨ordered.sound, ordered.contents, ordered.rest, ordered.parents, ordered.fronts⟩,
        nested, around⟩
  obtain ⟨ordered, nested, around⟩ := same
  have attached : (noted.attach (.element e)).2.InOrder tokens (n + 1) :=
    ordered.attach nested around held rfl
  let id := noted.doc.size
  have started := attached.call (.startElement id) fun s => reads.startElement id _ s
  rw [read]
  split
  · exact started.call (.endElement id) fun s => reads.endElement id _ s
  · refine ⟨started.sound, started.contents, ?_, started.parents, started.fronts⟩
    have last : ((noted.attach (.element e)).2.react
        (observer.recorded.startElement id)).doc.HoldsRest id := by
      have still : ((noted.attach (.element e)).2.react (observer.recorded.startElement id)).doc =
          noted.doc.attachNew (noted.nodes.headD Document.root) (.element e) :=
        (reads.startElement id _ _).trans (congrArg Prod.fst (pair_attach (.element e) noted))
      rw [still]
      exact Document.attachNew_holdsRest_new ordered.sound
        (nested.isContainer ordered.sound.toLinked) (.element e)
    intro q member
    rcases List.mem_cons.mp member with same | member
    · exact started.rest q (same ▸ List.mem_cons_self ..)
    · rcases List.mem_cons.mp member with same | member
      · exact same ▸ last
      · exact started.rest q (List.mem_cons_of_mem _ member)

theorem feed (reads : observer.ReadsOnly) (ordered : b.InOrder tokens n)
    (nested : b.doc.Nested b.nodes) (around : b.elements.current = nodeAround tokens n)
    (full : .text "" ∉ tokens) {token : Token AtomId}
    (held : tokens[n]? = some (token.rename atoms.resolve)) :
    (b.feed observer.recorded atoms token).InOrder tokens (n + 1) := by
  cases token with
  | doctype body => exact ordered.attach nested around held rfl
  | comment body => exact ordered.attach nested around held rfl
  | text body =>
    rw [Builder.feed, if_neg]
    · exact ordered.attach nested around held rfl
    · intro empty
      have none : body = "" := by simpa using empty
      exact full (none ▸ List.mem_of_getElem? held)
  | startTag name attributes selfClosing slashed =>
    exact ordered.startTag reads nested around held
  | endTag name =>
    have passed := ordered.pass held rfl
    rw [Builder.feed]
    split
    · exact ⟨passed.sound, passed.contents, passed.rest, passed.parents, passed.fronts⟩
    · exact passed.close reads _

theorem finish (reads : observer.ReadsOnly) (ordered : b.InOrder tokens n) :
    (b.finish observer.recorded).InOrder tokens n :=
  (ordered.close reads b.elements.stack.length).call .endDocument (reads.endDocument _)

end InOrder

theorem begun_inOrder (reads : observer.ReadsOnly) (tokens : List (Token String)) (state : σ) :
    (begun observer.recorded (state, [])).InOrder tokens 0 := by
  have start : Builder.InOrder tokens 0
      { doc := .empty, state := (state, ([] : List Occasion)) } := by
    constructor
    case sound => exact Document.empty_wellFormed
    case contents => rfl
    case rest =>
      intro q member
      rw [List.mem_singleton.mp member]
      rfl
    case parents =>
      intro k early
      omega
    case fronts =>
      intro o member
      cases member
  exact start.call .startDocument fun s => reads.startDocument .empty s

theorem InOrder.node_eq {text : String} {state : σ}
    (ordered : (after observer.recorded text (state, []) n).InOrder (spelled text) n) :
    observer.node text state n = nodeNumber (spelled text) n := by
  rw [← ordered.size_eq, Observer.node, ← forget_after]
  rfl

theorem after_inOrder (reads : observer.ReadsOnly) (text : String) (state : σ) {n : Nat}
    (within : n ≤ (tokenize text).1.length) :
    (after observer.recorded text (state, []) n).InOrder (spelled text) n := by
  -- Strong, since each open element has the node that was the next one when its token came.
  induction n using Nat.strong_induction_on with
  | _ n ih =>
    cases n with
    | zero => exact begun_inOrder reads (spelled text) state
    | succ n =>
      have early : n ≤ (tokenize text).1.length := by omega
      have ordered := ih n (Nat.lt_succ_self n) early
      have held := List.getElem?_eq_getElem (Nat.lt_of_succ_le within)
      have first : (begun observer.recorded (state, [])).Ordered fun _ => True :=
        ⟨(begun_inOrder reads (spelled text) state).sound, trivial, trivial⟩
      have nested := (after_ordered reads.recorded.appends first early).nested
      have follows := after_follows reads.editsOnly text state early
      have numbered : ∀ k ∈ openAfter (told (spelled text) n),
          observer.node text state k = nodeNumber (spelled text) k := by
        intro k opened
        have before := follows.early k opened
        exact (ih k (by omega) (by omega)).node_eq
      have around : (after observer.recorded text (state, []) n).elements.current =
          nodeAround (spelled text) n := by
        rw [current_eq, follows.nodes, nodeAround]
        exact congrArg (List.headD · Document.root) (List.map_congr_left numbered)
      rw [after_succ observer.recorded (state, []) held]
      refine ordered.feed reads nested around (empty_text_not_mem_spelled text) ?_
      rw [spelled, List.getElem?_map, held, Option.map_some]

theorem parseWith_inOrder (reads : observer.ReadsOnly) (text : String) (state : σ) :
    ∃ b : Builder (σ × List Occasion), b.InOrder (spelled text) (spelled text).length ∧
      b.doc = (parseWith observer text state).1 ∧ b.state.2 = observer.log text state := by
  have ordered := after_inOrder reads text state (Nat.le_refl _)
  have length : (spelled text).length = (tokenize text).1.length := List.length_map _
  rw [← length] at ordered
  refine ⟨_, ordered.finish reads, ?_, ?_⟩
  · rw [parseWith_recorded, parseWith_eq_finish, ← length]
    rfl
  · rw [Observer.log, parseWith_eq_finish, ← length]
    rfl

end Builder

structure BuiltInOrder (text : String) (log : List Occasion) (d : Document) : Prop where
  parsed : d = parse text
  /-- There is one node for each token but the end tags, with what stands in it. -/
  contents : d.contents = .document :: (spelled text).filterMap Token.data?
  attached : ∀ id < d.size, d.isAttached id
  preorder : d.preorder Document.root = List.range d.size
  parents : ∀ k data, (spelled text)[k]?.bind Token.data? = some data →
    d.data? (nodeNumber (spelled text) k) = some data ∧
      d.parent? (nodeNumber (spelled text) k) = some (nodeAround (spelled text) k)
  nodes : ∀ id, 0 < id → id < d.size →
    ∃ k, ((spelled text)[k]?.bind Token.data?).isSome ∧ nodeNumber (spelled text) k = id
  told : log.map Occasion.call = (story (spelled text)).map (Call.map (nodeNumber (spelled text)))
  /-- At every call there is the front of the document. -/
  fronts : ∀ o ∈ log, o.before.size ≤ d.size ∧ o.before = d.upTo o.before.size

namespace Observer

variable {observer : Observer σ}

theorem ReadsOnly.told (reads : observer.ReadsOnly) (text : String) (state : σ) :
    (observer.log text state).map Occasion.call =
      (story (spelled text)).map (Call.map (nodeNumber (spelled text))) := by
  rw [(undisturbed_of_editsOnly reads.editsOnly text state).whole]
  have length : (spelled text).length = (tokenize text).1.length := List.length_map _
  have numbered : ∀ k, (startName? (spelled text) k).isSome →
      observer.node text state k = nodeNumber (spelled text) k := by
    intro k tag
    have within := startName_lt tag
    exact (Builder.after_inOrder reads text state (by omega)).node_eq
  apply List.map_congr_left
  intro c member
  have only := (spelled_orderly text).only
  cases c with
  | startElement k => exact congrArg Call.startElement (numbered k (only k (.inl member)))
  | endElement k => exact congrArg Call.endElement (numbered k (only k (.inr member)))
  | startDocument => rfl
  | endDocument => rfl

theorem ReadsOnly.log_still (reads : observer.ReadsOnly) (text : String) (state : σ) :
    ∀ o ∈ observer.log text state, o.after = o.before := by
  obtain ⟨b, ordered, _, logged⟩ := Builder.parseWith_inOrder reads text state
  rw [← logged]
  intro o member
  exact (ordered.fronts o member).1

theorem ReadsOnly.builtInOrder (reads : observer.ReadsOnly) (text : String) (state : σ) :
    BuiltInOrder text (observer.log text state) (parseWith observer text state).1 := by
  obtain ⟨b, ordered, built, logged⟩ := Builder.parseWith_inOrder reads text state
  have contents := ordered.contents
  rw [List.take_length] at contents
  have long : ∀ {k data}, (spelled text)[k]?.bind Token.data? = some data →
      k < (spelled text).length := by
    intro k data made
    by_contra beyond
    rw [List.getElem?_eq_none (Nat.le_of_not_lt beyond)] at made
    cases made
  have order : b.doc.preorder Document.root = List.range b.doc.size := by
    rw [List.range_eq_range']
    exact ordered.rest Document.root (List.mem_cons_self ..)
  rw [← built]
  constructor
  case parsed => rw [built, parseWith_still (reads.log_still text state)]
  case contents => exact contents
  case attached =>
    intro id inside
    rw [ordered.sound.attached_iff, ← ordered.sound.mem_preorder_iff, order]
    exact List.mem_range.mpr inside
  case preorder => exact order
  case parents =>
    intro k data made
    refine ⟨?_, ordered.parents k (long made) (by rw [made]; rfl)⟩
    rw [← Document.contents_getElem, contents]
    exact getElem_nodeNumber made
  case nodes =>
    intro id below inside
    rw [ordered.size_eq] at inside
    obtain ⟨k, _, made, same⟩ := exists_nodeNumber below inside
    exact ⟨k, made, same⟩
  case told => exact reads.told text state
  case fronts =>
    rw [← logged]
    intro o member
    exact (ordered.fronts o member).2

theorem readOnly_readsOnly (observer : Observer σ) : observer.readOnly.ReadsOnly :=
  ⟨fun _ _ => rfl, fun _ _ _ => rfl, fun _ _ _ => rfl, fun _ _ => rfl⟩

end Observer

/-- If no call changes the tree, the document of a text grows by one node for each token but the
end tags, and is at every call the front of what it becomes. -/
theorem built_token_by_token {observer : Observer σ} {text : String} {state : σ}
    (still : ∀ o ∈ observer.log text state, o.after = o.before) :
    BuiltInOrder text (observer.log text state) (parseWith observer text state).1 := by
  have same := parseWith_readOnly still
  have logged : observer.log text state = observer.readOnly.log text state :=
    congrArg (fun run => run.2.2) same
  have built : (parseWith observer text state).1 = (parseWith observer.readOnly text state).1 := by
    rw [parseWith_recorded, same, parseWith_recorded observer.readOnly]
  rw [logged, built]
  exact observer.readOnly_readsOnly.builtInOrder text state

theorem parse_builtInOrder (text : String) :
    BuiltInOrder text (Observer.log ({} : Observer Unit) text ()) (parse text) :=
  Observer.ReadsOnly.builtInOrder ⟨fun _ _ => rfl, fun _ _ _ => rfl, fun _ _ _ => rfl,
    fun _ _ => rfl⟩ text ()

def counter : Observer Nat where
  startElement _ := fun d n => (d, n + 1)

theorem counter_readsOnly : counter.ReadsOnly :=
  ⟨fun _ _ => rfl, fun _ _ _ => rfl, fun _ _ _ => rfl, fun _ _ => rfl⟩

theorem counter_built :
    (∀ o ∈ counter.log "<p>a<br></i>b</p>" 0, o.after = o.before) ∧
      let d := (parseWith counter "<p>a<br></i>b</p>" 0).1
      d.contents = [.document, .element ⟨"p", []⟩, .text "a", .element ⟨"br", []⟩, .text "b"] ∧
        d.parent? 4 = some 1 := by
  have still := counter_readsOnly.log_still "<p>a<br></i>b</p>" 0
  have built := built_token_by_token still
  have tokens : spelled "<p>a<br></i>b</p>" = [.startTag "p" [] false false, .text "a",
      .startTag "br" [] true false, .endTag "i", .text "b", .endTag "p"] := by
    rw [spelled_eq]
    cbv
  refine ⟨still, ?_, ?_⟩
  · rw [built.contents, tokens]
    rfl
  · have parents := built.parents 4
    rw [tokens] at parents
    exact (parents _ rfl).2

end PageFilters
