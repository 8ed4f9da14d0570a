import PageFilters.Proofs.Filter.Outcomes
import PageFilters.Proofs.Filter.Streaming
import PageFilters.Proofs.Filter.Stripping
import PageFilters.Proofs.Markup.Lockstep
import PageFilters.Proofs.Markup.Remainder

/-!
What decides which image of a page is promoted. The decision is made at the start tag of the image
and final: whatever text follows the tag, the same image is promoted, and the page begins with the
same markup, up to and including the promoted tag.
-/

namespace PageFilters

theorem Document.Stands.htmlUpTo_eq {d d' : Document} {p id : NodeId} {e : Element} {src : String}
    (stands : d.Stands p id [src] e d') (linked : d.Linked) (inside : p < d.size) :
    ∃ before,
      d'.htmlUpTo id = before ++ (Element.preloading src).startTag ++ e.startTag := by
  obtain ⟨links, grown, each, held, _⟩ := stands
  cases each with
  | @cons link _ links _ first none =>
    cases none
    obtain ⟨linkHeld, leaf⟩ := first
    have tree : d'.subtree link = .node (.element (Element.preloading src)) [] := by
      rw [grown.sound.subtree_eq, dataAt, linkHeld, forest, leaf]
      rfl
    have tag : d'.opening id = e.startTag := by simp [opening, element?, held]
    have void : isVoid (Element.preloading src).name = true := by rfl
    have written : Tree.htmlAll (d'.holdsRawtext p) ([link].map d'.subtree) =
        (Element.preloading src).startTag := by
      simp [tree, Tree.htmlAll, Tree.html, void]
    refine ⟨d'.htmlUpTo p ++ Tree.htmlAll (d'.holdsRawtext p) (d.forest p), ?_⟩
    rw [grown.htmlUpTo_last linked inside, Tree.htmlAll_append, written, tag]
    simp only [String.append_assoc]

section

variable [UrlLibrary]

theorem ImagePriority.onStart_changes (id : NodeId) (cx : Context) (page : Page)
    (f : ImagePriority) :
    (f.onStart id cx page).1 = page ∨ 1 ≤ (f.onStart id cx page).2.promoted := by
  unfold onStart
  split
  · exact .inl rfl
  · exact .inl rfl
  · split
    · exact .inl rfl
    · exact .inr (Nat.succ_le_succ (Nat.zero_le _))

namespace Chain

variable {c c' : Chain Builtin} {text : String} {k : Nat} {e : Element} {src : String}

def Single (c : Chain Builtin) : Prop :=
  c.kinds = [.imagePriority]

theorem Single.filter (single : c.Single) : ∃ f : ImagePriority, c.filters = [.inl f] := by
  obtain ⟨f, filters, kind⟩ := List.map_eq_singleton_iff.mp single
  cases f with
  | inl f => exact ⟨f, filters⟩
  | inr f => cases kind

theorem single_kept : Observer.Keeps (observer : Observer (Chain Builtin)) Single := by
  constructor
  · intro id d c single
    exact (onStartElement_sameMake c id d).kinds.symm.trans single
  · intro id d c single
    exact (onEndElement_sameMake c id d).kinds.symm.trans single
  · intro what c single
    exact single

theorem Single.ended (single : c.Single) (id : NodeId) (d : Document) :
    (onEndElement id d c).1 = d := by
  obtain ⟨f, filters⟩ := single.filter
  rw [onEndElement_single filters]
  exact congrArg Page.doc (ImagePriority.onEnd_keeps id c.context (c.page d) f).1

theorem single_appends : Observer.Appends (observer : Observer (Chain Builtin)) Single := by
  constructor
  case toKeeps => exact single_kept
  case started =>
    intro d p e c sound container single
    obtain ⟨srcs, e', ⟨links, grown, _, held, _⟩, dressed, _⟩ :=
      onStartElement_begun (c := c) (e := e) sound container
    exact ⟨links, e', dressed.name, grown, held⟩
  case ended =>
    intro id d c single
    exact single.ended id d

theorem Single.started (single : c.Single) (id : NodeId) (d : Document) :
    (onStartElement id d c).1 = d ∨ (onStartElement id d c).2.Promoted := by
  obtain ⟨f, filters⟩ := single.filter
  rw [onStartElement_single filters]
  rcases f.onStart_changes id (c.follow d id).context ((c.follow d id).page d) with same | done
  · exact .inl (congrArg Page.doc same)
  · exact .inr ⟨_, rfl, done⟩

theorem Single.promotes (single : c.Single) {d : Document} {p : NodeId} (sound : d.WellFormed)
    (container : d.IsContainer p) :
    let watching : Observer (Chain Builtin) := observer
    let started := watching.startElement d.size (d.attachNew p (.element e)) c
    let ended := watching.endElement d.size started.1 started.2
    (d.attachNew p (.element e)).promoteImage? d.size src = some started.1 →
      d.Stands p d.size [src] e.promoted ended.1 ∧ ended.2.Promoted := by
  intro watching started ended chosen
  have grown := Document.attachNew_extends sound container (.element e)
  have stood := Document.attachNew_stands sound container e
  obtain ⟨made, done, stands⟩ := stood.promoteImage sound.toLinked container src
  rw [chosen] at done
  cases done
  have promoted : started.2.Promoted := by
    refine (single.started d.size _).resolve_left ?_
    intro same
    have larger := Document.size_promoteImage grown.sound chosen
    rw [show started.1 = _ from same] at larger
    omega
  refine ⟨?_, promoted_quiet.endElement _ _ _ promoted⟩
  rw [show ended.1 = started.1 from promoted_quiet.ended _ _ _ promoted]
  exact stands

theorem Promoted.endDocument (promoted : c.Promoted) (d : Document) :
    (onEndDocument d c).2.Promoted := by
  obtain ⟨f, filters, done⟩ := promoted
  rw [onEndDocument_single filters]
  exact ⟨f, rfl, done⟩

structure PromotesOnce (x : Chain Builtin × List Occasion) : Prop where
  single : x.1.Single
  known : ∀ o ∈ x.2, o.Did .imagePriority → x.1.Promoted
  once : x.2.Pairwise fun o o' => ¬ (o.Did .imagePriority ∧ o'.Did .imagePriority)

theorem PromotesOnce.call {log : List Occasion} (before : PromotesOnce (c, log))
    {call : Call NodeId} {d d' : Document} (sound : d.WellFormed) (single : c'.Single)
    (still : c.Promoted → c'.Promoted ∧ d' = d) (changes : d' = d ∨ c'.Promoted) :
    PromotesOnce (c', log ++ [⟨call, d, d'⟩]) := by
  obtain ⟨_, known, once⟩ := before
  constructor
  case single => exact single
  case known =>
    intro o member did
    rcases List.mem_append.mp member with old | new
    · exact (still (known o old did)).1
    · rw [List.mem_singleton.mp new] at did
      exact changes.resolve_left (did.changes sound)
  case once =>
    refine List.pairwise_append.mpr ⟨once, List.pairwise_singleton .., ?_⟩
    intro o old o' new ⟨did, did'⟩
    rw [List.mem_singleton.mp new] at did'
    exact did'.changes sound (still (known o old did)).2

theorem parseWith_promotesOnce (single : c.Single) (text : String) :
    PromotesOnce (parseWith (observer : Observer (Chain Builtin)).recorded text (c, [])).2 := by
  refine parseWith_kept (observer_editsOnly Builtin.editsOnly).recorded (P := PromotesOnce)
    ?_ ?_ ?_ ?_ ?_ text
  · constructor
    case single => exact (onStartDocument_sameMake c .empty).kinds.symm.trans single
    case known =>
      rintro o member ⟨_, _, starts, _⟩
      rw [List.mem_singleton.mp member] at starts
      cases starts
    case once => exact List.pairwise_singleton ..
  · rintro d p e ⟨c, log⟩ sound container once
    have grown := Document.attachNew_extends sound container (.element e)
    refine once.call grown.sound (single_kept.startElement _ _ _ once.single) ?_
      (once.single.started _ _)
    intro promoted
    exact ⟨promoted_quiet.startElement _ _ _ promoted, promoted_quiet.started _ _ _ promoted⟩
  · rintro id d ⟨c, log⟩ sound once
    have same := once.single.ended id d
    refine once.call sound (single_kept.endElement _ _ _ once.single) ?_ (.inl same)
    intro promoted
    exact ⟨promoted_quiet.endElement _ _ _ promoted, same⟩
  · rintro what ⟨c, log⟩ ⟨single, known, once⟩
    exact ⟨single, known, once⟩
  · rintro d ⟨c, log⟩ sound once
    have same := (onEndDocument_doc c d).1
    refine once.call sound ((onEndDocument_sameMake c d).kinds.symm.trans once.single) ?_
      (.inl same)
    intro promoted
    exact ⟨promoted.endDocument d, same⟩

theorem promotes_only (single : c.Single) {o o' : Occasion}
    (member : o ∈ Observer.log observer text c) (did : o.Did .imagePriority)
    (member' : o' ∈ Observer.log observer text c) (did' : o'.Did .imagePriority) : o' = o := by
  by_contra other
  have once := (parseWith_promotesOnce single text).once
  have symmetric : Std.Symm fun o o' : Occasion =>
      ¬ (o.Did .imagePriority ∧ o'.Did .imagePriority) := ⟨fun _ _ never both => never both.symm⟩
  exact once.forall member' member other ⟨did', did⟩

/-- The tag number `k` of a text is the start tag of `e`, an image that gets promoted. -/
structure PromotesAt (c : Chain Builtin) (text : String) (k : Nat) (e : Element) (src : String) :
    Prop where
  tag : ∃ selfClosing slashed,
    (spelled text)[k]? = some (.startTag e.name e.attributes selfClosing slashed)
  promoted : ∃ o ∈ Observer.log observer text c, o.Promotes (observer.node text c k) src

theorem calm (c : Chain Builtin) (text : String) :
    Observer.Undisturbed (observer : Observer (Chain Builtin)) text c :=
  Observer.undisturbed_of_editsOnly (observer_editsOnly Builtin.editsOnly) text c

theorem PromotesAt.void (promotes : c.PromotesAt text k e src) :
    ∃ slashed, (spelled text)[k]? = some (.startTag e.name e.attributes true slashed) := by
  obtain ⟨⟨selfClosing, slashed, held⟩, o, member, call, image, _⟩ := promotes
  have shown := (calm c text).shown_as held member call
  rw [keyword_of_element shown] at image
  obtain ⟨void, named, _⟩ := spelled_startTag (List.mem_of_getElem? held)
  rw [void, named.void_of_image (Option.some.inj image)] at held
  exact ⟨slashed, held⟩

structure HasPromoted (c : Chain Builtin) (text : String) (k : Nat) (e : Element) (src : String) :
    Prop where
  within : k + 1 ≤ (tokenize text).1.length
  ordered : (Builder.after observer text c k).Ordered Single
  stands :
    let b := Builder.after observer text c k
    b.doc.Stands (b.nodes.headD Document.root) b.doc.size [src] e.promoted
      (Builder.after observer text c (k + 1)).doc
  nodes : (Builder.after observer text c (k + 1)).nodes = (Builder.after observer text c k).nodes
  state : (Builder.after observer text c (k + 1)).state.Promoted
  told : ∃ o ∈ (Builder.after (observer : Observer (Chain Builtin)).recorded text (c, [])
    (k + 1)).state.2, o.Promotes (observer.node text c k) src

theorem begun_ordered (single : c.Single) :
    (Builder.begun (observer : Observer (Chain Builtin)) c).Ordered Single := by
  have doc : (Builder.begun (observer : Observer (Chain Builtin)) c).doc = .empty :=
    (onStartDocument_doc c .empty).1
  exact ⟨doc ▸ Document.empty_wellFormed, trivial,
    (onStartDocument_sameMake c .empty).kinds.symm.trans single⟩

theorem PromotesAt.hasPromoted (promotes : c.PromotesAt text k e src) (single : c.Single) :
    c.HasPromoted text k e src := by
  obtain ⟨slashed, held⟩ := promotes.void
  obtain ⟨_, o, member, chosen⟩ := promotes
  have within : k + 1 ≤ (tokenize text).1.length := by
    have bound := (List.getElem?_eq_some_iff.mp held).1
    rwa [spelled, List.length_map] at bound
  have ordered := Builder.after_ordered single_appends (begun_ordered single)
    (Nat.le_of_succ_le within)
  have logged := Builder.after_void_log (observer : Observer (Chain Builtin)) c held
  have inside := (Builder.after_log (observer : Observer (Chain Builtin)) text c within).subset
    logged
  have tag : (startName? (spelled text) k).isSome := by
    simp [startName?, held, Token.startName?]
  have same := eq_of_count_one ((calm c text).told_once tag) member inside chosen.1
  rw [same] at chosen
  obtain ⟨stands, promoted⟩ :=
    ordered.holds.promotes ordered.sound ordered.container chosen.2.2
  obtain ⟨doc, nodes, state⟩ := Builder.after_void (observer : Observer (Chain Builtin)) c held
  constructor
  case within => exact within
  case ordered => exact ordered
  case stands =>
    rw [doc]
    exact stands
  case nodes => exact nodes
  case state =>
    rw [state]
    exact promoted
  case told => exact ⟨_, logged, chosen⟩

theorem HasPromoted.front (done : c.HasPromoted text k e src) :
    let image := observer.node text c k
    let read := (Builder.after observer text c (k + 1)).doc
    let d := (parseWith observer text c).1
    (∃ before, read.htmlUpTo image =
        before ++ (Element.preloading src).startTag ++ e.promoted.startTag) ∧
      d.htmlUpTo image = read.htmlUpTo image ∧
      d.element? image = some e.promoted ∧
      ∃ after, d.html = d.htmlUpTo image ++ after := by
  intro image read d
  obtain ⟨within, ordered, stands, nodes, promoted, _⟩ := done
  have linked := ordered.sound.toLinked
  have inside := ordered.container.lt_size
  have before := stands.htmlUpTo_eq linked inside
  obtain ⟨links, grown, _, held, _⟩ := stands
  have nested : read.Nested (Builder.after observer text c (k + 1)).nodes :=
    nodes ▸ ordered.nested.extended grown
  have parent : read.parent? image =
      some ((Builder.after observer text c (k + 1)).nodes.headD Document.root) := by
    rw [nodes, grown.sound.parent_iff]
    exact grown.mem_children inside (List.mem_append_right links (List.mem_singleton.mpr rfl))
  have small : image < read.size := Document.lt_size_of_data held
  have keeps : read.KeepsFront image d := by
    have resumed := Builder.parseWith_resume (observer : Observer (Chain Builtin)) text c within
    have same : d = _ := (congrArg Prod.fst resumed).trans (onEndDocument_doc _ _).1
    rw [same]
    refine Outline.resume_keepsFront promoted_quiet _
      (x := (Builder.after observer text c (k + 1)).pair) promoted grown.sound small ?_
    intro q member
    have way := nested.reaches grown.sound.toLinked q member
    exact ⟨way.tail ((grown.sound.parent_iff _ _).mp parent),
      nested.containers grown.sound.toLinked q member⟩
  have element : d.data? image = some (.element e.promoted) := by
    rw [keeps.data image small]
    exact held
  obtain ⟨after, whole⟩ := keeps.html_front nested.written parent held
  refine ⟨before, keeps.front, ?_, after, ?_⟩
  · simp [Document.element?, element]
  · rw [keeps.front]
    exact whole

theorem after_alike (begun : Alongside Alike (onStartDocument .empty c') (onStartDocument .empty c))
    {start rest : String} {n : Nat} {token : Token AtomId}
    (held : (tokenize (start ++ rest)).1[n]? = some token) (tag : ∀ text, token ≠ .text text)
    (left : ((Tokenizer.ofText (start ++ rest)).asked (n + 1)).rest = rest.toList)
    (long : rest ≠ "") (rest' : String) {m : Nat} (early : m ≤ n + 1) :
    let noting := (observer : Observer (Chain Builtin)).recorded
    (Builder.after noting (start ++ rest') (c', []) m).Alongside
      (fun x y => x.1.Alike y.1 ∧ x.2 = y.2) (Builder.after noting (start ++ rest) (c, []) m) := by
  have along := Builder.after_matches_recorded observer_matches begun (start ++ rest') m
  rw [Builder.after_settled _ (c, []) held tag left long rest' early] at along
  exact along

theorem PromotesAt.settled (begun : Alongside Alike (onStartDocument .empty c')
      (onStartDocument .empty c)) {start rest : String}
    (promotes : c.PromotesAt (start ++ rest) k e src) (single : c.Single)
    (left : ((Tokenizer.ofText (start ++ rest)).asked (k + 1)).rest = rest.toList)
    (long : rest ≠ "") (rest' : String) :
    c'.PromotesAt (start ++ rest') k e src ∧
      ((Tokenizer.ofText (start ++ rest')).asked (k + 1)).rest = rest'.toList ∧
      observer.node (start ++ rest') c' k = observer.node (start ++ rest) c k ∧
      (Builder.after observer (start ++ rest') c' (k + 1)).doc =
        (Builder.after observer (start ++ rest) c (k + 1)).doc := by
  obtain ⟨o, told, chosen⟩ := (promotes.hasPromoted single).told
  obtain ⟨⟨selfClosing, slashed, spelt⟩, _⟩ := promotes
  have held := spelt
  rw [spelled, List.getElem?_map, Option.map_eq_some_iff] at held
  obtain ⟨token, held, names⟩ := held
  have tag : ∀ text, token ≠ .text text := by
    rintro text rfl
    cases names
  obtain ⟨asked, _, _, within⟩ := tokenize_settled held tag left long rest'
  have recorded := fun m (early : m ≤ k + 1) => after_alike begun held tag left long rest' early
  have doc : ∀ m ≤ k + 1, (Builder.after observer (start ++ rest') c' m).doc =
      (Builder.after observer (start ++ rest) c m).doc := by
    intro m early
    rw [← Builder.forget_after observer (start ++ rest'),
      ← Builder.forget_after observer (start ++ rest)]
    exact (recorded m early).doc
  have node : observer.node (start ++ rest') c' k = observer.node (start ++ rest) c k :=
    congrArg Document.size (doc k (Nat.le_succ k))
  have tag' : (spelled (start ++ rest'))[k]? = (spelled (start ++ rest))[k]? := by
    have same := congrArg (·[k]?) (spelled_settled held tag left long rest')
    simpa using same
  refine ⟨⟨⟨selfClosing, slashed, tag'.trans spelt⟩, o, ?_, ?_⟩, ?_, node, doc _ (Nat.le_refl _)⟩
  · apply (Builder.after_log observer (start ++ rest') c' within).subset
    rw [(recorded (k + 1) (Nat.le_refl _)).state.2]
    exact told
  · rw [node]
    exact chosen
  · rw [asked]

/-- Once an image has been promoted whose tag ends where `start` ends, the same image is promoted
whatever follows `start`, and no other; and all these pages begin alike, up to and including the tag
of the image. -/
theorem promotion_causal {c : Chain Builtin} (single : c.kinds = [.imagePriority])
    {url : String} {documentUrl : Url} (accepted : Url.parse url = .ok documentUrl)
    {start rest : String} (long : rest ≠ "") {k : Nat} {e : Element} {src : String}
    (promotes : (c.opened documentUrl (start ++ rest)).PromotesAt (start ++ rest) k e src)
    (cursor : ((Tokenizer.ofText (start ++ rest)).asked (k + 1)).rest = rest.toList) :
    ∃ before, ∀ rest',
      let text := start ++ rest'
      let opened := c.opened documentUrl text
      let image := observer.node text opened k
      opened.PromotesAt text k e src ∧
        ((Tokenizer.ofText text).asked (k + 1)).rest = rest'.toList ∧
        (∀ o ∈ observer.log text opened, ∀ id other, o.Promotes id other → id = image) ∧
        ∃ d after, (c.parse url text).1 = .ok d ∧
          d.element? image = some e.promoted ∧
          d.htmlUpTo image =
            before ++ (Element.preloading src).startTag ++ e.promoted.startTag ∧
          (c.run url text).1 = .ok (d.htmlUpTo image ++ after) := by
  have alone : ∀ text, (c.opened documentUrl text).Single := fun _ => single
  obtain ⟨⟨before, front⟩, _⟩ := (promotes.hasPromoted (alone _)).front
  refine ⟨before, ?_⟩
  intro rest' text opened image
  have same : opened.SameMake (c.opened documentUrl (start ++ rest)) := ⟨rfl, rfl, rfl⟩
  obtain ⟨promotes', cursor', node, doc⟩ :=
    promotes.settled (same.begun rfl rfl .empty) (alone _) cursor long rest'
  obtain ⟨_, kept, element, after, whole⟩ := (promotes'.hasPromoted (alone text)).front
  refine ⟨promotes', cursor', ?_, _, after, ?_, element, ?_, ?_⟩
  · intro o member id other chosen
    obtain ⟨first, listed, promoted⟩ := promotes'.promoted
    have same := promotes_only (alone text) listed ⟨_, _, promoted⟩ member ⟨_, _, chosen⟩
    have call := chosen.1.symm.trans (same ▸ promoted.1)
    cases call
    rfl
  · rw [parse_opened c accepted]
  · rw [kept, doc, node, front]
  · rw [run_opened c accepted, whole]

end Chain

end

namespace Chain

theorem promotesAt_example {documentUrl : Url}
    (accepted : Url.parse "https://a.example/" = .ok documentUrl) :
    let c := Chain.ofOptions Builtin.ofKind (({} : Options).enable .imagePriority)
    let text := "<body><img src=a.png>" ++ "x"
    (c.opened documentUrl text).PromotesAt text 1 ⟨"img", [⟨"src", some "a.png", .unquoted⟩]⟩
      "a.png" := by
  intro c text
  rw [parse_example] at accepted
  cases accepted
  let e : Element := ⟨"img", [⟨"src", some "a.png", .unquoted⟩]⟩
  have spelt : spelled text = [.startTag "body" [] false false,
      .startTag e.name e.attributes true false, .text "x"] := by
    rw [spelled_eq]
    cbv
  have held : (spelled text)[1]? = some (.startTag e.name e.attributes true false) := by
    rw [spelt]
    rfl
  have within : 2 ≤ (tokenize text).1.length := by
    rw [← List.length_map (Token.rename (tokenize text).2.resolve), ← spelled, spelt]
    decide
  have first : ∀ state : Chain Builtin, Builder.after observer text state 1 =
      (Builder.begun observer state).feed observer ⟨["body"]⟩ (.startTag 0 [] false false) := by
    intro state
    have next : (Tokenizer.ofText text).next =
        (some (.startTag 0 [] false false), (Tokenizer.ofText text).asked 1) := by cbv
    have tokens : (tokenize text).1 = _ := congrArg Prod.fst (Tokenizer.run_some next)
    have atoms : ((Tokenizer.ofText text).asked 1).atoms = ⟨["body"]⟩ := by cbv
    rw [Builder.after_eq_asked _ _ (Nat.le_of_succ_le within) (Nat.le_refl 1), tokens, atoms]
    rfl
  refine ⟨⟨true, false, held⟩, _,
    (Builder.after_log _ _ _ within).subset (Builder.after_void_log _ _ held), rfl, ?_, ?_⟩
  · rw [Observer.node, first]
    decide +kernel
  · rw [Observer.node, first]
    decide +kernel

theorem page_begins_alike :
    let c := Chain.ofOptions Builtin.ofKind (({} : Options).enable .imagePriority)
    let image : Element := ⟨"img", [⟨"src", some "a.png", .unquoted⟩]⟩
    c.kinds = [.imagePriority] ∧ "x" ≠ "" ∧
      ((Tokenizer.ofText ("<body><img src=a.png>" ++ "x")).asked 2).rest = "x".toList ∧
      ∃ before, ∀ rest', ∃ after,
        (c.run "https://a.example/" ("<body><img src=a.png>" ++ rest')).1 =
          .ok (before ++ (Element.preloading "a.png").startTag ++ image.promoted.startTag ++
            after) := by
  intro c image
  have single : c.kinds = [.imagePriority] := rfl
  have cursor : ((Tokenizer.ofText ("<body><img src=a.png>" ++ "x")).asked 2).rest =
      "x".toList := by cbv
  obtain ⟨before, alike⟩ := promotion_causal single parse_example (by decide)
    (promotesAt_example parse_example) cursor
  refine ⟨single, by decide, cursor, before, ?_⟩
  intro rest'
  obtain ⟨_, _, _, d, after, _, _, front, ran⟩ := alike rest'
  exact ⟨after, by rw [ran, front]⟩

end Chain

end PageFilters
