import PageFilters.Markup.Build
import PageFilters.Markup.Edit
import PageFilters.Proofs.Document.Attach
import PageFilters.Proofs.Document.Detach

/-!
What holds of every document that can come about. Parents, child lists and flags tell the same
story, whatever edits are tried on whatever numbers: each edit keeps it, so every list of edits
does, and the builder works by edits.
-/

namespace PageFilters

def NodeData.mapElement (f : Element → Element) : NodeData → NodeData
  | .element e => .element (f e)
  | data => data

namespace Document

structure WellFormed (d : Document) : Prop extends Linked d where
  deleted_orphan : ∀ id, d.isDeleted id = true → d.parent? id = none
  attached_iff : ∀ id, d.isAttached id = true ↔ d.Reaches root id

theorem empty_wellFormed : empty.WellFormed := by
  have none_listed : ∀ p, empty.children p = [] := by
    intro p
    cases p <;> rfl
  have no_parent : ∀ c, empty.parent? c = none := by
    intro c
    cases c <;> rfl
  refine ⟨⟨rfl, rfl, ?_, ?_, ?_, ?_⟩, ?_, ?_⟩
  · intro p c
    simp [none_listed, no_parent]
  · intro p
    simp [none_listed]
  · intro p some
    exact absurd (none_listed p) some
  · intro id cycle
    obtain ⟨p, parent, _⟩ := Relation.TransGen.head'_iff.mp cycle
    simp [no_parent] at parent
  · intro id _
    exact no_parent id
  · intro id
    constructor
    · intro attached
      cases id with
      | zero => exact .refl
      | succ id => cases attached
    · intro way
      rcases way.cases_head with same | ⟨c, listed, _⟩
      · rw [← same]
        rfl
      · simp [none_listed] at listed

section

variable (d : Document) (data : NodeData) (x : NodeId)

theorem data_create :
    (d.create data).2.data? x = if x = d.size then some data else d.data? x := by
  rw [data?, slot_create]
  split <;> rfl

theorem parent_create : (d.create data).2.parent? x = d.parent? x := by
  rw [parent?, slot_create]
  split
  · next same => rw [parent_eq_none_of_size_le (Nat.le_of_eq same.symm)]; rfl
  · rfl

theorem children_create : (d.create data).2.children x = d.children x := by
  rw [children, slot_create]
  split
  · next same => rw [children_eq_nil_of_size_le (Nat.le_of_eq same.symm)]; rfl
  · rfl

theorem isAttached_create : (d.create data).2.isAttached x = d.isAttached x := by
  rw [isAttached, slot_create]
  split
  · next same => rw [isAttached_eq_false_of_size_le (Nat.le_of_eq same.symm)]; rfl
  · rfl

theorem isDeleted_create : (d.create data).2.isDeleted x = d.isDeleted x := by
  rw [isDeleted, slot_create]
  split
  · next same => simp [isDeleted, slot?, Array.getElem?_eq_none (Nat.le_of_eq same.symm)]
  · rfl

end

theorem create_wellFormed {d : Document} (sound : d.WellFormed) (data : NodeData) :
    (d.create data).2.WellFormed := by
  have kept : ∀ {x held}, d.data? x = some held → (d.create data).2.data? x = some held := by
    intro x held old
    rw [data_create, if_neg (Nat.ne_of_lt (lt_size_of_data old)), old]
  refine ⟨⟨kept sound.root_data, ?_, ?_, ?_, ?_, ?_⟩, ?_, ?_⟩
  · rw [parent_create, sound.root_orphan]
  · simpa only [parent_create, children_create] using sound.parent_iff
  · simpa only [children_create] using sound.listed_once
  · intro p some
    rw [children_create] at some
    obtain ⟨held, old, container⟩ := sound.container p some
    exact ⟨held, kept old, container⟩
  · simpa only [parent_create] using sound.acyclic
  · simpa only [parent_create, isDeleted_create] using sound.deleted_orphan
  · simpa only [isAttached_create, Reaches, children_create] using sound.attached_iff

theorem attach_wellFormed {d d' : Document} (sound : d.WellFormed) {p c : NodeId}
    {before after : List NodeId} (legal : d.Attachable p c)
    (attaches : Attaches d d' p c before after) : d'.WellFormed := by
  have linked := attaches.linked sound.toLinked legal
  have outside : ¬ d.Reaches root c := by
    intro way
    rcases way.cases_tail with same | ⟨q, _, listed⟩
    · exact legal.not_root same
    · have parent := (sound.parent_iff q c).mpr listed
      rw [legal.orphan] at parent
      cases parent
  refine ⟨linked, ?_, ?_⟩
  · intro x deleted
    rw [attaches.deleted] at deleted
    rw [attaches.parent, if_neg]
    · exact sound.deleted_orphan x deleted
    · intro same
      rw [same, legal.kept] at deleted
      cases deleted
  · intro x
    rw [attaches.attached, attaches.reaches, sound.attached_iff, sound.attached_iff]
    by_cases under : d.Reaches c x
    · have unreached : ¬ d.Reaches root x := by
        intro way
        have above := sound.reaches_iff_climbs.mp way
        have climbs := sound.reaches_iff_climbs.mp under
        have unique : Relator.RightUnique fun c p => d.parent? c = some p := fun _ _ _ one two =>
          Option.some.inj (one.symm.trans two)
        rcases Relation.ReflTransGen.total_of_right_unique unique above climbs with up | up
        · rcases up.cases_head with same | ⟨q, parent, _⟩
          · exact legal.not_root same.symm
          · rw [sound.root_orphan] at parent
            cases parent
        · exact outside (sound.reaches_iff_climbs.mpr up)
      simp [under, unreached]
    · simp [under]

theorem detach_wellFormed {d d' : Document} (sound : d.WellFormed) {p c : NodeId}
    {before after : List NodeId} (detaches : Detaches d d' p c before after) : d'.WellFormed := by
  refine ⟨detaches.linked sound.toLinked, ?_, ?_⟩
  · intro x deleted
    rw [detaches.parent]
    split
    · rfl
    · next other =>
      rw [detaches.deleted] at deleted
      exact sound.deleted_orphan x (by simpa [other] using deleted)
  · intro x
    rw [detaches.attached, detaches.root_reaches sound.toLinked, sound.attached_iff, and_comm]

theorem data_modifyElement (d : Document) (id x : NodeId) (f : Element → Element) :
    (d.modifyElement id f).data? x =
      if x = id then (d.data? x).map (NodeData.mapElement f) else d.data? x := by
  rw [data?, modifyElement, slot_modifySlot]
  by_cases here : x = id
  · subst here
    cases held : d.slot? x with
    | none => simp [data?, held]
    | some slot =>
      obtain ⟨data, _, _, _, _⟩ := slot
      cases data <;> simp [data?, held, NodeData.mapElement]
  · rw [if_neg (Ne.symm here), if_neg here, data?]

theorem sameShape_modifyElement (d : Document) (id x : NodeId) (f : Element → Element) :
    (d.modifyElement id f).parent? x = d.parent? x ∧
      (d.modifyElement id f).children x = d.children x ∧
      (d.modifyElement id f).isAttached x = d.isAttached x ∧
      (d.modifyElement id f).isDeleted x = d.isDeleted x := by
  refine ⟨parent_modifySlot d id x ?_, children_modifySlot d id x ?_,
    isAttached_modifySlot d id x ?_, isDeleted_modifySlot d id x ?_⟩ <;>
  · intro slot
    split <;> rfl

theorem modify_wellFormed {d : Document} (sound : d.WellFormed) (id : NodeId)
    (f : Element → Element) : (d.modifyElement id f).WellFormed := by
  have shape := fun x => sameShape_modifyElement d id x f
  refine ⟨⟨?_, ?_, ?_, ?_, ?_, ?_⟩, ?_, ?_⟩
  · rw [data_modifyElement, sound.root_data]
    split <;> rfl
  · rw [(shape root).1, sound.root_orphan]
  · intro p c
    rw [(shape c).1, (shape p).2.1, sound.parent_iff]
  · intro p
    rw [(shape p).2.1]
    exact sound.listed_once p
  · intro p some
    rw [(shape p).2.1] at some
    obtain ⟨held, old, container⟩ := sound.container p some
    rw [data_modifyElement, old]
    split
    · refine ⟨_, rfl, ?_⟩
      cases held <;> exact container
    · exact ⟨held, rfl, container⟩
  · intro x cycle
    apply sound.acyclic x
    simpa only [(shape _).1] using cycle
  · intro x deleted
    rw [(shape x).2.2.2] at deleted
    rw [(shape x).1]
    exact sound.deleted_orphan x deleted
  · intro x
    rw [(shape x).2.2.1, sound.attached_iff]
    simp only [Reaches, (shape _).2.1]

/-- What the edit `e` makes of `d`. One that moves a node is refused, or it attaches that node, or
it takes it out. -/
inductive Makes (d : Document) : Edit → Document → Prop where
  | created (data : NodeData) : Makes d (.create data) (d.create data).2
  | modified (node : NodeId) (change : Element → Element) :
      Makes d (.modify node change) (d.modifyElement node change)
  | refused {e : Edit} (refused : d.edit? e = none) : Makes d e d
  | attached {e : Edit} {d' : Document} {p c : NodeId} {before after : List NodeId}
      (other : ∀ id, e ≠ .delete id) (legal : d.Attachable p c)
      (attaches : Attaches d d' p c before after) : Makes d e d'
  | detached {d' : Document} {p c : NodeId} {before after : List NodeId}
      (done : d.delete? c = some d') (parent : d.parent? c = some p)
      (detaches : Detaches d d' p c before after) : Makes d (.delete c) d'

theorem edit_makes {d : Document} (linked : d.Linked) (e : Edit) : d.Makes e (d.edit e) := by
  cases e with
  | create data => exact .created data
  | modify node change => exact .modified node change
  | append parent child =>
    rw [edit]
    cases done : d.edit? (.append parent child) with
    | none => exact .refused done
    | some d' =>
      obtain ⟨legal, attaches⟩ := append_attaches linked done
      exact .attached nofun legal attaches
  | insertBefore anchor node =>
    rw [edit]
    cases done : d.edit? (.insertBefore anchor node) with
    | none => exact .refused done
    | some d' =>
      obtain ⟨_, _, _, _, _, legal, attaches⟩ := insertBefore_attaches linked done
      exact .attached nofun legal attaches
  | delete node =>
    rw [edit]
    cases done : d.edit? (.delete node) with
    | none => exact .refused done
    | some d' =>
      obtain ⟨_, _, _, parent, detaches⟩ := delete_detaches linked done
      exact .detached done parent detaches

theorem edit_wellFormed {d : Document} (sound : d.WellFormed) (e : Edit) :
    (d.edit e).WellFormed := by
  have makes := edit_makes sound.toLinked e
  generalize d.edit e = d' at makes ⊢
  cases makes with
  | created data => exact create_wellFormed sound data
  | modified node change => exact modify_wellFormed sound node change
  | refused _ => exact sound
  | attached _ legal attaches => exact attach_wellFormed sound legal attaches
  | detached _ _ detaches => exact detach_wellFormed sound detaches

theorem editAll_wellFormed {d : Document} (sound : d.WellFormed) (edits : List Edit) :
    (d.editAll edits).WellFormed := by
  induction edits generalizing d with
  | nil => exact sound
  | cons e edits ih => exact ih (edit_wellFormed sound e)

theorem Becomes.wellFormed {d d' : Document} (sound : d.WellFormed) (becomes : d.Becomes d') :
    d'.WellFormed := by
  obtain ⟨edits, rfl⟩ := becomes
  exact editAll_wellFormed sound edits

end Document

/-- An observer that changes documents by edits only. -/
structure Observer.EditsOnly (observer : Observer σ) : Prop where
  startDocument : ∀ (d : Document) s, d.Becomes (observer.startDocument d s).1
  startElement : ∀ id (d : Document) s, d.Becomes (observer.startElement id d s).1
  endElement : ∀ id (d : Document) s, d.Becomes (observer.endElement id d s).1
  endDocument : ∀ (d : Document) s, d.Becomes (observer.endDocument d s).1

namespace Builder

variable {observer : Observer σ}

theorem attach_becomes (data : NodeData) (b : Builder σ) :
    b.doc.Becomes (b.attach data).2.doc :=
  ⟨[.create data, .append b.elements.current b.doc.size], rfl⟩

theorem close_becomes (edits : observer.EditsOnly) (n : Nat) (b : Builder σ) :
    b.doc.Becomes (b.close observer n).doc := by
  induction n generalizing b with
  | zero => exact .refl _
  | succ n ih =>
    rw [close]
    split
    · exact .refl _
    · next node elements _ =>
      exact (edits.endElement node b.doc b.state).trans (ih _)

theorem feed_startTag (observer : Observer σ) (atoms : AtomTable) (b : Builder σ) (name : AtomId)
    (attributes : List (AttributeOf AtomId)) (selfClosing slashed : Bool) :
    ∃ noted : Builder σ,
      (noted = b ∨
        noted = { b with state := observer.ignored (.slash (atoms.resolve name)) b.state }) ∧
      b.feed observer atoms (.startTag name attributes selfClosing slashed) =
        let e : Element := ⟨atoms.resolve name, attributes.map atoms.resolveAttribute⟩
        let started := (noted.attach (.element e)).2.react (observer.startElement noted.doc.size)
        if selfClosing then started.react (observer.endElement noted.doc.size)
        else { started with elements := started.elements.push noted.doc.size name } := by
  refine ⟨_, ?_, rfl⟩
  split
  · exact .inr rfl
  · exact .inl rfl

theorem feed_becomes (edits : observer.EditsOnly) (atoms : AtomTable) (token : Token AtomId)
    (b : Builder σ) : b.doc.Becomes (b.feed observer atoms token).doc := by
  cases token with
  | doctype text => exact attach_becomes _ b
  | comment text => exact attach_becomes _ b
  | text text =>
    rw [feed]
    split
    · exact .refl _
    · exact attach_becomes _ b
  | endTag name =>
    rw [feed]
    split
    · exact .refl _
    · exact close_becomes edits _ b
  | startTag name attributes selfClosing slashed =>
    obtain ⟨noted, which, read⟩ :=
      feed_startTag observer atoms b name attributes selfClosing slashed
    have same : noted.doc = b.doc := by rcases which with rfl | rfl <;> rfl
    rw [read, ← same]
    have attached := attach_becomes
      (.element ⟨atoms.resolve name, attributes.map atoms.resolveAttribute⟩) noted
    have started := attached.trans (edits.startElement noted.doc.size _ noted.state)
    split
    · exact started.trans (edits.endElement noted.doc.size _ _)
    · exact started

theorem feedAll_becomes (edits : observer.EditsOnly) (tokens : Tokenizer) (b : Builder σ) :
    b.doc.Becomes (b.feedAll observer tokens).doc := by
  fun_induction feedAll observer tokens b with
  | case1 => exact .refl _
  | case2 tokens b token after _ ih => exact (feed_becomes edits after.atoms token b).trans ih

end Builder

theorem parseWith_reachable {observer : Observer σ} (edits : observer.EditsOnly) (text : String)
    (state : σ) : (parseWith observer text state).1.Reachable := by
  have started := edits.startDocument .empty state
  let begun : Builder σ := Builder.react observer.startDocument { doc := .empty, state }
  have fed : Document.Becomes begun.doc _ := Builder.feedAll_becomes edits (.ofText text) begun
  let built := begun.feedAll observer (.ofText text)
  have closed : Document.Becomes built.doc _ :=
    Builder.close_becomes edits built.elements.stack.length built
  exact ((started.trans fed).trans closed).trans (edits.endDocument _ _)

theorem parse_reachable (text : String) : (parse text).Reachable :=
  parseWith_reachable ⟨fun d _ => .refl d, fun _ d _ => .refl d, fun _ d _ => .refl d,
    fun d _ => .refl d⟩ text ()

theorem parse_wellFormed (text : String) : (parse text).WellFormed :=
  Document.Becomes.wellFormed Document.empty_wellFormed (parse_reachable text)

namespace Document

/-- Edits of any kind, in any order and on any numbers, legal or not, leave a new document and the
document of a text well-formed. -/
theorem every_document_wellFormed (text : String) (edits : List Edit) :
    (empty.editAll edits).WellFormed ∧ ((parse text).editAll edits).WellFormed :=
  ⟨editAll_wellFormed empty_wellFormed edits, editAll_wellFormed (parse_wellFormed text) edits⟩

end Document

end PageFilters
