import PageFilters.Proofs.Document.Writing

/-!
The front of a document: its markup up to and including the start tag of a node. What comes after
the node in the document does not show in it, so a document that grows at the end of nodes around
the node keeps its front.
-/

namespace PageFilters

theorem Tree.htmlAll_append (raw : Bool) (ts us : List (Tree NodeData)) :
    Tree.htmlAll raw (ts ++ us) = Tree.htmlAll raw ts ++ Tree.htmlAll raw us := by
  induction ts with
  | nil => simp [htmlAll]
  | cons t ts ih => rw [List.cons_append, htmlAll, htmlAll, ih, String.append_assoc]

theorem takeWhile_member {α : Type} [DecidableEq α] {a : α} {l : List α} (member : a ∈ l) :
    (∃ later, l = l.takeWhile (· != a) ++ a :: later) ∧
      ∀ more, (l ++ more).takeWhile (· != a) = l.takeWhile (· != a) := by
  induction l with
  | nil => cases member
  | cons b l ih =>
    by_cases same : b = a
    · subst same
      simp
    · have inside : a ∈ l := (List.mem_cons.mp member).resolve_left fun first => same first.symm
      obtain ⟨⟨later, split⟩, grown⟩ := ih inside
      have goes : (b != a) = true := by simpa using same
      refine ⟨⟨later, ?_⟩, ?_⟩
      · rw [List.takeWhile_cons, if_pos goes, List.cons_append, ← split]
      · intro more
        rw [List.cons_append, List.takeWhile_cons, List.takeWhile_cons, grown]

namespace Document

def opening (d : Document) (id : NodeId) : String :=
  ((d.element? id).map Element.startTag).getD ""

def holdsRawtext (d : Document) (id : NodeId) : Bool :=
  ((d.element? id).map fun e => e.keyword.isRawtext).getD false

def leftOf (d : Document) (id parent : NodeId) : String :=
  Tree.htmlAll (d.holdsRawtext parent)
    (((d.children parent).takeWhile (· != id)).map d.subtree)

/-- What is written up to and including the start tag of a node, which stands before the nodes
around it. -/
def frontOf (d : Document) : List NodeId → String
  | id :: parent :: around => d.frontOf (parent :: around) ++ d.leftOf id parent ++ d.opening id
  | _ => ""

def htmlUpTo (d : Document) (id : NodeId) : String :=
  d.frontOf (id :: d.ancestors id)

/-- A node whose children are written: the root, and an element that is not void inside such a
node. -/
inductive Written (d : Document) : NodeId → Prop where
  | root : Written d root
  | element {p id : NodeId} {e : Element} : Written d p → d.parent? id = some p →
      d.data? id = some (.element e) → isVoid e.name = false → Written d id

namespace Linked

variable {d : Document} {p id : NodeId} {e : Element}

theorem htmlUpTo_root (linked : d.Linked) : d.htmlUpTo root = "" := by
  rw [htmlUpTo, ancestors_of_orphan linked.root_orphan]
  rfl

theorem htmlUpTo_child (linked : d.Linked) (parent : d.parent? id = some p) :
    d.htmlUpTo id = d.htmlUpTo p ++ d.leftOf id p ++ d.opening id := by
  rw [htmlUpTo, linked.ancestors_of_parent parent]
  rfl

theorem holdsRawtext_root (linked : d.Linked) : d.holdsRawtext root = false := by
  simp [holdsRawtext, element?, linked.root_data]

theorem forest_split (linked : d.Linked) (parent : d.parent? id = some p) :
    ∃ later, d.forest p =
      ((d.children p).takeWhile (· != id)).map d.subtree ++ d.subtree id :: later := by
  obtain ⟨⟨later, split⟩, _⟩ := takeWhile_member ((linked.parent_iff p id).mp parent)
  refine ⟨later.map d.subtree, ?_⟩
  rw [← List.map_cons, ← List.map_append, ← split, forest]

theorem html_inside (linked : d.Linked) (written : d.Written id) :
    ∃ after, d.html =
      d.htmlUpTo id ++ (Tree.htmlAll (d.holdsRawtext id) (d.forest id) ++ after) := by
  induction written with
  | root =>
    refine ⟨"", ?_⟩
    rw [linked.html_eq, linked.htmlUpTo_root, linked.holdsRawtext_root]
    simp
  | @element p id e outer parent held notVoid ih =>
    obtain ⟨after, whole⟩ := ih
    obtain ⟨later, split⟩ := linked.forest_split parent
    have isElement : d.element? id = some e := by simp [element?, held]
    have tag : Tree.html (d.holdsRawtext p) (d.subtree id) =
        d.opening id ++ Tree.htmlAll (d.holdsRawtext id) (d.forest id) ++ e.endTag := by
      have raw : d.holdsRawtext id = e.keyword.isRawtext := by simp [holdsRawtext, isElement]
      rw [linked.subtree_eq, dataAt, held, opening, raw, isElement]
      simp [Tree.html, notVoid]
    refine ⟨e.endTag ++ Tree.htmlAll (d.holdsRawtext p) later ++ after, ?_⟩
    rw [whole, split, Tree.htmlAll_append, Tree.htmlAll, tag, linked.htmlUpTo_child parent, leftOf]
    simp only [String.append_assoc]

theorem html_front (linked : d.Linked) (written : d.Written p) (parent : d.parent? id = some p)
    (held : d.data? id = some (.element e)) : ∃ after, d.html = d.htmlUpTo id ++ after := by
  obtain ⟨after, whole⟩ := linked.html_inside written
  obtain ⟨later, split⟩ := linked.forest_split parent
  have isElement : d.element? id = some e := by simp [element?, held]
  have tag : ∃ inner, Tree.html (d.holdsRawtext p) (d.subtree id) = d.opening id ++ inner := by
    rw [linked.subtree_eq, dataAt, held, opening, isElement]
    by_cases void : isVoid e.name = true
    · exact ⟨"", by simp [Tree.html, void]⟩
    · exact ⟨_, by simp [Tree.html, void, String.append_assoc]; rfl⟩
  obtain ⟨inner, tag⟩ := tag
  refine ⟨inner ++ Tree.htmlAll (d.holdsRawtext p) later ++ after, ?_⟩
  rw [whole, split, Tree.htmlAll_append, Tree.htmlAll, tag, linked.htmlUpTo_child parent, leftOf]
  simp only [String.append_assoc]

end Linked

/-- `d'` has all nodes of `d` where they were, and the same front up to `id`. -/
structure KeepsFront (d : Document) (id : NodeId) (d' : Document) : Prop where
  sound : d'.WellFormed
  size : d.size ≤ d'.size
  data : ∀ x, x < d.size → d'.data? x = d.data? x
  parent : ∀ x, x < d.size → d'.parent? x = d.parent? x
  front : d'.htmlUpTo id = d.htmlUpTo id

variable {d d' d'' : Document} {p id : NodeId} {ids : List NodeId}

theorem Extends.leftOf_eq (grown : Extends d p ids d') (linked : d.Linked) {q : NodeId}
    (parent : d.parent? id = some q) (near : d.Reaches p id ∨ d.Reaches id p) :
    d'.leftOf id q = d.leftOf id q := by
  have listed := (linked.parent_iff q id).mp parent
  have small := linked.parent_lt_size parent
  have raw : d'.holdsRawtext q = d.holdsRawtext q := by
    simp only [holdsRawtext, element?, grown.data q small]
  have before : (d'.children q).takeWhile (· != id) = (d.children q).takeWhile (· != id) := by
    rw [grown.children q small]
    split
    · next here => exact here ▸ (takeWhile_member listed).2 ids
    · rfl
  rw [leftOf, leftOf, raw, before]
  congr 1
  apply List.map_congr_left
  intro x member
  have other : x ≠ id := by simpa using List.all_eq_true.mp List.all_takeWhile x member
  have sibling : x ∈ d.children q := (List.takeWhile_prefix _).subset member
  apply grown.subtree_eq linked (linked.child_lt_size sibling)
  intro way
  rcases near with above | below
  · exact other (linked.siblings_apart sibling listed (way.trans above) .refl)
  · exact other (linked.siblings_apart sibling listed way below)

theorem Extends.htmlUpTo_eq (grown : Extends d p ids d') (linked : d.Linked) (small : id < d.size)
    (near : d.Reaches p id ∨ d.Reaches id p) : d'.htmlUpTo id = d.htmlUpTo id := by
  induction id using linked.induction_up with
  | step id ih =>
    cases parent : d.parent? id with
    | none =>
      rw [htmlUpTo, grown.ancestors_eq linked small, htmlUpTo, Linked.ancestors_of_orphan parent]
      rfl
    | some q =>
      have kept : d'.parent? id = some q := (grown.parent id small).trans parent
      have step : d.Reaches q id := .single ((linked.parent_iff q id).mp parent)
      have nearer : d.Reaches p q ∨ d.Reaches q p := by
        rcases near with above | below
        · rcases above.cases_tail with same | ⟨q', above, listed⟩
          · exact .inr (same ▸ step)
          · have same := ((linked.parent_iff q' id).mpr listed).symm.trans parent
            cases same
            exact .inl above
        · exact .inr (step.trans below)
      have opening : d'.opening id = d.opening id := by
        simp only [Document.opening, element?, grown.data id small]
      rw [grown.sound.htmlUpTo_child kept, linked.htmlUpTo_child parent,
        ih q parent (linked.parent_lt_size parent) nearer, grown.leftOf_eq linked parent near,
        opening]

theorem Extends.keepsFront (grown : Extends d p ids d') (linked : d.Linked) (small : id < d.size)
    (around : d.Reaches p id) : d.KeepsFront id d' :=
  ⟨grown.sound, grown.size, grown.data, grown.parent,
    grown.htmlUpTo_eq linked small (.inl around)⟩

namespace KeepsFront

theorem refl (sound : d.WellFormed) (id : NodeId) : d.KeepsFront id d :=
  ⟨sound, Nat.le_refl _, fun _ _ => rfl, fun _ _ => rfl, rfl⟩

theorem trans (first : d.KeepsFront id d') (second : d'.KeepsFront id d'') :
    d.KeepsFront id d'' := by
  have old : ∀ {x}, x < d.size → x < d'.size := fun small => Nat.lt_of_lt_of_le small first.size
  refine ⟨second.sound, Nat.le_trans first.size second.size, ?_, ?_, ?_⟩
  · intro x small
    rw [second.data x (old small), first.data x small]
  · intro x small
    rw [second.parent x (old small), first.parent x small]
  · rw [second.front, first.front]

theorem written (keeps : d.KeepsFront id d') (written : d.Written p) : d'.Written p := by
  induction written with
  | root => exact .root
  | element _ parent held notVoid ih =>
    refine .element ih ?_ ?_ notVoid
    · rw [keeps.parent _ (lt_size_of_parent parent), parent]
    · rw [keeps.data _ (lt_size_of_data held), held]

theorem reaches (keeps : d.KeepsFront id d') (linked : d.Linked) {a x : NodeId}
    (way : d.Reaches a x) : d'.Reaches a x := by
  rw [linked.reaches_iff_climbs] at way
  rw [keeps.sound.reaches_iff_climbs]
  have step : ∀ c p, d.parent? c = some p → d'.parent? c = some p := by
    intro c p parent
    rw [keeps.parent c (lt_size_of_parent parent), parent]
  exact Relation.ReflTransGen.mono step _ _ way

theorem isContainer (keeps : d.KeepsFront id d') (container : d.IsContainer p) :
    d'.IsContainer p := by
  obtain ⟨data, held, fits⟩ := container
  exact ⟨data, by rw [keeps.data p (lt_size_of_data held), held], fits⟩

theorem html_front (keeps : d.KeepsFront id d') {e : Element} (written : d.Written p)
    (parent : d.parent? id = some p) (held : d.data? id = some (.element e)) :
    ∃ after, d'.html = d.htmlUpTo id ++ after := by
  rw [← keeps.front]
  refine keeps.sound.html_front (keeps.written written) ?_ (e := e) ?_
  · rw [keeps.parent id (lt_size_of_parent parent), parent]
  · rw [keeps.data id (lt_size_of_data held), held]

end KeepsFront

theorem Extends.htmlUpTo_last (grown : Extends d p (ids ++ [id]) d') (linked : d.Linked)
    (inside : p < d.size) :
    d'.htmlUpTo id = d'.htmlUpTo p ++
      Tree.htmlAll (d'.holdsRawtext p) (d.forest p ++ ids.map d'.subtree) ++ d'.opening id := by
  have last : id ∈ d'.children p := grown.mem_children inside (by simp)
  have children := grown.children p inside
  rw [if_pos rfl, ← List.append_assoc] at children
  have once := grown.sound.listed_once p
  rw [children] at once
  have apart : ∀ x ∈ d.children p ++ ids, (x != id) = true := by
    intro x member
    have other : x ≠ id := fun same =>
      List.disjoint_of_nodup_append once member (by simp [same])
    simpa using other
  have before : (d'.children p).takeWhile (· != id) = d.children p ++ ids := by
    rw [children, List.takeWhile_append_of_pos apart]
    simp
  have trees : (d.children p).map d'.subtree = d.forest p := by
    apply List.map_congr_left
    intro c listed
    exact grown.subtree_eq linked (linked.child_lt_size listed) (linked.not_reaches_parent listed)
  rw [grown.sound.htmlUpTo_child ((grown.sound.parent_iff p id).mpr last), leftOf, before,
    List.map_append, trees]

def Nested (d : Document) : List NodeId → Prop
  | [] => True
  | id :: around => d.parent? id = some (around.headD root) ∧
      (∃ e, d.data? id = some (.element e) ∧ isVoid e.name = false) ∧ d.Nested around

namespace Nested

variable {around : List NodeId}

theorem written (nested : d.Nested around) : d.Written (around.headD root) := by
  induction around with
  | nil => exact .root
  | cons id around ih =>
    obtain ⟨parent, ⟨e, held, notVoid⟩, outer⟩ := nested
    exact .element (ih outer) parent held notVoid

theorem containers (nested : d.Nested around) (linked : d.Linked) :
    ∀ p ∈ root :: around, d.IsContainer p := by
  induction around with
  | nil =>
    intro p member
    rw [List.mem_singleton.mp member]
    exact root_isContainer linked
  | cons id around ih =>
    obtain ⟨_, ⟨e, held, _⟩, outer⟩ := nested
    intro p member
    rcases List.mem_cons.mp member with rfl | member
    · exact root_isContainer linked
    · rcases List.mem_cons.mp member with rfl | member
      · exact isContainer_of_element held
      · exact ih outer p (List.mem_cons_of_mem root member)

theorem isContainer (nested : d.Nested around) (linked : d.Linked) :
    d.IsContainer (around.headD root) := by
  apply nested.containers linked
  cases around with
  | nil => exact List.mem_cons_self ..
  | cons id around => simp

theorem reaches (nested : d.Nested around) (linked : d.Linked) :
    ∀ p ∈ root :: around, d.Reaches p (around.headD root) := by
  induction around with
  | nil =>
    intro p member
    rw [List.mem_singleton.mp member]
    exact .refl
  | cons id around ih =>
    obtain ⟨parent, _, outer⟩ := nested
    have step : d.Reaches (around.headD root) id := .single ((linked.parent_iff _ id).mp parent)
    intro p member
    rcases List.mem_cons.mp member with rfl | member
    · exact (ih outer root (List.mem_cons_self ..)).trans step
    · rcases List.mem_cons.mp member with rfl | member
      · exact .refl
      · exact (ih outer p (List.mem_cons_of_mem _ member)).trans step

theorem extended (nested : d.Nested around) (grown : Extends d p ids d') : d'.Nested around := by
  induction around with
  | nil => trivial
  | cons id around ih =>
    obtain ⟨parent, ⟨e, held, notVoid⟩, outer⟩ := nested
    refine ⟨?_, ⟨e, ?_, notVoid⟩, ih outer⟩
    · rw [grown.parent id (lt_size_of_data held), parent]
    · rw [grown.data id (lt_size_of_data held), held]

end Nested

end Document

end PageFilters
