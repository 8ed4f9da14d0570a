import PageFilters.Proofs.Document.WellFormed

/-!
A document that grows at one place. New nodes come after the last child of one node, and no other
node that was there is touched. So the trees that were there stay, and what is done to the new nodes
shows in the new trees only. Edits of any kind and at any place keep at least the nodes.
-/

namespace PageFilters

namespace Document

variable {d d' d'' : Document} {p : NodeId} {ids : List NodeId}

def subtree (d : Document) (id : NodeId) : Tree NodeData :=
  (d.idTree id).map d.dataAt

def forest (d : Document) (id : NodeId) : List (Tree NodeData) :=
  (d.children id).map d.subtree

theorem Linked.subtree_eq (linked : d.Linked) (id : NodeId) :
    d.subtree id = .node (d.dataAt id) (d.forest id) := by
  rw [subtree, linked.idTree_eq, Tree.map, Tree.mapAll_eq_map, List.map_map]
  rfl

theorem Linked.tree_eq (linked : d.Linked) : d.tree = .node .document (d.forest root) := by
  have holds : d.dataAt root = .document := by simp [dataAt, linked.root_data]
  rw [← holds, ← linked.subtree_eq]
  rfl

/-- Whether new nodes may become children of the node. -/
def IsContainer (d : Document) (id : NodeId) : Prop :=
  ∃ data, d.data? id = some data ∧ data.isContainer = true

theorem IsContainer.lt_size (container : d.IsContainer p) : p < d.size := by
  obtain ⟨_, held, _⟩ := container
  exact lt_size_of_data held

theorem root_isContainer (linked : d.Linked) : d.IsContainer root :=
  ⟨.document, linked.root_data, rfl⟩

theorem isContainer_of_element {e : Element} (held : d.data? p = some (.element e)) :
    d.IsContainer p :=
  ⟨.element e, held, rfl⟩

/-- `d'` is `d` with `ids` after the last child of `p`. Of the nodes that `d` does not have, nothing
is said. -/
structure Extends (d : Document) (p : NodeId) (ids : List NodeId) (d' : Document) : Prop where
  sound : d'.WellFormed
  size : d.size ≤ d'.size
  data : ∀ x, x < d.size → d'.data? x = d.data? x
  parent : ∀ x, x < d.size → d'.parent? x = d.parent? x
  children : ∀ x, x < d.size →
    d'.children x = if x = p then d.children p ++ ids else d.children x

namespace Extends

theorem refl (sound : d.WellFormed) (p : NodeId) : Extends d p [] d := by
  refine ⟨sound, Nat.le_refl _, fun _ _ => rfl, fun _ _ => rfl, ?_⟩
  intro x _
  split
  · next here => rw [here, List.append_nil]
  · rfl

theorem trans {more : List NodeId} (first : Extends d p ids d') (second : Extends d' p more d'')
    (inside : p < d.size) : Extends d p (ids ++ more) d'' := by
  have old : ∀ {x}, x < d.size → x < d'.size := fun small => Nat.lt_of_lt_of_le small first.size
  refine ⟨second.sound, Nat.le_trans first.size second.size, ?_, ?_, ?_⟩ <;> intro x small
  · rw [second.data x (old small), first.data x small]
  · rw [second.parent x (old small), first.parent x small]
  · rw [second.children x (old small)]
    split
    · rw [first.children p inside, if_pos rfl, List.append_assoc]
    · next other => rw [first.children x small, if_neg other]

theorem below {q : NodeId} {more : List NodeId} (first : Extends d p ids d')
    (second : Extends d' q more d'') (new : d.size ≤ q) : Extends d p ids d'' := by
  have old : ∀ {x}, x < d.size → x < d'.size := fun small => Nat.lt_of_lt_of_le small first.size
  refine ⟨second.sound, Nat.le_trans first.size second.size, ?_, ?_, ?_⟩ <;> intro x small
  · rw [second.data x (old small), first.data x small]
  · rw [second.parent x (old small), first.parent x small]
  · rw [second.children x (old small), if_neg (by omega), first.children x small]

theorem modify {x : NodeId} (grown : Extends d p ids d') (new : d.size ≤ x)
    (f : Element → Element) : Extends d p ids (d'.modifyElement x f) := by
  have shape := fun y => sameShape_modifyElement d' x y f
  refine ⟨modify_wellFormed grown.sound x f, ?_, ?_, ?_, ?_⟩
  · simpa [modifyElement] using grown.size
  · intro y small
    rw [data_modifyElement, if_neg (Nat.ne_of_lt (Nat.lt_of_lt_of_le small new)),
      grown.data y small]
  · intro y small
    rw [(shape y).1, grown.parent y small]
  · intro y small
    rw [(shape y).2.1, grown.children y small]

theorem isContainer {x : NodeId} (grown : Extends d p ids d') (container : d.IsContainer x) :
    d'.IsContainer x := by
  obtain ⟨data, held, fits⟩ := container
  exact ⟨data, by rw [grown.data x (lt_size_of_data held), held], fits⟩

theorem mem_children (grown : Extends d p ids d') (inside : p < d.size) {id : NodeId}
    (member : id ∈ ids) : id ∈ d'.children p := by
  rw [grown.children p inside, if_pos rfl]
  exact List.mem_append_right _ member

theorem fresh (grown : Extends d p ids d') (linked : d.Linked) (inside : p < d.size) {id : NodeId}
    (member : id ∈ ids) : d.size ≤ id := by
  by_contra small
  have small := Nat.lt_of_not_le small
  have parent := (grown.sound.parent_iff p id).mpr (grown.mem_children inside member)
  rw [grown.parent id small] at parent
  have once := grown.sound.listed_once p
  rw [grown.children p inside, if_pos rfl] at once
  exact List.disjoint_of_nodup_append once ((linked.parent_iff p id).mp parent) member

theorem ancestors_eq (grown : Extends d p ids d') (linked : d.Linked) {x : NodeId}
    (small : x < d.size) : d'.ancestors x = d.ancestors x := by
  induction x using linked.induction_up with
  | step x ih =>
    cases parent : d.parent? x with
    | none =>
      rw [Linked.ancestors_of_orphan parent,
        Linked.ancestors_of_orphan (grown.parent x small ▸ parent)]
    | some q =>
      have kept : d'.parent? x = some q := grown.parent x small ▸ parent
      rw [linked.ancestors_of_parent parent, grown.sound.ancestors_of_parent kept,
        ih q parent (linked.parent_lt_size parent)]

theorem isAttached_eq (grown : Extends d p ids d') (sound : d.WellFormed) {x : NodeId}
    (small : x < d.size) : d'.isAttached x = d.isAttached x := by
  rw [Bool.eq_iff_iff, grown.sound.attached_iff, sound.attached_iff,
    ← grown.sound.mem_ancestors_iff, ← sound.mem_ancestors_iff,
    grown.ancestors_eq sound.toLinked small]

theorem subtree_eq (grown : Extends d p ids d') (linked : d.Linked) {x : NodeId}
    (small : x < d.size) (apart : ¬ d.Reaches x p) : d'.subtree x = d.subtree x := by
  induction x using linked.induction_down with
  | step x ih =>
    have other : x ≠ p := fun same => apart (same ▸ .refl)
    have kept : d'.children x = d.children x := by rw [grown.children x small, if_neg other]
    have same : d'.dataAt x = d.dataAt x := by rw [dataAt, grown.data x small, dataAt]
    rw [grown.sound.subtree_eq, linked.subtree_eq, forest, kept, same, forest]
    congr 1
    apply List.map_congr_left
    intro c listed
    exact ih c listed (linked.child_lt_size listed) fun way => apart (.head listed way)

theorem forest_eq (grown : Extends d p ids d') (linked : d.Linked) (inside : p < d.size) :
    d'.forest p = d.forest p ++ ids.map d'.subtree := by
  rw [forest, grown.children p inside, if_pos rfl, List.map_append, forest]
  congr 1
  apply List.map_congr_left
  intro c listed
  exact grown.subtree_eq linked (linked.child_lt_size listed) (linked.not_reaches_parent listed)

end Extends

def Grows (d : Document) (p : NodeId) (ts : List (Tree NodeData)) (d' : Document) : Prop :=
  ∃ ids, Extends d p ids d' ∧ ids.map d'.subtree = ts

namespace Grows

variable {ts more : List (Tree NodeData)}

theorem refl (sound : d.WellFormed) (p : NodeId) : Grows d p [] d :=
  ⟨[], .refl sound p, rfl⟩

theorem sound (grows : Grows d p ts d') : d'.WellFormed := by
  obtain ⟨_, grown, _⟩ := grows
  exact grown.sound

theorem forest_eq (grows : Grows d p ts d') (linked : d.Linked) (inside : p < d.size) :
    d'.forest p = d.forest p ++ ts := by
  obtain ⟨ids, grown, rfl⟩ := grows
  exact grown.forest_eq linked inside

theorem isContainer (grows : Grows d p ts d') {x : NodeId} (container : d.IsContainer x) :
    d'.IsContainer x := by
  obtain ⟨_, grown, _⟩ := grows
  exact grown.isContainer container

theorem data_eq (grows : Grows d p ts d') {x : NodeId} {data : NodeData}
    (held : d.data? x = some data) : d'.data? x = some data := by
  obtain ⟨_, grown, _⟩ := grows
  rw [grown.data x (lt_size_of_data held), held]

theorem trans (first : Grows d p ts d') (second : Grows d' p more d'') (inside : p < d.size) :
    Grows d p (ts ++ more) d'' := by
  obtain ⟨ids, grown, rfl⟩ := first
  obtain ⟨ids', grown', rfl⟩ := second
  refine ⟨ids ++ ids', grown.trans grown' inside, ?_⟩
  rw [List.map_append]
  congr 1
  apply List.map_congr_left
  intro id member
  have listed := grown.mem_children inside member
  exact grown'.subtree_eq grown.sound.toLinked (grown.sound.child_lt_size listed)
    (grown.sound.not_reaches_parent listed)

theorem tree_eq (grows : Grows .empty root ts d') : d'.tree = .node .document ts := by
  have sound := empty_wellFormed
  rw [grows.sound.tree_eq, grows.forest_eq sound.toLinked sound.size_pos]
  rfl

theorem inside (ids : List NodeId) {id : NodeId} {data : NodeData}
    (grown : Extends d p (ids ++ [id]) d') (grows : Grows d' id ts d'')
    (linked : d.Linked) (inside : p < d.size) (held : d'.data? id = some data)
    (leaf : d'.children id = []) :
    Grows d p (ids.map d'.subtree ++ [.node data ts]) d'' := by
  obtain ⟨below, deeper, rfl⟩ := grows
  have new := grown.fresh linked inside (List.mem_append_right ids (List.mem_singleton.mpr rfl))
  have there := lt_size_of_data held
  refine ⟨ids ++ [id], grown.below deeper new, ?_⟩
  rw [List.map_append, List.map_singleton, deeper.sound.subtree_eq id,
    deeper.forest_eq grown.sound.toLinked there, forest, leaf]
  have same : d''.dataAt id = data := by simp [dataAt, deeper.data id there, held]
  rw [same]
  congr 1
  apply List.map_congr_left
  intro x member
  have listed := grown.mem_children inside (List.mem_append_left [id] member)
  have last := grown.mem_children inside (List.mem_append_right ids (List.mem_singleton.mpr rfl))
  refine deeper.subtree_eq grown.sound.toLinked (grown.sound.child_lt_size listed) fun way => ?_
  have same := grown.sound.siblings_apart listed last way .refl
  have once := grown.sound.listed_once p
  rw [grown.children p inside, if_pos rfl] at once
  exact List.disjoint_of_nodup_append (List.Nodup.of_append_right once) member (by simp [same])

end Grows

def attachNew (p : NodeId) (data : NodeData) (d : Document) : Document :=
  ((d.create data).2.append? p d.size).getD (d.create data).2

theorem create_attachable (sound : d.WellFormed) (container : d.IsContainer p)
    (data : NodeData) : (d.create data).2.Attachable p d.size := by
  have new : p ≠ d.size := Nat.ne_of_lt container.lt_size
  obtain ⟨held, old, fits⟩ := container
  refine ⟨⟨held, by rw [data_create, if_neg new, old], fits⟩, ?_, ?_, ?_, ?_, ?_⟩
  · simp
  · exact Nat.ne_of_gt sound.size_pos
  · rw [parent_create, parent_eq_none_of_size_le (Nat.le_refl _)]
  · rw [isDeleted_create]
    simp [isDeleted, slot?, size]
  · intro above
    rcases above.cases_head with same | ⟨c, listed, _⟩
    · exact new same.symm
    · rw [children_create, children_eq_nil_of_size_le (Nat.le_refl _)] at listed
      cases listed

theorem attachNew_attaches (sound : d.WellFormed) (container : d.IsContainer p)
    (data : NodeData) :
    (d.create data).2.Attachable p d.size ∧
      Attaches (d.create data).2 (d.attachNew p data) p d.size (d.children p) [] := by
  have created := create_wellFormed sound data
  have legal := create_attachable sound container data
  obtain ⟨after, done⟩ := append_eq_some created.toLinked legal
  have attaches := (append_attaches created.toLinked done).2
  rw [children_create] at attaches
  rw [attachNew, done]
  exact ⟨legal, attaches⟩

theorem size_attachNew (sound : d.WellFormed) (container : d.IsContainer p) (data : NodeData) :
    (d.attachNew p data).size = d.size + 1 := by
  rw [(attachNew_attaches sound container data).2.size, size_create]

theorem data_attachNew (sound : d.WellFormed) (container : d.IsContainer p) (data : NodeData) :
    (d.attachNew p data).data? d.size = some data := by
  rw [(attachNew_attaches sound container data).2.data, data_create, if_pos rfl]

theorem children_attachNew (sound : d.WellFormed) (container : d.IsContainer p)
    (data : NodeData) : (d.attachNew p data).children d.size = [] := by
  rw [(attachNew_attaches sound container data).2.children,
    if_neg (Nat.ne_of_gt container.lt_size), children_create,
    children_eq_nil_of_size_le (Nat.le_refl _)]

theorem attachNew_extends (sound : d.WellFormed) (container : d.IsContainer p)
    (data : NodeData) : Extends d p [d.size] (d.attachNew p data) := by
  obtain ⟨legal, attaches⟩ := attachNew_attaches sound container data
  refine ⟨attach_wellFormed (create_wellFormed sound data) legal attaches, ?_, ?_, ?_, ?_⟩
  · rw [size_attachNew sound container]
    exact Nat.le_succ _
  · intro x small
    rw [attaches.data, data_create, if_neg (Nat.ne_of_lt small)]
  · intro x small
    rw [attaches.parent, if_neg (Nat.ne_of_lt small), parent_create]
  · intro x _
    rw [attaches.children, children_create]

theorem attachNew_filled (sound : d.WellFormed) (container : d.IsContainer p) {data : NodeData}
    {ts : List (Tree NodeData)} (grows : Grows (d.attachNew p data) d.size ts d') :
    Grows d p [.node data ts] d' :=
  Grows.inside [] (attachNew_extends sound container data) grows sound.toLinked
    container.lt_size (data_attachNew sound container data)
    (children_attachNew sound container data)

theorem attachNew_grows (sound : d.WellFormed) (container : d.IsContainer p) (data : NodeData) :
    Grows d p [.node data []] (d.attachNew p data) :=
  attachNew_filled sound container (.refl (attachNew_extends sound container data).sound _)

theorem ancestors_attachNew (sound : d.WellFormed) (container : d.IsContainer p)
    (data : NodeData) : (d.attachNew p data).ancestors d.size = p :: d.ancestors p := by
  have grown := attachNew_extends sound container data
  have parent : (d.attachNew p data).parent? d.size = some p := by
    rw [(attachNew_attaches sound container data).2.parent, if_pos rfl]
  rw [grown.sound.ancestors_of_parent parent, grown.ancestors_eq sound.toLinked container.lt_size]

theorem isAttached_attachNew (sound : d.WellFormed) (container : d.IsContainer p)
    (data : NodeData) : (d.attachNew p data).isAttached d.size = d.isAttached p := by
  obtain ⟨_, attaches⟩ := attachNew_attaches sound container data
  rw [Bool.eq_iff_iff, attaches.attached, isAttached_create]
  simp [Reaches, Relation.ReflTransGen.refl]

theorem Extends.insertBefore {id : NodeId} (grown : Extends d p (ids ++ [id]) d')
    (container : d.IsContainer p) (data : NodeData) :
    ∃ d'', (d'.create data).2.insertBefore? id d'.size = some d'' ∧
      Extends d p (ids ++ [d'.size, id]) d'' ∧
      d''.data? d'.size = some data ∧ d''.children d'.size = [] ∧
      ∀ x, d.size ≤ x → x < d'.size →
        d''.data? x = d'.data? x ∧ d''.children x = d'.children x := by
  have created := create_wellFormed grown.sound data
  have legal := create_attachable grown.sound (grown.isContainer container) data
  have last : id ∈ ids ++ [id] := List.mem_append_right ids (List.mem_singleton.mpr rfl)
  have listed := grown.mem_children container.lt_size last
  have parent : (d'.create data).2.parent? id = some p := by
    rw [parent_create]
    exact (grown.sound.parent_iff p id).mpr listed
  obtain ⟨d'', done⟩ := insertBefore_eq_some created.toLinked parent legal
  obtain ⟨q, before, after, above, siblings, _, attaches⟩ :=
    insertBefore_attaches created.toLinked done
  obtain rfl : p = q := Option.some.inj (parent.symm.trans above)
  have once := grown.sound.listed_once p
  rw [children_create, grown.children p container.lt_size, if_pos rfl,
    ← List.append_assoc] at siblings
  rw [grown.children p container.lt_size, if_pos rfl, ← List.append_assoc] at once
  have absent : id ∉ d.children p ++ ids := fun early =>
    List.disjoint_of_nodup_append once early (List.mem_singleton.mpr rfl)
  obtain ⟨rfl, _, rfl⟩ :=
    (List.append_cons_inj_of_notMem absent List.not_mem_nil).mp siblings
  have old : ∀ {x}, x < d.size → x ≠ d'.size := fun small =>
    Nat.ne_of_lt (Nat.lt_of_lt_of_le small grown.size)
  refine ⟨d'', done, ⟨attach_wellFormed created legal attaches, ?_, ?_, ?_, ?_⟩, ?_, ?_, ?_⟩
  · rw [attaches.size, size_create]
    exact Nat.le_succ_of_le grown.size
  · intro x small
    rw [attaches.data, data_create, if_neg (old small), grown.data x small]
  · intro x small
    rw [attaches.parent, if_neg (old small), parent_create, grown.parent x small]
  · intro x small
    rw [attaches.children, children_create, grown.children x small]
    split
    · rw [List.append_assoc]
    · rfl
  · rw [attaches.data, data_create, if_pos rfl]
  · rw [attaches.children, if_neg (old container.lt_size).symm, children_create,
      children_eq_nil_of_size_le (Nat.le_refl _)]
  · intro x new there
    constructor
    · rw [attaches.data, data_create, if_neg (Nat.ne_of_lt there)]
    · rw [attaches.children, if_neg, children_create]
      intro same
      exact absurd (same ▸ container.lt_size) (Nat.not_lt.mpr new)

theorem Extends.delete {id : NodeId} (grown : Extends d p [id] d') (linked : d.Linked)
    (inside : p < d.size) :
    ∃ d'', d'.delete? id = some d'' ∧ Extends d p [] d'' ∧ d''.delete? id = none := by
  have listed := grown.mem_children inside (List.mem_singleton.mpr rfl)
  have parent := (grown.sound.parent_iff p id).mpr listed
  have new := grown.fresh linked inside (List.mem_singleton.mpr rfl)
  have notRoot : id ≠ root := by
    intro same
    have := linked.size_pos
    rw [same, root] at new
    omega
  obtain ⟨d'', done⟩ : ∃ d'', d'.delete? id = some d'' := by
    rw [delete?, if_neg notRoot, parent]
    exact ⟨_, rfl⟩
  obtain ⟨q, before, after, above, detaches⟩ := delete_detaches grown.sound.toLinked done
  obtain rfl : p = q := Option.some.inj (parent.symm.trans above)
  have siblings := detaches.siblings
  rw [grown.children p inside, if_pos rfl] at siblings
  have absent : id ∉ d.children p := fun old =>
    absurd (linked.child_lt_size old) (Nat.not_lt.mpr new)
  obtain ⟨rfl, _, rfl⟩ :=
    (List.append_cons_inj_of_notMem absent List.not_mem_nil).mp siblings
  refine ⟨d'', done, ⟨detach_wellFormed grown.sound detaches, ?_, ?_, ?_, ?_⟩, ?_⟩
  · rw [detaches.size]
    exact grown.size
  · intro x small
    rw [detaches.data, grown.data x small]
  · intro x small
    rw [detaches.parent, if_neg (Nat.ne_of_lt (Nat.lt_of_lt_of_le small new)),
      grown.parent x small]
  · intro x small
    rw [detaches.children]
    split
    · rfl
    · next other => rw [grown.children x small, if_neg other]
  · rw [delete?, if_neg notRoot, detaches.parent, if_pos rfl]

structure Retains (d d' : Document) : Prop where
  size : d.size ≤ d'.size
  container : ∀ x, d.IsContainer x → d'.IsContainer x

namespace Retains

theorem refl (d : Document) : d.Retains d :=
  ⟨Nat.le_refl _, fun _ container => container⟩

theorem trans (first : d.Retains d') (second : d'.Retains d'') : d.Retains d'' := by
  constructor
  · exact Nat.le_trans first.size second.size
  · intro x container
    exact second.container x (first.container x container)

theorem of_data (size : d'.size = d.size) (data : ∀ x, d'.data? x = d.data? x) :
    d.Retains d' := by
  constructor
  · exact Nat.le_of_eq size.symm
  · rintro x ⟨held, old, fits⟩
    exact ⟨held, (data x).trans old, fits⟩

end Retains

theorem edit_retains (sound : d.WellFormed) (e : Edit) : d.Retains (d.edit e) := by
  have makes := edit_makes sound.toLinked e
  generalize d.edit e = d' at makes ⊢
  cases makes with
  | created data =>
    constructor
    · simp
    · rintro x ⟨held, old, fits⟩
      refine ⟨held, ?_, fits⟩
      rw [data_create, if_neg (Nat.ne_of_lt (lt_size_of_data old)), old]
  | modified node change =>
    constructor
    · simp [modifyElement]
    · rintro x ⟨held, old, fits⟩
      rw [IsContainer, data_modifyElement, old]
      split
      · refine ⟨_, rfl, ?_⟩
        cases held <;> exact fits
      · exact ⟨held, rfl, fits⟩
  | refused _ => exact .refl d
  | attached _ _ attaches => exact .of_data attaches.size attaches.data
  | detached _ _ detaches => exact .of_data detaches.size detaches.data

theorem Becomes.retains (becomes : d.Becomes d') (sound : d.WellFormed) :
    d.Retains d' := by
  obtain ⟨edits, rfl⟩ := becomes
  induction edits generalizing d with
  | nil => exact .refl d
  | cons e edits ih => exact (edit_retains sound e).trans (ih (edit_wellFormed sound e))

end Document

end PageFilters
