import PageFilters.Markup.Document

/-!
The edits of a document as data. An edit that is refused changes nothing. The documents that can
come about are those that a list of edits makes of the empty document.
-/

namespace PageFilters

inductive Edit where
  | create (data : NodeData)
  | append (parent child : NodeId)
  | insertBefore (anchor node : NodeId)
  | delete (node : NodeId)
  | modify (node : NodeId) (change : Element → Element)

namespace Document

def edit? (d : Document) : Edit → Option Document
  | .create data => some (d.create data).2
  | .append parent child => d.append? parent child
  | .insertBefore anchor node => d.insertBefore? anchor node
  | .delete node => d.delete? node
  | .modify node change => some (d.modifyElement node change)

def edit (d : Document) (e : Edit) : Document :=
  (d.edit? e).getD d

def editAll (d : Document) (edits : List Edit) : Document :=
  edits.foldl edit d

/-- Whether `d` can become `after` by edits. -/
def Becomes (d after : Document) : Prop :=
  ∃ edits, after = d.editAll edits

def Reachable (d : Document) : Prop :=
  empty.Becomes d

theorem Becomes.refl (d : Document) : d.Becomes d :=
  ⟨[], rfl⟩

theorem Becomes.trans {a b c : Document} (first : a.Becomes b) (second : b.Becomes c) :
    a.Becomes c := by
  obtain ⟨es, rfl⟩ := first
  obtain ⟨fs, rfl⟩ := second
  exact ⟨es ++ fs, by simp [editAll]⟩

theorem Becomes.edit {d after : Document} (reached : d.Becomes after) (e : Edit) :
    d.Becomes (after.edit e) :=
  reached.trans ⟨[e], rfl⟩

end Document

end PageFilters
