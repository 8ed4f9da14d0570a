import PageFilters.Proofs.Document.Growth

/-!
Documents in which all values stand in double quotes. To make the quotes of a document uniform and
then look at it or edit it comes to the same as the other way round: nothing but the markup depends
on quotes, and an edit takes them along.
-/

namespace PageFilters

def AttributeOf.uniform {ν : Type} (a : AttributeOf ν) : AttributeOf ν :=
  { a with quote := .double }

namespace Element

def uniform (e : Element) : Element :=
  { e with attributes := e.attributes.map AttributeOf.uniform }

section

variable (e : Element) (name value : String)

@[simp] theorem uniform_uniform : e.uniform.uniform = e.uniform := by
  simp [uniform, AttributeOf.uniform, Function.comp_def]

@[simp] theorem keyword_uniform : e.uniform.keyword = e.keyword :=
  rfl

theorem attribute_uniform : e.uniform.attribute? name = (e.attribute? name).map .uniform := by
  rw [attribute?, uniform, List.find?_map, attribute?]
  rfl

@[simp] theorem hasAttribute_uniform : e.uniform.hasAttribute name = e.hasAttribute name := by
  rw [hasAttribute, attribute_uniform, Option.isSome_map, hasAttribute]

@[simp] theorem value_uniform : e.uniform.value? name = e.value? name := by
  rw [value?, attribute_uniform, value?]
  cases e.attribute? name <;> rfl

@[simp] theorem eraseAttribute_uniform :
    e.uniform.eraseAttribute name = (e.eraseAttribute name).uniform := by
  rw [eraseAttribute, uniform, List.eraseP_map, eraseAttribute, uniform]
  rfl

@[simp] theorem setValue_uniform :
    e.uniform.setValue name value = (e.setValue name value).uniform := by
  rw [setValue, uniform, setValue, uniform]
  congr 1
  induction e.attributes with
  | nil => rfl
  | cons a rest ih =>
    have same : a.uniform.isNamed name = a.isNamed name := rfl
    rw [List.map_cons, modifyFirst, modifyFirst, same]
    split
    · rfl
    · rw [ih, List.map_cons]

@[simp] theorem addAttribute_uniform :
    e.uniform.addAttribute name value .double = (e.addAttribute name value .double).uniform := by
  simp [addAttribute, uniform, AttributeOf.uniform]

end

end Element

def NodeData.uniform (data : NodeData) : NodeData :=
  data.mapElement Element.uniform

def Slot.uniform (slot : Slot) : Slot :=
  { slot with data := slot.data.uniform }

namespace NodeData

@[simp] theorem uniform_uniform (data : NodeData) : data.uniform.uniform = data.uniform := by
  cases data with
  | element e => exact congrArg element e.uniform_uniform
  | _ => rfl

@[simp] theorem isContainer_uniform (data : NodeData) :
    data.uniform.isContainer = data.isContainer := by
  cases data <;> rfl

end NodeData

namespace Document

def uniform (d : Document) : Document :=
  ⟨d.slots.map Slot.uniform⟩

section

variable (d : Document) (id : NodeId)

@[simp] theorem size_uniform : d.uniform.size = d.size := by
  simp [size, uniform]

theorem slot_uniform : d.uniform.slot? id = (d.slot? id).map Slot.uniform := by
  simp [slot?, uniform]

theorem data_uniform : d.uniform.data? id = (d.data? id).map NodeData.uniform := by
  rw [data?, slot_uniform, data?]
  cases d.slot? id <;> rfl

theorem element_uniform : d.uniform.element? id = (d.element? id).map Element.uniform := by
  rw [element?, data_uniform, element?]
  cases d.data? id with
  | none => rfl
  | some data => cases data <;> rfl

@[simp] theorem keyword_uniform : d.uniform.keyword? id = d.keyword? id := by
  rw [keyword?, element_uniform, keyword?, Option.map_map]
  rfl

@[simp] theorem parent_uniform : d.uniform.parent? id = d.parent? id := by
  rw [parent?, slot_uniform, parent?]
  cases d.slot? id <;> rfl

@[simp] theorem children_uniform : d.uniform.children id = d.children id := by
  rw [children, slot_uniform, children]
  cases d.slot? id <;> rfl

@[simp] theorem isAttached_uniform : d.uniform.isAttached id = d.isAttached id := by
  rw [isAttached, slot_uniform, isAttached]
  cases d.slot? id <;> rfl

theorem parentChain_uniform (n : Nat) (from? : Option NodeId) :
    d.uniform.parentChain n from? = d.parentChain n from? := by
  induction n generalizing from? with
  | zero => cases from? <;> rfl
  | succ n ih =>
    cases from? with
    | none => rfl
    | some id => rw [parentChain, ih, parent_uniform, parentChain]

@[simp] theorem ancestors_uniform : d.uniform.ancestors id = d.ancestors id := by
  rw [ancestors, size_uniform, parent_uniform, parentChain_uniform, ancestors]

theorem visit_uniform (n : Nat) (waiting : List NodeId) :
    d.uniform.visit n waiting = d.visit n waiting := by
  induction n generalizing waiting with
  | zero => cases waiting <;> rfl
  | succ n ih =>
    cases waiting with
    | nil => rfl
    | cons id waiting => rw [visit, ih, children_uniform, visit]

@[simp] theorem preorder_uniform : d.uniform.preorder id = d.preorder id := by
  rw [preorder, size_uniform, visit_uniform, preorder]

end

section

variable (d : Document) (id p c : NodeId)

theorem modifySlot_uniform {f : Slot → Slot} (same : ∀ slot, f slot.uniform = (f slot).uniform) :
    d.uniform.modifySlot id f = (d.modifySlot id f).uniform := by
  rw [modifySlot, uniform, modifySlot, uniform, mk.injEq]
  apply Array.ext_getElem?
  intro i
  simp only [Array.getElem?_modify, Array.getElem?_map]
  split
  · cases d.slots[i]? with
    | none => rfl
    | some slot => exact congrArg some (same slot)
  · rfl

theorem modifyElement_uniform {f : Element → Element}
    (same : ∀ e, f e.uniform = (f e).uniform) :
    d.uniform.modifyElement id f = (d.modifyElement id f).uniform := by
  apply modifySlot_uniform
  rintro ⟨data, _⟩
  cases data with
  | element e => simp [Slot.uniform, NodeData.uniform, NodeData.mapElement, same]
  | _ => rfl

@[simp] theorem create_uniform (data : NodeData) :
    d.uniform.create data.uniform = ((d.create data).1, (d.create data).2.uniform) := by
  simp [create, size, uniform, Slot.uniform]

@[simp] theorem canAttach_uniform : d.uniform.canAttach p c = d.canAttach p c := by
  rw [canAttach, slot_uniform, slot_uniform, ancestors_uniform, canAttach]
  cases d.slot? p with
  | none => rfl
  | some parent =>
    cases d.slot? c with
    | none => rfl
    | some child => simp [Slot.uniform]

@[simp] theorem markSubtree_uniform (attached : Bool) :
    d.uniform.markSubtree attached id = (d.markSubtree attached id).uniform := by
  rw [markSubtree, preorder_uniform, markSubtree]
  generalize d.preorder id = ids
  induction ids generalizing d with
  | nil => rfl
  | cons x ids ih =>
    rw [List.foldl_cons, List.foldl_cons, modifySlot_uniform, ih]
    exact fun _ => rfl

@[simp] theorem link_uniform : d.uniform.link p c = (d.link p c).uniform := by
  rw [link, isAttached_uniform, modifySlot_uniform, markSubtree_uniform, link]
  exact fun _ => rfl

@[simp] theorem append_uniform :
    d.uniform.append? p c = (d.append? p c).map Document.uniform := by
  rw [append?, canAttach_uniform, append?]
  split
  · rw [modifySlot_uniform, link_uniform, Option.map_some]
    exact fun _ => rfl
  · rfl

@[simp] theorem insertBefore_uniform (anchor node : NodeId) :
    d.uniform.insertBefore? anchor node = (d.insertBefore? anchor node).map Document.uniform := by
  rw [insertBefore?, parent_uniform, insertBefore?]
  cases d.parent? anchor with
  | none => rfl
  | some p =>
    simp only [canAttach_uniform, children_uniform]
    split
    · rw [modifySlot_uniform, link_uniform, Option.map_some]
      exact fun _ => rfl
    · rfl

@[simp] theorem delete_uniform : d.uniform.delete? id = (d.delete? id).map Document.uniform := by
  rw [delete?, parent_uniform, delete?]
  split
  · rfl
  · cases d.parent? id with
    | none => rfl
    | some p =>
      simp only [Option.map_some]
      rw [modifySlot_uniform, modifySlot_uniform, markSubtree_uniform]
      · exact fun _ => rfl
      · exact fun _ => rfl

@[simp] theorem attachNew_uniform (data : NodeData) :
    d.uniform.attachNew p data.uniform = (d.attachNew p data).uniform := by
  rw [attachNew, create_uniform, size_uniform, append_uniform, attachNew]
  cases (d.create data).2.append? p d.size <;> rfl

end

end Document

end PageFilters
