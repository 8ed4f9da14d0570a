import PageFilters.Markup.Interning
import PageFilters.Proofs.Markup.Search

/-!
The numbers of names. A list of names and a hash table are kept that lead from numbers to names and
back, and both ways of looking up a name agree: names get one number just when they differ in letter
case at most, in the order in which they are first met, and keep it.
-/

namespace PageFilters

def distinctNames (calls : List String) : List String :=
  (calls.map foldCase).eraseDups

theorem distinctNames_concat (calls : List String) (name : String) :
    distinctNames (calls ++ [name]) =
      if foldCase name ∈ distinctNames calls then distinctNames calls
      else distinctNames calls ++ [foldCase name] := by
  rw [distinctNames, distinctNames, List.map_append, List.eraseDups_append]
  simp only [List.mem_eraseDups, List.map_singleton]
  generalize calls.map foldCase = seen
  by_cases known : foldCase name ∈ seen <;> simp [List.removeAll, List.eraseDups_cons, known]

theorem distinctNames_prefix {calls longer : List String} (begins : calls <+: longer) :
    distinctNames calls <+: distinctNames longer := by
  obtain ⟨more, rfl⟩ := begins
  rw [distinctNames, distinctNames, List.map_append, List.eraseDups_append]
  exact List.prefix_append ..

theorem mem_distinctNames {calls : List String} {name : String} :
    name ∈ distinctNames calls ↔ ∃ i : Fin calls.length, foldCase calls[i] = name := by
  rw [distinctNames, List.mem_eraseDups, List.mem_map]
  constructor
  · rintro ⟨call, member, same⟩
    obtain ⟨i, within, rfl⟩ := List.mem_iff_getElem.mp member
    exact ⟨⟨i, within⟩, same⟩
  · rintro ⟨i, same⟩
    exact ⟨_, List.getElem_mem i.isLt, same⟩

namespace AtomTable

theorem names_intern (name : String) (table : AtomTable) :
    (table.intern name).2.names =
      if foldCase name ∈ table.names then table.names else table.names ++ [foldCase name] := by
  cases found : table.names.idxOf? (foldCase name) with
  | none =>
    rw [if_neg (List.idxOf?_eq_none_iff.mp found)]
    simp only [intern, found]
  | some id =>
    have known : foldCase name ∈ table.names := by
      by_contra missing
      rw [List.idxOf?_eq_none_iff.mpr missing] at found
      cases found
    rw [if_pos known]
    simp only [intern, found]

theorem intern_eq_idxOf (name : String) (table : AtomTable) :
    (table.intern name).1 = (table.intern name).2.names.idxOf (foldCase name) := by
  rw [List.idxOf_eq_getD_idxOf?]
  cases found : table.names.idxOf? (foldCase name) with
  | none =>
    simp only [intern, found]
    rw [← List.idxOf_eq_getD_idxOf?,
      List.idxOf_append_of_notMem (List.idxOf?_eq_none_iff.mp found), List.idxOf_cons_self,
      Nat.add_zero]
  | some id => simp only [intern, found, Option.getD_some]

def after (calls : List String) : AtomTable :=
  calls.foldl (fun table name => (table.intern name).2) {}

theorem after_concat (calls : List String) (name : String) :
    after (calls ++ [name]) = ((after calls).intern name).2 := by
  rw [after, List.foldl_append]
  rfl

theorem names_after (calls : List String) : (after calls).names = distinctNames calls := by
  induction calls using List.reverseRecOn with
  | nil => rfl
  | append_singleton calls name ih =>
    rw [after_concat, names_intern, distinctNames_concat, ih]

theorem nodup_after (calls : List String) : (after calls).names.Nodup := by
  induction calls using List.reverseRecOn with
  | nil => exact List.nodup_nil
  | append_singleton calls name ih =>
    rw [after_concat]
    exact (intern_precedes name _).once ih

theorem size_after_le (calls : List String) : (after calls).size ≤ calls.length := by
  induction calls using List.reverseRecOn with
  | nil => exact Nat.le_refl 0
  | append_singleton calls name ih =>
    rw [size] at ih ⊢
    rw [after_concat, names_intern, List.length_append, List.length_singleton]
    split
    · exact Nat.le_succ_of_le ih
    · rw [List.length_append, List.length_singleton]
      exact Nat.succ_le_succ ih

end AtomTable

namespace Interner

theorem isCapital_of_upper {c : Char} (upper : c.isUpper = true) :
    isCapital c.toUInt8 = true := by
  have ascii := isUpper_iff.mp upper
  exact ascii_of_numbers (P := fun c => c.isUpper = true → isCapital c.toUInt8 = true)
    (by decide) c (by omega) upper

theorem foldCase_of_no_capital {name : String}
    (small : (utf8Bytes name).any isCapital = false) : foldCase name = name := by
  refine foldCase_of_small fun c member => ?_
  by_contra upper
  rw [Bool.not_eq_false] at upper
  have ascii := isUpper_iff.mp upper
  have byte : c.toUInt8 ∈ utf8Bytes name := by
    rw [utf8Bytes_eq, encode, List.mem_flatMap]
    refine ⟨c, member, ?_⟩
    rw [encodeChar_ascii (by omega)]
    exact List.mem_singleton_self _
  exact Bool.false_ne_true
    (small.symm.trans (List.any_eq_true.mpr ⟨_, byte, isCapital_of_upper upper⟩))

theorem intern_eq (name : String) (t : Interner) : t.intern name = t.number (foldCase name) := by
  rw [intern]
  split
  · rfl
  · next small =>
    rw [foldCase_of_no_capital (Bool.eq_false_iff.mpr small)]

theorem idxOf_concat (names : List String) (last name : String) :
    (names ++ [last]).idxOf? name =
      (names.idxOf? name).or (if last = name then some names.length else none) := by
  rw [List.idxOf?, List.findIdx?_append]
  by_cases same : last = name <;> simp [List.findIdx?_cons, same]

structure Matches (t : Interner) (table : AtomTable) : Prop where
  names : t.names.toList.map SharedName.text = table.names
  numbers : ∀ name, t.numbers[name]?.map UInt32.toNat = table.names.idxOf? name

theorem Matches.intern {t : Interner} {table : AtomTable} (same : Matches t table)
    (room : table.size < 2 ^ 32) (name : String) :
    (t.intern name).1.toNat = (table.intern name).1 ∧
      Matches (t.intern name).2 (table.intern name).2 := by
  have here := same.numbers (foldCase name)
  rw [intern_eq, number, AtomTable.intern]
  cases found : t.numbers[foldCase name]? with
  | some id =>
    rw [found, Option.map_some] at here
    simp only [← here, true_and]
    exact same
  | none =>
    rw [found, Option.map_none] at here
    have next : (UInt32.ofNat t.names.size).toNat = table.names.length := by
      rw [← same.names, List.length_map, Array.length_toList]
      refine UInt32.toNat_ofNat_of_lt' ?_
      rwa [AtomTable.size, ← same.names, List.length_map, Array.length_toList] at room
    simp only [← here]
    refine ⟨next, ?_, fun other => ?_⟩
    · simp only [insert, Array.toList_push, List.map_append, same.names]
      rfl
    · simp only [insert, Std.HashMap.getElem?_insert, beq_iff_eq, idxOf_concat]
      by_cases last : foldCase name = other
      · rw [if_pos last, if_pos last, ← last, ← here, Option.map_some, next]
        rfl
      · rw [if_neg last, if_neg last, Option.or_none]
        exact same.numbers other

section

variable {t : Interner} {table : AtomTable}

theorem Matches.held (same : Matches t table) (n : Nat) :
    t.names[n]? = table.names[n]?.map SharedName.mk := by
  have whole : t.names.toList = table.names.map SharedName.mk := by
    rw [← same.names, List.map_map]
    exact (List.map_id _).symm
  rw [← Array.getElem?_toList, whole, List.getElem?_map]

theorem Matches.share_eq (same : Matches t table) (id : UInt32) :
    t.share id = ⟨table.resolve id.toNat⟩ := by
  rw [share, same.held, AtomTable.resolve]
  cases table.names[id.toNat]? <;> rfl

theorem Matches.resolve_eq (same : Matches t table) (id : UInt32) :
    t.resolve id = table.resolve id.toNat := by
  rw [resolve, same.held, AtomTable.resolve]
  cases table.names[id.toNat]? <;> rfl

theorem Matches.numbers_iff (same : Matches t table) (once : table.names.Nodup) (name : String)
    (id : UInt32) : t.numbers[name]? = some id ↔ t.names[id.toNat]? = some ⟨name⟩ := by
  have number : t.numbers[name]? = some id ↔ table.names.idxOf? name = some id.toNat := by
    rw [← same.numbers, Option.map_eq_some_iff]
    constructor
    · intro found
      exact ⟨id, found, rfl⟩
    · rintro ⟨other, found, equal⟩
      rw [found, UInt32.toNat_inj.mp equal]
  have place : t.names[id.toNat]? = some ⟨name⟩ ↔ table.names[id.toNat]? = some name := by
    rw [same.held, Option.map_eq_some_iff]
    simp
  rw [number, place, List.idxOf?_eq_some_iff, List.getElem?_eq_some_iff]
  refine exists_congr fun within => and_iff_left_of_imp ?_
  rintro here j less there
  exact absurd (once.getElem_inj_iff.mp (there.trans here.symm)) (Nat.ne_of_lt less)

end

def after (calls : List String) : Interner :=
  calls.foldl (fun t name => (t.intern name).2) {}

def answer (calls : List String) (i : Fin calls.length) : UInt32 :=
  ((after (calls.take i)).intern calls[i]).1

theorem after_concat (calls : List String) (name : String) :
    after (calls ++ [name]) = ((after calls).intern name).2 := by
  rw [after, List.foldl_append]
  rfl

theorem after_matches {calls : List String} (few : calls.length ≤ 2 ^ 32) :
    Matches (after calls) (AtomTable.after calls) := by
  induction calls using List.reverseRecOn with
  | nil => exact ⟨rfl, fun name => by simp [after, AtomTable.after]⟩
  | append_singleton calls name ih =>
    rw [List.length_append, List.length_singleton] at few
    have fewer := AtomTable.size_after_le calls
    rw [after_concat, AtomTable.after_concat]
    exact ((ih (by omega)).intern (by omega) name).2

theorem answer_plain {calls : List String} (few : calls.length ≤ 2 ^ 32)
    (i : Fin calls.length) :
    (answer calls i).toNat = ((AtomTable.after (calls.take i)).intern calls[i]).1 := by
  have less := i.isLt
  have before : (calls.take i).length = i := List.length_take_of_le (Nat.le_of_lt less)
  have room := AtomTable.size_after_le (calls.take i)
  exact ((after_matches (by omega)).intern (by omega) _).1

theorem answer_eq {calls : List String} (few : calls.length ≤ 2 ^ 32) (i : Fin calls.length)
    {n : Nat} (later : i < n) : foldCase calls[i] ∈ distinctNames (calls.take n) ∧
      (answer calls i).toNat = (distinctNames (calls.take n)).idxOf (foldCase calls[i]) := by
  have upTo : calls.take i ++ [calls[i]] = calls.take (i + 1) := List.take_append_getElem i.isLt
  have known : foldCase calls[i] ∈ distinctNames (calls.take (i + 1)) := by
    rw [← upTo, distinctNames_concat]
    split
    · assumption
    · exact List.mem_append_right _ (List.mem_singleton_self _)
  obtain ⟨more, whole⟩ := distinctNames_prefix (List.take_prefix_take_left later)
  rw [answer_plain few, AtomTable.intern_eq_idxOf, ← AtomTable.after_concat,
    AtomTable.names_after, upTo, ← whole, List.idxOf_append_of_mem known]
  exact ⟨List.mem_append_left _ known, rfl⟩

theorem answer_all {calls : List String} (few : calls.length ≤ 2 ^ 32) (i : Fin calls.length) :
    foldCase calls[i] ∈ distinctNames calls ∧
      (answer calls i).toNat = (distinctNames calls).idxOf (foldCase calls[i]) := by
  have all := answer_eq few i i.isLt
  rwa [List.take_length] at all

theorem resolve_answer {calls : List String} (few : calls.length ≤ 2 ^ 32)
    (i : Fin calls.length) {n : Nat} (later : i < n) :
    (AtomTable.after (calls.take n)).resolve (answer calls i).toNat = foldCase calls[i] := by
  obtain ⟨known, place⟩ := answer_eq few i later
  rw [AtomTable.resolve, AtomTable.names_after, place, List.getElem?_idxOf known]
  rfl

theorem resolve_other {calls : List String} (few : calls.length ≤ 2 ^ 32) {id : UInt32}
    (other : ∀ i, answer calls i ≠ id) : (AtomTable.after calls).resolve id.toNat = "" := by
  have once := AtomTable.nodup_after calls
  rw [AtomTable.names_after] at once
  rw [AtomTable.resolve, AtomTable.names_after]
  cases held : (distinctNames calls)[id.toNat]? with
  | none => rfl
  | some name =>
    obtain ⟨within, here⟩ := List.getElem?_eq_some_iff.mp held
    obtain ⟨i, call⟩ := mem_distinctNames.mp (here ▸ List.getElem_mem within)
    refine absurd (UInt32.toNat_inj.mp ?_) (other i)
    rw [(answer_all few i).2, call, ← here, once.idxOf_getElem]

structure Stable (calls : List String) : Prop where
  /-- Two calls are given one number just when their names differ in letter case at most. -/
  alike : ∀ i j, answer calls i = answer calls j ↔ eqIgnoreCase calls[i] calls[j] = true
  /-- From the call on, whatever calls follow, its number leads to its name. -/
  resolved : ∀ (i : Fin calls.length) (n : Nat), i < n →
    (after (calls.take n)).resolve (answer calls i) = foldCase calls[i] ∧
      (after (calls.take n)).share (answer calls i) = ⟨foldCase calls[i]⟩
  /-- Numbers are given in the order in which names are first met, beginning with 0. -/
  ordered : ∀ i, (answer calls i).toNat = (distinctNames calls).idxOf (foldCase calls[i])
  size : (after calls).size = (distinctNames calls).length
  /-- A number that none of the calls was given has the empty name. -/
  unknown : ∀ id, (∀ i, answer calls i ≠ id) →
    (after calls).resolve id = "" ∧ (after calls).share id = ⟨""⟩
  /-- The hash table and the list of names are inverse to each other. -/
  inverse : ∀ name (id : UInt32),
    (after calls).numbers[name]? = some id ↔ (after calls).names[id.toNat]? = some ⟨name⟩
  /-- The numbers and names are those of the table of atoms. -/
  plain : Matches (after calls) (AtomTable.after calls) ∧
    ∀ i, (answer calls i).toNat = ((AtomTable.after (calls.take i)).intern calls[i]).1

/-- As long as there are numbers, interning gives each name its own, and never another. -/
theorem interning_stable {calls : List String} (few : calls.length < 2 ^ 32) : Stable calls := by
  have room : calls.length ≤ 2 ^ 32 := Nat.le_of_lt few
  have same := after_matches room
  have all := answer_all room
  refine ⟨fun i j => ?_, fun i n later => ?_, fun i => (all i).2, ?_, fun id other => ?_,
    same.numbers_iff (AtomTable.nodup_after calls), same, answer_plain room⟩
  · rw [← UInt32.toNat_inj, (all i).2, (all j).2, List.idxOf_inj (all i).1, eqIgnoreCase,
      beq_iff_eq]
  · have held : Matches (after (calls.take n)) (AtomTable.after (calls.take n)) := by
      refine after_matches ?_
      rw [List.length_take]
      omega
    have name := resolve_answer room i later
    exact ⟨(held.resolve_eq _).trans name, (held.share_eq _).trans (congrArg _ name)⟩
  · rw [← AtomTable.names_after, ← same.names, List.length_map, Array.length_toList]
    rfl
  · have none := resolve_other room other
    exact ⟨(same.resolve_eq _).trans none, (same.share_eq _).trans (congrArg _ none)⟩

theorem interning_stable_tags : ["Div", "p", "DIV"].length < 2 ^ 32 ∧
    Stable ["Div", "p", "DIV"] ∧ distinctNames ["Div", "p", "DIV"] = ["div", "p"] :=
  ⟨by decide, interning_stable (by decide), by cbv⟩

end Interner

end PageFilters
