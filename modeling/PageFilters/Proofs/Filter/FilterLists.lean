import PageFilters.Filter.Options
import PageFilters.Proofs.Text.Case
import PageFilters.Proofs.Text.Trim

/-!
Lists that adjust options. A list in which some name is unknown changes nothing; in every other list
the last entry that names a filter decides on it.
-/

namespace PageFilters

theorem splitOn_eq (separates : Char → Bool) (cs : List Char) :
    splitOn separates cs = cs.splitOnP separates := by
  induction cs with
  | nil => rw [splitOn, List.splitOnP_nil]
  | cons c cs ih =>
    rw [splitOn, List.splitOnP_cons_eq_if_modifyHead, ih]
    split
    · rfl
    · split
      · next part parts split => rw [split, List.modifyHead_cons]
      · next none => exact absurd none (List.splitOnP_ne_nil _ _)

namespace FilterKind

def IsCalled (kind : FilterKind) (text : String) : Prop :=
  eqIgnoreCase kind.name text = true ∨ eqIgnoreCase kind.id text = true

theorem call_small (kind : FilterKind) : foldCase kind.name = kind.name ∧
    foldCase kind.id = kind.id := by
  cases kind
  · exact ⟨foldCase_of_small (by simp [name]), foldCase_of_small (by simp [id])⟩
  · exact ⟨foldCase_of_small (by simp [name]), foldCase_of_small (by simp [id])⟩

theorem called_unique {kind other : FilterKind} {text : String} (first : kind.IsCalled text)
    (second : other.IsCalled text) : kind = other := by
  have calls {kind : FilterKind} (called : kind.IsCalled text) :
      foldCase text ∈ [kind.name, kind.id] := by
    obtain ⟨name, id⟩ := call_small kind
    rcases called with same | same
    · rw [← beq_iff_eq.mp same, name]
      exact List.mem_cons_self ..
    · rw [← beq_iff_eq.mp same, id]
      exact List.mem_cons_of_mem _ (List.mem_cons_self ..)
  have apart : ∀ call ∈ [imagePriority.name, imagePriority.id],
      call ∉ [legacyPolyfills.name, legacyPolyfills.id] := by decide
  cases kind <;> cases other
  · rfl
  · exact absurd (calls second) (apart _ (calls first))
  · exact absurd (calls first) (apart _ (calls second))
  · rfl

theorem mem_all (kind : FilterKind) : kind ∈ all := by
  cases kind <;> decide

theorem ofName_eq_some {text : String} {kind : FilterKind} :
    ofName? text = some kind ↔ kind.IsCalled text := by
  constructor
  · intro found
    simpa [IsCalled] using List.find?_some found
  · intro called
    cases found : ofName? text with
    | none =>
      have none := List.find?_eq_none.mp found kind (mem_all kind)
      exact absurd (by simpa [IsCalled] using called) none
    | some other =>
      have same : other.IsCalled text := by simpa [IsCalled] using List.find?_some found
      rw [called_unique same called]

end FilterKind

namespace Options

/-- The texts between the commas of a list, without blanks around them, and those left out that are
empty then. -/
def listed (list : String) : List (List Char) :=
  ((list.toList.splitOn ',').map trim).filter (· ≠ [])

def isSigned (entry : List Char) : Bool :=
  entry.head? == some '+' || entry.head? == some '-'

/-- The name in an entry: one sign before it does not belong to it, nor do blanks around it. -/
def nameIn (entry : List Char) : String :=
  String.ofList (trim (if isSigned entry then entry.tail else entry))

def Names (entry : List Char) (kind : FilterKind) : Prop :=
  kind.IsCalled (nameIn entry)

def turnsOff (entry : List Char) : Bool :=
  entry.head? == some '-'

def Known (entry : List Char) : Prop :=
  ∃ kind, Names entry kind

def Valid (list : String) : Prop :=
  ∀ entry ∈ listed list, Known entry

theorem entries_eq (list : String) : entries list = listed list := by
  rw [entries, listed, splitOn_eq]
  congr 1
  funext entry
  cases entry <;> rfl

theorem listed_append (a b : String) : listed (a ++ "," ++ b) = listed a ++ listed b := by
  have whole : (a ++ "," ++ b).toList = a.toList ++ ',' :: b.toList := by simp
  rw [listed, whole, List.splitOn_append_cons_self, List.map_append, List.filter_append]
  rfl

theorem signed_eq {list : String} {entry : List Char} (member : entry ∈ listed list) :
    signed entry = (!turnsOff entry, nameIn entry) := by
  have trimmed : trim entry = entry := by
    obtain ⟨part, _, rfl⟩ := List.mem_map.mp (List.mem_filter.mp member).1
    exact trim_trim part
  unfold signed
  split
  · rfl
  · rfl
  · next notPlus notMinus =>
    have other (sign : Char) (begins : ∀ name, entry ≠ sign :: name) :
        (entry.head? == some sign) = false := by
      rw [beq_eq_false_iff_ne]
      intro first
      obtain ⟨name, whole⟩ := List.head?_eq_some_iff.mp first
      exact begins name whole
    rw [turnsOff, nameIn, isSigned, other '+' notPlus, other '-' notMinus]
    simp [trimmed]

theorem readChange_known {list : String} {entry : List Char} (member : entry ∈ listed list)
    {kind : FilterKind} (names : Names entry kind) :
    readChange entry = .ok ⟨!turnsOff entry, kind⟩ := by
  rw [readChange, signed_eq member]
  simp only [FilterKind.ofName_eq_some.mpr names]

theorem readChange_unknown {list : String} {entry : List Char} (member : entry ∈ listed list)
    (unknown : ¬ Known entry) : readChange entry = .error (.unknownFilter (nameIn entry)) := by
  have none : FilterKind.ofName? (nameIn entry) = none := by
    cases found : FilterKind.ofName? (nameIn entry) with
    | none => rfl
    | some kind => exact absurd ⟨kind, FilterKind.ofName_eq_some.mp found⟩ unknown
  rw [readChange, signed_eq member]
  simp only [none]

theorem isEnabled_ofPred (p : FilterKind → Bool) (kind : FilterKind) :
    (ofPred p).isEnabled kind = p kind := by
  simp [ofPred, isEnabled, FilterKind.mem_all]

theorem isEnabled_apply (o : Options) (c : Change) (kind : FilterKind) :
    (c.apply o).isEnabled kind = if kind = c.kind then c.enables else o.isEnabled kind := by
  rw [Change.apply]
  by_cases same : kind = c.kind
  · cases enables : c.enables <;> simp [enable, disable, isEnabled_ofPred, same]
  · cases enables : c.enables <;> simp [enable, disable, isEnabled_ofPred, same]

/-- Whether the entries leave a filter on: the last one that names it decides, and without one it
stays as it was before. -/
def LeaveOn (entries : List (List Char)) (kind : FilterKind) (before : Prop) : Prop :=
  (∃ front entry rest, entries = front ++ entry :: rest ∧ Names entry kind ∧
    (∀ later ∈ rest, ¬ Names later kind) ∧ turnsOff entry = false) ∨
  (∀ entry ∈ entries, ¬ Names entry kind) ∧ before

theorem leaveOn_nil {kind : FilterKind} {before : Prop} : LeaveOn [] kind before ↔ before := by
  simp [LeaveOn]

theorem leaveOn_cons {entry : List Char} {entries : List (List Char)} {kind : FilterKind}
    {before : Prop} : LeaveOn (entry :: entries) kind before ↔ LeaveOn entries kind
      (Names entry kind ∧ turnsOff entry = false ∨ ¬ Names entry kind ∧ before) := by
  constructor
  · rintro (⟨front, last, rest, whole, names, later, on⟩ | ⟨none, held⟩)
    · cases front with
      | nil =>
        obtain ⟨rfl, rfl⟩ := List.cons.inj whole
        exact .inr ⟨later, .inl ⟨names, on⟩⟩
      | cons _ front => exact .inl ⟨front, last, rest, (List.cons.inj whole).2, names, later, on⟩
    · obtain ⟨first, others⟩ := List.forall_mem_cons.mp none
      exact .inr ⟨others, .inr ⟨first, held⟩⟩
  · rintro (⟨front, last, rest, rfl, names, later, on⟩ | ⟨none, ⟨names, on⟩ | ⟨first, held⟩⟩)
    · exact .inl ⟨entry :: front, last, rest, rfl, names, later, on⟩
    · exact .inl ⟨[], entry, entries, rfl, names, none, on⟩
    · exact .inr ⟨List.forall_mem_cons.mpr ⟨first, none⟩, held⟩

variable {list : String}

theorem changes_leaveOn {entries : List (List Char)}
    (members : ∀ entry ∈ entries, entry ∈ listed list) (known : ∀ entry ∈ entries, Known entry) :
    ∃ changes, entries.mapM readChange = .ok changes ∧ ∀ o kind,
      (changes.foldl Change.apply o).isEnabled kind = true ↔
        LeaveOn entries kind (o.isEnabled kind = true) := by
  induction entries with
  | nil => exact ⟨[], rfl, fun o kind => leaveOn_nil.symm⟩
  | cons entry entries ih =>
    obtain ⟨member, members⟩ := List.forall_mem_cons.mp members
    obtain ⟨⟨named, names⟩, known⟩ := List.forall_mem_cons.mp known
    obtain ⟨changes, read, leave⟩ := ih members known
    refine ⟨⟨!turnsOff entry, named⟩ :: changes, ?_, fun o kind => ?_⟩
    · rw [List.mapM_cons, readChange_known member names, read]
      rfl
    · have same : Names entry kind ↔ kind = named :=
        ⟨fun other => FilterKind.called_unique other names, fun other => other ▸ names⟩
      have first : (if kind = named then !turnsOff entry else o.isEnabled kind) = true ↔
          Names entry kind ∧ turnsOff entry = false ∨
            ¬ Names entry kind ∧ o.isEnabled kind = true := by
        rw [same]
        by_cases here : kind = named <;> simp [here]
      rw [List.foldl_cons, leave, leaveOn_cons, isEnabled_apply, propext first]

theorem exists_first_unknown (invalid : ¬ Valid list) :
    ∃ front entry rest, listed list = front ++ entry :: rest ∧
      (∀ other ∈ front, Known other) ∧ ¬ Known entry := by
  classical
  cases found : (listed list).find? fun entry => ¬ Known entry with
  | none =>
    have valid : Valid list := by simpa [Valid] using List.find?_eq_none.mp found
    exact absurd valid invalid
  | some entry =>
    obtain ⟨unknown, front, rest, whole, known⟩ := List.find?_eq_some_iff_append.mp found
    exact ⟨front, entry, rest, whole, by simpa using known, by simpa using unknown⟩

theorem mapM_unknown {front rest : List (List Char)} {entry : List Char}
    (members : ∀ other ∈ front ++ entry :: rest, other ∈ listed list)
    (known : ∀ other ∈ front, Known other) (unknown : ¬ Known entry) :
    (front ++ entry :: rest).mapM readChange = .error (.unknownFilter (nameIn entry)) := by
  induction front with
  | nil =>
    rw [List.nil_append, List.mapM_cons,
      readChange_unknown (members entry (List.mem_cons_self ..)) unknown]
    rfl
  | cons other front ih =>
    obtain ⟨member, members⟩ := List.forall_mem_cons.mp members
    obtain ⟨⟨kind, names⟩, known⟩ := List.forall_mem_cons.mp known
    rw [List.cons_append, List.mapM_cons, readChange_known member names, ih members known]
    rfl

theorem run_mapM {ε σ α β : Type} (f : α → Except ε β) (as : List α) (s : σ) :
    (as.mapM fun a => (MonadExcept.ofExcept (f a) : EStateM ε σ β)).run s =
      match as.mapM f with
      | .ok bs => .ok bs s
      | .error e => .error e s := by
  induction as with
  | nil => rfl
  | cons a as ih =>
    rw [List.mapM_cons, List.mapM_cons, EStateM.run_bind]
    cases f a with
    | error e => rfl
    | ok b =>
      change ((as.mapM fun a => (MonadExcept.ofExcept (f a) : EStateM ε σ β)) >>= _).run s = _
      rw [EStateM.run_bind, ih]
      cases as.mapM f <;> rfl

theorem run_modify (changes : List Change) (o : Options) :
    (changes.forM fun change => (modify change.apply : EStateM OptionsError Options Unit)).run o =
      .ok () (changes.foldl Change.apply o) := by
  induction changes generalizing o with
  | nil => rfl
  | cons change changes ih => exact ih (change.apply o)

theorem run_adjustInPlace (list : String) (o : Options) :
    (adjustInPlace list).run o =
      match (listed list).mapM readChange with
      | .ok changes => .ok () (changes.foldl Change.apply o)
      | .error e => .error e o := by
  rw [adjustInPlace, entries_eq, EStateM.run_bind, run_mapM]
  cases (listed list).mapM readChange with
  | error e => rfl
  | ok changes => exact run_modify changes o

structure AppliedWhole (list : String) (o : Options) : Prop where
  /-- The first entry with an unknown name makes the list fail, and the options stay as they are. -/
  refused : ¬ Valid list → ∃ front entry rest, listed list = front ++ entry :: rest ∧
    (∀ other ∈ front, Known other) ∧ ¬ Known entry ∧
      (adjustInPlace list).run o = .error (.unknownFilter (nameIn entry)) o
  /-- Without such an entry, the list decides on the filters that it names, and on no others. -/
  accepted : Valid list → ∃ after, (adjustInPlace list).run o = .ok () after ∧
    ∀ kind, after.isEnabled kind = true ↔
      LeaveOn (listed list) kind (o.isEnabled kind = true)
  /-- Two lists have the same effect one after the other as when they are written as one. -/
  joined : Valid list → ∀ more, Valid more →
    (do adjustInPlace list; adjustInPlace more).run o = (adjustInPlace (list ++ "," ++ more)).run o
  /-- Options that are not held in place are the same. -/
  returned : (adjustInPlace list).run o = match adjust list o with
    | .ok after => .ok () after
    | .error e => .error e o

/-- Lists are applied as a whole, whatever the options are. -/
theorem lists_applied_whole (list : String) (o : Options) : AppliedWhole list o := by
  have itself {list : String} : ∀ entry ∈ listed list, entry ∈ listed list := fun _ member => member
  constructor
  case refused =>
    intro invalid
    obtain ⟨front, entry, rest, whole, known, unknown⟩ := exists_first_unknown invalid
    refine ⟨front, entry, rest, whole, known, unknown, ?_⟩
    have members : ∀ other ∈ front ++ entry :: rest, other ∈ listed list := by
      rw [← whole]
      exact itself
    rw [run_adjustInPlace, whole, mapM_unknown members known unknown]
  case accepted =>
    intro valid
    obtain ⟨changes, read, leave⟩ := changes_leaveOn itself valid
    exact ⟨_, by rw [run_adjustInPlace, read], leave o⟩
  case joined =>
    intro valid more validMore
    obtain ⟨changes, read, _⟩ := changes_leaveOn itself valid
    obtain ⟨others, readMore, _⟩ := changes_leaveOn itself validMore
    rw [EStateM.run_bind, run_adjustInPlace, run_adjustInPlace, listed_append, List.mapM_append,
      read]
    simp only
    rw [run_adjustInPlace, readMore]
    exact congrArg (EStateM.Result.ok ()) List.foldl_append.symm
  case returned =>
    rw [run_adjustInPlace, adjust, entries_eq]
    cases (listed list).mapM readChange <;> rfl

example : (adjustInPlace "+sp,+defer_javascript").run {} =
    .error (.unknownFilter "defer_javascript") {} := by cbv

end Options

end PageFilters
