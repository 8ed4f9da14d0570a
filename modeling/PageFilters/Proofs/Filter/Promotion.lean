import PageFilters.Proofs.Filter.MainImage

/-!
What promoting an image makes of its attributes. It reaches all of its aims but one: only the first
of several `loading` attributes is looked at, so an image that says twice that it is lazy stays
lazy, and the next promotion would find something to do.
-/

namespace PageFilters

def AttributeOf.isLazy (a : Attribute) : Bool :=
  a.value.any (eqIgnoreCase "lazy")

theorem find_modifyFirst {p : α → Bool} {f : α → α} (kept : ∀ a, p (f a) = p a) (l : List α) :
    (modifyFirst p f l).find? p = (l.find? p).map f := by
  induction l with
  | nil => rfl
  | cons a rest ih =>
    rw [modifyFirst]
    cases here : p a with
    | true =>
      rw [if_pos rfl, List.find?_cons_of_pos ((kept a).trans here), List.find?_cons_of_pos here,
        Option.map_some]
    | false =>
      rw [if_neg (by simp), List.find?_cons_of_neg (by simp [here]), ih,
        List.find?_cons_of_neg (by simp [here])]

theorem modifyFirst_of_find {p : α → Bool} {f : α → α} {a : α} {l : List α}
    (found : l.find? p = some a) (same : f a = a) : modifyFirst p f l = l := by
  induction l with
  | nil => rfl
  | cons b rest ih =>
    rw [modifyFirst]
    cases here : p b with
    | true =>
      rw [List.find?_cons_of_pos here] at found
      rw [if_pos rfl, Option.some.inj found, same]
    | false =>
      rw [List.find?_cons_of_neg (by simp [here])] at found
      rw [if_neg (by simp), ih found]

namespace Element

def named (name : String) (e : Element) : List Attribute :=
  e.attributes.filter (AttributeOf.isNamed name)

def isLazy (e : Element) : Bool :=
  (e.value? "loading").any (eqIgnoreCase "lazy")

/-- Whether the first two `loading` attributes are both lazy. -/
def isLazyTwice (e : Element) : Bool :=
  ((e.named "loading").take 2).map AttributeOf.isLazy == [true, true]

theorem attribute_eq (name : String) (e : Element) : e.attribute? name = (e.named name).head? := by
  rw [attribute?, named, List.head?_filter]

theorem value_of_named {name : String} {e e' : Element} (same : e'.named name = e.named name) :
    e'.value? name = e.value? name := by
  rw [value?, value?, attribute_eq, attribute_eq, same]

theorem hasAttribute_of_named {name : String} {e e' : Element}
    (same : e'.named name = e.named name) : e'.hasAttribute name = e.hasAttribute name := by
  rw [hasAttribute, hasAttribute, attribute_eq, attribute_eq, same]

theorem isLazy_eq (e : Element) : e.isLazy = (e.named "loading").head?.any AttributeOf.isLazy := by
  rw [isLazy, value?, attribute_eq]
  cases (e.named "loading").head? <;> rfl

theorem isNamed_apart {name other : String} (different : eqIgnoreCase other name = false)
    {a : Attribute} (isNamed : a.isNamed name = true) : a.isNamed other = false := by
  rw [AttributeOf.isNamed, eqIgnoreCase, beq_iff_eq] at isNamed
  rw [eqIgnoreCase, beq_eq_false_iff_ne] at different
  rw [AttributeOf.isNamed, eqIgnoreCase, beq_eq_false_iff_ne, isNamed]
  exact different.symm

section

variable {p : Attribute → Bool} {name : String}

theorem named_eraseAttribute (name : String) (e : Element) :
    (e.eraseAttribute name).named name = (e.named name).tail := by
  rw [named, named, eraseAttribute]
  induction e.attributes with
  | nil => rfl
  | cons a rest ih =>
    rw [List.eraseP_cons, List.filter_cons]
    cases here : a.isNamed name with
    | true => simp
    | false => simp [here, ih]

theorem filter_eraseAttribute (other : ∀ a, p a = true → a.isNamed name = false) (e : Element) :
    (e.eraseAttribute name).attributes.filter p = e.attributes.filter p := by
  rw [eraseAttribute]
  induction e.attributes with
  | nil => rfl
  | cons a rest ih =>
    rw [List.eraseP_cons]
    cases here : a.isNamed name with
    | true =>
      have apart : ¬ p a = true := fun chosen => by simp [other a chosen] at here
      rw [cond_true, List.filter_cons_of_neg apart]
    | false => rw [cond_false, List.filter_cons, List.filter_cons, ih]

theorem filter_setValue (other : ∀ a, p a = true → a.isNamed name = false) (value : String)
    (e : Element) : (e.setValue name value).attributes.filter p = e.attributes.filter p := by
  rw [setValue]
  induction e.attributes with
  | nil => rfl
  | cons a rest ih =>
    rw [modifyFirst]
    cases here : a.isNamed name with
    | true =>
      have apart : ∀ b : Attribute, b.isNamed name = true → ¬ p b = true := fun b same chosen => by
        simp [other b chosen] at same
      rw [if_pos rfl, List.filter_cons_of_neg (apart a here), List.filter_cons_of_neg]
      exact apart { a with value := some value } here
    | false => rw [if_neg (by simp), List.filter_cons, List.filter_cons, ih]

theorem filter_addAttribute (other : ∀ a, p a = true → a.isNamed name = false) (value : String)
    (quote : Quote) (e : Element) :
    (e.addAttribute name value quote).attributes.filter p = e.attributes.filter p := by
  have apart : ¬ p ⟨name, some value, quote⟩ = true := fun chosen => by
    simpa [AttributeOf.isNamed, eqIgnoreCase] using other _ chosen
  rw [addAttribute, List.filter_append, List.filter_cons_of_neg apart, List.filter_nil,
    List.append_nil]

end

theorem value_setValue {name : String} (value : String) {e : Element}
    (has : e.hasAttribute name = true) : (e.setValue name value).value? name = some value := by
  have kept : ∀ a : Attribute, AttributeOf.isNamed name { a with value := some value } =
      a.isNamed name := fun _ => rfl
  rw [value?, attribute?, setValue, find_modifyFirst kept]
  obtain ⟨a, found⟩ := Option.isSome_iff_exists.mp has
  rw [attribute?] at found
  rw [found]
  rfl

theorem value_addAttribute {name : String} (value : String) (quote : Quote) {e : Element}
    (without : e.hasAttribute name = false) :
    (e.addAttribute name value quote).value? name = some value := by
  rw [hasAttribute, Option.isSome_eq_false_iff, Option.isNone_iff_eq_none, attribute?] at without
  rw [value?, attribute?, addAttribute, List.find?_append, without]
  simp [AttributeOf.isNamed, eqIgnoreCase]

theorem setValue_of_value {name value : String} {e : Element}
    (held : e.value? name = some value) : e.setValue name value = e := by
  obtain ⟨a, found, same⟩ := Option.bind_eq_some_iff.mp held
  rw [setValue, modifyFirst_of_find found]
  rw [← same]

theorem hasAttribute_of_value {name value : String} {e : Element}
    (held : e.value? name = some value) : e.hasAttribute name = true := by
  rw [value?] at held
  obtain ⟨a, found, _⟩ := Option.bind_eq_some_iff.mp held
  rw [hasAttribute, found]
  rfl

end Element

namespace ImagePriority

open Element

section

variable {p : Attribute → Bool} {e : Element}

theorem loadEagerly_of_lazy (lazy : e.isLazy = true) :
    loadEagerly e = e.eraseAttribute "loading" := by
  rw [isLazy] at lazy
  rw [loadEagerly, if_pos]
  cases held : e.value? "loading" with
  | none => simp [held] at lazy
  | some value => simpa [held] using lazy

theorem loadEagerly_of_eager (eager : e.isLazy = false) : loadEagerly e = e := by
  rw [isLazy] at eager
  rw [loadEagerly, if_neg]
  cases held : e.value? "loading" with
  | none => simp
  | some value => simpa [held] using eager

theorem loadEagerly_eq_self_iff (e : Element) : loadEagerly e = e ↔ e.isLazy = false := by
  constructor
  · intro same
    by_contra lazy
    rw [Bool.not_eq_false] at lazy
    have fewer := congrArg (fun e : Element => (e.named "loading").length) same
    rw [loadEagerly_of_lazy lazy] at fewer
    simp only [named_eraseAttribute, List.length_tail] at fewer
    rw [isLazy_eq] at lazy
    cases held : e.named "loading" with
    | nil => simp [held] at lazy
    | cons a rest => simp [held] at fewer
  · exact loadEagerly_of_eager

theorem filter_loadEagerly (other : ∀ a, p a = true → a.isNamed "loading" = false)
    (e : Element) : (loadEagerly e).attributes.filter p = e.attributes.filter p := by
  cases lazy : e.isLazy with
  | true => rw [loadEagerly_of_lazy lazy, filter_eraseAttribute other]
  | false => rw [loadEagerly_of_eager lazy]

theorem filter_fetchFirst (other : ∀ a, p a = true → a.isNamed "fetchpriority" = false)
    (e : Element) : (fetchFirst e).attributes.filter p = e.attributes.filter p := by
  rw [fetchFirst]
  split
  · exact filter_setValue other ..
  · exact filter_addAttribute other ..

theorem value_fetchFirst (e : Element) : (fetchFirst e).value? "fetchpriority" = some "high" := by
  rw [fetchFirst]
  split
  · next has => exact value_setValue _ has
  · next without => exact value_addAttribute _ _ (by simpa using without)

theorem fetchFirst_of_high (high : e.value? "fetchpriority" = some "high") : fetchFirst e = e := by
  rw [fetchFirst, if_pos (hasAttribute_of_value high), setValue_of_value high]

theorem filter_addMark {name : String} (other : ∀ a, p a = true → a.isNamed name = false)
    (e : Element) : (addMark e name).attributes.filter p = e.attributes.filter p := by
  rw [addMark]
  split
  · rfl
  · exact filter_addAttribute other ..

theorem filter_addMarks {names : List String}
    (other : ∀ name ∈ names, ∀ a, p a = true → a.isNamed name = false) (e : Element) :
    (names.foldl addMark e).attributes.filter p = e.attributes.filter p := by
  induction names generalizing e with
  | nil => rfl
  | cons name names ih =>
    rw [List.foldl_cons, ih fun name member => other name (List.mem_cons_of_mem _ member),
      filter_addMark (other name (List.mem_cons_self ..))]

theorem hasAttribute_addMark (e : Element) (name : String) :
    (addMark e name).hasAttribute name = true := by
  rw [addMark]
  split
  · next has => exact has
  · next without =>
    exact hasAttribute_of_value (value_addAttribute "1" .double (by simpa using without))

theorem hasAttribute_addMarks (names : List String)
    (apart : names.Pairwise fun a b => eqIgnoreCase b a = false) (e : Element) :
    ∀ name ∈ names, (names.foldl addMark e).hasAttribute name = true := by
  induction names generalizing e with
  | nil => simp
  | cons first names ih =>
    rw [List.pairwise_cons] at apart
    intro name member
    rcases List.mem_cons.mp member with rfl | member
    · have other : ∀ other ∈ names, ∀ a : Attribute, a.isNamed name = true →
          a.isNamed other = false :=
        fun other member a isNamed => isNamed_apart (apart.1 other member) isNamed
      rw [List.foldl_cons, hasAttribute_of_named (filter_addMarks other (addMark e name)),
        hasAttribute_addMark]
    · exact ih apart.2 _ name member

theorem addMarks_of_marked {names : List String}
    (marked : ∀ name ∈ names, e.hasAttribute name = true) : names.foldl addMark e = e := by
  induction names with
  | nil => rfl
  | cons name names ih =>
    rw [List.foldl_cons, addMark, if_pos (marked name (List.mem_cons_self ..))]
    exact ih fun name member => marked name (List.mem_cons_of_mem _ member)

end

def touchedNames : List String :=
  ["loading", "fetchpriority", "data-pagespeed-no-defer", "pagespeed_no_defer"]

/-- Whether an attribute has one of these names, in any letter case. -/
def touches (a : Attribute) : Bool :=
  touchedNames.any fun name => a.isNamed name

theorem touchedNames_apart :
    touchedNames.Pairwise fun name other => eqIgnoreCase other name = false := by
  simp only [touchedNames, List.pairwise_cons, List.mem_cons, List.not_mem_nil,
    or_false, forall_eq_or_imp, forall_eq, IsEmpty.forall_iff, implies_true, List.Pairwise.nil,
    and_true]
  cbv

variable {p : Attribute → Bool}

theorem name_promotion (e : Element) : (promote e).name = e.name := by
  rw [promote_eq]
  rfl

theorem filter_promote (other : ∀ name ∈ touchedNames, ∀ a, p a = true → a.isNamed name = false)
    (e : Element) : (promote e).attributes.filter p = e.attributes.filter p := by
  have marks : ∀ name ∈ noDeferNames, name ∈ touchedNames := fun name member =>
    List.mem_cons_of_mem _ (List.mem_cons_of_mem _ member)
  rw [promote, filter_addMarks fun name member => other name (marks name member),
    filter_fetchFirst (other "fetchpriority" (by simp [touchedNames])),
    filter_loadEagerly (other "loading" (by simp [touchedNames]))]

theorem named_loading_promote (e : Element) :
    (promote e).named "loading" =
      if e.isLazy then (e.named "loading").tail else e.named "loading" := by
  have other : ∀ name ∈ "fetchpriority" :: noDeferNames, ∀ a : Attribute,
      a.isNamed "loading" = true → a.isNamed name = false := by
    have apart := (List.pairwise_cons.mp touchedNames_apart).1
    exact fun name member a isNamed => isNamed_apart (apart name member) isNamed
  rw [named, promote, filter_addMarks fun name member => other name (List.mem_cons_of_mem _ member),
    filter_fetchFirst (other "fetchpriority" (List.mem_cons_self ..))]
  cases lazy : e.isLazy with
  | true => rw [loadEagerly_of_lazy lazy, if_pos rfl, ← named, named_eraseAttribute]
  | false => rw [loadEagerly_of_eager lazy, if_neg (by simp), named]

theorem isLazy_promote (e : Element) : (promote e).isLazy = e.isLazyTwice := by
  rw [isLazy_eq, named_loading_promote, isLazy_eq, isLazyTwice]
  match e.named "loading" with
  | [] => rfl
  | [first] => cases lazy : first.isLazy <;> simp [lazy]
  | first :: second :: rest =>
    cases lazy : first.isLazy <;> simp [lazy]

theorem value_promote (e : Element) : (promote e).value? "fetchpriority" = some "high" := by
  have other : ∀ name ∈ noDeferNames, ∀ a : Attribute, a.isNamed "fetchpriority" = true →
      a.isNamed name = false := by
    have apart := (List.pairwise_cons.mp (List.pairwise_cons.mp touchedNames_apart).2).1
    exact fun name member a isNamed => isNamed_apart (apart name member) isNamed
  rw [promote, value_of_named (filter_addMarks other _), value_fetchFirst]

theorem exempt_promote (e : Element) :
    ∀ name ∈ noDeferNames, (promote e).hasAttribute name = true :=
  hasAttribute_addMarks noDeferNames
    (List.pairwise_cons.mp (List.pairwise_cons.mp touchedNames_apart).2).2 _

theorem promote_promote (e : Element) : promote (promote e) = loadEagerly (promote e) := by
  have other : ∀ name ∈ "fetchpriority" :: noDeferNames, ∀ a : Attribute,
      a.isNamed name = true → a.isNamed "loading" = false := by
    intro name member a isNamed
    by_contra both
    have apart := (List.pairwise_cons.mp touchedNames_apart).1 name member
    rw [isNamed_apart apart (by simpa using both)] at isNamed
    cases isNamed
  have kept : ∀ name ∈ "fetchpriority" :: noDeferNames,
      (loadEagerly (promote e)).named name = (promote e).named name :=
    fun name member => filter_loadEagerly (other name member) _
  have first : fetchFirst (loadEagerly (promote e)) = loadEagerly (promote e) := by
    apply fetchFirst_of_high
    rw [value_of_named (kept "fetchpriority" (List.mem_cons_self ..)), value_promote]
  have exempt : ∀ name ∈ noDeferNames,
      (loadEagerly (promote e)).hasAttribute name = true := by
    intro name member
    rw [hasAttribute_of_named (kept name (List.mem_cons_of_mem _ member)),
      exempt_promote e name member]
  rw [promote, first, addMarks_of_marked exempt]

/-- Promotion sets the fetch priority and the exemptions, and leaves all other attributes as they
are. The image is no longer lazy, and to promote it again changes nothing, unless it was lazy
twice. -/
theorem promote_settles (e : Element) :
    (promote e).name = e.name ∧
      ((promote e).isLazy = true ↔ e.isLazyTwice = true) ∧
      (promote e).value? "fetchpriority" = some "high" ∧
      (promote e).hasAttribute "data-pagespeed-no-defer" = true ∧
      (promote e).hasAttribute "pagespeed_no_defer" = true ∧
      (promote e).attributes.filter (fun a => !touches a) =
        e.attributes.filter (fun a => !touches a) ∧
      (promote (promote e) = promote e ↔ e.isLazyTwice = false) := by
  have other : ∀ name ∈ touchedNames, ∀ a : Attribute, (!touches a) = true →
      a.isNamed name = false := by
    intro name member a untouched
    rw [Bool.not_eq_true', touches, List.any_eq_false] at untouched
    exact Bool.eq_false_iff.mpr (untouched name member)
  have exempt := exempt_promote e
  refine ⟨name_promotion e, ?_, value_promote e, exempt _ (by simp [noDeferNames]),
    exempt _ (by simp [noDeferNames]), filter_promote other e, ?_⟩
  · rw [isLazy_promote]
  · rw [promote_promote, loadEagerly_eq_self_iff, isLazy_promote]

theorem promote_lazyTwice :
    let e : Element := ⟨"img", [⟨"loading", some "lazy", .unquoted⟩,
      ⟨"loading", some "lazy", .unquoted⟩, ⟨"src", some "/a.jpg", .unquoted⟩]⟩
    (promote e).value? "loading" = some "lazy" ∧ promote (promote e) ≠ promote e := by
  refine ⟨by cbv, fun same => ?_⟩
  have count := congrArg (fun e : Element => e.attributes.length) same
  cbv at count

end ImagePriority

end PageFilters
