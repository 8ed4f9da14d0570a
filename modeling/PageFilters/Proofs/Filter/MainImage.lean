import PageFilters.Filter.ImagePriority
import PageFilters.Filter.Policy
import PageFilters.Proofs.Markup.Writable

/-!
The main image of a page that is complete, and what promoting it makes of the page. Nothing here
remembers anything: every element is judged by the elements around it and by all that happens before
it, and the first one that qualifies is exchanged in its place. The same page comes about in one
pass from left to right that stops at that element.
-/

namespace PageFilters

inductive Event where
  | start (e : Element)
  | stop (e : Element)
  deriving DecidableEq, Repr

namespace Event

def element : Event → Element
  | start e | stop e => e

def baseHref? : Event → Option String
  | start e => if e.keyword = .base then e.value? "href" else none
  | stop _ => none

end Event

def events : List (Tree NodeData) → List Event
  | [] => []
  | .node (.element e) inside :: rest => .start e :: (events inside ++ .stop e :: events rest)
  | _ :: rest => events rest

/-- Whether the last thing that happened to a body is that it started. -/
def insideBody (before : List Event) : Bool :=
  match (before.filter fun event => event.element.keyword == .body).getLast? with
  | some (.start _) => true
  | _ => false

def Element.mayChange (e : Element) : Bool :=
  !e.hasAttribute "data-pagespeed-no-transform" && !e.hasAttribute "pagespeed_no_transform"

theorem Element.mayChange_iff (e : Element) : e.mayChange = true ↔ Policy.isMarked e = false := by
  simp [mayChange, Policy.isMarked, Policy.noTransformNames]

section

variable [UrlLibrary]

/-- The base URL after what happened: the first reference of a `base` element counts, if it can be
resolved. -/
def baseAt (url : Url) (before : List Event) : Url :=
  ((before.findSome? Event.baseHref?).bind fun href =>
    (UrlLibrary.join url href).toOption).getD url

/-- An element in its place: the numbers of the children that lead to its parent, its own number,
the elements around it from the nearest outwards, and what happens before it starts. -/
structure Site where
  path : List Nat
  index : Nat
  around : List Element
  before : List Event
  element : Element
  inside : List (Tree NodeData)

namespace Site

def below (i : Nat) (x : Site) : Site :=
  { x with path := i :: x.path }

/-- The source of an element that may be promoted. -/
def source? (url : Url) (x : Site) : Option String :=
  if x.element.keyword = .img ∧ insideBody x.before = true ∧
      (∀ e ∈ x.around, e.keyword ≠ .noscript) ∧
      (∀ e ∈ x.element :: x.around, e.mayChange = true)
  then x.element.eligibleSrc? (some (baseAt url x.before))
  else none

def choice? (url : Url) (x : Site) : Option (Site × String) :=
  (x.source? url).map (x, ·)

end Site

def sites (around : List Element) (before : List Event) (i : Nat) :
    List (Tree NodeData) → List Site
  | [] => []
  | .node (.element e) inside :: rest =>
    ⟨[], i, around, before, e, inside⟩ ::
      ((sites (e :: around) (before ++ [.start e]) 0 inside).map (Site.below i) ++
        sites around (before ++ .start e :: (events inside ++ [.stop e])) (i + 1) rest)
  | _ :: rest => sites around before (i + 1) rest

/-- The first element that may be promoted, with its source. -/
def mainImage? (url : Url) (ts : List (Tree NodeData)) : Option (Site × String) :=
  (sites [] [] 0 ts).findSome? (Site.choice? url)

end

/-- Attributes without the first `loading`, if that says `lazy`. -/
def withoutLazy (attributes : List Attribute) : List Attribute :=
  match attributes.findIdx? (AttributeOf.isNamed "loading") with
  | none => attributes
  | some i =>
    if (attributes[i]?.bind AttributeOf.value).any (eqIgnoreCase "lazy") then
      attributes.eraseIdx i
    else attributes

/-- Attributes with a high fetch priority, in the place of the first one if there is one. -/
def withHighPriority (attributes : List Attribute) : List Attribute :=
  match attributes.findIdx? (AttributeOf.isNamed "fetchpriority") with
  | none => attributes ++ [⟨"fetchpriority", some "high", .double⟩]
  | some i => attributes.modify i fun a => { a with value := some "high" }

/-- Attributes followed by the exemptions that are missing. -/
def withExemptions (attributes : List Attribute) : List Attribute :=
  attributes ++ (["data-pagespeed-no-defer", "pagespeed_no_defer"].filter fun name =>
    !attributes.any (AttributeOf.isNamed name)).map fun name => ⟨name, some "1", .double⟩

def Element.promoted (e : Element) : Element :=
  { e with attributes := withExemptions (withHighPriority (withoutLazy e.attributes)) }

theorem hasAttribute_eq (name : String) (e : Element) :
    e.hasAttribute name = e.attributes.any (AttributeOf.isNamed name) := by
  rw [Element.hasAttribute, Element.attribute?, List.isSome_find?]

theorem loadEagerly_eq (e : Element) :
    ImagePriority.loadEagerly e = { e with attributes := withoutLazy e.attributes } := by
  unfold ImagePriority.loadEagerly withoutLazy Element.value? Element.attribute?
    Element.eraseAttribute
  rw [List.find?_eq_bind_findIdx?_getElem?, List.eraseP_eq_eraseIdx]
  cases e.attributes.findIdx? (AttributeOf.isNamed "loading") with
  | none => rfl
  | some i =>
    simp only [Option.bind_some]
    cases e.attributes[i]?.bind AttributeOf.value with
    | none => rfl
    | some value =>
      simp only [Option.map_some, Option.getD_some, Option.any_some]
      split <;> rfl

theorem modifyFirst_eq (p : α → Bool) (f : α → α) (l : List α) :
    modifyFirst p f l = match l.findIdx? p with
      | none => l
      | some i => l.modify i f := by
  induction l with
  | nil => rfl
  | cons a l ih =>
    rw [modifyFirst, List.findIdx?_cons, ih]
    cases p a with
    | true => rfl
    | false => cases l.findIdx? p <;> rfl

theorem fetchFirst_eq (e : Element) :
    ImagePriority.fetchFirst e = { e with attributes := withHighPriority e.attributes } := by
  unfold ImagePriority.fetchFirst withHighPriority
  rw [hasAttribute_eq, ← List.findIdx?_isSome, Element.setValue, modifyFirst_eq]
  cases e.attributes.findIdx? (AttributeOf.isNamed "fetchpriority") <;> rfl

theorem addMarks_eq (names : List String)
    (apart : names.Pairwise fun a b => eqIgnoreCase a b = false) (e : Element) :
    names.foldl ImagePriority.addMark e =
      { e with attributes := e.attributes ++ (names.filter fun name =>
        !e.attributes.any (AttributeOf.isNamed name)).map fun name =>
          ⟨name, some "1", .double⟩ } := by
  induction names generalizing e with
  | nil => simp
  | cons name names ih =>
    rw [List.pairwise_cons] at apart
    obtain ⟨different, apart⟩ := apart
    rw [List.foldl_cons, ih apart, ImagePriority.addMark, hasAttribute_eq, List.filter_cons]
    cases found : e.attributes.any (AttributeOf.isNamed name) with
    | true => rfl
    | false =>
      have same : ∀ other ∈ names,
          (!(e.addAttribute name "1" .double).attributes.any (AttributeOf.isNamed other)) =
            !e.attributes.any (AttributeOf.isNamed other) := by
        intro other member
        simp [Element.addAttribute, AttributeOf.isNamed, different other member]
      simp only [Bool.false_eq_true, ↓reduceIte, Bool.not_false]
      rw [List.filter_congr same]
      simp [Element.addAttribute]

theorem promote_eq (e : Element) : ImagePriority.promote e = e.promoted := by
  have apart : ImagePriority.noDeferNames.Pairwise fun a b => eqIgnoreCase a b = false := by
    have different : eqIgnoreCase "data-pagespeed-no-defer" "pagespeed_no_defer" = false := by
      cbv
    simp [ImagePriority.noDeferNames, different]
  rw [ImagePriority.promote, addMarks_eq _ apart, fetchFirst_eq, loadEagerly_eq]
  rfl

theorem promote_eq_promoted : ImagePriority.promote = Element.promoted :=
  funext promote_eq

def Element.preloading (src : String) : Element :=
  ⟨"link", [⟨"rel", some "preload", .double⟩, ⟨"as", some "image", .double⟩,
    ⟨"href", some src, .double⟩]⟩

theorem preloadLink_eq (src : String) : ImagePriority.preloadLink src = Element.preloading src :=
  rfl

/-- The trees that take the place of the main image. -/
def Site.promoted (x : Site) (src : String) : List (Tree NodeData) :=
  [.node (.element (Element.preloading src)) [], .node (.element x.element.promoted) x.inside]

def replaceAt (new : List (Tree α)) (index : Nat) : List Nat → List (Tree α) → List (Tree α)
  | [], ts => ts.take index ++ new ++ ts.drop (index + 1)
  | i :: path, ts => ts.modify i fun t => .node t.label (replaceAt new index path t.children)

def promoteMainImage [UrlLibrary] (url : Url) : Tree NodeData → Tree NodeData
  | .node data ts =>
    match mainImage? url ts with
    | none => .node data ts
    | some (x, src) => .node data (replaceAt (x.promoted src) x.index x.path ts)

end PageFilters
