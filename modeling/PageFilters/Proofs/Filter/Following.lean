import PageFilters.Filter.Chain
import PageFilters.Proofs.Filter.MainImage
import PageFilters.Proofs.Markup.Building

/-!
What a chain knows of a page while the page is read: the base URL and whether a `noscript` is open
agree with all that has happened and with the elements that are open. A chain of one filter does at
an event what that filter does.
-/

namespace PageFilters

section

variable {α β : Type} (f g : List α → α → β)

def inTurn (before : List α) : List α → List β
  | [] => []
  | a :: rest => f before a :: inTurn (before ++ [a]) rest

theorem inTurn_append (before early late : List α) :
    inTurn f before (early ++ late) =
      inTurn f before early ++ inTurn f (before ++ early) late := by
  induction early generalizing before with
  | nil => simp [inTurn]
  | cons a early ih =>
    rw [List.cons_append, inTurn, inTurn, ih]
    simp

theorem inTurn_eq_iff (before l : List α) :
    inTurn f before l = inTurn g before l ↔
      ∀ early a, early ++ [a] <+: l → f (before ++ early) a = g (before ++ early) a := by
  induction l generalizing before with
  | nil => simp [inTurn]
  | cons b l ih =>
    simp only [inTurn, List.cons.injEq, ih]
    constructor
    · rintro ⟨here, later⟩ early a start
      cases early with
      | nil =>
        obtain ⟨rfl, _⟩ := List.cons_prefix_cons.mp start
        simpa using here
      | cons c early =>
        obtain ⟨rfl, rest⟩ := List.cons_prefix_cons.mp start
        simpa using later early a rest
    · intro agree
      refine ⟨by simpa using agree [] b (by simp), fun early a rest => ?_⟩
      simpa using agree (b :: early) a (List.cons_prefix_cons.mpr ⟨rfl, rest⟩)

end

def lastStarted (k : Keyword) (before : List Event) : Bool :=
  match (before.filter fun event => event.element.keyword == k).getLast? with
  | some (.start _) => true
  | _ => false

section

variable (k : Keyword) (before : List Event) (e : Element)

theorem lastStarted_start :
    lastStarted k (before ++ [.start e]) = (e.keyword == k || lastStarted k before) := by
  rw [lastStarted, lastStarted, List.filter_append, List.getLast?_append]
  cases here : e.keyword == k <;> simp [Event.element, here]

theorem lastStarted_stop :
    lastStarted k (before ++ [.stop e]) = (e.keyword != k && lastStarted k before) := by
  rw [lastStarted, lastStarted, List.filter_append, List.getLast?_append]
  cases here : e.keyword == k <;> simp [Event.element, here, bne]

theorem insideBody_start :
    insideBody (before ++ [.start e]) = (e.keyword == .body || insideBody before) :=
  lastStarted_start .body before e

theorem insideBody_stop :
    insideBody (before ++ [.stop e]) = (e.keyword != .body && insideBody before) :=
  lastStarted_stop .body before e

end

namespace Document

/-- A node of the page to which new nodes may be added, with the elements from it outwards. -/
structure Place (d : Document) (p : NodeId) (around : List Element) : Prop where
  sound : d.WellFormed
  container : d.IsContainer p
  attached : d.isAttached p = true
  around : (p :: d.ancestors p).filterMap d.element? = around

theorem element_eq {d d' : Document} {x : NodeId} (same : d'.data? x = d.data? x) :
    d'.element? x = d.element? x := by
  rw [element?, same, element?]

theorem element_of_data {d : Document} {x : NodeId} {e : Element}
    (held : d.data? x = some (.element e)) : d.element? x = some e := by
  rw [element?, held]

theorem data_of_element {d : Document} {x : NodeId} {e : Element}
    (held : d.element? x = some e) : d.data? x = some (.element e) := by
  unfold element? at held
  split at held
  · next found => rw [found, Option.some.inj held]
  · cases held

theorem root_place {d : Document} (sound : d.WellFormed) : d.Place root [] := by
  refine ⟨sound, root_isContainer sound.toLinked, (sound.attached_iff root).mpr .refl, ?_⟩
  rw [Linked.ancestors_of_orphan sound.root_orphan]
  simp [element?, sound.root_data]

namespace Place

variable {d d' : Document} {p : NodeId} {around : List Element}

theorem extended {q : NodeId} {ids : List NodeId} (place : d.Place p around)
    (grown : Extends d q ids d') : d'.Place p around := by
  have small := place.container.lt_size
  refine ⟨grown.sound, grown.isContainer place.container, ?_, ?_⟩
  · rw [grown.isAttached_eq place.sound small, place.attached]
  · rw [grown.ancestors_eq place.sound.toLinked small, ← place.around]
    apply List.filterMap_congr
    intro x member
    have above : x < d.size := by
      rcases (place.sound.mem_ancestors_iff.mp member).cases_head with same | ⟨c, listed, _⟩
      · exact same ▸ small
      · exact lt_size_of_mem_children listed
    exact element_eq (grown.data x above)

theorem grown {q : NodeId} {ts : List (Tree NodeData)} (place : d.Place p around)
    (grows : Grows d q ts d') : d'.Place p around := by
  obtain ⟨_, grown, _⟩ := grows
  exact place.extended grown

theorem child (place : d.Place p around) (e : Element) :
    (d.attachNew p (.element e)).Place d.size (e :: around) := by
  have grown := attachNew_extends place.sound place.container (.element e)
  have held := data_attachNew place.sound place.container (.element e)
  have later := place.extended grown
  refine ⟨grown.sound, isContainer_of_element held, ?_, ?_⟩
  · rw [isAttached_attachNew place.sound place.container, place.attached]
  · rw [ancestors_attachNew place.sound place.container, List.filterMap_cons,
      element_of_data held, ← later.around,
      grown.ancestors_eq place.sound.toLinked place.container.lt_size]

theorem usual_iff (place : d.Place p around) :
    Policy.usual d p = true ↔ ∀ e ∈ around, e.mayChange = true := by
  simp only [Element.mayChange_iff]
  rw [Policy.usual, place.attached, Bool.true_and, Bool.not_eq_true', List.any_eq_false,
    ← place.around]
  constructor
  · intro unmarked e member
    obtain ⟨x, above, held⟩ := List.mem_filterMap.mp member
    have clear := unmarked x above
    rw [Policy.marks, held] at clear
    exact Bool.eq_false_iff.mpr clear
  · intro unmarked x above marked
    cases held : d.element? x with
    | none => simp [Policy.marks, held] at marked
    | some e =>
      have clear := unmarked e (List.mem_filterMap.mpr ⟨x, above, held⟩)
      simp [Policy.marks, held, clear] at marked

end Place

end Document

namespace Chain

theorem setOutcome_doc (kind : FilterKind) (outcome : Outcome) (p : Page) :
    (p.setOutcome kind outcome).doc = p.doc := by
  unfold Page.setOutcome
  simp only
  split
  · rfl
  · rfl

variable {d : Document} {id : NodeId} {e : Element}

theorem keyword_of_element (held : d.element? id = some e) : d.keyword? id = some e.keyword := by
  rw [Document.keyword?, held]
  rfl

variable [UrlLibrary] {φ : Type} {c : Chain φ} {url : Url} {around : List Element}
  {before : List Event}

structure Follows (c : Chain φ) (url : Url) (around : List Element) (before : List Event) :
    Prop where
  documentUrl : c.documentUrl = some url
  base : c.base = some (baseAt url before)
  baseSeen : c.baseSeen = (before.findSome? Event.baseHref?).isSome
  noscript : c.noscript.isSome = true ↔ ∃ e ∈ around, e.keyword = .noscript

structure SameWork (c c' : Chain φ) : Prop where
  options : c.options = c'.options
  policy : c.policy = c'.policy
  filters : c.filters = c'.filters
  documentUrl : c.documentUrl = c'.documentUrl
  record : c.record = c'.record

theorem followBase_keeps (c : Chain φ) (d : Document) (id : NodeId) :
    SameWork (c.followBase d id) c ∧ (c.followBase d id).noscript = c.noscript := by
  have same : SameWork c c := ⟨rfl, rfl, rfl, rfl, rfl⟩
  unfold followBase
  split
  · exact ⟨same, rfl⟩
  · split
    · exact ⟨same, rfl⟩
    · simp only
      split
      · exact ⟨⟨rfl, rfl, rfl, rfl, rfl⟩, rfl⟩
      · exact ⟨⟨rfl, rfl, rfl, rfl, rfl⟩, rfl⟩

theorem follow_keeps (c : Chain φ) (d : Document) (id : NodeId) : SameWork (c.follow d id) c := by
  unfold follow
  split
  · split
    · exact ⟨rfl, rfl, rfl, rfl, rfl⟩
    · exact ⟨rfl, rfl, rfl, rfl, rfl⟩
  · exact (followBase_keeps c d id).1
  · exact ⟨rfl, rfl, rfl, rfl, rfl⟩

theorem follow_noscript (held : d.element? id = some e) :
    (c.follow d id).noscript =
      if e.keyword = .noscript ∧ c.noscript = none then some id else c.noscript := by
  rw [follow, keyword_of_element held]
  split
  · next noscript =>
    rw [Option.some.inj noscript]
    cases known : c.noscript with
    | none => simp
    | some n => simp [known]
  · next base =>
    rw [Option.some.inj base, if_neg (by simp), (followBase_keeps c d id).2]
  · next other _ =>
    rw [if_neg]
    rintro ⟨noscript, _⟩
    exact other (noscript ▸ rfl)

theorem follow_base (held : d.element? id = some e) (other : e.keyword ≠ .base) :
    (c.follow d id).base = c.base ∧ (c.follow d id).baseSeen = c.baseSeen := by
  rw [follow, keyword_of_element held]
  split
  · split
    · exact ⟨rfl, rfl⟩
    · exact ⟨rfl, rfl⟩
  · next base => exact absurd (Option.some.inj base) other
  · exact ⟨rfl, rfl⟩

theorem base_follow (documentUrl : c.documentUrl = some url)
    (base : c.base = some (baseAt url before))
    (seen : c.baseSeen = (before.findSome? Event.baseHref?).isSome)
    (held : d.element? id = some e) :
    (c.follow d id).base = some (baseAt url (before ++ [.start e])) ∧
      (c.follow d id).baseSeen =
        ((before ++ [Event.start e]).findSome? Event.baseHref?).isSome := by
  rw [baseAt] at base ⊢
  rw [List.findSome?_append, List.findSome?_singleton]
  by_cases isBase : e.keyword = .base
  · have followed : c.follow d id = c.followBase d id := by
      rw [follow, keyword_of_element held, isBase]
    rw [followed, followBase]
    cases known : before.findSome? Event.baseHref? with
    | some href =>
      rw [known] at base seen
      rw [if_pos (show c.baseSeen = true from seen), Option.some_or]
      exact ⟨base, seen⟩
    | none =>
      rw [known] at base seen
      rw [if_neg (by simp [seen]), Option.none_or, held, Option.bind_some, Event.baseHref?,
        if_pos isBase]
      cases e.value? "href" with
      | none => exact ⟨base, seen⟩
      | some href =>
        simp only [Option.bind_some, documentUrl, Url.resolve?]
        cases (UrlLibrary.join url href).toOption with
        | some resolved => exact ⟨rfl, rfl⟩
        | none => exact ⟨base, rfl⟩
  · have silent : (Event.start e).baseHref? = none := by rw [Event.baseHref?, if_neg isBase]
    obtain ⟨sameBase, sameSeen⟩ := follow_base (c := c) held isBase
    rw [silent, Option.or_none, sameBase, sameSeen]
    exact ⟨base, seen⟩

theorem Follows.start (follows : c.Follows url around before) (held : d.element? id = some e) :
    (c.follow d id).Follows url (e :: around) (before ++ [.start e]) := by
  obtain ⟨base, seen⟩ :=
    base_follow follows.documentUrl follows.base follows.baseSeen held
  refine ⟨?_, base, seen, ?_⟩
  · rw [(follow_keeps c d id).documentUrl, follows.documentUrl]
  · rw [follow_noscript held, List.exists_mem_cons_iff, ← follows.noscript]
    by_cases opens : e.keyword = .noscript
    · cases known : c.noscript with
      | none => simp [opens]
      | some n => simp
    · simp [opens]

theorem Follows.stop {c' : Chain φ} {earlier : List Event}
    (follows : c.Follows url (e :: around) before) (outer : c'.Follows url around earlier) :
    ({ c with noscript := c'.noscript } : Chain φ).Follows url around (before ++ [.stop e]) := by
  have silent : (before ++ [Event.stop e]).findSome? Event.baseHref? =
      before.findSome? Event.baseHref? := by
    rw [List.findSome?_append, List.findSome?_singleton, Event.baseHref?, Option.or_none]
  refine ⟨follows.documentUrl, ?_, ?_, outer.noscript⟩
  · rw [baseAt, silent]
    exact follows.base
  · rw [silent]
    exact follows.baseSeen

section

variable [PageFilter φ] {f : φ}

def after (c : Chain φ) (x : Page × φ) : Document × Chain φ :=
  (x.1.doc, { c with filters := [x.2], record := x.1.record, notices := x.1.notices })

theorem onStartDocument_single (single : c.filters = [f]) (d : Document) :
    onStartDocument d c = ({ c with noscript := none, baseSeen := false } : Chain φ).after
      (PageFilter.startDocument ⟨c.base, none, c.policy⟩
        (Page.setOutcome (PageFilter.kind f) .notApplied ⟨d, {}, c.notices⟩) f) := by
  simp only [onStartDocument, kinds, single, runAll]
  rfl

theorem onStartElement_single (single : c.filters = [f]) (id : NodeId) (d : Document) :
    onStartElement id d c = (c.follow d id).after
      (PageFilter.startElement id (c.follow d id).context ((c.follow d id).page d) f) := by
  have kept : (c.follow d id).filters = [f] := (follow_keeps c d id).filters.trans single
  simp only [onStartElement, kept, runAll]
  rfl

theorem onEndElement_single (single : c.filters = [f]) (id : NodeId) (d : Document) :
    onEndElement id d c =
      ({ c with noscript := if c.noscript = some id then none else c.noscript } : Chain φ).after
        (PageFilter.endElement id c.context (c.page d) f) := by
  have alone : (if d.isAttached id
      then runWhileAttached (PageFilter.endElement id) c.context id c.filters (c.page d)
      else runAll (PageFilter.endElement id) c.context c.filters (c.page d)) =
      runAll (PageFilter.endElement id) c.context [f] (c.page d) := by
    rw [single]
    split
    · next attached =>
      rw [runWhileAttached, if_pos (show (c.page d).doc.isAttached id = true from attached)]
      rfl
    · rfl
  rw [onEndElement, alone]
  by_cases opened : c.noscript = some id
  · simp [runAll, settle, after, opened]
  · simp [runAll, settle, after, opened]

theorem onEndDocument_single (single : c.filters = [f]) (d : Document) :
    onEndDocument d c = c.after
      (PageFilter.endDocument { c.context with noscript := none } (c.page d) f) := by
  simp only [onEndDocument, single, runAll]
  rfl

end

end Chain

end PageFilters
