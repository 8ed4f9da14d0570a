import PageFilters.Filter.Solo
import PageFilters.Proofs.Filter.Driving

/-!
The region that the filter for the main image reports while a page is read. It is decided by what
happened last to a body and to a head, not by which of them are open. The two differ where a body,
or outside of bodies a head, has ended inside another one that is still open.
-/

namespace PageFilters

namespace Event

def isStart : Event → Bool
  | start _ => true
  | stop _ => false

def starts (k : Keyword) : Event → Bool
  | start e => e.keyword == k
  | stop _ => false

def stops (k : Keyword) : Event → Bool
  | start _ => false
  | stop e => e.keyword == k

end Event

def isOpen (k : Keyword) (before : List Event) : Bool :=
  before.countP (Event.stops k) < before.countP (Event.starts k)

/-- The region after what happened, if `inside` tells whether that is inside an element. -/
def regionBy (inside : Keyword → List Event → Bool) (before : List Event) : Region :=
  if inside .body before then .inBody
  else if inside .head before then .inHead
  else if before.any (Event.stops .body) then .afterBody
  else .outside

def openRegion (before : List Event) : Region :=
  regionBy isOpen before

def latestRegion (before : List Event) : Region :=
  regionBy lastStarted before

/-- Whether a body is open although what happened to a body last is that one ended, or, where no
body is open, the same of a head. -/
def Misplaced (before : List Event) : Prop :=
  (isOpen .body before = true ∧ lastStarted .body before = false) ∨
    (isOpen .body before = false ∧ isOpen .head before = true ∧ lastStarted .head before = false)

def Unnested (l : List Event) : Prop :=
  ∀ before e, before ++ [.start e] <+: l → e.keyword = .body ∨ e.keyword = .head →
    isOpen e.keyword before = false

/-- Events in which elements with a keyword end as often as they start, and never before. -/
structure Paired (k : Keyword) (l : List Event) : Prop where
  early : ∀ p, p <+: l → p.countP (Event.stops k) ≤ p.countP (Event.starts k)
  whole : l.countP (Event.stops k) = l.countP (Event.starts k)

namespace Paired

variable {k : Keyword} {l l' : List Event}

theorem append (first : Paired k l) (second : Paired k l') : Paired k (l ++ l') := by
  constructor
  case whole => rw [List.countP_append, List.countP_append, first.whole, second.whole]
  case early =>
    intro p isPrefix
    rcases List.prefix_or_prefix_of_prefix isPrefix (List.prefix_append l l') with inside | beyond
    · exact first.early p inside
    · obtain ⟨q, rfl⟩ := beyond
      have rest := second.early q ((List.prefix_append_right_inj l).mp isPrefix)
      rw [List.countP_append, List.countP_append, first.whole]
      omega

theorem around (paired : Paired k l) (e : Element) :
    Paired k (.start e :: (l ++ [.stop e])) := by
  constructor
  case whole => simp [List.countP_cons, paired.whole, Event.starts, Event.stops]
  case early =>
    intro p isPrefix
    rcases List.prefix_cons_iff.mp isPrefix with rfl | ⟨q, rfl, rest⟩
    · exact Nat.le_refl _
    · rcases List.prefix_concat_iff.mp rest with rfl | inside
      · simp [List.countP_cons, paired.whole, Event.starts, Event.stops]
      · have fewer := paired.early q inside
        simp only [List.countP_cons, Event.starts, Event.stops, Bool.false_eq_true, if_false]
        omega

end Paired

theorem events_paired (k : Keyword) (ts : List (Tree NodeData)) : Paired k (events ts) := by
  have none : Paired k [] := ⟨fun p empty => by rw [List.prefix_nil.mp empty]; rfl, rfl⟩
  induction ts using Tree.forest_induction with
  | nil => simpa [events] using none
  | cons data inside rest ihInside ihRest =>
    cases data with
    | element e =>
      have whole := (ihInside.around e).append ihRest
      simpa [events] using whole
    | _ => simpa [events] using ihRest

namespace Paired

variable {k : Keyword} {l : List Event}

theorem isOpen_of_lastStarted (paired : Paired k l) {before : List Event} (inside : before <+: l)
    (started : lastStarted k before = true) : isOpen k before = true := by
  induction before using List.reverseRecOn with
  | nil => cases started
  | append_singleton before event ih =>
    have earlier := (List.prefix_append before [event]).trans inside
    have fewer := paired.early before earlier
    have ih := ih earlier
    simp only [isOpen, decide_eq_true_eq] at ih ⊢
    cases event with
    | start e =>
      rw [lastStarted_start] at started
      cases here : e.keyword == k with
      | true =>
        simp [List.countP_append, Event.starts, Event.stops, here]
        omega
      | false =>
        have open' := ih (by simpa [here] using started)
        simpa [List.countP_append, Event.starts, Event.stops, here] using open'
    | stop e =>
      rw [lastStarted_stop] at started
      cases here : e.keyword == k with
      | true => simp [bne, here] at started
      | false =>
        have open' := ih (by simpa [bne, here] using started)
        simpa [List.countP_append, Event.starts, Event.stops, here] using open'

theorem isOpen_of_unnested (paired : Paired k l)
    (apart : ∀ before e, before ++ [.start e] <+: l → e.keyword = k → isOpen k before = false)
    {before : List Event} (inside : before <+: l) : isOpen k before = lastStarted k before := by
  -- How many are open is what carries over from one event to the next.
  have counted : before.countP (Event.starts k) =
      before.countP (Event.stops k) + (lastStarted k before).toNat := by
    induction before using List.reverseRecOn with
    | nil => rfl
    | append_singleton before event ih =>
      have earlier := (List.prefix_append before [event]).trans inside
      have ih := ih earlier
      cases event with
      | start e =>
        rw [lastStarted_start]
        cases here : e.keyword == k with
        | true =>
          have closed := apart before e inside (by simpa using here)
          have fewer := paired.early before earlier
          simp only [isOpen, decide_eq_false_iff_not, Nat.not_lt] at closed
          simp [List.countP_append, Event.starts, Event.stops, here]
          omega
        | false => simpa [List.countP_append, Event.starts, Event.stops, here] using ih
      | stop e =>
        have fewer := paired.early _ inside
        rw [lastStarted_stop]
        cases here : e.keyword == k with
        | true =>
          simp [List.countP_append, Event.starts, Event.stops, here, bne] at fewer ⊢
          have few := (lastStarted k before).toNat_le
          omega
        | false => simpa [List.countP_append, Event.starts, Event.stops, here, bne] using ih
  rw [isOpen, counted]
  cases lastStarted k before <;> simp

end Paired

theorem latestRegion_eq_iff {ts : List (Tree NodeData)} {before : List Event}
    (inside : before <+: events ts) : latestRegion before = openRegion before ↔
      ¬ Misplaced before := by
  have body := (events_paired .body ts).isOpen_of_lastStarted inside
  have head := (events_paired .head ts).isOpen_of_lastStarted inside
  rw [latestRegion, openRegion, regionBy, regionBy, Misplaced]
  generalize lastStarted .body before = latestBody at *
  generalize lastStarted .head before = latestHead at *
  generalize isOpen .body before = openBody at *
  generalize isOpen .head before = openHead at *
  generalize before.any (Event.stops .body) = ended
  revert body head
  revert latestBody latestHead openBody openHead ended
  decide

theorem latestRegion_eq_of_unnested {ts : List (Tree NodeData)} (apart : Unnested (events ts))
    {before : List Event} (inside : before <+: events ts) :
    latestRegion before = openRegion before := by
  have body := (events_paired .body ts).isOpen_of_unnested
    (fun before e start same => same ▸ apart before e start (.inl same)) inside
  have head := (events_paired .head ts).isOpen_of_unnested
    (fun before e start same => same ▸ apart before e start (.inr same)) inside
  rw [latestRegion, openRegion, regionBy, regionBy, body, head]

/-- The observer, with what is seen of it after each call about an element. The look is told whether
the element starts. -/
def Observer.glimpsed (look : Bool → NodeId → Document → σ → β) (observer : Observer σ) :
    Observer (σ × List β) where
  startDocument d := fun (s, seen) =>
    let (d, s) := observer.startDocument d s
    (d, s, seen)
  startElement id d := fun (s, seen) =>
    let (d, s) := observer.startElement id d s
    (d, s, seen ++ [look true id d s])
  endElement id d := fun (s, seen) =>
    let (d, s) := observer.endElement id d s
    (d, s, seen ++ [look false id d s])
  endDocument d := fun (s, seen) =>
    let (d, s) := observer.endDocument d s
    (d, s, seen)
  ignored what := fun (s, seen) => (observer.ignored what s, seen)

theorem parseWith_glimpsed (look : Bool → NodeId → Document → σ → β) (observer : Observer σ)
    (text : String) (s : σ) :
    Alongside (fun x s => x.1 = s) (parseWith (observer.glimpsed look) text (s, []))
      (parseWith observer text s) := by
  have same : (observer.glimpsed look).Matches observer fun x s => x.1 = s := by
    constructor
    case startElement | endElement =>
      rintro id ⟨d, s, seen⟩ ⟨_, _⟩ ⟨rfl, rfl⟩
      exact ⟨rfl, rfl⟩
    case endDocument =>
      rintro ⟨d, s, seen⟩ ⟨_, _⟩ ⟨rfl, rfl⟩
      exact ⟨rfl, rfl⟩
    case ignored =>
      rintro what ⟨s, seen⟩ _ rfl
      rfl
  exact parseWith_matches same ⟨rfl, rfl⟩ text

structure Glimpse where
  started : Bool
  keyword : Option Keyword
  region : Region
  deriving DecidableEq, Repr

/-- What there is to see after each event, if `region` tells the region. -/
def glimpses (region : List Event → Region) (l : List Event) : List Glimpse :=
  inTurn (fun before event =>
    ⟨event.isStart, some event.element.keyword, region (before ++ [event])⟩) [] l

theorem glimpses_concat (region : List Event → Region) (l : List Event) (event : Event) :
    glimpses region (l ++ [event]) = glimpses region l ++
      [⟨event.isStart, some event.element.keyword, region (l ++ [event])⟩] := by
  rw [glimpses, inTurn_append]
  rfl

namespace Document

structure KeepsKeywords (d d' : Document) : Prop where
  size : d.size ≤ d'.size
  keyword : ∀ id, id < d.size → d'.keyword? id = d.keyword? id

theorem KeepsKeywords.trans {d d' d'' : Document} (first : d.KeepsKeywords d')
    (second : d'.KeepsKeywords d'') : d.KeepsKeywords d'' := by
  constructor
  · exact Nat.le_trans first.size second.size
  · intro id small
    rw [second.keyword id (Nat.lt_of_lt_of_le small first.size), first.keyword id small]

theorem KeepsKeywords.of_eq {d d' : Document} (same : d' = d) : d.KeepsKeywords d' :=
  ⟨Nat.le_of_eq (congrArg Document.size same.symm), fun id _ => congrArg (keyword? · id) same⟩

theorem Extends.keepsKeywords {d d' : Document} {p : NodeId} {ids : List NodeId}
    (grown : Extends d p ids d') : d.KeepsKeywords d' := by
  refine ⟨grown.size, fun id small => ?_⟩
  rw [keyword?, element_eq (grown.data id small), keyword?]

end Document

namespace ImagePriority

variable {id : NodeId} {e : Element} {page : Page} {f : ImagePriority} {src : String}

theorem Promotion.keepsKeywords {x y : Page × ImagePriority} (promotion : Promotion id src x y) :
    x.1.doc.KeepsKeywords y.1.doc := by
  constructor
  · rw [promotion.size]
    exact Nat.le_succ _
  · intro other small
    by_cases here : other = id
    · rw [here, Document.keyword?, promotion.image, Document.keyword?]
      cases x.1.doc.element? id with
      | none => rfl
      | some e => simp [Element.promoted, Element.keyword]
    · rw [Document.keyword?, Document.element_eq (promotion.others other small here),
        Document.keyword?]

theorem preload_flags (id : NodeId) (src : String) (page : Page) (f : ImagePriority) :
    (preload id src page f).2.inHead = f.inHead ∧ (preload id src page f).2.inBody = f.inBody ∧
      (preload id src page f).2.bodyClosed = f.bodyClosed := by
  unfold preload
  split
  · exact ⟨rfl, rfl, rfl⟩
  · dsimp only
    split
    · exact ⟨rfl, rfl, rfl⟩
    · exact ⟨rfl, rfl, rfl⟩

structure Knows (f : ImagePriority) (before : List Event) : Prop where
  inHead : f.inHead = lastStarted .head before
  inBody : f.inBody = lastStarted .body before
  bodyClosed : f.bodyClosed = before.any (Event.stops .body)
  fresh : f.promoted = 0 → f.preloaded = []

theorem Knows.region {before : List Event} (knows : f.Knows before) :
    f.region = latestRegion before := by
  rw [ImagePriority.region, knows.inHead, knows.inBody, knows.bodyClosed]
  rfl

def glimpse (started : Bool) (id : NodeId) (d : Document) (s : Solo ImagePriority) : Glimpse :=
  ⟨started, d.keyword? id, s.filter.region⟩

structure Sees (before : List Event) (x : Solo ImagePriority × List Glimpse) : Prop where
  knows : x.1.filter.Knows before
  seen : x.2 = glimpses latestRegion before

theorem Sees.next {before : List Event} {x : Solo ImagePriority × List Glimpse}
    {d : Document} (sees : Sees before x) {s : Solo ImagePriority} {event : Event}
    (knows : s.filter.Knows (before ++ [event]))
    (keyword : d.keyword? id = some event.element.keyword) :
    Sees (before ++ [event]) (s, x.2 ++ [glimpse event.isStart id d s]) := by
  refine ⟨knows, ?_⟩
  rw [glimpses_concat, ← sees.seen, glimpse, keyword, knows.region]

section

variable [UrlLibrary] {cx : Context}

theorem onStart_flags (cx : Context) (f : ImagePriority) (held : page.doc.element? id = some e) :
    (onStart id cx page f).2.inHead = (e.keyword == .head || f.inHead) ∧
      (onStart id cx page f).2.inBody = (e.keyword == .body || f.inBody) ∧
      (onStart id cx page f).2.bodyClosed = f.bodyClosed := by
  rw [onStart_eq held]
  by_cases head : e.keyword = .head
  · simp [head]
  · by_cases body : e.keyword = .body
    · simp [body]
    · rw [if_neg head, if_neg body, beq_eq_false_iff_ne.mpr head, beq_eq_false_iff_ne.mpr body]
      cases f.candidate? id cx page with
      | none => exact ⟨rfl, rfl, rfl⟩
      | some src => exact preload_flags id src _ f

theorem onEnd_flags (cx : Context) (f : ImagePriority)
    (held : page.doc.keyword? id = some e.keyword) :
    (onEnd id cx page f).2.inHead = (e.keyword != .head && f.inHead) ∧
      (onEnd id cx page f).2.inBody = (e.keyword != .body && f.inBody) ∧
      (onEnd id cx page f).2.bodyClosed = (e.keyword == .body || f.bodyClosed) := by
  rw [onEnd, held]
  cases e.keyword <;> exact ⟨rfl, rfl, rfl⟩

def watched (cx : Context) : Observer (Solo ImagePriority × List Glimpse) :=
  (Solo.observer cx).glimpsed glimpse

theorem Knows.hook {before : List Event} (knows : f.Knows before) (call : Call NodeId)
    (cx : Context) (sound : page.doc.WellFormed) :
    let y := call.hook cx page f
    page.doc.KeepsKeywords y.1.doc ∧ (y.2.promoted = 0 → y.2.preloaded = []) := by
  intro y
  rcases hook_cases call cx sound knows.fresh with idle | ⟨_, _, _, made⟩
  · refine ⟨.of_eq idle.doc, fun none => ?_⟩
    by_cases start : call = .startDocument
    · exact (congrArg preloaded (idle.forgets start)).trans rfl
    · obtain ⟨promoted, preloaded⟩ := idle.keeps start
      exact preloaded.trans (knows.fresh (promoted ▸ none))
  · refine ⟨made.keepsKeywords, fun none => ?_⟩
    have one : y.2.promoted = 1 := made.promoted
    omega

theorem Knows.start {before : List Event} (knows : f.Knows before) (cx : Context)
    (sound : page.doc.WellFormed) (held : page.doc.element? id = some e) :
    (onStart id cx page f).2.Knows (before ++ [.start e]) := by
  obtain ⟨inHead, inBody, bodyClosed⟩ := onStart_flags cx f held
  constructor
  case inHead => rw [lastStarted_start, inHead, knows.inHead]
  case inBody => rw [lastStarted_start, inBody, knows.inBody]
  case bodyClosed => simp [bodyClosed, knows.bodyClosed, Event.stops]
  case fresh => exact (knows.hook (.startElement id) cx sound).2

theorem Knows.stop {before : List Event} (knows : f.Knows before) (cx : Context)
    (sound : page.doc.WellFormed) (held : page.doc.keyword? id = some e.keyword) :
    (onEnd id cx page f).2.Knows (before ++ [.stop e]) := by
  obtain ⟨inHead, inBody, bodyClosed⟩ := onEnd_flags cx f held
  constructor
  case inHead => rw [lastStarted_stop, inHead, knows.inHead]
  case inBody => rw [lastStarted_stop, inBody, knows.inBody]
  case bodyClosed => simp [bodyClosed, knows.bodyClosed, Event.stops, Bool.or_comm]
  case fresh => exact (knows.hook (.endElement id) cx sound).2

namespace Sees

variable {before : List Event} {x : Solo ImagePriority × List Glimpse} {d : Document}

theorem start (sees : Sees before x) (cx : Context) (sound : d.WellFormed)
    (held : d.element? id = some e) :
    let y := (watched cx).startElement id d x
    d.KeepsKeywords y.1 ∧ Sees (before ++ [.start e]) y.2 := by
  intro y
  let page : Page := ⟨d, x.1.record, x.1.notices⟩
  have kept : page.doc.KeepsKeywords y.1 := (sees.knows.hook (.startElement id) cx sound).1
  have knows : (onStart id cx page x.1.filter).2.Knows (before ++ [.start e]) :=
    sees.knows.start cx sound held
  have small := Document.lt_size_of_data (Document.data_of_element held)
  exact ⟨kept, sees.next knows ((kept.keyword id small).trans (Chain.keyword_of_element held))⟩

theorem stop (sees : Sees before x) (cx : Context) (sound : d.WellFormed) (small : id < d.size)
    (held : d.keyword? id = some e.keyword) :
    let y := (watched cx).endElement id d x
    d.KeepsKeywords y.1 ∧ Sees (before ++ [.stop e]) y.2 := by
  intro y
  let page : Page := ⟨d, x.1.record, x.1.notices⟩
  have kept : page.doc.KeepsKeywords y.1 := (sees.knows.hook (.endElement id) cx sound).1
  have knows : (onEnd id cx page x.1.filter).2.Knows (before ++ [.stop e]) :=
    sees.knows.stop cx sound held
  exact ⟨kept, sees.next knows ((kept.keyword id small).trans held)⟩

end Sees

theorem watched_editsOnly (cx : Context) : (watched cx).EditsOnly := by
  constructor
  · exact fun d x => editsOnly.startDocument cx ⟨d, x.1.record, x.1.notices⟩ x.1.filter
  · exact fun id d x => editsOnly.startElement id cx ⟨d, x.1.record, x.1.notices⟩ x.1.filter
  · exact fun id d x => editsOnly.endElement id cx ⟨d, x.1.record, x.1.notices⟩ x.1.filter
  · exact fun d x => editsOnly.endDocument cx ⟨d, x.1.record, x.1.notices⟩ x.1.filter

theorem watch_sees (cx : Context) (o : Outline) {p : NodeId} {before : List Event}
    {x : Document × Solo ImagePriority × List Glimpse} (sound : x.1.WellFormed)
    (container : x.1.IsContainer p) (sees : Sees before x.2) :
    let y := o.watch (watched cx) p x
    x.1.KeepsKeywords y.1 ∧ Sees (before ++ events o.trees) y.2 := by
  induction o generalizing p before x with
  | done =>
    refine ⟨.of_eq rfl, ?_⟩
    rw [Outline.trees, events, List.append_nil]
    exact sees
  | ignored what rest ih =>
    exact ih (x := (x.1, (watched cx).ignored what x.2)) sound container ⟨sees.knows, sees.seen⟩
  | leaf data plain rest ih =>
    have grown := Document.attachNew_extends sound container data
    obtain ⟨kept, later⟩ := ih (x := (x.1.attachNew p data, x.2)) grown.sound
      (grown.isContainer container) sees
    have same : events (Outline.leaf data plain rest).trees = events rest.trees :=
      events_other (by rintro e rfl; cases plain) [] _
    exact ⟨grown.keepsKeywords.trans kept, same ▸ later⟩
  | element e inside rest ihInside ihRest =>
    have edits := watched_editsOnly cx
    have grown := Document.attachNew_extends sound container (.element e)
    have held := Document.data_attachNew sound container (.element e)
    have small := Document.lt_size_of_data held
    have element := Document.element_of_data held
    let begun := ((watched cx).startElement x.1.size).on (x.1.attachNew p (.element e), x.2)
    have first : Document.Becomes _ begun.1 := edits.startElement _ _ _
    obtain ⟨keptBegun, seesBegun⟩ := sees.start cx grown.sound element
    have below := (first.retains grown.sound).container _ (Document.isContainer_of_element held)
    let filled := inside.watch (watched cx) x.1.size begun
    have through : Document.Becomes _ filled.1 := first.trans (inside.watch_becomes edits _ begun)
    obtain ⟨keptFilled, seesFilled⟩ := ihInside (first.wellFormed grown.sound) below seesBegun
    have keptSoFar := keptBegun.trans keptFilled
    have keyword : filled.1.keyword? x.1.size = some e.keyword :=
      (keptSoFar.keyword _ small).trans (Chain.keyword_of_element element)
    let ended := ((watched cx).endElement x.1.size).on filled
    have whole : Document.Becomes _ ended.1 := through.trans (edits.endElement _ _ _)
    obtain ⟨keptEnded, seesEnded⟩ := seesFilled.stop cx (through.wellFormed grown.sound)
      (Nat.lt_of_lt_of_le small keptSoFar.size) keyword
    obtain ⟨keptRest, seesRest⟩ := ihRest (x := ended) (whole.wellFormed grown.sound)
      ((whole.retains grown.sound).container _ (grown.isContainer container)) seesEnded
    refine ⟨grown.keepsKeywords.trans ((keptSoFar.trans keptEnded).trans keptRest), ?_⟩
    have happened : before ++ events (Outline.element e inside rest).trees =
        before ++ [.start e] ++ events inside.trees ++ [.stop e] ++ events rest.trees := by
      rw [Outline.trees, events]
      simp
    exact happened ▸ seesRest

/-- After each event, the filter reports the region by what happened last to a body and to a head.
This is the region by what is open just as long as nothing is misplaced, so always if there is no
body in a body and no head in a head. -/
theorem region_seen (cx : Context) (s : Solo ImagePriority) (text : String) :
    let happened := events (parse text).tree.children
    let run := parseWith (watched cx) text (s, [])
    run.1 = (parseWith (Solo.observer cx) text s).1 ∧
      run.2.1 = (parseWith (Solo.observer cx) text s).2 ∧
      run.2.2 = glimpses latestRegion happened ∧
      (run.2.2 = glimpses openRegion happened ↔
        ∀ before, before <+: happened → ¬ Misplaced before) ∧
      (Unnested happened → run.2.2 = glimpses openRegion happened) := by
  intro happened run
  obtain ⟨doc, state⟩ := parseWith_glimpsed glimpse (Solo.observer cx) text s
  refine ⟨doc, state, ?_⟩
  have seen : run.2.2 = glimpses latestRegion happened := by
    have sound := Document.empty_wellFormed
    have begun : Sees [] ((watched cx).startDocument .empty (s, [])).2 :=
      ⟨⟨rfl, rfl, rfl, fun _ => rfl⟩, rfl⟩
    obtain ⟨_, last⟩ := watch_sees cx (Outline.ofText text)
      (x := (watched cx).startDocument .empty (s, [])) sound
      (Document.root_isContainer sound.toLinked) begun
    rw [show run = _ from parseWith_eq _ _ _, show happened = events (Outline.ofText text).trees by
      rw [show happened = events (parse text).tree.children from rfl, parse_tree]
      rfl]
    exact last.seen
  have agree : run.2.2 = glimpses openRegion happened ↔
      ∀ early event, early ++ [event] <+: happened →
        latestRegion (early ++ [event]) = openRegion (early ++ [event]) := by
    simp [seen, glimpses, inTurn_eq_iff]
  refine ⟨seen, ?_, ?_⟩
  · rw [agree]
    constructor
    · intro same before isPrefix
      rcases List.eq_nil_or_concat' before with rfl | ⟨early, event, rfl⟩
      · simp [Misplaced, isOpen]
      · exact (latestRegion_eq_iff isPrefix).mp (same early event isPrefix)
    · intro placed early event isPrefix
      exact (latestRegion_eq_iff isPrefix).mpr (placed _ isPrefix)
  · intro apart
    exact agree.mpr fun early event isPrefix => latestRegion_eq_of_unnested apart isPrefix

end

theorem region_after_nested_body :
    let text := "<body><body></body></body>"
    (parseWith (watched ⟨none, none, fun _ _ => true⟩) text (⟨{}, {}, []⟩, [])).2.2 ≠
      glimpses openRegion (events (parse text).tree.children) := by
  intro text
  have outline : Outline.ofText text =
      .element ⟨"body", []⟩ (.element ⟨"body", []⟩ .done .done) .done := by cbv
  have seen : (parseWith (watched ⟨none, none, fun _ _ => true⟩) text (⟨{}, {}, []⟩, [])).2.2 =
      [⟨true, some .body, .inBody⟩, ⟨true, some .body, .inBody⟩, ⟨false, some .body, .afterBody⟩,
        ⟨false, some .body, .afterBody⟩] := by
    rw [parseWith_eq, outline]
    cbv
  have happened : events (parse text).tree.children = [.start ⟨"body", []⟩, .start ⟨"body", []⟩,
      .stop ⟨"body", []⟩, .stop ⟨"body", []⟩] := by
    rw [parse_tree, outline]
    cbv
  have body : Keyword.ofTag "body" = .body := by cbv
  rw [seen, happened]
  simp [glimpses, inTurn, openRegion, regionBy, isOpen, Event.starts, Event.stops, Element.keyword,
    Event.element, body]

end ImagePriority

end PageFilters
