import PageFilters.Proofs.Filter.Hooks
import PageFilters.Proofs.Markup.Recording

/-!
Filters that are watched at work. A noting filter does what the filter in it does, and notes what it
is told of each element. A chain of noting filters builds the pages that the chain without the notes
builds.
-/

namespace PageFilters

variable [UrlLibrary]

variable {φ ψ : Type}

/-- `outer` does to a page what `inner` does, with the filter that `take` finds in its own. -/
def Hook.Contains (take : ψ → φ) (outer : Hook ψ) (inner : Hook φ) : Prop :=
  ∀ cx (p : Page) g, inner cx p (take g) = ((outer cx p g).1, take (outer cx p g).2)

structure PageFilter.Contains [PageFilter ψ] [PageFilter φ] (take : ψ → φ) : Prop where
  kind : ∀ g, PageFilter.kind g = PageFilter.kind (take g)
  startDocument : Hook.Contains take PageFilter.startDocument PageFilter.startDocument
  startElement : ∀ id,
    Hook.Contains take (PageFilter.startElement id) (PageFilter.startElement id)
  endElement : ∀ id, Hook.Contains take (PageFilter.endElement id) (PageFilter.endElement id)
  endDocument : Hook.Contains take PageFilter.endDocument PageFilter.endDocument

namespace Chain

def mapFilters (g : φ → ψ) (c : Chain φ) : Chain ψ where
  options := c.options
  policy := c.policy
  filters := c.filters.map g
  documentUrl := c.documentUrl
  base := c.base
  baseSeen := c.baseSeen
  noscript := c.noscript
  record := c.record
  notices := c.notices

section

variable {take : ψ → φ} {outer : Hook ψ} {inner : Hook φ}

theorem runAll_mapFilters (same : outer.Contains take inner) (cx : Context) (gs : List ψ)
    (p : Page) :
    runAll inner cx (gs.map take) p =
      ((runAll outer cx gs p).1, (runAll outer cx gs p).2.map take) := by
  induction gs generalizing p with
  | nil => rfl
  | cons g rest ih =>
    rw [List.map_cons, runAll, runAll, same]
    dsimp only
    rw [ih, List.map_cons]

theorem runWhileAttached_mapFilters (same : outer.Contains take inner) (cx : Context)
    (node : NodeId) (gs : List ψ) (p : Page) :
    runWhileAttached inner cx node (gs.map take) p =
      ((runWhileAttached outer cx node gs p).1,
        (runWhileAttached outer cx node gs p).2.map take) := by
  induction gs generalizing p with
  | nil => rfl
  | cons g rest ih =>
    rw [List.map_cons, runWhileAttached, runWhileAttached]
    split
    · rw [same]
      dsimp only
      rw [ih, List.map_cons]
    · rfl

theorem followBase_mapFilters (g : φ → ψ) (c : Chain φ) (d : Document) (id : NodeId) :
    (c.followBase d id).mapFilters g = (c.mapFilters g).followBase d id := by
  have documentUrl : (c.mapFilters g).documentUrl = c.documentUrl := rfl
  have baseSeen : (c.mapFilters g).baseSeen = c.baseSeen := rfl
  unfold followBase
  rw [baseSeen]
  split
  · rfl
  · split
    · rfl
    · next href _ =>
      dsimp only
      rw [documentUrl]
      cases Url.resolve? c.documentUrl href with
      | none => rfl
      | some url => rfl

theorem follow_mapFilters (g : φ → ψ) (c : Chain φ) (d : Document) (id : NodeId) :
    (c.follow d id).mapFilters g = (c.mapFilters g).follow d id := by
  have noscript : (c.mapFilters g).noscript = c.noscript := rfl
  unfold follow
  split
  · rw [noscript]
    cases c.noscript with
    | none => rfl
    | some n => rfl
  · exact followBase_mapFilters g c d id
  · rfl

end

variable [PageFilter ψ] [PageFilter φ] {take : ψ → φ}

theorem kinds_mapFilters (same : PageFilter.Contains take) (c : Chain ψ) :
    (c.mapFilters take).kinds = c.kinds := by
  rw [kinds, kinds, mapFilters, List.map_map]
  apply List.map_congr_left
  intro g _
  exact (same.kind g).symm

theorem ending_mapFilters (same : PageFilter.Contains take) (id : NodeId) (d : Document)
    (c : Chain ψ) :
    (c.mapFilters take).ending id d = ((c.ending id d).1, (c.ending id d).2.map take) := by
  unfold ending
  split
  · exact runWhileAttached_mapFilters (same.endElement id) c.context id c.filters (c.page d)
  · exact runAll_mapFilters (same.endElement id) c.context c.filters (c.page d)

theorem observer_mapFilters (same : PageFilter.Contains take) :
    Observer.Matches (observer : Observer (Chain ψ)) (observer : Observer (Chain φ))
      fun c' c => c'.mapFilters take = c := by
  constructor
  case startElement =>
    rintro id ⟨d, c⟩ ⟨_, _⟩ ⟨rfl, rfl⟩
    have ran := runAll_mapFilters (same.startElement id) (c.follow d id).context
      (c.follow d id).filters ((c.follow d id).page d)
    change Alongside _ (onStartElement id d c) (onStartElement id d (c.mapFilters take))
    unfold onStartElement
    dsimp only
    rw [← follow_mapFilters]
    rw [show ((c.follow d id).mapFilters take).filters = (c.follow d id).filters.map take from rfl,
      show ((c.follow d id).mapFilters take).context = (c.follow d id).context from rfl,
      show ((c.follow d id).mapFilters take).page d = (c.follow d id).page d from rfl, ran]
    exact ⟨rfl, rfl⟩
  case endElement =>
    rintro id ⟨d, c⟩ ⟨_, _⟩ ⟨rfl, rfl⟩
    change Alongside _ (onEndElement id d c) (onEndElement id d (c.mapFilters take))
    rw [onEndElement_eq, onEndElement_eq, leave_eq, leave_eq, ending_mapFilters same]
    exact ⟨rfl, rfl⟩
  case ignored =>
    rintro what c _ rfl
    rfl
  case endDocument =>
    rintro ⟨d, c⟩ ⟨_, _⟩ ⟨rfl, rfl⟩
    have ran := runAll_mapFilters same.endDocument { c.context with noscript := none } c.filters
      (c.page d)
    change Alongside _ (onEndDocument d c) (onEndDocument d (c.mapFilters take))
    unfold onEndDocument
    rw [show (c.mapFilters take).filters = c.filters.map take from rfl,
      show (c.mapFilters take).context = c.context from rfl,
      show (c.mapFilters take).page d = c.page d from rfl, ran]
    exact ⟨rfl, rfl⟩

theorem onStartDocument_mapFilters (same : PageFilter.Contains take) (c : Chain ψ)
    (d : Document) :
    Alongside (fun c' c => c'.mapFilters take = c) (onStartDocument d c)
      (onStartDocument d (c.mapFilters take)) := by
  have ran := fun p => runAll_mapFilters same.startDocument ⟨c.base, none, c.policy⟩ c.filters p
  have kinds : (c.filters.map take).map PageFilter.kind = c.filters.map PageFilter.kind :=
    kinds_mapFilters same c
  unfold onStartDocument
  simp only [Chain.kinds, mapFilters, context, page, kinds, ran]
  exact ⟨rfl, rfl⟩

theorem opened_mapFilters (same : PageFilter.Contains take) (c : Chain ψ) (documentUrl : Url)
    (text : String) :
    (c.opened documentUrl text).mapFilters take = (c.mapFilters take).opened documentUrl text := by
  rw [opened, opened, kinds_mapFilters same]
  rfl

theorem parseWith_mapFilters (same : PageFilter.Contains take) (c : Chain ψ) (text : String) :
    Alongside (fun c' c => c'.mapFilters take = c) (parseWith observer text c)
      (parseWith observer text (c.mapFilters take)) :=
  parseWith_matches (observer_mapFilters same) (onStartDocument_mapFilters same c .empty) text

theorem parse_mapFilters (same : PageFilter.Contains take) (c : Chain ψ) (url text : String) :
    (c.parse url text).1 = ((c.mapFilters take).parse url text).1 ∧
      (c.parse url text).2.mapFilters take = ((c.mapFilters take).parse url text).2 := by
  cases parsed : Url.parse url with
  | error cause =>
    rw [parse_refused _ parsed, parse_refused _ parsed]
    exact ⟨rfl, rfl⟩
  | ok documentUrl =>
    obtain ⟨doc, state⟩ := parseWith_mapFilters same (c.opened documentUrl text) text
    rw [opened_mapFilters same] at doc state
    rw [parse_opened _ parsed, parse_opened _ parsed]
    exact ⟨congrArg Except.ok doc, state⟩

theorem log_mapFilters (same : PageFilter.Contains take) (c : Chain ψ) (documentUrl : Url)
    (text : String) :
    Observer.log observer text (c.opened documentUrl text) =
      Observer.log observer text ((c.mapFilters take).opened documentUrl text) := by
  have begun := onStartDocument_mapFilters same (c.opened documentUrl text) .empty
  rw [opened_mapFilters same] at begun
  exact Observer.log_matches (observer_mapFilters same) begun text

omit [PageFilter ψ] [PageFilter φ] in
theorem mapFilters_cancel {wrap : φ → ψ} (cancel : ∀ f, take (wrap f) = f) (c : Chain φ) :
    (c.mapFilters wrap).mapFilters take = c := by
  have same : (c.filters.map wrap).map take = c.filters := by
    rw [List.map_map]
    exact List.map_id'' cancel c.filters
  rw [mapFilters, mapFilters, same]

end Chain

/-- What a filter is told when one of its hooks runs. -/
structure Sighting where
  call : Call NodeId
  context : Context

/-- A filter with the notes of what it was told about the elements of a page. -/
structure Noting (φ : Type) where
  filter : φ
  seen : List Sighting := []

namespace Noting

def hook (call : Call NodeId) (inner : Hook φ) : Hook (Noting φ) := fun cx p f =>
  let (p, filter) := inner cx p f.filter
  (p, ⟨filter, f.seen ++ [⟨call, cx⟩]⟩)

instance [PageFilter φ] : PageFilter (Noting φ) where
  kind f := PageFilter.kind f.filter
  startDocument cx p f :=
    let (p, filter) := PageFilter.startDocument cx p f.filter
    (p, { filter })
  startElement id := hook (.startElement id) (PageFilter.startElement id)
  endElement id := hook (.endElement id) (PageFilter.endElement id)
  endDocument cx p f :=
    let (p, filter) := PageFilter.endDocument cx p f.filter
    (p, { f with filter })

theorem contains [PageFilter φ] : PageFilter.Contains (Noting.filter : Noting φ → φ) := by
  constructor
  case kind => exact fun _ => rfl
  case startElement | endElement => exact fun _ _ _ _ => rfl
  case startDocument | endDocument => exact fun _ _ _ => rfl

theorem editsOnly [PageFilter φ] (edits : PageFilter.EditsOnly φ) :
    PageFilter.EditsOnly (Noting φ) := by
  constructor
  case startDocument => exact fun cx p f => edits.startDocument cx p f.filter
  case startElement => exact fun id cx p f => edits.startElement id cx p f.filter
  case endElement => exact fun id cx p f => edits.endElement id cx p f.filter
  case endDocument => exact fun cx p f => edits.endDocument cx p f.filter

end Noting

namespace Chain

def noting (c : Chain φ) : Chain (Noting φ) :=
  c.mapFilters fun filter => { filter }

def unnoted (c : Chain (Noting φ)) : Chain φ :=
  c.mapFilters Noting.filter

theorem unnoted_noting (c : Chain φ) : c.noting.unnoted = c :=
  c.mapFilters_cancel fun _ => rfl

variable [PageFilter φ]

theorem parse_noting (c : Chain φ) (url text : String) :
    (c.noting.parse url text).1 = (c.parse url text).1 ∧
      (c.noting.parse url text).2.unnoted = (c.parse url text).2 := by
  have same := parse_mapFilters Noting.contains c.noting url text
  rw [show c.noting.mapFilters Noting.filter = c from c.unnoted_noting] at same
  exact same

theorem node_noting (c : Chain φ) (documentUrl : Url) (text : String) :
    Observer.node observer text (c.noting.opened documentUrl text) =
      Observer.node observer text (c.opened documentUrl text) := by
  have unnoted : (c.noting.opened documentUrl text).mapFilters Noting.filter =
      c.opened documentUrl text := by
    rw [opened_mapFilters Noting.contains]
    exact congrArg (opened documentUrl text) c.unnoted_noting
  have begun := onStartDocument_mapFilters Noting.contains (c.noting.opened documentUrl text) .empty
  rw [unnoted] at begun
  funext k
  have built := Builder.after_matches (observer_mapFilters Noting.contains) begun text k
  exact congrArg Document.size built.doc

theorem seen_startDocument (cx : Context) (fs : List (Noting φ)) (p : Page) :
    ∀ f ∈ (runAll PageFilter.startDocument cx fs p).2, f.seen = [] :=
  runAll_filters (P := fun _ => True) (fun _ _ _ => rfl) (fun _ _ => trivial) p

end Chain

end PageFilters
