import PageFilters.Proofs.Filter.Noting
import PageFilters.Proofs.Filter.Stripping
import PageFilters.Proofs.Markup.Starts

/-!
The base URL that filters are told of. A chain settles it with the first `base` element that has a
reference, and looks at no other. So where that reference cannot be resolved, filters are told the
address of the page itself, although a later one may be good.
-/

namespace PageFilters

def startEvents (starts : List (NodeId × Element)) : List Event :=
  starts.map fun s => .start s.2

def starters (log : List Occasion) : List (NodeId × Element) :=
  log.filterMap Occasion.starter?

theorem starters_append (log : List Occasion) (o : Occasion) :
    starters (log ++ [o]) = starters log ++ o.starter?.toList := by
  rw [starters, List.filterMap_append]
  cases h : o.starter? <;> simp [starters, h]

section

variable [UrlLibrary]

/-- The base URL after what happened, if references that cannot be resolved do not count. -/
def goodBaseAt (url : Url) (before : List Event) : Url :=
  ((before.filterMap Event.baseHref?).findSome? fun href =>
    (UrlLibrary.join url href).toOption).getD url

/-- Whether the first reference cannot be resolved, and a later one gives another base than the
address of the page. -/
def Misled (url : Url) (before : List Event) : Prop :=
  (∃ href, before.findSome? Event.baseHref? = some href ∧
      (UrlLibrary.join url href).toOption = none) ∧
    goodBaseAt url before ≠ url

theorem baseAt_eq_goodBaseAt_iff (url : Url) (before : List Event) :
    baseAt url before = goodBaseAt url before ↔ ¬ Misled url before := by
  have first : before.findSome? Event.baseHref? = (before.filterMap Event.baseHref?).head? :=
    (List.head?_filterMap ..).symm
  rw [Misled, baseAt, first]
  cases hrefs : before.filterMap Event.baseHref? with
  | nil => simp [goodBaseAt, hrefs]
  | cons href rest =>
    cases resolved : (UrlLibrary.join url href).toOption with
    | some found => simp [goodBaseAt, hrefs, resolved]
    | none => simp [resolved, eq_comm]

/-- Elements that start, each with the base URL that `base` gives once it has started. -/
def startBases (base : List Event → Url) (starts : List (NodeId × Element)) :
    List (NodeId × Option Url) :=
  inTurn (fun before s => (s.1, some (base (startEvents (before ++ [s]))))) [] starts

theorem startBases_append (base : List Event → Url) (starts : List (NodeId × Element))
    (s : NodeId × Element) :
    startBases base (starts ++ [s]) =
      startBases base starts ++ [(s.1, some (base (startEvents (starts ++ [s]))))] := by
  rw [startBases, inTurn_append]
  rfl

theorem startBases_eq_iff (base base' : List Event → Url) (starts : List (NodeId × Element)) :
    startBases base starts = startBases base' starts ↔
      ∀ early s, early ++ [s] <+: starts →
        base (startEvents (early ++ [s])) = base' (startEvents (early ++ [s])) := by
  simp [startBases, inTurn_eq_iff]

/-- The starts of elements that a filter has noted, with the base URL it was told of. -/
def Noting.bases {φ : Type} (f : Noting φ) : List (NodeId × Option Url) :=
  f.seen.filterMap fun s => s.call.started?.map (·, s.context.base)

namespace Chain

variable {φ : Type}

structure TellsBase (url : Url) (x : Chain (Noting φ) × List Occasion) : Prop where
  documentUrl : x.1.documentUrl = some url
  base : x.1.base = some (baseAt url (startEvents (starters x.2)))
  seen : x.1.baseSeen = ((startEvents (starters x.2)).findSome? Event.baseHref?).isSome
  told : ∀ f ∈ x.1.filters, f.bases = startBases (baseAt url) (starters x.2)

namespace TellsBase

variable {url : Url} {c c' : Chain (Noting φ)} {log : List Occasion}

theorem idle (tells : TellsBase url (c, log)) {o : Occasion} (idle : o.starter? = none)
    (documentUrl : c'.documentUrl = c.documentUrl) (base : c'.base = c.base)
    (seen : c'.baseSeen = c.baseSeen)
    (told : ∀ f ∈ c'.filters, f.bases = startBases (baseAt url) (starters log)) :
    TellsBase url (c', log ++ [o]) := by
  have same : starters (log ++ [o]) = starters log := by simp [starters_append, idle]
  constructor
  · exact documentUrl.trans tells.documentUrl
  · rw [same]
    exact base.trans tells.base
  · rw [same]
    exact seen.trans tells.seen
  · rw [same]
    exact told

variable [PageFilter φ]

theorem start (tells : TellsBase url (c, log)) {d : Document} {id : NodeId} {e : Element}
    (held : d.element? id = some e) :
    TellsBase url ((observer : Observer (Chain (Noting φ))).recorded.startElement id d
      (c, log)).2 := by
  let started := onStartElement id d c
  let o : Occasion := ⟨.startElement id, d, started.1⟩
  have starter : o.starter? = some (id, e) := by
    rw [Occasion.starter?]
    simp [o, Call.started?, held]
  have grown : starters (log ++ [o]) = starters log ++ [(id, e)] := by
    simp [starters_append, starter]
  have events : startEvents (starters (log ++ [o])) =
      startEvents (starters log) ++ [.start e] := by
    simp [grown, startEvents]
  have same := follow_keeps c d id
  obtain ⟨base, seen⟩ := base_follow tells.documentUrl tells.base tells.seen held
  change TellsBase url (started.2, log ++ [o])
  constructor
  · exact same.documentUrl.trans tells.documentUrl
  · rw [events]
    exact base
  · rw [events]
    exact seen
  · have each : ∀ f ∈ (c.follow d id).filters,
        f.bases = startBases (baseAt url) (starters log) := same.filters ▸ tells.told
    refine runAll_filters (fun p f told => ?_) each _
    have noted : (PageFilter.startElement id (c.follow d id).context p f).2.bases =
        f.bases ++ [(id, (c.follow d id).base)] := by
      simp only [Noting.bases, PageFilter.startElement, Noting.hook, List.filterMap_append]
      rfl
    rw [noted, told, base, ← events, grown, startBases_append]

theorem stop (tells : TellsBase url (c, log)) (id : NodeId) (d : Document) :
    TellsBase url ((observer : Observer (Chain (Noting φ))).recorded.endElement id d
      (c, log)).2 := by
  change TellsBase url ((onEndElement id d c).2, log ++ [_])
  rw [onEndElement_eq, leave_eq]
  refine tells.idle rfl rfl rfl rfl ?_
  refine ending_filters (fun p f told => ?_) (fun f told => told) tells.told d
  have noted : (PageFilter.endElement id c.context p f).2.bases = f.bases := by
    simp only [Noting.bases, PageFilter.endElement, Noting.hook, List.filterMap_append]
    exact List.append_nil _
  rw [noted, told]

theorem finish (tells : TellsBase url (c, log)) (d : Document) :
    TellsBase url ((observer : Observer (Chain (Noting φ))).recorded.endDocument d
      (c, log)).2 := by
  change TellsBase url ((onEndDocument d c).2, log ++ [_])
  refine tells.idle rfl rfl rfl rfl ?_
  exact runAll_filters (fun p f told => told) tells.told (c.page d)

end TellsBase

variable [PageFilter φ]

theorem parseWith_tellsBase (edits : PageFilter.EditsOnly φ) {c : Chain (Noting φ)} {url : Url}
    (documentUrl : c.documentUrl = some url) (base : c.base = some url) (text : String) :
    TellsBase url (parseWith (observer : Observer (Chain (Noting φ))).recorded text (c, [])).2 := by
  have begun : TellsBase url
      ((observer : Observer (Chain (Noting φ))).recorded.startDocument .empty (c, [])).2 := by
    refine ⟨documentUrl, base, rfl, ?_⟩
    intro f member
    have none := seen_startDocument ⟨c.base, none, c.policy⟩ c.filters
      (c.kinds.foldl (fun p kind => p.setOutcome kind .notApplied) ⟨.empty, {}, c.notices⟩)
    rw [Noting.bases, none f member]
    rfl
  refine parseWith_kept (observer_editsOnly (Noting.editsOnly edits)).recorded
    (P := TellsBase url) begun ?_ ?_ ?_ ?_ text
  · intro d p e x sound container tells
    exact tells.start (Document.element_of_data (Document.data_attachNew sound container _))
  · intro id d x _ tells
    exact tells.stop id d
  · intro what x tells
    exact ⟨tells.documentUrl, tells.base, tells.seen, tells.told⟩
  · intro d x _ tells
    exact tells.finish d

theorem told_bases (edits : PageFilter.EditsOnly φ) (c : Chain φ) (documentUrl : Url)
    (text : String) :
    ∀ f ∈ (parseWith observer text (c.noting.opened documentUrl text)).2.filters,
      f.bases = startBases (baseAt documentUrl) ((startTags (spelled text)).map
        (Prod.map (Observer.node observer text (c.opened documentUrl text)) id)) := by
  let noted := c.noting.opened documentUrl text
  have tells := parseWith_tellsBase edits (c := noted) rfl rfl text
  have calm := Observer.undisturbed_of_editsOnly (observer_editsOnly (Noting.editsOnly edits))
    text noted
  have started : starters (observer.log text noted) = _ := calm.starters
  have told := tells.told
  rw [show (parseWith (observer : Observer (Chain (Noting φ))).recorded text (noted, [])).2.2 =
    observer.log text noted from rfl, started, node_noting] at told
  rw [calm.recorded]
  exact told

/-- The first reference of a `base` settles the base URL. So filters are told of the first one that
can be resolved just on pages on which no start of an element finds them misled. -/
theorem told_base_iff (edits : PageFilter.EditsOnly φ) (c : Chain φ) {url : String}
    {documentUrl : Url} (accepted : Url.parse url = .ok documentUrl) (text : String) :
    let noted := c.noting.parse url text
    let starts := (startTags (spelled text)).map
      (Prod.map (Observer.node observer text (c.opened documentUrl text)) id)
    noted.1 = (c.parse url text).1 ∧ noted.2.unnoted = (c.parse url text).2 ∧
      ∀ f ∈ noted.2.filters,
        f.bases = startBases (baseAt documentUrl) starts ∧
          (f.bases = startBases (goodBaseAt documentUrl) starts ↔
            ∀ early, early <+: starts → ¬ Misled documentUrl (startEvents early)) := by
  intro noted starts
  obtain ⟨doc, chain⟩ := c.parse_noting url text
  refine ⟨doc, chain, ?_⟩
  intro f member
  rw [show noted = _ from parse_opened _ accepted text] at member
  have told := told_bases edits c documentUrl text f member
  refine ⟨told, ?_⟩
  rw [told, startBases_eq_iff]
  simp only [baseAt_eq_goodBaseAt_iff]
  constructor
  · intro right early isPrefix
    rcases List.eq_nil_or_concat' early with rfl | ⟨before, s, rfl⟩
    · rintro ⟨⟨href, found, _⟩, _⟩
      simp [startEvents] at found
    · exact right before s isPrefix
  · exact fun right early s isPrefix => right _ isPrefix

end Chain

end

namespace Chain

theorem told_second_base :
    let c : Chain Builtin := { filters := [.inl {}, .inr {}] }
    let text := "<base target=_top><base href='/b/'><p><base href='/c/'>"
    PageFilter.EditsOnly Builtin ∧ Url.parse "https://a.example/" = .ok (exampleUrl [""]) ∧
      ∀ f ∈ (c.noting.parse "https://a.example/" text).2.filters,
        f.bases.map Prod.snd = [some (exampleUrl [""]), some (exampleUrl ["b", ""]),
          some (exampleUrl ["b", ""]), some (exampleUrl ["b", ""])] := by
  intro c text
  refine ⟨Builtin.editsOnly, parse_example, ?_⟩
  intro f member
  have tags : startTags (spelled text) =
      [(0, ⟨"base", [⟨"target", some "_top", .unquoted⟩]⟩),
        (1, ⟨"base", [⟨"href", some "/b/", .single⟩]⟩), (2, ⟨"p", []⟩),
        (3, ⟨"base", [⟨"href", some "/c/", .single⟩]⟩)] := by
    rw [spelled_eq]
    cbv
  have told := ((told_base_iff Builtin.editsOnly c parse_example text).2.2 f member).1
  rw [told, tags]
  simp only [List.map_cons, List.map_nil, Prod.map]
  decide +kernel

theorem good_base_passed_over :
    let c : Chain Builtin := { filters := [.inl {}, .inr {}] }
    let text := "<base href='http://['><base href='/b/'>"
    Url.parse "https://a.example/" = .ok (exampleUrl [""]) ∧
      ¬ ∀ f ∈ (c.noting.parse "https://a.example/" text).2.filters,
        f.bases = startBases (goodBaseAt (exampleUrl [""])) ((startTags (spelled text)).map
          (Prod.map (Observer.node observer text (c.opened (exampleUrl [""]) text)) id)) := by
  intro c text
  have accepted : Url.parse "https://a.example/" = .ok (exampleUrl [""]) := parse_example
  refine ⟨accepted, ?_⟩
  intro good
  have tags : startTags (spelled text) =
      [(0, ⟨"base", [⟨"href", some "http://[", .single⟩]⟩),
        (1, ⟨"base", [⟨"href", some "/b/", .single⟩]⟩)] := by
    rw [spelled_eq]
    cbv
  have kinds := (parse_sameMake c "https://a.example/" text).kinds
  rw [← (c.parse_noting "https://a.example/" text).2] at kinds
  obtain ⟨f, member⟩ : ∃ f, f ∈ (c.noting.parse "https://a.example/" text).2.filters := by
    apply List.exists_mem_of_ne_nil
    intro none
    rw [Chain.kinds, Chain.kinds, unnoted, mapFilters, none] at kinds
    cases kinds
  have told := good f member
  rw [parse_opened _ accepted text] at member
  rw [told_bases Builtin.editsOnly c _ text f member, startBases_eq_iff] at told
  rw [tags, List.map_cons, List.map_cons, List.map_nil] at told
  exact absurd (told [_] _ (List.prefix_refl _)) (by decide +kernel)

end Chain

end PageFilters
