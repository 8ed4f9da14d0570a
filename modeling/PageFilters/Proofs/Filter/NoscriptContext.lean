import PageFilters.Proofs.Filter.Noting
import PageFilters.Proofs.Filter.Stripping

/-!
The `noscript` that filters are told of. A chain keeps one node for it, where a page can have any
number of them open. The node is right at every hook: as elements end in the opposite order of their
starts, the first `noscript` that starts while none is known is the outermost one until it ends.
-/

namespace PageFilters

variable {ι : Type}

/-- The outermost of the open elements that are marked; the elements come latest first. -/
def outermost? (marked : ι → Bool) (opened : List ι) : Option ι :=
  (opened.filter marked).getLast?

/-- The elements that are open at a call, if `opened` were open before: one that starts is open, and
one that ends still is. -/
def Call.openAt (opened : List ι) : Call ι → List ι
  | .startElement k => k :: opened
  | _ => opened

/-- Calls, each with the outermost marked element that is open at it. -/
def sightings [DecidableEq ι] (marked : ι → Bool) :
    List ι → List (Call ι) → List (Call ι × Option ι)
  | _, [] => []
  | opened, call :: rest =>
    (call, outermost? marked (call.openAt opened)) ::
      sightings marked (call.update opened) rest

theorem outermost_cons (marked : ι → Bool) (k : ι) (opened : List ι) :
    outermost? marked (k :: opened) =
      (outermost? marked opened).or (if marked k then some k else none) := by
  rw [outermost?, outermost?, List.filter_cons]
  split
  · rw [List.getLast?_cons]
    cases (opened.filter marked).getLast? with
    | none => rfl
    | some j => rfl
  · rw [Option.or_none]

theorem outermost_mem {marked : ι → Bool} {opened : List ι} {k : ι}
    (found : outermost? marked opened = some k) : k ∈ opened :=
  (List.mem_filter.mp (List.mem_of_getLast? found)).1

section

variable [DecidableEq ι]

theorem sightings_append (marked : ι → Bool) (opened : List ι) (calls more : List (Call ι)) :
    sightings marked opened (calls ++ more) =
      sightings marked opened calls ++ sightings marked (calls.foldl Call.update opened) more := by
  induction calls generalizing opened with
  | nil => rfl
  | cons call rest ih =>
    rw [List.cons_append, sightings, sightings, ih, List.cons_append]
    rfl

/-- Keeping one element in mind, with what is said of it: `known` is taken for the outermost open
one. -/
def Call.track (marked : Bool) : Option ι × List (Call ι × Option ι) → Call ι →
    Option ι × List (Call ι × Option ι)
  | (known, said), .startElement k =>
    let known := known.or (if marked then some k else none)
    (known, said ++ [(.startElement k, known)])
  | (known, said), .endElement k =>
    (if known = some k then none else known, said ++ [(.endElement k, known)])
  | kept, _ => kept

def Call.marks (marked : ι → Bool) : Call ι → Bool
  | .startElement k => marked k
  | _ => false

theorem outermost_closed (marked : ι → Bool) {k : ι} {opened : List ι} (fresh : k ∉ opened) :
    (if outermost? marked (k :: opened) = some k then none else outermost? marked (k :: opened)) =
      outermost? marked opened := by
  rw [outermost_cons]
  cases known : outermost? marked opened with
  | none =>
    cases marked k with
    | true => simp
    | false => simp
  | some j =>
    have other : j ≠ k := fun same => fresh (same ▸ outermost_mem known)
    simp [other]

theorem Balanced.foldl_track (marked : ι → Bool) {calls : List (Call ι)}
    (balanced : Balanced calls) (opened : List ι) (apart : ∀ k ∈ opened, .startElement k ∉ calls)
    (once : ∀ k, calls.count (.startElement k) ≤ 1) (said : List (Call ι × Option ι)) :
    calls.foldl (fun kept call => call.track (call.marks marked) kept)
        (outermost? marked opened, said) =
      (outermost? marked opened, said ++ sightings marked opened calls) := by
  induction balanced generalizing opened said with
  | nil => simp [sightings]
  | @element k inside rest balanced _ ihInside ihRest =>
    have fresh : k ∉ opened := fun old => apart k old (List.mem_cons_self ..)
    have counts : ∀ j, (if j = k then 1 else 0) + inside.count (.startElement j) +
        rest.count (.startElement j) ≤ 1 := by
      intro j
      have whole := once j
      simp only [List.count_cons, List.count_append] at whole
      by_cases same : j = k
      · subst same
        simp at whole ⊢
        omega
      · simp [same, Ne.symm same] at whole ⊢
        omega
    have below : ∀ j ∈ k :: opened, .startElement j ∉ inside := by
      intro j member again
      rcases List.mem_cons.mp member with same | old
      · have some := List.count_pos_iff.mpr again
        have bound := counts j
        rw [if_pos same] at bound
        omega
      · exact apart j old (by simp [again])
    have later : ∀ j ∈ opened, .startElement j ∉ rest := by
      intro j old again
      exact apart j old (by simp [again])
    have inner := ihInside _ below fun j => by have := counts j; omega
    have outer := ihRest _ later fun j => by have := counts j; omega
    rw [List.foldl_cons, List.foldl_append, List.foldl_cons, Call.marks, Call.track,
      ← outermost_cons, inner, Call.track, outermost_closed marked fresh, outer, sightings,
      sightings_append,
      Call.update, balanced.foldl_update, sightings, Call.update, List.erase_cons_head]
    simp [Call.openAt]

end

def Occasion.marks (o : Occasion) : Bool :=
  o.call.marks fun id => o.before.keyword? id == some .noscript

def tracked (log : List Occasion) : Option NodeId × List (Call NodeId × Option NodeId) :=
  log.foldl (fun kept o => o.call.track o.marks kept) (none, [])

theorem tracked_append (log : List Occasion) (o : Occasion) :
    tracked (log ++ [o]) = o.call.track o.marks (tracked log) := by
  rw [tracked, List.foldl_append]
  rfl

def retell {ι κ : Type} (f : ι → κ) : Call ι × Option ι → Call κ × Option κ :=
  Prod.map (Call.map f) (Option.map f)

theorem Call.track_map {ι κ : Type} [DecidableEq ι] [DecidableEq κ] (f : ι → κ) (marked : Bool)
    (known : Option ι) (said : List (Call ι × Option ι)) (call : Call ι)
    (apart : ∀ j k, known = some j → call = .endElement k → f j = f k → j = k) :
    (call.map f).track marked (known.map f, said.map (retell f)) =
      Prod.map (Option.map f) (List.map (retell f)) (call.track marked (known, said)) := by
  cases call with
  | startDocument => rfl
  | endDocument => rfl
  | startElement k =>
    cases known with
    | some j => simp [Call.map, Call.track, retell]
    | none => cases marked <;> simp [Call.map, Call.track, retell]
  | endElement k =>
    cases known with
    | none => simp [Call.map, Call.track, retell]
    | some j =>
      by_cases same : j = k
      · simp [Call.map, Call.track, retell, same]
      · have other : f j ≠ f k := fun equal => same (apart j k rfl rfl equal)
        simp [Call.map, Call.track, retell, same, other]

theorem Call.known_of_track {ι : Type} [DecidableEq ι] {marked : Bool} {known : Option ι}
    {said : List (Call ι × Option ι)} {call : Call ι} {k : ι}
    (found : (call.track marked (known, said)).1 = some k) :
    known = some k ∨ call = .startElement k := by
  cases call with
  | startElement j =>
    simp only [Call.track, Option.or_eq_some_iff] at found
    rcases found with old | ⟨_, new⟩
    · exact .inl old
    · split at new
      · cases new
        exact .inr rfl
      · cases new
  | endElement j =>
    simp only [Call.track] at found
    split at found
    · cases found
    · exact .inl found
  | _ => exact .inl found

def isNoscript (tokens : List (Token String)) (k : Nat) : Bool :=
  (startName? tokens k).map Keyword.ofTag == some .noscript

theorem isNoscript_of_shows {tokens : List (Token String)} {node : Nat → NodeId} {o : Occasion}
    (shows : o.Shows tokens node) {k : Nat} (call : o.call = .startElement (node k))
    (once : ∀ j, (startName? tokens j).isSome → node j = node k → j = k) :
    o.marks = isNoscript tokens k := by
  obtain ⟨j, name, attributes, selfClosing, slashed, held, same, here⟩ := shows _ call
  have tag : startName? tokens j = some name := by
    rw [startName?, held]
    rfl
  obtain rfl : j = k := once j (by simp [tag]) same.symm
  rw [Occasion.marks, call, Call.marks, Document.keyword?, here, isNoscript, tag]
  rfl

theorem foldl_track_map {tokens : List (Token String)} {node : Nat → NodeId}
    {log : List Occasion} {calls : List (Call Nat)}
    (same : log.map Occasion.call = calls.map (Call.map node))
    (shown : ∀ o ∈ log, o.Shows tokens node)
    (once : ∀ j k, (startName? tokens j).isSome → (startName? tokens k).isSome →
      node j = node k → j = k)
    (tags : ∀ k, .startElement k ∈ calls ∨ .endElement k ∈ calls → (startName? tokens k).isSome)
    (known : Option Nat) (knownTag : ∀ k, known = some k → (startName? tokens k).isSome)
    (said : List (Call Nat × Option Nat)) :
    log.foldl (fun kept o => o.call.track o.marks kept)
        (known.map node, said.map (retell node)) =
      Prod.map (Option.map node) (List.map (retell node))
        (calls.foldl (fun kept call => call.track (call.marks (isNoscript tokens)) kept)
          (known, said)) := by
  induction calls generalizing log known said with
  | nil =>
    rw [List.map_nil, List.map_eq_nil_iff] at same
    rw [same]
    rfl
  | cons call rest ih =>
    cases log with
    | nil => cases same
    | cons o log =>
      simp only [List.map_cons, List.cons.injEq] at same
      obtain ⟨here, later⟩ := same
      have marks : o.marks = call.marks (isNoscript tokens) := by
        cases call with
        | startElement k =>
          have tag := tags k (.inl (List.mem_cons_self ..))
          exact isNoscript_of_shows (shown o (List.mem_cons_self ..)) here
            fun j other => once j k other tag
        | _ =>
          rw [Occasion.marks, here]
          rfl
      have stepped := call.track_map node (call.marks (isNoscript tokens)) known said <| by
        rintro j k rfl rfl equal
        exact once j k (knownTag j rfl) (tags k (.inr (List.mem_cons_self ..))) equal
      have stillTag : ∀ k, (call.track (call.marks (isNoscript tokens)) (known, said)).1 = some k →
          (startName? tokens k).isSome := by
        intro k found
        rcases Call.known_of_track found with old | rfl
        · exact knownTag k old
        · exact tags k (.inl (List.mem_cons_self ..))
      rw [List.foldl_cons, List.foldl_cons, here, marks, stepped]
      refine ih later (fun o member => shown o (List.mem_cons_of_mem _ member)) ?_ _ stillTag _
      intro k member
      exact tags k (member.imp (List.mem_cons_of_mem _) (List.mem_cons_of_mem _))

theorem tracked_story {tokens : List (Token String)} (node : Nat → NodeId) {log : List Occasion}
    (void : VoidOnly tokens)
    (whole : log.map Occasion.call = (story tokens).map (Call.map node))
    (shown : ∀ o ∈ log, o.Shows tokens node)
    (once : ∀ j k, (startName? tokens j).isSome → (startName? tokens k).isSome →
      node j = node k → j = k) :
    (tracked log).2 =
      (sightings (isNoscript tokens) [] (elementCalls tokens)).map (retell node) := by
  have told := foldl_track_map whole shown once (story_orderly void).only none
    (fun k none => by cases none) []
  have balanced := elementCalls_balanced tokens
  have nested := balanced.foldl_track (isNoscript tokens) []
    (fun k none => by cases none) (fun k => by rw [count_start_elementCalls]; split <;> omega) []
  have first : Call.track (Call.marks (isNoscript tokens) .startDocument) (none, [])
      Call.startDocument = (outermost? (isNoscript tokens) [], []) := rfl
  rw [story, List.foldl_cons, List.foldl_append, first, nested] at told
  exact congrArg Prod.snd told

section

variable [UrlLibrary]

/-- The calls that a filter has noted, with the `noscript` it was told of. -/
def Noting.noscripts {φ : Type} (f : Noting φ) : List (Call NodeId × Option NodeId) :=
  f.seen.map fun s => (s.call, s.context.noscript)

structure Informed {φ : Type} (said : List (Call NodeId × Option NodeId))
    (fs : List (Noting φ)) : Prop where
  each : ∀ f ∈ fs, f.noscripts.Sublist said
  first : ∀ f ∈ fs.head?, f.noscripts = said

theorem Informed.of_noscripts {φ : Type} {said : List (Call NodeId × Option NodeId)}
    {fs gs : List (Noting φ)} (informed : Informed said gs)
    (same : fs.map Noting.noscripts = gs.map Noting.noscripts) : Informed said fs := by
  constructor
  · intro f member
    have listed : f.noscripts ∈ gs.map Noting.noscripts := same ▸ List.mem_map_of_mem member
    obtain ⟨g, inside, equal⟩ := List.mem_map.mp listed
    exact equal ▸ informed.each g inside
  · intro f member
    have heads := congrArg List.head? same
    rw [List.head?_map, List.head?_map, Option.mem_def.mp member, Option.map_some] at heads
    obtain ⟨g, inside, equal⟩ := Option.map_eq_some_iff.mp heads.symm
    exact equal ▸ informed.first g inside

namespace Chain

variable {φ : Type}

section

variable {inner : Hook φ} {call : Call NodeId} {said : List (Call NodeId × Option NodeId)}
  {fs : List (Noting φ)}

theorem noscripts_hook (cx : Context) (p : Page) {g f : Noting φ}
    (same : f = (Noting.hook call inner cx p g).2) :
    f.noscripts = g.noscripts ++ [(call, cx.noscript)] := by
  simp [same, Noting.hook, Noting.noscripts]

theorem runAll_informed (cx : Context) (informed : Informed said fs) (p : Page) :
    Informed (said ++ [(call, cx.noscript)]) (runAll (Noting.hook call inner) cx fs p).2 := by
  constructor
  · refine runAll_filters (fun p f told => ?_) informed.each p
    rw [noscripts_hook cx p rfl]
    exact told.append (.refl _)
  · cases fs with
    | nil =>
      intro f member
      cases member
    | cons g rest =>
      intro f member
      rw [noscripts_hook cx p (Option.some.inj member).symm, informed.first g rfl]

theorem runWhileAttached_informed (cx : Context) (node : NodeId) (informed : Informed said fs)
    {p : Page} (attached : p.doc.isAttached node = true) :
    Informed (said ++ [(call, cx.noscript)])
      (runWhileAttached (Noting.hook call inner) cx node fs p).2 := by
  constructor
  · refine runWhileAttached_filters (fun p f told => ?_) (fun f told => ?_) node informed.each p
    · rw [noscripts_hook cx p rfl]
      exact told.append (.refl _)
    · exact told.trans (List.sublist_append_left ..)
  · cases fs with
    | nil =>
      intro f member
      cases member
    | cons g rest =>
      rw [runWhileAttached, if_pos attached]
      intro f member
      rw [noscripts_hook cx p (Option.some.inj member).symm, informed.first g rfl]

end

theorem noscript_follow (c : Chain φ) (d : Document) (id : NodeId) :
    (c.follow d id).noscript =
      c.noscript.or (if d.keyword? id == some .noscript then some id else none) := by
  unfold follow
  split
  · next noscript =>
    rw [noscript]
    cases known : c.noscript with
    | none => rfl
    | some n => exact known
  · next base =>
    rw [base, (followBase_keeps c d id).2]
    simp
  · next other _ =>
    rw [if_neg, Option.or_none]
    intro same
    exact other (eq_of_beq same)

variable [PageFilter φ]

structure Tells (x : Chain (Noting φ) × List Occasion) : Prop where
  known : x.1.noscript = (tracked x.2).1
  informed : Informed (tracked x.2).2 x.1.filters

theorem tells_kept :
    Observer.Keeps (observer : Observer (Chain (Noting φ))).recorded Tells := by
  constructor
  case startElement =>
    rintro id d ⟨c, log⟩ ⟨known, informed⟩
    have followed : (c.follow d id).filters = c.filters := (follow_keeps c d id).filters
    have noscript := noscript_follow c d id
    have ran : Informed ((tracked log).2 ++ [(.startElement id, (c.follow d id).context.noscript)])
        (runAll (PageFilter.startElement id) (c.follow d id).context c.filters
          ((c.follow d id).page d)).2 :=
      runAll_informed (c.follow d id).context informed ((c.follow d id).page d)
    rw [show (c.follow d id).context.noscript = (c.follow d id).noscript from rfl, noscript,
      show c.noscript = (tracked log).1 from known, ← followed] at ran
    constructor
    · change (c.follow d id).noscript = (tracked (log ++ _)).1
      rw [tracked_append, noscript, show c.noscript = (tracked log).1 from known]
      rfl
    · change Informed (tracked (log ++ _)).2 _
      rw [tracked_append]
      exact ran
  case endElement =>
    rintro id d ⟨c, log⟩ ⟨known, informed⟩
    have known : c.noscript = (tracked log).1 := known
    have ended : Informed ((tracked log).2 ++ [(.endElement id, c.noscript)])
        (c.ending id d).2 := by
      unfold ending
      split
      · next attached => exact runWhileAttached_informed c.context id informed attached
      · exact runAll_informed c.context informed (c.page d)
    change Tells ((onEndElement id d c).2, log ++ [_])
    rw [onEndElement_eq, leave_eq]
    constructor
    · rw [tracked_append, Call.track, ← known]
      rfl
    · rw [tracked_append, Call.track, ← known]
      exact ended
  case ignored =>
    rintro what ⟨c, log⟩ ⟨known, informed⟩
    exact ⟨known, informed⟩

end Chain

namespace Chain

variable {φ : Type} [PageFilter φ]

theorem parseWith_tells (c : Chain (Noting φ)) (text : String) :
    Tells (parseWith (observer : Observer (Chain (Noting φ))).recorded text (c, [])).2 := by
  let recorded := (observer : Observer (Chain (Noting φ))).recorded
  have begun : Tells (recorded.startDocument .empty (c, [])).2 := by
    have none := seen_startDocument ⟨c.base, none, c.policy⟩ c.filters
      (c.kinds.foldl (fun p kind => p.setOutcome kind .notApplied) ⟨.empty, {}, c.notices⟩)
    refine ⟨rfl, ?_, ?_⟩
    · intro f member
      simp [Noting.noscripts, none f member]
    · intro f member
      rw [Noting.noscripts, none f (List.mem_of_mem_head? member)]
      rfl
  have read := (Outline.ofText text).watch_keeps tells_kept Document.root begun
  rw [parseWith_eq]
  change Tells (recorded.endDocument.on ((Outline.ofText text).watch recorded Document.root
    (recorded.startDocument .empty (c, [])))).2
  generalize (Outline.ofText text).watch recorded Document.root _ = x at read ⊢
  obtain ⟨d, c, log⟩ := x
  obtain ⟨known, informed⟩ := read
  have ended : tracked (log ++ [⟨.endDocument, d, (onEndDocument d c).1⟩]) = tracked log :=
    tracked_append log _
  have same : (runAll PageFilter.endDocument { c.context with noscript := none } c.filters
      (c.page d)).2.map Noting.noscripts = c.filters.map Noting.noscripts :=
    runAll_map (fun _ _ _ => rfl) _ _ _
  change Tells ((onEndDocument d c).2, log ++ [⟨.endDocument, d, (onEndDocument d c).1⟩])
  constructor
  · rw [ended]
    exact known
  · rw [ended]
    exact informed.of_noscripts same

/-- At every start and end of an element, filters are told of the outermost `noscript` that is open
then, whatever they do to the tree. -/
theorem told_outermost_noscript (edits : PageFilter.EditsOnly φ) (c : Chain φ) {url : String}
    {documentUrl : Url} (accepted : Url.parse url = .ok documentUrl) (text : String) :
    let noted := c.noting.parse url text
    let node := Observer.node observer text (c.opened documentUrl text)
    noted.1 = (c.parse url text).1 ∧ noted.2.unnoted = (c.parse url text).2 ∧
      Informed ((sightings (isNoscript (spelled text)) [] (elementCalls (spelled text))).map
        (retell node)) noted.2.filters := by
  obtain ⟨doc, chain⟩ := c.parse_noting url text
  refine ⟨doc, chain, ?_⟩
  let noted := c.noting.opened documentUrl text
  have tells := parseWith_tells noted text
  have undisturbed :=
    Observer.undisturbed_of_editsOnly (observer_editsOnly (Noting.editsOnly edits))
    text noted
  have unnoted : noted.mapFilters Noting.filter = c.opened documentUrl text := by
    rw [opened_mapFilters Noting.contains]
    exact congrArg (opened documentUrl text) c.unnoted_noting
  have node : Observer.node observer text noted =
      Observer.node observer text (c.opened documentUrl text) := by
    funext k
    have begun := onStartDocument_mapFilters Noting.contains noted .empty
    rw [unnoted] at begun
    have built := Builder.after_matches (observer_mapFilters Noting.contains) begun text k
    exact congrArg Document.size built.doc
  have told := tracked_story _ (spelled_voidOnly text) undisturbed.whole undisturbed.shown <| by
    intro j k first second same
    rcases Nat.lt_trichotomy j k with before | rfl | after
    · exact absurd same (Nat.ne_of_lt (undisturbed.ordered j k before first second))
    · rfl
    · exact absurd same (Nat.ne_of_gt (undisturbed.ordered k j after second first))
  rw [node] at told
  rw [← told, parse_opened _ accepted, undisturbed.recorded]
  exact tells.informed

end Chain

end

structure Uprooter where
  deriving DecidableEq, Repr

instance [UrlLibrary] : PageFilter Uprooter where
  kind _ := .legacyPolyfills
  startElement id _ p f := ({ p with doc := p.doc.edit (.delete id) }, f)

theorem Uprooter.editsOnly [UrlLibrary] : PageFilter.EditsOnly Uprooter := by
  constructor
  · exact fun _ p _ => .refl p.doc
  · exact fun id _ p _ => ⟨[.delete id], rfl⟩
  · exact fun _ _ p _ => .refl p.doc
  · exact fun _ p _ => .refl p.doc

theorem Chain.told_uprooted_noscript :
    let c : Chain Uprooter := { filters := [{}, {}] }
    let text := "<noscript><p><noscript></noscript></noscript><b>"
    PageFilter.EditsOnly Uprooter ∧
      ∃ documentUrl, Url.parse "https://a.example/" = .ok documentUrl ∧
        Informed ([(.startElement 0, some 0), (.startElement 1, some 0),
            (.startElement 2, some 0), (.endElement 2, some 0), (.endElement 1, some 0),
            (.endElement 0, some 0), (.startElement 5, none), (.endElement 5, none)].map
          (retell (Observer.node observer text (c.opened documentUrl text))))
          (c.noting.parse "https://a.example/" text).2.filters := by
  intro c text
  obtain ⟨documentUrl, accepted⟩ := accepts_example
  have told : sightings (isNoscript (spelled text)) [] (elementCalls (spelled text)) =
      [(.startElement 0, some 0), (.startElement 1, some 0), (.startElement 2, some 0),
        (.endElement 2, some 0), (.endElement 1, some 0), (.endElement 0, some 0),
        (.startElement 5, none), (.endElement 5, none)] := by
    rw [spelled_eq]
    cbv
  rw [← told]
  exact ⟨Uprooter.editsOnly, documentUrl, accepted,
    (told_outermost_noscript Uprooter.editsOnly c accepted text).2.2⟩

end PageFilters
