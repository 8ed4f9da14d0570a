import PageFilters.Proofs.Filter.Filtered

/-!
Chains of filters of any type. If no hook changes the tree otherwise than by edits, the chain as an
observer does not either, so all that holds of observers that edit holds of it.
-/

namespace PageFilters

theorem ImagePriority.preload_becomes (image : NodeId) (src : String) (p : Page)
    (f : ImagePriority) :
    p.doc.Becomes (preload image src p f).1.doc := by
  have created : p.doc.Becomes (p.doc.create (.element (preloadLink src))).2 :=
    ⟨[.create (.element (preloadLink src))], rfl⟩
  unfold preload
  split
  · exact .refl p.doc
  · dsimp only
    split
    · next d done =>
      have linked := created.edit (.insertBefore image p.doc.size)
      have same : (p.doc.create (.element (preloadLink src))).2.edit
          (.insertBefore image p.doc.size) = d := by
        rw [Document.edit, Document.edit?, show p.doc.size = _ from rfl]
        exact congrArg (Option.getD · _) done
      exact same ▸ linked
    · exact created

variable [UrlLibrary] {φ : Type}

def Hook.EditsOnly (hook : Hook φ) : Prop :=
  ∀ cx (p : Page) f, p.doc.Becomes (hook cx p f).1.doc

structure PageFilter.EditsOnly (φ : Type) [PageFilter φ] : Prop where
  startDocument : (PageFilter.startDocument : Hook φ).EditsOnly
  startElement : ∀ id, (PageFilter.startElement id : Hook φ).EditsOnly
  endElement : ∀ id, (PageFilter.endElement id : Hook φ).EditsOnly
  endDocument : (PageFilter.endDocument : Hook φ).EditsOnly

namespace ImagePriority

theorem onStart_editsOnly (id : NodeId) : (onStart id).EditsOnly := by
  intro cx p f
  unfold onStart
  split
  · exact .refl p.doc
  · exact .refl p.doc
  · split
    · exact .refl p.doc
    · next src _ =>
      have changed : p.doc.Becomes (p.doc.modifyElement id promote) := ⟨[.modify id promote], rfl⟩
      have linked := preload_becomes id src { p with doc := p.doc.modifyElement id promote } f
      rw [prioritize]
      dsimp only
      rw [Page.applied, Chain.setOutcome_doc]
      exact changed.trans linked

theorem onEnd_editsOnly (id : NodeId) : (onEnd id).EditsOnly := by
  intro cx p f
  rw [(onEnd_keeps id cx p f).1]
  exact .refl p.doc

end ImagePriority

theorem LegacyPolyfills.onEnd_editsOnly (id : NodeId) : (onEnd id).EditsOnly := by
  intro cx p f
  unfold onEnd
  split
  · exact .refl p.doc
  · split
    · exact .refl p.doc
    · next d done =>
      have deleted : p.doc.edit (.delete id) = d := by
        rw [Document.edit, Document.edit?, done]
        rfl
      rw [Page.applied, Chain.setOutcome_doc]
      exact ⟨[.delete id], deleted.symm⟩

theorem Builtin.editsOnly : PageFilter.EditsOnly Builtin := by
  constructor
  case startDocument =>
    rintro cx p (f | f)
    · exact .refl p.doc
    · exact .refl p.doc
  case startElement =>
    rintro id cx p (f | f)
    · exact ImagePriority.onStart_editsOnly id cx p f
    · exact .refl p.doc
  case endElement =>
    rintro id cx p (f | f)
    · exact ImagePriority.onEnd_editsOnly id cx p f
    · exact LegacyPolyfills.onEnd_editsOnly id cx p f
  case endDocument =>
    rintro cx p (f | f)
    · exact .refl p.doc
    · exact .refl p.doc

namespace Chain

section

variable {hook : Hook φ}

theorem runAll_filters {P Q : φ → Prop} {cx : Context} (step : ∀ p f, P f → Q (hook cx p f).2)
    {fs : List φ} (each : ∀ f ∈ fs, P f) (p : Page) : ∀ f ∈ (runAll hook cx fs p).2, Q f := by
  induction fs generalizing p with
  | nil =>
    intro f member
    cases member
  | cons g rest ih =>
    intro f member
    rcases List.mem_cons.mp member with rfl | member
    · exact step p g (each g (List.mem_cons_self ..))
    · exact ih (fun f later => each f (List.mem_cons_of_mem g later)) _ f member

theorem runWhileAttached_filters {P Q : φ → Prop} {cx : Context}
    (step : ∀ p f, P f → Q (hook cx p f).2) (skipped : ∀ f, P f → Q f) (node : NodeId)
    {fs : List φ} (each : ∀ f ∈ fs, P f) (p : Page) :
    ∀ f ∈ (runWhileAttached hook cx node fs p).2, Q f := by
  induction fs generalizing p with
  | nil =>
    intro f member
    cases member
  | cons g rest ih =>
    unfold runWhileAttached
    split
    · intro f member
      rcases List.mem_cons.mp member with rfl | member
      · exact step p g (each g (List.mem_cons_self ..))
      · exact ih (fun f later => each f (List.mem_cons_of_mem g later)) _ f member
    · intro f member
      exact skipped f (each f member)

theorem runAll_map {β : Type} {g : φ → β} (keeps : ∀ cx p f, g (hook cx p f).2 = g f)
    (cx : Context) (fs : List φ) (p : Page) : (runAll hook cx fs p).2.map g = fs.map g := by
  induction fs generalizing p with
  | nil => rfl
  | cons f rest ih =>
    rw [runAll]
    dsimp only
    rw [List.map_cons, List.map_cons, keeps, ih]

theorem runWhileAttached_map {β : Type} {g : φ → β} (keeps : ∀ cx p f, g (hook cx p f).2 = g f)
    (cx : Context) (node : NodeId) (fs : List φ) (p : Page) :
    (runWhileAttached hook cx node fs p).2.map g = fs.map g := by
  induction fs generalizing p with
  | nil => rfl
  | cons f rest ih =>
    rw [runWhileAttached]
    split
    · dsimp only
      rw [List.map_cons, List.map_cons, keeps, ih]
    · rfl

theorem runAll_becomes (edits : hook.EditsOnly) (cx : Context) (fs : List φ) (p : Page) :
    p.doc.Becomes (runAll hook cx fs p).1.doc :=
  runAll_keeps (P := fun q => p.doc.Becomes q.doc)
    (fun f _ cx q reached => reached.trans (edits cx q f)) cx (.refl p.doc)

theorem runWhileAttached_becomes (edits : hook.EditsOnly) (cx : Context) (node : NodeId)
    (fs : List φ) (p : Page) : p.doc.Becomes (runWhileAttached hook cx node fs p).1.doc :=
  runWhileAttached_keeps (P := fun q => p.doc.Becomes q.doc)
    (fun f _ cx q reached => reached.trans (edits cx q f)) (fun _ _ reached => reached) cx node
    (.refl p.doc)

end

variable [PageFilter φ]

/-- What the filters make of a page and of themselves when an element ends. -/
def ending (id : NodeId) (d : Document) (c : Chain φ) : Page × List φ :=
  if d.isAttached id
  then runWhileAttached (PageFilter.endElement id) c.context id c.filters (c.page d)
  else runAll (PageFilter.endElement id) c.context c.filters (c.page d)

theorem onEndElement_eq (id : NodeId) (d : Document) (c : Chain φ) :
    onEndElement id d c =
      ((c.settle (c.ending id d)).1, (c.settle (c.ending id d)).2.leave id) :=
  rfl

theorem ending_filters {P Q : φ → Prop} {c : Chain φ} {id : NodeId}
    (step : ∀ p f, P f → Q (PageFilter.endElement id c.context p f).2)
    (skipped : ∀ f, P f → Q f) (each : ∀ f ∈ c.filters, P f) (d : Document) :
    ∀ f ∈ (c.ending id d).2, Q f := by
  unfold ending
  split
  · exact runWhileAttached_filters step skipped id each (c.page d)
  · exact runAll_filters step each (c.page d)

theorem ending_map {β : Type} {g : φ → β} {id : NodeId}
    (keeps : ∀ cx p f, g (PageFilter.endElement id cx p f).2 = g f) (c : Chain φ) (d : Document) :
    (c.ending id d).2.map g = c.filters.map g := by
  unfold ending
  split
  · exact runWhileAttached_map keeps c.context id c.filters (c.page d)
  · exact runAll_map keeps c.context c.filters (c.page d)

omit [PageFilter φ] in
theorem leave_eq (c : Chain φ) (id : NodeId) :
    c.leave id = { c with noscript := if c.noscript = some id then none else c.noscript } := by
  unfold leave
  split
  · rfl
  · rfl

theorem filters_onEndElement (id : NodeId) (d : Document) (c : Chain φ) :
    (onEndElement id d c).2.filters = (c.ending id d).2 := by
  rw [onEndElement_eq, leave_eq]
  rfl

theorem observer_editsOnly (edits : PageFilter.EditsOnly φ) :
    Observer.EditsOnly (observer : Observer (Chain φ)) := by
  constructor
  case startDocument =>
    intro d c
    have seeded := (foldl_setOutcome c.kinds ⟨d, {}, c.notices⟩).1
    have ran := runAll_becomes edits.startDocument ⟨c.base, none, c.policy⟩ c.filters
      (c.kinds.foldl (fun p kind => p.setOutcome kind .notApplied) ⟨d, {}, c.notices⟩)
    rw [seeded] at ran
    exact ran
  case startElement =>
    intro id d c
    exact runAll_becomes (edits.startElement id) (c.follow d id).context (c.follow d id).filters
      ((c.follow d id).page d)
  case endElement =>
    intro id d c
    change d.Becomes (c.ending id d).1.doc
    unfold ending
    split
    · exact runWhileAttached_becomes (edits.endElement id) c.context id c.filters (c.page d)
    · exact runAll_becomes (edits.endElement id) c.context c.filters (c.page d)
  case endDocument =>
    intro d c
    exact runAll_becomes edits.endDocument { c.context with noscript := none } c.filters (c.page d)

def opened (documentUrl : Url) (text : String) (c : Chain φ) : Chain φ :=
  { c.notify (.pageStarted documentUrl.text text.utf8ByteSize c.kinds) with
    documentUrl := some documentUrl, base := some documentUrl }

theorem parse_refused (c : Chain φ) {url : String} {cause : UrlError}
    (refused : Url.parse url = .error cause) (text : String) :
    c.parse url text = (.error (.invalidUrl url cause), c) := by
  rw [Chain.parse, refused]

theorem parse_opened (c : Chain φ) {url : String} {documentUrl : Url}
    (accepted : Url.parse url = .ok documentUrl) (text : String) :
    c.parse url text = (.ok (parseWith observer text (c.opened documentUrl text)).1,
      (parseWith observer text (c.opened documentUrl text)).2) := by
  rw [Chain.parse, accepted]
  rfl

theorem run_opened (c : Chain φ) {url : String} {documentUrl : Url}
    (accepted : Url.parse url = .ok documentUrl) (text : String) :
    c.run url text = (.ok (parseWith observer text (c.opened documentUrl text)).1.html,
      (parseWith observer text (c.opened documentUrl text)).2) := by
  rw [run, parse_opened c accepted]
  rfl

end Chain

end PageFilters
