import PageFilters.Proofs.Filter.Following

/-!
A chain keeps nothing of one page for the next. What a page begins with depends on how the chain was
made and on the address of the page; from there on only notices can differ, and nothing depends on
them. So requests may come in any order and any number: each is answered as by a new chain.
-/

namespace PageFilters

structure Page.Alike (p q : Page) : Prop where
  doc : p.doc = q.doc
  record : p.record = q.record

theorem Page.Alike.setOutcome {p q : Page} (alike : p.Alike q) (kind : FilterKind)
    (outcome : Outcome) : (p.setOutcome kind outcome).Alike (q.setOutcome kind outcome) := by
  obtain ⟨doc, record, _⟩ := p
  obtain ⟨_, _, _⟩ := q
  obtain ⟨rfl, rfl⟩ := alike
  unfold Page.setOutcome
  simp only
  split
  · exact ⟨rfl, rfl⟩
  · exact ⟨rfl, rfl⟩

theorem foldl_setOutcome_alike (kinds : List FilterKind) {p q : Page} (alike : p.Alike q) :
    (kinds.foldl (fun p kind => p.setOutcome kind .notApplied) p).Alike
      (kinds.foldl (fun p kind => p.setOutcome kind .notApplied) q) := by
  induction kinds generalizing p q with
  | nil => exact alike
  | cons kind rest ih => exact ih (alike.setOutcome kind .notApplied)

theorem ImagePriority.preload_deaf {p q : Page} (alike : p.Alike q) (image : NodeId) (src : String)
    (f : ImagePriority) :
    (preload image src p f).1.Alike (preload image src q f).1 ∧
      (preload image src p f).2 = (preload image src q f).2 := by
  obtain ⟨doc, record, _⟩ := p
  obtain ⟨_, _, _⟩ := q
  obtain ⟨rfl, rfl⟩ := alike
  unfold preload
  split
  · exact ⟨⟨rfl, rfl⟩, rfl⟩
  · simp only
    split
    · exact ⟨⟨rfl, rfl⟩, rfl⟩
    · exact ⟨⟨rfl, rfl⟩, rfl⟩

variable [UrlLibrary]

def Hook.Deaf (hook : Hook φ) : Prop :=
  ∀ cx (p q : Page) f, p.Alike q →
    (hook cx p f).1.Alike (hook cx q f).1 ∧ (hook cx p f).2 = (hook cx q f).2

namespace ImagePriority

theorem onStart_deaf (id : NodeId) : Hook.Deaf (onStart id) := by
  rintro cx ⟨doc, record, n⟩ ⟨_, _, n'⟩ f ⟨rfl, rfl⟩
  have same : f.candidate? id cx ⟨doc, record, n⟩ = f.candidate? id cx ⟨doc, record, n'⟩ := rfl
  unfold onStart
  simp only [same]
  split
  · exact ⟨⟨rfl, rfl⟩, rfl⟩
  · exact ⟨⟨rfl, rfl⟩, rfl⟩
  · split
    · exact ⟨⟨rfl, rfl⟩, rfl⟩
    · next src _ =>
      obtain ⟨alike, same⟩ := preload_deaf
        (p := ⟨doc.modifyElement id promote, record, n⟩)
        (q := ⟨doc.modifyElement id promote, record, n'⟩) ⟨rfl, rfl⟩ id src f
      constructor
      · exact alike.setOutcome .imagePriority .applied
      · exact congrArg (fun f : ImagePriority => { f with promoted := f.promoted + 1 }) same

theorem onEnd_deaf (id : NodeId) : Hook.Deaf (onEnd id) := by
  rintro cx ⟨doc, record, n⟩ ⟨_, _, n'⟩ f ⟨rfl, rfl⟩
  unfold onEnd
  simp only
  split
  · exact ⟨⟨rfl, rfl⟩, rfl⟩
  · exact ⟨⟨rfl, rfl⟩, rfl⟩
  · exact ⟨⟨rfl, rfl⟩, rfl⟩

end ImagePriority

theorem LegacyPolyfills.onEnd_deaf (id : NodeId) : Hook.Deaf (onEnd id) := by
  rintro cx ⟨doc, record, n⟩ ⟨_, _, n'⟩ f ⟨rfl, rfl⟩
  unfold onEnd
  dsimp only
  split
  · exact ⟨⟨rfl, rfl⟩, rfl⟩
  · split
    · exact ⟨⟨rfl, rfl⟩, rfl⟩
    · refine ⟨Page.Alike.setOutcome ?_ .legacyPolyfills .applied, rfl⟩
      exact ⟨rfl, rfl⟩

namespace Builtin

theorem startElement_deaf (id : NodeId) : (PageFilter.startElement id : Hook Builtin).Deaf := by
  intro cx p q f alike
  cases f with
  | inl f =>
    obtain ⟨same, kept⟩ := ImagePriority.onStart_deaf id cx p q f alike
    exact ⟨same, congrArg Sum.inl kept⟩
  | inr f => exact ⟨alike, rfl⟩

theorem endElement_deaf (id : NodeId) : (PageFilter.endElement id : Hook Builtin).Deaf := by
  intro cx p q f alike
  cases f with
  | inl f =>
    obtain ⟨same, kept⟩ := ImagePriority.onEnd_deaf id cx p q f alike
    exact ⟨same, congrArg Sum.inl kept⟩
  | inr f =>
    obtain ⟨same, kept⟩ := LegacyPolyfills.onEnd_deaf id cx p q f alike
    exact ⟨same, congrArg Sum.inr kept⟩

theorem endDocument_deaf : (PageFilter.endDocument : Hook Builtin).Deaf := by
  intro cx p q f alike
  cases f with
  | inl f => exact ⟨alike, rfl⟩
  | inr f => exact ⟨alike, rfl⟩

end Builtin

namespace Chain

section

variable {φ : Type} {hook : Hook φ} {c c' : Chain φ}

theorem runAll_deaf (deaf : hook.Deaf) (cx : Context) (fs : List φ) {p q : Page}
    (alike : p.Alike q) :
    (runAll hook cx fs p).1.Alike (runAll hook cx fs q).1 ∧
      (runAll hook cx fs p).2 = (runAll hook cx fs q).2 := by
  induction fs generalizing p q with
  | nil => exact ⟨alike, rfl⟩
  | cons f rest ih =>
    obtain ⟨first, kept⟩ := deaf cx p q f alike
    obtain ⟨later, others⟩ := ih first
    exact ⟨later, congrArg₂ List.cons kept others⟩

theorem runWhileAttached_deaf (deaf : hook.Deaf) (cx : Context) (node : NodeId) (fs : List φ)
    {p q : Page} (alike : p.Alike q) :
    (runWhileAttached hook cx node fs p).1.Alike (runWhileAttached hook cx node fs q).1 ∧
      (runWhileAttached hook cx node fs p).2 = (runWhileAttached hook cx node fs q).2 := by
  induction fs generalizing p q with
  | nil => exact ⟨alike, rfl⟩
  | cons f rest ih =>
    unfold runWhileAttached
    rw [alike.doc]
    split
    · obtain ⟨first, kept⟩ := deaf cx p q f alike
      obtain ⟨later, others⟩ := ih first
      exact ⟨later, congrArg₂ List.cons kept others⟩
    · exact ⟨⟨alike.doc, alike.record⟩, rfl⟩

def silent (c : Chain φ) : Chain φ :=
  { c with notices := [] }

def Alike (c c' : Chain φ) : Prop :=
  c.silent = c'.silent

theorem Alike.fields (alike : c.Alike c') : c' = { c with notices := c'.notices } := by
  cases c
  cases c'
  simp only [Alike, silent, mk.injEq] at alike
  simp only [mk.injEq]
  tauto

theorem Alike.context (alike : c.Alike c') : c.context = c'.context := by
  rw [alike.fields]
  rfl

theorem Alike.filters (alike : c.Alike c') : c.filters = c'.filters := by
  rw [alike.fields]

theorem Alike.page (alike : c.Alike c') (d : Document) : (c.page d).Alike (c'.page d) := by
  rw [alike.fields]
  exact ⟨rfl, rfl⟩

theorem Alike.follow (alike : c.Alike c') (d : Document) (id : NodeId) :
    (c.follow d id).Alike (c'.follow d id) := by
  rw [alike.fields]
  unfold Chain.follow
  split
  · dsimp only
    split
    · rfl
    · rfl
  · unfold followBase
    dsimp only
    split
    · rfl
    · split
      · rfl
      · split
        · rfl
        · rfl
  · rfl

theorem Alike.settle (alike : c.Alike c') {x y : Page × List φ} (pages : x.1.Alike y.1)
    (filters : x.2 = y.2) : Alongside Alike (c.settle x) (c'.settle y) := by
  obtain ⟨⟨doc, record, _⟩, fs⟩ := x
  obtain ⟨⟨_, _, _⟩, _⟩ := y
  obtain ⟨rfl, rfl⟩ := pages
  subst filters
  rw [alike.fields]
  exact ⟨rfl, rfl⟩

def leave (c : Chain φ) (id : NodeId) : Chain φ :=
  if c.noscript = some id then { c with noscript := none } else c

theorem Alike.leave (alike : c.Alike c') (id : NodeId) : (c.leave id).Alike (c'.leave id) := by
  rw [alike.fields]
  unfold Chain.leave
  dsimp only
  split
  · rfl
  · rfl

end

variable {c c' : Chain Builtin}

theorem onStartElement_alike (alike : c.Alike c') (id : NodeId) (d : Document) :
    Alongside Alike (onStartElement id d c) (onStartElement id d c') := by
  have followed := alike.follow d id
  obtain ⟨pages, filters⟩ := runAll_deaf (Builtin.startElement_deaf id) (c.follow d id).context
    (c.follow d id).filters (followed.page d)
  unfold onStartElement
  dsimp only
  rw [← followed.context, ← followed.filters]
  exact followed.settle pages filters

theorem onEndElement_alike (alike : c.Alike c') (id : NodeId) (d : Document) :
    Alongside Alike (onEndElement id d c) (onEndElement id d c') := by
  have ended : Alongside Alike
      (c.settle (if d.isAttached id
        then runWhileAttached (PageFilter.endElement id) c.context id c.filters (c.page d)
        else runAll (PageFilter.endElement id) c.context c.filters (c.page d)))
      (c'.settle (if d.isAttached id
        then runWhileAttached (PageFilter.endElement id) c'.context id c'.filters (c'.page d)
        else runAll (PageFilter.endElement id) c'.context c'.filters (c'.page d))) := by
    rw [← alike.context, ← alike.filters]
    split
    · obtain ⟨pages, filters⟩ := runWhileAttached_deaf (Builtin.endElement_deaf id) c.context id
        c.filters (alike.page d)
      exact alike.settle pages filters
    · obtain ⟨pages, filters⟩ := runAll_deaf (Builtin.endElement_deaf id) c.context c.filters
        (alike.page d)
      exact alike.settle pages filters
  exact ⟨ended.1, Alike.leave ended.2 id⟩

theorem onEndDocument_alike (alike : c.Alike c') (d : Document) :
    Alongside Alike (onEndDocument d c) (onEndDocument d c') := by
  obtain ⟨pages, filters⟩ := runAll_deaf Builtin.endDocument_deaf
    { c.context with noscript := none } c.filters (alike.page d)
  unfold onEndDocument
  rw [← alike.context, ← alike.filters]
  exact alike.settle pages filters

theorem observer_matches :
    Observer.Matches (observer : Observer (Chain Builtin)) (observer : Observer (Chain Builtin))
      Alike := by
  constructor
  · rintro id ⟨d, c⟩ ⟨_, c'⟩ ⟨rfl, alike⟩
    exact onStartElement_alike alike id d
  · rintro id ⟨d, c⟩ ⟨_, c'⟩ ⟨rfl, alike⟩
    exact onEndElement_alike alike id d
  · intro what c c' alike
    change c.silent = c'.silent
    exact alike
  · rintro ⟨d, c⟩ ⟨_, c'⟩ ⟨rfl, alike⟩
    exact onEndDocument_alike alike d

/-- Two chains of the same make: they differ in what they know of a page and in what their filters
remember. -/
structure SameMake (c c' : Chain Builtin) : Prop where
  options : c.options = c'.options
  policy : c.policy = c'.policy
  kinds : c.kinds = c'.kinds

theorem SameMake.refl (c : Chain Builtin) : c.SameMake c :=
  ⟨rfl, rfl, rfl⟩

theorem SameMake.trans {c'' : Chain Builtin} (first : c.SameMake c') (second : c'.SameMake c'') :
    c.SameMake c'' :=
  ⟨first.options.trans second.options, first.policy.trans second.policy,
    first.kinds.trans second.kinds⟩

theorem runAll_startDocument (cx : Context) (fs : List Builtin) (p : Page) :
    runAll PageFilter.startDocument cx fs p =
      (p, (fs.map PageFilter.kind).map Builtin.ofKind) := by
  induction fs with
  | nil => rfl
  | cons f rest ih =>
    cases f with
    | inl f =>
      have later := congrArg (fun x : Page × List Builtin => (x.1, Sum.inl {} :: x.2)) ih
      exact later
    | inr f =>
      have later := congrArg (fun x : Page × List Builtin => (x.1, Sum.inr {} :: x.2)) ih
      exact later

theorem SameMake.begun (same : c.SameMake c') (documentUrl : c.documentUrl = c'.documentUrl)
    (base : c.base = c'.base) (d : Document) :
    Alongside Alike (onStartDocument d c) (onStartDocument d c') := by
  have pages := foldl_setOutcome_alike c.kinds
    (p := ⟨d, {}, c.notices⟩) (q := ⟨d, {}, c'.notices⟩) ⟨rfl, rfl⟩
  obtain ⟨options, policy, kinds⟩ := same
  unfold onStartDocument
  dsimp only
  rw [runAll_startDocument, runAll_startDocument]
  change Alongside Alike
    (Chain.settle _ (c.kinds.foldl _ _, c.kinds.map _))
    (Chain.settle _ (c'.kinds.foldl _ _, c'.kinds.map _))
  rw [← kinds]
  refine ⟨pages.doc, ?_⟩
  simp only [Alike, silent, settle, mk.injEq, and_true, true_and]
  exact ⟨options, policy, documentUrl, base, pages.record⟩

theorem startElement_kind (id : NodeId) (cx : Context) (p : Page) (f : Builtin) :
    PageFilter.kind (PageFilter.startElement id cx p f).2 = PageFilter.kind f := by
  cases f with
  | inl f => rfl
  | inr f => rfl

theorem endElement_kind (id : NodeId) (cx : Context) (p : Page) (f : Builtin) :
    PageFilter.kind (PageFilter.endElement id cx p f).2 = PageFilter.kind f := by
  cases f with
  | inl f => rfl
  | inr f => rfl

theorem endDocument_kind (cx : Context) (p : Page) (f : Builtin) :
    PageFilter.kind (PageFilter.endDocument cx p f).2 = PageFilter.kind f := by
  cases f with
  | inl f => rfl
  | inr f => rfl

section

variable {hook : Hook Builtin}
  (keeps : ∀ cx p f, PageFilter.kind (hook cx p f).2 = PageFilter.kind f)

include keeps

theorem runAll_kinds (cx : Context) (fs : List Builtin) (p : Page) :
    (runAll hook cx fs p).2.map PageFilter.kind = fs.map PageFilter.kind := by
  induction fs generalizing p with
  | nil => rfl
  | cons f rest ih => exact congrArg₂ List.cons (keeps cx p f) (ih _)

theorem runWhileAttached_kinds (cx : Context) (node : NodeId) (fs : List Builtin) (p : Page) :
    (runWhileAttached hook cx node fs p).2.map PageFilter.kind = fs.map PageFilter.kind := by
  induction fs generalizing p with
  | nil => rfl
  | cons f rest ih =>
    unfold runWhileAttached
    split
    · exact congrArg₂ List.cons (keeps cx p f) (ih _)
    · rfl

end

theorem settle_sameMake (c : Chain Builtin) {x : Page × List Builtin}
    (kinds : x.2.map PageFilter.kind = c.kinds) : c.SameMake (c.settle x).2 :=
  ⟨rfl, rfl, kinds.symm⟩

theorem follow_sameMake (c : Chain Builtin) (d : Document) (id : NodeId) :
    c.SameMake (c.follow d id) := by
  have same := follow_keeps c d id
  constructor
  · exact same.options.symm
  · exact same.policy.symm
  · rw [kinds, kinds, same.filters]

theorem onStartElement_sameMake (c : Chain Builtin) (id : NodeId) (d : Document) :
    c.SameMake (onStartElement id d c).2 :=
  (follow_sameMake c d id).trans
    (settle_sameMake _ (runAll_kinds (startElement_kind id) _ _ _))

theorem leave_sameMake (c : Chain Builtin) (id : NodeId) : c.SameMake (c.leave id) := by
  unfold leave
  split
  · exact ⟨rfl, rfl, rfl⟩
  · exact .refl c

theorem onEndElement_sameMake (c : Chain Builtin) (id : NodeId) (d : Document) :
    c.SameMake (onEndElement id d c).2 := by
  have kinds : (if d.isAttached id
      then runWhileAttached (PageFilter.endElement id) c.context id c.filters (c.page d)
      else runAll (PageFilter.endElement id) c.context c.filters (c.page d)).2.map
        PageFilter.kind = c.kinds := by
    split
    · exact runWhileAttached_kinds (endElement_kind id) _ _ _ _
    · exact runAll_kinds (endElement_kind id) _ _ _
  exact (settle_sameMake c kinds).trans (leave_sameMake _ id)

theorem onEndDocument_sameMake (c : Chain Builtin) (d : Document) :
    c.SameMake (onEndDocument d c).2 :=
  settle_sameMake c (runAll_kinds endDocument_kind _ _ _)

theorem onStartDocument_sameMake (c : Chain Builtin) (d : Document) :
    c.SameMake (onStartDocument d c).2 := by
  have kinds : ∀ ks : List FilterKind,
      (ks.map Builtin.ofKind).map PageFilter.kind = ks := by
    intro ks
    induction ks with
    | nil => rfl
    | cons k rest ih => cases k <;> exact congrArg (List.cons _) ih
  unfold onStartDocument
  dsimp only
  rw [runAll_startDocument]
  exact ⟨rfl, rfl, (kinds c.kinds).symm⟩

theorem sameMake_kept (c : Chain Builtin) :
    Observer.Keeps (observer : Observer (Chain Builtin)) c.SameMake := by
  constructor
  · intro id d later same
    exact same.trans (onStartElement_sameMake later id d)
  · intro id d later same
    exact same.trans (onEndElement_sameMake later id d)
  · intro what later same
    exact ⟨same.options, same.policy, same.kinds⟩

theorem parseWith_sameMake (c : Chain Builtin) (text : String) :
    c.SameMake (parseWith observer text c).2 := by
  have begun := onStartDocument_sameMake c .empty
  have read := (Outline.ofText text).watch_keeps (sameMake_kept c) Document.root
    (x := onStartDocument .empty c) begun
  have ended := onEndDocument_sameMake
    ((Outline.ofText text).watch observer Document.root (onStartDocument .empty c)).2
    ((Outline.ofText text).watch observer Document.root (onStartDocument .empty c)).1
  have whole : parseWith observer text c = observer.endDocument.on
      ((Outline.ofText text).watch observer Document.root (onStartDocument .empty c)) :=
    parseWith_eq _ _ _
  rw [whole]
  exact read.trans ended

theorem parse_sameMake (c : Chain Builtin) (url text : String) :
    c.SameMake (c.parse url text).2 := by
  unfold Chain.parse
  split
  · exact .refl c
  · next documentUrl _ =>
    let opened : Chain Builtin :=
      { c.notify (.pageStarted documentUrl.text text.utf8ByteSize c.kinds) with
        documentUrl := some documentUrl, base := some documentUrl }
    have same := parseWith_sameMake opened text
    exact ⟨same.options, same.policy, same.kinds⟩

/-- What can be asked of a chain. -/
inductive Request where
  | parse (url text : String)
  | run (url text : String)
  | respond (url : String) (contentType : Option String) (body : String)
  deriving DecidableEq, Repr

inductive Reply where
  | refused (error : PageError)
  | untouched
  | document (d : Document)
  | page (html : String)

namespace Reply

def ofDocument : Except PageError Document → Reply
  | .error e => refused e
  | .ok d => document d

def ofHtml : Except PageError String → Reply
  | .error e => refused e
  | .ok html => page html

def ofResponse : Except PageError Response → Reply
  | .error e => refused e
  | .ok .untouched => untouched
  | .ok (.page html) => page html

def isWork : Reply → Bool
  | refused _ | untouched => false
  | document _ | page _ => true

end Reply

def serve (c : Chain Builtin) : Request → Reply × Chain Builtin
  | .parse url text => (Reply.ofDocument (c.parse url text).1, (c.parse url text).2)
  | .run url text => (Reply.ofHtml (c.run url text).1, (c.run url text).2)
  | .respond url contentType body =>
    (Reply.ofResponse (c.respond url contentType body).1, (c.respond url contentType body).2)

def afterRequests (c : Chain Builtin) (requests : List Request) : Chain Builtin :=
  requests.foldl (fun c request => (c.serve request).2) c

theorem serve_sameMake (c : Chain Builtin) (request : Request) :
    c.SameMake (c.serve request).2 := by
  cases request with
  | parse url text => exact parse_sameMake c url text
  | run url text => exact parse_sameMake c url text
  | respond url contentType body =>
    rw [serve, respond]
    split
    · exact parse_sameMake c url body
    · exact ⟨rfl, rfl, rfl⟩

theorem afterRequests_sameMake (c : Chain Builtin) (requests : List Request) :
    c.SameMake (c.afterRequests requests) := by
  induction requests generalizing c with
  | nil => exact .refl c
  | cons request rest ih => exact (serve_sameMake c request).trans (ih _)

theorem SameMake.parse (same : c.SameMake c') (url text : String) :
    (c.parse url text).1 = (c'.parse url text).1 ∧
      match (c.parse url text).1 with
      | .ok _ => (c.parse url text).2.Alike (c'.parse url text).2
      | .error _ => (c.parse url text).2 = c ∧ (c'.parse url text).2 = c' := by
  unfold Chain.parse
  cases Url.parse url with
  | error cause => exact ⟨rfl, rfl, rfl⟩
  | ok documentUrl =>
    let opened (c : Chain Builtin) : Chain Builtin :=
      { c.notify (.pageStarted documentUrl.text text.utf8ByteSize c.kinds) with
        documentUrl := some documentUrl, base := some documentUrl }
    have made : (opened c).SameMake (opened c') := ⟨same.options, same.policy, same.kinds⟩
    have begun := made.begun rfl rfl .empty
    obtain ⟨doc, alike⟩ := parseWith_matches observer_matches begun text
    exact ⟨congrArg Except.ok doc, alike⟩

theorem parse_idle (c : Chain Builtin) (url text : String) :
    (∃ d, (c.parse url text).1 = .ok d) ∨ (c.parse url text).2 = c := by
  unfold Chain.parse
  cases Url.parse url with
  | error cause => exact .inr rfl
  | ok documentUrl => exact .inl ⟨_, rfl⟩

theorem serve_idle (c : Chain Builtin) (request : Request) :
    (c.serve request).1.isWork = true ∨ (c.serve request).2.silent = c.silent := by
  cases request with
  | parse url text =>
    rcases c.parse_idle url text with ⟨d, done⟩ | idle
    · simp [serve, done, Reply.ofDocument, Reply.isWork]
    · simp [serve, idle]
  | run url text =>
    rcases c.parse_idle url text with ⟨d, done⟩ | idle
    · simp [serve, run, done, Except.map, Reply.ofHtml, Reply.isWork]
    · simp [serve, run, idle]
  | respond url contentType body =>
    rw [serve, respond]
    split
    · rcases c.parse_idle url body with ⟨d, done⟩ | idle
      · simp [run, done, Except.map, Reply.ofResponse, Reply.isWork]
      · simp [run, idle]
    · exact .inr rfl

/-- A chain that has served requests answers like a new one, and what it knows afterwards is the
same; a request that is refused or passed through leaves everything as it was. -/
theorem answers_as_new (options : Options) (policy : Policy) (requests : List Request)
    (url text : String) :
    let new : Chain Builtin := { Chain.ofOptions Builtin.ofKind options with policy }
    let used := new.afterRequests requests
    (used.run url text).1 = (new.run url text).1 ∧
      (match (new.run url text).1 with
      | .ok _ =>
        (used.run url text).2.record = (new.run url text).2.record ∧
          (used.run url text).2.base = (new.run url text).2.base
      | .error _ => (used.run url text).2.silent = used.silent) ∧
      ∀ request, (used.serve request).1.isWork = true ∨
        (used.serve request).2.silent = used.silent := by
  intro new used
  have same : new.SameMake used := afterRequests_sameMake new requests
  obtain ⟨result, state⟩ := same.parse url text
  refine ⟨?_, ?_, serve_idle used⟩
  · exact congrArg (Except.map Document.html) result.symm
  · simp only [run]
    cases parsed : (new.parse url text).1 with
    | ok d =>
      rw [parsed] at state
      have fields := Alike.fields state
      exact ⟨by rw [fields], by rw [fields]⟩
    | error e =>
      rw [parsed] at state
      exact congrArg silent state.2

end Chain

end PageFilters
