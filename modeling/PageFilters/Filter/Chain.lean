import PageFilters.Filter.ImagePriority
import PageFilters.Filter.LegacyPolyfills
import PageFilters.Filter.Options
import PageFilters.Filter.Policy
import PageFilters.Markup.Html
import PageFilters.Url.Parse

/-!
Running a chain of filters over a page while the page is being built. The chain follows what all
filters need to know: the base URL, which is that of the page until the first `base` element with an
`href`, and the outermost open `noscript`. One chain serves any number of pages, one after the
other. Any library may read its URLs; the one that keeps to ASCII comes along.
-/

namespace PageFilters

variable [UrlLibrary]

inductive PageError where
  | invalidUrl (url : String) (cause : UrlError)

def PageError.message : PageError → String
  | invalidUrl url cause => "cannot rewrite " ++ quoted url ++ ": " ++ cause.message

abbrev Builtin := ImagePriority ⊕ LegacyPolyfills

def Builtin.ofKind : FilterKind → Builtin
  | .imagePriority => .inl {}
  | .legacyPolyfills => .inr {}

/-- Filters, with what is known of the page that they work on or have worked on last. -/
structure Chain (φ : Type) where
  options : Options := {}
  policy : Policy := Policy.usual
  filters : List φ := []
  documentUrl : Option Url := none
  base : Option Url := none
  /-- Whether a `base` element with an `href` has been met. -/
  baseSeen : Bool := false
  noscript : Option NodeId := none
  record : OutcomeRecord := {}
  notices : List Notice := []

inductive Response where
  /-- It is no page and stays as it is. -/
  | untouched
  | page (html : String)
  deriving DecidableEq, Repr

namespace Chain

variable {φ : Type}

def notify (notice : Notice) (c : Chain φ) : Chain φ :=
  { c with notices := c.notices ++ [notice] }

section

variable [PageFilter φ]

def add (f : φ) (c : Chain φ) : Chain φ :=
  ({ c with filters := c.filters ++ [f] }).notify (.filterAdded (PageFilter.kind f))

def addEnabled (make : FilterKind → φ) (c : Chain φ) : Chain φ :=
  c.options.enabled.foldl (fun c kind => c.add (make kind)) c

def ofOptions (make : FilterKind → φ) (options : Options) : Chain φ :=
  addEnabled make { options }

def kinds (c : Chain φ) : List FilterKind :=
  c.filters.map PageFilter.kind

end

def page (doc : Document) (c : Chain φ) : Page :=
  ⟨doc, c.record, c.notices⟩

def context (c : Chain φ) : Context :=
  ⟨c.base, c.noscript, c.policy⟩

def settle (c : Chain φ) : Page × List φ → Document × Chain φ
  | (p, filters) => (p.doc, { c with filters, record := p.record, notices := p.notices })

def runAll (hook : Hook φ) (cx : Context) : List φ → Page → Page × List φ
  | [], p => (p, [])
  | f :: rest, p =>
    let (p, f) := hook cx p f
    let (p, rest) := runAll hook cx rest p
    (p, f :: rest)

def runWhileAttached (hook : Hook φ) (cx : Context) (node : NodeId) : List φ → Page → Page × List φ
  | [], p => (p, [])
  | f :: rest, p =>
    if p.doc.isAttached node then
      let (p, f) := hook cx p f
      let (p, rest) := runWhileAttached hook cx node rest p
      (p, f :: rest)
    else (p.notify .deletedEarlier, f :: rest)

/-- Follows a `base` element: the first one with an `href` counts, if the `href` can be resolved. -/
def followBase (doc : Document) (node : NodeId) (c : Chain φ) : Chain φ :=
  if c.baseSeen then c
  else match (doc.element? node).bind (Element.value? "href") with
    | none => c
    | some href =>
      let c := { c with baseSeen := true }
      match Url.resolve? c.documentUrl href with
      | some url => ({ c with base := some url }).notify (.baseSet url.text)
      | none => c.notify (.baseIgnored href)

def follow (doc : Document) (node : NodeId) (c : Chain φ) : Chain φ :=
  match doc.keyword? node with
  | some .noscript => if c.noscript.isNone then { c with noscript := some node } else c
  | some .base => c.followBase doc node
  | _ => c

section

variable [PageFilter φ]

def onStartDocument : Reaction (Chain φ) := fun doc c =>
  let c := { c with noscript := none, baseSeen := false, record := {} }
  let p := c.kinds.foldl (fun p kind => p.setOutcome kind .notApplied) (c.page doc)
  c.settle (runAll PageFilter.startDocument c.context c.filters p)

def onStartElement (node : NodeId) : Reaction (Chain φ) := fun doc c =>
  let c := c.follow doc node
  c.settle (runAll (PageFilter.startElement node) c.context c.filters (c.page doc))

/-- An element that is out of the tree already ends before all filters. -/
def onEndElement (node : NodeId) : Reaction (Chain φ) := fun doc c =>
  let (doc, c) := c.settle <|
    if doc.isAttached node
    then runWhileAttached (PageFilter.endElement node) c.context node c.filters (c.page doc)
    else runAll (PageFilter.endElement node) c.context c.filters (c.page doc)
  (doc, if c.noscript = some node then { c with noscript := none } else c)

def onEndDocument : Reaction (Chain φ) := fun doc c =>
  c.settle <|
    runAll PageFilter.endDocument { c.context with noscript := none } c.filters (c.page doc)

def observer : Observer (Chain φ) where
  startDocument := onStartDocument
  startElement := onStartElement
  endElement := onEndElement
  endDocument := onEndDocument
  ignored := fun what c => c.notify (.ignored what)

/-- Builds the page at `url` from its text, with every filter at work. -/
def parse (url text : String) (c : Chain φ) : Except PageError Document × Chain φ :=
  match Url.parse url with
  | .error cause => (.error (.invalidUrl url cause), c)
  | .ok documentUrl =>
    let c := c.notify (.pageStarted documentUrl.text text.utf8ByteSize c.kinds)
    let (doc, c) := parseWith observer text
      { c with documentUrl := some documentUrl, base := some documentUrl }
    (.ok doc, c)

def run (url text : String) (c : Chain φ) : Except PageError String × Chain φ :=
  let (result, c) := c.parse url text
  (result.map Document.html, c)

def respond (url : String) (contentType : Option String) (body : String) (c : Chain φ) :
    Except PageError Response × Chain φ :=
  if isHtmlType contentType then
    let (result, c) := c.run url body
    (result.map Response.page, c)
  else (.ok .untouched, c.notify (.passedThrough url contentType))

end

end Chain

end PageFilters
