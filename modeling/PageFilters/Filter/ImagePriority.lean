import PageFilters.Filter.Context
import PageFilters.Filter.Eligibility

/-!
The filter that has the main image of a page fetched first. It promotes the first eligible image
inside the body, outside `noscript`: the image gets a high fetch priority, is no longer loaded
lazily, is exempted from deferral, and a link that preloads it goes right before it. Later images
stay as they are.
-/

namespace PageFilters

inductive Region where
  | outside | inHead | inBody | afterBody
  deriving DecidableEq, Repr

structure ImagePriority where
  inHead : Bool := false
  inBody : Bool := false
  bodyClosed : Bool := false
  promoted : Nat := 0
  preloaded : List String := []
  deriving DecidableEq, Repr

namespace ImagePriority

def limit : Nat := 1

def noDeferNames : List String :=
  ["data-pagespeed-no-defer", "pagespeed_no_defer"]

def region (f : ImagePriority) : Region :=
  if f.inBody then .inBody
  else if f.inHead then .inHead
  else if f.bodyClosed then .afterBody
  else .outside

def isPreloaded (src : String) (f : ImagePriority) : Bool :=
  f.preloaded.contains src

def loadEagerly (e : Element) : Element :=
  if ((e.value? "loading").map (eqIgnoreCase "lazy")).getD false then e.eraseAttribute "loading"
  else e

def fetchFirst (e : Element) : Element :=
  if e.hasAttribute "fetchpriority" then e.setValue "fetchpriority" "high"
  else e.addAttribute "fetchpriority" "high" .double

def addMark (e : Element) (name : String) : Element :=
  if e.hasAttribute name then e else e.addAttribute name "1" .double

def promote (e : Element) : Element :=
  noDeferNames.foldl addMark (fetchFirst (loadEagerly e))

def preloadLink (src : String) : Element :=
  ⟨"link", [⟨"rel", some "preload", .double⟩, ⟨"as", some "image", .double⟩,
    ⟨"href", some src, .double⟩]⟩

def preload (image : NodeId) (src : String) (p : Page) (f : ImagePriority) : Page × ImagePriority :=
  if f.isPreloaded src then (p, f)
  else
    let (link, doc) := p.doc.create (.element (preloadLink src))
    match doc.insertBefore? image link with
    | some doc =>
      ({ p with doc }.notify (.preloaded src), { f with preloaded := src :: f.preloaded })
    | none => ({ p with doc }, f)

def prioritize (image : NodeId) (src : String) (p : Page) (f : ImagePriority) :
    Page × ImagePriority :=
  let (p, f) := preload image src { p with doc := p.doc.modifyElement image promote } f
  (p.applied .imagePriority, { f with promoted := f.promoted + 1 })

variable [UrlLibrary]

def candidate? (node : NodeId) (cx : Context) (p : Page) (f : ImagePriority) : Option String :=
  if cx.noscript.isSome || limit ≤ f.promoted || !f.inBody then none
  else if p.doc.keyword? node != some .img || !cx.policy p.doc node then none
  else (p.doc.element? node).bind (Element.eligibleSrc? cx.base)

def onStart (node : NodeId) : Hook ImagePriority := fun cx p f =>
  match p.doc.keyword? node with
  | some .head => (p, { f with inHead := true })
  | some .body => (p, { f with inBody := true })
  | _ =>
    match f.candidate? node cx p with
    | none => (p, f)
    | some src => prioritize node src p f

def onEnd (node : NodeId) : Hook ImagePriority := fun _ p f =>
  match p.doc.keyword? node with
  | some .head => (p, { f with inHead := false })
  | some .body => (p, { f with inBody := false, bodyClosed := true })
  | _ => (p, f)

instance : PageFilter ImagePriority where
  kind _ := .imagePriority
  startDocument _ p _ := (p, {})
  startElement := onStart
  endElement := onEnd

end ImagePriority

end PageFilters
