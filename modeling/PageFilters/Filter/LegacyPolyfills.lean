import PageFilters.Filter.Context
import PageFilters.Filter.Eligibility

/-!
The filter that removes scripts with legacy polyfills. A script is removed when it ends.
-/

namespace PageFilters

structure LegacyPolyfills where
  deriving DecidableEq, Repr

namespace LegacyPolyfills

def polyfillSrc? (e : Element) : Option String :=
  if e.keyword = .script then (e.value? "src").filter isPolyfillUrl else none

variable [UrlLibrary]

def onEnd (node : NodeId) : Hook LegacyPolyfills := fun _ p f =>
  match (p.doc.element? node).bind polyfillSrc? with
  | none => (p, f)
  | some src =>
    match p.doc.delete? node with
    | none => (p, f)
    | some doc => (({ p with doc }.notify (.polyfillRemoved src)).applied .legacyPolyfills, f)

instance : PageFilter LegacyPolyfills where
  kind _ := .legacyPolyfills
  endElement := onEnd

end LegacyPolyfills

end PageFilters
