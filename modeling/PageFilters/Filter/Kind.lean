import PageFilters.Text.Ascii

/-!
The filters that options can name.
-/

namespace PageFilters

inductive FilterKind where
  /-- Marks the image that is probably the largest one in view, so that it is fetched first. -/
  | imagePriority
  /-- Removes scripts that load polyfills for browsers out of use. -/
  | legacyPolyfills
  deriving DecidableEq, Repr

namespace FilterKind

/-- All filters, in the order in which a chain runs them. -/
def all : List FilterKind :=
  [imagePriority, legacyPolyfills]

def name : FilterKind → String
  | imagePriority => "prioritize_lcp_images"
  | legacyPolyfills => "strip_legacy_polyfills"

def id : FilterKind → String
  | imagePriority => "pl"
  | legacyPolyfills => "sp"

def ofName? (text : String) : Option FilterKind :=
  all.find? fun kind => eqIgnoreCase kind.name text || eqIgnoreCase kind.id text

end FilterKind

end PageFilters
