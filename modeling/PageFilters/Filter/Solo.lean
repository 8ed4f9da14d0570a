import PageFilters.Filter.Context

/-!
One filter by itself over pages that are being built, in a context that stays the same.
-/

namespace PageFilters

structure Solo (φ : Type) where
  filter : φ
  record : OutcomeRecord := {}
  notices : List Notice := []

namespace Solo

variable {φ : Type} [UrlLibrary]

def react (cx : Context) (hook : Hook φ) : Reaction (Solo φ) := fun doc s =>
  let (p, filter) := hook cx ⟨doc, s.record, s.notices⟩ s.filter
  (p.doc, ⟨filter, p.record, p.notices⟩)

def observer [PageFilter φ] (cx : Context) : Observer (Solo φ) where
  startDocument := react cx PageFilter.startDocument
  startElement node := react cx (PageFilter.startElement node)
  endElement node := react cx (PageFilter.endElement node)
  endDocument := react cx PageFilter.endDocument
  ignored what s := { s with notices := s.notices ++ [.ignored what] }

end Solo

end PageFilters
