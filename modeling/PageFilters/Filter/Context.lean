import PageFilters.Filter.Notice
import PageFilters.Url.Library

/-!
What a filter is: a reaction to the events of a page that is being built. It sees where the page
stands, and may edit the tree, record that it was applied, and give notices.
-/

namespace PageFilters

abbrev Policy := Document → NodeId → Bool

variable [UrlLibrary]

structure Context where
  /-- What relative references resolve against. -/
  base : Option Url
  /-- The outermost `noscript` that is open. -/
  noscript : Option NodeId
  policy : Policy

/-- A page in progress: what filters may change. -/
structure Page where
  doc : Document
  record : OutcomeRecord := {}
  notices : List Notice := []

namespace Page

def notify (notice : Notice) (p : Page) : Page :=
  { p with notices := p.notices ++ [notice] }

def setOutcome (kind : FilterKind) (outcome : Outcome) (p : Page) : Page :=
  let known := p.record.outcome? kind == some outcome
  let p := { p with record := p.record.set kind outcome }
  if known then p else p.notify (.outcome kind outcome)

def applied (kind : FilterKind) (p : Page) : Page :=
  p.setOutcome kind .applied

end Page

/-- What a filter of type `φ` does at an event. -/
abbrev Hook (φ : Type) := Context → Page → φ → Page × φ

/-- How the values of `φ` act as filters. A value holds what the filter remembers; it may serve many
pages, so what it does at the start of one must forget the page before. -/
class PageFilter (φ : Type) where
  kind : φ → FilterKind
  startDocument : Hook φ := fun _ => Prod.mk
  startElement : NodeId → Hook φ := fun _ _ => Prod.mk
  endElement : NodeId → Hook φ := fun _ _ => Prod.mk
  endDocument : Hook φ := fun _ => Prod.mk

def Hook.left (hook : Hook φ) (inject : φ → ψ) (cx : Context) (p : Page) (f : φ) : Page × ψ :=
  let (p, f) := hook cx p f
  (p, inject f)

instance [PageFilter φ] [PageFilter ψ] : PageFilter (φ ⊕ ψ) where
  kind
    | .inl f => PageFilter.kind f
    | .inr f => PageFilter.kind f
  startDocument cx p
    | .inl f => Hook.left PageFilter.startDocument .inl cx p f
    | .inr f => Hook.left PageFilter.startDocument .inr cx p f
  startElement e cx p
    | .inl f => Hook.left (PageFilter.startElement e) .inl cx p f
    | .inr f => Hook.left (PageFilter.startElement e) .inr cx p f
  endElement e cx p
    | .inl f => Hook.left (PageFilter.endElement e) .inl cx p f
    | .inr f => Hook.left (PageFilter.endElement e) .inr cx p f
  endDocument cx p
    | .inl f => Hook.left PageFilter.endDocument .inl cx p f
    | .inr f => Hook.left PageFilter.endDocument .inr cx p f

end PageFilters
