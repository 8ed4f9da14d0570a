import PageFilters.Filter.Kind

/-!
What each filter did to the page at hand.
-/

namespace PageFilters

inductive Outcome where
  /-- The filter ran and had nothing to change. -/
  | notApplied
  | applied
  deriving DecidableEq, Repr

structure OutcomeRecord where
  outcome? : FilterKind → Option Outcome := fun _ => none

namespace OutcomeRecord

def set (kind : FilterKind) (outcome : Outcome) (record : OutcomeRecord) : OutcomeRecord :=
  ⟨fun other => if other = kind then some outcome else record.outcome? other⟩

def toList (record : OutcomeRecord) : List (FilterKind × Outcome) :=
  FilterKind.all.filterMap fun kind => (record.outcome? kind).map (kind, ·)

end OutcomeRecord

end PageFilters
