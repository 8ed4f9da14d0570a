import PageFilters.Filter.Kind
import PageFilters.Text.Blank
import PageFilters.Text.Quoted
import PageFilters.Text.Split

/-!
Which filters run. Options start empty and can be adjusted by lists such as `+pl,-sp`: a list is
checked as a whole before any of it takes effect.
-/

namespace PageFilters

structure Options where
  enabled : List FilterKind := []
  deriving DecidableEq, Repr

inductive OptionsError where
  | unknownFilter (name : String)
  | invalidSource
  deriving DecidableEq, Repr

def OptionsError.message : OptionsError → String
  | unknownFilter name => "unknown filter name: " ++ quoted name
  | invalidSource => "invalid rewrite options"

namespace Options

def isEnabled (kind : FilterKind) (o : Options) : Bool :=
  o.enabled.contains kind

def ofPred (p : FilterKind → Bool) : Options :=
  ⟨FilterKind.all.filter p⟩

def enable (kind : FilterKind) (o : Options) : Options :=
  ofPred fun other => other == kind || o.isEnabled other

def disable (kind : FilterKind) (o : Options) : Options :=
  ofPred fun other => other != kind && o.isEnabled other

end Options

structure Change where
  enables : Bool
  kind : FilterKind
  deriving DecidableEq, Repr

def Change.apply (o : Options) (c : Change) : Options :=
  if c.enables then o.enable c.kind else o.disable c.kind

namespace Options

def entries (list : String) : List (List Char) :=
  ((splitOn (· == ',') list.toList).map trim).filter fun entry => !entry.isEmpty

def signed : List Char → Bool × String
  | '+' :: name => (true, String.ofList (trim name))
  | '-' :: name => (false, String.ofList (trim name))
  | name => (true, String.ofList name)

def readChange (entry : List Char) : Except OptionsError Change :=
  let (enables, name) := signed entry
  match FilterKind.ofName? name with
  | some kind => .ok ⟨enables, kind⟩
  | none => .error (.unknownFilter name)

def adjust (list : String) (o : Options) : Except OptionsError Options :=
  ((entries list).mapM readChange).map fun changes => changes.foldl Change.apply o

/-- The same for options that are held in place. The list is read to its end before the first of its
changes is made. -/
def adjustInPlace (list : String) : EStateM OptionsError Options Unit := do
  let changes ← (entries list).mapM fun entry => MonadExcept.ofExcept (readChange entry)
  changes.forM fun change => modify change.apply

end Options

end PageFilters
