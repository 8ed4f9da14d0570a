import PageFilters.Filter.Options
import PageFilters.Toml.Read

/-!
Options as TOML documents. Their only key is `enabled_filters`, a list of filter names.
-/

namespace PageFilters

namespace Options

def kindOf? (value : Toml) : Option FilterKind :=
  value.choice?.bind fun name => FilterKind.all.find? fun kind => kind.name == name

def ofEntries? : Toml.Entries → Option Options
  | [] => some {}
  | [("enabled_filters", value)] =>
    (value.items?.bind fun items => items.mapM kindOf?).map fun kinds => ofPred kinds.contains
  | _ => none

def ofToml (source : String) : Except OptionsError Options :=
  match (Toml.read? source).bind ofEntries? with
  | some options => .ok options
  | none => .error .invalidSource

end Options

end PageFilters
