import PageFilters.Filter.Outcome
import PageFilters.Markup.Build
import PageFilters.Text.Quoted

/-!
Notices of what happens to a page, for those who watch. Nothing depends on them.
-/

namespace PageFilters

inductive Notice where
  | tokenized (count : Nat)
  | ignored (what : Ignored)
  | filterAdded (kind : FilterKind)
  | pageStarted (url : String) (bytes : Nat) (filters : List FilterKind)
  | passedThrough (url : String) (contentType : Option String)
  | baseSet (url : String)
  | baseIgnored (href : String)
  | deletedEarlier
  | outcome (kind : FilterKind) (result : Outcome)
  | preloaded (src : String)
  | polyfillRemoved (src : String)
  /-- What a filter has to say in its own words. -/
  | remark (text : String)
  deriving DecidableEq, Repr

inductive Level where
  | debug | trace
  deriving DecidableEq, Repr

def Level.name : Level → String
  | debug => "debug"
  | trace => "trace"

def Outcome.word : Outcome → String
  | notApplied => "NotApplied"
  | applied => "AppliedOk"

namespace Notice

def level : Notice → Level
  | tokenized _ | ignored _ | passedThrough _ _ | deletedEarlier | preloaded _ => .trace
  | filterAdded _ | pageStarted _ _ _ | baseSet _ | baseIgnored _ | outcome _ _
  | polyfillRemoved _ | remark _ => .debug

def target : Notice → String
  | tokenized _ | ignored (.slash _) => "html.tokenizer"
  | ignored (.endTag _) => "html.parse"
  | filterAdded _ | pageStarted _ _ _ | passedThrough _ _ | baseSet _ | baseIgnored _
  | deletedEarlier => "rewriter.driver"
  | outcome _ _ => "rewriter.log_record"
  | preloaded _ => "rewriter.lcp"
  | polyfillRemoved _ => "rewriter.polyfills"
  | remark _ => "filter"

def message : Notice → String
  | tokenized count => "emitted " ++ toString count ++ " tokens"
  | ignored (.slash tag) => "ignoring `/>` on non-void <" ++ tag ++ ">"
  | ignored (.endTag tag) => "ignoring unmatched end tag </" ++ tag ++ ">"
  | filterAdded kind => "adding filter " ++ kind.name
  | pageStarted url bytes filters =>
    "rewriting " ++ url ++ " (" ++ toString bytes ++ " bytes, filters: " ++
      quotedList (filters.map FilterKind.name) ++ ")"
  | passedThrough url contentType =>
    "passing through " ++ url ++ " with content type " ++ quotedOption contentType
  | baseSet url => "base url set to " ++ url
  | baseIgnored href => "ignoring invalid base href " ++ quoted href
  | deletedEarlier => "element deleted by an earlier filter"
  | outcome kind result => kind.name ++ " (" ++ kind.id ++ "): " ++ result.word
  | preloaded src => "preloading " ++ src
  | polyfillRemoved src => "removed legacy polyfill " ++ src
  | remark text => text

def ofToken? (atoms : AtomTable) (token : Token AtomId) : Option Notice :=
  match token with
  | .startTag name _ _ _ =>
    if token.ignoresSlash then some (.ignored (.slash (atoms.resolve name))) else none
  | _ => none

def ofTokens (atoms : AtomTable) (tokens : List (Token AtomId)) : List Notice :=
  tokens.filterMap (ofToken? atoms) ++ [.tokenized tokens.length]

end Notice

end PageFilters
