import PageFilters.Text.Ascii

/-!
The tag names that filters and the tree builder treat specially.
-/

namespace PageFilters

inductive Keyword where
  | base | body | head | img | link | noscript | picture | script | source | style | other
  deriving DecidableEq, Repr

namespace Keyword

def tags : List (String × Keyword) :=
  [("base", base), ("body", body), ("head", head), ("img", img), ("link", link),
    ("noscript", noscript), ("picture", picture), ("script", script), ("source", source),
    ("style", style)]

def ofTag (tag : String) : Keyword :=
  ((tags.find? fun (name, _) => eqIgnoreCase name tag).map Prod.snd).getD other

def isRawtext : Keyword → Bool
  | script | style => true
  | _ => false

end Keyword

def voidTags : List String :=
  ["area", "base", "br", "col", "embed", "hr", "img", "input", "link", "meta", "param", "source",
    "track", "wbr"]

def isVoid (tag : String) : Bool :=
  voidTags.contains tag

end PageFilters
