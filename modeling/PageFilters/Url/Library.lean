import PageFilters.Text.Ascii

/-!
URLs, as far as filters need them. A library reads absolute URLs and joins references to a base.
Which library it is stays open: a URL has a scheme and a text, a text that is no URL gets a message,
and nothing else is known of either.
-/

namespace PageFilters

/-- A library that reads URLs. -/
class UrlLibrary where
  Url : Type
  Error : Type
  parse : String → Except Error Url
  join : Url → String → Except Error Url
  scheme : Url → String
  text : Url → String
  message : Error → String

abbrev Url [UrlLibrary] : Type :=
  UrlLibrary.Url

abbrev UrlError [UrlLibrary] : Type :=
  UrlLibrary.Error

namespace Url

section

variable [UrlLibrary]

def scheme (u : Url) : String :=
  UrlLibrary.scheme u

def text (u : Url) : String :=
  UrlLibrary.text u

def parse (text : String) : Except UrlError Url :=
  UrlLibrary.parse text

/-- The URL that a reference means, if it means one; without a base it has to be absolute. -/
def resolve? (base : Option Url) (reference : String) : Option Url :=
  match base with
  | some base => (UrlLibrary.join base reference).toOption
  | none => (parse reference).toOption

end

/-- What counts of a text: controls and spaces at its ends do not, nor do tabs and line ends. -/
def relevant (text : String) : List Char :=
  let skipped (c : Char) : Bool := c.toNat ≤ 0x20
  let cs := (text.toList.dropWhile skipped).reverse.dropWhile skipped
  cs.reverse.filter fun c => !(c == '\t' || c == '\n' || c == '\r')

def scheme? (cs : List Char) : Option (String × List Char) :=
  let named := cs.takeWhile fun c => c.isAlphanum || c == '+' || c == '-' || c == '.'
  match named, cs.drop named.length with
  | letter :: _, ':' :: rest =>
    if letter.isAlpha then some (foldCase (String.ofList named), rest) else none
  | _, _ => none

end Url

def UrlError.message [UrlLibrary] (e : UrlError) : String :=
  UrlLibrary.message e

def isDataUrl (text : String) : Bool :=
  startsIgnoreCase "data:".toList text.toList

end PageFilters
