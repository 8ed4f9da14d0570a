import PageFilters.Markup.Document
import PageFilters.Markup.Reference

/-!
Documents written as markup. Attributes keep their order and their quotes, bare attributes stay
bare, void elements have no end tag, and the text directly inside `script` and `style` is written as
it is. Only what can be reached from the root is written.
-/

namespace PageFilters

def canStayUnquoted (value : String) : Bool :=
  !value.isEmpty && value.toList.all fun c =>
    !(isSpace c || c == '\x22' || c == '\x27' || c == '=' || c == '<' || c == '>' || c == '\x60')

namespace AttributeOf

/-- The value of an attribute with its quotes. An unquoted value is quoted if it has to be. -/
def quotedValue (quote : Quote) (value : String) : String :=
  match quote with
  | .unquoted =>
    if canStayUnquoted value then escapeValue '\x22' value
    else "\x22" ++ escapeValue '\x22' value ++ "\x22"
  | .double => "\x22" ++ escapeValue '\x22' value ++ "\x22"
  | .single => "\x27" ++ escapeValue '\x27' value ++ "\x27"

def html (a : Attribute) : String :=
  match a.value with
  | none => a.name
  | some value => a.name ++ "=" ++ quotedValue a.quote value

end AttributeOf

namespace Element

def startTag (e : Element) : String :=
  "<" ++ e.name ++ String.join (e.attributes.map fun a => " " ++ a.html) ++ ">"

def endTag (e : Element) : String :=
  "</" ++ e.name ++ ">"

end Element

namespace Document

/-- A piece of work for the writer: a node that is to be written, perhaps directly inside raw text,
or an element whose end tag is due. -/
inductive Work where
  | node (id : NodeId) (raw : Bool)
  | endTag (id : NodeId)

def childWork (d : Document) (id : NodeId) (raw : Bool) : List Work :=
  (d.children id).map fun child => .node child raw

def workStep (d : Document) : Work → String × List Work
  | .endTag id => (((d.element? id).map Element.endTag).getD "", [])
  | .node id raw =>
    match d.data? id with
    | none => ("", [])
    | some .document => ("", d.childWork id false)
    | some (.doctype text) => ("<!" ++ text ++ ">", [])
    | some (.comment text) => ("<!--" ++ text ++ "-->", [])
    | some (.text text) => (if raw then text else escapeText text, [])
    | some (.element e) =>
      (e.startTag,
        if isVoid e.name then [] else d.childWork id e.keyword.isRawtext ++ [.endTag id])

def write (d : Document) : Nat → List Work → String → String
  | n + 1, work :: waiting, out =>
    let (text, next) := d.workStep work
    write d n (next ++ waiting) (out ++ text)
  | _, _, out => out

def html (d : Document) : String :=
  d.write (2 * d.size) (d.childWork root false) ""

end Document

end PageFilters
