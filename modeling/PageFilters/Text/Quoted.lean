import PageFilters.Text.Ascii
import PageFilters.Text.Hidden

/-!
Texts as they are shown inside messages: between double quotes, with hidden characters spelled out.
-/

namespace PageFilters

namespace Quoted

def encodeChar (c : Char) : List Char :=
  if c = '\x22' then ['\\', '\x22']
  else if c = '\\' then ['\\', '\\']
  else if c = '\n' then ['\\', 'n']
  else if c = '\r' then ['\\', 'r']
  else if c = '\t' then ['\\', 't']
  else if c = '\x00' then ['\\', '0']
  else if isHidden c then ['\\', 'u', '\x7b'] ++ hexDigits c.toNat ++ ['\x7d']
  else [c]

end Quoted

def quoted (s : String) : String :=
  String.ofList ('\x22' :: s.toList.flatMap Quoted.encodeChar ++ ['\x22'])

def quotedOption : Option String → String
  | none => "None"
  | some s => "Some(" ++ quoted s ++ ")"

def quotedList (texts : List String) : String :=
  "[" ++ ", ".intercalate (texts.map quoted) ++ "]"

end PageFilters
