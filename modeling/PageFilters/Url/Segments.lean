import PageFilters.Url.Host

/-!
Reading the segments of a path. `.` and `..`, written plainly or percent-encoded, are resolved while
the segments are read. A segment that looks like a drive letter, such as `C:`, is never removed by
`..`, and files treat a drive letter at the front as the root.

A path under construction is the list of its segments, the last one first. An empty segment at the
front of the list stands for a final slash, and the empty list for a path without any slash.
-/

namespace PageFilters

inductive SchemeKind where
  | file
  /-- The schemes of the web: they need a host, and take `\` for `/`. -/
  | web
  | plain
  deriving DecidableEq, Repr

def SchemeKind.of (scheme : String) : SchemeKind :=
  if scheme == "file" then .file
  else if ["http", "https", "ws", "wss", "ftp"].contains scheme then .web
  else .plain

def SchemeKind.isSpecial (kind : SchemeKind) : Bool :=
  kind != .plain

namespace Segments

def isDrive : List Char → Bool
  | [letter, mark] => letter.isAlpha && (mark == ':' || mark == '|')
  | _ => false

def isKeptDrive : List Char → Bool
  | [letter, ':'] => letter.isAlpha
  | _ => false

def beginsWithDrive (segment : String) : Bool :=
  match segment.toList with
  | letter :: mark :: rest =>
    isDrive [letter, mark] && (rest.isEmpty || rest.head? == some '\\')
  | _ => false

def startsAtDrive : List Char → Bool
  | letter :: mark :: rest =>
    isDrive [letter, mark] &&
      (match rest.head? with
        | none => true
        | some c => "/\\?#".toList.contains c)
  | _ => false

def isDot (segment : String) : Bool :=
  [".", "%2e"].contains (foldCase segment)

def isDoubleDot (segment : String) : Bool :=
  ["..", ".%2e", "%2e.", "%2e%2e"].contains (foldCase segment)

def closeDrive (kind : SchemeKind) : List String → List String
  | [drive] => if kind == .file && isKeptDrive drive.toList then ["", drive] else [drive]
  | path => path

def parent : List String → List String
  | last :: before => if beginsWithDrive last then "" :: last :: before else "" :: before
  | [] => [""]

def dropLast (kind : SchemeKind) : List String → List String
  | last :: before =>
    if kind == .file && isKeptDrive last.toList then last :: before else "" :: before
  | [] => [""]

/-- A path together with whether the host is kept: a drive letter at the front of a file's path
drops it. -/
structure Reading where
  path : List String
  keepsHost : Bool := true

def push (kind : SchemeKind) (segment : String) (more : Bool) (r : Reading) : Reading :=
  match if segment.isEmpty then r.path else closeDrive kind r.path with
  | [] => { r with path := if more then [""] else [] }
  | top :: before =>
    if isDoubleDot segment then
      { r with path :=
          if top.isEmpty then parent before
          else if more then "" :: top :: before
          else top :: before }
    else if isDot segment then
      { r with path := if top.isEmpty then top :: before else "" :: top :: before }
    else
      let atDrive := kind == .file && top.isEmpty && before.isEmpty && isDrive segment.toList
      let kept := if atDrive then String.ofList (segment.toList.take 1 ++ [':']) else top ++ segment
      { path := if more then "" :: kept :: before else kept :: before
        keepsHost := r.keepsHost && !atDrive }

def pushAll (kind : SchemeKind) : List String → Reading → Reading
  | [], r => r
  | [last], r => push kind last false r
  | segment :: rest, r => pushAll kind rest (push kind segment true r)

def dropEmpty : List String → List String
  | "" :: segment :: rest => dropEmpty (segment :: rest)
  | segments => segments

end Segments

def endsPath (c : Char) : Bool :=
  c == '?' || c == '#'

def readPath (kind : SchemeKind) (start : List String) (cs : List Char) :
    List String × Bool × List Char :=
  let separates c := c == '/' || (c == '\\' && kind.isSpecial)
  let parts := splitOn separates (cs.takeWhile fun c => !endsPath c)
  let r := Segments.pushAll kind (parts.map (Percent.encode Percent.inPath)) { path := start }
  let names := if kind == .file then Segments.dropEmpty r.path.reverse else r.path.reverse
  (names, r.keepsHost, cs.dropWhile fun c => !endsPath c)

end PageFilters
