import PageFilters.Url.Library
import PageFilters.Url.Segments

/-!
A library of URLs that keeps to ASCII: it refuses a host name with any other character, and takes
`xn--` labels as they stand. Where a text could be read in several ways, the base decides: a
reference with the scheme of its base may be relative, and nothing but a fragment can be joined to a
base without segments.
-/

namespace PageFilters

namespace AsciiUrl

def isSlash (c : Char) : Bool :=
  c == '/' || c == '\\'

def defaultPort? (scheme : String) : Option Nat :=
  if scheme == "http" || scheme == "ws" then some 80
  else if scheme == "https" || scheme == "wss" then some 443
  else if scheme == "ftp" then some 21
  else none

def withEnding (kind : SchemeKind) (cs : List Char) (u : AsciiUrl) : AsciiUrl :=
  let inQuery := if kind == .web || kind == .file then Percent.inWebQuery else Percent.inQuery
  let fragment (cs : List Char) : Option String :=
    match cs with
    | '#' :: rest => some (Percent.encode Percent.inFragment rest)
    | _ => none
  match cs with
  | '?' :: rest =>
    { u with
      query := some (Percent.encode inQuery (rest.takeWhile (· != '#')))
      fragment := fragment (rest.dropWhile (· != '#')) }
  | rest => { u with fragment := fragment rest }

def splitLastAt (cs : List Char) : Option (List Char × List Char) :=
  let after := (cs.reverse.takeWhile (· != '@')).reverse
  if after.length < cs.length
  then some (cs.take (cs.length - after.length - 1), after) else none

def credentials (cs : List Char) : String × Option String :=
  let encode := Percent.encode Percent.inUserinfo
  let user := encode (cs.takeWhile (· != ':'))
  match cs.dropWhile (· != ':') with
  | _ :: c :: rest => (user, some (encode (c :: rest)))
  | _ => (user, none)

def splitHost : Bool → List Char → List Char × List Char
  | _, [] => ([], [])
  | bracketed, c :: cs =>
    if c == ':' && !bracketed then ([], c :: cs)
    else
      let (host, rest) := splitHost (c == '[' || (bracketed && c != ']')) cs
      (c :: host, rest)

def portNumber (scheme : String) (cs : List Char) : Except UrlFault (Option Nat) :=
  match readDigits 10 cs with
  | none => .error .invalidPort
  | some n =>
    if 65535 < n then .error .invalidPort
    else if cs.isEmpty || some n == defaultPort? scheme then .ok none
    else .ok (some n)

def readAuthority (scheme : String) (cs : List Char) :
    Except UrlFault (Authority × List Char) := do
  let kind := SchemeKind.of scheme
  let ends (c : Char) : Bool := c == '/' || c == '?' || c == '#' || (c == '\\' && kind.isSpecial)
  let whole := cs.takeWhile fun c => !ends c
  let rest := cs.dropWhile fun c => !ends c
  let split := splitLastAt whole
  let place := match split with
    | some (_, place) => place
    | none => whole
  if split == some ([], []) && !rest.isEmpty then throw .emptyHost
  let (username, password) := match split with
    | some (user, _) => credentials user
    | none => ("", none)
  let (hostText, afterHost) := splitHost false place
  if hostText.isEmpty && kind == .web then throw .emptyHost
  let host ← if kind == .plain then Host.ofPlain hostText else Host.ofWeb hostText
  if host.isEmpty && !afterHost.isEmpty then throw .emptyHost
  let number ← match afterHost with
    | _ :: digits =>
      -- A backslash ends the digits even where it is no separator.
      portNumber scheme (digits.takeWhile (· != '\\'))
    | [] => pure none
  let rest := match afterHost with
    | _ :: digits => digits.dropWhile (· != '\\') ++ rest
    | [] => rest
  if host.isEmpty && (!username.isEmpty || password.isSome) then throw .emptyHost
  return (⟨username, password, host, number⟩, rest)

def pathAfterAuthority (kind : SchemeKind) (cs : List Char) : List String × Bool × List Char :=
  if kind.isSpecial then
    match cs with
    | c :: rest => readPath kind [""] (if isSlash c then rest else c :: rest)
    | [] => readPath kind [""] []
  else
    match cs with
    | '?' :: _ => ([], true, cs)
    | '#' :: _ => ([], true, cs)
    | [] => ([], true, [])
    | '/' :: _ => readPath kind [] cs
    | _ => readPath kind [""] cs

def afterSlashes (scheme : String) (cs : List Char) : Except UrlFault AsciiUrl := do
  let kind := SchemeKind.of scheme
  let (authority, rest) ← readAuthority scheme cs
  let (names, _, rest) := pathAfterAuthority kind rest
  return withEnding kind rest { scheme, authority := some authority, path := .segments names }

def withFragment (cs : List Char) (base : AsciiUrl) : AsciiUrl :=
  { base with fragment := some (Percent.encode Percent.inFragment cs) }

def withPath (start : List String) (cs : List Char) (base : AsciiUrl) : AsciiUrl :=
  let kind := SchemeKind.of base.scheme
  let (names, _, rest) := readPath kind start cs
  withEnding kind rest { base with path := .segments names, query := none, fragment := none }

def relative (base : AsciiUrl) (cs : List Char) : Except UrlFault AsciiUrl :=
  let kind := SchemeKind.of base.scheme
  match cs with
  | [] => .ok { base with fragment := none }
  | '#' :: rest => .ok (base.withFragment rest)
  | '?' :: _ => .ok (withEnding kind cs { base with query := none, fragment := none })
  | c :: rest =>
    if isSlash c then
      match cs with
      | '/' :: '/' :: rest => afterSlashes base.scheme rest
      | _ =>
        if (rest.head?.map isSlash).getD false then afterSlashes base.scheme (cs.dropWhile isSlash)
        else .ok (base.withPath [""] rest)
    else .ok (base.withPath (Segments.dropLast kind base.segments.reverse) cs)

def localFile (names : List String) : AsciiUrl :=
  { scheme := "file", authority := some { host := .name "" }, path := .segments names }

/-- The host of a file and what follows it. A drive letter is no host, and this machine needs
none. -/
def fileHost (cs : List Char) : Except UrlFault (Host × List Char) := do
  let ends (c : Char) : Bool := isSlash c || endsPath c
  let text := cs.takeWhile fun c => !ends c
  let rest := cs.dropWhile fun c => !ends c
  if text.isEmpty then return (.name "", rest)
  if Segments.isDrive text then return (.name "", cs)
  let host ← Host.ofWeb text
  return (if host == .name "localhost" then .name "" else host, rest)

def file (base : Option AsciiUrl) (cs : List Char) : Except UrlFault AsciiUrl :=
  match cs with
  | c :: d :: rest =>
    if isSlash c && isSlash d then do
      let (host, after) ← fileHost rest
      let (names, keepsHost, ending) :=
        if host.isEmpty then readPath .file [""] after else pathAfterAuthority .file after
      let authority : Authority := { host := if keepsHost then host else .name "" }
      return withEnding .file ending { localFile names with authority }
    else onward c (d :: rest)
  | [c] => onward c []
  | [] =>
    match base with
    | none => .ok (localFile [""])
    | some base => .ok { base with fragment := none }
where
  /-- Reads a reference that does not begin with two slashes. -/
  onward (c : Char) (rest : List Char) : Except UrlFault AsciiUrl :=
    let cs := c :: rest
    if isSlash c then
      let inherited := if Segments.startsAtDrive rest then none else base
      let (start, authority) : List String × Authority :=
        match inherited with
        | none => ([], { host := .name "" })
        | some base =>
          match base.segments with
          | drive :: _ =>
            if Segments.isKeptDrive drive.toList then ([drive], { host := .name "" })
            else ([], base.authority.getD { host := .name "" })
          | [] => ([], base.authority.getD { host := .name "" })
      let (names, _, ending) := readPath .file start cs
      .ok (withEnding .file ending { localFile names with authority })
    else
      match base with
      | none => .ok ((localFile []).withPath [""] cs)
      | some base =>
        if c == '#' then .ok (base.withFragment rest)
        else if c == '?' then
          .ok (withEnding .file cs { base with query := none, fragment := none })
        else if Segments.startsAtDrive cs then .ok ((localFile []).withPath [""] cs)
        else .ok (base.withPath (Segments.dropLast .file base.segments.reverse) cs)

def afterScheme (base : Option AsciiUrl) (scheme : String) (cs : List Char) :
    Except UrlFault AsciiUrl :=
  let sameScheme := base.filter fun base => base.scheme == scheme
  match SchemeKind.of scheme with
  | .file => file sameScheme cs
  | .web =>
    let slashes := cs.takeWhile isSlash
    match sameScheme with
    | some base =>
      if slashes.length < 2 then relative base cs else afterSlashes scheme (cs.dropWhile isSlash)
    | none => afterSlashes scheme (cs.dropWhile isSlash)
  | .plain =>
    match cs with
    | '/' :: '/' :: rest => afterSlashes scheme rest
    | '/' :: rest =>
      let (names, _, ending) := readPath .plain [""] rest
      .ok (withEnding .plain ending { scheme, authority := none, path := .segments names })
    | _ =>
      let bare := cs.takeWhile fun c => !endsPath c
      let ending := cs.dropWhile fun c => !endsPath c
      .ok (withEnding .plain ending
        { scheme, authority := none, path := .bare (Percent.encode Percent.inBare bare) })

def read (base : Option AsciiUrl) (text : String) : Except UrlFault AsciiUrl :=
  let cs := Url.relevant text
  match Url.scheme? cs with
  | some (scheme, rest) => afterScheme base scheme rest
  | none =>
    match base with
    | none => .error .noBase
    | some base =>
      match cs with
      | '#' :: rest => .ok (base.withFragment rest)
      | _ =>
        if base.isBare then .error .bareBase
        else if base.scheme == "file" then file (some base) cs
        else relative base cs

end AsciiUrl

instance asciiUrls : UrlLibrary where
  Url := AsciiUrl
  Error := UrlFault
  parse := AsciiUrl.read none
  join base := AsciiUrl.read (some base)
  scheme := AsciiUrl.scheme
  text := AsciiUrl.text
  message := UrlFault.message

instance : DecidableEq (@Url asciiUrls) :=
  inferInstanceAs (DecidableEq AsciiUrl)

end PageFilters
