import PageFilters.Text.Ascii

/-!
The URLs of one library, whose host names hold ASCII only, and how they are written.
-/

namespace PageFilters

inductive UrlFault where
  | noBase
  | bareBase
  | emptyHost
  | invalidDomain
  | invalidHostChar
  | invalidIpv4
  | invalidIpv6
  | invalidPort
  deriving DecidableEq, Repr

def UrlFault.message : UrlFault → String
  | noBase => "relative URL without a base"
  | bareBase => "relative URL with a cannot-be-a-base base"
  | emptyHost => "empty host"
  | invalidDomain => "invalid international domain name"
  | invalidHostChar => "invalid domain character"
  | invalidIpv4 => "invalid IPv4 address"
  | invalidIpv6 => "invalid IPv6 address"
  | invalidPort => "invalid port number"

inductive Host where
  | name (text : String)
  | ipv4 (address : Nat)
  | ipv6 (pieces : List Nat)
  deriving DecidableEq, Repr

structure Authority where
  username : String := ""
  password : Option String := none
  host : Host
  portNumber : Option Nat := none
  deriving DecidableEq, Repr

/-- A path is a list of segments, each after a slash, or bare text as in `mailto:`. -/
inductive Path where
  | bare (text : String)
  | segments (names : List String)
  deriving DecidableEq, Repr

structure AsciiUrl where
  scheme : String
  authority : Option Authority
  path : Path
  query : Option String := none
  fragment : Option String := none
  deriving DecidableEq, Repr

namespace Host

def isEmpty : Host → Bool
  | name text => text.isEmpty
  | _ => false

def ipv4Bytes (address : Nat) : List Nat :=
  [address / 0x1000000 % 256, address / 0x10000 % 256, address / 0x100 % 256, address % 256]

def zeroRun (pieces : List Nat) : Nat :=
  (pieces.takeWhile (· == 0)).length

def longestZeros : List Nat → Nat × Nat
  | [] => (0, 0)
  | piece :: rest =>
    let (place, length) := longestZeros rest
    let here := zeroRun (piece :: rest)
    if length ≤ here then (0, here) else (place + 1, length)

def hexList (pieces : List Nat) : String :=
  ":".intercalate (pieces.map fun piece => String.ofList (hexDigits piece))

def ipv6Text (pieces : List Nat) : String :=
  let (place, length) := longestZeros pieces
  if length < 2 then hexList pieces
  else hexList (pieces.take place) ++ "::" ++ hexList (pieces.drop (place + length))

def text : Host → String
  | name text => text
  | ipv4 address => ".".intercalate ((ipv4Bytes address).map toString)
  | ipv6 pieces => "[" ++ ipv6Text pieces ++ "]"

end Host

namespace Authority

def userinfo (a : Authority) : String :=
  match a.password with
  | none => if a.username.isEmpty then "" else a.username ++ "@"
  | some password => a.username ++ ":" ++ password ++ "@"

def text (a : Authority) : String :=
  a.userinfo ++ a.host.text ++
    match a.portNumber with
    | none => ""
    | some n => ":" ++ toString n

end Authority

namespace Path

def text : Path → String
  | bare text => text
  | segments names => String.join (names.map ("/" ++ ·))

def needsDot : Path → Bool
  | segments ("" :: _ :: _) => true
  | _ => false

end Path

namespace AsciiUrl

/-- Whether relative references cannot be resolved against this URL. -/
def isBare (u : AsciiUrl) : Bool :=
  match u.path with
  | .bare _ => true
  | .segments _ => false

def segments (u : AsciiUrl) : List String :=
  match u.path with
  | .bare _ => []
  | .segments names => names

def text (u : AsciiUrl) : String :=
  u.scheme ++ ":" ++
    (match u.authority with
      | some a => "//" ++ a.text
      | none => if u.path.needsDot then "/." else "") ++
    u.path.text ++
    (match u.query with
      | some query => "?" ++ query
      | none => "") ++
    (match u.fragment with
      | some fragment => "#" ++ fragment
      | none => "")

end AsciiUrl

end PageFilters
