import PageFilters.Text.Split
import PageFilters.Url.Ascii
import PageFilters.Url.Percent

/-!
Reading hosts. The hosts of web schemes are domain names or addresses; domain names hold ASCII only
and are kept in small letters. Other schemes take nearly any text as a host.
-/

namespace PageFilters

namespace Host

def isForbidden (c : Char) : Bool :=
  c.toNat == 0 || "\t\n\r #/:<>?@[\\]^|".toList.contains c

def isForbiddenInDomain (c : Char) : Bool :=
  isForbidden c || c.toNat < 0x20 || c == '%' || c.toNat == 0x7f

def ipv4Number? : List Char → Option Nat
  | [] => none
  | '0' :: 'x' :: digits => readDigits 16 digits
  | '0' :: 'X' :: digits => readDigits 16 digits
  | '0' :: c :: digits => readDigits 8 (c :: digits)
  | digits => readDigits 10 digits

def endsInNumber (parts : List (List Char)) : Bool :=
  let last? := match parts.reverse with
    | [] :: last :: _ => some last
    | [[]] => none
    | last :: _ => some last
    | [] => none
  match last? with
  | none => false
  | some last => (!last.isEmpty && last.all Char.isDigit) || (ipv4Number? last).isSome

/-- The address that up to four numbers write: the last one fills the bytes that are left. -/
def ipv4OfNumbers? (numbers : List Nat) : Option Nat :=
  match numbers.reverse with
  | [] => none
  | last :: others =>
    let places := numbers.length - 1
    if 3 < places || Nat.pow 256 (4 - places) ≤ last || others.any (255 < ·) then none
    else some <|
      (numbers.take places).zipIdx.foldl (fun sum (n, i) => sum + n * Nat.pow 256 (3 - i)) last

def ipv4? (parts : List (List Char)) : Option Nat :=
  let parts := match parts.reverse with
    | [] :: rest => rest.reverse
    | _ => parts
  if 4 < parts.length then none
  else (parts.mapM ipv4Number?).bind ipv4OfNumbers?

def ipv4Byte? (cs : List Char) : Option (Nat × List Char) :=
  let digits := cs.takeWhile Char.isDigit
  let rest := cs.dropWhile Char.isDigit
  if digits.isEmpty || (digits.head? == some '0' && digits.length != 1) then none
  else (readDigits 10 digits).bind fun n => if n < 256 then some (n, rest) else none

def ipv4Tail? (cs : List Char) : Option (List Nat) :=
  match ipv4Byte? cs with
  | some (a, '.' :: cs) => match ipv4Byte? cs with
    | some (b, '.' :: cs) => match ipv4Byte? cs with
      | some (c, '.' :: cs) => match ipv4Byte? cs with
        | some (d, []) => some [a * 256 + b, c * 256 + d]
        | _ => none
      | _ => none
    | _ => none
  | _ => none

def ipv6Piece (cs : List Char) : List Char × List Char :=
  let digits := (cs.take 4).takeWhile fun c => (digitValue c).isSome
  (digits, cs.drop digits.length)

/-- Reads pieces. `before` holds those read so far, the last one first; `gap` is the place of a `::`
among them. `n` bounds the number of steps. -/
def ipv6Pieces? : Nat → List Nat → Option Nat → List Char → Option (List Nat × Option Nat)
  | _, before, gap, [] => some (before.reverse, gap)
  | 0, _, _, _ => none
  | n + 1, before, gap, c :: cs =>
    if before.length == 8 then none
    else if c == ':' then
      if gap.isSome then none
      else ipv6Pieces? n (0 :: before) (some (before.length + 1)) cs
    else
      let (digits, rest) := ipv6Piece (c :: cs)
      let piece := (readDigits 16 digits).getD 0
      match rest with
      | [] => ipv6Pieces? n (piece :: before) gap []
      | ':' :: next :: rest => ipv6Pieces? n (piece :: before) gap (next :: rest)
      | '.' :: _ =>
        if digits.isEmpty || 6 < before.length then none
        else (ipv4Tail? (c :: cs)).map fun pair => (before.reverse ++ pair, gap)
      | _ => none

def ipv6? (cs : List Char) : Option (List Nat) :=
  let start := match cs with
    | ':' :: ':' :: rest => ipv6Pieces? (cs.length + 1) [0] (some 1) rest
    | ':' :: _ => none
    | [_] => none
    | [] => none
    | _ => ipv6Pieces? (cs.length + 1) [] none cs
  start.bind fun (pieces, gap) =>
    match gap with
    | some place =>
      some (pieces.take place ++ List.replicate (8 - pieces.length) 0 ++ pieces.drop place)
    | none => if pieces.length == 8 then some pieces else none

def bracketed (cs : List Char) : Except UrlFault Host :=
  if cs.getLast? == some ']' then
    match ipv6? cs.dropLast with
    | some pieces => .ok (ipv6 pieces)
    | none => .error .invalidIpv6
  else .error .invalidIpv6

def ofWeb : List Char → Except UrlFault Host
  | '[' :: cs => bracketed cs
  | cs =>
    match Percent.decodeAscii? cs with
    | none => .error .invalidDomain
    | some decoded =>
      let domain := decoded.map Char.toLower
      if domain.any isForbiddenInDomain then .error .invalidDomain
      else if domain.isEmpty then .error .emptyHost
      else
        let parts := splitOn (· == '.') domain
        if endsInNumber parts then
          match ipv4? parts with
          | some address => .ok (ipv4 address)
          | none => .error .invalidIpv4
        else .ok (name (String.ofList domain))

def ofPlain : List Char → Except UrlFault Host
  | '[' :: cs => bracketed cs
  | cs =>
    if cs.any isForbidden then .error .invalidHostChar
    else .ok (name (Percent.encode Percent.inBare cs))

end Host

end PageFilters
