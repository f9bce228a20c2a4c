import Avibe.Lib.Checked
import Avibe.Lib.Url

/-!
# The address policy of the page fetcher

`checkedIp` reads the text of an address and returns the text to connect to, `parseUrl` reads
a URL, and `resolveTarget` looks its host up and checks the whole answer set. Texts are lists
of characters; a lone surrogate, which `parse_url` refuses, is no character. `Texts` holds
what depends on the Unicode tables and `idna.encode`.
-/

namespace Avibe.Fetch

open Ip Places Checked

/-- The codes of a `FetchFailure`. -/
inductive Code where
  | urlBlocked
  | dnsUnverified
  | timeout
  | busy
  | targetUnreadable
  | unsupportedContent
  | challenge
  | jsShell
  | refused
  | rateLimited
  | unavailable
  deriving DecidableEq, Repr

structure Failure where
  code : Code
  terminal : Bool
  retryAfter : Option Text
  cooldownSuppressed : Bool
  deriving DecidableEq, Repr

def Failure.of (code : Code) (terminal : Bool) : Failure := ⟨code, terminal, none, false⟩

def blocked : Failure := .of .urlBlocked true

def unverified : Failure := .of .dnsUnverified true

/-! ## Addresses -/

def octets (a b c d : Nat) : BitVec 32 := BitVec.ofNat 32 (ofPlaces 256 [a, b, c, d])

/-- The address with these first groups and zeros. -/
def groups (gs : List Nat) : BitVec 128 :=
  BitVec.ofNat 128 (ofPlaces 65536 (gs ++ List.replicate (8 - gs.length) 0))

/-- `_V4_DENY` -/
def v4Deny : List (BitVec 32 × Nat) :=
  [(octets 0 0 0 0, 8), (octets 10 0 0 0, 8), (octets 100 64 0 0, 10), (octets 127 0 0 0, 8),
    (octets 169 254 0 0, 16), (octets 172 16 0 0, 12), (octets 192 0 0 0, 24),
    (octets 192 0 2 0, 24), (octets 192 88 99 0, 24), (octets 192 168 0 0, 16),
    (octets 198 18 0 0, 15), (octets 198 51 100 0, 24), (octets 203 0 113 0, 24),
    (octets 224 0 0 0, 4), (octets 240 0 0 0, 4), (octets 168 63 129 16, 32)]

/-- `_V6_GLOBAL` -/
def v6Global : BitVec 128 × Nat := (groups [0x2000], 3)

/-- `_V6_DENY` -/
def v6Deny : List (BitVec 128 × Nat) :=
  [(groups [0x2001], 23), (groups [0x2001, 0xdb8], 32), (groups [0x2002], 16), (groups [0x3fff], 20)]

/-- `_DNS64` -/
def dns64 : BitVec 128 × Nat := (groups [0x64, 0xff9b], 96)

/-- `_FAKE_IP` -/
def fakeIp : BitVec 32 × Nat := (octets 198 18 0 0, 15)

def contains {width : Nat} (net : BitVec width × Nat) (a : BitVec width) : Bool :=
  inNetwork net.1 net.2 a

/-- An IPv4-mapped address is read as IPv4. -/
def unmapped : Address → Address
  | .v4 a => .v4 a
  | .v6 a => if a >>> 32 = 0xffff#128 then .v4 (a.setWidth 32) else .v6 a

/-- An interface identifier that embeds an IPv4 next hop. -/
def isIsatap (a : BitVec 128) : Bool :=
  (a >>> 32).setWidth 32 ∈ [0x00005efe#32, 0x02005efe#32]

def checkedV4 (a : BitVec 32) : Except Failure Unit := do
  require (!contains fakeIp a) unverified
  require (!v4Deny.any fun net => contains net a) blocked

/-- The checks of an address. The embedded address of a DNS64 one is checked as its text is, which
reads back as itself. -/
def checkedAddress (a : Address) : Except Failure Address :=
  match unmapped a with
  | .v4 v => do
      checkedV4 v
      return .v4 v
  | .v6 v =>
      if contains dns64 v then do
        checkedV4 (v.setWidth 32)
        return .v6 v
      else do
        require (contains v6Global v && !isIsatap v && !v6Deny.any fun net => contains net v) blocked
        return .v6 v

/-- `checked_ip` -/
def checkedIp (value : Text) : Except Failure Text := do
  require (decide ('%' ∉ value)) unverified
  let a ← found (parse value) unverified
  let a ← checkedAddress a
  return a.text

/-! ## URLs -/

/-- What depends on tables of the Unicode version and of `idna`. -/
structure Texts where
  /-- `str.lower` -/
  lower : Text → Text
  /-- `str.isspace`, or one of the categories Cc, Cf and Cs. -/
  refused : Char → Bool
  /-- The compatibility form of a netloc has no new separator. -/
  normal : Text → Bool
  /-- `idna.encode` with UTS 46 and the STD 3 rules; none where it raises. -/
  idna : Text → Option Text

/-- `FetchURL` -/
structure FetchURL where
  url : Text
  host : Text
  port : Nat
  scheme : Text
  literal : Bool
  deriving DecidableEq, Repr

def FetchURL.origin (u : FetchURL) : Text × Text × Nat := (u.scheme, u.host, u.port)

def localSuffixes : List Text :=
  [".localhost".toList, ".local".toList, ".localdomain".toList, ".internal".toList, ".lan".toList,
    ".home".toList, ".home.arpa".toList, ".invalid".toList, ".test".toList]

/-- A number as an old resolver reads it: decimal, or hexadecimal after `0x`. -/
def isNumberLabel (label : Text) : Bool :=
  (label ≠ [] && label.all Url.isAsciiDigit) ||
    match label with
    | '0' :: 'x' :: digits =>
        digits ≠ [] && digits.all fun c => Url.isAsciiDigit c || ('a' ≤ c && c ≤ 'f')
    | _ => false

/-- One DNS root dot is left out. -/
def dropRoot (host : Text) : Text := if host.getLast? = some '.' then host.dropLast else host

/-- A name that is no public host name. -/
def isLocalName (host : Text) : Bool :=
  '.' ∉ host || host = "localhost".toList || localSuffixes.any (fun s => s.isSuffixOf host) ||
    (host.splitOn '.').all isNumberLabel ||
    (host.splitOn '.').getLast?.any isNumberLabel

def http : Text := "http".toList

def https : Text := "https".toList

def pathSafe : Text := "/%:@!$&'()*+,;=-._~".toList

def querySafe : Text := "/%?:@!$&'()*+,;=-._~".toList

section Parse

variable (t : Texts)

/-- The canonical host of a name. -/
def namedHost (host : Text) : Except Failure Text := do
  let encoded ← found (t.idna host) blocked
  let host := dropRoot (t.lower encoded)
  require (!isLocalName host) blocked
  return host

/-- The canonical host, and whether it is an address. -/
def canonicalHost (host : Text) : Except Failure (Text × Bool) :=
  match parse host with
  | some a => do
      let host ← checkedIp a.text
      return (host, true)
  | none => do
      let host ← namedHost t host
      return (host, false)

/-- `parse_url` -/
def parseUrl (value : Text) : Except Failure FetchURL := do
  require (value ≠ [] && value.length ≤ 8192 && '\\' ∉ value && !value.any t.refused) blocked
  let parts ← found (Url.split t.normal value) blocked
  require ((parts.scheme = http || parts.scheme = https) && parts.netloc ≠ [] &&
    !Url.hasUserinfo parts.netloc) blocked
  let host ← found (Url.hostname t.lower parts.netloc) blocked
  require ('%' ∉ host && parts.netloc.getLast? ≠ some ':') blocked
  let port? ← found (Url.port parts.netloc) blocked
  require (port? ≠ some 0) blocked
  let port := port?.getD (if parts.scheme = https then 443 else 80)
  let host := dropRoot host
  require (host.getLast? ≠ some '.') blocked
  let (host, literal) ← canonicalHost t host
  let path := Url.quote pathSafe (if parts.path = [] then ['/'] else parts.path)
  let query := Url.quote querySafe parts.query
  let url := Url.unsplit parts.scheme (Url.authority host port?) path query
  require (decide (url.length ≤ 8192)) blocked
  return ⟨url, host, port, parts.scheme, literal⟩

/-- `CheckedTarget` -/
structure CheckedTarget where
  address : FetchURL
  ips : List Text
  deriving DecidableEq, Repr

/-- `dict.fromkeys`: each text at its first place. -/
def distinct : List Text → List Text
  | [] => []
  | ip :: rest => ip :: (distinct rest).filter (· ≠ ip)

/-- The answers of `getaddrinfo`; none where it raises `OSError`. -/
abbrev Answers := Option (List Text)

/-- `resolve_target` -/
def resolveTarget (value : Text) (answers : Answers) : Except Failure CheckedTarget := do
  let address ← parseUrl t value
  if address.literal then do
    let ip ← checkedIp address.host
    return ⟨address, [ip]⟩
  else do
    let answers ← found answers unverified
    require (answers ≠ [] && answers.length ≤ 64) unverified
    let ips ← answers.mapM' checkedIp
    return ⟨address, distinct ips⟩

end Parse

end Avibe.Fetch
