import Avibe.Fetch.Cookies

/-!
# The fetch loop

`fetch_document` as a state that makes at most six hops. What is outside the worker is the
`World`: the reply of each DNS lookup, the outcome of each hop with the addresses that were
tried, the pages that are extracted, `urljoin`, the clock, and the digest of a cookie header.
The trace records the lookups, the selected redirects and alternates, the connections and the
requests. The events for the parent and the request headers other than `Cookie` are left out.
-/

namespace Avibe.Fetch

open Ip

local instance text_lawfulBEq : LawfulBEq Text := inferInstance

/-- The ways a page names the next URL. -/
inductive FollowKind where
  | refresh
  | alternate
  deriving DecidableEq, Repr

structure Page where
  content : Text
  title : Option Text
  canonicalUrl : Option Text
  follow : Option (Text × FollowKind)
  deriving DecidableEq, Repr

/-- The reply of a lookup, or none in the time that was left; a window below five seconds was cut by
the budget of the attempt. -/
inductive Reply where
  | answers (answers : Answers)
  | late (short : Bool)

structure HopResponse where
  status : Nat
  headers : List (Text × Text)
  body : List UInt8

inductive HopEnd where
  | response (response : HopResponse)
  | failure (failure : Failure)
  | exception (timeout : Bool)

/-- What an attempt to connect ended with. -/
inductive Attempt where
  | timeUp
  | failed
  | connected (peer : Text)
  deriving DecidableEq, Repr

/-- One hop: what the HTTP library asks the backend for, how the attempts end, and the rest. -/
structure Hop where
  host : Text
  port : Nat
  localAddress : Bool
  attempts : List Attempt
  /-- The addresses that libcurl connects to, of those that it was given. -/
  curl : List Text → List Text
  sent : Bool
  shortAllowance : Bool
  ending : HopEnd

inductive Extracted where
  | page (page : Page)
  | failure (failure : Failure)
  | exception

structure World where
  lookups : Nat → Reply
  hops : Nat → Hop
  clock : Nat → Int
  native : Bool
  extract : List UInt8 → Text → Text → Extracted
  /-- None where `urljoin` raises `ValueError`. -/
  urljoin : Text → Text → Option Text
  parsedate : Text → Option Int
  digest : Text → Text

inductive Event where
  | lookup (value : Text) (result : Except Failure CheckedTarget)
  | select (value : Text)
  | connect (ip : Text)
  | request (target : CheckedTarget) (cookies : List Text)
  deriving DecidableEq

/-- What a fetch returns, with the failure that a retained page stands in for. -/
structure Result where
  page : Page
  finalUrl : Text
  size : Nat
  cooldown : Option (Code × Option Text × Bool)

structure Retained where
  page : Page
  url : Text
  size : Nat

structure State where
  current : Text
  seen : List (Text × Text)
  jar : Jar
  usedFollow : List FollowKind
  retained : Option Retained
  lookups : Nat
  hops : Nat
  sent : Bool
  trace : List Event
  result : Option (Except Failure Result)

/-! ## Connections -/

/-- The IPv6 and IPv4 addresses in turn. -/
def interleave : List Text → List Text → List Text
  | [], v4 => v4
  | v6, [] => v6
  | a :: v6, b :: v4 => a :: b :: interleave v6 v4

/-- The addresses that are tried until the time is up or a connection stands. -/
def tried : List Text → List Attempt → List Text
  | [], _ => []
  | _, [] => []
  | ip :: ips, .failed :: rest => ip :: tried ips rest
  | ip :: _, .connected _ :: _ => [ip]
  | _ :: _, .timeUp :: _ => []

/-- `PinnedBackend.connect_tcp`: the addresses it connects to. -/
def connectTcp (target : CheckedTarget) (hop : Hop) : List Text :=
  if hop.host ≠ target.address.host ∨ hop.port ≠ target.address.port ∨ hop.localAddress then []
  else tried (interleave (target.ips.filter (':' ∈ ·)) (target.ips.filter (':' ∉ ·))) hop.attempts

/-- The connections of a hop, through libcurl or through the pinned backend. -/
def connections (w : World) (target : CheckedTarget) (hop : Hop) : List Text :=
  if w.native then hop.curl target.ips else connectTcp target hop

/-! ## The loop -/

section Loop

variable (t : Texts) (w : World)

/-- `resolve`. The lookup of an address literal asks no resolver. -/
def resolve (s : State) (value : Text) : State × Except Failure CheckedTarget :=
  match parseUrl t value with
  | .error f => ({ s with trace := s.trace ++ [.lookup value (.error f)] }, .error f)
  | .ok address =>
      if address.literal then
        let result := resolveTarget t value none
        ({ s with trace := s.trace ++ [.lookup value result] }, result)
      else
        let result : Except Failure CheckedTarget :=
          match w.lookups s.lookups with
          | .answers answers => resolveTarget t value answers
          | .late true => .error ⟨if s.sent then .timeout else .busy, false, none, true⟩
          | .late false => .error unverified
        ({ s with lookups := s.lookups + 1, trace := s.trace ++ [.lookup value result] }, result)

/-- A failure inside a hop ends the fetch, or the retained page stands in for it. -/
def settle (s : State) (f : Failure) : State :=
  { s with result := some (
      match f.terminal, s.retained with
      | false, some r =>
          .ok ⟨r.page, r.url, r.size, some (f.code, f.retryAfter, f.cooldownSuppressed)⟩
      | _, _ => .error f) }

/-- The failure of a hop; a timeout that had no connect budget of its own cools nothing. -/
def failHop (s : State) (hop : Hop) (f : Failure) : State :=
  settle s { f with cooldownSuppressed :=
    f.cooldownSuppressed || (f.code = .timeout && (hop.sent || hop.shortAllowance)) }

/-- Any other exception of a hop. -/
def crashHop (s : State) (hop : Hop) (code : Code) : State :=
  settle s ⟨code, false, none, code = .timeout && (hop.sent || hop.shortAllowance)⟩

def headerOf (headers : List (Text × Text)) (name : String) : Text :=
  ((headers.reverse.find? fun h => t.lower h.1 = name.toList).map Prod.snd).getD []

def retryAfter (headers : List (Text × Text)) : Option Text :=
  let value := headerOf t headers "retry-after"
  if value = [] then none else some value

/-- The header of a firewall that asks for a challenge. -/
def isChallenge (headers : List (Text × Text)) : Bool :=
  t.lower (strip (headerOf t headers "cf-mitigated")) = "challenge".toList ||
    (t.lower (strip (headerOf t headers "x-amzn-waf-action"))) ∈
      ["challenge".toList, "captcha".toList]

/-- A selected redirect or alternate: its URL is gated before anything else. -/
def select (s : State) (hop : Hop) (value : Text) (next : State → State) : State :=
  match resolve t w { s with trace := s.trace ++ [.select value] } value with
  | (s, .error f) => failHop s hop f
  | (s, .ok _) => next s

/-- The page of a response with status 200, at this index of the loop. -/
def takePage (s : State) (hop : Hop) (index : Nat) (address : FetchURL) (size : Nat) (page : Page) :
    State :=
  let finish := fun (s : State) =>
    if page.content.all isSpace then failHop s hop (.of .targetUnreadable false)
    else
      let page := match s.retained with
        | some r => { page with title := page.title.or r.page.title
                                canonicalUrl := page.canonicalUrl.or r.page.canonicalUrl }
        | none => page
      { s with result := some (.ok ⟨page, address.url, size, none⟩) }
  match page.follow with
  | some (url, kind) =>
      if kind ∈ s.usedFollow then finish s
      else
        select t w s hop url fun s =>
          if index < 5 then
            { s with
              usedFollow := kind :: s.usedFollow
              retained := if kind = .alternate ∧ page.content ≠ [] then
                some ⟨page, address.url, size⟩ else s.retained
              current := url }
          else finish s
  | none => finish s

/-- What a response means. -/
def takeResponse (s : State) (hop : Hop) (index : Nat) (address : FetchURL) (r : HopResponse) :
    State :=
  let s := { s with jar := receive t w.parsedate (w.clock (2 * index + 1)) s.jar address r.headers }
  if isChallenge t r.headers then failHop s hop (.of .challenge false)
  else if r.status = 401 then failHop s hop (.of .refused true)
  else if r.status = 429 then
    failHop s hop ⟨.rateLimited, false, retryAfter t r.headers, false⟩
  else if r.status ∈ [301, 302, 303, 307, 308] then
    let location := headerOf t r.headers "location"
    if location = [] then failHop s hop (.of .targetUnreadable false)
    else
      match w.urljoin address.url location with
      | none => crashHop s hop .unavailable
      | some value => select t w s hop value fun s => { s with current := value }
  else if r.status ∈ [403, 404, 410, 408] then failHop s hop (.of .targetUnreadable false)
  else if r.status ≠ 200 then
    failHop s hop ⟨if 500 ≤ r.status then .unavailable else .targetUnreadable, false,
      retryAfter t r.headers, false⟩
  else
    match w.extract r.body (headerOf t r.headers "content-type") address.url with
    | .page page => takePage t w s hop index address r.body.length page
    | .failure f => failHop s hop f
    | .exception => crashHop s hop .targetUnreadable

/-- The request of one hop to a checked target, with the cookies of the address. -/
def makeHop (s : State) (index : Nat) (address : FetchURL) (target : CheckedTarget) : State :=
  let cookies := sentValues t (w.clock (2 * index)) s.jar address
  let visit := (target.address.url, w.digest (header t (w.clock (2 * index)) s.jar address))
  if visit ∈ s.seen then { s with result := some (.error (.of .targetUnreadable false)) }
  else
    let hop := w.hops s.hops
    let s := { s with
      seen := visit :: s.seen
      hops := s.hops + 1
      sent := s.sent || hop.sent
      trace := s.trace ++ .request target cookies ::
        (connections w target hop).map Event.connect }
    match hop.ending with
    | .response r => takeResponse t w s hop index address r
    | .failure f => failHop s hop f
    | .exception timeout => crashHop s hop (if timeout then .timeout else .unavailable)

/-- One turn of the loop. -/
def step (s : State) (index : Nat) : State :=
  match s.result with
  | some _ => s
  | none =>
      match parseUrl t s.current with
      | .error f => { s with result := some (.error f) }
      | .ok address =>
          match resolve t w s s.current with
          | (s, .error f) => { s with result := some (.error f) }
          | (s, .ok _) =>
              match resolve t w s s.current with
              | (s, .error f) => { s with result := some (.error f) }
              | (s, .ok target) => makeHop t w s index address target

def start (url : Text) : State :=
  { current := url, seen := [], jar := [], usedFollow := [], retained := none, lookups := 0,
    hops := 0, sent := false, trace := [], result := none }

/-- `fetch_document`: the state at its end. -/
def fetchDocument (url : Text) : State :=
  match parseUrl t url with
  | .error f => { start url with result := some (.error f) }
  | .ok original =>
      let s := (List.range 6).foldl (step t w) (start original.url)
      match s.result with
      | some _ => s
      | none => { s with result := some (.error (.of .targetUnreadable false)) }

end Loop

end Avibe.Fetch
