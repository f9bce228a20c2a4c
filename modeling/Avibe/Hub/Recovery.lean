import Mathlib.Algebra.Order.Ring.Rat
import Mathlib.Algebra.Order.Field.Rat

/-!
# Recovery admission

A hub Source whose inference failed recovers half-open: after its deadline one attempt may
try it, and only the outcome of an attempt says that it recovered. `Policy` keeps a record
for each recovering Source and the persisted cooldowns that a verified inference retired.

Times are exact rationals in seconds; every call reads its two clocks once. A persisted
retry time is a text, compared as such where an observation is, and `instant` reads it.
-/

namespace Avibe.Hub

inductive Kind where
  | subscription
  | apiKey
  deriving DecidableEq, Repr

inductive Protocol where
  | anthropic
  | openaiResponses
  | openaiChat
  | google
  | search
  deriving DecidableEq, Repr

inductive Channel where
  | nativeCli
  | hub
  deriving DecidableEq, Repr

/-- The detail keys that a persisted cooldown may have. -/
inductive CooldownKey where
  | network
  | timeout
  | rateLimited
  | quotaExhausted
  | serverError
  deriving DecidableEq, Repr

/-- The last part of the key. -/
def CooldownKey.tail : CooldownKey → String
  | .network => "network"
  | .timeout => "timeout"
  | .rateLimited => "rate_limited"
  | .quotaExhausted => "quota_exhausted"
  | .serverError => "server_error"

/-- `ModelHubSourceStateConfig` as its validation admits it. -/
inductive SourceState where
  | active
  | standby
  | cooldown (retryAt : Option String) (detailKey : Option CooldownKey)
  | needsAction (detailKey : String)
  | error (detailKey : String)
  deriving DecidableEq, Repr

inductive Provenance where
  | discovered
  | manual
  deriving DecidableEq, Repr

structure Model where
  id : String
  provenance : Provenance
  retired : Bool
  deriving DecidableEq, Repr

/-- `ModelHubSourceConfig` -/
structure Source where
  id : String
  kind : Kind
  vendor : String
  protocol : Protocol
  supplyChannel : Channel
  baseUrl : Option String
  credentialRef : Option String
  credentialGeneration : Option String
  state : SourceState
  models : List Model
  deriving DecidableEq, Repr

/-- `source_identity` -/
structure Identity where
  kind : Kind
  vendor : String
  protocol : Protocol
  supplyChannel : Channel
  baseUrl : Option String
  credentialRef : Option String
  credentialGeneration : Option String
  deriving DecidableEq, Repr

def Source.identity (s : Source) : Identity :=
  ⟨s.kind, s.vendor, s.protocol, s.supplyChannel, s.baseUrl, s.credentialRef, s.credentialGeneration⟩

/-- `_SourceRecovery` -/
structure Recovery where
  identity : Identity
  reason : String
  failures : Nat
  retryAt : ℚ
  eligibleAt : ℚ
  owner : Option Nat
  failedGeneration : Option Nat
  deriving DecidableEq, Repr

/-- A persisted cooldown, as `_cooldown_observation` has it. -/
structure Observation where
  identity : Identity
  retryAt : Option String
  detailKey : Option CooldownKey
  deriving DecidableEq, Repr

def Source.cooldownObservation (s : Source) : Option Observation :=
  match s.state with
  | .cooldown retryAt detailKey => some ⟨s.identity, retryAt, detailKey⟩
  | _ => none

structure Policy where
  sources : String → Option Recovery
  retiredCooldowns : String → Option Observation

/-- The readings of both clocks at a call. -/
structure Clock where
  now : ℚ
  monotonic : ℚ
  deriving DecidableEq, Repr

inductive FailureReason where
  | network
  | serverError
  | rateLimited
  | quotaExhausted
  deriving DecidableEq, Repr

def FailureReason.text : FailureReason → String
  | .network => "network"
  | .serverError => "server_error"
  | .rateLimited => "rate_limited"
  | .quotaExhausted => "quota_exhausted"

/-- `RETRY_DELAYS` -/
def FailureReason.delays : FailureReason → List ℚ
  | .network => [1, 2, 4, 8, 16, 30, 60]
  | .serverError => [30, 60, 120]
  | .rateLimited => [60, 120, 240, 300]
  | .quotaExhausted => [300]

def FailureReason.transient : FailureReason → Bool
  | .network | .serverError => true
  | .rateLimited | .quotaExhausted => false

/-- What a `Retry-After` header says. -/
inductive Advice where
  | seconds (n : Nat)
  | date (deadline : ℚ)
  | invalid
  deriving DecidableEq, Repr

/-- `retry_after_deadline` -/
def retryAfterDeadline (value : Option Advice) (receivedAt : ℚ) (milliseconds : Option Int) :
    Option ℚ :=
  let advised :=
    match value with
    | some (.seconds n) => [receivedAt + n]
    | some (.date deadline) => [deadline]
    | _ => []
  let timed :=
    match milliseconds with
    | some ms => if 0 ≤ ms then [receivedAt + ms / 1000] else []
    | none => []
  ((advised ++ timed).filter fun deadline => receivedAt ≤ deadline).max?

/-- What a failed attempt reports. -/
structure Failure where
  reason : FailureReason
  generation : Nat
  retryAfter : Option Advice
  retryAfterMs : Option Int
  /-- A reading without a time zone is none. -/
  responseReceivedAt : Option ℚ
  upstreamRetryAt : Option ℚ
  jitter : ℚ → ℚ → ℚ

namespace Policy

def empty : Policy := ⟨fun _ => none, fun _ => none⟩

def setSource (p : Policy) (id : String) (r : Option Recovery) : Policy :=
  { p with sources := fun i => if i = id then r else p.sources i }

def setRetired (p : Policy) (id : String) (o : Option Observation) : Policy :=
  { p with retiredCooldowns := fun i => if i = id then o else p.retiredCooldowns i }

/-- `reconcile` -/
def reconcile (p : Policy) (config : List Source) : Policy :=
  -- The last Source of an id counts, as in the dictionary the source builds.
  let find (id : String) := (config.filter fun s => s.supplyChannel = .hub).reverse.find? (·.id = id)
  { sources := fun id =>
      (p.sources id).filter fun r => (find id).any fun s => s.identity = r.identity
    retiredCooldowns := fun id =>
      (p.retiredCooldowns id).filter fun o => (find id).any fun s => s.cooldownObservation = some o }

section Calls

variable (instant : String → ℚ) (clock : Clock)

/-- The persisted retry time, where there is one. -/
def persistedRetry (source : Source) : Option ℚ :=
  match source.state with
  | .cooldown (some retryAt) _ => if retryAt = "" then none else some (instant retryAt)
  | _ => none

/-- The record of the policy for the identity of the Source. -/
def known (p : Policy) (source : Source) : Policy :=
  match p.sources source.id with
  | some r => if r.identity = source.identity then p else p.setSource source.id none
  | none => p

/-- The record with what the persisted cooldown says. -/
def restored (source : Source) (record : Option Recovery) : Option Recovery :=
  match record, persistedRetry instant source with
  | none, some retryAt =>
      let reason :=
        match source.state with
        | .cooldown _ (some key) => key.tail
        | _ => ""
      some {
        identity := source.identity
        reason
        failures := 0
        retryAt
        eligibleAt := clock.monotonic + max 0 (retryAt - clock.now)
        owner := none
        failedGeneration := none }
  | some r, some persisted =>
      if r.retryAt < persisted then
        some { r with
          retryAt := persisted
          eligibleAt := max r.eligibleAt (clock.monotonic + max 0 (persisted - clock.now)) }
      else some r
  | record, none => record

/-- `_state`; the record is the one the policy then has. -/
def state (p : Policy) (source : Source) : Policy :=
  if source.supplyChannel ≠ .hub then p
  else
    let p := p.known source
    match p.retiredCooldowns source.id with
    | some retired =>
        if some retired = source.cooldownObservation then p
        else
          let p := p.setRetired source.id none
          p.setSource source.id (restored instant clock source (p.sources source.id))
    | none => p.setSource source.id (restored instant clock source (p.sources source.id))

/-- The record that `_state` returns. -/
def record (p : Policy) (source : Source) : Option Recovery :=
  if source.supplyChannel ≠ .hub then none else (p.state instant clock source).sources source.id

/-- `failed`, with the retry time and whether the failure counted. -/
def failed (p : Policy) (source : Source) (failure : Failure) : Policy × ℚ × Bool :=
  let state := p.record instant clock source
  let p := p.state instant clock source
  let stale := state.any fun r => r.failedGeneration.any fun g => failure.generation ≤ g
  if stale then (p, (state.map Recovery.retryAt).getD 0, false)
  else
    let failures := (state.map Recovery.failures).getD 0 + 1
    let delays := failure.reason.delays
    let base := delays.getD (min (failures - 1) (delays.length - 1)) 0
    let cap := delays.getLastD 0
    let lower := if failure.reason.transient ∧ base = cap then base * (4 / 5) else base
    let local_ := failure.jitter lower (min cap (base * (6 / 5)))
    let received := failure.responseReceivedAt.getD clock.now
    let upstream := retryAfterDeadline failure.retryAfter received failure.retryAfterMs
    let deadline := max (max (clock.now + local_) (upstream.getD clock.now))
      (failure.upstreamRetryAt.getD clock.now)
    let eligibleAt := clock.monotonic + (deadline - clock.now)
    let (eligibleAt, deadline) :=
      match state with
      | some r =>
          let eligibleAt := max eligibleAt r.eligibleAt
          (eligibleAt, max (max deadline r.retryAt) (clock.now + (eligibleAt - clock.monotonic)))
      | none => (eligibleAt, deadline)
    let record : Recovery :=
      ⟨source.identity, failure.reason.text, failures, deadline, eligibleAt, none,
        some failure.generation⟩
    (p.setSource source.id (some record), deadline, true)

/-- `claim` -/
def claim (p : Policy) (source : Source) (generation : Nat) : Policy × Bool :=
  let state := p.record instant clock source
  let p := p.state instant clock source
  match state with
  | none => (p, true)
  | some r =>
      if r.owner ≠ none ∨ clock.monotonic < r.eligibleAt then (p, false)
      else (p.setSource source.id (some { r with owner := some generation }), true)

/-- `release` -/
def release (p : Policy) (id : String) (generation : Option Nat) : Policy :=
  match p.sources id with
  | some r =>
      if generation ≠ none ∧ r.owner = generation then p.setSource id (some { r with owner := none })
      else p
  | none => p

/-- `succeeded` -/
def succeeded (p : Policy) (source : Source) : Policy × Bool :=
  let state := p.record instant clock source
  let p := p.state instant clock source
  match state with
  | none => (p, false)
  | some _ =>
      let p := p.setSource source.id none
      match source.cooldownObservation with
      | some observation => (p.setRetired source.id (some observation), true)
      | none => (p, true)

/-- `SourceRecoveryAnnotation`; the retry time is a wall-clock instant. -/
structure Annotation where
  reason : String
  retryAt : Option ℚ
  inFlight : Bool
  retiredCooldown : Option (Option String × Option CooldownKey)
  deriving DecidableEq, Repr

/-- The annotation of one Source, once its record is up to date. -/
def annotationOf (p : Policy) (source : Source) : Option Annotation :=
  let retired := (p.retiredCooldowns source.id).map fun o => (o.retryAt, o.detailKey)
  let state := if source.supplyChannel ≠ .hub then none else p.sources source.id
  match state with
  | none => retired.map fun o => ⟨"recovery", none, false, some o⟩
  | some r =>
      let remaining := max 0 (r.eligibleAt - clock.monotonic)
      some {
        reason := r.reason
        retryAt := if remaining = 0 then none else some (clock.now + remaining)
        inFlight := r.owner.isSome
        retiredCooldown := retired }

/-- `annotations`: every Source in turn, on the policy that the ones before it left. -/
def annotate : Policy → List Source → Policy × List (String × Annotation)
  | p, [] => (p, [])
  | p, source :: rest =>
      let p := p.state instant clock source
      let (q, result) := annotate p rest
      match annotationOf clock p source with
      | some a => (q, (source.id, a) :: result)
      | none => (q, result)

def annotations (p : Policy) (config : List Source) : Policy × List (String × Annotation) :=
  annotate instant clock (p.reconcile config) config

end Calls

end Policy

end Avibe.Hub
