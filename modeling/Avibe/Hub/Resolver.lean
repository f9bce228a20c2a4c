import Mathlib.Data.List.Dedup
import Avibe.Hub.RecoverySafety

/-!
# The route resolver

`inspectExactHop` says of one hop of a route whether it can run now, from the persisted
state of its Source and the live annotations of the recovery policy; `resolveModelHubTurn`
inspects every hop of the effective route and picks the first that runs.

The regular expressions for Claude and GPT model ids are the parameters `claudeModelId`
and `gptFrom56`.
-/

namespace Avibe.Hub

open Policy

inductive Backend where
  | claude
  | codex
  | opencode
  | vibey
  deriving DecidableEq, Repr

structure Hop where
  sourceId : String
  modelId : String
  deriving DecidableEq, Repr

inductive CacheTtl where
  | fiveMinutes
  | thirtyMinutes
  | oneHour
  | twelveHours
  deriving DecidableEq, Repr

/-- `ModelHubRouteConfig` -/
structure Route where
  hops : List Hop
  cacheTtl : Option CacheTtl
  deriving DecidableEq, Repr

inductive Mode where
  | hub
  | direct
  deriving DecidableEq, Repr

/-- `ModelHubAgentSupplyConfig`; the keys of its routes are not empty. -/
structure Agent where
  mode : Mode
  order : List String
  routes : List (String × Route)
  models : List String
  keys : ∀ route ∈ routes, route.1 ≠ ""

/-- `ModelHubConfig`; the ids of its Sources are distinct. -/
structure Config where
  sources : List Source
  agents : Backend → Agent
  unique : (sources.map Source.id).Nodup

inductive RouteOrigin where
  | automatic
  | manual
  | passthrough
  deriving DecidableEq, Repr

structure EffectiveModelRoute where
  manualOverride : Option Route
  routeOrigin : Option RouteOrigin
  hops : List Hop
  cacheTtl : Option CacheTtl
  deriving DecidableEq, Repr

/-- `source_eligible_for_backend` -/
def sourceEligibleForBackend (source : Source) (backend : Backend) : Bool :=
  if source.protocol = .search then false
  else if source.supplyChannel = .hub then true
  else if source.kind = .apiKey then false
  else
    (source.vendor = "anthropic" && backend = .claude) ||
      (source.vendor = "openai" && backend = .codex)

/-- `source_supports_passthrough` -/
def sourceSupportsPassthrough (source : Source) : Bool :=
  source.kind = .apiKey && source.supplyChannel = .hub && source.protocol ≠ .search

/-- `source_model_retired` -/
def sourceModelRetired (source : Source) (modelId : String) : Bool :=
  source.models.any fun m => m.id = modelId && m.retired

section Matching

-- The family, version and date of a Claude model id.
variable (claudeModelId : String → Option (String × List Nat × Option Nat))

def claudeFamilyAlias (model : String) : Option String :=
  if model = "opus" ∨ model = "opus[1m]" then some "opus"
  else if model = "sonnet" ∨ model = "sonnet[1m]" then some "sonnet"
  else if model = "haiku" then some "haiku"
  else none

/-- The larger of two matches, compared by version, date and id. -/
def laterMatch (a b : List Nat × Nat × String) : List Nat × Nat × String :=
  if a.1 < b.1 ∨ a.1 = b.1 ∧ (a.2.1 < b.2.1 ∨ a.2.1 = b.2.1 ∧ a.2.2 < b.2.2) then b else a

/-- `matching_v1_model_id` -/
def matchingV1ModelId (backend : Backend) (requestedModel : String) (source : Source)
    (includeManual : Bool) : Option String :=
  let observed := source.models.filter fun m =>
    (includeManual || m.provenance = .discovered) && !m.retired
  let literal := (observed.find? fun m => m.id = requestedModel).map Model.id
  if backend = .claude ∧ source.vendor = "anthropic" ∧ source.supplyChannel = .nativeCli then
    let (family, version, dated) :=
      match claudeFamilyAlias requestedModel, claudeModelId requestedModel with
      | some family, _ => (some family, none, false)
      | none, some (family, version, date) => (some family, some version, date.isSome)
      | none, none => (none, none, false)
    if dated then literal
    else
      match family with
      | none => literal
      | some family =>
          let found := observed.filterMap fun m =>
            match claudeModelId m.id with
            | some (f, v, date) =>
                if f = family ∧ (version.all fun w => v = w) then some (v, date.getD 0, m.id) else none
            | none => none
          match found with
          | [] => none
          | first :: rest => some (rest.foldl laterMatch first).2.2
  else literal

/-- `normalized_model_hub_override` of the agent's route. -/
def Agent.override (agent : Agent) (requestedModel : String) : Option Route :=
  ((agent.routes.find? fun r => r.1 = requestedModel).map Prod.snd).filter fun r => r.hops ≠ []

/-- `effective_model_route` -/
def effectiveModelRoute (config : Config) (backend : Backend) (requestedModel : String) :
    EffectiveModelRoute :=
  let agent := config.agents backend
  match agent.override requestedModel with
  | some override => ⟨some override, some .manual, override.hops, override.cacheTtl⟩
  | none =>
      if requestedModel = "" ∨ requestedModel ∉ agent.models then ⟨none, none, [], none⟩
      else
        let sources := agent.order.filterMap fun id =>
          (config.sources.find? fun s => s.id = id).filter fun s =>
            sourceEligibleForBackend s backend
        let found := sources.filterMap fun s =>
          (matchingV1ModelId claudeModelId backend requestedModel s true).map fun m => ⟨s.id, m⟩
        if found ≠ [] then ⟨none, some .automatic, found, none⟩
        else
          let hops := (sources.filter fun s =>
            sourceSupportsPassthrough s && !sourceModelRetired s requestedModel).map fun s =>
              ⟨s.id, requestedModel⟩
          ⟨none, if hops = [] then none else some .passthrough, hops, none⟩

end Matching

/-! ## One hop -/

inductive RetryTime where
  | persisted (text : String)
  | projected (instant : ℚ)
  deriving DecidableEq, Repr

inductive RecoveryMark where
  | eligible
  | inFlight
  deriving DecidableEq, Repr

/-- `ExactHopInspection` -/
structure Inspection where
  backend : Backend
  menuModel : String
  sourceId : Option String
  modelId : Option String
  source : Option Source
  configurationEligible : Bool
  inventoryMember : Bool
  supplyEligible : Bool
  runnable : Bool
  structuralBlocker : Bool
  reason : Option String
  retryAt : Option RetryTime
  backoff : Bool
  recovery : Option RecoveryMark
  cooldown : Bool
  cooldownReason : Option String
  deriving DecidableEq, Repr

/-- The Source waits for the user. -/
def SourceState.blocked : SourceState → Bool
  | .needsAction _ | .error _ => true
  | _ => false

def SourceState.isCooldown : SourceState → Bool
  | .cooldown _ _ => true
  | _ => false

def Inspection.temporaryBlocker (i : Inspection) : Bool :=
  i.source.any (fun s => !s.state.blocked) && i.supplyEligible && !i.structuralBlocker &&
    (i.backoff || i.cooldown || i.recovery = some .inFlight)

section Inspect

variable (instant : String → ℚ) (now : Option ℚ) (unavailable : List String)

/-- `source_retry_ready` -/
def sourceRetryReady (source : Source) : Bool :=
  match persistedRetry instant source, now with
  | some retryAt, some now => retryAt ≤ now
  | _, _ => false

/-- `source_runnable` -/
def sourceRunnable (source : Source) (modelSupported : Bool) : Bool :=
  modelSupported && source.id ∉ unavailable &&
    (source.state = .active || source.state = .standby || sourceRetryReady instant now source)

/-- The part of an inspection that the live annotation of the Source decides. -/
structure Live where
  runnable : Bool
  reason : Option String
  retryAt : Option RetryTime
  backoff : Bool
  recovery : Option RecoveryMark
  cooldown : Bool
  cooldownReason : Option String
  deriving DecidableEq, Repr

/-- The retired cooldown is the one that the Source still has. -/
def retiredNow (source : Source) (note : Annotation) : Bool :=
  match source.state with
  | .cooldown retryAt detailKey => note.retiredCooldown = some (retryAt, detailKey)
  | _ => false

/-- What an annotation changes of a hop that nothing else blocks. -/
def annotated (source : Source) (note : Annotation) (live : Live) : Live :=
  let retired := live.cooldown && retiredNow source note
  let live := if retired then { live with cooldown := false, cooldownReason := none } else live
  let live :=
    if note.reason ≠ "recovery" ∧ (note.reason ≠ "network" ∨ live.cooldown = false ∨
      sourceRetryReady instant now source = true) then
      { live with cooldownReason := some note.reason }
    else live
  if note.reason = "recovery" then
    if retired then { live with runnable := true, retryAt := none } else live
  else
    match note.retryAt with
    | some retryAt =>
        let backoff := note.reason = "network" && !live.cooldown
        { live with
          runnable := false
          retryAt := some (.projected retryAt)
          backoff
          cooldown := !backoff
          reason := if backoff then some "models.source.backoff.connection_failed" else live.reason }
    | none =>
        { live with
          recovery := some (if note.inFlight then .inFlight else .eligible)
          runnable := !note.inFlight
          cooldown := false
          retryAt := none }

/-- The Source lists the model, or passes any model through. -/
def modelSupported (source : Source) (modelId : String) : Bool :=
  (source.models.any fun m => m.id = modelId && !m.retired) ||
    (sourceSupportsPassthrough source && !sourceModelRetired source modelId)

def supplyEligible (source : Source) (backend : Backend) (modelId : String)
    (supplyChannel : Option Channel) : Bool :=
  sourceEligibleForBackend source backend && modelSupported source modelId &&
    supplyChannel.all fun c => source.supplyChannel = c

def structuralBlocker (source : Source) (backend : Backend) (modelId : String) : Bool :=
  !modelSupported source modelId || !sourceEligibleForBackend source backend ||
    source.id ∈ unavailable

/-- What the persisted state of the Source alone says of a hop. -/
def persistedLive (source : Source) (backend : Backend) (modelId : String)
    (supplyChannel : Option Channel) : Live where
  runnable := supplyEligible source backend modelId supplyChannel &&
    sourceRunnable instant now unavailable source (modelSupported source modelId)
  reason :=
    if modelSupported source modelId = false ∨ sourceEligibleForBackend source backend = false then
      some "model_unsupported"
    else if source.id ∈ unavailable then some "native_cli_unavailable"
    else
      match source.state with
      | .needsAction key | .error key => some key
      | _ => none
  retryAt :=
    match source.state with
    | .cooldown retryAt _ => retryAt.map RetryTime.persisted
    | _ => none
  backoff := false
  recovery := none
  cooldown := source.state.isCooldown
  cooldownReason :=
    match source.state with
    | .cooldown _ key => some ((key.map CooldownKey.tail).getD "")
    | _ => none

/-- The annotation of a hub Source. -/
def liveAnnotation (annotations : List (String × Annotation)) (source : Source) :
    Option Annotation :=
  if source.supplyChannel = .hub then (annotations.find? fun a => a.1 = source.id).map Prod.snd
  else none

/-- The inspection of a hop whose Source is configured. -/
def inspectSource (source : Source) (backend : Backend) (modelId : String)
    (supplyChannel : Option Channel) (annotations : List (String × Annotation)) : Live :=
  let live := persistedLive instant now unavailable source backend modelId supplyChannel
  match liveAnnotation annotations source with
  | some note =>
      if supplyEligible source backend modelId supplyChannel = true ∧
        source.state.blocked = false ∧ structuralBlocker unavailable source backend modelId = false then
        annotated instant now source note live
      else live
  | none => live

/-- `inspect_exact_hop` -/
def inspectExactHop (config : Config) (backend : Backend) (menuModel : String) (hop : Option Hop)
    (supplyChannel : Option Channel) (annotations : List (String × Annotation)) : Inspection :=
  match hop with
  | none =>
      { backend, menuModel, sourceId := none, modelId := none, source := none,
        configurationEligible := false, inventoryMember := false, supplyEligible := false,
        runnable := false, structuralBlocker := true, reason := some "route_unconfigured",
        retryAt := none, backoff := false, recovery := none, cooldown := false,
        cooldownReason := none }
  | some hop =>
      match config.sources.find? fun s => s.id = hop.sourceId with
      | none =>
          { backend, menuModel, sourceId := some hop.sourceId, modelId := some hop.modelId,
            source := none, configurationEligible := false, inventoryMember := false,
            supplyEligible := false, runnable := false, structuralBlocker := true,
            reason := some "source_missing", retryAt := none, backoff := false, recovery := none,
            cooldown := false, cooldownReason := none }
      | some source =>
          let live :=
            inspectSource instant now unavailable source backend hop.modelId supplyChannel annotations
          { backend
            menuModel
            sourceId := some source.id
            modelId := some hop.modelId
            source := some source
            configurationEligible := sourceEligibleForBackend source backend
            inventoryMember := source.models.any fun m => m.id = hop.modelId && !m.retired
            supplyEligible := supplyEligible source backend hop.modelId supplyChannel
            runnable := live.runnable
            structuralBlocker := structuralBlocker unavailable source backend hop.modelId
            reason := live.reason
            retryAt := live.retryAt
            backoff := live.backoff
            recovery := live.recovery
            cooldown := live.cooldown
            cooldownReason := live.cooldownReason }

end Inspect

/-! ## A turn -/

inductive SupplyStatus where
  | ok
  | degraded
  | waiting
  | interrupted
  deriving DecidableEq, Repr

/-- `_supply_status` -/
def supplyStatus (inspections : List Inspection) : SupplyStatus :=
  if inspections = [] then .interrupted
  else if inspections.any Inspection.runnable then
    if inspections.all Inspection.runnable then .ok else .degraded
  else if inspections.all Inspection.temporaryBlocker then .waiting
  else .interrupted

/-- The hops that count for the supply status under a restriction to one channel. -/
def counted (supplyChannel : Option Channel) (i : Inspection) : Bool :=
  supplyChannel = none || i.source = none ||
    i.source.any (fun s => some s.supplyChannel = supplyChannel || s.state.blocked) ||
    i.structuralBlocker

inductive ResolutionChannel where
  | direct
  | supplied (channel : Channel)
  | unavailable
  deriving DecidableEq, Repr

/-- `ModelHubTurnResolution` -/
structure TurnResolution where
  channel : ResolutionChannel
  requestedModel : String
  targetModel : String
  source : Option Source
  manualOverride : Option Route
  routeOrigin : Option RouteOrigin
  cacheTtl : Option CacheTtl
  cacheTtlWire : Bool
  candidateHops : List Inspection
  projectableHops : List Inspection
  inspectedHops : List Inspection
  /-- Each id once; the order of the set is not modelled. -/
  unsupportedSourceIds : List String
  routeReason : Option String
  recoverableSourceIds : List String
  supplyStatus : Option SupplyStatus
  deriving DecidableEq, Repr

section Turn

variable (claudeModelId : String → Option (String × List Nat × Option Nat))
variable (gptFrom56 : String → Bool) (instant : String → ℚ)

/-- `is_official_openai_responses_route` -/
def isOfficialOpenaiResponsesRoute (config : Config) (backend : Backend) (hops : List Hop) : Bool :=
  backend = .vibey && hops ≠ [] && hops.all fun hop =>
    (config.sources.find? fun s => s.id = hop.sourceId).any fun s =>
      s.vendor = "openai" && s.protocol = .openaiResponses && s.baseUrl = none &&
        gptFrom56 hop.modelId

/-- `validate_cache_ttl_override` does not raise. -/
def validCacheTtl (config : Config) (backend : Backend) (route : Route) : Bool :=
  match route.cacheTtl with
  | none => true
  | some ttl =>
      let official := isOfficialOpenaiResponsesRoute gptFrom56 config backend route.hops
      let anthropic := route.hops.all fun hop =>
        (config.sources.find? fun s => s.id = hop.sourceId).any fun s =>
          s.vendor = "anthropic" && s.protocol = .anthropic && s.baseUrl = none
      backend = .vibey && route.hops ≠ [] && !(ttl = .twelveHours && !official) &&
        !(official && ttl ≠ .thirtyMinutes && ttl ≠ .twelveHours) && !(anthropic && ttl ≠ .oneHour)

/-- `resolve_model_hub_turn`, of a requested model that is stripped. -/
def resolveModelHubTurn (config : Config) (backend : Backend) (requestedModel : String)
    (now : Option ℚ) (unavailable : List String) (supplyChannel : Option Channel)
    (annotations : List (String × Annotation)) : TurnResolution :=
  if (config.agents backend).mode = .direct then
    { channel := .direct, requestedModel, targetModel := requestedModel, source := none,
      manualOverride := none, routeOrigin := none, cacheTtl := none, cacheTtlWire := false,
      candidateHops := [], projectableHops := [], inspectedHops := [], unsupportedSourceIds := [],
      routeReason := none, recoverableSourceIds := [], supplyStatus := none }
  else if backend = .opencode ∧ requestedModel = "" then
    { channel := .unavailable, requestedModel, targetModel := requestedModel, source := none,
      manualOverride := none, routeOrigin := none, cacheTtl := none, cacheTtlWire := false,
      candidateHops := [], projectableHops := [], inspectedHops := [], unsupportedSourceIds := [],
      routeReason := none, recoverableSourceIds := [], supplyStatus := some .interrupted }
  else
    let route := effectiveModelRoute claudeModelId config backend requestedModel
    let inspect := fun hop => inspectExactHop instant now unavailable config backend requestedModel
      hop supplyChannel annotations
    let inspected := route.hops.map fun hop => inspect (some hop)
    let routeReason := if route.hops = [] then (inspect none).reason else none
    let found := inspected.filter fun i => i.source.isSome
    let runnable := found.filter Inspection.runnable
    let first := runnable.head?
    let target := match first with
      | some i => i.modelId
      | none =>
          match inspected.head? with
          | some i => i.modelId
          | none => some requestedModel
    let cacheTtl :=
      match route.manualOverride with
      | some override => if validCacheTtl gptFrom56 config backend override then route.cacheTtl else none
      | none => route.cacheTtl
    { channel :=
        match first.bind Inspection.source with
        | some source => .supplied source.supplyChannel
        | none => .unavailable
      requestedModel
      targetModel := (target.filter (· ≠ "")).getD requestedModel
      source := first.bind Inspection.source
      manualOverride := route.manualOverride
      routeOrigin := route.routeOrigin
      cacheTtl
      cacheTtlWire := (cacheTtl = some .thirtyMinutes || cacheTtl = some .twelveHours) &&
        isOfficialOpenaiResponsesRoute gptFrom56 config backend route.hops
      candidateHops := runnable
      projectableHops := found.filter fun i => i.configurationEligible &&
        supplyChannel.all fun c => i.source.any fun s => s.supplyChannel = c
      inspectedHops := inspected
      unsupportedSourceIds := ((found.filter fun i => i.reason = some "model_unsupported").filterMap
        Inspection.sourceId).dedup
      routeReason
      recoverableSourceIds := (found.filterMap Inspection.source).filterMap fun s =>
        if s.state.isCooldown ∧ sourceRetryReady instant now s = true then some s.id else none
      supplyStatus := some (supplyStatus (inspected.filter (counted supplyChannel))) }

end Turn

end Avibe.Hub
