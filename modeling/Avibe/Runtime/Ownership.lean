import Avibe.Deliveries.Rows
import Avibe.Lib.Checked
import Avibe.Lib.Dict
import Avibe.Transcript.Store

/-!
# Who owns a backend resource

`runtime_ownership.py` decides from the durable rows of one database snapshot whether a backend
resource may be reclaimed. `derive` goes over the Deliveries, Turns, Activities and Runs of a
target and notes for each what it means for the Session it belongs to, or for the target itself;
the worst note is the disposition of the target. `snapshotMany` reads the rows of several targets
at once.

A text of a row that may be null is an `Option`; `orEmpty` is `str(value or "")`.
-/

namespace Avibe.Ownership

open Checked
open Deliveries (DeliveryState OrderingRole)
open Transcript (strip)

/-! ## Rows and targets -/

def orEmpty (value : Option String) : String := value.getD ""

/-- `str(value)` -/
def pyStr (value : Option String) : String := value.getD "None"

/-- `RuntimeSessionBinding` -/
structure Binding where
  sessionId : String
  workdir : Option String
  activityRuntimeKeys : List String
  fallbackRouteKeys : List String := []

/-- `RuntimeResourceTarget` -/
structure Target where
  backend : String
  resourceKey : String
  bindings : List Binding := []
  knownActivityRuntimeKeys : List String := []
  knownFallbackRouteKeys : List String := []
  durableSessionWorkdir : Option String := none
  includeAllBackendSessions : Bool := false
  mapsAllBackendActivities : Bool := false
  mapsAllBackendFallbackRuns : Bool := false

structure SessionRow where
  id : String
  agentBackend : String
  workdir : Option String

structure DeliveryRow where
  id : String
  sessionId : String
  state : Option String
  turnId : Option String := none
  turnRole : Option String := none
  turnPosition : Option Int := none

structure TurnRow where
  id : String
  sessionId : String
  state : Option String
  initialDeliveryId : Option String := none

/-- The activity of a payload; an absent text is empty. -/
structure ActivityInfo where
  backend : Option String
  runtimeKey : String := ""
  id : String := ""
  sessionId : String := ""

/-- What the JSON text of a record holds. -/
inductive Payload where
  | malformed
  | notObject
  | object (phase : String) (activity : Option ActivityInfo)

def Payload.isJson : Payload → Bool
  | .malformed => false
  | _ => true

structure ActivityRow where
  id : String
  recordType : String := "session_activity"
  payload : Payload

structure RunRow where
  id : String
  runType : Option String
  status : String
  agentId : Option String := none
  agentName : Option String := none
  agentBackend : Option String := none
  sessionId : Option String := none
  legacySessionKey : Option String := none
  deliveryId : Option String := none
  pid : Option Int := none

structure AgentRow where
  id : String
  name : String
  backend : String

/-- A run with the backends that its Agent and its Session have now. -/
structure JoinedRun where
  run : RunRow
  resolvedAgentBackend : Option String := none
  resolvedSessionBackend : Option String := none

/-! ## Dispositions -/

inductive Disposition where
  | active
  | transitioning
  | runnable
  | reclaimable
  | unknown
  deriving DecidableEq, Repr

def Disposition.value : Disposition → String
  | .active => "active"
  | .transitioning => "transitioning"
  | .runnable => "runnable"
  | .reclaimable => "reclaimable"
  | .unknown => "unknown"

/-- `_DISPOSITION_PRIORITY` -/
def Disposition.priority : Disposition → Nat
  | .reclaimable => 0
  | .runnable => 1
  | .transitioning => 2
  | .active => 3
  | .unknown => 4

/-- `_safest`; of two with one priority Python's `max` keeps the first. -/
def safest : List Disposition → Disposition
  | [] => .reclaimable
  | d :: ds => ds.foldl (fun best d => if best.priority < d.priority then d else best) d

def Disposition.blocks : Disposition → Bool
  | .active | .transitioning | .unknown => true
  | _ => false

/-- `SessionRuntimeOwnershipSnapshot` -/
structure SessionSnapshot where
  sessionId : String
  disposition : Disposition
  deliveryIds : List String
  turnIds : List String
  activeActivityIds : List String
  fallbackRunIds : List String
  reasons : List String

/-- `RuntimeTargetOwnershipSnapshot` -/
structure TargetSnapshot where
  backend : String
  resourceKey : String
  activityRuntimeKeys : List String
  sessions : List SessionSnapshot
  sessionlessActiveActivityIds : List String
  sessionlessFallbackRunIds : List String
  disposition : Disposition
  reasons : List String := []

/-- `blocks_reclamation` -/
def TargetSnapshot.blocksReclamation (s : TargetSnapshot) : Bool := s.disposition.blocks

/-! ## Notes -/

/-- What was found for one Session. -/
structure Notes where
  facts : List Disposition := []
  reasons : List String := []
  deliveryIds : List String := []
  turnIds : List String := []
  activityIds : List String := []
  runIds : List String := []

/-- The variables of `_derive`. -/
structure Derivation where
  sessions : List (String × Notes)
  targetFacts : List Disposition := []
  targetReasons : List String := []
  sessionlessActivityIds : List String := []
  sessionlessRunIds : List String := []
  pairedWaitingTurnIds : List String := []

/-- `session_id in facts` -/
def Derivation.knows (d : Derivation) (sessionId : String) : Bool :=
  (Dict.get d.sessions sessionId).isSome

/-- Adds a fact, its reason and what `keep` adds to the notes of a Session; a Session that is not
there is a `KeyError`. -/
def Derivation.note (d : Derivation) (sessionId : String) (fact : Disposition) (reason : String)
    (keep : Notes → Notes) : Except String Derivation := do
  let notes ← found (Dict.get d.sessions sessionId) "KeyError"
  let notes := keep { notes with facts := notes.facts ++ [fact], reasons := notes.reasons ++ [reason] }
  return { d with sessions := Dict.set d.sessions sessionId notes }

def Derivation.noteTarget (d : Derivation) (fact : Disposition) (reason : String) : Derivation :=
  { d with targetFacts := d.targetFacts ++ [fact], targetReasons := d.targetReasons ++ [reason] }

/-! ## Deliveries and Turns -/

/-- `DELIVERY_STATE_MATRIX` by name. -/
def deliveryState? : String → Option DeliveryState
  | "reserved" => some .reserved
  | "queued" => some .queued
  | "claimed" => some .claimed
  | "pending_steer" => some .pendingSteer
  | "steering" => some .steering
  | "interrupt_waiting" => some .interruptWaiting
  | "reconciling_steer" => some .reconcilingSteer
  | "accepted" => some .accepted
  | "retired" => some .retired
  | _ => none

/-- The ordering role that `policy_for` gives a state; none for its `ValueError`. -/
def orderingFor (state : String) : Option OrderingRole :=
  (deliveryState? state).map DeliveryState.ordering

/-- What a Delivery in this state means, the waiting one apart. -/
def deliveryDisposition (state : String) : Disposition :=
  match orderingFor state with
  | none => .unknown
  | some .turnOwned => .active
  | some .fence => .transitioning
  | some .claimable => .runnable
  | some .terminal => .reclaimable

/-- The Turns in the state `waiting`, by id. -/
def waitingTurns (turns : List TurnRow) : List (String × TurnRow) :=
  (turns.filter fun t => orEmpty t.state = "waiting").foldl (fun d t => Dict.set d t.id t) []

/-- The Delivery is the initial one of the waiting Turn it names. -/
def exactPair (waiting : List (String × TurnRow)) (row : DeliveryRow) : Bool :=
  match Dict.get waiting (orEmpty row.turnId) with
  | none => false
  | some turn =>
      turn.sessionId = row.sessionId && orEmpty turn.initialDeliveryId = row.id &&
        orEmpty row.turnRole = "initial" && row.turnPosition = some 0

def deliveryStep (waiting : List (String × TurnRow)) (d : Derivation) (row : DeliveryRow) :
    Except String Derivation :=
  let state := pyStr row.state
  let keep (n : Notes) : Notes := { n with deliveryIds := n.deliveryIds ++ [row.id] }
  if state = "interrupt_waiting" then
    if exactPair waiting row then do
      let d ← d.note row.sessionId .transitioning ("delivery:" ++ state) keep
      return { d with pairedWaitingTurnIds := d.pairedWaitingTurnIds ++ [orEmpty row.turnId] }
    else d.note row.sessionId .unknown ("delivery:" ++ state) keep
  else d.note row.sessionId (deliveryDisposition state) ("delivery:" ++ state) keep

def turnDisposition (paired : List String) (row : TurnRow) : Disposition :=
  let state := pyStr row.state
  if state = "starting" ∨ state = "active" then .active
  else if state = "waiting" then
    if row.id ∈ paired then .transitioning else .unknown
  else .unknown

def turnStep (d : Derivation) (row : TurnRow) : Except String Derivation :=
  d.note row.sessionId (turnDisposition d.pairedWaitingTurnIds row) ("turn:" ++ pyStr row.state)
    fun n => { n with turnIds := n.turnIds ++ [row.id] }

/-! ## Activities -/

def Target.bindingActivityKeys (t : Target) : List String :=
  t.bindings.flatMap (·.activityRuntimeKeys)

/-- `target_activity_keys` -/
def Target.activityKeys (t : Target) : List String :=
  t.bindingActivityKeys ++ if t.mapsAllBackendActivities then t.knownActivityRuntimeKeys else []

/-- `known_activity_keys` -/
def Target.allActivityKeys (t : Target) : List String := t.knownActivityRuntimeKeys ++ t.activityKeys

def activePhase : String := "active"

def knownActivityPhases : List String := [activePhase, "awaiting_output", "terminal"]

def activityStep (t : Target) (d : Derivation) (row : ActivityRow) : Except String Derivation :=
  match row.payload with
  | .malformed | .notObject => .ok (d.noteTarget .unknown "activity:invalid_payload")
  | .object _ none => .ok (d.noteTarget .unknown "activity:invalid_shape")
  | .object phase (some activity) =>
      let key := activity.runtimeKey
      let activityId := if activity.id = "" then row.id else activity.id
      let sessionId := activity.sessionId
      if phase ∉ knownActivityPhases then
        if ¬ t.mapsAllBackendActivities ∧ key ∉ t.allActivityKeys ∧ ¬ d.knows sessionId then .ok d
        else .ok (d.noteTarget .unknown ("activity:" ++ activityId ++ ":unknown_phase"))
      else if phase ≠ activePhase then .ok d
      else if ¬ t.mapsAllBackendActivities ∧ key ∉ t.allActivityKeys then
        .ok (d.noteTarget .unknown ("activity:" ++ activityId ++ ":unmapped"))
      else if key ∉ t.activityKeys ∧ ¬ t.mapsAllBackendActivities ∧ ¬ d.knows sessionId then .ok d
      else if sessionId ≠ "" then
        if ¬ d.knows sessionId then
          .ok (d.noteTarget .unknown ("activity:" ++ activityId ++ ":missing_session"))
        else
          d.note sessionId .active ("activity:" ++ activityId ++ ":active")
            fun n => { n with activityIds := n.activityIds ++ [activityId] }
      else
        .ok { d.noteTarget .active ("activity:" ++ activityId ++ ":sessionless_active") with
          sessionlessActivityIds := d.sessionlessActivityIds ++ [activityId] }

/-! ## Runs -/

/-- `RUN_STATUS_ALIASES` -/
def runStatusAlias? : String → Option String
  | "pending" => some "queued"
  | "queued" => some "queued"
  | "processing" => some "running"
  | "running" => some "running"
  | "completed" => some "succeeded"
  | "succeeded" => some "succeeded"
  | "failed" => some "failed"
  | "canceled" => some "canceled"
  | "cancelled" => some "canceled"
  | _ => none

/-- `normalize_run_status` -/
def normalizeRunStatus (status : String) : String :=
  let stripped := strip status
  (runStatusAlias? stripped).getD (if stripped = "" then "queued" else stripped)

/-- `EXECUTION_RUN_TYPES` -/
def executionRunTypes : List String :=
  ["task_run", "hook_send", "agent_run", "scheduled", "watch", "webhook", "task_escalation"]

def runDisposition (row : RunRow) : Disposition :=
  let status := normalizeRunStatus row.status
  if orEmpty row.runType ∉ executionRunTypes then .unknown
  else if status = "queued" then .runnable
  else if status = "running" then
    if row.pid.isSome then .active else .transitioning
  else .unknown

/-- `route_to_session` and `ambiguous_route_keys` -/
structure Routes where
  toSession : List (String × String) := []
  ambiguous : List String := []

def Routes.add (sessionId : Option String) (r : Routes) (routeKey : String) : Routes :=
  match sessionId with
  | none => r
  | some matched =>
      match Dict.get r.toSession routeKey with
      | some existing =>
          if existing ≠ matched then
            { toSession := r.toSession.filter (·.1 ≠ routeKey), ambiguous := r.ambiguous ++ [routeKey] }
          else if routeKey ∉ r.ambiguous then
            { r with toSession := Dict.set r.toSession routeKey matched }
          else r
      | none =>
          if routeKey ∉ r.ambiguous then
            { r with toSession := Dict.set r.toSession routeKey matched }
          else r

def Target.routes (t : Target) (d : Derivation) : Routes :=
  t.bindings.foldl
    (fun r b => b.fallbackRouteKeys.foldl
      (Routes.add (if d.knows b.sessionId then some b.sessionId else none)) r) {}

/-- `target_route_keys` -/
def Target.routeKeys (t : Target) : List String := t.bindings.flatMap (·.fallbackRouteKeys)

/-- `known_route_keys` -/
def Target.allRouteKeys (t : Target) : List String := t.knownFallbackRouteKeys ++ t.routeKeys

/-- The run is already represented by a Delivery. -/
def JoinedRun.represented (row : JoinedRun) (delivered : List String) : Bool :=
  orEmpty row.run.deliveryId ≠ "" && orEmpty row.run.deliveryId ∈ delivered

def Derivation.noteRun (d : Derivation) (runId : String) (fact : Disposition) (reason : String) :
    Derivation :=
  { d.noteTarget fact reason with sessionlessRunIds := d.sessionlessRunIds ++ [runId] }

/-- A run whose Session is not one of the target's. -/
def detachedStep (t : Target) (d : Derivation) (row : JoinedRun) : Derivation :=
  let disposition := runDisposition row.run
  let routeKey := orEmpty row.run.legacySessionKey
  let reason := "run:" ++ row.run.id ++ ":detached_session:" ++ disposition.value
  if strip (orEmpty row.resolvedSessionBackend) = t.backend then d
  else if t.mapsAllBackendFallbackRuns then d.noteRun row.run.id disposition reason
  else if routeKey ∈ t.routeKeys then d.noteRun row.run.id disposition reason
  else if routeKey ∉ t.allRouteKeys then
    d.noteTarget .unknown ("run:" ++ row.run.id ++ ":unmapped_route")
  else d

/-- A run without a Session. -/
def sessionlessStep (t : Target) (routes : Routes) (d : Derivation) (row : JoinedRun) :
    Except String Derivation :=
  let disposition := runDisposition row.run
  let routeKey := orEmpty row.run.legacySessionKey
  let reason := "run:" ++ row.run.id ++ ":sessionless:" ++ disposition.value
  if t.mapsAllBackendFallbackRuns then .ok (d.noteRun row.run.id disposition reason)
  else if routeKey ∈ t.routeKeys then
    if routeKey ∈ routes.ambiguous then
      .ok (d.noteTarget .unknown ("run:" ++ row.run.id ++ ":ambiguous_route"))
    else
      match Dict.get routes.toSession routeKey with
      | some mapped =>
          { d with sessionlessRunIds := d.sessionlessRunIds ++ [row.run.id] }.note mapped disposition
            reason fun n => { n with runIds := n.runIds ++ [row.run.id] }
      | none => .ok (d.noteRun row.run.id disposition reason)
  else if routeKey ∈ t.allRouteKeys then .ok d
  else .ok (d.noteTarget .unknown ("run:" ++ row.run.id ++ ":unmapped_route"))

def runStep (t : Target) (routes : Routes) (delivered : List String) (d : Derivation)
    (row : JoinedRun) : Except String Derivation :=
  let sessionId := orEmpty row.run.sessionId
  if row.represented delivered then .ok d
  else if sessionId ≠ "" then
    if ¬ d.knows sessionId then .ok (detachedStep t d row)
    else
      d.note sessionId (runDisposition row.run)
        ("run:" ++ row.run.id ++ ":" ++ (runDisposition row.run).value)
        fun n => { n with runIds := n.runIds ++ [row.run.id] }
  else sessionlessStep t routes d row

/-! ## The snapshot of a target -/

/-- The rows that `_derive` is given. -/
structure Rows where
  sessions : List SessionRow
  deliveries : List DeliveryRow
  turns : List TurnRow
  activities : List ActivityRow
  runs : List JoinedRun
  delivered : List String

def Rows.start (rows : Rows) : Derivation where
  sessions := (rows.sessions.map (·.id)).eraseDups.map fun id => (id, {})

def Notes.snapshot (sessionId : String) (n : Notes) : SessionSnapshot where
  sessionId := sessionId
  disposition := safest n.facts
  deliveryIds := n.deliveryIds
  turnIds := n.turnIds
  activeActivityIds := n.activityIds
  fallbackRunIds := n.runIds
  reasons := n.reasons

def Derivation.snapshot (t : Target) (d : Derivation) : TargetSnapshot :=
  let sessions := d.sessions.map fun e => e.2.snapshot e.1
  { backend := t.backend
    resourceKey := t.resourceKey
    activityRuntimeKeys := t.activityKeys.eraseDups.mergeSort fun a b => decide (a ≤ b)
    sessions
    sessionlessActiveActivityIds := d.sessionlessActivityIds
    sessionlessFallbackRunIds := d.sessionlessRunIds
    disposition := safest (d.targetFacts ++ sessions.map (·.disposition))
    reasons := d.targetReasons }

/-- `RuntimeOwnershipProvider._derive` -/
def derive (t : Target) (rows : Rows) : Except String TargetSnapshot := do
  let d ← rows.deliveries.foldlM (deliveryStep (waitingTurns rows.turns)) rows.start
  let d ← rows.turns.foldlM turnStep d
  let d ← rows.activities.foldlM (activityStep t) d
  let d ← rows.runs.foldlM (runStep t (t.routes rows.start) rows.delivered) d
  return d.snapshot t

/-! ## Reading the rows -/

/-- The tables that are read, each in the order of its query. A Session is found by its primary
key. -/
structure Database where
  sessions : List SessionRow
  deliveries : List DeliveryRow
  turns : List TurnRow
  records : List ActivityRow
  runs : List RunRow
  agents : List AgentRow
  keyed : (sessions.map (·.id)).Nodup

/-- `_TERMINAL_DELIVERY_STATES` -/
def terminalDeliveryStates : List String := ["accepted", "retired"]

/-- `_TERMINAL_RAW_RUN_STATUSES` -/
def terminalRawRunStatuses : List String := ["completed", "succeeded", "failed", "canceled", "cancelled"]

def Target.normalizedBackend (t : Target) : String := strip t.backend

def Target.bindingIds (t : Target) : List String := t.bindings.map (strip ·.sessionId)

/-- What is checked of each target before anything is read. -/
def Target.check (backend : String) (t : Target) : Except String Unit := do
  require (t.normalizedBackend ≠ "") "runtime target requires backend and resource_key"
  require (t.normalizedBackend = backend) "runtime ownership batch requires one backend"
  require (strip t.resourceKey ≠ "") "runtime target requires backend and resource_key"
  require (∀ id ∈ t.bindingIds, id ≠ "") "runtime binding requires an exact session_id"
  require (t.bindingIds.Nodup) "runtime bindings require unique session_ids"

/-- The Sessions that the query for all targets together asks for. -/
def asked (backend : String) (targets : List Target) (row : SessionRow) : Bool :=
  let all := targets.any (·.includeAllBackendSessions)
  (all && row.agentBackend = backend) ||
    row.id ∈ targets.flatMap Target.bindingIds ||
    (!all && row.agentBackend = backend &&
      (targets.filterMap (·.durableSessionWorkdir)).any fun w => row.workdir = some w)

/-- `all_session_by_id.get(id)` -/
def sessionById (rows : List SessionRow) (id : String) : Option SessionRow := rows.find? (·.id = id)

/-- The Session rows of one target among those that were read. -/
def Target.sessionRows (backend : String) (t : Target) (rows : List SessionRow) : List SessionRow :=
  if t.includeAllBackendSessions then rows.filter (·.agentBackend = backend)
  else
    match t.durableSessionWorkdir with
    | some w => rows.filter fun row => row.agentBackend = backend && row.workdir = some w
    | none =>
        t.bindingIds.filterMap fun id =>
          (sessionById rows id).filter fun row => row.agentBackend = backend

def Target.checkBindings (t : Target) (rows : List SessionRow) : Except String Unit :=
  require (∀ b ∈ t.bindings, (sessionById rows b.sessionId).all (·.workdir = b.workdir) = true)
    "runtime binding workdir does not match target"

/-- The Activities of a backend. `json_extract` fails on a text that is not JSON. -/
def Database.activityRows (db : Database) (backend : String) : Except String (List ActivityRow) := do
  let records := db.records.filter fun r => r.recordType = "session_activity"
  require (∀ r ∈ records, r.payload.isJson = true) "malformed JSON"
  return records.filter fun r =>
    match r.payload with
    | .object _ (some activity) => activity.backend = some backend
    | _ => false

/-- SQLite's `trim`, which removes spaces only. -/
def sqlTrim (text : String) : String :=
  String.ofList ((text.toList.dropWhile (· = ' ')).reverse.dropWhile (· = ' ')).reverse

/-- The backends of the Agents that the join finds for a run; one row without any. -/
def Database.agentBackends (db : Database) (run : RunRow) : List (Option String) :=
  let agents := db.agents.filter fun a =>
    match run.agentId with
    | some id => a.id = id
    | none => run.agentName = some a.name
  if agents.isEmpty then [none] else agents.map fun a => some a.backend

def Database.runRows (db : Database) (backend : String) : List JoinedRun :=
  let live := db.runs.filter fun run =>
    run.status ∉ terminalRawRunStatuses ∧ run.runType ≠ some "watch_runtime"
  let joined := live.flatMap fun run =>
    (db.agentBackends run).map fun agent =>
      { run
        resolvedAgentBackend := agent
        resolvedSessionBackend :=
          run.sessionId.bind fun id => (sessionById db.sessions id).map (·.agentBackend) }
  joined.filter fun row =>
    row.run.agentBackend = some backend ∨
      ((row.run.agentBackend.all fun b => sqlTrim b = "") ∧
        (row.resolvedAgentBackend = some backend ∨ row.resolvedSessionBackend = some backend ∨
          row.run.agentName = some backend))

/-- `represented_delivery_ids` -/
def Database.delivered (db : Database) (runs : List JoinedRun) : List String :=
  let named := runs.filterMap fun row => row.run.deliveryId.filter (· ≠ "")
  (db.deliveries.map (·.id)).filter (· ∈ named)

/-- The rows of a target among those that were read for all. -/
def Database.rowsOf (db : Database) (sessionIds : List String) (activities : List ActivityRow)
    (runs : List JoinedRun) (sessions : List SessionRow) : Rows :=
  let deliveries := db.deliveries.filter fun row =>
    row.sessionId ∈ sessionIds && (row.state.all fun s => s ∉ terminalDeliveryStates)
  let turns := db.turns.filter fun row =>
    row.sessionId ∈ sessionIds && row.state ≠ some "terminal"
  let own := sessions.map (·.id)
  { sessions
    deliveries := deliveries.filter (·.sessionId ∈ own)
    turns := turns.filter (·.sessionId ∈ own)
    activities
    runs
    delivered := db.delivered runs }

/-- `_snapshot_many` -/
def snapshotManyChecked (db : Database) (targets : List Target) :
    Except String (List TargetSnapshot) := do
  let backend := (targets.map Target.normalizedBackend).headD ""
  targets.forM (Target.check backend)
  let rows := db.sessions.filter (asked backend targets)
  targets.forM (·.checkBindings rows)
  let sessionIds := targets.flatMap fun t => (t.sessionRows backend rows).map (·.id)
  let activities ← db.activityRows backend
  let runs := db.runRows backend
  targets.mapM' fun t =>
    derive t (db.rowsOf sessionIds activities runs (t.sessionRows backend rows))

/-- `_provider_failure_snapshot` -/
def providerFailureSnapshot (t : Target) : TargetSnapshot where
  backend := t.backend
  resourceKey := t.resourceKey
  activityRuntimeKeys := t.knownActivityRuntimeKeys
  sessions := []
  sessionlessActiveActivityIds := []
  sessionlessFallbackRunIds := []
  disposition := .unknown
  reasons := ["provider_failure"]

/-- `snapshot_many` -/
def snapshotMany (db : Database) (targets : List Target) : List TargetSnapshot :=
  match snapshotManyChecked db targets with
  | .ok snapshots => snapshots
  | .error _ => targets.map providerFailureSnapshot

/-- `snapshot` -/
def snapshot (db : Database) (t : Target) : TargetSnapshot :=
  (snapshotMany db [t]).headD (providerFailureSnapshot t)

end Avibe.Ownership
