import Avibe.Deliveries.Statements

/-!
# Operations of the Delivery store

Submission, start claims, steer attempts, native receipts, acceptance and
retirement, as the store runs them inside one transaction. A caller passes the
version it read, so any version can arrive stale.

Three writes that the Session's Turn controller makes with `cas_delivery` itself
are here too: the claim of a control slot's successor, the returns to the queue,
and the failure-retry mark.
-/

namespace Avibe.Deliveries

open SortOn Txn

/-! ## Submission -/

/-- `native_dedupe_key`. -/
def nativeDedupeKey (platform : String) (nativeMessageId scopeId : Option String) :
    Option String :=
  let nativeId := strip (nativeMessageId.getD "")
  let scope := strip (scopeId.getD "")
  if nativeId = "" then none
  else if scope = "" then some s!"{platform}:{nativeId}"
  else some s!"{platform}:scope:{scope.length}:{scope}:{nativeId}"

def enqueueQueued (sha : Digest) (id : Id) (snapshot : Snapshot) (dispatchText : String)
    (now : Instant) : Db Delivery :=
  insertDelivery sha id snapshot.sessionId .p3 .queued snapshot dispatchText
    (nativeDedupeKey snapshot.platform snapshot.nativeMessageId snapshot.scopeId) none .none
    (some { kind := .submitted, time := now, priority := some .p3 }) now

/-! ## Column groups -/

/-- The attempt columns are cleared; a claim may keep the time it opened. -/
def Delivery.clearAttempt (openedAt : Option Instant) (d : Delivery) : Delivery :=
  { d with
    currentAttemptId := none
    currentAttemptKind := none
    currentTargetTurnId := none
    currentExpectedNativeTurnId := none
    currentReceiptOutcome := none
    currentReceipt := .empty
    currentAttemptOpenedAt := openedAt }

def Delivery.leaveTurn (d : Delivery) : Delivery :=
  { d with turnId := none, turnRole := none, turnPosition := none }

def Delivery.claim (turnId : Id) (position : Nat) (openedAt : Option Instant) (d : Delivery) :
    Delivery :=
  { d.clearAttempt openedAt with
    state := .claimed
    turnId := some turnId
    turnRole := some .initial
    turnPosition := some position }

def Delivery.steer (state : DeliveryState) (attemptId turnId : Id)
    (expectedNativeTurnId : Option String) (now : Instant) (d : Delivery) : Delivery :=
  { d with
    state := state
    currentAttemptId := some attemptId
    currentAttemptKind := some .steer
    currentTargetTurnId := some turnId
    currentExpectedNativeTurnId := expectedNativeTurnId
    currentReceiptOutcome := none
    currentReceipt := .empty
    currentAttemptOpenedAt := some now }

/-- The snapshot and the dispatch text leave the row for the Message. -/
def Delivery.materialize (messageId : Id) (now : Instant) (d : Delivery) : Delivery :=
  { d.clearAttempt none with
    state := .accepted
    messageId := some messageId
    snapshot := none
    dispatchText := none
    materializedAt := some now }

def Delivery.materializeSteer (messageId turnId : Id) (position : Nat) (now : Instant)
    (d : Delivery) : Delivery :=
  { d.materialize messageId now with
    turnId := some turnId
    turnRole := some .steer
    turnPosition := some position }

def Delivery.retire (now : Instant) (d : Delivery) : Delivery :=
  { d with state := .retired, retiredAt := some now }

/-- The columns of `record_definitive_attempt`. -/
def Delivery.settle (nextState : DeliveryState) (nextPriority : Option Priority)
    (nextTurnId : Option Id) (now : Instant) (d : Delivery) : Delivery :=
  let d' := { d.clearAttempt none with
    state := nextState
    currentTargetTurnId := nextTurnId
    priority := nextPriority.getD d.priority
    retiredAt := if nextState = .retired then some now else d.retiredAt }
  if nextState = .queued ∨ nextState = .reserved ∨ nextState = .retired then d'.leaveTurn else d'

/-! ## Starts -/

def openStartAttempt (sha : Digest) (id : Id) (expectedVersion : Nat) (turnId attemptId : Id)
    (now : Instant) : Db (Option Delivery) := do
  match ← getTurn turnId, ← getDelivery id with
  | some turn, some delivery =>
      if turn.state ≠ .starting ∨ turn.initialDeliveryId ≠ id then return none
      let text := delivery.dispatchText.getD ""
      let updated ← casTurn turnId turn.version [.starting] (fun t => { t with
        startAttemptId := some attemptId
        dispatchText := some text
        dispatchSha256 := some (sha.text text) }) now
      if updated.isNone then return none
      casDelivery id expectedVersion [.reserved, .queued, .interruptWaiting]
        (Delivery.claim turnId 0 (some now))
        { kind := .start, time := now, attemptId := some attemptId, turnId := some turnId
          outcome := some .opened } now
  | _, _ => return none

/-- The event of one row of `claim_start_batch`. -/
def claimedEvent (turnId attemptId : Id) (now : Instant) (position : Nat) : Event :=
  { kind := .start, time := now, attemptId := some attemptId, turnId := some turnId
    position := some position, outcome := some .claimed }

def claimStartBatch (sha : Digest) (turnId sessionId : Id) (backend : String)
    (deliveries : List (Id × Nat)) (dispatchText : String) (attemptId : Id) (now : Instant) :
    Db (List Delivery) := do
  match deliveries with
  | [] => throw (.valueError "a Turn requires at least one Delivery")
  | first :: _ =>
      let _ ← insertTurn sha turnId sessionId first.1 .starting backend attemptId
        (some dispatchText) now
      deliveries.zipIdx.mapM' fun entry =>
        casOrRaise "Delivery batch claim lost after writer reservation" entry.1.1 entry.1.2
          [.reserved, .queued, .interruptWaiting] (Delivery.claim turnId entry.2 none)
          (claimedEvent turnId attemptId now entry.2) now

/-- `turn` and `delivery` are the rows as the caller read them. -/
def activateWaitingSuccessor (sha : Digest) (turn : Turn) (delivery : Delivery)
    (attemptId : Id) (now : Instant) : Db (Option Turn) := do
  if turn.state ≠ .waiting ∨ delivery.state ≠ .interruptWaiting ∨
      delivery.turnId ≠ some turn.id then return none
  let text := delivery.dispatchText.getD ""
  let started ← casTurn turn.id turn.version [.waiting] (fun t => { t with
    state := .starting
    startAttemptId := some attemptId
    startReceiptOutcome := none
    startReceipt := .empty
    dispatchText := some text
    dispatchSha256 := some (sha.text text)
    startedAt := some now }) now
  if started.isNone then return none
  let _ ← casOrRaise "waiting successor Delivery claim lost" delivery.id delivery.version
    [.interruptWaiting] (fun d => { d with state := .claimed })
    { kind := .start, time := now, attemptId := some attemptId, turnId := some turn.id
      position := some 0, outcome := some .claimedAfterInterrupt } now
  return started

/-- The first value that is not empty. -/
def firstText (a b : Option String) : Option String := if a.getD "" = "" then b else a

/-- A persisted native id and an observed one that do not contradict each other. -/
def compatible (persisted observed : Option String) : Bool :=
  let persisted := strip (persisted.getD "")
  let observed := strip (observed.getD "")
  persisted = "" || observed = "" || persisted = observed

/-- `{"kind": "native_start", **_carried_receipt(turn), ...}`. -/
def nativeStartReceipt (carried : StartReceipt) (execution : Option Json) : StartReceipt :=
  { carried with
    kind := some "native_start"
    vibeyExecution := execution.or carried.vibeyExecution
    rest := "" }

def bindNativeStart (turnId : Id) (expectedVersion : Nat)
    (runtimeKey runtimeTurnId nativeTurnId : Option String) (execution : Option Json)
    (now : Instant) : Db (Option Turn) := do
  match ← getTurn turnId with
  | none => return none
  | some turn =>
      if compatible turn.runtimeKey runtimeKey && compatible turn.runtimeTurnId runtimeTurnId &&
          compatible turn.nativeTurnId nativeTurnId then
        casTurn turnId expectedVersion [.starting, .active] (fun t => { t with
          state := .active
          runtimeKey := firstText runtimeKey turn.runtimeKey
          runtimeTurnId := firstText runtimeTurnId turn.runtimeTurnId
          nativeTurnId := firstText nativeTurnId turn.nativeTurnId
          startReceiptOutcome := some .accepted
          startReceipt := nativeStartReceipt turn.startReceipt execution
          startedAt := turn.startedAt.or (some now) }) now
      else return none

def rotateRestartGeneration (turnId : Id) (expectedVersion streak : Nat)
    (responseSeq : Option Nat) (process : Option String) (now : Instant) :
    Db (Option Turn) := do
  match ← getTurn turnId with
  | none => return none
  | some turn =>
      if turn.state ≠ .active ∨ turn.startReceiptOutcome ≠ some .accepted ∨
          turn.version ≠ expectedVersion then return none
      casTurn turnId expectedVersion [.active] (fun t => { t with
        runtimeKey := none
        runtimeTurnId := none
        nativeTurnId := none
        startReceipt := { turn.startReceipt with
          restartStreak := some streak
          restartResponseSeq := some responseSeq
          restartProcess := some process } }) now

def markStartUnknown (turnId : Id) (expectedVersion : Nat) (receipt : StartReceipt)
    (now : Instant) : Db (Option Turn) :=
  casTurn turnId expectedVersion [.starting]
    (fun t => { t with startReceiptOutcome := some .unknown, startReceipt := receipt }) now

/-! ## Steers -/

def openSteerAttempt (id : Id) (expectedVersion : Nat) (turnId attemptId : Id)
    (expectedNativeTurnId : String) (now : Instant) : Db (Option Delivery) := do
  let current ← getDelivery id
  if current.any fun d => d.state = .pendingSteer && d.currentAttemptId ≠ some attemptId then
    return none
  casDelivery id expectedVersion [.reserved, .queued, .pendingSteer]
    (Delivery.steer .steering attemptId turnId (some expectedNativeTurnId) now)
    { kind := .steer, time := now, attemptId := some attemptId, turnId := some turnId
      expectedNativeTurnId := some expectedNativeTurnId, outcome := some .opened } now

def openSteerAttemptBatch (deliveries : List (Id × Nat)) (turnId attemptId : Id)
    (expectedNativeTurnId : String) (now : Instant) : Db (List Delivery) :=
  deliveries.mapM' fun entry => do
    let saved ← openSteerAttempt entry.1 entry.2 turnId attemptId expectedNativeTurnId now
    orRaise "Delivery steer batch claim lost after writer reservation" saved

def openPendingSteerBatch (deliveries : List (Id × Nat)) (turnId attemptId : Id)
    (now : Instant) : Db (List Delivery) :=
  deliveries.mapM' fun entry =>
    casOrRaise "Delivery pending-steer batch claim lost" entry.1 entry.2 [.reserved, .queued]
      (Delivery.steer .pendingSteer attemptId turnId none now)
      { kind := .steer, time := now, attemptId := some attemptId, turnId := some turnId
        outcome := some .pendingNativeIdentity } now

def ControlState.unresolved : ControlState → Bool
  | .pending | .interrupting | .waitingTerminal | .reconciling => true
  | _ => false

def rebindRestoredNativeGeneration (turnId : Id) (expectedVersion : Nat)
    (expectedNativeTurnId restoredNativeTurnId : String) (now : Instant) :
    Db (Option Turn) := do
  match ← getTurn turnId with
  | none => return none
  | some turn =>
      if turn.state ≠ .active ∨ turn.startReceiptOutcome ≠ some .accepted ∨
          turn.version ≠ expectedVersion ∨ turn.nativeTurnId.getD "" ≠ expectedNativeTurnId ∨
          restoredNativeTurnId = "" ∨ restoredNativeTurnId = expectedNativeTurnId then
        return none
      let rebound ← casTurn turnId expectedVersion [.active] (fun t => { t with
        nativeTurnId := some restoredNativeTurnId
        controlExpectedNativeTurnId :=
          if turn.controlState.any ControlState.unresolved &&
              turn.controlExpectedNativeTurnId.getD "" = expectedNativeTurnId then
            some restoredNativeTurnId
          else t.controlExpectedNativeTurnId }) now
      if rebound.isNone then return none
      let attempts := (← get).deliveries.rows.filter fun d =>
        d.currentTargetTurnId = some turnId &&
          (d.state = .steering || d.state = .reconcilingSteer) &&
          d.currentExpectedNativeTurnId = some expectedNativeTurnId
      let _ ← attempts.mapM' fun attempt =>
        casOrRaise "restored native generation lost a Delivery attempt CAS" attempt.id
          attempt.version [attempt.state]
          (fun d => { d with currentExpectedNativeTurnId := some restoredNativeTurnId })
          { kind := .nativeGenerationRebind, time := now, attemptId := attempt.currentAttemptId
            turnId := some turnId, previousNativeTurnId := some expectedNativeTurnId
            restoredNativeTurnId := some restoredNativeTurnId } now
      return rebound

/-- `attempt_deliveries`. -/
def attemptDeliveries (attemptId : Id) : Db (List Delivery) :=
  selectDeliveries (·.currentAttemptId = some attemptId) Delivery.submission

/-- `outcome` is `accepted` or `unknown`. -/
def markAttemptReceipt (id : Id) (expectedVersion : Nat) (outcome : ReceiptOutcome)
    (receipt : Receipt) (now : Instant) : Db (Option Delivery) := do
  raiseIf (outcome = .notWritten)
    (.valueError "unsupported steer receipt outcome: not_written")
  match ← getDelivery id with
  | none => return none
  | some delivery =>
      if delivery.currentAttemptKind ≠ some .steer then return none
      casDelivery id expectedVersion
        (if outcome = .accepted ∧ delivery.currentReceiptOutcome = some .unknown then
          [.steering, .reconcilingSteer] else [.steering])
        (fun d => { d with
          state := .reconcilingSteer
          currentReceiptOutcome := some outcome
          currentReceipt := receipt })
        { kind := .steer, time := now, attemptId := delivery.currentAttemptId
          turnId := delivery.currentTargetTurnId
          outcome := some (if outcome = .accepted then .accepted else .unknown)
          receipt := some receipt } now

/-- The rows of an attempt that can take the receipt. -/
def receiptApplies (outcome : ReceiptOutcome) (d : Delivery) : Bool :=
  d.state = .steering ||
    (d.state = .reconcilingSteer &&
      (d.currentReceiptOutcome = some outcome ||
        (outcome = .accepted && d.currentReceiptOutcome = some .unknown)))

def markAttemptReceiptBatch (leaderId : Id) (outcome : ReceiptOutcome) (receipt : Receipt)
    (now : Instant) : Db (List Delivery) := do
  match (← getDelivery leaderId).bind (·.currentAttemptId) with
  | none => return []
  | some attemptId =>
      let rows ← attemptDeliveries attemptId
      if !rows.all (receiptApplies outcome) then return []
      rows.mapM' fun row => do
        if row.state = .reconcilingSteer ∧ row.currentReceiptOutcome = some outcome then
          return row
        let saved ← markAttemptReceipt row.id row.version outcome receipt now
        orRaise "steer Delivery batch receipt persistence CAS lost" saved

/-! ## Acceptance -/

/-- `_verified_snapshot`. -/
def verifiedSnapshot (sha : Digest) (d : Delivery) : Db Snapshot :=
  match d.snapshot with
  | some snapshot =>
      if sha.snapshot snapshot = d.snapshotSha256 then pure snapshot
      else throw (.runtimeError "Delivery snapshot integrity check failed")
  | none => throw (.runtimeError "Delivery snapshot integrity check failed")

/-- `_merged_initial_snapshot` of stored rows. -/
def mergedRows (sha : Digest) (rows : List Delivery) : Db Candidate := do
  let parts ← rows.mapM' fun d => do return ⟨d.id, d.submittedAt, ← verifiedSnapshot sha d⟩
  match mergedInitialSnapshot parts with
  | .ok c => return c
  | .error message => throw (.runtimeError message)

def acceptedEvent (kind : EventKind) (attemptId : Option Id) (turnId : Id) (evidence : Json)
    (now : Instant) : Event :=
  { kind := kind, time := now, attemptId := attemptId, turnId := some turnId
    outcome := some .accepted, evidence := some evidence }

def startRows (turnId : Id) : Db (List Delivery) :=
  selectDeliveries (fun d => d.turnId = some turnId && d.turnRole = some .initial)
    Delivery.place

def materializeStartAcceptance (sha : Digest) (turnId : Id) (evidence : Json) (now : Instant) :
    Db (List Delivery) := do
  match ← getTurn turnId with
  | none => return []
  | some turn =>
      if turn.state = .waiting ∨ turn.startReceiptOutcome ≠ some .accepted then return []
      let rows ← startRows turnId
      raiseIf (rows = []) (.runtimeError "active Turn has no initial Delivery batch")
      if rows.all (·.state = .accepted) then return rows
      raiseIf (rows.any (·.state ≠ .claimed))
        (.runtimeError "initial Delivery batch is only partially materialized")
      insertMessage turn.initialDeliveryId (← mergedRows sha rows) now
      rows.mapM' fun row =>
        casOrRaise "initial Delivery materialization CAS lost" row.id row.version [.claimed]
          (Delivery.materialize turn.initialDeliveryId now)
          (acceptedEvent .start turn.startAttemptId turnId evidence now) now

/-- `coalesce(max(turn_position), -1) + 1` over the Turn's rows. -/
def nextPosition (turnId : Id) : Db Nat := do
  let rows := (← get).deliveries.rows.filter (·.turnId = some turnId)
  return (rows.map fun d => d.turnPosition.elim 0 (· + 1)).foldl max 0

/-- `evidenceKind` is the kind of the evidence, `start` when it has none. -/
def materializeAcceptance (sha : Digest) (id : Id) (expectedAttemptId : Option Id)
    (turnId : Id) (evidence : Json) (evidenceKind : EventKind) (now : Instant) :
    Db (Option Delivery) := do
  match ← getDelivery id with
  | none => return none
  | some delivery =>
      if delivery.state = .accepted then
        if delivery.messageId = some id ∧ delivery.turnId = some turnId then
          raiseIf ((← get).messages.get? id).isNone
            (.runtimeError "accepted Delivery is missing its Message")
          return some delivery
        return none
      if expectedAttemptId.isSome ∧ delivery.currentAttemptId ≠ expectedAttemptId then
        return none
      if delivery.currentTargetTurnId ≠ some turnId then return none
      if (← getTurn turnId).all (·.sessionId ≠ delivery.sessionId) then return none
      let snapshot ← verifiedSnapshot sha delivery
      let position ← nextPosition turnId
      let accepted ← casDelivery id delivery.version [delivery.state]
        (Delivery.materializeSteer id turnId position now)
        (acceptedEvent
          (if delivery.currentAttemptKind = some .steer then .steer else evidenceKind)
          delivery.currentAttemptId turnId evidence now) now
      if accepted.isNone then return none
      insertMessage id (candidateOf snapshot) now
      return accepted

def materializeSteerAcceptance (sha : Digest) (leaderId attemptId turnId : Id)
    (evidence : Json) (now : Instant) : Db (List Delivery) := do
  if (← getDelivery leaderId).all (·.currentAttemptId ≠ some attemptId) then return []
  let rows ← attemptDeliveries attemptId
  match rows with
  | [] => return []
  | first :: _ =>
      if rows.any fun d => (d.state ≠ .steering && d.state ≠ .reconcilingSteer) ||
          d.currentTargetTurnId ≠ some turnId then return []
      match ← getTurn turnId with
      | none => return []
      | some turn =>
          if rows.any (·.sessionId ≠ turn.sessionId) then return []
          let candidate ← mergedRows sha rows
          let position ← nextPosition turnId
          insertMessage first.id candidate now
          rows.zipIdx.mapM' fun entry =>
            casOrRaise "steer Delivery batch materialization CAS lost" entry.1.id
              entry.1.version [entry.1.state]
              (Delivery.materializeSteer first.id turnId (position + entry.2) now)
              (acceptedEvent .steer (some attemptId) turnId evidence now) now

/-! ## Definitive outcomes -/

/-- The kind under which `record_definitive_attempt` records the outcome. -/
def definitiveKind (d : Delivery) : EventKind :=
  match d.currentAttemptKind with
  | some .steer => .steer
  | none =>
      match d.state with
      | .claimed => .start
      | .pendingSteer => .steer
      | _ => .interruptJoin

def recordDefinitiveAttempt (id : Id) (expectedVersion : Nat)
    (expectedStates : List DeliveryState) (outcome : Outcome) (nextState : DeliveryState)
    (nextPriority : Option Priority) (nextTurnId : Option Id) (receipt : Option Receipt)
    (now : Instant) : Db (Option Delivery) := do
  match ← getDelivery id with
  | none => return none
  | some delivery =>
      casDelivery id expectedVersion expectedStates
        (Delivery.settle nextState nextPriority nextTurnId now)
        { kind := definitiveKind delivery, time := now, attemptId := delivery.currentAttemptId
          turnId := delivery.currentTargetTurnId, outcome := some outcome
          receipt := some (receipt.getD .empty) } now

def terminalizeTurn (turnId : Id) (outcome : TerminalOutcome) (settledBy : Option String)
    (evidenceKind : String) (evidence : Json) (now : Instant) : Db (Bool × Option Turn) := do
  match ← getTurn turnId with
  | none => return (false, none)
  | some turn =>
      if turn.state = .terminal then return (false, some turn)
      let unwritten := outcome = .notWritten ∧ turn.startAttemptId.isSome
      if unwritten ∧ turn.startReceiptOutcome = some .accepted then return (false, some turn)
      let settled ← casTurn turnId turn.version [turn.state] (fun t => { t with
        state := .terminal
        terminalOutcome := some outcome
        settledBy := settledBy
        terminalEvidenceKind := some evidenceKind
        terminalEvidence := evidence
        terminalAt := some now
        startReceiptOutcome := if unwritten then some .notWritten else t.startReceiptOutcome
        startReceipt :=
          if unwritten then { StartReceipt.empty with kind := some evidenceKind, rest := evidence }
          else t.startReceipt }) now
      return (settled.isSome, settled.or (some turn))

/-! ## Retirement -/

def retireQueued (sessionId id : Id) (now : Instant) : Db Bool := do
  match ← getDelivery id with
  | none => return false
  | some delivery =>
      if delivery.sessionId ≠ sessionId ∨ delivery.state ≠ .queued then return false
      let updated ← casDelivery id delivery.version [.queued] (Delivery.retire now)
        { kind := .retire, time := now, reason := some "queue_remove" } now
      return updated.isSome

def retireQueuedForResubmission (sessionId id : Id) (expectedDedupeKey : String)
    (now : Instant) : Db Bool := do
  match ← getDelivery id with
  | none => return false
  | some delivery =>
      if delivery.sessionId ≠ sessionId ∨ delivery.state ≠ .queued ∨
          delivery.dedupeKey ≠ some expectedDedupeKey ∨ delivery.currentAttemptId.isSome then
        return false
      let updated ← casDelivery id delivery.version [.queued]
        (fun d => { d.retire now with dedupeKey := none })
        { kind := .retire, time := now, reason := some "agent_run_recovery_resubmit"
          releasedDedupeKey := some expectedDedupeKey } now
      return updated.isSome

def retireReserved (sessionId id : Id) (reason : String) (now : Instant) : Db Bool := do
  match ← getDelivery id with
  | none => return false
  | some delivery =>
      if delivery.sessionId ≠ sessionId ∨ delivery.state ≠ .reserved ∨
          delivery.currentAttemptId.isSome then return false
      let updated ← casDelivery id delivery.version [.reserved] (Delivery.retire now)
        { kind := .retire, time := now, reason := some reason } now
      return updated.isSome

def Delivery.retireUnwritten (now : Instant) (d : Delivery) : Delivery :=
  ((d.clearAttempt none).leaveTurn).retire now

def retireNotWritten (sessionId id : Id) (reason : String) (now : Instant) : Db Bool := do
  match ← getDelivery id with
  | none => return false
  | some delivery =>
      if delivery.sessionId ≠ sessionId ∨ delivery.state.runCancel ≠ .retire then return false
      let updated ← casDelivery id delivery.version [delivery.state]
        (Delivery.retireUnwritten now)
        { kind := .retire, time := now, reason := some reason } now
      return updated.isSome

/-- `control_mode` and the control slot of a predecessor whose successor was canceled. -/
def Turn.unlinkSuccessor (predecessor t : Turn) : Turn :=
  let t' := { t with controlSuccessorDeliveryId := none, controlSuccessorTurnId := none }
  if predecessor.state = .terminal then { t' with controlMode := none }
  else if predecessor.controlState = some .pending then
    { t' with
      controlState := none
      controlMode := none
      controlAttemptId := none
      controlExpectedNativeTurnId := none
      controlReceiptOutcome := none
      controlReceipt := "" }
  else { t' with controlMode := some .stopOnly }

/-- The successor Turn of a replacement whose Run was canceled before it started. -/
def canceledSuccessor (sessionId id : Id) (successor : Turn) : Bool :=
  successor.sessionId = sessionId && successor.state = .terminal &&
    successor.initialDeliveryId = id && successor.terminalOutcome = some .notWritten &&
    successor.settledBy = some "agent_run_canceled" &&
    successor.terminalEvidenceKind = some "replacement_run_canceled"

def retireForRunCancellation (sessionId id : Id) (now : Instant) : Db Bool := do
  if ← retireNotWritten sessionId id "agent_run_canceled_before_native_write" now then
    return true
  match ← getDelivery id with
  | none => return false
  | some delivery =>
      if delivery.sessionId ≠ sessionId ∨ delivery.state ≠ .interruptWaiting then return false
      let successorTurnId := delivery.turnId.getD ""
      if !(← getTurn successorTurnId).any (canceledSuccessor sessionId id) then return false
      let predecessors := (← get).turns.rows.filter fun t =>
        t.sessionId = sessionId && t.controlSuccessorDeliveryId = some id &&
          t.controlSuccessorTurnId = some successorTurnId
      let newest := (sortOn (fun t => toLex (t.createdAt, t.id)) predecessors).getLast?
      let _ ← casOrRaise "replacement Run cancellation lost its waiting successor" id
        delivery.version [.interruptWaiting] (fun d => d.leaveTurn.retire now)
        { kind := .retire, time := now, reason := some "replacement_agent_run_canceled" } now
      match newest with
      | none => return true
      | some predecessor =>
          let unlinked ← casTurn predecessor.id predecessor.version [predecessor.state]
            predecessor.unlinkSuccessor now
          let _ ← orRaise "replacement Run cancellation lost predecessor unlink" unlinked
          return true

def retireForArchive (sessionId : Id) (now : Instant) : Db (List Id) := do
  let rows := (← get).deliveries.rows.filter fun d =>
    d.sessionId = sessionId && d.state.runCancel = .retire
  let saved ← rows.mapM' fun row =>
    casDelivery row.id row.version [row.state] (Delivery.retireUnwritten now)
      { kind := .retire, time := now, reason := some "session_archive" } now
  return saved.filterMap (·.map (·.id))

/-! ## Writes of the Turn controller -/

/-- The winner of a Turn's control slot takes a waiting successor Turn. -/
def claimSuccessor (sha : Digest) (id : Id) (expectedVersion : Nat)
    (sessionId currentTurnId successorTurnId : Id) (backend : String) (now : Instant) :
    Db Delivery := do
  let _ ← insertTurn sha successorTurnId sessionId id .waiting backend "" none now
  casOrRaise "P0 successor reservation claim lost" id expectedVersion [.reserved]
    (fun d => { d with
      priority := .p0
      state := .interruptWaiting
      turnId := some successorTurnId
      turnRole := some .initial
      turnPosition := some 0 })
    { kind := .interruptJoin, time := now, targetTurnId := some currentTurnId
      successorTurnId := some successorTurnId
      outcome := some (.other "control_slot_claimed") } now

/-- A P3 admission puts the input at its place in the queue. -/
def admitToQueue (id : Id) (expectedVersion : Nat) (now : Instant) : Db Delivery :=
  casOrRaise "P3 queue claim lost after writer reservation" id expectedVersion
    [.reserved, .queued] (fun d => { d with state := .queued })
    { kind := .queue, time := now, reason := some "p3_admission" } now

/-- Why a reservation fell back to the queue. -/
inductive Fallback where
  | runtimeGenerationRetired (turnId : Id)
  | targetChanged (turnId : Id)
  | coalesced (targetTurnId : Id)
  deriving DecidableEq, Repr

def Fallback.event (now : Instant) : Fallback → Event
  | .runtimeGenerationRetired turnId =>
      { kind := .admission, time := now, turnId := some turnId
        outcome := some (.other "runtime_generation_retired_before_claim") }
  | .targetChanged turnId =>
      { kind := .steer, time := now, turnId := some turnId
        outcome := some (.other "target_changed_before_claim") }
  | .coalesced targetTurnId =>
      { kind := .interruptJoin, time := now, targetTurnId := some targetTurnId
        outcome := some (.other "coalesced_to_queue") }

def fallBackToQueue (id : Id) (expectedVersion : Nat) (fallback : Fallback) (now : Instant) :
    Db Delivery :=
  casOrRaise "Delivery queue fallback lost" id expectedVersion [.reserved]
    (fun d => { d with priority := .p3, state := .queued }) (fallback.event now) now

/-- A successor whose interrupt was refused or deferred is a P3 input again. -/
def releaseSuccessor (id : Id) (expectedVersion : Nat) (turnId : Id) (outcome : String)
    (now : Instant) : Db Delivery :=
  casOrRaise "deferred successor lost" id expectedVersion [.interruptWaiting]
    (fun d => { d.leaveTurn with state := .queued, priority := .p3 })
    { kind := .interruptJoin, time := now, turnId := some turnId
      outcome := some (.other outcome) } now

/-- Retry of retained inputs after a backend failure. -/
def markFailureRetry (deliveries : List (Id × Nat)) (now : Instant) : Db (List Delivery) :=
  deliveries.mapM' fun entry =>
    casOrRaise "retry retained input claim lost" entry.1 entry.2 [.queued] id
      { kind := .backendFailureRetry, time := now } now

end Avibe.Deliveries
