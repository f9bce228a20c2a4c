import Avibe.Lib.Table
import Avibe.Deliveries.Snapshot

/-!
# The tables of the Delivery store

One row of `message_deliveries` owns one submitted input, one row of
`session_turns` is one native Turn, and `messages` holds the accepted inputs.
The CHECK constraints and unique indexes of the tables are the schemas below. A
comparison with NULL does not fail a CHECK, so it is `Option.all` here.
-/

namespace Avibe.Deliveries

/-! ## States -/

inductive DeliveryState where
  | reserved
  | queued
  | claimed
  | pendingSteer
  | steering
  | interruptWaiting
  | reconcilingSteer
  | accepted
  | retired
  deriving DecidableEq, Repr

inductive OrderingRole where
  | claimable
  | fence
  | turnOwned
  | terminal
  deriving DecidableEq, Repr

inductive RunCancelAction where
  | retire
  | turnOwner
  | complete
  deriving DecidableEq, Repr

/-- `DELIVERY_STATE_MATRIX`. -/
def DeliveryState.policy : DeliveryState → OrderingRole × RunCancelAction
  | .reserved => (.fence, .retire)
  | .queued => (.claimable, .retire)
  | .claimed => (.turnOwned, .turnOwner)
  | .pendingSteer => (.fence, .retire)
  | .steering => (.fence, .turnOwner)
  | .interruptWaiting => (.turnOwned, .turnOwner)
  | .reconcilingSteer => (.fence, .turnOwner)
  | .accepted => (.terminal, .complete)
  | .retired => (.terminal, .complete)

def DeliveryState.ordering (s : DeliveryState) : OrderingRole := s.policy.1

def DeliveryState.runCancel (s : DeliveryState) : RunCancelAction := s.policy.2

inductive TurnState where
  | waiting
  | starting
  | active
  | terminal
  deriving DecidableEq, Repr

def TurnState.owner : TurnState → Bool
  | .starting | .active => true
  | _ => false

inductive Priority where
  | p0
  | p1
  | p3
  deriving DecidableEq, Repr

inductive TurnRole where
  | initial
  | steer
  deriving DecidableEq, Repr

inductive AttemptKind where
  | steer
  deriving DecidableEq, Repr

inductive ReceiptOutcome where
  | accepted
  | notWritten
  | unknown
  deriving DecidableEq, Repr

inductive TerminalOutcome where
  | completed
  | failed
  | canceled
  | notWritten
  deriving DecidableEq, Repr

inductive ControlState where
  | pending
  | interrupting
  | waitingTerminal
  | reconciling
  | refused
  | settled
  deriving DecidableEq, Repr

inductive ControlMode where
  | stopOnly
  | replace
  deriving DecidableEq, Repr

/-! ## History -/

inductive EventKind where
  | submitted
  | admission
  | queue
  | start
  | steer
  | interruptJoin
  | nativeGenerationRebind
  | retire
  /-- `FAILURE_RETRY_HISTORY_KIND`. -/
  | backendFailureRetry
  deriving DecidableEq, Repr

inductive Outcome where
  | claimed
  | opened
  | claimedAfterInterrupt
  | notWritten
  | accepted
  | unknown
  | pendingNativeIdentity
  | other (text : String)
  deriving DecidableEq, Repr

structure Receipt where
  kind : Option String
  reason : Option String
  requiresExplicitRetry : Bool
  rest : Json
  deriving DecidableEq, Repr

/-- The receipt `{}`. -/
def Receipt.empty : Receipt := ⟨none, none, false, ""⟩

/-- An entry of `delivery_history_json`; a key that an event does not have is `none`. -/
structure Event where
  kind : EventKind
  time : Instant
  attemptId : Option Id := none
  turnId : Option Id := none
  position : Option Nat := none
  outcome : Option Outcome := none
  receipt : Option Receipt := none
  evidence : Option Json := none
  reason : Option String := none
  priority : Option Priority := none
  expectedNativeTurnId : Option String := none
  previousNativeTurnId : Option String := none
  restoredNativeTurnId : Option String := none
  targetTurnId : Option Id := none
  successorTurnId : Option Id := none
  releasedDedupeKey : Option String := none
  deriving DecidableEq, Repr

/-! ## Rows -/

structure Delivery where
  id : Id
  sessionId : Id
  messageId : Option Id
  priority : Priority
  state : DeliveryState
  snapshot : Option Snapshot
  snapshotSha256 : String
  dispatchText : Option String
  dispatchSha256 : String
  dedupeKey : Option String
  turnId : Option Id
  turnRole : Option TurnRole
  turnPosition : Option Nat
  currentAttemptId : Option Id
  currentAttemptKind : Option AttemptKind
  currentTargetTurnId : Option Id
  currentExpectedNativeTurnId : Option String
  currentReceiptOutcome : Option ReceiptOutcome
  currentReceipt : Receipt
  currentAttemptOpenedAt : Option Instant
  history : List Event
  version : Nat
  submittedAt : Instant
  updatedAt : Instant
  materializedAt : Option Instant
  retiredAt : Option Instant
  deriving DecidableEq, Repr

/-- `start_receipt_json`: the keys that a later start carries over, and the rest. -/
structure StartReceipt where
  kind : Option String
  restartStreak : Option Nat
  restartResponseSeq : Option (Option Nat)
  restartProcess : Option (Option String)
  vibeyExecution : Option Json
  rest : Json
  deriving DecidableEq, Repr

def StartReceipt.empty : StartReceipt := ⟨none, none, none, none, none, ""⟩

structure Turn where
  id : Id
  sessionId : Id
  initialDeliveryId : Id
  state : TurnState
  backend : String
  runtimeKey : Option String
  runtimeTurnId : Option String
  nativeTurnId : Option String
  startAttemptId : Option Id
  startReceiptOutcome : Option ReceiptOutcome
  startReceipt : StartReceipt
  dispatchText : Option String
  dispatchSha256 : Option String
  terminalOutcome : Option TerminalOutcome
  settledBy : Option String
  terminalEvidenceKind : Option String
  terminalEvidence : Json
  controlState : Option ControlState
  controlMode : Option ControlMode
  controlAttemptId : Option Id
  controlExpectedNativeTurnId : Option String
  controlReceiptOutcome : Option String
  controlReceipt : Json
  controlSuccessorDeliveryId : Option Id
  controlSuccessorTurnId : Option Id
  version : Nat
  createdAt : Instant
  updatedAt : Instant
  startedAt : Option Instant
  terminalAt : Option Instant
  deriving DecidableEq, Repr

structure Message where
  id : Id
  /-- The snapshot's columns, with the merged content and metadata. -/
  candidate : Candidate
  createdAt : Instant
  updatedAt : Instant
  deliveredAt : Option Instant
  deriving DecidableEq, Repr

/-! ## Constraints -/

def Delivery.noAttempt (d : Delivery) : Bool :=
  d.currentAttemptId.isNone && d.currentAttemptKind.isNone && d.currentTargetTurnId.isNone &&
    d.currentExpectedNativeTurnId.isNone

/-- `ck_message_deliveries_current_attempt_shape`. -/
def Delivery.attemptShape (d : Delivery) : Bool :=
  match d.state with
  | .steering | .reconcilingSteer =>
      d.currentAttemptId.isSome && d.currentAttemptKind.all (· = .steer) &&
        d.currentTargetTurnId.isSome && d.currentExpectedNativeTurnId.isSome
  | .pendingSteer =>
      d.currentAttemptId.isSome && d.currentAttemptKind.all (· = .steer) &&
        d.currentTargetTurnId.isSome && d.currentExpectedNativeTurnId.isNone
  | _ => d.noAttempt

/-- `ck_message_deliveries_current_receipt`. -/
def Delivery.receiptShape (d : Delivery) : Bool :=
  if d.state = .reconcilingSteer then
    d.currentReceiptOutcome.all fun o => o = .accepted || o = .unknown
  else d.currentReceiptOutcome.isNone

/-- `ck_message_deliveries_materialization`. -/
def Delivery.materialization (d : Delivery) : Bool :=
  if d.state = .accepted then
    d.messageId.isSome && d.turnId.isSome && d.turnPosition.isSome && d.materializedAt.isSome &&
      d.snapshot.isNone && d.dispatchText.isNone && d.noAttempt &&
      d.currentReceiptOutcome.isNone && d.currentAttemptOpenedAt.isNone
  else d.messageId.isNone && d.materializedAt.isNone

/-- `ck_message_deliveries_turn_membership`. -/
def Delivery.turnMembership (d : Delivery) : Bool :=
  match d.state with
  | .claimed | .interruptWaiting =>
      d.turnId.isSome && d.turnRole.all (· = .initial) && d.turnPosition.isSome
  | .accepted => d.turnId.isSome && d.turnRole.isSome && d.turnPosition.isSome
  | _ => d.turnId.isNone && d.turnRole.isNone && d.turnPosition.isNone

def Delivery.check (d : Delivery) : Bool :=
  d.attemptShape && d.receiptShape && d.materialization && d.turnMembership

/-- A unique index refuses two rows with the same key; NULL keys never meet. -/
def sameKey {κ : Type} [DecidableEq κ] (a b : Option κ) : Bool := a.isSome && a = b

theorem sameKey_comm {κ : Type} [DecidableEq κ] (a b : Option κ) : sameKey a b = sameKey b a := by
  cases a <;> cases b <;> simp [sameKey, eq_comm]

/-- The key of `uq_message_deliveries_turn_position`. -/
def Delivery.turnPlace (d : Delivery) : Option (Id × Nat) :=
  match d.turnId, d.turnPosition with
  | some t, some p => some (t, p)
  | _, _ => none

def deliverySchema : Schema Delivery Id where
  key := Delivery.id
  check := Delivery.check
  clash a b := sameKey a.turnPlace b.turnPlace || sameKey a.dedupeKey b.dedupeKey
  clash_symm a b := by rw [sameKey_comm a.turnPlace, sameKey_comm a.dedupeKey]

def Turn.hasStart (t : Turn) : Bool :=
  t.startAttemptId.isSome && t.dispatchText.isSome && t.dispatchSha256.isSome

def Turn.noStart (t : Turn) : Bool :=
  t.startAttemptId.isNone && t.dispatchText.isNone && t.dispatchSha256.isNone

/-- `ck_session_turns_start_shape`. -/
def Turn.startShape (t : Turn) : Bool :=
  match t.state with
  | .waiting => t.noStart && t.startReceiptOutcome.isNone
  | .starting => t.hasStart && t.startReceiptOutcome.all (· = .unknown)
  | .active => t.hasStart && t.startReceiptOutcome.all (· = .accepted)
  | .terminal =>
      (t.terminalOutcome.all (· ≠ .notWritten) && t.hasStart &&
          t.startReceiptOutcome.all (· = .accepted)) ||
        (t.terminalOutcome.all (· = .failed) && t.hasStart &&
          t.startReceiptOutcome.all (· = .unknown)) ||
        (t.terminalOutcome.all (· = .notWritten) && t.hasStart &&
          t.startReceiptOutcome.all (· = .notWritten)) ||
        (t.terminalOutcome.all (· = .notWritten) && t.noStart)

/-- `ck_session_turns_terminal_shape`. -/
def Turn.terminalShape (t : Turn) : Bool :=
  if t.state = .terminal then t.terminalOutcome.isSome && t.terminalAt.isSome
  else t.terminalOutcome.isNone && t.terminalAt.isNone

/-- `ck_session_turns_control_shape`. -/
def Turn.controlShape (t : Turn) : Bool :=
  let linked := t.controlSuccessorDeliveryId.isSome && t.controlSuccessorTurnId.isSome
  let unlinked := t.controlSuccessorDeliveryId.isNone && t.controlSuccessorTurnId.isNone
  (t.controlMode.all (· = .replace) && linked) ||
    (t.controlMode.all (· = .stopOnly) && unlinked) || (t.controlMode.isNone && unlinked)

def Turn.check (t : Turn) : Bool := t.startShape && t.terminalShape && t.controlShape

/-- The key of `uq_session_turns_live_session`. -/
def Turn.liveSession (t : Turn) : Option Id := if t.state.owner then some t.sessionId else none

/-- The key of `uq_session_turns_message_written_attempt`. -/
def Turn.writtenDelivery (t : Turn) : Option Id :=
  if t.state ≠ .terminal ∨ t.startReceiptOutcome = some .accepted then some t.initialDeliveryId
  else none

/-- The key of `uq_session_turns_waiting_successor`. -/
def Turn.waitingSession (t : Turn) : Option Id :=
  if t.state = .waiting then some t.sessionId else none

def turnSchema : Schema Turn Id where
  key := Turn.id
  check := Turn.check
  clash a b :=
    sameKey a.liveSession b.liveSession || sameKey a.writtenDelivery b.writtenDelivery ||
      sameKey a.waitingSession b.waitingSession ||
      sameKey a.controlAttemptId b.controlAttemptId || sameKey a.startAttemptId b.startAttemptId
  clash_symm a b := by
    rw [sameKey_comm a.liveSession, sameKey_comm a.writtenDelivery,
      sameKey_comm a.waitingSession, sameKey_comm a.controlAttemptId,
      sameKey_comm a.startAttemptId]

/-- The key of the two `native_message_id` indexes. -/
def Message.nativeKey (m : Message) : Option (String × Option Id × String) :=
  m.candidate.snapshot.nativeMessageId.map fun native =>
    (m.candidate.snapshot.platform, m.candidate.snapshot.scopeId, native)

def messageSchema : Schema Message Id where
  key := Message.id
  check _ := true
  clash a b := sameKey a.nativeKey b.nativeKey
  clash_symm a b := sameKey_comm a.nativeKey b.nativeKey

structure Store where
  turns : Table turnSchema
  deliveries : Table deliverySchema
  messages : Table messageSchema

def Store.empty : Store := ⟨Table.empty, Table.empty, Table.empty⟩

end Avibe.Deliveries
