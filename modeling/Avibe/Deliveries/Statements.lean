import Avibe.Lib.Txn
import Avibe.Lib.SortOn
import Avibe.Deliveries.Rows
import Mathlib.Data.Prod.Lex
import Mathlib.Data.String.Basic

/-!
# Statements

The reads and writes that the operations of the store are made of. Every write
of a row is an insert or a compare-and-set on its version and state, and each
appends at most one event to a Delivery's history.

An operation takes the instant at which it runs and the ids it would draw as
arguments. Foreign keys are deferred to the end of the enclosing transaction,
which may hold several operations, so they are not among the checks here.
-/

namespace Avibe.Deliveries

open SortOn

inductive Fail where
  | valueError (message : String)
  | runtimeError (message : String)
  | integrityError
  deriving DecidableEq, Repr

abbrev Db := Txn Store Fail

/-- SHA-256 of a serialized snapshot and of a text. -/
structure Digest where
  snapshot : Snapshot → String
  text : String → String

/-- The value of a read that must succeed. -/
def orRaise {α : Type} (message : String) : Option α → Db α
  | some a => pure a
  | none => throw (.runtimeError message)

/-! ## Turns -/

def getTurn (id : Id) : Db (Option Turn) := return (← get).turns.get? id

def writeTurns : Option (Table turnSchema) → Db Unit
  | some turns => do set { (← get) with turns }
  | none => throw .integrityError

def newTurn (sha : Digest) (turnId sessionId initialDeliveryId : Id) (state : TurnState)
    (backend : String) (attemptId : Id) (dispatchText : String) (now : Instant) : Turn :=
  { id := turnId
    sessionId := sessionId
    initialDeliveryId := initialDeliveryId
    state := state
    backend := backend
    runtimeKey := none
    runtimeTurnId := none
    nativeTurnId := none
    startAttemptId := if state.owner then some attemptId else none
    startReceiptOutcome := if state = .active then some .accepted else none
    startReceipt :=
      if state = .active then { StartReceipt.empty with kind := some "seeded_active" }
      else StartReceipt.empty
    dispatchText := if state.owner then some dispatchText else none
    dispatchSha256 := if state.owner then some (sha.text dispatchText) else none
    terminalOutcome := none
    settledBy := none
    terminalEvidenceKind := none
    terminalEvidence := ""
    controlState := none
    controlMode := none
    controlAttemptId := none
    controlExpectedNativeTurnId := none
    controlReceiptOutcome := none
    controlReceipt := ""
    controlSuccessorDeliveryId := none
    controlSuccessorTurnId := none
    version := 1
    createdAt := now
    updatedAt := now
    startedAt := if state.owner then some now else none
    terminalAt := none }

/-- `insert_turn`; a started Turn without a text takes its initial Delivery's. -/
def insertTurn (sha : Digest) (turnId sessionId initialDeliveryId : Id) (state : TurnState)
    (backend : String) (attemptId : Id) (dispatchText : Option String) (now : Instant) :
    Db Turn := do
  let s ← get
  let initialText := ((s.deliveries.get? initialDeliveryId).bind (·.dispatchText)).getD ""
  let turn := newTurn sha turnId sessionId initialDeliveryId state backend attemptId
    (dispatchText.getD initialText) now
  writeTurns (s.turns.insert? turn)
  return turn

/-- The row after a compare-and-set: the new values and the next version. -/
def Turn.saved (values : Turn → Turn) (now : Instant) (t : Turn) : Turn :=
  { values t with version := t.version + 1, updatedAt := now }

def casTurn (id : Id) (expectedVersion : Nat) (expectedStates : List TurnState)
    (values : Turn → Turn) (now : Instant) : Db (Option Turn) := do
  let s ← get
  match s.turns.get? id with
  | none => return none
  | some t =>
      if t.version = expectedVersion ∧ t.state ∈ expectedStates then do
        writeTurns (s.turns.replace? (t.saved values now))
        return some (t.saved values now)
      else return none

/-! ## Deliveries -/

def getDelivery (id : Id) : Db (Option Delivery) := return (← get).deliveries.get? id

def writeDeliveries : Option (Table deliverySchema) → Db Unit
  | some deliveries => do set { (← get) with deliveries }
  | none => throw .integrityError

/-- The attempt columns that `insert_delivery` accepts. -/
structure CurrentAttempt where
  id : Option Id
  kind : Option AttemptKind
  targetTurnId : Option Id
  expectedNativeTurnId : Option String
  receiptOutcome : Option ReceiptOutcome
  receipt : Receipt

def CurrentAttempt.none : CurrentAttempt := ⟨.none, .none, .none, .none, .none, .empty⟩

def newDelivery (sha : Digest) (id sessionId : Id) (priority : Priority) (state : DeliveryState)
    (snapshot : Snapshot) (dispatchText : String) (dedupeKey : Option String)
    (turnId : Option Id) (attempt : CurrentAttempt) (event : Option Event) (now : Instant) :
    Delivery :=
  { id := id
    sessionId := sessionId
    messageId := none
    priority := priority
    state := state
    snapshot := some snapshot
    snapshotSha256 := sha.snapshot snapshot
    dispatchText := some dispatchText
    dispatchSha256 := sha.text dispatchText
    dedupeKey := dedupeKey
    turnId := turnId
    turnRole := none
    turnPosition := none
    currentAttemptId := attempt.id
    currentAttemptKind := attempt.kind
    currentTargetTurnId := attempt.targetTurnId
    currentExpectedNativeTurnId := attempt.expectedNativeTurnId
    currentReceiptOutcome := attempt.receiptOutcome
    currentReceipt := attempt.receipt
    currentAttemptOpenedAt := if attempt.id.isSome then some now else none
    history := event.toList
    version := 1
    submittedAt := now
    updatedAt := now
    materializedAt := none
    retiredAt := none }

def insertDelivery (sha : Digest) (id sessionId : Id) (priority : Priority)
    (state : DeliveryState) (snapshot : Snapshot) (dispatchText : String)
    (dedupeKey : Option String) (turnId : Option Id) (attempt : CurrentAttempt)
    (event : Option Event) (now : Instant) : Db Delivery := do
  let s ← get
  let row := newDelivery sha id sessionId priority state snapshot dispatchText dedupeKey turnId
    attempt event now
  writeDeliveries (s.deliveries.insert? row)
  return row

/-- A Delivery's write also appends the event. -/
def Delivery.saved (values : Delivery → Delivery) (event : Event) (now : Instant)
    (d : Delivery) : Delivery :=
  { values d with history := d.history ++ [event], version := d.version + 1, updatedAt := now }

def casDelivery (id : Id) (expectedVersion : Nat) (expectedStates : List DeliveryState)
    (values : Delivery → Delivery) (event : Event) (now : Instant) : Db (Option Delivery) := do
  let s ← get
  match s.deliveries.get? id with
  | none => return none
  | some d =>
      if d.version = expectedVersion ∧ d.state ∈ expectedStates then do
        writeDeliveries (s.deliveries.replace? (d.saved values event now))
        return some (d.saved values event now)
      else return none

/-- A compare-and-set that must not be lost. -/
def casOrRaise (message : String) (id : Id) (expectedVersion : Nat)
    (expectedStates : List DeliveryState) (values : Delivery → Delivery) (event : Event)
    (now : Instant) : Db Delivery := do
  orRaise message (← casDelivery id expectedVersion expectedStates values event now)

/-- The Deliveries that a query selects, in the order of a key. -/
def selectDeliveries {κ : Type} [LinearOrder κ] (p : Delivery → Bool) (key : Delivery → κ) :
    Db (List Delivery) :=
  return sortOn key ((← get).deliveries.rows.filter p)

/-- `ORDER BY submitted_at, id`. -/
def Delivery.submission (d : Delivery) : Nat ×ₗ String := toLex (d.submittedAt, d.id)

/-- `ORDER BY turn_position, id`; NULL sorts first. -/
def Delivery.place (d : Delivery) : Nat ×ₗ String :=
  toLex (d.turnPosition.elim 0 (· + 1), d.id)

/-! ## Messages -/

def writeMessages : Option (Table messageSchema) → Db Unit
  | some messages => do set { (← get) with messages }
  | none => throw .integrityError

/-- The columns of a candidate; `message_kind` is not one. -/
def Candidate.columns (c : Candidate) : Candidate :=
  { c with createdAt := none, snapshot := { c.snapshot with messageKind := none } }

def newMessage (id : Id) (c : Candidate) (acceptedAt : Instant) : Message :=
  { id := id
    candidate := c.columns
    createdAt := c.createdAt.getD acceptedAt
    updatedAt := acceptedAt
    deliveredAt := some acceptedAt }

/-- `_insert_message`: a Message that exists with the same content stays. -/
def insertMessage (id : Id) (c : Candidate) (acceptedAt : Instant) : Db Unit := do
  let s ← get
  let values := newMessage id c acceptedAt
  match s.messages.get? id with
  | none => writeMessages (s.messages.insert? values)
  | some m =>
      if m.candidate = values.candidate ∧ m.createdAt = values.createdAt then return ()
      else throw (.runtimeError "Delivery Message identity collided with different content")

end Avibe.Deliveries
