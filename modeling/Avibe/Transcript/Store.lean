import Avibe.Lib.Checked
import Avibe.Lib.SortOn

/-!
# The transcript store

A Session's context is the rows of `messages` and `agent_events` that carry a
`context_seq`. A fork reads the rows of its source up to an anchor, through the
source's own fork link.

`step` is one committed transaction; one that raises is rolled back, and `run`
keeps the store as it was. The body of a row is a type parameter: nothing here
looks into it, except that a repeated `consumeInput` compares it.
-/

namespace Avibe.Transcript

open Checked SortOn

/-- A JSON value, as far as `forkLink` tells it apart. -/
inductive Value where
  | null
  | bool (b : Bool)
  | int (n : Int)
  | other
  deriving DecidableEq, Repr

/-- The two keys of the Session metadata that a fork link is read from. A
missing source is the empty text. -/
structure Metadata where
  forkSourceSessionId : String
  forkSourceContextSeq : Value
  deriving DecidableEq, Repr

/-- A Session row; `metadata` is `none` when its text is no JSON object, and `scopeId` when its
scope is gone. -/
structure Session where
  id : String
  metadata : Option Metadata
  scopeId : Option String
  deriving DecidableEq, Repr

/-- A Turn of a Session, and the message of its initial delivery. -/
structure Turn where
  id : String
  sessionId : String
  messageId : String
  deriving DecidableEq, Repr

structure Row (α : Type) where
  id : String
  sessionId : String
  contextSeq : Option Nat
  isInput : Bool
  body : α
  deriving DecidableEq, Repr

structure Entry (α : Type) where
  sessionId : String
  contextSeq : Nat
  rowId : String
  body : α
  deriving DecidableEq, Repr

structure Store (α : Type) where
  sessions : List Session
  messages : List (Row α)
  events : List (Row α)
  turns : List Turn
  deriving DecidableEq, Repr

inductive TranscriptError where
  | invalidAnchor
  | ancestryLoop
  | sharedSeq
  | noSession
  | notAMessage
  | notAnInput
  | alreadyInContext
  | duplicateId
  | noSource
  | noAcceptedInput
  | noConsumedInput
  deriving DecidableEq, Repr

def isSpace (c : Char) : Bool :=
  c ∈ [' ', '\t', '\n', '\r', '\x0b', '\x0c', '\x1c', '\x1d', '\x1e', '\x1f', '\u0085',
    '\u00a0', '\u1680', '\u2028', '\u2029', '\u202f', '\u205f', '\u3000'] ||
    ('\u2000' ≤ c && c ≤ '\u200a')

def strip (s : String) : String :=
  String.ofList ((s.toList.dropWhile isSpace).reverse.dropWhile isSpace).reverse

/-- The source and the anchor in a Session's metadata. -/
def Session.forkLink (s : Session) : Except TranscriptError (Option (String × Nat)) :=
  match s.metadata with
  | none => .ok none
  | some m =>
      let source := strip m.forkSourceSessionId
      if source = "" then .ok none
      else
        match m.forkSourceContextSeq with
        | .null => .ok none
        | .int (.ofNat anchor) => .ok (some (source, anchor))
        | _ => .error .invalidAnchor

variable {α : Type}

def Store.session? (st : Store α) (sessionId : String) : Option Session :=
  st.sessions.find? (·.id = sessionId)

/-- The source and the anchor when the Session inherits a context. -/
def forkLink (st : Store α) (sessionId : String) :
    Except TranscriptError (Option (String × Nat)) :=
  match st.session? sessionId with
  | none => .ok none
  | some s => s.forkLink

/-- The smaller of a bound and an anchor. -/
def tighten (bound : Option Nat) (anchor : Nat) : Nat :=
  match bound with
  | none => anchor
  | some b => min b anchor

/-- The loop over fork sources. Every round that goes on has met another
Session row, so `fuel` runs out only on a loop. -/
def ancestors (st : Store α) : Nat → List String → String → Option Nat →
    Except TranscriptError (List (String × Option Nat))
  | 0, _, _, _ => .error .ancestryLoop
  | fuel + 1, seen, member, bound => do
      match ← forkLink st member with
      | none => return []
      | some (source, anchor) =>
          require (source ∉ seen) .ancestryLoop
          let bound := tighten bound anchor
          let rest ← ancestors st fuel (source :: seen) source (some bound)
          return (source, some bound) :: rest

/-- The Session and its fork sources, each with its upper bound. -/
def ancestry (st : Store α) (sessionId : String) :
    Except TranscriptError (List (String × Option Nat)) := do
  let rest ← ancestors st (st.sessions.length + 1) [sessionId] sessionId none
  return (sessionId, none) :: rest

/-- `n` is at most the bound, if there is one. -/
def within (bound : Option Nat) (n : Nat) : Bool :=
  match bound with
  | none => true
  | some b => n ≤ b

/-- The entry a row gives to the context of `sessionId` up to `bound`. -/
def Row.toEntry (sessionId : String) (bound : Option Nat) (r : Row α) : Option (Entry α) :=
  if r.sessionId = sessionId then
    match r.contextSeq with
    | none => none
    | some n => if within bound n then some ⟨sessionId, n, r.id, r.body⟩ else none
  else none

def contextRows (st : Store α) (sessionId : String) (bound : Option Nat) : List (Entry α) :=
  st.messages.filterMap (·.toEntry sessionId bound) ++
    st.events.filterMap (·.toEntry sessionId bound)

/-- The context rows of a Session and of its fork ancestry, by `contextSeq`. -/
def contextEntries (st : Store α) (sessionId : String) :
    Except TranscriptError (List (Entry α)) := do
  let chain ← ancestry st sessionId
  let entries := sortOn Entry.contextSeq (chain.flatMap fun m => contextRows st m.1 m.2)
  require (∀ p ∈ entries.zip entries.tail, p.1.contextSeq ≠ p.2.contextSeq) .sharedSeq
  return entries

/-- The largest sequence number of the Session's own rows in one table. -/
def tableBound (sessionId : String) (table : List (Row α)) : Option Nat :=
  (table.filterMap fun r => if r.sessionId = sessionId then r.contextSeq else none).max?

def ownBound (st : Store α) (sessionId : String) : Option Nat :=
  ([tableBound sessionId st.messages, tableBound sessionId st.events].filterMap id).max?

def nextContextSeq (st : Store α) (sessionId : String) : Except TranscriptError Nat :=
  match ownBound st sessionId with
  | some top => .ok (top + 1)
  | none => do
      let link ← forkLink st sessionId
      return (match link with
        | some (_, anchor) => anchor
        | none => 0) + 1

/-! ## Attribution -/

/-- An input of the Session is in its context. -/
def consumedInput (st : Store α) (sessionId : String) : Prop :=
  ∃ r ∈ st.messages, r.sessionId = sessionId ∧ r.contextSeq.isSome ∧ r.isInput = true

instance consumedInput.decidable (st : Store α) (sessionId : String) :
    Decidable (consumedInput st sessionId) := List.decidableBEx _ st.messages

/-- Whether a context row of the Session may be written: into a Turn that was accepted, or after the
latest input. A fork writes into its own scope before its first input. Where the row belongs and
which Agent wrote it is not modelled. -/
def turnOrigin (st : Store α) (sessionId : String) (turnId : Option String) :
    Except TranscriptError Unit := do
  let session ← found (st.session? sessionId) .noSession
  match turnId with
  | some turnId =>
      require (∃ turn ∈ st.turns, turn.id = turnId ∧ turn.sessionId = sessionId ∧
        turn.messageId ∈ st.messages.map Row.id) .noAcceptedInput
  | none =>
      if consumedInput st sessionId then return ()
      else
        let link ← forkLink st sessionId
        require (link.isSome ∧ session.scopeId.isSome) .noConsumedInput

/-! ## Transactions -/

inductive Op (α : Type) where
  /-- A new Session, which may name a source that exists. -/
  | createSession (s : Session)
  /-- A message that is not in the context yet. -/
  | addMessage (id sessionId : String) (isInput : Bool) (body : α)
  | consumeInput (sessionId messageId : String) (body : α)
  /-- A Turn, as its first input is accepted. -/
  | addTurn (turn : Turn)
  | appendResponse (sessionId id : String) (turnId : Option String) (body : α)
  | appendEvent (sessionId id : String) (turnId : Option String) (body : α)

/-- The Session whose context an operation may extend. -/
def Op.appendsTo : Op α → Option String
  | .createSession _ => none
  | .addMessage .. => none
  | .consumeInput sessionId _ _ => some sessionId
  | .addTurn _ => none
  | .appendResponse sessionId _ _ _ => some sessionId
  | .appendEvent sessionId _ _ _ => some sessionId

/-- A row at the end of a table, in which ids are unique. -/
def insertRow (table : List (Row α)) (r : Row α) :
    Except TranscriptError (List (Row α)) := do
  require (r.id ∉ table.map Row.id) .duplicateId
  return table ++ [r]

def requireSession (st : Store α) (sessionId : String) : Except TranscriptError Unit :=
  require (sessionId ∈ st.sessions.map Session.id) .noSession

/-- Put the row of an input into the context. -/
def setSeq (messageId : String) (seq : Nat) (body : α) (table : List (Row α)) :
    List (Row α) :=
  table.map fun r =>
    if r.id = messageId ∧ r.contextSeq = none then
      { r with contextSeq := some seq, body := body }
    else r

variable [DecidableEq α]

def step (st : Store α) : Op α → Except TranscriptError (Store α)
  | .createSession s => do
      require (s.id ∉ st.sessions.map Session.id) .duplicateId
      let link ← s.forkLink
      require (∀ p ∈ link, p.1 ∈ st.sessions.map Session.id) .noSource
      return { st with sessions := s :: st.sessions }
  | .addMessage id sessionId isInput body => do
      requireSession st sessionId
      let messages ← insertRow st.messages ⟨id, sessionId, none, isInput, body⟩
      return { st with messages := messages }
  | .consumeInput sessionId messageId body => do
      let row ← found (st.messages.find? (·.id = messageId)) .notAMessage
      require (row.sessionId = sessionId) .notAMessage
      require (row.isInput = true) .notAnInput
      if row.contextSeq = none then
        let seq ← nextContextSeq st sessionId
        return { st with messages := setSeq messageId seq body st.messages }
      else
        -- A retried commit of the same input.
        require (row.body = body) .alreadyInContext
        return st
  | .addTurn turn => do
      requireSession st turn.sessionId
      require (turn.id ∉ st.turns.map Turn.id) .duplicateId
      return { st with turns := turn :: st.turns }
  | .appendResponse sessionId id turnId body => do
      turnOrigin st sessionId turnId
      let seq ← nextContextSeq st sessionId
      let messages ← insertRow st.messages ⟨id, sessionId, some seq, false, body⟩
      return { st with messages := messages }
  | .appendEvent sessionId id turnId body => do
      turnOrigin st sessionId turnId
      let seq ← nextContextSeq st sessionId
      let events ← insertRow st.events ⟨id, sessionId, some seq, false, body⟩
      return { st with events := events }

/-- A transaction that raises leaves the store as it was. -/
def commit (st : Store α) (op : Op α) : Store α :=
  match step st op with
  | .ok st' => st'
  | .error _ => st

def run (st : Store α) (ops : List (Op α)) : Store α := ops.foldl commit st

def Store.empty : Store α := ⟨[], [], [], []⟩

end Avibe.Transcript
