import Avibe.Agent.Messages
import Avibe.Lib.Checked
import Avibe.Lib.SortOn
import Mathlib.Algebra.GroupWithZero.Nat

/-!
# Projection of a transcript

A transcript is a list of rows. `contextView` reads it into units: an input, or
a response with the results of its calls. The latest compaction row decides
which rows are still shown; every later step reads the units.
-/

namespace Avibe.Context

open Avibe.Agent SortOn Checked

/-! ## Rows -/

inductive CompactionMode where
  | normal
  | rolling
  | dropped
  deriving DecidableEq, Repr

inductive CompactionReason where
  | threshold
  | overflow
  deriving DecidableEq, Repr

/-- A message of the user that a checkpoint carries, with its row's number. -/
structure MemoItem where
  seq : Nat
  text : String
  truncated : Bool
  seq_pos : 0 < seq
  deriving DecidableEq

/-- The payload of a compaction row. One of an earlier version has no memo. -/
structure Compaction where
  mode : CompactionMode
  reason : CompactionReason
  summary : String
  checkpoint : String
  state : List String
  firstKeptSeq : Nat
  summarizedToSeq : Nat
  previousCompactionId : Option String
  keptInputs : List Nat
  mind : String
  mindTruncated : Bool
  memo : Option (List MemoItem)
  tokensBefore : Nat
  tokensAfterEstimate : Nat
  threshold : Int
  summarizer : Option Json
  usage : Option Json
  deriving DecidableEq

inductive EditReason where
  | clearOldToolResult
  | fitToolResult
  deriving DecidableEq, Repr

structure ContextEdit where
  targetEventId : String
  replacement : String
  reason : EditReason
  deriving DecidableEq, Repr

inductive OpaquePayload where
  | hosted
  | signature
  deriving DecidableEq, Repr

/-- What a row holds. A row with a message holds one of its kind's type. -/
inductive Body where
  | input (message : UserMessage)
  | response (message : AssistantMessage) (requestTokens : Option Nat)
  | toolResult (message : ToolResultMessage)
  | compaction (payload : Compaction)
  | contextEdit (payload : ContextEdit)
  | agentState (state : Json)
  | replayRefusal (sourceIdentity : Option String) (payloads : List OpaquePayload)
  deriving DecidableEq

structure ContextEntry where
  sessionId : String
  contextSeq : Nat
  rowId : String
  body : Body
  deriving DecidableEq

def Body.isInput : Body → Bool
  | .input _ => true
  | _ => false

def Body.isToolResult : Body → Bool
  | .toolResult _ => true
  | _ => false

/-- The rows that lead a unit. -/
def Body.leads : Body → Bool
  | .input _ | .response _ _ => true
  | _ => false

def Body.kind : Body → String
  | .input _ => "input"
  | .response _ _ => "response"
  | .toolResult _ => "tool_result"
  | .compaction _ => "compaction"
  | .contextEdit _ => "context_edit"
  | .agentState _ => "agent_state"
  | .replayRefusal _ _ => "replay_refusal"

inductive ProjectionError where
  | duplicateContextSeq (seq : Nat)
  | unsupportedPayload (rowId : String)
  | largeContent (rowId : String)
  | duplicateToolResult (callId : String)
  | noPrecedingCall (callId : String)
  | identityMismatch (callId : String)
  | duplicateOpenCall (callId : String)
  | editTargetsNothing (rowId : String)
  | refusedContent (rowId : String)
  | misplacedInputs (rowId : String) (kept : List Nat)
  deriving DecidableEq, Repr

/-! ## The order of the rows -/

/-- The fields of a payload that its type leaves open. -/
def ContextEntry.shape (row : ContextEntry) : Bool :=
  match row.body with
  | .compaction p =>
      0 < p.firstKeptSeq && p.keptInputs.all (0 < ·) && p.firstKeptSeq ≤ row.contextSeq
  | .replayRefusal _ payloads => payloads ≠ []
  | _ => true

def Body.hasRef : Body → Bool
  | .input m => m.content.any UserContent.isRef
  | .response m _ => m.content.any AssistantContent.isRef
  | .toolResult m => m.content.any UserContent.isRef
  | _ => false

def checkRow (row : ContextEntry) : Except ProjectionError Unit := do
  require row.shape (.unsupportedPayload row.rowId)
  require (¬ row.body.hasRef) (.largeContent row.rowId)

/-- The loop of `_ordered`, with the number of the row before. -/
def checkRows : Option Nat → List ContextEntry → Except ProjectionError Unit
  | _, [] => .ok ()
  | previous, row :: rows => do
      require (previous.all (· < row.contextSeq)) (.duplicateContextSeq row.contextSeq)
      checkRow row
      checkRows (some row.contextSeq) rows

def ordered (entries : List ContextEntry) (forkPoint : Option Nat) :
    Except ProjectionError (List ContextEntry) := do
  let rows := sortOn ContextEntry.contextSeq
    (entries.filter fun entry => forkPoint.all (entry.contextSeq ≤ ·))
  checkRows none rows
  return rows

/-! ## Calls and results -/

structure Calls where
  pending : List (String × ContextEntry × ToolCallBlock)
  results : List ((Nat × String) × ContextEntry × ToolResultMessage)
  seen : List String

def openCall (row : ContextEntry) (calls : Calls) (call : ToolCallBlock) :
    Except ProjectionError Calls :=
  if call.id ∈ calls.pending.map Prod.fst then .error (.duplicateOpenCall call.id)
  else .ok { calls with
    seen := call.id :: calls.seen
    pending := calls.pending ++ [(call.id, row, call)] }

def indexRow (calls : Calls) (row : ContextEntry) : Except ProjectionError Calls :=
  match row.body with
  | .toolResult m =>
      match calls.pending.lookup m.toolCallId with
      | none =>
          if m.toolCallId ∈ calls.seen then .error (.duplicateToolResult m.toolCallId)
          else .error (.noPrecedingCall m.toolCallId)
      | some (response, call) =>
          if m.toolName ≠ call.name then .error (.identityMismatch call.id)
          else .ok { calls with
            pending := calls.pending.filter (·.1 ≠ m.toolCallId)
            results := ((response.contextSeq, call.id), row, m) :: calls.results }
  | .response m _ => m.toolCalls.foldlM (openCall row) calls
  | _ => .ok calls

def indexResults (rows : List ContextEntry) : Except ProjectionError Calls :=
  rows.foldlM indexRow ⟨[], [], []⟩

/-! ## Checkpoints, edits and state -/

structure Facts where
  state : Json
  compaction : Option (ContextEntry × Compaction)
  edits : List (String × String)
  reasons : List (String × EditReason)
  refused : List (Option String × OpaquePayload)

/-- The last row with an id. -/
def rowById (rows : List ContextEntry) (rowId : String) : Option ContextEntry :=
  rows.reverse.find? (·.rowId = rowId)

def collectRow (find : String → Option ContextEntry) (facts : Facts) (row : ContextEntry) :
    Except ProjectionError Facts :=
  match row.body with
  | .agentState state => .ok { facts with state := state }
  | .replayRefusal source payloads =>
      .ok { facts with refused := facts.refused ++ payloads.map (source, ·) }
  | .compaction payload => .ok { facts with compaction := some (row, payload) }
  | .contextEdit edit =>
      match find edit.targetEventId with
      | none => .error (.editTargetsNothing row.rowId)
      | some target =>
          if target.body.isToolResult ∧ target.contextSeq < row.contextSeq then
            .ok { facts with
              edits := (target.rowId, edit.replacement) :: facts.edits
              reasons := (target.rowId, edit.reason) :: facts.reasons }
          else .error (.editTargetsNothing row.rowId)
  | _ => .ok facts

def collect (find : String → Option ContextEntry) (rows : List ContextEntry) :
    Except ProjectionError Facts :=
  rows.foldlM (collectRow find) ⟨"{}", none, [], [], []⟩

/-! ## Units -/

/-- `Unit`: what a cut keeps whole. A result that was made up has no row. -/
structure ContextUnit where
  seq : Nat
  entries : List (Option ContextEntry × Message)
  deriving DecidableEq

def ContextUnit.messages (unit : ContextUnit) : List Message := unit.entries.map Prod.snd

/-- The row that leads the unit. -/
def ContextUnit.lead (unit : ContextUnit) : Option ContextEntry :=
  unit.entries.head?.bind Prod.fst

def interrupted : String := "[tool call interrupted; no result recorded]"

def interruptedResult (call : ToolCallBlock) : ToolResultMessage :=
  { toolCallId := call.id
    toolName := call.name
    content := [.text (text interrupted)]
    isError := true
    hosted := none }

/-- The result of a call as the unit shows it: the latest edit replaces its content. -/
def resultOf (calls : Calls) (edits : List (String × String)) (row : ContextEntry)
    (call : ToolCallBlock) : Except ProjectionError (Option ContextEntry × Message) :=
  match calls.results.lookup (row.contextSeq, call.id) with
  | none => .ok (none, .toolResult (interruptedResult call))
  | some (result, m) =>
      match edits.lookup result.rowId with
      | none => .ok (some result, .toolResult m)
      | some replacement =>
          let projected := { m with content := [.text (text replacement)] }
          if projected.framed then .ok (some result, .toolResult projected)
          else .error (.refusedContent result.rowId)

def unitOf (calls : Calls) (edits : List (String × String)) (row : ContextEntry) :
    Except ProjectionError ContextUnit :=
  match row.body with
  | .input m => .ok ⟨row.contextSeq, [(some row, .user m)]⟩
  | .response m _ => do
      let results ← m.toolCalls.mapM' (resultOf calls edits row)
      return ⟨row.contextSeq, (some row, .assistant m) :: results⟩
  | _ => .ok ⟨row.contextSeq, []⟩

/-- The unit of an input that a checkpoint keeps. -/
def keptUnit (inputs : List ContextEntry) (seq : Nat) : Option ContextUnit := do
  let row ← inputs.find? (·.contextSeq = seq)
  match row.body with
  | .input m => some ⟨seq, [(some row, .user m)]⟩
  | _ => none

/-! ## The view -/

structure ContextView where
  compaction : Option (ContextEntry × Compaction)
  checkpoint : Option UserMessage
  units : List ContextUnit
  cleared : List String
  contextSeq : Nat
  state : Json
  pinned : Nat
  opaqueRefused : List (Option String × OpaquePayload)
  edited : List String

/-- The projected messages before a cut: the inputs that the checkpoint keeps, the
checkpoint, then the other units. -/
def ContextView.prefixAt (view : ContextView) (cut : Nat) : List Message :=
  let pinned := view.units.take (min view.pinned cut)
  pinned.flatMap ContextUnit.messages ++ (view.checkpoint.map Message.user).toList ++
    ((view.units.take cut).drop pinned.length).flatMap ContextUnit.messages

def ContextView.messages (view : ContextView) : List Message := view.prefixAt view.units.length

def Compaction.message (p : Compaction) : UserMessage :=
  ⟨(p.summary :: p.state).map fun item => .text (text item)⟩

def Facts.firstKept (facts : Facts) : Nat := facts.compaction.elim 0 (·.2.firstKeptSeq)

def Facts.kept (facts : Facts) : List Nat := facts.compaction.elim [] (·.2.keptInputs)

def earlierInputs (facts : Facts) (rows : List ContextEntry) : List ContextEntry :=
  rows.filter fun row => row.body.isInput && row.contextSeq < facts.firstKept

def shownRows (facts : Facts) (rows : List ContextEntry) : List ContextEntry :=
  rows.filter fun row => row.body.leads && facts.firstKept ≤ row.contextSeq

/-- The view that the rows from `firstKept` on and the kept inputs make. -/
def assemble (rows : List ContextEntry) (facts : Facts) (units : List ContextUnit) :
    ContextView :=
  { compaction := facts.compaction
    checkpoint := facts.compaction.map (·.2.message)
    units := facts.kept.filterMap (keptUnit (earlierInputs facts rows)) ++ units
    cleared := (facts.reasons.map Prod.fst).filter fun id =>
      facts.reasons.lookup id = some .clearOldToolResult
    contextSeq := rows.getLast?.elim 0 (·.contextSeq)
    state := facts.state
    pinned := facts.kept.length
    opaqueRefused := facts.refused
    edited := facts.reasons.map Prod.fst }

def contextView (entries : List ContextEntry) (forkPoint : Option Nat) :
    Except ProjectionError ContextView := do
  let rows ← ordered entries forkPoint
  let calls ← indexResults rows
  let facts ← collect (rowById rows) rows
  let units ← (shownRows facts rows).mapM' (unitOf calls facts.edits)
  -- the kept numbers are their own sorted set exactly when they increase
  require ((∀ seq ∈ facts.kept, seq ∈ (earlierInputs facts rows).map (·.contextSeq)) ∧
      facts.kept.Pairwise (· < ·))
    (.misplacedInputs (facts.compaction.elim "" (·.1.rowId)) facts.kept)
  return assemble rows facts units

/-! ## Appends -/

/-- The number of the next row. -/
def nextSeq (entries : List ContextEntry) : Nat :=
  (entries.map (·.contextSeq)).foldr max 0 + 1

def validateMessageAppend (entries : List ContextEntry) (sessionId : String) (body : Body) :
    Except ProjectionError Unit := do
  let candidate : ContextEntry :=
    ⟨sessionId, nextSeq entries, "uncommitted-" ++ body.kind, body⟩
  let _ ← contextView (entries ++ [candidate]) none
  return ()

end Avibe.Context
