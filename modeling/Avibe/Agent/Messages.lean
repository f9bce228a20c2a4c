import Mathlib.Data.List.Basic

/-!
# Messages of the agent core

The canonical messages that a transcript stores and that a request is compiled
from. What the modelled functions only carry along is a JSON text.
-/

namespace Avibe.Agent

abbrev Json := String

/-- A reference to content stored outside the row. -/
structure LargeRef where
  ref : String
  bytes : Nat
  deriving DecidableEq, Repr

/-- A text block holds exactly one of a text and a reference. -/
inductive TextBlock where
  | text (text : String) (citations : Option Json)
  | ref (ref : LargeRef)
  deriving DecidableEq, Repr

def text (value : String) : TextBlock := .text value none

def TextBlock.isRef : TextBlock → Bool
  | .text _ _ => false
  | .ref _ => true

structure ImageBlock where
  mimeType : String
  mediaToken : String
  name : Option String
  deriving DecidableEq, Repr

inductive UserContent where
  | text (block : TextBlock)
  | image (block : ImageBlock)
  deriving DecidableEq, Repr

def UserContent.isRef : UserContent → Bool
  | .text block => block.isRef
  | .image _ => false

structure ThinkingBlock where
  text : String
  signature : Option String
  redacted : Bool
  deriving DecidableEq, Repr

structure ToolCallBlock where
  id : String
  name : String
  arguments : Json
  nativeId : Option String
  signature : Option String
  deriving DecidableEq, Repr

inductive HostedToolName where
  | webSearch
  | xSearch
  deriving DecidableEq, Repr

inductive HostedStatus where
  | completed
  | failed
  | incomplete
  | pending
  deriving DecidableEq, Repr

structure HostedRecord where
  status : HostedStatus
  rest : Json
  deriving DecidableEq, Repr

/-- One item of a provider's own payload, with the keys that are read. -/
structure NativeItem where
  type : Option String
  id : Option String
  toolUseId : Option String
  rest : Json
  deriving DecidableEq, Repr

structure HostedNative where
  sourceId : String
  payload : List NativeItem
  deriving DecidableEq, Repr

structure HostedToolBlock where
  id : String
  tool : HostedToolName
  action : Json
  record : HostedRecord
  native : HostedNative
  deriving DecidableEq, Repr

inductive AssistantContent where
  | text (block : TextBlock)
  | thinking (block : ThinkingBlock)
  | toolCall (block : ToolCallBlock)
  | hosted (block : HostedToolBlock)
  deriving DecidableEq, Repr

def AssistantContent.isRef : AssistantContent → Bool
  | .text block => block.isRef
  | _ => false

def AssistantContent.toolCall? : AssistantContent → Option ToolCallBlock
  | .toolCall block => some block
  | _ => none

structure Origin where
  provider : String
  api : String
  model : String
  deriving DecidableEq, Repr

inductive StopReason where
  | stop
  | length
  | toolUse
  | refusal
  | safety
  | aborted
  | error
  deriving DecidableEq, Repr

structure HostedSummary where
  citedSources : List Json
  rest : Json
  deriving DecidableEq, Repr

structure UserMessage where
  content : List UserContent
  deriving DecidableEq, Repr

structure AssistantMessage where
  content : List AssistantContent
  origin : Origin
  stopReason : StopReason
  usage : Option Json
  errorMessage : Option String
  hostedSummary : Option HostedSummary
  sourceIdentity : Option String
  hostedRenderEpoch : Option Nat
  hostedRenderRule : Option Nat
  hostedRenderOmitted : List String
  transcriptRowId : Option String
  deriving DecidableEq, Repr

def AssistantMessage.toolCalls (m : AssistantMessage) : List ToolCallBlock :=
  m.content.filterMap AssistantContent.toolCall?

/-- The record of a proxied call. `fetchFrame` is the frame of a fetched page, which is
then the whole content of its message. -/
structure HostedResult where
  fetchFrame : Option String
  rest : Json
  deriving DecidableEq, Repr

structure ToolResultMessage where
  toolCallId : String
  toolName : String
  content : List UserContent
  isError : Bool
  hosted : Option HostedResult
  deriving DecidableEq, Repr

/-- The check on the content of a hosted result. -/
def ToolResultMessage.framed (m : ToolResultMessage) : Bool :=
  (m.hosted.bind HostedResult.fetchFrame).all fun frame => m.content = [.text (text frame)]

inductive Message where
  | user (message : UserMessage)
  | assistant (message : AssistantMessage)
  | toolResult (message : ToolResultMessage)
  deriving DecidableEq, Repr

end Avibe.Agent
