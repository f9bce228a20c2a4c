import Mathlib.Data.List.Basic

/-!
# Message candidates

A Delivery holds the Message it may become as a snapshot. Acceptance turns the
snapshots of one batch into one Message: the first snapshot gives its identity,
texts and attachments are joined, and the batch is recorded in the metadata.

JSON that the store keeps and never reads is opaque here (`Json`). The keys
`merged_delivery_ids`, `merged_harness_sources` and `merged_native_message_ids`
are written by the merge alone, so they are fields of the candidate and not of
a submitted snapshot.
-/

namespace Avibe.Deliveries

abbrev Id := String

/-- Timestamps of one column have one format, so their texts compare as instants. -/
abbrev Instant := Nat

abbrev Json := String

inductive MessageKind where
  | original
  | quickReply
  | forwarded
  | edited
  | system
  | unknown
  deriving DecidableEq, Repr

structure Content where
  text : Option String
  attachments : Option (List Json)
  rest : Json
  deriving DecidableEq, Repr

/-- An entry of `_web_push_authorization_contexts`. -/
structure AuthorizationContext where
  userKey : String
  rest : Json
  deriving DecidableEq, Repr

/-- `scheduled_provenance.platform_specific`. -/
structure Provenance where
  /-- The fields of `HARNESS_SOURCE_FIELDS` that have a value. -/
  harnessSource : List (String × Json)
  /-- `message_metadata`, of which only `resource_user_context` is read. -/
  messageMetadata : Option (Option Json)
  rest : Json
  deriving DecidableEq, Repr

structure Metadata where
  webPushUserKey : Option String
  webPushUserKeys : Option (List String)
  webPushAuthorizationContexts : Option (List AuthorizationContext)
  resourceUserContext : Option Json
  scheduledProvenance : Option Provenance
  memoryUserId : Option String
  memoryOrdinaryText : Bool
  quickReplyFor : Bool
  forwarded : Bool
  edited : Bool
  system : Bool
  /-- `input` is `voice`. -/
  voice : Bool
  rest : Json
  deriving DecidableEq, Repr

structure Snapshot where
  scopeId : Option Id
  sessionId : Id
  platform : String
  author : String
  type : String
  authorId : Option String
  authorName : Option String
  source : Option String
  nativeMessageId : Option String
  parentNativeMessageId : Option String
  /-- `none` for a row from before the key existed. -/
  messageKind : Option String
  contentText : Option String
  content : Content
  metadata : Metadata
  readAt : Option Instant
  deriving DecidableEq, Repr

/-! ## The identity a batch must share -/

def isSpace (c : Char) : Bool :=
  (9 ≤ c.toNat && c.toNat ≤ 13) || (28 ≤ c.toNat && c.toNat ≤ 32) ||
    (0x2000 ≤ c.toNat && c.toNat ≤ 0x200A) ||
    [0x85, 0xA0, 0x1680, 0x2028, 0x2029, 0x202F, 0x205F, 0x3000].contains c.toNat

/-- `str.strip`. -/
def strip (s : String) : String :=
  String.ofList (((s.toList.dropWhile isSpace).reverse.dropWhile isSpace).reverse)

def normalizeMessageKind (value : String) : MessageKind :=
  match strip value with
  | "original" => .original
  | "quick_reply" => .quickReply
  | "forwarded" => .forwarded
  | "edited" => .edited
  | "system" => .system
  | _ => .unknown

def messageKindFromMetadata (m : Metadata) : MessageKind :=
  if m.quickReplyFor then .quickReply
  else if m.forwarded then .forwarded
  else if m.edited then .edited
  else if m.system then .system
  else if m.memoryOrdinaryText then .original
  else .unknown

def legacyAdmittedUserId (m : Metadata) : Option String :=
  (m.memoryUserId.map strip).filter (· ≠ "")

/-- `_delegated_authority_merge_identity`. -/
def delegatedAuthority (m : Metadata) : Option Json × Option (Option Json) :=
  (m.resourceUserContext, m.scheduledProvenance.bind (·.messageMetadata))

structure MergeIdentity where
  scopeId : Option Id
  platform : String
  author : String
  type : String
  source : Option String
  authorId : Option String
  authorName : Option String
  parentNativeMessageId : Option String
  kind : MessageKind
  legacyAuthor : Option String
  authority : Option Json × Option (Option Json)
  voice : Bool
  deriving DecidableEq, Repr

def messageMergeIdentity (s : Snapshot) : MergeIdentity where
  scopeId := s.scopeId
  platform := s.platform
  author := s.author
  type := s.type
  source := s.source
  authorId := s.authorId
  authorName := s.authorName
  parentNativeMessageId := s.parentNativeMessageId
  kind := match s.messageKind with
    | some kind => normalizeMessageKind kind
    | none => messageKindFromMetadata s.metadata
  legacyAuthor :=
    if s.platform = "avibe" ∧ s.authorId.getD "" = "" then legacyAdmittedUserId s.metadata
    else none
  authority := delegatedAuthority s.metadata
  voice := s.metadata.voice

/-! ## Merging a batch -/

/-- One Delivery of a batch, as the merge reads it. -/
structure Part where
  id : Id
  submittedAt : Instant
  snapshot : Snapshot
  deriving DecidableEq, Repr

/-- The Message a batch becomes. -/
structure Candidate where
  snapshot : Snapshot
  createdAt : Option Instant
  mergedDeliveryIds : List Id
  mergedHarnessSources : List (List (String × Json))
  mergedNativeMessageIds : List String
  deriving DecidableEq, Repr

def candidateOf (s : Snapshot) : Candidate := ⟨s, none, [], [], []⟩

/-- The user keys of a batch, each once, in the order of their first mention. -/
def webPushUserKeys (parts : List Part) : List String :=
  let keys := parts.flatMap fun p =>
    p.snapshot.metadata.webPushUserKey.toList ++ p.snapshot.metadata.webPushUserKeys.getD []
  (keys.map strip).foldl (fun seen k => if k ≠ "" ∧ k ∉ seen then seen ++ [k] else seen) []

/-- `authorization_contexts[user_key] = raw_context`: the last context of a key, in
the place of the first. -/
def putContext (contexts : List (String × AuthorizationContext)) (c : AuthorizationContext) :
    List (String × AuthorizationContext) :=
  let key := strip c.userKey
  if key = "" then contexts
  else if contexts.any (·.1 = key) then
    contexts.map fun e => if e.1 = key then (key, c) else e
  else contexts ++ [(key, c)]

def authorizationContexts (parts : List Part) : List AuthorizationContext :=
  let contexts := parts.flatMap fun p =>
    p.snapshot.metadata.webPushAuthorizationContexts.getD []
  ((contexts.foldl putContext []).filter fun e => e.1 ∈ webPushUserKeys parts).map (·.2)

def mergedMetadata (first : Metadata) (parts : List Part) : Metadata :=
  { first with
    webPushUserKey := match webPushUserKeys parts with
      | [key] => some key
      | _ => none
    webPushUserKeys := match webPushUserKeys parts with
      | [] | [_] => none
      | keys => some keys
    webPushAuthorizationContexts := match authorizationContexts parts with
      | [] => none
      | contexts => some contexts }

def visibleText (parts : List Part) : String :=
  "\n".intercalate ((parts.map (·.snapshot.contentText.getD "")).filter (· ≠ ""))

def mergedContent (first : Content) (parts : List Part) : Content :=
  { first with
    text := if visibleText parts = "" then none else some (visibleText parts)
    attachments :=
      match parts.flatMap fun p => p.snapshot.content.attachments.getD [] with
      | [] => first.attachments
      | attachments => some attachments }

def harnessSources (parts : List Part) : List (List (String × Json)) :=
  (parts.filter fun p => p.snapshot.source = some "harness").filterMap fun p =>
    p.snapshot.metadata.scheduledProvenance.map (·.harnessSource)

def nativeMessageIds (parts : List Part) : List String :=
  (parts.map (·.snapshot.nativeMessageId.getD "")).filter (· ≠ "")

/-- `_merged_initial_snapshot`; the batch must share one identity. -/
def mergedInitialSnapshot : List Part → Except String Candidate
  | [] => .error "list index out of range"
  | first :: rest =>
      let parts := first :: rest
      if rest.all fun p =>
          messageMergeIdentity p.snapshot = messageMergeIdentity first.snapshot then
        .ok {
          snapshot := { first.snapshot with
            contentText := if visibleText parts = "" then none else some (visibleText parts)
            content := mergedContent first.snapshot.content parts
            metadata := mergedMetadata first.snapshot.metadata parts }
          createdAt := some first.submittedAt
          mergedDeliveryIds := if rest = [] then [] else parts.map (·.id)
          mergedHarnessSources := if rest = [] then [] else harnessSources parts
          mergedNativeMessageIds := if rest = [] then [] else nativeMessageIds parts }
      else .error "Delivery batch contains incompatible Message identities"

/-- A merged Message lists every Delivery of its batch, unless it has only one. -/
theorem mergedInitialSnapshot_ids {parts : List Part} {c : Candidate}
    (h : mergedInitialSnapshot parts = .ok c) :
    c.mergedDeliveryIds = if parts.length = 1 then [] else parts.map (·.id) := by
  cases parts with
  | nil => cases h
  | cons first rest =>
      simp only [mergedInitialSnapshot] at h
      split at h
      · cases h
        cases rest <;> simp
      · cases h

end Avibe.Deliveries
