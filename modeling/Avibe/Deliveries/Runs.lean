import Avibe.Lib.Machine
import Avibe.Deliveries.Evolution

/-!
# Runs of the Delivery store

A run is any list of operations, with any ids and any stale or fresh versions.
An operation that raises is rolled back. Every operation but an acceptance moves
the rows by steps that accept nothing.
-/

namespace Avibe.Deliveries

open Relation Txn

inductive Op where
  | insertDelivery (id sessionId : Id) (priority : Priority) (state : DeliveryState)
      (snapshot : Snapshot) (dispatchText : String) (dedupeKey : Option String)
      (turnId : Option Id) (attempt : CurrentAttempt) (event : Option Event)
  | enqueueQueued (id : Id) (snapshot : Snapshot) (dispatchText : String)
  | openStartAttempt (id : Id) (version : Nat) (turnId attemptId : Id)
  | claimStartBatch (turnId sessionId : Id) (backend : String) (deliveries : List (Id × Nat))
      (dispatchText : String) (attemptId : Id)
  | activateWaitingSuccessor (turn : Turn) (delivery : Delivery) (attemptId : Id)
  | bindNativeStart (turnId : Id) (version : Nat)
      (runtimeKey runtimeTurnId nativeTurnId : Option String) (execution : Option Json)
  | rotateRestartGeneration (turnId : Id) (version streak : Nat) (responseSeq : Option Nat)
      (process : Option String)
  | rebindRestoredNativeGeneration (turnId : Id) (version : Nat) (expected restored : String)
  | markStartUnknown (turnId : Id) (version : Nat) (receipt : StartReceipt)
  | openSteerAttempt (id : Id) (version : Nat) (turnId attemptId : Id) (native : String)
  | openSteerAttemptBatch (deliveries : List (Id × Nat)) (turnId attemptId : Id)
      (native : String)
  | openPendingSteerBatch (deliveries : List (Id × Nat)) (turnId attemptId : Id)
  | markAttemptReceipt (id : Id) (version : Nat) (outcome : ReceiptOutcome) (receipt : Receipt)
  | markAttemptReceiptBatch (leaderId : Id) (outcome : ReceiptOutcome) (receipt : Receipt)
  | materializeStartAcceptance (turnId : Id) (evidence : Json)
  | materializeAcceptance (id : Id) (attemptId : Option Id) (turnId : Id) (evidence : Json)
      (evidenceKind : EventKind)
  | materializeSteerAcceptance (leaderId attemptId turnId : Id) (evidence : Json)
  | recordDefinitiveAttempt (id : Id) (version : Nat) (states : List DeliveryState)
      (outcome : Outcome) (next : DeliveryState) (priority : Option Priority)
      (turnId : Option Id) (receipt : Option Receipt)
  | terminalizeTurn (turnId : Id) (outcome : TerminalOutcome) (settledBy : Option String)
      (evidenceKind : String) (evidence : Json)
  | retireQueued (sessionId id : Id)
  | retireQueuedForResubmission (sessionId id : Id) (dedupeKey : String)
  | retireReserved (sessionId id : Id) (reason : String)
  | retireNotWritten (sessionId id : Id) (reason : String)
  | retireForRunCancellation (sessionId id : Id)
  | retireForArchive (sessionId : Id)
  | claimSuccessor (id : Id) (version : Nat) (sessionId currentTurnId successorTurnId : Id)
      (backend : String)
  | admitToQueue (id : Id) (version : Nat)
  | fallBackToQueue (id : Id) (version : Nat) (fallback : Fallback)
  | releaseSuccessor (id : Id) (version : Nat) (turnId : Id) (outcome : String)
  | markFailureRetry (deliveries : List (Id × Nat))

/-- Run a transaction for its effect. -/
def effect {α : Type} (m : Db α) : Db Unit := m >>= fun _ => pure ()

def Op.run (sha : Digest) (now : Instant) : Op → Db Unit
  | .insertDelivery id sessionId priority state snapshot text dedupeKey turnId attempt event =>
      effect (Deliveries.insertDelivery sha id sessionId priority state snapshot text dedupeKey
        turnId attempt event now)
  | .enqueueQueued id snapshot text => effect (Deliveries.enqueueQueued sha id snapshot text now)
  | .openStartAttempt id version turnId attemptId =>
      effect (Deliveries.openStartAttempt sha id version turnId attemptId now)
  | .claimStartBatch turnId sessionId backend deliveries text attemptId =>
      effect (Deliveries.claimStartBatch sha turnId sessionId backend deliveries text attemptId
        now)
  | .activateWaitingSuccessor turn delivery attemptId =>
      effect (Deliveries.activateWaitingSuccessor sha turn delivery attemptId now)
  | .bindNativeStart turnId version key runtimeTurnId nativeTurnId execution =>
      effect (Deliveries.bindNativeStart turnId version key runtimeTurnId nativeTurnId execution
        now)
  | .rotateRestartGeneration turnId version streak seq process =>
      effect (Deliveries.rotateRestartGeneration turnId version streak seq process now)
  | .rebindRestoredNativeGeneration turnId version expected restored =>
      effect (Deliveries.rebindRestoredNativeGeneration turnId version expected restored now)
  | .markStartUnknown turnId version receipt =>
      effect (Deliveries.markStartUnknown turnId version receipt now)
  | .openSteerAttempt id version turnId attemptId native =>
      effect (Deliveries.openSteerAttempt id version turnId attemptId native now)
  | .openSteerAttemptBatch deliveries turnId attemptId native =>
      effect (Deliveries.openSteerAttemptBatch deliveries turnId attemptId native now)
  | .openPendingSteerBatch deliveries turnId attemptId =>
      effect (Deliveries.openPendingSteerBatch deliveries turnId attemptId now)
  | .markAttemptReceipt id version outcome receipt =>
      effect (Deliveries.markAttemptReceipt id version outcome receipt now)
  | .markAttemptReceiptBatch leaderId outcome receipt =>
      effect (Deliveries.markAttemptReceiptBatch leaderId outcome receipt now)
  | .materializeStartAcceptance turnId evidence =>
      effect (Deliveries.materializeStartAcceptance sha turnId evidence now)
  | .materializeAcceptance id attemptId turnId evidence kind =>
      effect (Deliveries.materializeAcceptance sha id attemptId turnId evidence kind now)
  | .materializeSteerAcceptance leaderId attemptId turnId evidence =>
      effect (Deliveries.materializeSteerAcceptance sha leaderId attemptId turnId evidence now)
  | .recordDefinitiveAttempt id version states outcome next priority turnId receipt =>
      effect (Deliveries.recordDefinitiveAttempt id version states outcome next priority turnId
        receipt now)
  | .terminalizeTurn turnId outcome settledBy kind evidence =>
      effect (Deliveries.terminalizeTurn turnId outcome settledBy kind evidence now)
  | .retireQueued sessionId id => effect (Deliveries.retireQueued sessionId id now)
  | .retireQueuedForResubmission sessionId id dedupeKey =>
      effect (Deliveries.retireQueuedForResubmission sessionId id dedupeKey now)
  | .retireReserved sessionId id reason =>
      effect (Deliveries.retireReserved sessionId id reason now)
  | .retireNotWritten sessionId id reason =>
      effect (Deliveries.retireNotWritten sessionId id reason now)
  | .retireForRunCancellation sessionId id =>
      effect (Deliveries.retireForRunCancellation sessionId id now)
  | .retireForArchive sessionId => effect (Deliveries.retireForArchive sessionId now)
  | .claimSuccessor id version sessionId currentTurnId successorTurnId backend =>
      effect (Deliveries.claimSuccessor sha id version sessionId currentTurnId successorTurnId
        backend now)
  | .admitToQueue id version => effect (Deliveries.admitToQueue id version now)
  | .fallBackToQueue id version fallback =>
      effect (Deliveries.fallBackToQueue id version fallback now)
  | .releaseSuccessor id version turnId outcome =>
      effect (Deliveries.releaseSuccessor id version turnId outcome now)
  | .markFailureRetry deliveries => effect (Deliveries.markFailureRetry deliveries now)

/-- A submission is `reserved` or `queued`, and a definitive outcome settles an open row
to `queued`, `reserved` or `retired`. -/
def Op.Allowed : Op → Prop
  | .insertDelivery _ _ _ state _ _ _ _ _ _ => state = .reserved ∨ state = .queued
  | .recordDefinitiveAttempt _ _ states _ next _ _ _ =>
      (∀ st ∈ states, st.terminal = false) ∧
        (next = .queued ∨ next = .reserved ∨ next = .retired)
  | _ => True

/-- The events that the caller names are those of a submission and of an outcome. -/
def Op.Named : Op → Prop
  | .insertDelivery _ _ _ _ _ _ _ _ _ event =>
      ∀ e ∈ event, e.kind ≠ .start ∧ e.kind ≠ .steer
  | .recordDefinitiveAttempt _ _ _ outcome _ _ _ _ =>
      outcome ∉ [.claimed, .opened, .claimedAfterInterrupt]
  | _ => True

/-- The Turn that an operation opens: its id, its Session and its initial Delivery. -/
def Op.opens : Op → Option (Id × Id × Id)
  | .claimStartBatch turnId sessionId _ deliveries _ _ =>
      deliveries.head?.map fun first => (turnId, sessionId, first.1)
  | .claimSuccessor id _ sessionId _ successorTurnId _ => some (successorTurnId, sessionId, id)
  | _ => none

/-- The places that an operation gives: the Delivery, its seat, the Turn and the
position. -/
def Op.joins : Op → Id → Seat → Id → Nat → Prop
  | .openStartAttempt id _ turnId _ => fun i r t q =>
      i = id ∧ r = .start ∧ t = turnId ∧ q = 0
  | .claimStartBatch turnId _ _ deliveries _ _ => fun i r t q =>
      r = .start ∧ t = turnId ∧ ∃ version, ((i, version), q) ∈ deliveries.zipIdx
  | .claimSuccessor id _ _ _ successorTurnId _ => fun i r t q =>
      i = id ∧ r = .successor ∧ t = successorTurnId ∧ q = 0
  | .materializeAcceptance _ _ turnId _ _ => fun _ r t _ => r = .steer ∧ t = turnId
  | .materializeSteerAcceptance _ _ turnId _ => fun _ r t _ => r = .steer ∧ t = turnId
  | _ => fun _ _ _ _ => False

/-- Whether an operation takes Deliveries back out of their Turns. -/
def Op.returns : Op → Prop
  | .recordDefinitiveAttempt .. | .releaseSuccessor .. => True
  | _ => False

theorem Op.joins_of_returns {op : Op} (h : op.returns) (i : Id) (r : Seat) (t : Id) (q : Nat) :
    ¬ op.joins i r t q := by
  cases op <;> simp_all [Op.returns, Op.joins]

/-- The store after one operation. -/
def next (sha : Digest) (s : Store) (op : Op × Instant) : Store := commit (op.1.run sha op.2) s

/-- A digest and a text input to run the store on. -/
def plainDigest : Digest := ⟨fun s => s.contentText.getD "", fun t => t⟩

def plainSnapshot (text : String) : Snapshot :=
  { scopeId := none
    sessionId := "ses"
    platform := "avibe"
    author := "user"
    type := "user"
    authorId := none
    authorName := none
    source := some "user"
    nativeMessageId := none
    parentNativeMessageId := none
    messageKind := some "original"
    contentText := some text
    content := ⟨some text, none, ""⟩
    metadata :=
      { webPushUserKey := none
        webPushUserKeys := none
        webPushAuthorizationContexts := none
        resourceUserContext := none
        scheduledProvenance := none
        memoryUserId := none
        memoryOrdinaryText := false
        quickReplyFor := false
        forwarded := false
        edited := false
        system := false
        voice := false
        rest := "" }
    readAt := none }

/-! ## Operations that accept nothing -/

section Keeps

variable {p : Permit} {sha : Digest} {now : Instant}

theorem keeps_effect {α : Type} {m : Db α} (h : Keeps (Evolves p) m) :
    Keeps (Evolves p) (effect m) :=
  keeps_bind h fun _ => keeps_pure ()

theorem keeps_enqueueQueued {id : Id} {snapshot : Snapshot} {text : String} :
    Keeps (Evolves p) (enqueueQueued sha id snapshot text now) :=
  keeps_insertDelivery (.inr rfl) (by simp)

theorem keeps_openStartAttempt {id turnId attemptId : Id} {version : Nat}
    (hp : p.joins id .start turnId 0) :
    Keeps (Evolves p) (openStartAttempt sha id version turnId attemptId now) := by
  refine keeps_bind (keeps_getTurn turnId) fun turn => keeps_bind (keeps_getDelivery id) ?_
  intro delivery
  cases turn with
  | none => exact keeps_pure none
  | some turn =>
      cases delivery with
      | none => exact keeps_pure none
      | some delivery =>
          dsimp only
          split
          · exact keeps_pure none
          · refine keeps_bind (keeps_casTurn fun _ => rfl) fun updated => ?_
            split
            · exact keeps_pure none
            · exact keeps_casDelivery (fun _ => rfl)
                fun d hi hs => .claim d turnId 0 (some now) _ now (hi ▸ hp) hs rfl (.inr rfl)

theorem keeps_claimStartBatch {turnId sessionId attemptId : Id} {backend text : String}
    {deliveries : List (Id × Nat)}
    (ho : ∀ first ∈ deliveries.head?, p.opens = some (turnId, sessionId, first.1))
    (hp : ∀ e ∈ deliveries.zipIdx, p.joins e.1.1 .start turnId e.2) :
    Keeps (Evolves p)
      (claimStartBatch sha turnId sessionId backend deliveries text attemptId now) := by
  cases deliveries with
  | nil => exact keeps_throw
  | cons first rest =>
      exact keeps_bind (keeps_insertTurn (ho first rfl)) fun _ =>
        keeps_mapM' _ fun entry he => keeps_casOrRaise (fun _ => rfl)
          fun d hi hs => .claim d turnId entry.2 none _ now (hi ▸ hp entry he) hs rfl (.inl rfl)

theorem keeps_activateWaitingSuccessor {turn : Turn} {delivery : Delivery} {attemptId : Id} :
    Keeps (Evolves p) (activateWaitingSuccessor sha turn delivery attemptId now) := by
  unfold activateWaitingSuccessor
  split
  · exact keeps_pure none
  · refine keeps_bind (keeps_casTurn fun _ => rfl) fun started => ?_
    split
    · exact keeps_pure none
    · refine keeps_bind (keeps_casOrRaise (fun _ => rfl) fun d _ hs => ?_)
        fun _ => keeps_pure started
      exact .activate d _ now (List.mem_singleton.mp hs) rfl rfl rfl

theorem keeps_bindNativeStart {turnId : Id} {version : Nat}
    {key runtimeTurnId nativeTurnId : Option String} {execution : Option Json} :
    Keeps (Evolves p)
      (bindNativeStart turnId version key runtimeTurnId nativeTurnId execution now) := by
  refine keeps_bind (keeps_getTurn turnId) fun turn => ?_
  cases turn with
  | none => exact keeps_pure none
  | some turn =>
      dsimp only
      split
      · exact keeps_casTurn fun _ => rfl
      · exact keeps_pure none

theorem keeps_rotateRestartGeneration {turnId : Id} {version streak : Nat} {seq : Option Nat}
    {process : Option String} :
    Keeps (Evolves p) (rotateRestartGeneration turnId version streak seq process now) := by
  refine keeps_bind (keeps_getTurn turnId) fun turn => ?_
  cases turn with
  | none => exact keeps_pure none
  | some turn =>
      dsimp only
      split
      · exact keeps_pure none
      · exact keeps_casTurn fun _ => rfl

theorem keeps_rebindRestoredNativeGeneration {turnId : Id} {version : Nat}
    {expected restored : String} :
    Keeps (Evolves p)
      (rebindRestoredNativeGeneration turnId version expected restored now) := by
  refine keeps_bind (keeps_getTurn turnId) fun turn => ?_
  cases turn with
  | none => exact keeps_pure none
  | some turn =>
      dsimp only
      split
      · exact keeps_pure none
      · refine keeps_bind (keeps_casTurn fun _ => rfl) fun rebound => ?_
        split
        · exact keeps_pure none
        · refine keeps_bind keeps_get fun s => keeps_bind (keeps_mapM' _ fun attempt ha => ?_)
            fun _ => keeps_pure rebound
          refine keeps_casOrRaise (fun _ => rfl) fun d _ hs => ?_
          have hstate : attempt.state = .steering ∨ attempt.state = .reconcilingSteer := by
            simp only [List.mem_filter, Bool.and_eq_true, Bool.or_eq_true,
              decide_eq_true_eq] at ha
            exact ha.2.1.2
          exact .rebind d restored _ now (List.mem_singleton.mp hs ▸ hstate) rfl

theorem keeps_openSteerAttempt {id : Id} {version : Nat} {turnId attemptId : Id}
    {native : String} :
    Keeps (Evolves p) (openSteerAttempt id version turnId attemptId native now) := by
  refine keeps_bind (keeps_getDelivery id) fun current => ?_
  split
  · exact keeps_pure none
  · exact keeps_casDelivery (fun _ => rfl)
      fun d _ hs => .steer d .steering attemptId turnId _ _ now hs (.inl rfl) rfl

theorem keeps_openSteerAttemptBatch {deliveries : List (Id × Nat)} {turnId attemptId : Id}
    {native : String} :
    Keeps (Evolves p) (openSteerAttemptBatch deliveries turnId attemptId native now) :=
  keeps_mapM' _ fun _ _ => keeps_bind keeps_openSteerAttempt fun _ => keeps_orRaise _ _

theorem keeps_openPendingSteerBatch {deliveries : List (Id × Nat)} {turnId attemptId : Id} :
    Keeps (Evolves p) (openPendingSteerBatch deliveries turnId attemptId now) := by
  refine keeps_mapM' _ fun entry _ => keeps_casOrRaise (fun _ => rfl) fun d _ hs => ?_
  have hs' : d.state ∈ [.reserved, .queued, .pendingSteer] := by
    rcases List.mem_pair.mp hs with h | h <;> simp [h]
  exact .steer d .pendingSteer attemptId turnId none _ now hs' (.inr rfl) rfl

theorem keeps_markAttemptReceipt {id : Id} {version : Nat} {outcome : ReceiptOutcome}
    {receipt : Receipt} :
    Keeps (Evolves p) (markAttemptReceipt id version outcome receipt now) := by
  refine keeps_bind keeps_raiseIf fun _ => keeps_bind (keeps_getDelivery id) fun delivery => ?_
  cases delivery with
  | none => exact keeps_pure none
  | some delivery =>
      dsimp only
      split
      · exact keeps_pure none
      · refine keeps_casDelivery (fun _ => rfl) fun d _ hs => ?_
        have hs' : d.state = .steering ∨ d.state = .reconcilingSteer := by
          split at hs
          · simpa using hs
          · exact .inl (List.mem_singleton.mp hs)
        exact .receipt d outcome receipt _ now hs' rfl

theorem keeps_markAttemptReceiptBatch {leaderId : Id} {outcome : ReceiptOutcome}
    {receipt : Receipt} :
    Keeps (Evolves p) (markAttemptReceiptBatch leaderId outcome receipt now) := by
  refine keeps_bind (keeps_getDelivery leaderId) fun leader => ?_
  cases leader.bind (·.currentAttemptId) with
  | none => exact keeps_pure []
  | some attemptId =>
      refine keeps_bind (keeps_selectDeliveries _ _) fun rows => ?_
      split
      · exact keeps_pure []
      · refine keeps_mapM' _ fun row _ => ?_
        split
        · exact keeps_pure row
        · exact keeps_bind keeps_markAttemptReceipt fun _ => keeps_orRaise _ _

/-- The event of a definitive outcome is about the row that the write finds. -/
theorem keeps_recordDefinitiveAttempt {id : Id} {version : Nat} {states : List DeliveryState}
    {outcome : Outcome} {next : DeliveryState} {priority : Option Priority}
    {turnId : Option Id} {receipt : Option Receipt}
    (hstates : ∀ st ∈ states, st.terminal = false)
    (hnext : next = .queued ∨ next = .reserved ∨ next = .retired)
    (ho : p.named → outcome ∉ [Outcome.claimed, .opened, .claimedAfterInterrupt])
    (hr : p.returns) :
    Keeps (Evolves p) (recordDefinitiveAttempt id version states outcome next priority turnId
      receipt now) := by
  intro s r s' h
  obtain ⟨delivery, t, hg, hc⟩ := bind_ok h
  obtain ⟨rfl, rfl⟩ := getDelivery_ok hg
  cases hd : s.deliveries.get? id with
  | none =>
      rw [hd] at hc
      obtain ⟨-, rfl⟩ := pure_ok hc
      exact Std.Refl.refl s
  | some d =>
      rw [hd] at hc
      rcases casDelivery_ok hc with ⟨-, rfl⟩ | ⟨d', deliveries, hd', -, hs, -, hrep, rfl⟩
      · exact Std.Refl.refl s'
      · rw [hd] at hd'
        cases hd'
        refine evolves_of_saved ?_ hd hrep
          (.settle d next priority turnId _ now ?_ hnext rfl ?_ hr)
        · rcases hnext with rfl | rfl | rfl <;> rfl
        · have := hstates _ hs
          constructor <;> rintro heq <;> simp [heq, DeliveryState.terminal] at this
        · intro hn o hmem heq
          cases heq
          exact ho hn hmem

theorem keeps_terminalizeTurn {turnId : Id} {outcome : TerminalOutcome}
    {settledBy : Option String} {kind : String} {evidence : Json} :
    Keeps (Evolves p) (terminalizeTurn turnId outcome settledBy kind evidence now) := by
  refine keeps_bind (keeps_getTurn turnId) fun turn => ?_
  cases turn with
  | none => exact keeps_pure _
  | some turn =>
      dsimp only
      split
      · exact keeps_pure _
      · split
        · exact keeps_pure _
        · exact keeps_bind (keeps_casTurn fun _ => rfl) fun _ => keeps_pure _

/-- The retirements of a row that nothing claimed. -/
theorem keeps_retireQueued {sessionId id : Id} :
    Keeps (Evolves p) (retireQueued sessionId id now) := by
  refine keeps_bind (keeps_getDelivery id) fun delivery => ?_
  cases delivery with
  | none => exact keeps_pure false
  | some delivery =>
      dsimp only
      split
      · exact keeps_pure false
      · exact keeps_bind (keeps_casDelivery (fun _ => rfl)
          fun d _ hs => .retire d d.dedupeKey _ now (.inl (List.mem_singleton.mp hs)) rfl)
          fun _ => keeps_pure _

theorem keeps_retireQueuedForResubmission {sessionId id : Id} {dedupeKey : String} :
    Keeps (Evolves p) (retireQueuedForResubmission sessionId id dedupeKey now) := by
  refine keeps_bind (keeps_getDelivery id) fun delivery => ?_
  cases delivery with
  | none => exact keeps_pure false
  | some delivery =>
      dsimp only
      split
      · exact keeps_pure false
      · exact keeps_bind (keeps_casDelivery (fun _ => rfl)
          fun d _ hs => .retire d none _ now (.inl (List.mem_singleton.mp hs)) rfl)
          fun _ => keeps_pure _

theorem keeps_retireReserved {sessionId id : Id} {reason : String} :
    Keeps (Evolves p) (retireReserved sessionId id reason now) := by
  refine keeps_bind (keeps_getDelivery id) fun delivery => ?_
  cases delivery with
  | none => exact keeps_pure false
  | some delivery =>
      dsimp only
      split
      · exact keeps_pure false
      · exact keeps_bind (keeps_casDelivery (fun _ => rfl)
          fun d _ hs => .retire d d.dedupeKey _ now (.inr (List.mem_singleton.mp hs)) rfl)
          fun _ => keeps_pure _

theorem keeps_retireNotWritten {sessionId id : Id} {reason : String} :
    Keeps (Evolves p) (retireNotWritten sessionId id reason now) := by
  refine keeps_bind (keeps_getDelivery id) fun delivery => ?_
  cases delivery with
  | none => exact keeps_pure false
  | some delivery =>
      dsimp only
      split
      · exact keeps_pure false
      · rename_i hc
        have hcancel : delivery.state.runCancel = .retire := by
          simpa using (not_or.mp hc).2
        exact keeps_bind (keeps_casDelivery (fun _ => rfl)
          fun d _ hs => .retireUnwritten d _ now (List.mem_singleton.mp hs ▸ hcancel) rfl)
          fun _ => keeps_pure _

theorem unlinkSuccessor_origin (predecessor t : Turn) :
    (predecessor.unlinkSuccessor t).origin = t.origin := by
  unfold Turn.unlinkSuccessor
  dsimp only
  split
  · rfl
  · split <;> rfl

theorem keeps_retireForRunCancellation {sessionId id : Id} :
    Keeps (Evolves p) (retireForRunCancellation sessionId id now) := by
  refine keeps_bind keeps_retireNotWritten fun done => ?_
  split
  · exact keeps_pure true
  · refine keeps_bind (keeps_getDelivery id) fun delivery => ?_
    cases delivery with
    | none => exact keeps_pure false
    | some delivery =>
        dsimp only
        split
        · exact keeps_pure false
        · refine keeps_bind (keeps_getTurn _) fun successor => ?_
          split
          · exact keeps_pure false
          · refine keeps_bind keeps_get fun s => keeps_bind (keeps_casOrRaise (fun _ => rfl)
              fun d _ hs => .retireSuccessor d _ now (List.mem_singleton.mp hs) rfl) fun _ => ?_
            split
            · exact keeps_pure true
            · exact keeps_bind (keeps_casTurn (unlinkSuccessor_origin _)) fun _ =>
                keeps_bind (keeps_orRaise _ _) fun _ => keeps_pure true

theorem keeps_retireForArchive {sessionId : Id} :
    Keeps (Evolves p) (retireForArchive sessionId now) := by
  refine keeps_bind keeps_get fun s => keeps_bind (keeps_mapM' _ fun row hrow => ?_)
    fun _ => keeps_pure _
  have hcancel : row.state.runCancel = .retire := by
    simp only [List.mem_filter, Bool.and_eq_true, decide_eq_true_eq] at hrow
    exact hrow.2.2
  exact keeps_casDelivery (fun _ => rfl)
    fun d _ hs => .retireUnwritten d _ now (List.mem_singleton.mp hs ▸ hcancel) rfl

theorem keeps_claimSuccessor {id sessionId currentId successorId : Id} {version : Nat}
    {backend : String} (ho : p.opens = some (successorId, sessionId, id))
    (hp : p.joins id .successor successorId 0) :
    Keeps (Evolves p) (claimSuccessor sha id version sessionId currentId successorId backend
      now) :=
  keeps_bind (keeps_insertTurn ho) fun _ => keeps_casOrRaise (fun _ => rfl)
    fun d hi hs => .successor d successorId _ now (hi ▸ hp) (List.mem_singleton.mp hs) rfl

theorem keeps_admitToQueue {id : Id} {version : Nat} :
    Keeps (Evolves p) (admitToQueue id version now) :=
  keeps_casOrRaise (fun _ => rfl)
    fun d _ hs => .queue d d.priority _ now (List.mem_pair.mp hs) (.inr rfl) (by simp)

theorem fallback_kind (fallback : Fallback) :
    (fallback.event now).kind ∈ [EventKind.queue, .admission, .steer, .interruptJoin] := by
  cases fallback <;> simp [Fallback.event]

theorem keeps_fallBackToQueue {id : Id} {version : Nat} {fallback : Fallback} :
    Keeps (Evolves p) (fallBackToQueue id version fallback now) :=
  keeps_casOrRaise (fun _ => rfl)
    fun d _ hs => .queue d .p3 _ now (.inl (List.mem_singleton.mp hs)) (.inl rfl)
      (fallback_kind fallback)

theorem keeps_releaseSuccessor {id turnId : Id} {version : Nat} {outcome : String}
    (hr : p.returns) :
    Keeps (Evolves p) (releaseSuccessor id version turnId outcome now) :=
  keeps_casOrRaise (fun _ => rfl)
    fun d _ hs => .release d _ now (List.mem_singleton.mp hs) rfl hr

theorem keeps_markFailureRetry {deliveries : List (Id × Nat)} :
    Keeps (Evolves p) (markFailureRetry deliveries now) :=
  keeps_mapM' _ fun _ _ => keeps_casOrRaise (fun _ => rfl)
    fun d _ hs => .failureRetry d _ now (List.mem_singleton.mp hs) rfl

end Keeps

/-- Whether an operation accepts Deliveries. -/
def Op.accepting : Op → Bool
  | .materializeStartAcceptance .. | .materializeAcceptance .. |
    .materializeSteerAcceptance .. => true
  | _ => false

/-- What an operation may do, given the Message it accepts into. -/
def Op.permit (op : Op) (accepts : Option Id) : Permit :=
  ⟨accepts, op.opens, op.joins, op.Named, op.returns⟩

theorem Op.keeps {sha : Digest} {now : Instant} {op : Op} (hop : op.Allowed)
    (ha : op.accepting = false) : Keeps (Evolves (op.permit none)) (op.run sha now) := by
  cases op with
  | insertDelivery => exact keeps_effect (keeps_insertDelivery hop id)
  | enqueueQueued => exact keeps_effect keeps_enqueueQueued
  | openStartAttempt => exact keeps_effect (keeps_openStartAttempt ⟨rfl, rfl, rfl, rfl⟩)
  | claimStartBatch =>
      exact keeps_effect (keeps_claimStartBatch
        (fun first hf => by rw [Op.permit, Op.opens, Option.mem_def.mp hf]; rfl)
        fun e he => ⟨rfl, rfl, e.1.2, he⟩)
  | activateWaitingSuccessor => exact keeps_effect keeps_activateWaitingSuccessor
  | bindNativeStart => exact keeps_effect keeps_bindNativeStart
  | rotateRestartGeneration => exact keeps_effect keeps_rotateRestartGeneration
  | rebindRestoredNativeGeneration => exact keeps_effect keeps_rebindRestoredNativeGeneration
  | markStartUnknown => exact keeps_effect (keeps_casTurn fun _ => rfl)
  | openSteerAttempt => exact keeps_effect keeps_openSteerAttempt
  | openSteerAttemptBatch => exact keeps_effect keeps_openSteerAttemptBatch
  | openPendingSteerBatch => exact keeps_effect keeps_openPendingSteerBatch
  | markAttemptReceipt => exact keeps_effect keeps_markAttemptReceipt
  | markAttemptReceiptBatch => exact keeps_effect keeps_markAttemptReceiptBatch
  | materializeStartAcceptance => cases ha
  | materializeAcceptance => cases ha
  | materializeSteerAcceptance => cases ha
  | recordDefinitiveAttempt =>
      exact keeps_effect (keeps_recordDefinitiveAttempt hop.1 hop.2 id trivial)
  | terminalizeTurn => exact keeps_effect keeps_terminalizeTurn
  | retireQueued => exact keeps_effect keeps_retireQueued
  | retireQueuedForResubmission => exact keeps_effect keeps_retireQueuedForResubmission
  | retireReserved => exact keeps_effect keeps_retireReserved
  | retireNotWritten => exact keeps_effect keeps_retireNotWritten
  | retireForRunCancellation => exact keeps_effect keeps_retireForRunCancellation
  | retireForArchive => exact keeps_effect keeps_retireForArchive
  | claimSuccessor => exact keeps_effect (keeps_claimSuccessor rfl ⟨rfl, rfl, rfl, rfl⟩)
  | admitToQueue => exact keeps_effect keeps_admitToQueue
  | fallBackToQueue => exact keeps_effect keeps_fallBackToQueue
  | releaseSuccessor => exact keeps_effect (keeps_releaseSuccessor trivial)
  | markFailureRetry => exact keeps_effect keeps_markFailureRetry

end Avibe.Deliveries
