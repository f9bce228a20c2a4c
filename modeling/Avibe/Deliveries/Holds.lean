import Avibe.Deliveries.Ownership

/-!
# The explicit-retry hold

A start that failed before anything was written, in a way that needs its owner's
decision, holds the Delivery in the queue. The hold and the count of startup
failures are read backwards from the Delivery's history. Both readers know the
openings `claimed` and `opened`; the third way to open a start,
`claimed_after_interrupt`, ends their scan.
-/

namespace Avibe.Deliveries

open Relation Txn Machine

/-! ## The readers -/

/-- `event.get("receipt") or {}`. -/
def Event.receiptOrEmpty (e : Event) : Receipt := e.receipt.getD .empty

/-- The loop of `explicit_start_retry_receipt`, over the newest event first. -/
def scanHold (completedNoWrite : Bool) : List Event → Option Receipt
  | [] => none
  | e :: rest =>
      if e.kind = .backendFailureRetry then none
      else if e.kind = .start then
        if e.outcome = some .notWritten ∧ e.receiptOrEmpty.requiresExplicitRetry then
          some e.receiptOrEmpty
        else if e.outcome = some .notWritten then scanHold true rest
        else if completedNoWrite ∧ (e.outcome = some .claimed ∨ e.outcome = some .opened) then
          scanHold completedNoWrite rest
        else none
      else scanHold completedNoWrite rest

def explicitStartRetryReceipt (d : Delivery) : Option Receipt := scanHold false d.history.reverse

/-- The loop of `consecutive_prewrite_start_failures`, over the newest event first. -/
def scanFailures : List Event → Nat
  | [] => 0
  | e :: rest =>
      if e.kind = .backendFailureRetry then 0
      else if e.kind ≠ .start then scanFailures rest
      else if e.outcome = some .claimed ∨ e.outcome = some .opened then scanFailures rest
      else if e.receiptOrEmpty.reason = some "refused_concurrent_turn" then scanFailures rest
      else if e.outcome ≠ some .notWritten ∨
          e.receiptOrEmpty.kind ≠ some "definitive_prewrite_failure" ∨
          e.receiptOrEmpty.reason ≠ some "no_terminal_result" then 0
      else scanFailures rest + 1

def consecutivePrewriteStartFailures (d : Delivery) : Nat := scanFailures d.history.reverse

/-! ## What they should read -/

/-- A start was opened, through any of the three paths. -/
def Event.opens (e : Event) : Bool :=
  e.kind = .start && (e.outcome = some .claimed || e.outcome = some .opened ||
    e.outcome = some .claimedAfterInterrupt)

def Event.afterInterrupt (e : Event) : Bool :=
  e.kind = .start && e.outcome = some .claimedAfterInterrupt

/-- A start ended unwritten and asked for an explicit retry. -/
def Event.holds (e : Event) : Bool :=
  e.kind = .start && e.outcome = some .notWritten && e.receiptOrEmpty.requiresExplicitRetry

/-- The event leaves a hold in place: it is no retry, and a start that it completes
ended unwritten. -/
def Event.leavesHold (e : Event) : Bool :=
  e.kind ≠ .backendFailureRetry &&
    (e.kind ≠ .start || e.opens || e.outcome = some .notWritten)

/-- A startup failure that counts. -/
def Event.failsPrewrite (e : Event) : Bool :=
  e.kind = .start && e.outcome = some .notWritten &&
    e.receiptOrEmpty.kind = some "definitive_prewrite_failure" &&
    e.receiptOrEmpty.reason = some "no_terminal_result"

/-- A failure retry, or a start that completed otherwise. A start that was refused
because another Turn ran did not complete. -/
def Event.endsCount (e : Event) : Bool :=
  e.kind = .backendFailureRetry ||
    (e.kind = .start && !e.opens && !e.failsPrewrite &&
      e.receiptOrEmpty.reason ≠ some "refused_concurrent_turn")

/-- The hold is read as long as every later start ends unwritten. -/
def HoldKept (d : Delivery) : Prop :=
  ∀ before e later, d.history = before ++ e :: later → e.holds = true →
    (∀ f ∈ later, f.leavesHold = true) → (explicitStartRetryReceipt d).isSome

/-- The events since the last failure retry or the last start that completed otherwise,
the newest first. -/
def Delivery.countRegion (d : Delivery) : List Event :=
  d.history.reverse.takeWhile fun e => !e.endsCount

/-- Exactly the startup failures since then are counted. -/
def CountExact (d : Delivery) : Prop :=
  consecutivePrewriteStartFailures d = d.countRegion.countP Event.failsPrewrite

/-! ## Exactly when the hold is read -/

/-- After the latest hold no start was opened after an interrupt. -/
def HoldUninterrupted (d : Delivery) : Prop :=
  ∀ before e later, d.history = before ++ e :: later → e.holds = true →
    (∀ f ∈ later, f.leavesHold = true ∧ f.holds = false) → ∀ f ∈ later, f.afterInterrupt = false

/-- Of two starts in the region the newer was not opened after an interrupt if the older
is a failure that counts. -/
def CountUninterrupted (d : Delivery) : Prop :=
  d.countRegion.Pairwise fun newer older =>
    older.failsPrewrite = true → newer.afterInterrupt = false

theorem scanHold_of_holds {e : Event} (h : e.holds = true) (b : Bool) (rest : List Event) :
    (scanHold b (e :: rest)).isSome := by
  simp only [Event.holds, Bool.and_eq_true, decide_eq_true_eq] at h
  simp [scanHold, h]

/-- Once a start was seen to end unwritten, only an opening after an interrupt stops the
scan before the hold. -/
theorem scanHold_completed {later : List Event} {e : Event} {rest : List Event}
    (he : e.holds = true) (hl : ∀ f ∈ later, f.leavesHold = true ∧ f.holds = false) :
    (scanHold true (later ++ e :: rest)).isSome ↔ ∀ f ∈ later, f.afterInterrupt = false := by
  induction later with
  | nil => simp [scanHold_of_holds he]
  | cons f later ih =>
      have ih := ih fun g hg => hl g (List.mem_cons_of_mem _ hg)
      obtain ⟨hleave, hnot⟩ := hl f List.mem_cons_self
      simp only [List.forall_mem_cons, ← ih]
      simp only [Event.leavesHold, Event.opens, Event.holds, Bool.and_eq_true, Bool.or_eq_true,
        decide_eq_true_eq] at hleave hnot
      rw [List.cons_append, scanHold]
      by_cases hk : f.kind = .start
      · rcases ho : f.outcome with _ | o
        · simp_all
        · cases o <;> simp_all [Event.afterInterrupt]
      · simp_all [Event.afterInterrupt]

def isStart (e : Event) : Bool := e.kind = .start

/-- The same from the newest event on, when no start is open. -/
theorem scanHold_settled {later : List Event} {e : Event} {rest : List Event}
    (he : e.holds = true) (hl : ∀ f ∈ later, f.leavesHold = true ∧ f.holds = false)
    (hset : ∀ f, (later ++ e :: rest).find? isStart = some f → f.opens = false) :
    (scanHold false (later ++ e :: rest)).isSome ↔ ∀ f ∈ later, f.afterInterrupt = false := by
  induction later with
  | nil => simp [scanHold_of_holds he]
  | cons f later ih =>
      have hl' : ∀ g ∈ later, g.leavesHold = true ∧ g.holds = false :=
        fun g hg => hl g (List.mem_cons_of_mem _ hg)
      obtain ⟨hleave, hnot⟩ := hl f List.mem_cons_self
      simp only [List.forall_mem_cons]
      rw [List.cons_append] at hset ⊢
      by_cases hk : f.kind = .start
      · have hopen : f.opens = false := hset f (by simp [isStart, hk])
        have hcode : scanHold false (f :: (later ++ e :: rest)) =
            scanHold true (later ++ e :: rest) := by
          simp_all [scanHold, Event.leavesHold, Event.holds]
        have hnone : f.afterInterrupt = false := by
          simp_all [Event.opens, Event.afterInterrupt]
        rw [hcode, scanHold_completed he hl']
        simp [hnone]
      · have hcode : scanHold false (f :: (later ++ e :: rest)) =
            scanHold false (later ++ e :: rest) := by
          simp_all [scanHold, Event.leavesHold]
        have hnone : f.afterInterrupt = false := by simp [Event.afterInterrupt, hk]
        rw [hcode, ih hl' fun g hg => hset g (by simpa [isStart, hk] using hg)]
        simp [hnone]

/-- Among the holds of a history that still stand there is a latest one. -/
theorem exists_latest_hold {history before later : List Event} {e : Event}
    (h : history = before ++ e :: later) (he : e.holds = true)
    (hl : ∀ f ∈ later, f.leavesHold = true) :
    ∃ before' e' later', history = before' ++ e' :: later' ∧ e'.holds = true ∧
      ∀ f ∈ later', f.leavesHold = true ∧ f.holds = false := by
  induction hn : later.length using Nat.strongRecOn generalizing before e later with
  | ind n ih =>
      by_cases hex : ∃ f ∈ later, f.holds = true
      · obtain ⟨f, hf, hholds⟩ := hex
        obtain ⟨a, b, rfl⟩ := List.append_of_mem hf
        have hlen : b.length < n := by
          rw [← hn]
          simp
          omega
        have hsplit : history = (before ++ e :: a) ++ f :: b := by
          rw [h]
          simp
        exact ih b.length hlen hsplit hholds (fun g hg => hl g (by simp [hg])) rfl
      · refine ⟨before, e, later, h, he, fun f hf => ⟨hl f hf, ?_⟩⟩
        by_contra hne
        exact hex ⟨f, hf, by simpa using hne⟩

/-- No start is open: the newest start event is no opening. -/
def Delivery.Settled (d : Delivery) : Prop :=
  ∀ f, d.history.reverse.find? isStart = some f → f.opens = false

theorem holdKept_iff {d : Delivery} (hset : d.Settled) : HoldKept d ↔ HoldUninterrupted d := by
  have hread : ∀ before e later, d.history = before ++ e :: later → e.holds = true →
      (∀ f ∈ later, f.leavesHold = true ∧ f.holds = false) →
      ((explicitStartRetryReceipt d).isSome ↔ ∀ f ∈ later, f.afterInterrupt = false) := by
    intro before e later h he hl
    have hrev : d.history.reverse = later.reverse ++ e :: before.reverse := by
      simp [h]
    unfold Delivery.Settled at hset
    rw [explicitStartRetryReceipt, hrev, scanHold_settled he ?_ (hrev ▸ hset)]
    · simp
    · intro f hf
      exact hl f (List.mem_reverse.mp hf)
  constructor
  · intro hkept before e later h he hl
    exact (hread before e later h he hl).mp (hkept before e later h he fun f hf => (hl f hf).1)
  · intro hcond before e later h he hl
    obtain ⟨before', e', later', h', he', hl'⟩ := exists_latest_hold h he hl
    exact (hread before' e' later' h' he' hl').mpr (hcond before' e' later' h' he' hl')

/-! ## Exactly when the count is right -/

/-- An opening after an interrupt carries no receipt. -/
def Bare (l : List Event) : Prop := ∀ e ∈ l, e.afterInterrupt = true → e.receipt = none

/-- The scan counts the failures of the region up to the first opening after an
interrupt. -/
theorem scanFailures_iff {l : List Event} (hb : Bare l) :
    scanFailures l = (l.takeWhile fun e => !e.endsCount).countP Event.failsPrewrite ↔
      (l.takeWhile fun e => !e.endsCount).Pairwise fun newer older =>
        older.failsPrewrite = true → newer.afterInterrupt = false := by
  induction l with
  | nil => simp [scanFailures]
  | cons e l ih =>
      have ih := ih fun f hf => hb f (List.mem_cons_of_mem _ hf)
      by_cases hend : e.endsCount = true
      · -- the scan and the region stop here
        have : scanFailures (e :: l) = 0 := by
          simp only [Event.endsCount, Event.opens, Event.failsPrewrite, Bool.or_eq_true,
            Bool.and_eq_true, Bool.not_eq_true', decide_eq_true_eq] at hend
          rcases hend with h | ⟨⟨⟨hk, ho⟩, hf⟩, hr⟩
          · simp [scanFailures, h]
          · simp_all [scanFailures]
        simp [this, hend]
      · rw [List.takeWhile_cons, if_pos (by simpa using hend), List.countP_cons,
          List.pairwise_cons]
        by_cases hai : e.afterInterrupt = true
        · have hcode : scanFailures (e :: l) = 0 := by
            have hbare := hb e List.mem_cons_self hai
            simp only [Event.afterInterrupt, Bool.and_eq_true, decide_eq_true_eq] at hai
            simp [scanFailures, hai, Event.receiptOrEmpty, hbare, Receipt.empty]
          have hnot : e.failsPrewrite = false := by
            simp only [Event.afterInterrupt, Bool.and_eq_true, decide_eq_true_eq] at hai
            simp [Event.failsPrewrite, hai]
          rw [hcode, hnot, hai]
          simp only [Bool.false_eq_true, if_false, Nat.add_zero, Bool.true_eq_false, imp_false]
          rw [eq_comm, List.countP_eq_zero]
          refine ⟨fun h => ⟨h, ?_⟩, And.left⟩
          exact List.pairwise_of_forall_mem_list fun _ _ older ho hf => absurd hf (h older ho)
        · have hcode : scanFailures (e :: l) =
              scanFailures l + if e.failsPrewrite = true then 1 else 0 := by
            simp only [Event.endsCount, Event.opens, Event.failsPrewrite, Event.afterInterrupt,
              Bool.or_eq_true, Bool.and_eq_true, Bool.not_eq_true', decide_eq_true_eq] at hend hai ⊢
            rw [scanFailures]
            grind
          rw [hcode, Nat.add_right_cancel_iff, ih]
          simp [hai]

/-! ## Histories that the store writes -/

def DeliveryState.steers : DeliveryState → Bool
  | .pendingSteer | .steering | .reconcilingSteer => true
  | _ => false

/-- A start is open only while the Delivery is claimed. -/
structure Orderly (d : Delivery) : Prop where
  attempt : d.currentAttemptKind = if d.state.steers then some .steer else none
  settled : d.state ≠ .claimed → d.Settled
  bare : Bare d.history

theorem settled_append {h : List Event} {e : Event}
    (hs : e.kind ≠ .start → ∀ f, h.reverse.find? isStart = some f → f.opens = false)
    (he : e.kind = .start → e.opens = false) :
    ∀ f, (h ++ [e]).reverse.find? isStart = some f → f.opens = false := by
  intro f hf
  rw [List.reverse_append, List.reverse_singleton, List.singleton_append, List.find?_cons] at hf
  by_cases hk : e.kind = .start
  · simp only [isStart, hk, decide_true, Option.some.injEq] at hf
    exact hf ▸ he hk
  · simp only [isStart, hk, decide_false] at hf
    exact hs hk f hf

theorem bare_append {h : List Event} {e : Event} (hh : Bare h)
    (he : e.afterInterrupt = true → e.receipt = none) : Bare (h ++ [e]) := by
  intro f hf
  rcases List.mem_append.mp hf with hf | hf
  · exact hh f hf
  · exact List.mem_singleton.mp hf ▸ he

theorem not_afterInterrupt {e : Event} (h : e.kind ≠ .start) : e.afterInterrupt = false := by
  simp [Event.afterInterrupt, h]

/-- Outside a start, the row and its history move together. -/
theorem Orderly.beside {d : Delivery} (hd : d.Settled) (hb : Bare d.history)
    {values : Delivery → Delivery} {e : Event} {now : Instant} (hk : e.kind ≠ .start)
    (ha : (values d).currentAttemptKind =
      if (values d).state.steers then some .steer else none) :
    Orderly (d.saved values e now) where
  attempt := ha
  settled _ := settled_append (fun _ => hd) fun h => absurd h hk
  bare := bare_append hb fun h => by rw [not_afterInterrupt hk] at h; cases h

theorem definitiveKind_claimed {d : Delivery} (hs : d.state = .claimed)
    (ha : d.currentAttemptKind = none) : definitiveKind d = .start := by
  simp [definitiveKind, ha, hs]

theorem Step.orderly {p : Permit} (hn : p.named) {d d' : Delivery} (h : Step p d d')
    (hd : Orderly d) : Orderly d' := by
  have hatt := hd.attempt
  have hnone : d.state.steers = false → d.currentAttemptKind = none := by
    intro hs
    rw [hatt, hs]
    rfl
  cases h with
  | claim turnId position openedAt event now hp hs hk ho =>
      refine ⟨rfl, fun hne => absurd rfl hne, bare_append hd.bare fun h => ?_⟩
      rcases ho with ho | ho <;> simp [Event.afterInterrupt, ho] at h
  | activate event now hs hk ho hr =>
      refine ⟨?_, fun hne => absurd rfl hne, bare_append hd.bare fun _ => hr⟩
      exact hnone (by simp [hs, DeliveryState.steers])
  | acceptStart messageId event now hp hs hk ho =>
      refine ⟨rfl, fun _ => settled_append (fun h => absurd hk h) fun _ => ?_,
        bare_append hd.bare fun h => ?_⟩
      · simp [Event.opens, ho]
      · simp [Event.afterInterrupt, ho] at h
  | settle next priority turnId event now hs hnext hk ho =>
      have ho := ho hn
      have hopen : event.opens = false := by
        simp only [List.forall_mem_cons, ne_eq] at ho
        simp [Event.opens, ho]
      refine ⟨?_, fun _ => ?_, bare_append hd.bare fun h => ?_⟩
      · rcases hnext with rfl | rfl | rfl <;> rfl
      · by_cases hc : d.state = .claimed
        · have ha := hnone (by simp [hc, DeliveryState.steers])
          exact settled_append (fun h => absurd (hk.trans (definitiveKind_claimed hc ha)) h)
            fun _ => hopen
        · exact settled_append (fun _ => hd.settled hc) fun _ => hopen
      · have : event.outcome ≠ some .claimedAfterInterrupt := ho _ (by simp)
        simp [Event.afterInterrupt, this] at h
  | successor turnId event now hp hs hk =>
      refine .beside (hd.settled (by simp [hs])) hd.bare (by simp [hk]) ?_
      exact hnone (by simp [hs, DeliveryState.steers])
  | steer state attemptId turnId native event now hs ht hk =>
      refine .beside (hd.settled ?_) hd.bare (by simp [hk]) ?_
      · intro hc
        simp [hc] at hs
      · rcases ht with rfl | rfl <;> rfl
  | rebind native event now hs hk =>
      refine .beside (hd.settled ?_) hd.bare (by simp [hk]) hatt
      rcases hs with hs | hs <;> simp [hs]
  | receipt outcome receipt event now hs hk =>
      refine .beside (hd.settled ?_) hd.bare (by simp [hk]) ?_
      · rcases hs with hs | hs <;> simp [hs]
      · rcases hs with hs | hs <;> simpa [hs, DeliveryState.steers] using hatt
  | acceptSteer messageId turnId position event now hp hj hs hk =>
      have hkind : d.currentAttemptKind = some .steer := by
        simp only [List.mem_cons, List.not_mem_nil, or_false] at hs
        rcases hs with hs | hs | hs <;> simpa [hs, DeliveryState.steers] using hatt
      refine .beside (hd.settled ?_) hd.bare (by simp [hk hkind]) rfl
      intro hc
      simp [hc] at hs
  | retire dedupeKey event now hs hk =>
      refine .beside (hd.settled ?_) hd.bare (by simp [hk]) ?_
      · rcases hs with hs | hs <;> simp [hs]
      · exact hnone (by rcases hs with hs | hs <;> simp [hs, DeliveryState.steers])
  | retireUnwritten event now hs hk =>
      refine .beside (hd.settled ?_) hd.bare (by simp [hk]) rfl
      intro hc
      simp [hc, DeliveryState.runCancel, DeliveryState.policy] at hs
  | retireSuccessor event now hs hk =>
      refine .beside (hd.settled (by simp [hs])) hd.bare (by simp [hk]) ?_
      exact hnone (by simp [hs, DeliveryState.steers])
  | queue priority event now hs hr hk =>
      refine .beside (hd.settled ?_) hd.bare ?_ ?_
      · rcases hs with hs | hs <;> simp [hs]
      · intro h
        simp [h] at hk
      · exact hnone (by rcases hs with hs | hs <;> simp [hs, DeliveryState.steers])
  | release event now hs hk =>
      refine .beside (hd.settled (by simp [hs])) hd.bare (by simp [hk]) ?_
      exact hnone (by simp [hs, DeliveryState.steers])
  | failureRetry event now hs hk =>
      exact .beside (hd.settled (by simp [hs])) hd.bare (by simp [hk]) hatt

theorem Submitted.orderly {p : Permit} (hn : p.named) {d : Delivery} (h : Submitted p d) :
    Orderly d where
  attempt := by rcases h.state with hs | hs <;> simp [h.attempt, hs, DeliveryState.steers]
  settled _ f hf := by
    have hmem := List.mem_reverse.mp (List.mem_of_find?_eq_some hf)
    have hk : isStart f = true := List.find?_some hf
    exact absurd (by simpa [isStart] using hk) (h.history hn f hmem).1
  bare e he hai := by
    simp [not_afterInterrupt (h.history hn e he).1] at hai

theorem next_orderly {sha : Digest} {s : Store} {op : Op × Instant}
    (hop : op.1.Allowed ∧ op.1.Named) (hs : ∀ i d, s.deliveries.get? i = some d → Orderly d) :
    ∀ i d, (next sha s op).deliveries.get? i = some d → Orderly d := by
  rcases next_evolves sha s hop.1 with hev | ⟨mid, hacc⟩
  · exact hev.rows_inv (fun d hd => hd.orderly hop.2) (fun _ _ h => h.orderly hop.2) hs
  · exact hacc.evolves.rows_inv (fun d hd => hd.orderly trivial)
      (fun _ _ h => h.orderly trivial) hs

theorem reached_orderly {sha : Digest} {run : List (Op × Instant)}
    (hrun : ∀ op ∈ run, op.1.Allowed ∧ op.1.Named) {d : Delivery}
    (hd : d ∈ (reached sha run).deliveries.rows) : Orderly d := by
  refine after_inv_of (next sha)
    (P := fun s => ∀ i d, s.deliveries.get? i = some d → Orderly d) (fun _ _ => next_orderly)
    (fun _ _ h => ?_) hrun d.id d (Table.mem_iff_get?.mp hd)
  cases h

/-- For every Delivery of every store that a run reaches: while no start is open, the
hold is kept exactly when no start after it was opened after an interrupt, and the
count is exact exactly when none was opened so after a failure that counts. -/
theorem hold_and_count_exact (sha : Digest) (run : List (Op × Instant))
    (hrun : ∀ op ∈ run, op.1.Allowed ∧ op.1.Named) (d : Delivery)
    (hd : d ∈ (reached sha run).deliveries.rows) :
    (d.state ≠ .claimed → (HoldKept d ↔ HoldUninterrupted d)) ∧
      (CountExact d ↔ CountUninterrupted d) := by
  have h := reached_orderly hrun hd
  refine ⟨fun hs => holdKept_iff (h.settled hs), scanFailures_iff fun e he => ?_⟩
  exact h.bare e (List.mem_reverse.mp he)

def startupFailure (requiresExplicitRetry : Bool) : Receipt :=
  ⟨some "definitive_prewrite_failure", some "no_terminal_result", requiresExplicitRetry, ""⟩

/-- A held input whose owner lets it start again, and which fails again. -/
def keptHoldRun : List (Op × Instant) :=
  [(.enqueueQueued "msg_1" (plainSnapshot "text") "text", 1),
    (.claimStartBatch "trn_1" "ses" "codex" [("msg_1", 1)] "text" "atm_1", 2),
    (.terminalizeTurn "trn_1" .notWritten none "definitive_prewrite_failure" "", 3),
    (.recordDefinitiveAttempt "msg_1" 2 [.claimed] .notWritten .queued none none
      (some (startupFailure true)), 3),
    (.claimStartBatch "trn_2" "ses" "codex" [("msg_1", 3)] "text" "atm_2", 4),
    (.terminalizeTurn "trn_2" .notWritten none "definitive_prewrite_failure" "", 5),
    (.recordDefinitiveAttempt "msg_1" 4 [.claimed] .notWritten .queued none none
      (some (startupFailure false)), 5)]

def keptHold : Delivery :=
  (reached plainDigest keptHoldRun).deliveries.rows.head (by decide +kernel)

theorem hold_and_count_exact_claimed :
    explicitStartRetryReceipt keptHold = some (startupFailure true) ∧
      consecutivePrewriteStartFailures keptHold = 2 ∧
      (HoldKept keptHold ↔ HoldUninterrupted keptHold) ∧
      (CountExact keptHold ↔ CountUninterrupted keptHold) := by
  have h := hold_and_count_exact plainDigest keptHoldRun
    (by simp [keptHoldRun, Op.Allowed, Op.Named, DeliveryState.terminal]) keptHold
    (List.head_mem _)
  exact ⟨by decide +kernel, by decide +kernel, h.1 (by decide +kernel), h.2⟩

/-- The same input, started again as the successor of an interrupted Turn. -/
def lostHoldRun : List (Op × Instant) :=
  [(.enqueueQueued "msg_1" (plainSnapshot "text") "text", 1),
    (.claimStartBatch "trn_1" "ses" "codex" [("msg_1", 1)] "text" "atm_1", 2),
    (.terminalizeTurn "trn_1" .notWritten none "definitive_prewrite_failure" "", 3),
    (.recordDefinitiveAttempt "msg_1" 2 [.claimed] .notWritten .reserved none none
      (some (startupFailure true)), 3),
    (.claimSuccessor "msg_1" 3 "ses" "trn_0" "trn_2" "codex", 4),
    (.activateWaitingSuccessor
      (newTurn plainDigest "trn_2" "ses" "msg_1" .waiting "codex" "" "" 4)
      { newDelivery plainDigest "msg_1" "ses" .p0 .interruptWaiting (plainSnapshot "text") "text"
          none (some "trn_2") .none none 1 with version := 4 } "atm_2", 5),
    (.terminalizeTurn "trn_2" .notWritten none "definitive_prewrite_failure" "", 6),
    (.recordDefinitiveAttempt "msg_1" 5 [.claimed] .notWritten .queued (some .p3) none
      (some (startupFailure false)), 6)]

def lostHold : Delivery :=
  (reached plainDigest lostHoldRun).deliveries.rows.head (by decide +kernel)

/-- A start after an interrupt releases the hold and forgets the first failure. -/
theorem hold_lost_after_interrupt :
    (∀ op ∈ lostHoldRun, op.1.Allowed ∧ op.1.Named) ∧
      lostHold ∈ (reached plainDigest lostHoldRun).deliveries.rows ∧ lostHold.state = .queued ∧
      ¬ HoldKept lostHold ∧ ¬ CountExact lostHold := by
  refine ⟨by simp [lostHoldRun, Op.Allowed, Op.Named, DeliveryState.terminal],
    List.head_mem _, by decide +kernel, fun h => ?_, by unfold CountExact; decide +kernel⟩
  have hheld := h (lostHold.history.take 2)
    { kind := .start, time := 3, outcome := some .notWritten
      receipt := some (startupFailure true) }
    (lostHold.history.drop 3) (by decide +kernel) (by decide +kernel) (by decide +kernel)
  have hnone : (explicitStartRetryReceipt lostHold).isSome = false := by decide +kernel
  rw [hnone] at hheld
  cases hheld

end Avibe.Deliveries
