import Avibe.Deliveries.Operations
import Mathlib.Logic.Relation

/-!
# How a row evolves

Every write of the store to a Delivery is one of the steps below. `Evolves` says
that the rows of a store moved by such steps only, that no row was lost, and
that Turns and Messages were only added. The statements keep it, so every
operation does.
-/

namespace Avibe.Deliveries

open Relation Txn

/-- How a Delivery comes to its place in a Turn. -/
inductive Seat where
  | start
  | successor
  | steer
  deriving DecidableEq

/-- What an operation may do: the Message an acceptance links to, the Turn that is
opened, the places in Turns that Deliveries get, and whether Deliveries leave them for
the queue. With `named` the events that a caller names do not pass for those of a
start. -/
structure Permit where
  accepts : Option Id
  opens : Option (Id × Id × Id)
  joins : Id → Seat → Id → Nat → Prop
  named : Prop
  returns : Prop

/-- One compare-and-set of a Delivery row. -/
inductive Step (p : Permit) : Delivery → Delivery → Prop
  | claim (d : Delivery) (turnId : Id) (position : Nat) (openedAt : Option Instant)
      (event : Event) (now : Instant) (hp : p.joins d.id .start turnId position)
      (hs : d.state ∈ [.reserved, .queued, .interruptWaiting]) (hk : event.kind = .start)
      (ho : event.outcome = some .claimed ∨ event.outcome = some .opened) :
      Step p d (d.saved (Delivery.claim turnId position openedAt) event now)
  | activate (d : Delivery) (event : Event) (now : Instant) (hs : d.state = .interruptWaiting)
      (hk : event.kind = .start) (ho : event.outcome = some .claimedAfterInterrupt)
      (hr : event.receipt = none) :
      Step p d (d.saved (fun d => { d with state := .claimed }) event now)
  | successor (d : Delivery) (turnId : Id) (event : Event) (now : Instant)
      (hp : p.joins d.id .successor turnId 0) (hs : d.state = .reserved)
      (hk : event.kind = .interruptJoin) :
      Step p d (d.saved (fun d => { d with
        priority := .p0
        state := .interruptWaiting
        turnId := some turnId
        turnRole := some .initial
        turnPosition := some 0 }) event now)
  | steer (d : Delivery) (state : DeliveryState) (attemptId turnId : Id)
      (native : Option String) (event : Event) (now : Instant)
      (hs : d.state ∈ [.reserved, .queued, .pendingSteer])
      (ht : state = .steering ∨ state = .pendingSteer) (hk : event.kind = .steer) :
      Step p d (d.saved (Delivery.steer state attemptId turnId native now) event now)
  | rebind (d : Delivery) (native : String) (event : Event) (now : Instant)
      (hs : d.state = .steering ∨ d.state = .reconcilingSteer)
      (hk : event.kind = .nativeGenerationRebind) :
      Step p d (d.saved (fun d => { d with currentExpectedNativeTurnId := some native })
        event now)
  | receipt (d : Delivery) (outcome : ReceiptOutcome) (receipt : Receipt) (event : Event)
      (now : Instant) (hs : d.state = .steering ∨ d.state = .reconcilingSteer)
      (hk : event.kind = .steer) :
      Step p d (d.saved (fun d => { d with
        state := .reconcilingSteer
        currentReceiptOutcome := some outcome
        currentReceipt := receipt }) event now)
  | acceptStart (d : Delivery) (messageId : Id) (event : Event) (now : Instant)
      (hp : p.accepts = some messageId) (hs : d.state = .claimed) (hk : event.kind = .start)
      (ho : event.outcome = some .accepted) :
      Step p d (d.saved (Delivery.materialize messageId now) event now)
  | acceptSteer (d : Delivery) (messageId turnId : Id) (position : Nat) (event : Event)
      (now : Instant) (hp : p.accepts = some messageId)
      (hj : p.joins d.id .steer turnId position)
      (hs : d.state ∈ [.pendingSteer, .steering, .reconcilingSteer])
      (hk : d.currentAttemptKind = some .steer → event.kind = .steer) :
      Step p d (d.saved (Delivery.materializeSteer messageId turnId position now) event now)
  | settle (d : Delivery) (next : DeliveryState) (priority : Option Priority)
      (turnId : Option Id) (event : Event) (now : Instant)
      (hs : d.state ≠ .accepted ∧ d.state ≠ .retired)
      (ht : next = .queued ∨ next = .reserved ∨ next = .retired)
      (hk : event.kind = definitiveKind d)
      (ho : p.named →
        ∀ o ∈ [Outcome.claimed, .opened, .claimedAfterInterrupt], event.outcome ≠ some o)
      (hr : p.returns) :
      Step p d (d.saved (Delivery.settle next priority turnId now) event now)
  | retire (d : Delivery) (dedupeKey : Option String) (event : Event) (now : Instant)
      (hs : d.state = .queued ∨ d.state = .reserved) (hk : event.kind = .retire) :
      Step p d (d.saved (fun d => { d.retire now with dedupeKey := dedupeKey }) event now)
  | retireUnwritten (d : Delivery) (event : Event) (now : Instant)
      (hs : d.state.runCancel = .retire) (hk : event.kind = .retire) :
      Step p d (d.saved (Delivery.retireUnwritten now) event now)
  | retireSuccessor (d : Delivery) (event : Event) (now : Instant)
      (hs : d.state = .interruptWaiting) (hk : event.kind = .retire) :
      Step p d (d.saved (fun d => d.leaveTurn.retire now) event now)
  | queue (d : Delivery) (priority : Priority) (event : Event) (now : Instant)
      (hs : d.state = .reserved ∨ d.state = .queued) (hr : priority = .p3 ∨ priority = d.priority)
      (hk : event.kind ∈ [.queue, .admission, .steer, .interruptJoin]) :
      Step p d (d.saved (fun d => { d with priority := priority, state := .queued }) event now)
  | release (d : Delivery) (event : Event) (now : Instant) (hs : d.state = .interruptWaiting)
      (hk : event.kind = .interruptJoin) (hr : p.returns) :
      Step p d (d.saved (fun d => { d.leaveTurn with state := .queued, priority := .p3 })
        event now)
  | failureRetry (d : Delivery) (event : Event) (now : Instant) (hs : d.state = .queued)
      (hk : event.kind = .backendFailureRetry) :
      Step p d (d.saved id event now)

/-- A row as a submission leaves it. -/
structure Submitted (p : Permit) (d : Delivery) : Prop where
  state : d.state = .reserved ∨ d.state = .queued
  snapshot : d.snapshot.isSome
  dispatchText : d.dispatchText.isSome
  turnId : d.turnId = none
  attempt : d.currentAttemptKind = none
  history : p.named → ∀ e ∈ d.history, e.kind ≠ .start ∧ e.kind ≠ .steer

def DeliveryState.terminal : DeliveryState → Bool
  | .accepted | .retired => true
  | _ => false

/-- `accepted` and `retired` are absorbing. -/
theorem Step.not_terminal {p : Permit} {d d' : Delivery} (h : Step p d d') :
    d.state.terminal = false := by
  cases h with
  | claim _ _ _ _ _ _ hs => cases hd : d.state <;> simp_all [DeliveryState.terminal]
  | steer _ _ _ _ _ _ hs => cases hd : d.state <;> simp_all [DeliveryState.terminal]
  | acceptSteer _ _ _ _ _ _ hs => cases hd : d.state <;> simp_all [DeliveryState.terminal]
  | retireUnwritten _ _ hs =>
      cases hd : d.state <;>
        simp_all [DeliveryState.terminal, DeliveryState.runCancel, DeliveryState.policy]
  | settle _ _ _ _ _ hs => cases hd : d.state <;> simp_all [DeliveryState.terminal]
  | _ => simp_all [DeliveryState.terminal] <;> grind [DeliveryState.terminal]

theorem steps_of_terminal {p : Permit} {d d' : Delivery} (h : ReflTransGen (Step p) d d')
    (hd : d.state.terminal = true) : d' = d := by
  induction h with
  | refl => rfl
  | tail _ hstep ih =>
      subst ih
      exact absurd hstep.not_terminal (by simp [hd])

/-- The columns of a Turn that no write changes. -/
def Turn.origin (t : Turn) : Id × Id × Id := (t.id, t.sessionId, t.initialDeliveryId)

def Store.origins (s : Store) : List (Id × Id × Id) := s.turns.rows.map Turn.origin

/-- What a store can become. -/
structure Evolves (p : Permit) (s s' : Store) : Prop where
  /-- Every row comes from the row with its id, or from a new submission. -/
  row : ∀ i d', s'.deliveries.get? i = some d' →
    ∃ d, (s.deliveries.get? i = some d ∨ s.deliveries.get? i = none ∧ Submitted p d) ∧
      ReflTransGen (Step p) d d'
  kept : ∀ i, s'.deliveries.get? i = none → s.deliveries.get? i = none
  turns : s.origins <+: s'.origins
  opened : ∀ o ∈ s'.origins, o ∈ s.origins ∨ p.opens = some o
  messages : s.messages.rows <+: s'.messages.rows
  /-- Only an acceptance writes a Message. -/
  quiet : p.accepts = none → s'.messages = s.messages

namespace Evolves

variable {p : Permit} {s t u : Store}

instance : Std.Refl (Evolves p) :=
  ⟨fun _ => ⟨fun _ d h => ⟨d, .inl h, .refl⟩, fun _ h => h, List.prefix_rfl, fun _ => .inl,
    List.prefix_rfl, fun _ => rfl⟩⟩

theorem trans (h : Evolves p s t) (h' : Evolves p t u) : Evolves p s u := by
  refine ⟨?_, fun i hi => h.kept i (h'.kept i hi), h.turns.trans h'.turns,
    fun o ho => (h'.opened o ho).elim (h.opened o) .inr,
    h.messages.trans h'.messages, fun hp => (h'.quiet hp).trans (h.quiet hp)⟩
  intro i d' hd'
  obtain ⟨d, ho, hsteps⟩ := h'.row i d' hd'
  rcases ho with ho | ⟨ho, hsub⟩
  · obtain ⟨d₀, ho₀, hsteps₀⟩ := h.row i d ho
    exact ⟨d₀, ho₀, hsteps₀.trans hsteps⟩
  · exact ⟨d, .inr ⟨h.kept i ho, hsub⟩, hsteps⟩

instance : IsTrans Store (Evolves p) := ⟨fun _ _ _ => trans⟩

/-- A row that is still there, with the steps it took. -/
theorem row_of (h : Evolves p s t) {i : Id} {d : Delivery} (hd : s.deliveries.get? i = some d) :
    ∃ d', t.deliveries.get? i = some d' ∧ ReflTransGen (Step p) d d' := by
  cases ht : t.deliveries.get? i with
  | none =>
      rw [h.kept i ht] at hd
      cases hd
  | some d' =>
      obtain ⟨d₀, ho | ⟨ho, -⟩, hsteps⟩ := h.row i d' ht
      · rw [hd] at ho
        cases ho
        exact ⟨d', rfl, hsteps⟩
      · rw [hd] at ho
        cases ho

theorem terminal (h : Evolves p s t) {i : Id} {d : Delivery}
    (hd : s.deliveries.get? i = some d) (ht : d.state.terminal = true) :
    t.deliveries.get? i = some d := by
  obtain ⟨d', hd', hsteps⟩ := h.row_of hd
  rw [hd', steps_of_terminal hsteps ht]

/-- What holds of every submission and along every step holds of every row. -/
theorem rows_inv {P : Delivery → Prop} (hsub : ∀ d, Submitted p d → P d)
    (hstep : ∀ d d', Step p d d' → P d → P d') (h : Evolves p s t)
    (hs : ∀ i d, s.deliveries.get? i = some d → P d) :
    ∀ i d, t.deliveries.get? i = some d → P d := by
  intro i d' hd'
  obtain ⟨d, ho, hsteps⟩ := h.row i d' hd'
  have hd : P d := ho.elim (hs i d) fun ho => hsub d ho.2
  clear hd' ho
  induction hsteps with
  | refl => exact hd
  | tail _ hlast ih => exact hstep _ _ hlast ih

theorem message (h : Evolves p s t) {m : Message} (hm : m ∈ s.messages.rows) :
    m ∈ t.messages.rows :=
  h.messages.subset hm

theorem message? (h : Evolves p s t) {i : Id} (hm : (s.messages.get? i).isSome) :
    (t.messages.get? i).isSome := by
  obtain ⟨m, hi⟩ := Option.isSome_iff_exists.mp hm
  have hmem := Table.mem_iff_get?.mp (h.message (Table.get?_mem hi))
  rw [show messageSchema.key m = i from Table.get?_key hi] at hmem
  simp [hmem]

end Evolves

/-! ## The statements -/

section Statements

variable {p : Permit}

theorem getTurn_ok {id : Id} {s s' : Store} {r : Option Turn}
    (h : getTurn id s = .ok (r, s')) : r = s.turns.get? id ∧ s = s' := by
  cases h
  exact ⟨rfl, rfl⟩

theorem getDelivery_ok {id : Id} {s s' : Store} {r : Option Delivery}
    (h : getDelivery id s = .ok (r, s')) : r = s.deliveries.get? id ∧ s = s' := by
  cases h
  exact ⟨rfl, rfl⟩

theorem selectDeliveries_ok {κ : Type} [LinearOrder κ] {q : Delivery → Bool}
    {key : Delivery → κ} {s s' : Store} {rows : List Delivery}
    (h : selectDeliveries q key s = .ok (rows, s')) :
    rows = SortOn.sortOn key (s.deliveries.rows.filter q) ∧ s = s' := by
  cases h
  exact ⟨rfl, rfl⟩

theorem keeps_getTurn (id : Id) : Keeps (Evolves p) (getTurn id) :=
  keeps_bind keeps_get fun _ => keeps_pure _

theorem keeps_getDelivery (id : Id) : Keeps (Evolves p) (getDelivery id) :=
  keeps_bind keeps_get fun _ => keeps_pure _

theorem keeps_selectDeliveries {κ : Type} [LinearOrder κ] (q : Delivery → Bool)
    (key : Delivery → κ) : Keeps (Evolves p) (selectDeliveries q key) :=
  keeps_bind keeps_get fun _ => keeps_pure _

theorem keeps_orRaise {α : Type} (message : String) (o : Option α) :
    Keeps (Evolves p) (orRaise message o) := by
  cases o with
  | none => exact keeps_throw
  | some a => exact keeps_pure a

theorem writeTurns_ok {o : Option (Table turnSchema)} {s s' : Store} {u : Unit}
    (h : writeTurns o s = .ok (u, s')) : ∃ turns, o = some turns ∧ s' = { s with turns } := by
  cases o with
  | none => cases h
  | some turns => exact ⟨turns, rfl, (set_ok (get_bind_ok h)).symm⟩

theorem writeDeliveries_ok {o : Option (Table deliverySchema)} {s s' : Store} {u : Unit}
    (h : writeDeliveries o s = .ok (u, s')) :
    ∃ deliveries, o = some deliveries ∧ s' = { s with deliveries } := by
  cases o with
  | none => cases h
  | some deliveries => exact ⟨deliveries, rfl, (set_ok (get_bind_ok h)).symm⟩

theorem writeMessages_ok {o : Option (Table messageSchema)} {s s' : Store} {u : Unit}
    (h : writeMessages o s = .ok (u, s')) :
    ∃ messages, o = some messages ∧ s' = { s with messages } := by
  cases o with
  | none => cases h
  | some messages => exact ⟨messages, rfl, (set_ok (get_bind_ok h)).symm⟩

/-- A write that leaves the Deliveries alone. -/
theorem evolves_of_deliveries_eq {s s' : Store} (hd : s'.deliveries = s.deliveries)
    (ht : s.origins <+: s'.origins) (ho : ∀ o ∈ s'.origins, o ∈ s.origins ∨ p.opens = some o)
    (hm : s.messages.rows <+: s'.messages.rows)
    (hq : p.accepts = none → s'.messages = s.messages) : Evolves p s s' :=
  ⟨fun _ d h => ⟨d, .inl (hd ▸ h), .refl⟩, fun _ h => hd ▸ h, ht, ho, hm, hq⟩

theorem insertTurn_ok {sha : Digest} {turnId sessionId initialId attemptId : Id}
    {state : TurnState} {backend : String} {text : Option String} {now : Instant}
    {s s' : Store} {turn : Turn}
    (h : insertTurn sha turnId sessionId initialId state backend attemptId text now s =
      .ok (turn, s')) :
    s.turns.get? turnId = none ∧ s'.origins = s.origins ++ [(turnId, sessionId, initialId)] ∧
      s'.deliveries = s.deliveries ∧ s'.messages = s.messages := by
  obtain ⟨u, t, hw, hr⟩ := bind_ok (get_bind_ok h)
  obtain ⟨rfl, rfl⟩ := pure_ok hr
  obtain ⟨turns, hi, rfl⟩ := writeTurns_ok hw
  refine ⟨Table.insert?_fresh hi, ?_, rfl, rfl⟩
  simp only [Store.origins, Table.insert?_rows hi, List.map_append]
  rfl

theorem keeps_insertTurn {sha : Digest} {turnId sessionId initialId attemptId : Id}
    {state : TurnState} {backend : String} {text : Option String} {now : Instant}
    (hp : p.opens = some (turnId, sessionId, initialId)) :
    Keeps (Evolves p)
      (insertTurn sha turnId sessionId initialId state backend attemptId text now) := by
  intro s turn s' h
  obtain ⟨-, horigins, hd, hm⟩ := insertTurn_ok h
  refine evolves_of_deliveries_eq hd ?_ ?_ (hm ▸ List.prefix_rfl) fun _ => hm
  · exact horigins ▸ List.prefix_append _ _
  · intro o ho
    rw [horigins, List.mem_append, List.mem_singleton] at ho
    rcases ho with ho | rfl
    · exact .inl ho
    · exact .inr hp

theorem casTurn_ok {id : Id} {version : Nat} {states : List TurnState} {values : Turn → Turn}
    {now : Instant} {s s' : Store} {r : Option Turn}
    (h : casTurn id version states values now s = .ok (r, s')) :
    (r = none ∧ s' = s) ∨
      ∃ t turns, s.turns.get? id = some t ∧ t.version = version ∧ t.state ∈ states ∧
        r = some (t.saved values now) ∧ s.turns.replace? (t.saved values now) = some turns ∧
        s' = { s with turns } := by
  have h := get_bind_ok h
  cases ht : s.turns.get? id with
  | none =>
      rw [ht] at h
      obtain ⟨rfl, rfl⟩ := pure_ok h
      exact .inl ⟨rfl, rfl⟩
  | some t =>
      rw [ht] at h
      dsimp only at h
      split at h
      · rename_i hc
        obtain ⟨u, s₁, hw, hr⟩ := bind_ok h
        obtain ⟨turns, hrep, rfl⟩ := writeTurns_ok hw
        obtain ⟨rfl, rfl⟩ := pure_ok hr
        exact .inr ⟨t, turns, rfl, hc.1, hc.2, rfl, hrep, rfl⟩
      · obtain ⟨rfl, rfl⟩ := pure_ok h
        exact .inl ⟨rfl, rfl⟩

/-- A Turn's update keeps the columns it was created with. -/
theorem keeps_casTurn {id : Id} {version : Nat} {states : List TurnState}
    {values : Turn → Turn} {now : Instant} (hv : ∀ t, (values t).origin = t.origin) :
    Keeps (Evolves p) (casTurn id version states values now) := by
  intro s r s' h
  rcases casTurn_ok h with ⟨-, rfl⟩ | ⟨t, turns, ht, -, -, -, hrep, rfl⟩
  · exact Std.Refl.refl s'
  · have horigins : ({ s with turns } : Store).origins = s.origins := by
      simp only [Store.origins, Table.replace?_rows hrep, List.map_map]
      refine List.map_congr_left fun q hq => ?_
      simp only [Function.comp_apply]
      split
      · rename_i hk
        have hid : (values t).id = t.id := congrArg Prod.fst (hv t)
        have : q = t := Table.eq_of_key hq (Table.get?_mem ht) (hk.trans hid)
        rw [this]
        exact hv t
      · rfl
    exact evolves_of_deliveries_eq rfl (horigins ▸ List.prefix_rfl)
      (fun o ho => .inl (horigins ▸ ho)) List.prefix_rfl fun _ => rfl

theorem insertDelivery_ok {sha : Digest} {id sessionId : Id} {priority : Priority}
    {state : DeliveryState} {snapshot : Snapshot} {text : String} {dedupe : Option String}
    {turnId : Option Id} {attempt : CurrentAttempt} {event : Option Event} {now : Instant}
    {s s' : Store} {d : Delivery}
    (h : insertDelivery sha id sessionId priority state snapshot text dedupe turnId attempt event
      now s = .ok (d, s')) :
    d = newDelivery sha id sessionId priority state snapshot text dedupe turnId attempt event now ∧
      ∃ deliveries, s.deliveries.insert? d = some deliveries ∧ s' = { s with deliveries } := by
  obtain ⟨u, t, hw, hr⟩ := bind_ok (get_bind_ok h)
  obtain ⟨rfl, rfl⟩ := pure_ok hr
  exact ⟨rfl, writeDeliveries_ok hw⟩

theorem unclaimed_of_queued {d : Delivery} (hc : d.check = true)
    (hs : d.state = .reserved ∨ d.state = .queued) :
    d.turnId = none ∧ d.currentAttemptKind = none := by
  simp only [Delivery.check, Bool.and_eq_true, Delivery.turnMembership, Delivery.attemptShape,
    Delivery.noAttempt] at hc
  rcases hs with hs | hs <;> simp_all

theorem keeps_insertDelivery {sha : Digest} {id sessionId : Id} {priority : Priority}
    {state : DeliveryState} {snapshot : Snapshot} {text : String} {dedupe : Option String}
    {turnId : Option Id} {attempt : CurrentAttempt} {event : Option Event} {now : Instant}
    (hs : state = .reserved ∨ state = .queued)
    (he : p.named → ∀ e ∈ event, e.kind ≠ .start ∧ e.kind ≠ .steer) :
    Keeps (Evolves p) (insertDelivery sha id sessionId priority state snapshot text dedupe turnId
      attempt event now) := by
  intro s d s' h
  obtain ⟨hd, deliveries, hi, rfl⟩ := insertDelivery_ok h
  have hget := fun i => Table.get?_insert? (k := i) hi
  refine ⟨?_, ?_, List.prefix_rfl, fun _ => .inl, List.prefix_rfl, fun _ => rfl⟩
  · intro i d' hd'
    rw [hget i] at hd'
    split at hd'
    · rename_i hk
      cases hd'
      refine ⟨d, .inr ⟨hk ▸ Table.insert?_fresh hi, ?_⟩, .refl⟩
      have hcheck : d.check = true := (Table.insert?_fits hi).1
      subst hd
      exact ⟨hs, rfl, rfl, (unclaimed_of_queued hcheck hs).1, (unclaimed_of_queued hcheck hs).2,
        fun hn e hm => he hn e (by simpa [newDelivery] using hm)⟩
    · exact ⟨d', .inl hd', .refl⟩
  · intro i hi'
    rw [hget i] at hi'
    split at hi'
    · cases hi'
    · exact hi'

theorem casDelivery_ok {id : Id} {version : Nat} {states : List DeliveryState}
    {values : Delivery → Delivery} {event : Event} {now : Instant} {s s' : Store}
    {r : Option Delivery}
    (h : casDelivery id version states values event now s = .ok (r, s')) :
    (r = none ∧ s' = s) ∨
      ∃ d deliveries, s.deliveries.get? id = some d ∧ d.version = version ∧ d.state ∈ states ∧
        r = some (d.saved values event now) ∧
        s.deliveries.replace? (d.saved values event now) = some deliveries ∧
        s' = { s with deliveries } := by
  have h := get_bind_ok h
  cases hd : s.deliveries.get? id with
  | none =>
      rw [hd] at h
      obtain ⟨rfl, rfl⟩ := pure_ok h
      exact .inl ⟨rfl, rfl⟩
  | some d =>
      rw [hd] at h
      dsimp only at h
      split at h
      · rename_i hc
        obtain ⟨u, s₁, hw, hr⟩ := bind_ok h
        obtain ⟨deliveries, hrep, rfl⟩ := writeDeliveries_ok hw
        obtain ⟨rfl, rfl⟩ := pure_ok hr
        exact .inr ⟨d, deliveries, rfl, hc.1, hc.2, rfl, hrep, rfl⟩
      · obtain ⟨rfl, rfl⟩ := pure_ok h
        exact .inl ⟨rfl, rfl⟩

/-- The rows after a compare-and-set that matched. -/
theorem get?_saved {id i : Id} {d : Delivery} {values : Delivery → Delivery} {event : Event}
    {now : Instant} {s : Store} {deliveries : Table deliverySchema}
    (hv : (values d).id = d.id) (hd : s.deliveries.get? id = some d)
    (hrep : s.deliveries.replace? (d.saved values event now) = some deliveries) :
    deliveries.get? i =
      if i = id then some (d.saved values event now) else s.deliveries.get? i := by
  have hkey : deliverySchema.key (d.saved values event now) = id := by
    change (values d).id = id
    rw [hv]
    exact Table.get?_key hd
  have := Table.get?_replace? (k := i) hrep (q := d) (by rw [hkey]; exact hd)
  rwa [hkey] at this

theorem evolves_of_saved {id : Id} {d : Delivery} {values : Delivery → Delivery} {event : Event}
    {now : Instant} {s : Store} {deliveries : Table deliverySchema}
    (hv : (values d).id = d.id) (hd : s.deliveries.get? id = some d)
    (hrep : s.deliveries.replace? (d.saved values event now) = some deliveries)
    (hstep : Step p d (d.saved values event now)) : Evolves p s { s with deliveries } := by
  have hget := fun i => get?_saved (i := i) hv hd hrep
  refine ⟨?_, ?_, List.prefix_rfl, fun _ => .inl, List.prefix_rfl, fun _ => rfl⟩
  · intro i d' hd'
    rw [hget i] at hd'
    split at hd'
    · rename_i hi
      cases hd'
      exact ⟨d, .inl (hi ▸ hd), .single hstep⟩
    · exact ⟨d', .inl hd', .refl⟩
  · intro i hi
    rw [hget i] at hi
    split at hi
    · cases hi
    · exact hi

/-- A compare-and-set whose write is a step. -/
theorem keeps_casDelivery {id : Id} {version : Nat} {states : List DeliveryState}
    {values : Delivery → Delivery} {event : Event} {now : Instant}
    (hv : ∀ d, (values d).id = d.id)
    (hstep : ∀ d, d.id = id → d.state ∈ states → Step p d (d.saved values event now)) :
    Keeps (Evolves p) (casDelivery id version states values event now) := by
  intro s r s' h
  rcases casDelivery_ok h with ⟨-, rfl⟩ | ⟨d, deliveries, hd, -, hs, -, hrep, rfl⟩
  · exact Std.Refl.refl s'
  · exact evolves_of_saved (hv d) hd hrep (hstep d (Table.get?_key hd) hs)

theorem keeps_casOrRaise {message : String} {id : Id} {version : Nat}
    {states : List DeliveryState} {values : Delivery → Delivery} {event : Event}
    {now : Instant} (hv : ∀ d, (values d).id = d.id)
    (hstep : ∀ d, d.id = id → d.state ∈ states → Step p d (d.saved values event now)) :
    Keeps (Evolves p) (casOrRaise message id version states values event now) :=
  keeps_bind (keeps_casDelivery hv hstep) fun _ => keeps_orRaise _ _

theorem insertMessage_ok {id : Id} {c : Candidate} {now : Instant} {s s' : Store} {u : Unit}
    (h : insertMessage id c now s = .ok (u, s')) :
    (∃ messages, s.messages.insert? (newMessage id c now) = some messages ∧
        s' = { s with messages }) ∨
      ∃ m, s.messages.get? id = some m ∧ m.candidate = c.columns ∧ s' = s := by
  have h := get_bind_ok h
  cases hm : s.messages.get? id with
  | none =>
      rw [hm] at h
      exact .inl (writeMessages_ok h)
  | some m =>
      rw [hm] at h
      dsimp only at h
      split at h
      · rename_i hc
        obtain ⟨-, rfl⟩ := pure_ok h
        exact .inr ⟨m, rfl, hc.1, rfl⟩
      · cases h

theorem keeps_insertMessage {id : Id} {c : Candidate} {now : Instant}
    (hp : p.accepts = some id) : Keeps (Evolves p) (insertMessage id c now) := by
  intro s u s' h
  rcases insertMessage_ok h with ⟨messages, hi, rfl⟩ | ⟨m, -, -, rfl⟩
  · refine evolves_of_deliveries_eq rfl List.prefix_rfl (fun _ => .inl) ?_ fun hn => ?_
    · rw [Table.insert?_rows hi]
      exact List.prefix_append _ _
    · rw [hp] at hn
      cases hn
  · exact Std.Refl.refl s'

end Statements

end Avibe.Deliveries
