import Avibe.Deliveries.Runs

/-!
# Batches

A batch is a loop of compare-and-sets that must all match: each of its rows is
written once, and no other row is touched. The rows that one start claims are
such a batch, in the order of their positions.
-/

namespace Avibe.Deliveries

open Txn

theorem casOrRaise_ok {message : String} {id : Id} {version : Nat}
    {states : List DeliveryState} {values : Delivery → Delivery} {event : Event}
    {now : Instant} {s s' : Store} {r : Delivery}
    (h : casOrRaise message id version states values event now s = .ok (r, s')) :
    ∃ d deliveries, s.deliveries.get? id = some d ∧ d.version = version ∧ d.state ∈ states ∧
      s.deliveries.replace? (d.saved values event now) = some deliveries ∧
      s' = { s with deliveries } := by
  obtain ⟨o, t, ho, hr⟩ := bind_ok h
  cases o with
  | none => cases hr
  | some r' =>
      obtain ⟨-, rfl⟩ := pure_ok hr
      rcases casDelivery_ok ho with ⟨hn, -⟩ | ⟨d, deliveries, hd, hver, hs, -, hrep, rfl⟩
      · cases hn
      · exact ⟨d, deliveries, hd, hver, hs, hrep, rfl⟩

/-- A batch of compare-and-sets. -/
structure Batch (ι : Type) where
  id : ι → Id
  version : ι → Nat
  states : ι → List DeliveryState
  values : ι → Delivery → Delivery
  event : ι → Event

def Batch.run {ι : Type} (b : Batch ι) (message : String) (now : Instant) (l : List ι) :
    Db (List Delivery) :=
  l.mapM' fun x =>
    casOrRaise message (b.id x) (b.version x) (b.states x) (b.values x) (b.event x) now

theorem Batch.keeps {ι : Type} (b : Batch ι) {message : String} {now : Instant} {l : List ι}
    {p : Permit} (hid : ∀ x d, (b.values x d).id = d.id)
    (hstep : ∀ x ∈ l, ∀ d, d.id = b.id x → d.state ∈ b.states x →
      Step p d (d.saved (b.values x) (b.event x) now)) :
    Keeps (Evolves p) (b.run message now l) :=
  keeps_mapM' l fun x hx => keeps_casOrRaise (hid x) (hstep x hx)

/-- What a batch did: it wrote each of its rows once and nothing else. -/
structure Batch.Wrote {ι : Type} (b : Batch ι) (l : List ι) (now : Instant) (s s' : Store) :
    Prop where
  turns : s'.turns = s.turns
  messages : s'.messages = s.messages
  nodup : (l.map b.id).Nodup
  row : ∀ x ∈ l, ∃ d, s.deliveries.get? (b.id x) = some d ∧ d.version = b.version x ∧
    d.state ∈ b.states x ∧
    s'.deliveries.get? (b.id x) = some (d.saved (b.values x) (b.event x) now)
  frame : ∀ i, i ∉ l.map b.id → s'.deliveries.get? i = s.deliveries.get? i

/-- A row that a batch wrote does not match again, so the ids of a batch differ. -/
theorem Batch.wrote {ι : Type} (b : Batch ι) {l : List ι} {message : String} {now : Instant}
    {s s' : Store} {rows : List Delivery} (hid : ∀ x d, (b.values x d).id = d.id)
    (hout : ∀ x ∈ l, ∀ y ∈ l, ∀ d, (b.values x d).state ∉ b.states y)
    (h : b.run message now l s = .ok (rows, s')) : b.Wrote l now s s' := by
  induction l generalizing s rows with
  | nil =>
      obtain ⟨-, rfl⟩ := pure_ok h
      exact ⟨rfl, rfl, List.nodup_nil, by simp, fun _ _ => rfl⟩
  | cons x l ih =>
      obtain ⟨r, t, hx, hl⟩ := bind_ok h
      obtain ⟨rs, t', hrs, hp⟩ := bind_ok hl
      obtain ⟨-, rfl⟩ := pure_ok hp
      obtain ⟨d, deliveries, hd, hver, hs, hrep, rfl⟩ := casOrRaise_ok hx
      have hget := fun i => get?_saved (i := i) (hid x d) hd hrep
      have hrest := ih (fun y hy z hz => hout y (List.mem_cons_of_mem _ hy) z
        (List.mem_cons_of_mem _ hz)) hrs
      -- the row of `x` is written, so no later entry can have its id
      have hfresh : ∀ y ∈ l, b.id y ≠ b.id x := by
        intro y hy heq
        obtain ⟨e, he, -, hse, -⟩ := hrest.row y hy
        rw [hget, heq, if_pos rfl] at he
        cases he
        exact hout x List.mem_cons_self y (List.mem_cons_of_mem _ hy) d hse
      refine ⟨hrest.turns, hrest.messages, ?_, ?_, ?_⟩
      · rw [List.map_cons, List.nodup_cons]
        refine ⟨?_, hrest.nodup⟩
        rw [List.mem_map]
        rintro ⟨y, hy, heq⟩
        exact hfresh y hy heq
      · intro y hy
        rcases List.mem_cons.mp hy with rfl | hy
        · refine ⟨d, hd, hver, hs, ?_⟩
          rw [hrest.frame, hget, if_pos rfl]
          rw [List.mem_map]
          rintro ⟨z, hz, heq⟩
          exact hfresh z hz heq
        · obtain ⟨e, he, hve, hse, hs'⟩ := hrest.row y hy
          rw [hget, if_neg (hfresh y hy)] at he
          exact ⟨e, he, hve, hse, hs'⟩
      · intro i hi
        rw [List.map_cons, List.mem_cons, not_or] at hi
        rw [hrest.frame i hi.2, hget, if_neg hi.1]

/-! ## The claim of a start -/

def claimBatch (turnId attemptId : Id) (now : Instant) : Batch ((Id × Nat) × Nat) where
  id x := x.1.1
  version x := x.1.2
  states _ := [.reserved, .queued, .interruptWaiting]
  values x := Delivery.claim turnId x.2 none
  event x := claimedEvent turnId attemptId now x.2

/-- A start claim opens its Turn and gives the batch its positions. -/
theorem claimStartBatch_ok {sha : Digest} {turnId sessionId attemptId : Id}
    {backend text : String} {deliveries : List (Id × Nat)} {now : Instant} {s s' : Store}
    {rows : List Delivery}
    (h : claimStartBatch sha turnId sessionId backend deliveries text attemptId now s =
      .ok (rows, s')) :
    ∃ first rest t, deliveries = first :: rest ∧
      t.origins = s.origins ++ [(turnId, sessionId, first.1)] ∧ t.deliveries = s.deliveries ∧
      s.turns.get? turnId = none ∧
      (claimBatch turnId attemptId now).Wrote deliveries.zipIdx now t s' := by
  cases deliveries with
  | nil => cases h
  | cons first rest =>
      obtain ⟨turn, t, hturn, h⟩ := bind_ok h
      obtain ⟨hfresh, horigins, hdel, -⟩ := insertTurn_ok hturn
      refine ⟨first, rest, t, rfl, horigins, hdel, hfresh, ?_⟩
      exact (claimBatch turnId attemptId now).wrote (fun _ _ => rfl)
        (fun _ _ _ _ _ => by simp [claimBatch, Delivery.claim]) h

/-- The position of a claimed Delivery is its place in the batch. -/
theorem claimBatch_position {turnId attemptId : Id} {now : Instant} {s s' : Store}
    {deliveries : List (Id × Nat)}
    (hw : (claimBatch turnId attemptId now).Wrote deliveries.zipIdx now s s')
    {e : (Id × Nat) × Nat} {e' : (Id × Nat) × Nat} (he : e ∈ deliveries.zipIdx)
    (he' : e' ∈ deliveries.zipIdx) (hid : e.1.1 = e'.1.1) : e = e' :=
  List.inj_on_of_nodup_map hw.nodup he he' hid

end Avibe.Deliveries
