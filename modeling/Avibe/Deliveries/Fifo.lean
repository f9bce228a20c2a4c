import Avibe.Deliveries.Places
import Mathlib.Data.List.Induction

/-!
# The FIFO fence

The queue of a Session is read off the states of its Deliveries: a row that may
still be ahead of the others is a fence, and only the queued rows before the
first fence can be claimed. Starts that claim prefixes of that list keep the
order of the submissions.
-/

namespace Avibe.Deliveries

open Relation Txn Machine SortOn

/-! ## The claimable prefix -/

def orderingHead (s : Store) (sessionId : Id) (includeClaimable : Bool) : Option Delivery :=
  (sortOn Delivery.submission (s.deliveries.rows.filter fun d =>
    d.sessionId = sessionId && (d.state.ordering = .fence ||
      includeClaimable && (d.priority = .p3 && d.state.ordering = .claimable)))).head?

def claimableFifoHead (s : Store) (sessionId : Id) : Option Delivery :=
  (orderingHead s sessionId true).filter (·.state = .queued)

def claimableFifoPrefix (s : Store) (sessionId : Id) : List Delivery :=
  (sortOn Delivery.submission (s.deliveries.rows.filter fun d =>
    d.sessionId = sessionId && (d.priority = .p3 && d.state = .queued ||
      d.state.ordering = .fence))).takeWhile (·.state = .queued)

theorem ordering_claimable_iff (state : DeliveryState) :
    state.ordering = .claimable ↔ state = .queued := by
  cases state <;> simp [DeliveryState.ordering, DeliveryState.policy]

theorem ordering_fence_iff (state : DeliveryState) :
    state.ordering = .fence ↔ state ∈ [.reserved, .pendingSteer, .steering, .reconcilingSteer] := by
  cases state <;> simp [DeliveryState.ordering, DeliveryState.policy]

/-- Both queries select the same rows, so the head is the first row of the prefix. -/
theorem claimableFifoHead_eq (s : Store) (sessionId : Id) :
    claimableFifoHead s sessionId = (claimableFifoPrefix s sessionId).head? := by
  unfold claimableFifoHead claimableFifoPrefix orderingHead
  rw [List.head?_takeWhile]
  have hsame : ∀ d : Delivery,
      (d.state.ordering = .fence || true && (d.priority = .p3 && d.state.ordering = .claimable)) =
        (d.priority = .p3 && d.state = .queued || d.state.ordering = .fence : Bool) := by
    intro d
    simp [ordering_claimable_iff, Bool.or_comm]
  simp only [hsame]

/-- Rows of one table differ in their submission. -/
theorem submission_nodup (s : Store) (p : Delivery → Bool) :
    ((s.deliveries.rows.filter p).map Delivery.submission).Nodup := by
  refine List.Nodup.map_on (fun a ha b hb h => ?_) (s.deliveries.nodup.of_map.filter _)
  have hid : a.id = b.id := congrArg (fun k => (ofLex k).2) h
  exact Table.eq_of_key (List.mem_filter.mp ha).1 (List.mem_filter.mp hb).1 hid

theorem claimableFifoPrefix_increasing (s : Store) (sessionId : Id) :
    Increasing Delivery.submission (claimableFifoPrefix s sessionId) :=
  (sortOn_increasing (submission_nodup s _)).sublist (List.takeWhile_sublist _)

/-- The prefix holds the `p3` queued rows that precede every fence. -/
theorem mem_claimableFifoPrefix {s : Store} {sessionId : Id} {d : Delivery} :
    d ∈ claimableFifoPrefix s sessionId ↔
      d ∈ s.deliveries.rows ∧ d.sessionId = sessionId ∧ d.priority = .p3 ∧ d.state = .queued ∧
        ∀ e ∈ s.deliveries.rows, e.sessionId = sessionId → e.state.ordering = .fence →
          d.submission < e.submission := by
  unfold claimableFifoPrefix
  rw [(sortOn_increasing (submission_nodup s _)).mem_takeWhile]
  simp only [mem_sortOn, List.mem_filter, Bool.and_eq_true, Bool.or_eq_true, decide_eq_true_eq]
  constructor
  · rintro ⟨⟨hd, hses, hsel⟩, hall⟩
    have hq : d.state = .queued := hall d ⟨hd, hses, hsel⟩ (le_refl _)
    have hp : d.priority = .p3 := by
      rcases hsel with h | h
      · exact h.1
      · simp [hq, DeliveryState.ordering, DeliveryState.policy] at h
    refine ⟨hd, hses, hp, hq, fun e he hes hf => ?_⟩
    by_contra hlt
    have := hall e ⟨he, hes, .inr hf⟩ (not_lt.mp hlt)
    simp [this, DeliveryState.ordering, DeliveryState.policy] at hf
  · rintro ⟨hd, hses, hp, hq, hfence⟩
    refine ⟨⟨hd, hses, .inl ⟨hp, hq⟩⟩, ?_⟩
    rintro e ⟨he, hes, hsel⟩ hle
    rcases hsel with h | h
    · exact h.2
    · exact absurd (hfence e he hes h) (not_lt.mpr hle)

/-! ## Who is ahead -/

/-- `x` has its place before `y`, if it was submitted before. -/
def Ahead (s : Store) (x y : Delivery) (place : Id × Nat) : Prop :=
  x.sessionId = y.sessionId → x.submission < y.submission →
    x.state = .retired ∨ ∃ q, x.turnPlace = some q ∧ s.order q < s.order place

/-- What lets the Delivery `j` pass `i`: `i` leaves its Turn for the queue when `j` has a
place, or `j` gets its place when `i` is not there or is queued with another priority. -/
inductive Overtakes (i j : Id) (s s' : Store) : Prop
  | returned (x x' y : Delivery) (hx : s.deliveries.get? i = some x)
      (hp : x.turnPlace.isSome) (hx' : s'.deliveries.get? i = some x')
      (hp' : x'.turnPlace = none) (hr : x'.state ≠ .retired)
      (hy : s.deliveries.get? j = some y) (hq : y.turnPlace.isSome)
  | unordered (y y' : Delivery) (hy : s.deliveries.get? j = some y) (hq : y.turnPlace = none)
      (hy' : s'.deliveries.get? j = some y') (hq' : y'.turnPlace.isSome)
      (hx : ∀ x, s.deliveries.get? i = some x → x.state = .queued ∧ x.priority ≠ .p3)

section Steps

variable {s s' : Store} {i j : Id}

/-- An operation that starts nothing. -/
theorem ahead_of_evolves {p : Permit} (hs : Sound s)
    (hproper : ∀ i d, s.deliveries.get? i = some d → d.Proper) (hev : Evolves p s s')
    (hj : ∀ i t q, ¬ p.joins i .start t q) (hr : p.returns → ∀ i r t q, ¬ p.joins i r t q)
    {y' : Delivery} {place : Id × Nat} (hy' : s'.deliveries.get? j = some y')
    (hh : y'.Holding place)
    (ih : ∀ y, s.deliveries.get? j = some y → y.Holding place →
      ∃ x, s.deliveries.get? i = some x ∧ Ahead s x y place) :
    Overtakes i j s s' ∨ ∃ x', s'.deliveries.get? i = some x' ∧ Ahead s' x' y' place := by
  obtain ⟨y, hy | ⟨-, hsub⟩, hysteps⟩ := hev.row j y' hy'
  · have hyh := steps_holding hj hysteps (hproper j y hy) hh
    obtain ⟨x, hx, hahead⟩ := ih y hy hyh
    obtain ⟨x', hx', hxsteps⟩ := hev.row_of hx
    obtain ⟨hxsub, hxses⟩ := steps_submission hxsteps
    obtain ⟨hysub, hyses⟩ := steps_submission hysteps
    rw [Ahead, ← hxsub, ← hxses, ← hysub, ← hyses] at hahead
    by_cases hret : Overtakes i j s s'
    · exact .inl hret
    refine .inr ⟨x', hx', fun hses hlt => ?_⟩
    rcases hahead hses hlt with hgone | ⟨q, hq, hord⟩
    · rw [steps_of_terminal hxsteps (by simp [hgone, DeliveryState.terminal])]
      exact .inl hgone
    · rcases steps_place hj hr hxsteps (hproper i x hx) hq with hq' | hgone | ⟨-, hnone⟩
      · refine .inr ⟨q, hq', ?_⟩
        rw [order_of_origins hev.turns (hs.turn_mem hx hq),
          order_of_origins hev.turns (hs.turn_mem hy hyh.placed)]
        exact hord
      · exact .inl hgone
      · by_contra hne
        refine hret (.returned x x' y hx (by rw [hq]; rfl) hx' hnone ?_ hy
          (by rw [hyh.placed]; rfl))
        exact fun h => hne (.inl h)
  · have hyh := steps_holding hj hysteps hsub.proper hh
    have hplaced := hyh.placed
    simp [Delivery.turnPlace, hsub.turnId] at hplaced

/-- What a start did that claimed a prefix of the claimable rows: the row at position `k`
got the place `k` of the new Turn, and the other rows stayed. -/
structure Started (turnId sessionId : Id) (n : Nat) (s s' : Store) : Prop where
  fresh : turnId ∉ s.origins.map Prod.fst
  opened : ∃ first, s'.origins = s.origins ++ [(turnId, sessionId, first)]
  claimed : ∀ k d, k < n → (claimableFifoPrefix s sessionId)[k]? = some d →
    ∃ d', s'.deliveries.get? d.id = some d' ∧ d'.turnPlace = some (turnId, k) ∧
      d'.submission = d.submission ∧ d'.sessionId = d.sessionId
  frame : ∀ i, (∀ k d, k < n → (claimableFifoPrefix s sessionId)[k]? = some d → d.id ≠ i) →
    s'.deliveries.get? i = s.deliveries.get? i

theorem started_of_claimed {sha : Digest} {turnId sessionId attemptId : Id}
    {backend text : String} {deliveries : List (Id × Nat)} {now : Instant}
    {rows : List Delivery}
    (h : claimStartBatch sha turnId sessionId backend deliveries text attemptId now s =
      .ok (rows, s'))
    (hpre : deliveries <+: (claimableFifoPrefix s sessionId).map fun d => (d.id, d.version)) :
    Started turnId sessionId deliveries.length s s' := by
  obtain ⟨first, rest, t, -, horigins, hdel, hfresh, hw⟩ := claimStartBatch_ok h
  have hindex : ∀ k, k < deliveries.length → deliveries[k]? =
      (claimableFifoPrefix s sessionId)[k]?.map fun d => (d.id, d.version) := by
    intro k hk
    obtain ⟨later, hlater⟩ := hpre
    rw [← List.getElem?_map, ← hlater, List.getElem?_append_left hk]
  have hmem : ∀ k d, k < deliveries.length → (claimableFifoPrefix s sessionId)[k]? = some d →
      ((d.id, d.version), k) ∈ deliveries.zipIdx := by
    intro k d hk hd
    rw [List.mk_mem_zipIdx_iff_getElem?, hindex k hk, hd]
    rfl
  refine ⟨?_, ⟨first.1, ?_⟩, fun k d hk hd => ?_, fun i hi => ?_⟩
  · rw [← turnIds_eq]
    exact Table.get?_eq_none.mp hfresh
  · rw [← horigins, Store.origins, hw.turns]
    rfl
  · obtain ⟨e, he, -, -, he'⟩ := hw.row _ (hmem k d hk hd)
    have hd' := (mem_claimableFifoPrefix.mp (List.mem_of_getElem? hd)).1
    rw [hdel] at he
    obtain rfl : d = e := Option.some.inj ((Table.mem_iff_get?.mp hd').symm.trans he)
    exact ⟨_, he', rfl, rfl, rfl⟩
  · rw [hw.frame i, hdel]
    rw [List.mem_map]
    rintro ⟨⟨⟨i', version⟩, k⟩, he, rfl⟩
    have hget := List.mk_mem_zipIdx_iff_getElem?.mp he
    have hk : k < deliveries.length := (List.getElem?_eq_some_iff.mp hget).1
    rw [hindex k hk, Option.map_eq_some_iff] at hget
    obtain ⟨d, hd, hid⟩ := hget
    exact hi k d hk hd (congrArg Prod.fst hid)

/-- The rows that a start left alone. -/
theorem Started.other {turnId sessionId : Id} {n : Nat} (h : Started turnId sessionId n s s')
    {d : Delivery} (hd : s.deliveries.get? i = some d) (hs : d.state ≠ .queued) :
    s'.deliveries.get? i = some d := by
  rw [h.frame i, hd]
  intro k e _ he hid
  obtain ⟨hmem, -, -, hq, -⟩ := mem_claimableFifoPrefix.mp (List.mem_of_getElem? he)
  have hget := Table.mem_iff_get?.mp hmem
  rw [show deliverySchema.key e = i from hid, hd] at hget
  cases hget
  exact hs hq

theorem Started.turns {turnId sessionId : Id} {n : Nat} (h : Started turnId sessionId n s s') :
    s.origins <+: s'.origins := by
  obtain ⟨first, ho⟩ := h.opened
  exact ho ▸ List.prefix_append _ _

/-- Rows of the prefix stand in the order of their submissions. -/
theorem index_lt_of_submission {sessionId : Id} {k m : Nat} {x y : Delivery}
    (hx : (claimableFifoPrefix s sessionId)[m]? = some x)
    (hy : (claimableFifoPrefix s sessionId)[k]? = some y) (h : x.submission < y.submission) :
    m < k := by
  obtain ⟨hm, rfl⟩ := List.getElem?_eq_some_iff.mp hx
  obtain ⟨hk, rfl⟩ := List.getElem?_eq_some_iff.mp hy
  by_contra hle
  rcases Nat.lt_or_eq_of_le (not_lt.mp hle) with hlt | rfl
  · have := List.pairwise_iff_getElem.mp (claimableFifoPrefix_increasing s sessionId) k m hk hm hlt
    exact lt_asymm h this
  · exact lt_irrefl _ h

/-- A row that a start claims comes after the earlier ones. -/
theorem ahead_of_claimed {turnId sessionId : Id} {n k : Nat} (hs : Sound s)
    (h : Started turnId sessionId n s s') (hk : k < n) {x y x' y' : Delivery}
    (hy : (claimableFifoPrefix s sessionId)[k]? = some y)
    (hy' : y'.submission = y.submission ∧ y'.sessionId = y.sessionId)
    (hx : s.deliveries.get? i = some x) (hx' : s'.deliveries.get? i = some x')
    (hsub : x'.submission = x.submission ∧ x'.sessionId = x.sessionId)
    (hp : x.state = .queued → x.priority = .p3) : Ahead s' x' y' (turnId, k) := by
  intro hses hlt
  rw [hsub.2, hy'.2] at hses
  rw [hsub.1, hy'.1] at hlt
  obtain ⟨-, hyses, -, -, hfence⟩ := mem_claimableFifoPrefix.mp (List.mem_of_getElem? hy)
  have hxrow := Table.get?_mem hx
  by_cases hq : x.state = .queued
  · have hmem : x ∈ claimableFifoPrefix s sessionId :=
      mem_claimableFifoPrefix.mpr ⟨hxrow, hses.trans hyses, hp hq, hq,
        fun e he hes hf => hlt.trans (hfence e he hes hf)⟩
    obtain ⟨m, hm⟩ := List.mem_iff_getElem?.mp hmem
    have hmk : m < k := index_lt_of_submission hm hy hlt
    obtain ⟨x'', hx'', hplace, -, -⟩ := h.claimed m x (hmk.trans hk) hm
    rw [show x.id = i from Table.get?_key hx, hx'] at hx''
    cases hx''
    exact .inr ⟨_, hplace, Prod.Lex.toLex_lt_toLex.mpr (.inr ⟨rfl, hmk⟩)⟩
  · obtain rfl : x' = x := Option.some.inj (hx'.symm.trans (h.other hx hq))
    by_cases hret : x'.state = .retired
    · exact .inl hret
    have howned : x'.state.ordering = .turnOwned ∨ x'.state = .accepted := by
      by_contra hnot
      have hf : x'.state.ordering = .fence := by
        cases hst : x'.state <;>
          simp_all [DeliveryState.ordering, DeliveryState.policy]
      exact lt_asymm hlt (hfence x' hxrow (hses.trans hyses) hf)
    obtain ⟨q, hq⟩ := placed_of_owned (Table.get?_check hx) howned
    obtain ⟨first, hopened⟩ := h.opened
    exact .inr ⟨q, hq, order_lt_of_new hopened h.fresh (hs.turn_mem hx hq) k⟩

/-- An operation that starts a prefix of the claimable rows. -/
theorem ahead_of_started {p : Permit} {turnId sessionId : Id} {n : Nat} (hs : Sound s)
    (hproper : ∀ i d, s.deliveries.get? i = some d → d.Proper) (hev : Evolves p s s')
    (h : Started turnId sessionId n s s') {y' : Delivery} {place : Id × Nat}
    (hy' : s'.deliveries.get? j = some y') (hh : y'.Holding place)
    (ih : ∀ y, s.deliveries.get? j = some y → y.Holding place →
      ∃ x, s.deliveries.get? i = some x ∧ Ahead s x y place) :
    Overtakes i j s s' ∨ ∃ x', s'.deliveries.get? i = some x' ∧ Ahead s' x' y' place := by
  by_cases hin : ∃ k y, k < n ∧ (claimableFifoPrefix s sessionId)[k]? = some y ∧ y.id = j
  · obtain ⟨k, y, hk, hy, rfl⟩ := hin
    obtain ⟨y₁, hy₁, hplace, hsub⟩ := h.claimed k y hk hy
    obtain rfl : y' = y₁ := Option.some.inj (hy'.symm.trans hy₁)
    obtain rfl : place = (turnId, k) := Option.some.inj (hh.placed.symm.trans hplace)
    obtain ⟨hyrow, -, -, hyq, -⟩ := mem_claimableFifoPrefix.mp (List.mem_of_getElem? hy)
    have hyget := Table.mem_iff_get?.mp hyrow
    by_cases hover : ∀ x, s.deliveries.get? i = some x → x.state = .queued ∧ x.priority ≠ .p3
    · have hnone : y.turnPlace = none := (hproper _ y hyget).not_placed (by simp [hyq])
      exact .inl (.unordered y y' hyget hnone hy' (by rw [hplace]; rfl) hover)
    · simp only [not_forall, not_and, not_not] at hover
      obtain ⟨x, hx, hp⟩ := hover
      obtain ⟨x', hx', hsteps⟩ := hev.row_of hx
      exact .inr ⟨x', hx', ahead_of_claimed hs h hk hy hsub hx hx' (steps_submission hsteps) hp⟩
  · have hy : s.deliveries.get? j = some y' := by
      rw [← h.frame j fun k d hk hd hid => hin ⟨k, d, hk, hd, hid⟩]
      exact hy'
    obtain ⟨x, hx, hahead⟩ := ih y' hy hh
    obtain ⟨x', hx', hsteps⟩ := hev.row_of hx
    refine .inr ⟨x', hx', fun hses hlt => ?_⟩
    obtain ⟨hsub, hsame⟩ := steps_submission hsteps
    rw [hsame] at hses
    rw [hsub] at hlt
    rcases hahead hses hlt with hgone | ⟨q, hq, hord⟩
    · rw [steps_of_terminal hsteps (by simp [hgone, DeliveryState.terminal])]
      exact .inl hgone
    · have hne : x.state ≠ .queued := by
        intro hst
        have := (hproper i x hx).owned (by rw [hq]; rfl)
        simp [hst] at this
      obtain rfl : x' = x := Option.some.inj (hx'.symm.trans (h.other hx hne))
      refine .inr ⟨q, hq, ?_⟩
      rw [order_of_origins h.turns (hs.turn_mem hx hq),
        order_of_origins h.turns (hs.turn_mem hy hh.placed)]
      exact hord

end Steps

/-! ## Runs -/

/-- A start claims a prefix of the claimable rows, as they were read, and nothing else
claims a `p3` row. -/
def ClaimsPrefix (s : Store) (op : Op × Instant) : Prop :=
  match op.1 with
  | .claimStartBatch _ sessionId _ deliveries _ _ =>
      deliveries <+: (claimableFifoPrefix s sessionId).map fun d => (d.id, d.version)
  | .openStartAttempt .. => False
  | _ => True

/-- At some step of the run `j` could pass `i`. -/
def Overtaken (sha : Digest) (run : List (Op × Instant)) (i j : Id) : Prop :=
  ∃ before op later, run = before ++ op :: later ∧
    Overtakes i j (reached sha before) (next sha (reached sha before) op)

theorem Overtaken.append {sha : Digest} {run : List (Op × Instant)} {i j : Id}
    (h : Overtaken sha run i j) (more : List (Op × Instant)) :
    Overtaken sha (run ++ more) i j := by
  obtain ⟨before, op, later, rfl, ho⟩ := h
  exact ⟨before, op, later ++ more, by simp, ho⟩

theorem next_permit (sha : Digest) (s : Store) {op : Op × Instant} (hop : op.1.Allowed) :
    ∃ p : Permit, p.joins = op.1.joins ∧ (p.returns → op.1.returns) ∧
      Evolves p s (next sha s op) := by
  rcases next_evolves sha s hop with hev | ⟨mid, hacc⟩
  · exact ⟨_, rfl, id, hev⟩
  · exact ⟨_, rfl, False.elim, hacc.evolves⟩

theorem reached_concat (sha : Digest) (run : List (Op × Instant)) (op : Op × Instant) :
    reached sha (run ++ [op]) = next sha (reached sha run) op :=
  reached_append

theorem reached_proper {sha : Digest} {run : List (Op × Instant)}
    (hrun : ∀ op ∈ run, op.1.Allowed) :
    ∀ i d, (reached sha run).deliveries.get? i = some d → d.Proper := by
  refine after_inv_of (next sha) (P := fun s => ∀ i d, s.deliveries.get? i = some d → d.Proper)
    (fun s op hop hs => ?_) (fun _ _ h => (by cases h)) hrun
  obtain ⟨p, -, -, hev⟩ := next_permit sha s hop
  exact hev.rows_inv (fun _ => Submitted.proper) (fun _ _ => Step.proper) hs

/-- One operation of a run whose starts claim prefixes. -/
theorem next_ahead {sha : Digest} {s : Store} {op : Op × Instant} (hop : op.1.Allowed)
    (hc : ClaimsPrefix s op) (hs : Sound s)
    (hproper : ∀ i d, s.deliveries.get? i = some d → d.Proper) {i j : Id} {y' : Delivery}
    {place : Id × Nat} (hy' : (next sha s op).deliveries.get? j = some y')
    (hh : y'.Holding place)
    (ih : ∀ y, s.deliveries.get? j = some y → y.Holding place →
      ∃ x, s.deliveries.get? i = some x ∧ Ahead s x y place) :
    Overtakes i j s (next sha s op) ∨
      ∃ x', (next sha s op).deliveries.get? i = some x' ∧ Ahead (next sha s op) x' y' place := by
  obtain ⟨p, hjoins, hreturns, hev⟩ := next_permit sha s hop
  rcases next_cases sha s op with heq | hok
  · rw [heq] at hy' ⊢
    exact .inr (ih y' hy' hh)
  obtain ⟨op, now⟩ := op
  cases op with
  | claimStartBatch turnId sessionId backend deliveries text attemptId =>
      obtain ⟨rows, t, hr, hp⟩ := bind_ok hok
      obtain ⟨-, rfl⟩ := pure_ok hp
      exact ahead_of_started hs hproper hev (started_of_claimed hr hc) hy' hh ih
  | openStartAttempt => exact hc.elim
  | _ =>
      refine ahead_of_evolves hs hproper hev ?_ ?_ hy' hh ih
      · rw [hjoins]
        simp [Op.joins]
      · rw [hjoins]
        exact fun hr => Op.joins_of_returns (hreturns hr)

/-- A `p3` row that a start claimed has the earlier ones ahead of it. -/
theorem reached_ahead {sha : Digest} {run : List (Op × Instant)}
    (hrun : ∀ op ∈ run, op.1.Allowed) (hc : Along (next sha) ClaimsPrefix Store.empty run)
    {i j : Id} {y : Delivery} {place : Id × Nat}
    (hy : (reached sha run).deliveries.get? j = some y) (hh : y.Holding place) :
    Overtaken sha run i j ∨
      ∃ x, (reached sha run).deliveries.get? i = some x ∧ Ahead (reached sha run) x y place := by
  induction run using List.reverseRecOn generalizing y place with
  | nil => cases hy
  | append_singleton run op ih =>
      have hbefore : ∀ op ∈ run, op.1.Allowed := fun o ho => hrun o (by simp [ho])
      obtain ⟨hc, hlast, -⟩ := (along_append _).mp hc
      by_cases hover : Overtaken sha run i j
      · exact .inl (hover.append _)
      rw [reached_concat] at hy ⊢
      have hstep := next_ahead (hrun op (by simp)) hlast (reached_sound hbefore)
        (reached_proper hbefore) hy hh fun y hy hh =>
          (ih hbefore hc hy hh).resolve_left hover
      rcases hstep with hnow | hahead
      · exact .inl ⟨run, op, [], rfl, hnow⟩
      · exact .inr hahead

/-- The claimable prefix is what precedes the first fence, and starts that claim prefixes
of it accept `p3` inputs in the order of their submissions, but for an input that was
steered or overtaken. -/
theorem fifo_fence (sha : Digest) :
    (∀ (s : Store) (sessionId : Id),
      (∀ d, d ∈ claimableFifoPrefix s sessionId ↔
        d ∈ s.deliveries.rows ∧ d.sessionId = sessionId ∧ d.priority = .p3 ∧
          d.state = .queued ∧ ∀ e ∈ s.deliveries.rows, e.sessionId = sessionId →
            e.state ∈ [.reserved, .pendingSteer, .steering, .reconcilingSteer] →
              d.submission < e.submission) ∧
      Increasing Delivery.submission (claimableFifoPrefix s sessionId) ∧
      (claimableFifoHead s sessionId = none ↔ claimableFifoPrefix s sessionId = []) ∧
      claimableFifoHead s sessionId = (claimableFifoPrefix s sessionId).head?) ∧
    ∀ run, (∀ op ∈ run, op.1.Allowed) → Along (next sha) ClaimsPrefix Store.empty run →
      ∀ a ∈ (reached sha run).deliveries.rows, ∀ b ∈ (reached sha run).deliveries.rows,
        a.sessionId = b.sessionId → a.submission < b.submission →
        a.state = .accepted → b.state = .accepted → a.priority = .p3 → b.priority = .p3 →
        ∀ p q, a.turnPlace = some p → b.turnPlace = some q →
          (reached sha run).order p < (reached sha run).order q ∨
            b.turnRole = some .steer ∨ Overtaken sha run a.id b.id := by
  constructor
  · intro s sessionId
    refine ⟨fun d => ?_, claimableFifoPrefix_increasing s sessionId, ?_,
      claimableFifoHead_eq s sessionId⟩
    · rw [mem_claimableFifoPrefix]
      simp only [ordering_fence_iff]
    · rw [claimableFifoHead_eq, List.head?_eq_none_iff]
  · intro run hrun hc a ha b hb hses hlt hacc hacc' _ hp3 p q hp hq
    have hget := Table.mem_iff_get?.mp ha
    have hget' := Table.mem_iff_get?.mp hb
    have hrole : b.turnRole = some .initial ∨ b.turnRole = some .steer :=
      role_of_accepted (Table.get?_check hget') hacc'
    rcases hrole with hrole | hrole
    · rcases reached_ahead hrun hc hget' ⟨hq, hrole, hp3⟩ with hover | ⟨x, hx, hahead⟩
      · exact .inr (.inr hover)
      · obtain rfl : a = x := Option.some.inj (hget.symm.trans hx)
        rcases hahead hses hlt with hgone | ⟨p', hp', hord⟩
        · simp [hacc] at hgone
        · obtain rfl : p = p' := Option.some.inj (hp.symm.trans hp')
          exact .inl hord
    · exact .inr (.inl hrole)

def batchFirst : Delivery := (reached plainDigest batchRun).deliveries.rows.head (by decide +kernel)

def batchSecond : Delivery :=
  (reached plainDigest batchRun).deliveries.rows.getLast (by decide +kernel)

theorem fifo_fence_batch :
    batchFirst.submission < batchSecond.submission ∧
      ((reached plainDigest batchRun).order ("trn_1", 0) <
          (reached plainDigest batchRun).order ("trn_1", 1) ∨
        batchSecond.turnRole = some .steer ∨
        Overtaken plainDigest batchRun batchFirst.id batchSecond.id) := by
  have hlt : batchFirst.submission < batchSecond.submission := by decide +kernel
  refine ⟨hlt, (fifo_fence plainDigest).2 batchRun (by simp [batchRun, Op.Allowed])
    ⟨trivial, trivial, ?_, trivial, trivial, trivial⟩ batchFirst (List.head_mem _) batchSecond
    (List.getLast_mem _) (by decide +kernel) hlt (by decide +kernel) (by decide +kernel)
    (by decide +kernel) (by decide +kernel) _ _ (by decide +kernel) (by decide +kernel)⟩
  change _ <+: _
  decide +kernel

/-- The second of two queued inputs, steered into a running Turn. -/
def steeredRun : List (Op × Instant) :=
  [(.enqueueQueued "msg_0" (plainSnapshot "zero") "zero", 1),
    (.claimStartBatch "trn_0" "ses" "codex" [("msg_0", 1)] "zero" "atm_0", 2),
    (.bindNativeStart "trn_0" 1 none none (some "native_0") none, 3),
    (.enqueueQueued "msg_1" (plainSnapshot "first") "first", 4),
    (.enqueueQueued "msg_2" (plainSnapshot "second") "second", 5),
    (.openSteerAttempt "msg_2" 1 "trn_0" "atm_1" "native_0", 6),
    (.materializeSteerAcceptance "msg_2" "atm_1" "trn_0" "", 7),
    (.materializeStartAcceptance "trn_0" "", 8),
    (.terminalizeTurn "trn_0" .completed none "terminal" "", 9),
    (.claimStartBatch "trn_1" "ses" "codex" [("msg_1", 1)] "first" "atm_2", 10),
    (.bindNativeStart "trn_1" 1 none none (some "native_1") none, 11),
    (.materializeStartAcceptance "trn_1" "", 12)]

/-- The steered input is accepted before the earlier one, which was only ever claimed. -/
theorem later_steered_first :
    (∀ op ∈ steeredRun, op.1.Allowed) ∧
      Along (next plainDigest) ClaimsPrefix Store.empty steeredRun ∧
      ∃ a ∈ (reached plainDigest steeredRun).deliveries.rows,
        ∃ b ∈ (reached plainDigest steeredRun).deliveries.rows,
          (a.sessionId = b.sessionId ∧ a.submission < b.submission ∧ a.state = .accepted ∧
            b.state = .accepted ∧ a.priority = .p3 ∧ b.priority = .p3) ∧
          (∃ p q, a.turnPlace = some p ∧ b.turnPlace = some q ∧
            (reached plainDigest steeredRun).order q < (reached plainDigest steeredRun).order p) ∧
          a.history.map (fun e => (e.kind, e.outcome)) =
            [(.submitted, none), (.start, some .claimed), (.start, some .accepted)] := by
  refine ⟨by simp [steeredRun, Op.Allowed],
    ⟨trivial, ?_, trivial, trivial, trivial, trivial, trivial, trivial, trivial, ?_, trivial,
      trivial, trivial⟩,
    (reached plainDigest steeredRun).deliveries.rows.get ⟨1, by decide +kernel⟩, List.get_mem _ _,
    (reached plainDigest steeredRun).deliveries.rows.get ⟨2, by decide +kernel⟩, List.get_mem _ _,
    by decide +kernel, ⟨("trn_1", 0), ("trn_0", 1), by decide +kernel⟩, by decide +kernel⟩
  · change _ <+: _
    decide +kernel
  · change _ <+: _
    decide +kernel

end Avibe.Deliveries
