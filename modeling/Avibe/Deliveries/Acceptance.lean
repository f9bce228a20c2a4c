import Avibe.Deliveries.Batches

/-!
# Acceptance

An operation that accepts Deliveries inserts one Message and links every
Delivery of its batch to it.
-/

namespace Avibe.Deliveries

open Relation Txn SortOn

/-! ## What an acceptance does -/

/-- `d` was accepted between the two stores. -/
def Accepted (s s' : Store) (d : Delivery) : Prop :=
  s'.deliveries.get? d.id = some d ∧ d.state = .accepted ∧
    ∀ e, s.deliveries.get? d.id = some e → e.state ≠ .accepted

/-- The Message of a batch is named after a Delivery. It is the batch's first one, or
the initial Delivery of the Turn whose start was accepted. -/
def Leads (mid : Id) (s s' : Store) : Prop :=
  (∃ d, Accepted s s' d ∧ d.id = mid ∧
      ∀ e, Accepted s s' e → d.turnPosition.getD 0 ≤ e.turnPosition.getD 0) ∨
    ∃ t ∈ s.turns.rows, t.initialDeliveryId = mid ∧
      ∀ e, Accepted s s' e → e.turnId = some t.id ∧ e.turnRole = some .initial

/-- The new Message lists only Deliveries that are linked to it. -/
def ListsLinked (s s' : Store) : Prop :=
  ∀ m ∈ s'.messages.rows, m ∉ s.messages.rows → ∀ i ∈ m.candidate.mergedDeliveryIds,
    ∃ d, s'.deliveries.get? i = some d ∧ d.messageId = some m.id

structure Accepts (joins : Id → Seat → Id → Nat → Prop) (mid : Id) (s s' : Store) :
    Prop where
  evolves : Evolves ⟨some mid, none, joins, True, False⟩ s s'
  /-- Its Turn is in the store. -/
  joined : ∀ i r t q, joins i r t q → r = .steer ∧ (s.turns.get? t).isSome
  message : (s'.messages.get? mid).isSome
  lists : ListsLinked s s'
  leads : Leads mid s s'

theorem verifiedSnapshot_ok {sha : Digest} {d : Delivery} {s s' : Store} {c : Snapshot}
    (h : verifiedSnapshot sha d s = .ok (c, s')) : s = s' := by
  unfold verifiedSnapshot at h
  cases hd : d.snapshot with
  | none =>
      simp only [hd] at h
      cases h
  | some snapshot =>
      simp only [hd] at h
      split at h
      · exact (pure_ok h).2
      · cases h

/-- Merging reads the rows and writes nothing. -/
theorem mergedRows_ok {sha : Digest} {rows : List Delivery} {s s' : Store} {c : Candidate}
    (h : mergedRows sha rows s = .ok (c, s')) :
    s = s' ∧ ∀ i ∈ c.mergedDeliveryIds, i ∈ rows.map (·.id) := by
  obtain ⟨parts, t, hparts, hc⟩ := bind_ok h
  have hread : s = t ∧ parts.map (·.id) = rows.map (·.id) := by
    clear h hc
    induction rows generalizing s parts with
    | nil =>
        obtain ⟨rfl, rfl⟩ := pure_ok hparts
        exact ⟨rfl, rfl⟩
    | cons d rows ih =>
        obtain ⟨part, u, hpart, hrest⟩ := bind_ok hparts
        obtain ⟨rest, v, hv, hp⟩ := bind_ok hrest
        obtain ⟨snapshot, w, hs, hp'⟩ := bind_ok hpart
        obtain rfl := verifiedSnapshot_ok hs
        obtain ⟨rfl, rfl⟩ := pure_ok hp'
        obtain ⟨rfl, rfl⟩ := pure_ok hp
        obtain ⟨rfl, hids⟩ := ih _ hv
        exact ⟨rfl, by simp [hids]⟩
  cases hm : mergedInitialSnapshot parts with
  | error message =>
      rw [hm] at hc
      cases hc
  | ok c' =>
      rw [hm] at hc
      obtain ⟨rfl, rfl⟩ := pure_ok hc
      refine ⟨hread.1, fun i hi => ?_⟩
      rw [mergedInitialSnapshot_ids hm] at hi
      split at hi
      · cases hi
      · exact hread.2 ▸ hi

/-- The Message of a batch is there once it was inserted. -/
theorem insertMessage_get? {id : Id} {c : Candidate} {now : Instant} {s s' : Store} {u : Unit}
    (h : insertMessage id c now s = .ok (u, s')) : (s'.messages.get? id).isSome := by
  rcases insertMessage_ok h with ⟨messages, hi, rfl⟩ | ⟨m, hm, -, rfl⟩
  · rw [Table.get?_insert? hi]
    simp [newMessage, messageSchema]
  · simp [hm]

/-- A Message that an insert added lists the ids of its candidate. -/
theorem insertMessage_new {id : Id} {c : Candidate} {now : Instant} {s s' : Store} {u : Unit}
    (h : insertMessage id c now s = .ok (u, s')) {m : Message} (hm : m ∈ s'.messages.rows)
    (hn : m ∉ s.messages.rows) :
    m.id = id ∧ m.candidate.mergedDeliveryIds = c.mergedDeliveryIds := by
  rcases insertMessage_ok h with ⟨messages, hi, rfl⟩ | ⟨m', -, -, rfl⟩
  · rw [Table.insert?_rows hi, List.mem_append, List.mem_singleton] at hm
    rcases hm with hm | rfl
    · exact absurd hm hn
    · exact ⟨rfl, rfl⟩
  · exact absurd hm hn

theorem insertMessage_deliveries {id : Id} {c : Candidate} {now : Instant} {s s' : Store}
    {u : Unit} (h : insertMessage id c now s = .ok (u, s')) :
    s'.deliveries = s.deliveries ∧ s'.turns = s.turns := by
  rcases insertMessage_ok h with ⟨messages, -, rfl⟩ | ⟨m, -, -, rfl⟩ <;> exact ⟨rfl, rfl⟩

/-- A batch links every Delivery whose id a new Message lists. -/
theorem listsLinked_of_wrote {ι : Type} {b : Batch ι} {l : List ι} {now : Instant}
    {id : Id} {c : Candidate} {s t s' : Store} {u : Unit}
    (hi : insertMessage id c now s = .ok (u, t)) (hw : b.Wrote l now t s')
    (hids : ∀ i ∈ c.mergedDeliveryIds, i ∈ l.map b.id)
    (hv : ∀ x d, (b.values x d).messageId = some id) : ListsLinked s s' := by
  intro m hm hn i hmem
  rw [hw.messages] at hm
  obtain ⟨rfl, hlist⟩ := insertMessage_new hi hm hn
  obtain ⟨x, hx, rfl⟩ := List.mem_map.mp (hids i (hlist ▸ hmem))
  obtain ⟨d, -, -, -, hd⟩ := hw.row x hx
  exact ⟨_, hd, hv x d⟩

/-- The Deliveries that a batch accepted are the rows it wrote. -/
theorem accepted_of_wrote {ι : Type} {b : Batch ι} {l : List ι} {now : Instant}
    {s s' : Store} {e : Delivery} (hw : b.Wrote l now s s') (he : Accepted s s' e) :
    ∃ x ∈ l, ∃ d, s.deliveries.get? (b.id x) = some d ∧
      e = d.saved (b.values x) (b.event x) now := by
  obtain ⟨hget, hacc, hold⟩ := he
  by_cases hmem : e.id ∈ l.map b.id
  · obtain ⟨x, hx, hid⟩ := List.mem_map.mp hmem
    obtain ⟨d, hd, -, -, hd'⟩ := hw.row x hx
    rw [hid, hget] at hd'
    exact ⟨x, hx, d, hd, Option.some.inj hd'⟩
  · rw [hw.frame _ hmem] at hget
    exact absurd hacc (hold e hget)

section Operations

variable {sha : Digest} {now : Instant} {s s' : Store}

theorem mem_startRows {turnId : Id} {t : Store} {rows : List Delivery}
    (h : startRows turnId s = .ok (rows, t)) :
    s = t ∧ ∀ d, d ∈ rows ↔
      d ∈ s.deliveries.rows ∧ d.turnId = some turnId ∧ d.turnRole = some .initial := by
  obtain ⟨rfl, rfl⟩ := selectDeliveries_ok h
  refine ⟨rfl, fun d => ?_⟩
  simp [List.mem_filter]

theorem materializeStartAcceptance_ok {turnId : Id} {evidence : Json} {rows : List Delivery}
    (h : materializeStartAcceptance sha turnId evidence now s = .ok (rows, s')) :
    s' = s ∨ ∃ mid, Accepts (fun _ _ _ _ => False) mid s s' := by
  obtain ⟨turn, t, hturn, h⟩ := bind_ok h
  obtain ⟨rfl, rfl⟩ := getTurn_ok hturn
  cases hget : s.turns.get? turnId with
  | none =>
      rw [hget] at h
      exact .inl (pure_ok h).2.symm
  | some turn =>
      rw [hget] at h
      dsimp only at h
      split at h
      · exact .inl (pure_ok h).2.symm
      obtain ⟨batch, t, hbatch, h⟩ := bind_ok h
      obtain ⟨rfl, hrows⟩ := mem_startRows hbatch
      obtain ⟨u, t, hu, h⟩ := bind_ok h
      obtain ⟨-, rfl⟩ := raiseIf_ok hu
      split at h
      · exact .inl (pure_ok h).2.symm
      obtain ⟨u', t, hu', h⟩ := bind_ok h
      obtain ⟨-, rfl⟩ := raiseIf_ok hu'
      obtain ⟨c, t, hc, h⟩ := bind_ok h
      obtain ⟨rfl, hids⟩ := mergedRows_ok hc
      obtain ⟨u'', t, hm, h⟩ := bind_ok h
      let b : Batch Delivery :=
        { id := Delivery.id
          version := Delivery.version
          states := fun _ => [.claimed]
          values := fun _ => Delivery.materialize turn.initialDeliveryId now
          event := fun _ => acceptedEvent .start turn.startAttemptId turnId evidence now }
      have h : b.run "initial Delivery materialization CAS lost" now batch t = .ok (rows, s') := h
      have hw : b.Wrote batch now t s' :=
        b.wrote (fun _ _ => rfl) (fun _ _ _ _ _ => by simp [b, Delivery.materialize]) h
      have hev : Evolves ⟨some turn.initialDeliveryId, none, fun _ _ _ _ => False, True, False⟩
          t s' :=
        b.keeps (fun _ _ => rfl) (fun _ _ d _ hs =>
          .acceptStart d _ _ now rfl (List.mem_singleton.mp hs) rfl rfl) t rows s' h
      obtain ⟨hdel, -⟩ := insertMessage_deliveries hm
      refine .inr ⟨turn.initialDeliveryId, (keeps_insertMessage rfl s _ t hm).trans hev,
        fun _ _ _ _ => False.elim, hev.message? (insertMessage_get? hm), ?_, ?_⟩
      · exact listsLinked_of_wrote hm hw hids fun _ _ => rfl
      · refine .inr ⟨turn, Table.get?_mem hget, rfl, fun e he => ?_⟩
        have he' : Accepted t s' e := by
          unfold Accepted
          rw [hdel]
          exact he
        obtain ⟨x, hx, d, hd, rfl⟩ := accepted_of_wrote hw he'
        obtain ⟨hmem, hturn, hrole⟩ := (hrows x).mp hx
        have hxd : x = d := by
          have := Table.mem_iff_get?.mp hmem
          rw [hdel] at hd
          exact Option.some.inj (this.symm.trans hd)
        subst hxd
        rw [show turn.id = turnId from Table.get?_key hget]
        exact ⟨hturn, hrole⟩

theorem nextPosition_ok {turnId : Id} {n : Nat} (h : nextPosition turnId s = .ok (n, s')) :
    s = s' := by
  cases h
  rfl

theorem materializeSteerAcceptance_ok {leaderId attemptId turnId : Id} {evidence : Json}
    {rows : List Delivery}
    (h : materializeSteerAcceptance sha leaderId attemptId turnId evidence now s =
      .ok (rows, s')) {joins : Id → Seat → Id → Nat → Prop}
    (hj : ∀ i r t q, joins i r t q ↔ r = .steer ∧ t = turnId) :
    s' = s ∨ ∃ mid, Accepts joins mid s s' := by
  obtain ⟨leader, t, hleader, h⟩ := bind_ok h
  obtain ⟨-, rfl⟩ := getDelivery_ok hleader
  split at h
  · exact .inl (pure_ok h).2.symm
  obtain ⟨batch, t, hbatch, h⟩ := bind_ok h
  obtain ⟨-, rfl⟩ := selectDeliveries_ok hbatch
  cases batch with
  | nil => exact .inl (pure_ok h).2.symm
  | cons first rest =>
      dsimp only at h
      split at h
      · exact .inl (pure_ok h).2.symm
      rename_i hstates
      obtain ⟨turn, t, hturn, h⟩ := bind_ok h
      obtain ⟨rfl, rfl⟩ := getTurn_ok hturn
      cases hget : s.turns.get? turnId with
      | none =>
          rw [hget] at h
          exact .inl (pure_ok h).2.symm
      | some turn =>
          rw [hget] at h
          dsimp only at h
          split at h
          · exact .inl (pure_ok h).2.symm
          obtain ⟨c, t, hc, h⟩ := bind_ok h
          obtain ⟨rfl, hids⟩ := mergedRows_ok hc
          obtain ⟨position, t, hpos, h⟩ := bind_ok h
          obtain rfl := nextPosition_ok hpos
          obtain ⟨u, t, hm, h⟩ := bind_ok h
          let b : Batch (Delivery × Nat) :=
            { id := fun x => x.1.id
              version := fun x => x.1.version
              states := fun x => [x.1.state]
              values := fun x => Delivery.materializeSteer first.id turnId (position + x.2) now
              event := fun _ => acceptedEvent .steer (some attemptId) turnId evidence now }
          have h : b.run "steer Delivery batch materialization CAS lost" now
              (first :: rest).zipIdx t = .ok (rows, s') := h
          have hopen : ∀ x ∈ (first :: rest).zipIdx,
              x.1.state = .steering ∨ x.1.state = .reconcilingSteer := by
            intro x hx
            have hmem : x.1 ∈ first :: rest := List.fst_mem_of_mem_zipIdx hx
            simp only [List.any_eq_true, Bool.or_eq_true, Bool.and_eq_true, decide_eq_true_eq,
              not_exists, not_and, not_or] at hstates
            by_cases hs : x.1.state = .steering
            · exact .inl hs
            · exact .inr (not_not.mp ((hstates x.1 hmem).1 hs))
          have hw : b.Wrote (first :: rest).zipIdx now t s' := by
            refine b.wrote (fun _ _ => rfl) (fun x _ y hy d => ?_) h
            rcases hopen y hy with hy | hy <;>
              simp [b, hy, Delivery.materializeSteer, Delivery.materialize]
          have hev : Evolves ⟨some first.id, none, joins, True, False⟩ t s' := by
            refine b.keeps (fun _ _ => rfl) (fun x hx d _ hs => ?_) t rows s' h
            have hd : d.state = x.1.state := List.mem_singleton.mp hs
            refine .acceptSteer d _ turnId _ _ now rfl ((hj _ _ _ _).mpr ⟨rfl, rfl⟩) ?_ fun _ => rfl
            rcases hopen x hx with hx | hx <;> simp [hd, hx]
          obtain ⟨hdel, -⟩ := insertMessage_deliveries hm
          refine .inr ⟨first.id, (keeps_insertMessage rfl s _ t hm).trans hev,
            fun _ _ _ _ hjoin => ⟨((hj _ _ _ _).mp hjoin).1, by
              rw [((hj _ _ _ _).mp hjoin).2, hget]; rfl⟩, hev.message? (insertMessage_get? hm), ?_, .inl ?_⟩
          · refine listsLinked_of_wrote hm hw (fun i hi => ?_) fun _ _ => rfl
            have hzip : (first :: rest).zipIdx.map b.id = (first :: rest).map (·.id) := by
              rw [show b.id = (·.id) ∘ Prod.fst from rfl, ← List.map_map, List.zipIdx_map_fst]
            exact hzip ▸ hids i hi
          · obtain ⟨d, hd, -, hs, hd'⟩ := hw.row (first, 0) (by simp)
            have hid : d.id = first.id := Table.get?_key hd
            refine ⟨d.saved (b.values (first, 0)) (b.event (first, 0)) now, ⟨?_, rfl, ?_⟩, hid, ?_⟩
            · exact (congrArg s'.deliveries.get? hid).trans hd'
            · intro e he
              rw [show (d.saved (b.values (first, 0)) (b.event (first, 0)) now).id = d.id from rfl,
                hid, ← hdel, hd] at he
              cases he
              have hds : d.state = first.state := List.mem_singleton.mp hs
              have hf : first.state = .steering ∨ first.state = .reconcilingSteer :=
                hopen (first, 0) (by simp)
              rcases hf with hf | hf <;> simp [hds, hf]
            · intro e he
              have he' : Accepted t s' e := by
                unfold Accepted
                rw [hdel]
                exact he
              obtain ⟨x, -, d', -, rfl⟩ := accepted_of_wrote hw he'
              simp [b, Delivery.saved, Delivery.materializeSteer]

/-- A row with a target Turn has an open steer. -/
theorem Delivery.steer_of_target {d : Delivery} (hc : d.check = true)
    (ht : d.currentTargetTurnId.isSome) :
    d.state ∈ [.pendingSteer, .steering, .reconcilingSteer] := by
  simp only [Delivery.check, Bool.and_eq_true, Delivery.attemptShape] at hc
  cases hs : d.state <;> simp_all [Delivery.noAttempt]

theorem materializeAcceptance_ok {id turnId : Id} {attemptId : Option Id} {evidence : Json}
    {kind : EventKind} {r : Option Delivery}
    (h : materializeAcceptance sha id attemptId turnId evidence kind now s = .ok (r, s'))
    {joins : Id → Seat → Id → Nat → Prop}
    (hj : ∀ i r t q, joins i r t q ↔ r = .steer ∧ t = turnId) :
    s' = s ∨ ∃ mid, Accepts joins mid s s' := by
  obtain ⟨delivery, t, hd, h⟩ := bind_ok h
  obtain ⟨rfl, rfl⟩ := getDelivery_ok hd
  cases hget : s.deliveries.get? id with
  | none =>
      rw [hget] at h
      exact .inl (pure_ok h).2.symm
  | some d =>
      rw [hget] at h
      dsimp only at h
      split at h
      · split at h
        · obtain ⟨t, t', hs, h⟩ := bind_ok h
          cases hs
          obtain ⟨u, t', hu, h⟩ := bind_ok h
          obtain ⟨-, rfl⟩ := raiseIf_ok hu
          exact .inl (pure_ok h).2.symm
        · exact .inl (pure_ok h).2.symm
      split at h
      · exact .inl (pure_ok h).2.symm
      split at h
      · exact .inl (pure_ok h).2.symm
      rename_i hnot _ htarget
      obtain ⟨turn, t, hturn, h⟩ := bind_ok h
      obtain ⟨rfl, rfl⟩ := getTurn_ok hturn
      split at h
      · exact .inl (pure_ok h).2.symm
      rename_i hsession
      obtain ⟨snapshot, t, hsnap, h⟩ := bind_ok h
      obtain rfl := verifiedSnapshot_ok hsnap
      obtain ⟨position, t, hpos, h⟩ := bind_ok h
      obtain rfl := nextPosition_ok hpos
      obtain ⟨accepted, t, hcas, hrest⟩ := bind_ok h
      rcases casDelivery_ok hcas with ⟨rfl, rfl⟩ | ⟨d', deliveries, hd', -, -, rfl, hrep, rfl⟩
      · exact .inl (pure_ok hrest).2.symm
      rw [hget] at hd'
      cases hd'
      obtain ⟨u, t, hm, hr⟩ := bind_ok hrest
      obtain ⟨-, rfl⟩ := pure_ok hr
      have hsteer := Delivery.steer_of_target (Table.get?_check hget)
        (by rw [not_not.mp htarget]; rfl)
      have hev : Evolves ⟨some id, none, joins, True, False⟩ s { s with deliveries } := by
        refine evolves_of_saved rfl hget hrep
          (.acceptSteer d id turnId position _ now rfl ((hj _ _ _ _).mpr ⟨rfl, rfl⟩) hsteer fun hk => ?_)
        exact if_pos hk
      have hrow := fun i => get?_saved (i := i) rfl hget hrep
      obtain ⟨hdel, -⟩ := insertMessage_deliveries hm
      have hid : d.id = id := Table.get?_key hget
      have hturn : (s.turns.get? turnId).isSome := by
        cases ht : s.turns.get? turnId with
        | none => simp [ht] at hsession
        | some turn => rfl
      refine .inr ⟨id, hev.trans (keeps_insertMessage rfl _ _ t hm),
        fun _ _ _ _ hjoin => ⟨((hj _ _ _ _).mp hjoin).1, ((hj _ _ _ _).mp hjoin).2 ▸ hturn⟩,
        insertMessage_get? hm, ?_,
        .inl ⟨d.saved (Delivery.materializeSteer id turnId position now) (acceptedEvent
          (if d.currentAttemptKind = some .steer then .steer else kind) d.currentAttemptId turnId
          evidence now) now, ⟨?_, rfl, ?_⟩, hid, ?_⟩⟩
      · intro m hmem hn i hi
        obtain ⟨-, hlist⟩ := insertMessage_new hm hmem hn
        rw [hlist] at hi
        cases hi
      · rw [hdel]
        exact (congrArg deliveries.get? hid).trans ((hrow id).trans (if_pos rfl))
      · intro e he
        have he := (congrArg s.deliveries.get? hid).symm.trans he
        rw [hget] at he
        cases he
        exact hnot
      · rintro e ⟨hgete, hacc, hold⟩
        rw [hdel] at hgete
        have hgete := (hrow e.id).symm.trans hgete
        split at hgete
        · cases hgete
          exact Nat.le_refl _
        · exact absurd hacc (hold e hgete)

end Operations

/-- An operation moves the rows by steps; if it accepts, it accepts one batch. -/
theorem Op.evolves {sha : Digest} {now : Instant} {op : Op} (hop : op.Allowed) {s s' : Store}
    {u : Unit} (h : op.run sha now s = .ok (u, s')) :
    Evolves (op.permit none) s s' ∧ s'.messages = s.messages ∨
      ∃ mid, Accepts op.joins mid s s' := by
  cases ha : op.accepting with
  | false =>
      have hev := op.keeps hop ha s u s' h
      exact .inl ⟨hev, hev.quiet rfl⟩
  | true =>
      cases op with
      | materializeStartAcceptance turnId evidence =>
          obtain ⟨rows, t, hr, hp⟩ := bind_ok h
          obtain ⟨-, rfl⟩ := pure_ok hp
          refine (materializeStartAcceptance_ok hr).imp_left ?_
          rintro rfl
          exact ⟨Std.Refl.refl _, rfl⟩
      | materializeAcceptance id attemptId turnId evidence kind =>
          obtain ⟨r, t, hr, hp⟩ := bind_ok h
          obtain ⟨-, rfl⟩ := pure_ok hp
          refine (materializeAcceptance_ok hr fun _ _ _ _ => Iff.rfl).imp_left ?_
          rintro rfl
          exact ⟨Std.Refl.refl _, rfl⟩
      | materializeSteerAcceptance leaderId attemptId turnId evidence =>
          obtain ⟨rows, t, hr, hp⟩ := bind_ok h
          obtain ⟨-, rfl⟩ := pure_ok hp
          refine (materializeSteerAcceptance_ok hr fun _ _ _ _ => Iff.rfl).imp_left ?_
          rintro rfl
          exact ⟨Std.Refl.refl _, rfl⟩
      | _ => cases ha

end Avibe.Deliveries
