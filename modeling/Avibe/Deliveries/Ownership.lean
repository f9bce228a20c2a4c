import Avibe.Deliveries.Acceptance

/-!
# Input is neither lost nor duplicated

Over any run of the store a Delivery keeps its input until it is accepted, an
accepted Delivery belongs to one Message, and both final states are absorbing.
-/

namespace Avibe.Deliveries

open Relation Txn Machine

/-! ## What the checks of a row give -/

theorem accepted_iff_messageId {d : Delivery} (hc : d.check = true) :
    d.state = .accepted ↔ d.messageId.isSome := by
  simp only [Delivery.check, Bool.and_eq_true, Delivery.materialization] at hc
  obtain ⟨⟨-, hm⟩, -⟩ := hc
  split at hm
  · rename_i hs
    simp_all
  · rename_i hs
    simp_all

theorem cleared_of_accepted {d : Delivery} (hc : d.check = true) (hs : d.state = .accepted) :
    d.snapshot = none ∧ d.dispatchText = none := by
  simp only [Delivery.check, Bool.and_eq_true, Delivery.materialization] at hc
  simp_all

/-- An open or retired row holds its input. -/
def Delivery.Held (d : Delivery) : Prop :=
  d.state ≠ .accepted → d.snapshot.isSome ∧ d.dispatchText.isSome

theorem Step.held {p : Permit} {d d' : Delivery} (h : Step p d d') (hd : d.Held) : d'.Held := by
  have hopen : d.state ≠ .accepted := by
    intro hs
    simpa [hs, DeliveryState.terminal] using h.not_terminal
  intro hs
  have hheld := hd hopen
  cases h with
  | acceptStart => exact absurd rfl hs
  | acceptSteer => exact absurd rfl hs
  | settle next _ _ _ _ _ ht => rcases ht with rfl | rfl | rfl <;> exact hheld
  | _ => exact hheld

/-! ## The store invariant -/

/-- The place of a row in a Turn: the Turn is in the store, and its initial Delivery
comes first. -/
def Delivery.Placed (s : Store) (d : Delivery) : Prop :=
  ∀ t, d.turnId = some t → ∃ o ∈ s.origins, o.1 = t ∧
    (d.turnRole = some .initial → d.id = o.2.2 → d.turnPosition = some 0)

structure Sound (s : Store) : Prop where
  held : ∀ i d, s.deliveries.get? i = some d → d.Held
  linked : ∀ i d, s.deliveries.get? i = some d → ∀ m, d.messageId = some m →
    (s.messages.get? m).isSome
  listed : ∀ m ∈ s.messages.rows, ∀ i ∈ m.candidate.mergedDeliveryIds,
    ∃ d, s.deliveries.get? i = some d ∧ d.messageId = some m.id
  initial : ∀ o ∈ s.origins, (s.deliveries.get? o.2.2).isSome
  placed : ∀ i d, s.deliveries.get? i = some d → d.Placed s

theorem sound_empty : Sound Store.empty :=
  ⟨fun _ _ h => (by cases h), fun _ _ h => (by cases h), fun _ h => (by cases h),
    fun _ h => (by cases h), fun _ _ h => (by cases h)⟩

/-- A place that an operation gives is a place of the Turn it names. -/
def GivesPlaces (op : Op) (s' : Store) : Prop :=
  ∀ i r t q, op.joins i r t q → ∃ o ∈ s'.origins, o.1 = t ∧ (r ≠ .steer → i = o.2.2 → q = 0)

theorem mem_origins_of_get? {s : Store} {t : Id} (h : (s.turns.get? t).isSome) :
    ∃ o ∈ s.origins, o.1 = t := by
  obtain ⟨turn, ht⟩ := Option.isSome_iff_exists.mp h
  exact ⟨turn.origin, List.mem_map_of_mem (Table.get?_mem ht), Table.get?_key ht⟩

theorem openStartAttempt_turn {sha : Digest} {id turnId attemptId : Id} {version : Nat}
    {now : Instant} {s s' : Store} {r : Option Delivery}
    (h : openStartAttempt sha id version turnId attemptId now s = .ok (r, s')) :
    s' = s ∨ (s.turns.get? turnId).isSome := by
  obtain ⟨turn, t, hturn, h⟩ := bind_ok h
  obtain ⟨rfl, rfl⟩ := getTurn_ok hturn
  obtain ⟨delivery, t, hd, h⟩ := bind_ok h
  obtain ⟨rfl, rfl⟩ := getDelivery_ok hd
  cases ht : s.turns.get? turnId with
  | none =>
      rw [ht] at h
      exact .inl (pure_ok h).2.symm
  | some turn => exact .inr rfl

theorem claimSuccessor_ok {sha : Digest} {id sessionId currentId successorId : Id}
    {version : Nat} {backend : String} {now : Instant} {s s' : Store} {r : Delivery}
    (h : claimSuccessor sha id version sessionId currentId successorId backend now s =
      .ok (r, s')) :
    (s'.deliveries.get? id).isSome ∧ s'.origins = s.origins ++ [(successorId, sessionId, id)] := by
  obtain ⟨turn, t, hturn, h⟩ := bind_ok h
  obtain ⟨-, horigins, -, -⟩ := insertTurn_ok hturn
  obtain ⟨d, deliveries, hd, -, -, hrep, rfl⟩ := casOrRaise_ok h
  have hrow := get?_saved (i := id) rfl hd hrep
  refine ⟨?_, horigins⟩
  rw [hrow, if_pos rfl]
  rfl

theorem givesPlaces_of_accepts {op : Op} {mid : Id} {s s' : Store}
    (h : Accepts op.joins mid s s') : GivesPlaces op s' := by
  intro i r t q hjoin
  obtain ⟨hr, ht⟩ := h.joined i r t q hjoin
  obtain ⟨o, ho, hot⟩ := mem_origins_of_get? ht
  exact ⟨o, h.evolves.turns.subset ho, hot, fun hi => absurd hr hi⟩

theorem Op.givesPlaces {sha : Digest} {now : Instant} {op : Op} {s s' : Store} {u : Unit}
    (h : op.run sha now s = .ok (u, s')) : s' = s ∨ GivesPlaces op s' := by
  cases op with
  | openStartAttempt id version turnId attemptId =>
      obtain ⟨r, t, hr, hp⟩ := bind_ok h
      obtain ⟨-, rfl⟩ := pure_ok hp
      refine (openStartAttempt_turn hr).imp_right fun ht => ?_
      rintro i r' t' q ⟨rfl, rfl, rfl, rfl⟩
      have hev : Evolves ⟨none, none, fun _ _ _ _ => True, True, True⟩ s t :=
        keeps_openStartAttempt trivial s r t hr
      obtain ⟨o, ho, hot⟩ := mem_origins_of_get? ht
      exact ⟨o, hev.turns.subset ho, hot, fun _ _ => rfl⟩
  | claimStartBatch turnId sessionId backend deliveries text attemptId =>
      obtain ⟨r, t, hr, hp⟩ := bind_ok h
      obtain ⟨-, rfl⟩ := pure_ok hp
      obtain ⟨first, rest, t₁, rfl, horigins, -, -, hw⟩ := claimStartBatch_ok hr
      refine .inr ?_
      rintro i r' t' q ⟨rfl, rfl, version, hmem⟩
      refine ⟨(t', sessionId, first.1), ?_, rfl, fun _ hi => ?_⟩
      · change _ ∈ t.turns.rows.map Turn.origin
        rw [hw.turns]
        change _ ∈ t₁.origins
        rw [horigins, List.mem_append, List.mem_singleton]
        exact .inr rfl
      · have hfirst : (first, 0) ∈ (first :: rest).zipIdx := by simp
        have := claimBatch_position hw hmem hfirst hi
        exact congrArg Prod.snd this
  | claimSuccessor id version sessionId currentId successorId backend =>
      obtain ⟨r, t, hr, hp⟩ := bind_ok h
      obtain ⟨-, rfl⟩ := pure_ok hp
      obtain ⟨-, horigins⟩ := claimSuccessor_ok hr
      refine .inr ?_
      rintro i r' t' q ⟨rfl, rfl, rfl, rfl⟩
      exact ⟨_, horigins ▸ List.mem_append.mpr (.inr (List.mem_singleton.mpr rfl)), rfl,
        fun _ _ => rfl⟩
  | materializeAcceptance id attemptId turnId evidence kind =>
      obtain ⟨r, t, hr, hp⟩ := bind_ok h
      obtain ⟨-, rfl⟩ := pure_ok hp
      refine (materializeAcceptance_ok hr fun _ _ _ _ => Iff.rfl).imp_right ?_
      rintro ⟨mid, hacc⟩
      exact givesPlaces_of_accepts hacc
  | materializeSteerAcceptance leaderId attemptId turnId evidence =>
      obtain ⟨r, t, hr, hp⟩ := bind_ok h
      obtain ⟨-, rfl⟩ := pure_ok hp
      refine (materializeSteerAcceptance_ok hr fun _ _ _ _ => Iff.rfl).imp_right ?_
      rintro ⟨mid, hacc⟩
      exact givesPlaces_of_accepts hacc
  | _ => exact .inr fun _ _ _ _ => False.elim

/-- A Turn that an operation opened has its initial Delivery in the store. -/
theorem Op.opens_delivery {sha : Digest} {now : Instant} {op : Op} {s s' : Store} {u : Unit}
    (h : op.run sha now s = .ok (u, s')) {o : Id × Id × Id} (ho : op.opens = some o) :
    (s'.deliveries.get? o.2.2).isSome := by
  cases op with
  | claimStartBatch turnId sessionId backend deliveries text attemptId =>
      obtain ⟨r, t, hr, hp⟩ := bind_ok h
      obtain ⟨-, rfl⟩ := pure_ok hp
      obtain ⟨first, rest, t₁, rfl, -, -, -, hw⟩ := claimStartBatch_ok hr
      cases ho
      obtain ⟨d, -, -, -, hd⟩ := hw.row (first, 0) (by simp)
      exact Option.isSome_iff_exists.mpr ⟨_, hd⟩
  | claimSuccessor id version sessionId currentId successorId backend =>
      obtain ⟨r, t, hr, hp⟩ := bind_ok h
      obtain ⟨-, rfl⟩ := pure_ok hp
      cases ho
      exact (claimSuccessor_ok hr).1
  | _ => cases ho

/-! ## What the steps keep -/

theorem Step.messageId {p : Permit} {d d' : Delivery} (h : Step p d d')
    (hs : d'.state = .accepted) : d'.messageId = p.accepts := by
  cases h with
  | acceptStart _ _ _ hp => exact hp.symm
  | acceptSteer _ _ _ _ _ hp => exact hp.symm
  | steer _ _ _ _ _ _ _ ht =>
      rcases ht with rfl | rfl <;> cases hs
  | settle _ _ _ _ _ _ ht =>
      rcases ht with rfl | rfl | rfl <;> cases hs
  | rebind _ _ _ hd => rcases hd with hd | hd <;> exact absurd (hd.symm.trans hs) (by decide)
  | failureRetry _ _ hd => exact absurd (hd.symm.trans hs) (by decide)
  | _ => cases hs

/-- A row that became accepted belongs to the Message of the operation. -/
theorem steps_messageId {p : Permit} {d d' : Delivery} (h : ReflTransGen (Step p) d d')
    (hd : d.state ≠ .accepted) (hs : d'.state = .accepted) : d'.messageId = p.accepts := by
  cases h with
  | refl => exact absurd hs hd
  | tail _ hlast => exact hlast.messageId hs

theorem Step.placed {p : Permit} {s' : Store} {d d' : Delivery}
    (hj : ∀ i r t q, p.joins i r t q →
      ∃ o ∈ s'.origins, o.1 = t ∧ (r ≠ .steer → i = o.2.2 → q = 0))
    (h : Step p d d') (hd : d.Placed s') : d'.Placed s' := by
  intro t ht
  cases h with
  | claim turnId position _ _ _ hp =>
      cases ht
      obtain ⟨o, ho, hot, hq⟩ := hj _ _ _ _ hp
      exact ⟨o, ho, hot, fun _ hi => congrArg some (hq (by decide) hi)⟩
  | successor turnId _ _ hp =>
      cases ht
      obtain ⟨o, ho, hot, hq⟩ := hj _ _ _ _ hp
      exact ⟨o, ho, hot, fun _ _ => rfl⟩
  | acceptSteer messageId turnId position _ _ _ hp =>
      cases ht
      obtain ⟨o, ho, hot, -⟩ := hj _ _ _ _ hp
      exact ⟨o, ho, hot, fun hr => nomatch hr⟩
  | settle next _ _ _ _ _ hnext => rcases hnext with rfl | rfl | rfl <;> cases ht
  | retireUnwritten => cases ht
  | retireSuccessor => cases ht
  | release => cases ht
  | _ => exact hd t ht

theorem Sound.evolves {p : Permit} {s s' : Store} (hs : Sound s) (hev : Evolves p s s')
    (hj : ∀ i r t q, p.joins i r t q →
      ∃ o ∈ s'.origins, o.1 = t ∧ (r ≠ .steer → i = o.2.2 → q = 0))
    (ho : ∀ o, p.opens = some o → (s'.deliveries.get? o.2.2).isSome)
    (hm : ∀ m, p.accepts = some m → (s'.messages.get? m).isSome) (hl : ListsLinked s s') :
    Sound s' where
  held := hev.rows_inv (fun d hd _ => ⟨hd.snapshot, hd.dispatchText⟩) (fun _ _ => Step.held) hs.held
  linked := by
    intro i d' hd' m hmid
    have hacc : d'.state = .accepted := by
      rw [accepted_iff_messageId (Table.get?_check hd'), hmid]
      rfl
    obtain ⟨d, ho | ⟨-, hsub⟩, hsteps⟩ := hev.row i d' hd'
    · by_cases hd : d.state = .accepted
      · rw [steps_of_terminal hsteps (by simp [hd, DeliveryState.terminal])] at hmid
        exact hev.message? (hs.linked i d ho m hmid)
      · exact hm m ((steps_messageId hsteps hd hacc).symm.trans hmid)
    · have hd : d.state ≠ .accepted := by
        rcases hsub.state with h | h <;> simp [h]
      exact hm m ((steps_messageId hsteps hd hacc).symm.trans hmid)
  listed := by
    intro m hmem i hi
    by_cases hold : m ∈ s.messages.rows
    · obtain ⟨d, hd, hmid⟩ := hs.listed m hold i hi
      have hacc : d.state = .accepted := by
        rw [accepted_iff_messageId (Table.get?_check hd), hmid]
        rfl
      exact ⟨d, hev.terminal hd (by simp [hacc, DeliveryState.terminal]), hmid⟩
    · exact hl m hmem hold i hi
  initial := by
    intro o hmem
    rcases hev.opened o hmem with hold | hnew
    · obtain ⟨d, hd⟩ := Option.isSome_iff_exists.mp (hs.initial o hold)
      obtain ⟨d', hd', -⟩ := hev.row_of hd
      simp [hd']
    · exact ho o hnew
  placed := by
    refine hev.rows_inv (P := fun d => d.Placed s') ?_ (fun _ _ => Step.placed hj) ?_
    · intro d hd t ht
      rw [hd.turnId] at ht
      cases ht
    · intro i d hd t ht
      obtain ⟨o, ho, hrest⟩ := hs.placed i d hd t ht
      exact ⟨o, hev.turns.subset ho, hrest⟩

theorem Op.sound {sha : Digest} {now : Instant} {op : Op} (hop : op.Allowed) {s s' : Store}
    {u : Unit} (h : op.run sha now s = .ok (u, s')) (hs : Sound s) : Sound s' := by
  rcases op.givesPlaces h with rfl | hj
  · exact hs
  · rcases op.evolves hop h with ⟨hev, hm⟩ | ⟨mid, hacc⟩
    · refine hs.evolves hev hj (fun o => op.opens_delivery h) (fun m hm => nomatch hm) ?_
      intro m hmem hnew
      exact absurd (hm ▸ hmem) hnew
    · refine hs.evolves hacc.evolves hj (fun o ho => nomatch ho) ?_ hacc.lists
      rintro m ⟨⟩
      exact hacc.message

/-! ## Runs -/

/-- The store after a run from the empty store. -/
def reached (sha : Digest) (run : List (Op × Instant)) : Store :=
  after (next sha) Store.empty run

theorem next_cases (sha : Digest) (s : Store) (op : Op × Instant) :
    next sha s op = s ∨ op.1.run sha op.2 s = .ok ((), next sha s op) := by
  unfold next commit
  cases h : op.1.run sha op.2 s with
  | error e => exact .inl rfl
  | ok r => exact .inr rfl

theorem next_sound {sha : Digest} {s : Store} {op : Op × Instant} (hop : op.1.Allowed)
    (hs : Sound s) : Sound (next sha s op) := by
  rcases next_cases sha s op with h | h
  · rw [h]
    exact hs
  · exact op.1.sound hop h hs

theorem reached_sound {sha : Digest} {run : List (Op × Instant)}
    (hrun : ∀ op ∈ run, op.1.Allowed) : Sound (reached sha run) :=
  after_inv_of (next sha) (P := Sound) (fun _ _ => next_sound) sound_empty hrun

/-- A Message lists a Delivery that is linked to it or that its batch names. -/
def Message.Lists (m : Message) (d : Delivery) : Prop :=
  d.messageId = some m.id ∨ d.id ∈ m.candidate.mergedDeliveryIds

/-- No input is lost or duplicated from the store that a run reached. -/
structure Conserves (sha : Digest) (run : List (Op × Instant)) : Prop where
  /-- `accepted` and `retired` rows stay as they are. -/
  absorbing : ∀ more, (∀ op ∈ more, op.1.Allowed) → ∀ d ∈ (reached sha run).deliveries.rows,
    d.state = .accepted ∨ d.state = .retired → d ∈ (reached sha (run ++ more)).deliveries.rows
  /-- No Delivery disappears. -/
  kept : ∀ more, (∀ op ∈ more, op.1.Allowed) → ∀ d ∈ (reached sha run).deliveries.rows,
    ∃ d' ∈ (reached sha (run ++ more)).deliveries.rows, d'.id = d.id
  /-- A Delivery is accepted exactly when its input moved to a Message. -/
  moved : ∀ d ∈ (reached sha run).deliveries.rows,
    (d.state = .accepted ↔ d.messageId.isSome) ∧ (d.state = .accepted ↔ d.snapshot = none) ∧
      (d.state = .accepted ↔ d.dispatchText = none) ∧
      ∀ i, d.messageId = some i → ∃ m ∈ (reached sha run).messages.rows, m.id = i
  /-- At most one Message lists a Delivery. -/
  single : ∀ d ∈ (reached sha run).deliveries.rows,
    ∀ m ∈ (reached sha run).messages.rows, ∀ m' ∈ (reached sha run).messages.rows,
      m.Lists d → m'.Lists d → m = m'
  /-- The Deliveries that one operation accepts share the id of one Delivery as their
  Message's id: the first of them, or the initial Delivery of the Turn whose start was
  accepted. When it is one of them, it comes first. -/
  shared : ∀ op : Op × Instant, op.1.Allowed →
    let s := reached sha run
    let s' := next sha s op
    (∃ d, Accepted s s' d) → ∃ leader ∈ s'.deliveries.rows, Leads leader.id s s' ∧
      (∀ d, Accepted s s' d → d.messageId = some leader.id) ∧
      (Accepted s s' leader →
        ∀ d, Accepted s s' d → leader.turnPosition.getD 0 ≤ d.turnPosition.getD 0)

theorem next_evolves (sha : Digest) (s : Store) {op : Op × Instant} (hop : op.1.Allowed) :
    Evolves (op.1.permit none) s (next sha s op) ∨
      ∃ mid, Accepts op.1.joins mid s (next sha s op) := by
  rcases next_cases sha s op with h | h
  · rw [h]
    exact .inl (Std.Refl.refl s)
  · exact (op.1.evolves hop h).imp_left And.left

theorem reached_append {sha : Digest} {run more : List (Op × Instant)} :
    reached sha (run ++ more) = after (next sha) (reached sha run) more :=
  after_append _ _ _ _

theorem row_stays {sha : Digest} {s : Store} {more : List (Op × Instant)} {d : Delivery}
    (hmore : ∀ op ∈ more, op.1.Allowed) (hd : s.deliveries.get? d.id = some d)
    (ht : d.state.terminal = true) :
    (after (next sha) s more).deliveries.get? d.id = some d := by
  refine after_inv_of (next sha) (P := fun s => s.deliveries.get? d.id = some d)
    (fun s op hop hd => ?_) hd hmore
  rcases next_evolves sha s hop with hev | ⟨mid, hacc⟩
  · exact hev.terminal hd ht
  · exact hacc.evolves.terminal hd ht

theorem id_stays (sha : Digest) {s : Store} {more : List (Op × Instant)} {i : Id}
    (hmore : ∀ op ∈ more, op.1.Allowed) (hi : (s.deliveries.get? i).isSome) :
    ((after (next sha) s more).deliveries.get? i).isSome := by
  refine after_inv_of (next sha) (P := fun s => (s.deliveries.get? i).isSome)
    (fun s op hop hi => ?_) hi hmore
  obtain ⟨d, hd⟩ := Option.isSome_iff_exists.mp hi
  rcases next_evolves sha s hop with hev | ⟨mid, hacc⟩
  · obtain ⟨d', hd', -⟩ := hev.row_of hd
    simp [hd']
  · obtain ⟨d', hd', -⟩ := hacc.evolves.row_of hd
    simp [hd']

theorem Sound.messageId_of_lists {s : Store} (hs : Sound s) {d : Delivery}
    (hd : d ∈ s.deliveries.rows) {m : Message} (hm : m ∈ s.messages.rows) (h : m.Lists d) :
    d.messageId = some m.id := by
  rcases h with h | h
  · exact h
  · obtain ⟨e, he, hid⟩ := hs.listed m hm d.id h
    have := Table.mem_iff_get?.mp hd
    exact Option.some.inj (he.symm.trans this) ▸ hid

/-- The initial Delivery of a Turn comes first among the Turn's initial Deliveries. -/
theorem Sound.initial_first {s : Store} (hs : Sound s) {t : Turn} (ht : t.origin ∈ s.origins)
    {d : Delivery} (hd : s.deliveries.get? d.id = some d) (hid : d.id = t.initialDeliveryId)
    (hturn : d.turnId = some t.id) (hrole : d.turnRole = some .initial) :
    d.turnPosition = some 0 := by
  obtain ⟨o, ho, hot, hpos⟩ := hs.placed d.id d hd t.id hturn
  obtain ⟨t₁, ht₁, rfl⟩ := List.mem_map.mp ho
  obtain ⟨t₂, ht₂, heq⟩ := List.mem_map.mp ht
  have hsame : t₁ = t₂ := by
    refine Table.eq_of_key ht₁ ht₂ (hot.trans ?_)
    exact (congrArg Prod.fst heq).symm
  refine hpos hrole (hid.trans ?_)
  rw [hsame, heq]
  rfl

theorem Accepts.leader {joins : Id → Seat → Id → Nat → Prop} {mid : Id} {s s' : Store}
    (h : Accepts joins mid s s') (hs' : Sound s') :
    ∃ leader ∈ s'.deliveries.rows, leader.id = mid ∧
      (Accepted s s' leader →
        ∀ d, Accepted s s' d → leader.turnPosition.getD 0 ≤ d.turnPosition.getD 0) := by
  rcases h.leads with ⟨d, hd, rfl, hfirst⟩ | ⟨t, ht, rfl, hbatch⟩
  · exact ⟨d, Table.get?_mem hd.1, rfl, fun _ => hfirst⟩
  · have horigin : t.origin ∈ s'.origins := h.evolves.turns.subset (List.mem_map_of_mem ht)
    obtain ⟨d, hd⟩ := Option.isSome_iff_exists.mp (hs'.initial _ horigin)
    have hid : d.id = t.initialDeliveryId := Table.get?_key hd
    refine ⟨d, Table.get?_mem hd, hid, fun hacc e _ => ?_⟩
    obtain ⟨hturn, hrole⟩ := hbatch d hacc
    rw [hs'.initial_first horigin hacc.1 hid hturn hrole]
    exact Nat.zero_le _

theorem Accepts.messageId {joins : Id → Seat → Id → Nat → Prop} {mid : Id}
    {s s' : Store} (h : Accepts joins mid s s') {d : Delivery} (hd : Accepted s s' d) :
    d.messageId = some mid := by
  obtain ⟨hget, hacc, hnot⟩ := hd
  obtain ⟨e, ho | ⟨-, hsub⟩, hsteps⟩ := h.evolves.row d.id d hget
  · exact steps_messageId hsteps (hnot e ho) hacc
  · refine steps_messageId hsteps ?_ hacc
    rcases hsub.state with he | he <;> simp [he]

/-- An operation that accepts nothing. -/
theorem not_accepted_of_evolves {op : Op} {s s' : Store} (h : Evolves (op.permit none) s s')
    {d : Delivery} (hd : Accepted s s' d) : False := by
  obtain ⟨hget, hacc, hnot⟩ := hd
  have hmid : d.messageId.isSome := (accepted_iff_messageId (Table.get?_check hget)).mp hacc
  obtain ⟨e, ho, hsteps⟩ := h.row d.id d hget
  have he : e.state ≠ .accepted := by
    rcases ho with ho | ⟨-, hsub⟩
    · exact hnot e ho
    · rcases hsub.state with he | he <;> simp [he]
  rw [steps_messageId hsteps he hacc] at hmid
  cases hmid

/-- Input is neither lost nor duplicated, whatever operations a run is made of. -/
theorem reached_conserves (sha : Digest) (run : List (Op × Instant))
    (hrun : ∀ op ∈ run, op.1.Allowed) : Conserves sha run := by
  have hs : Sound (reached sha run) := reached_sound hrun
  constructor
  case absorbing =>
    intro more hmore d hd hfinal
    rw [reached_append]
    refine Table.get?_mem (row_stays hmore (Table.mem_iff_get?.mp hd) ?_)
    rcases hfinal with h | h <;> simp [h, DeliveryState.terminal]
  case kept =>
    intro more hmore d hd
    rw [reached_append]
    have := id_stays sha hmore (Option.isSome_iff_exists.mpr ⟨d, Table.mem_iff_get?.mp hd⟩)
    obtain ⟨d', hd'⟩ := Option.isSome_iff_exists.mp this
    exact ⟨d', Table.get?_mem hd', Table.get?_key hd'⟩
  case moved =>
    intro d hd
    have hget := Table.mem_iff_get?.mp hd
    have hcheck : d.check = true := Table.get?_check hget
    have hheld := hs.held _ d hget
    refine ⟨accepted_iff_messageId hcheck, ⟨fun h => (cleared_of_accepted hcheck h).1, fun h => ?_⟩,
      ⟨fun h => (cleared_of_accepted hcheck h).2, fun h => ?_⟩, fun i hi => ?_⟩
    · by_contra hne
      simpa [h] using (hheld hne).1
    · by_contra hne
      simpa [h] using (hheld hne).2
    · obtain ⟨m, hm⟩ := Option.isSome_iff_exists.mp (hs.linked _ d hget i hi)
      exact ⟨m, Table.get?_mem hm, Table.get?_key hm⟩
  case single =>
    intro d hd m hm m' hm' h h'
    have hid := hs.messageId_of_lists hd hm h
    rw [hs.messageId_of_lists hd hm' h'] at hid
    exact Table.eq_of_key hm hm' (Option.some.inj hid).symm
  case shared =>
    intro op hop s s' hacc
    obtain ⟨d, hd⟩ := hacc
    rcases next_evolves sha s hop with hev | ⟨mid, hmid⟩
    · exact (not_accepted_of_evolves hev hd).elim
    · obtain ⟨leader, hmem, rfl, hfirst⟩ := hmid.leader (next_sound hop hs)
      exact ⟨leader, hmem, hmid.leads, fun e he => hmid.messageId he, hfirst⟩

/-- Two inputs that one start claims and one acceptance merges. -/
def batchRun : List (Op × Instant) :=
  [(.enqueueQueued "msg_1" (plainSnapshot "first") "first", 1),
    (.enqueueQueued "msg_2" (plainSnapshot "second") "second", 2),
    (.claimStartBatch "trn_1" "ses" "codex" [("msg_1", 1), ("msg_2", 1)] "first\nsecond" "atm_1",
      3),
    (.bindNativeStart "trn_1" 1 none none (some "native") none, 4),
    (.materializeStartAcceptance "trn_1" "", 5)]

theorem reached_conserves_batch :
    (reached plainDigest batchRun).deliveries.rows.map
        (fun d => (d.id, d.state, d.messageId)) =
      [("msg_1", .accepted, some "msg_1"), ("msg_2", .accepted, some "msg_1")] ∧
    Conserves plainDigest batchRun := by
  refine ⟨by decide +kernel, reached_conserves plainDigest batchRun ?_⟩
  simp [batchRun, Op.Allowed]

end Avibe.Deliveries
