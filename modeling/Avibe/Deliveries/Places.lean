import Avibe.Deliveries.Ownership

/-!
# Places in Turns

A place is a Turn and a position in it. A row gets one from a start, from an
interrupt whose successor it becomes, or when its steer is accepted, and leaves
it to be retired or to go back to the queue.
-/

namespace Avibe.Deliveries

open Relation

/-! ## Rows and their places -/

theorem role_of_accepted {d : Delivery} (hc : d.check = true) (hs : d.state = .accepted) :
    d.turnRole = some .initial ∨ d.turnRole = some .steer := by
  simp only [Delivery.check, Bool.and_eq_true, Delivery.turnMembership, hs] at hc
  obtain ⟨role, hrole⟩ := Option.isSome_iff_exists.mp hc.2.1.2
  cases role <;> simp [hrole]

theorem placed_of_owned {d : Delivery} (hc : d.check = true)
    (hs : d.state.ordering = .turnOwned ∨ d.state = .accepted) :
    ∃ place, d.turnPlace = some place := by
  simp only [Delivery.check, Bool.and_eq_true, Delivery.turnMembership] at hc
  have hsome : d.turnId.isSome = true ∧ d.turnPosition.isSome = true := by
    cases hd : d.state <;> simp_all [DeliveryState.ordering, DeliveryState.policy]
  obtain ⟨turnId, hturn⟩ := Option.isSome_iff_exists.mp hsome.1
  obtain ⟨position, hpos⟩ := Option.isSome_iff_exists.mp hsome.2
  exact ⟨(turnId, position), by simp [Delivery.turnPlace, hturn, hpos]⟩

/-- A row with a place is owned by its Turn, and a waiting successor is `p0`. -/
structure Delivery.Proper (d : Delivery) : Prop where
  owned : d.turnPlace.isSome → d.state = .claimed ∨ d.state = .interruptWaiting ∨
    d.state = .accepted
  waiting : d.state = .interruptWaiting → d.priority = .p0

theorem Delivery.Proper.not_placed {d : Delivery} (h : d.Proper)
    (hs : d.state ≠ .claimed ∧ d.state ≠ .interruptWaiting ∧ d.state ≠ .accepted) :
    d.turnPlace = none := by
  by_contra hne
  rcases h.owned (Option.isSome_iff_ne_none.mpr hne) with h | h | h
  · exact hs.1 h
  · exact hs.2.1 h
  · exact hs.2.2 h

theorem Submitted.proper {p : Permit} {d : Delivery} (h : Submitted p d) : d.Proper := by
  refine ⟨fun hp => ?_, fun hs => ?_⟩
  · simp [Delivery.turnPlace, h.turnId] at hp
  · rcases h.state with hd | hd <;> simp [hd] at hs

theorem Delivery.Proper.of_unplaced {d : Delivery} (hp : d.turnPlace = none)
    (hs : d.state ≠ .interruptWaiting) : d.Proper :=
  ⟨fun h => absurd hp (Option.isSome_iff_ne_none.mp h), fun h => absurd h hs⟩

theorem Step.proper {p : Permit} {d d' : Delivery} (h : Step p d d') (hd : d.Proper) :
    d'.Proper := by
  have hnot := hd.not_placed
  cases h with
  | claim => exact ⟨fun _ => .inl rfl, fun hs => (nomatch hs)⟩
  | activate => exact ⟨fun _ => .inl rfl, fun hs => (nomatch hs)⟩
  | successor => exact ⟨fun _ => .inr (.inl rfl), fun _ => rfl⟩
  | steer _ _ _ _ _ _ hs ht =>
      have hnone : d.turnPlace = none := hnot (by
        simp only [List.mem_cons, List.not_mem_nil, or_false] at hs
        rcases hs with h | h | h <;> simp [h])
      exact .of_unplaced hnone (by rcases ht with rfl | rfl <;> exact nofun)
  | receipt _ _ _ _ hs =>
      exact .of_unplaced (hnot (by rcases hs with h | h <;> simp [h])) nofun
  | acceptStart => exact ⟨fun _ => .inr (.inr rfl), fun hs => (nomatch hs)⟩
  | acceptSteer => exact ⟨fun _ => .inr (.inr rfl), fun hs => (nomatch hs)⟩
  | settle _ _ _ _ _ _ ht => rcases ht with rfl | rfl | rfl <;> exact .of_unplaced rfl nofun
  | retire _ _ _ hs =>
      exact .of_unplaced (hnot (by rcases hs with h | h <;> simp [h])) nofun
  | retireUnwritten => exact .of_unplaced rfl nofun
  | retireSuccessor => exact .of_unplaced rfl nofun
  | queue _ _ _ hs =>
      exact .of_unplaced (hnot (by rcases hs with h | h <;> simp [h])) nofun
  | release => exact .of_unplaced rfl nofun
  | rebind => exact ⟨hd.owned, hd.waiting⟩
  | failureRetry => exact ⟨hd.owned, hd.waiting⟩

/-- A `p3` row that a start claimed, with its place. -/
structure Delivery.Holding (d : Delivery) (place : Id × Nat) : Prop where
  placed : d.turnPlace = some place
  role : d.turnRole = some .initial
  priority : d.priority = .p3

/-- Only a start gives a `p3` row a place of its own. -/
theorem Step.holding {p : Permit} (hj : ∀ i t q, ¬ p.joins i .start t q) {d d' : Delivery}
    (h : Step p d d') (hd : d.Proper) {place : Id × Nat} (hh : d'.Holding place) :
    d.Holding place := by
  have hnot := hd.not_placed
  cases h with
  | claim _ _ _ _ _ hp => exact absurd hp (hj _ _ _)
  | successor => cases (hh.priority : Priority.p0 = .p3)
  | acceptSteer => cases (hh.role : some TurnRole.steer = some .initial)
  | settle _ _ _ _ _ _ ht => rcases ht with rfl | rfl | rfl <;> exact absurd hh.placed (by rintro ⟨⟩)
  | retireUnwritten => exact absurd hh.placed (by rintro ⟨⟩)
  | retireSuccessor => exact absurd hh.placed (by rintro ⟨⟩)
  | release => exact absurd hh.placed (by rintro ⟨⟩)
  | queue _ _ _ hs =>
      have hnone : d.turnPlace = none := hnot (by rcases hs with h | h <;> simp [h])
      exact absurd (hnone.symm.trans hh.placed) (by simp)
  | _ => exact ⟨hh.placed, hh.role, hh.priority⟩

theorem steps_proper {p : Permit} {d d' : Delivery} (h : ReflTransGen (Step p) d d')
    (hd : d.Proper) : d'.Proper := by
  induction h with
  | refl => exact hd
  | tail _ hlast ih => exact hlast.proper ih

theorem steps_holding {p : Permit} (hj : ∀ i t q, ¬ p.joins i .start t q) {d d' : Delivery}
    (h : ReflTransGen (Step p) d d') (hd : d.Proper) {place : Id × Nat}
    (hh : d'.Holding place) : d.Holding place := by
  induction h with
  | refl => exact hh
  | tail hsteps hlast ih => exact ih (hlast.holding hj (steps_proper hsteps hd) hh)

/-- A row leaves its place to be retired, or with an operation that returns it. -/
theorem Step.place {p : Permit} (hj : ∀ i t q, ¬ p.joins i .start t q) {d d' : Delivery}
    (h : Step p d d') (hd : d.Proper) {place : Id × Nat} (hp : d.turnPlace = some place) :
    d'.turnPlace = some place ∨ d'.state = .retired ∨ p.returns ∧ d'.turnPlace = none := by
  have howned := hd.owned (by rw [hp]; rfl)
  cases h with
  | claim _ _ _ _ _ hp => exact absurd hp (hj _ _ _)
  | successor _ _ _ _ hs => simp [hs] at howned
  | acceptSteer _ _ _ _ _ _ _ hs =>
      simp only [List.mem_cons, List.not_mem_nil, or_false] at hs
      rcases hs with h | h | h <;> simp [h] at howned
  | settle _ _ _ _ _ _ ht _ _ hr => 
      rcases ht with rfl | rfl | rfl <;> exact .inr (.inr ⟨hr, rfl⟩)
  | retireUnwritten => exact .inr (.inl rfl)
  | retireSuccessor => exact .inr (.inl rfl)
  | release _ _ _ _ hr => exact .inr (.inr ⟨hr, rfl⟩)
  | _ => exact .inl hp

theorem Step.unplaced {p : Permit} (hj : ∀ i r t q, ¬ p.joins i r t q) {d d' : Delivery}
    (h : Step p d d') (hp : d.turnPlace = none) : d'.turnPlace = none := by
  cases h with
  | claim _ _ _ _ _ hp => exact absurd hp (hj _ _ _ _)
  | successor _ _ _ hp => exact absurd hp (hj _ _ _ _)
  | acceptSteer _ _ _ _ _ _ hp => exact absurd hp (hj _ _ _ _)
  | settle _ _ _ _ _ _ ht => rcases ht with rfl | rfl | rfl <;> rfl
  | retireUnwritten => rfl
  | retireSuccessor => rfl
  | release => rfl
  | _ => exact hp

theorem steps_place {p : Permit} (hj : ∀ i t q, ¬ p.joins i .start t q)
    (hr : p.returns → ∀ i r t q, ¬ p.joins i r t q) {d d' : Delivery}
    (h : ReflTransGen (Step p) d d') (hd : d.Proper) {place : Id × Nat}
    (hp : d.turnPlace = some place) :
    d'.turnPlace = some place ∨ d'.state = .retired ∨ p.returns ∧ d'.turnPlace = none := by
  induction h with
  | refl => exact .inl hp
  | tail hsteps hlast ih =>
      rcases ih with h | h | ⟨hret, h⟩
      · exact hlast.place hj (steps_proper hsteps hd) h
      · exact absurd hlast.not_terminal (by simp [h, DeliveryState.terminal])
      · exact .inr (.inr ⟨hret, hlast.unplaced (hr hret) h⟩)

/-- The columns of a submission that no write changes. -/
theorem Step.submission {p : Permit} {d d' : Delivery} (h : Step p d d') :
    d'.submission = d.submission ∧ d'.sessionId = d.sessionId := by
  cases h with
  | settle _ _ _ _ _ _ ht => rcases ht with rfl | rfl | rfl <;> exact ⟨rfl, rfl⟩
  | _ => exact ⟨rfl, rfl⟩

theorem steps_submission {p : Permit} {d d' : Delivery} (h : ReflTransGen (Step p) d d') :
    d'.submission = d.submission ∧ d'.sessionId = d.sessionId := by
  induction h with
  | refl => exact ⟨rfl, rfl⟩
  | tail _ hlast ih => exact ⟨hlast.submission.1.trans ih.1, hlast.submission.2.trans ih.2⟩

/-! ## The order of places -/

/-- Where a place stands: Turns in the order of their creation, then positions. -/
def Store.order (s : Store) (place : Id × Nat) : Nat ×ₗ Nat :=
  toLex ((s.turns.rows.map (·.id)).idxOf place.1, place.2)

theorem turnIds_eq (s : Store) : s.turns.rows.map (·.id) = s.origins.map Prod.fst := by
  simp [Store.origins, Turn.origin]

theorem Sound.turn_mem {s : Store} (hs : Sound s) {i : Id} {d : Delivery}
    (hd : s.deliveries.get? i = some d) {place : Id × Nat} (hp : d.turnPlace = some place) :
    place.1 ∈ s.origins.map Prod.fst := by
  have ht : d.turnId = some place.1 := by
    unfold Delivery.turnPlace at hp
    split at hp
    · rename_i ht _
      cases hp
      exact ht
    · cases hp
  obtain ⟨o, ho, hot, -⟩ := hs.placed i d hd _ ht
  exact List.mem_map.mpr ⟨o, ho, hot⟩

/-- New Turns come last. -/
theorem order_of_origins {s s' : Store} (h : s.origins <+: s'.origins) {place : Id × Nat}
    (hp : place.1 ∈ s.origins.map Prod.fst) : s'.order place = s.order place := by
  obtain ⟨l, hl⟩ := h
  rw [Store.order, Store.order, turnIds_eq, turnIds_eq, ← hl, List.map_append,
    List.idxOf_append_of_mem hp]

theorem order_lt_of_new {s s' : Store} {o : Id × Id × Id} (h : s'.origins = s.origins ++ [o])
    (hnew : o.1 ∉ s.origins.map Prod.fst) {place : Id × Nat}
    (hp : place.1 ∈ s.origins.map Prod.fst) (position : Nat) :
    s'.order place < s'.order (o.1, position) := by
  refine Prod.Lex.toLex_lt_toLex.mpr (.inl ?_)
  simp only [turnIds_eq, h, List.map_append, List.idxOf_append_of_mem hp,
    List.idxOf_append_of_notMem hnew]
  exact Nat.lt_add_right _ (List.idxOf_lt_length_iff.mpr hp)

end Avibe.Deliveries
