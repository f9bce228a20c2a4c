import Avibe.Runtime.GenerationSafety

/-!
# Runs of a set of generations

What holds between the steps of any interleaving of the calls and the reconciler: which
stops begin, which bindings are made, which generations are gone for good, and how many
are left when the reconciler has nothing to do.
-/

namespace Avibe.Runtime

open SortOn Machine

namespace GenerationSet

/-- The stop of this generation runs. -/
def stopRuns (s : GenerationSet) (serial : Nat) : Prop :=
  ∃ force requests, s.reconciler = .stopping serial force requests

/-- The generation is attached, or its stop runs. -/
def here (s : GenerationSet) (serial : Nat) : Prop := serial ∈ s.attached ∨ s.stopRuns serial

/-! ## Nothing comes back -/

/-- Only generations of `P` and newer ones than `n` are here. -/
structure Within (n : Nat) (P : Nat → Prop) (s : GenerationSet) : Prop where
  serial : n ≤ s.nextSerial
  only : ∀ g, s.here g → P g ∨ n ≤ g

section Within

variable {n : Nat} {P : Nat → Prop} {s : GenerationSet}

theorem within_here (s : GenerationSet) : Within s.nextSerial s.here s :=
  ⟨Nat.le_refl _, fun _ h => .inl h⟩

theorem Within.of_subset {s' : GenerationSet} (h : Within n P s)
    (hs : s.nextSerial ≤ s'.nextSerial) (ha : ∀ g ∈ s'.attached, P g ∨ n ≤ g)
    (hr : ∀ g, s'.stopRuns g → P g ∨ n ≤ g) : Within n P s' where
  serial := Nat.le_trans h.serial hs
  only := fun g hg => hg.elim (ha g) (hr g)

theorem Within.mem (h : Within n P s) {g : Nat} (hg : g ∈ s.attached) : P g ∨ n ≤ g :=
  h.only g (.inl hg)

theorem Within.running (h : Within n P s) {g : Nat} (hg : s.stopRuns g) : P g ∨ n ≤ g :=
  h.only g (.inr hg)

/-- The state with other flags, counts or waiters. -/
theorem Within.same {s' : GenerationSet} (h : Within n P s) (hs : s'.nextSerial = s.nextSerial)
    (ha : s'.attached = s.attached) (hr : s'.reconciler = s.reconciler) : Within n P s' := by
  apply h.of_subset
  · rw [hs]
  · intro g hg
    exact h.mem (ha ▸ hg)
  · rintro g ⟨force, requests, hg⟩
    exact h.running ⟨force, requests, hr ▸ hg⟩

/-- The reconciler awaits no stop. -/
theorem Within.parked (h : Within n P s) {r : Reconciler} (hr : r.idle = true ∨ r = .ready) :
    Within n P { s with reconciler := r } := by
  refine h.of_subset (Nat.le_refl _) (fun g hg => h.mem hg) ?_
  rintro g ⟨force, requests, rfl⟩
  rcases hr with hr | hr <;> cases hr

theorem Within.kick (h : Within n P s) : Within n P s.kick := by
  unfold GenerationSet.kick
  split
  · exact h.parked (.inr rfl)
  · exact h

theorem Within.addRetiring (h : Within n P s) {g : Nat} (hg : P g ∨ n ≤ g) :
    Within n P (s.addRetiring g) := by
  refine h.of_subset (Nat.le_refl _) ?_ (fun x hx => h.running hx)
  intro x hx
  rcases mem_attached.mp hx with hx | hx
  · rcases List.mem_append.mp (mem_sortOn.mp hx) with hx | hx
    · exact h.mem (mem_attached.mpr (.inl hx))
    · exact List.mem_singleton.mp hx ▸ hg
  · exact h.mem (mem_attached.mpr (.inr hx))

theorem Within.serve (h : Within n P s) {g : Nat} (hg : P g ∨ n ≤ g) :
    Within n P { s with current := some g } := by
  refine h.of_subset (Nat.le_refl _) ?_ (fun x hx => h.running hx)
  intro x hx
  rcases mem_attached.mp hx with hx | hx
  · exact h.mem (mem_attached.mpr (.inl hx))
  · exact Option.some.inj hx ▸ hg

theorem Within.vacate (h : Within n P s) : Within n P { s with current := none } := by
  refine h.of_subset (Nat.le_refl _) ?_ (fun x hx => h.running hx)
  intro x hx
  rcases mem_attached.mp hx with hx | hx
  · exact h.mem (mem_attached.mpr (.inl hx))
  · cases hx

theorem Within.erase (h : Within n P s) (g : Nat) :
    Within n P { s with retiring := s.retiring.erase g } := by
  refine h.of_subset (Nat.le_refl _) ?_ (fun x hx => h.running hx)
  intro x hx
  rcases mem_attached.mp hx with hx | hx
  · exact h.mem (mem_attached.mpr (.inl (List.mem_of_mem_erase hx)))
  · exact h.mem (mem_attached.mpr (.inr hx))

theorem Within.detach (h : Within n P s) (g : Nat) : Within n P (s.detach g) := by
  unfold GenerationSet.detach
  split
  · exact (h.erase g).vacate.same rfl rfl rfl
  · exact (h.erase g).same rfl rfl rfl

theorem Within.installCurrent (h : Within n P s) {g : Nat} (hg : P g ∨ n ≤ g) :
    Within n P (s.installCurrent g) := by
  unfold GenerationSet.installCurrent
  split
  · rename_i previous hc
    have hprevious := h.mem (mem_attached.mpr (.inr hc))
    split
    · exact ((h.serve hg).addRetiring hprevious).kick
    · exact (h.serve hg).kick
  · exact (h.serve hg).kick

theorem Within.retire (h : Within n P s) {g : Nat} (hg : P g ∨ n ≤ g) :
    Within n P (s.retire g) := by
  unfold GenerationSet.retire
  split
  · exact h
  · have hclosed : Within n P (s.update g fun g => { g with closed := true }) :=
      h.same rfl rfl rfl
    dsimp only
    apply Within.kick
    split
    · split
      · exact hclosed.vacate.addRetiring hg
      · exact hclosed.vacate
    · split
      · exact hclosed.addRetiring hg
      · exact hclosed

theorem Within.bindServing (h : Within n P s) {digest : Digest} {s' : GenerationSet}
    (hs : s.bindServing digest = some s') : Within n P s' := by
  unfold GenerationSet.bindServing at hs
  split at hs
  · cases hs
    exact h.same rfl rfl rfl
  · split at hs
    · cases hs
    · rename_i g hg
      cases hs
      have hmem : g ∈ s.retiring := List.mem_reverse.mp (List.mem_of_find?_eq_some hg)
      have hopen : Within n P (s.reopened g) := (h.erase g).same rfl rfl rfl
      exact (hopen.installCurrent (h.mem (mem_attached.mpr (.inl hmem)))).same rfl rfl rfl

theorem Within.stopAll (h : Within n P s) (force : Bool) : Within n P (s.stopAll force) := by
  unfold GenerationSet.stopAll
  apply Within.kick
  dsimp only
  split
  · rename_i current hc
    have hcurrent := h.mem (mem_attached.mpr (.inr hc))
    exact (h.vacate.addRetiring hcurrent).same rfl rfl rfl
  · exact h.same rfl rfl rfl

theorem Within.release (h : Within n P s) (index : Nat) : Within n P (s.release index) := by
  unfold GenerationSet.release
  split
  · exact h
  · split
    · exact h
    · dsimp only
      split
      · apply Within.kick
        exact h.same rfl rfl rfl
      · exact h.same rfl rfl rfl

theorem Within.advance (h : Within n P s) : Within n P s.advance := by
  unfold GenerationSet.advance
  split
  · exact h.parked (.inl rfl)
  · rename_i g force hv
    have hg := h.mem (mem_attached.mpr (.inl (nextVictim_mem hv).1))
    have hd := h.detach g
    dsimp only
    refine hd.of_subset ?_ ?_ ?_
    · cases force <;> exact Nat.le_refl _
    · intro x hx
      refine hd.mem ?_
      cases force <;> exact hx
    · rintro x ⟨_, _, hx⟩
      cases hx
      exact hg

theorem Within.reattach (h : Within n P s) {g : Nat} (hg : P g ∨ n ≤ g) (failed retry : Bool) :
    Within n P (s.reattach g failed retry) := by
  by_cases hm : g ∈ s.retiring
  · rw [reattach_mem hm]
    exact h.same rfl rfl rfl
  · rw [reattach_eq hm]
    apply Within.addRetiring _ hg
    exact h.same rfl rfl rfl

theorem Within.stopEnds (h : Within n P s) {g : Nat} (hg : P g ∨ n ≤ g) (force : Bool)
    (requests : Nat) (how : StopEnd) : Within n P (s.stopEnds g force requests how) := by
  cases how with
  | returned stopped =>
      cases stopped with
      | true => exact h.advance
      | false => exact (h.reattach hg _ _).advance
  | raised => exact (h.reattach hg _ _).advance
  | cancelled => exact (h.reattach hg true false).parked (.inl rfl)

theorem Within.create (h : Within n P s) (g : Generation) : Within n P (s.create g) :=
  h.of_subset (Nat.le_succ _) (fun _ hx => h.mem hx) (fun _ hx => h.running hx)

end Within

/-- A step brings nothing back: what is here after it was here before it, or is new. -/
theorem within_step {s : GenerationSet} (h : s.Sound) (st : Step) :
    Within s.nextSerial s.here (s.step st) := by
  have hw := within_here s
  have hnew : s.here s.nextSerial ∨ s.nextSerial ≤ s.nextSerial := .inr (Nat.le_refl _)
  cases st with
  | acquire digest =>
      simp only [GenerationSet.step]
      split
      · exact hw
      · cases hs : s.bindServing digest with
        | none => exact hw.same rfl rfl rfl
        | some s' => exact hw.bindServing hs
  | locked index =>
      simp only [GenerationSet.step]
      split
      · rename_i digest _ _
        have hw' : Within s.nextSerial s.here { s with waiting := s.waiting.eraseIdx index } :=
          hw.same rfl rfl rfl
        split
        · exact hw'
        · cases hs : GenerationSet.bindServing { s with waiting := s.waiting.eraseIdx index } digest with
          | none => exact hw.same rfl rfl rfl
          | some s' => exact hw'.bindServing hs
      · exact hw
  | abandoned index => exact hw.same rfl rfl rfl
  | started =>
      simp only [GenerationSet.step]
      split
      · have hw' : Within s.nextSerial s.here { s with starting := none } := hw.same rfl rfl rfl
        unfold GenerationSet.started
        dsimp only
        split
        · exact ((hw'.create _).addRetiring hnew).kick
        · exact ((hw'.create _).installCurrent hnew).same rfl rfl rfl
      · exact hw
  | startFailed => exact hw.same rfl rfl rfl
  | bind g =>
      simp only [GenerationSet.step]
      split
      · exact hw
      · exact hw.same rfl rfl rfl
  | release index => exact hw.release index
  | adopt digest current =>
      simp only [GenerationSet.step]
      split
      · exact hw
      · unfold GenerationSet.adopt
        dsimp only
        split
        · exact (hw.create _).installCurrent hnew
        · exact ((hw.create _).addRetiring hnew).kick
  | retire g =>
      simp only [GenerationSet.step]
      split
      · rename_i hg
        by_cases hstopped : (s.generations g).stopped = true
        · rw [GenerationSet.retire, if_pos hstopped]
          exact hw
        · exact hw.retire (.inl (.inl ((h.live g hg).mp (by simpa using hstopped))))
      · exact hw
  | retireCurrent =>
      simp only [GenerationSet.step]
      split
      · rename_i current hc
        exact hw.retire (hw.mem (mem_attached.mpr (.inr hc)))
      · exact hw
  | discard g =>
      simp only [GenerationSet.step]
      split
      · exact hw.detach g
      · exact hw
  | reap =>
      have hretry : Within s.nextSerial s.here s.requestRetry := hw.same rfl rfl rfl
      exact hretry.kick
  | stopAll force => exact hw.stopAll force
  | reconcile =>
      simp only [GenerationSet.step]
      split
      · exact Within.advance (hw.same rfl rfl rfl)
      · exact hw
  | stopEnds how =>
      simp only [GenerationSet.step]
      split
      · rename_i g force requests hr
        exact hw.stopEnds (hw.running ⟨force, requests, hr⟩) force requests how
      · exact hw
  | cancelled =>
      simp only [GenerationSet.step]
      split
      · exact hw.parked (.inl rfl)
      · exact hw

/-- The generation was made, and is neither attached nor being stopped. -/
def Gone (s : GenerationSet) (serial : Nat) : Prop := s.made serial ∧ ¬ s.here serial

/-- A generation that is gone stays gone. -/
theorem Gone.step {s : GenerationSet} (hs : s.Sound) {g : Nat} (h : s.Gone g) (st : Step) :
    (s.step st).Gone g := by
  have hw := within_step hs st
  refine ⟨⟨h.1.1, Nat.lt_of_lt_of_le h.1.2 hw.serial⟩, fun hg => ?_⟩
  rcases hw.only g hg with hg | hg
  · exact h.2 hg
  · exact absurd h.1.2 (Nat.not_lt.mpr hg)

/-! ## Stops -/

/-- A stop begins at this step. -/
def Begins (s : GenerationSet) (st : Step) (serial : Nat) (force : Bool) : Prop :=
  (∃ requests, (s.step st).reconciler = .stopping serial force requests) ∧
    match st with
    | .reconcile => s.reconciler = .ready
    | .stopEnds _ => True
    | _ => False

theorem reattach_current (s : GenerationSet) (g : Nat) (failed retry : Bool) :
    (s.reattach g failed retry).current = s.current := by
  by_cases hm : g ∈ s.retiring
  · rw [reattach_mem hm]
    rfl
  · rw [reattach_eq hm]
    rfl

theorem advance_begins {s : GenerationSet} (h : s.Sound) {g : Nat} {force : Bool} {requests : Nat}
    (hb : s.advance.reconciler = .stopping g force requests) :
    s.current ≠ some g ∧ s.advance.current = s.current ∧
      (force = false → s.advance.unreleased g = 0) ∧
      (force = true → s.advance.forceAll = true ∨
        s.advance.cap < (g :: s.advance.attached).length) := by
  unfold GenerationSet.advance at hb ⊢
  split at hb
  · cases hb
  · rename_i victim kind hv
    obtain ⟨hmem, -, hforce, hgraceful⟩ := nextVictim_mem hv
    have hcurrent : s.current ≠ some victim := fun hc => h.apart victim hc hmem
    have hlength : (s.retiring.erase victim).length + 1 = s.retiring.length :=
      List.length_erase_add_one hmem
    have hdetached : (victim :: (s.detach victim).attached).length = s.attached.length := by
      simp only [GenerationSet.attached, GenerationSet.detach, GenerationSet.update, hcurrent,
        if_false, List.length_cons, List.length_append]
      omega
    cases hb
    have hnone : (s.detach g).current = s.current := if_neg hcurrent
    cases force with
    | true =>
        refine ⟨hcurrent, hnone, fun hf => (by cases hf), fun _ => ?_⟩
        rcases hforce rfl with hall | hcap
        · exact .inl hall
        · exact .inr (hdetached ▸ hcap)
    | false =>
        refine ⟨hcurrent, hnone, fun _ => ?_, fun hf => (by cases hf)⟩
        exact (h.counts g).symm.trans (hgraceful rfl)

theorem stopEnds_begins {s : GenerationSet} (h : s.Sound) {g victim : Nat} {force kind : Bool}
    {requests n : Nat} (hr : s.reconciler = .stopping g force requests) {how : StopEnd}
    (hb : (s.stopEnds g force requests how).reconciler = .stopping victim kind n) :
    ∃ t : GenerationSet, t.Sound ∧ t.current = s.current ∧ t.advance.reconciler = .stopping victim kind n ∧
      s.stopEnds g force requests how = t.advance := by
  have hagain : ∀ failed : Bool, (force = true → failed = true) →
      s.stopEnds g force requests how =
        (s.reattach g failed (s.retryRequests ≠ requests)).advance →
      ∃ t : GenerationSet, t.Sound ∧ t.current = s.current ∧
        t.advance.reconciler = .stopping victim kind n ∧
        s.stopEnds g force requests how = t.advance := by
    intro failed hf heq
    have hsound := h.reattach hr hf (fun hne => of_decide_eq_true hne) .ready (.inr rfl)
    refine ⟨_, hsound, reattach_current s g _ _, ?_, ?_⟩
    · rw [advance_reconciler, ← heq, hb]
    · rw [advance_reconciler, heq]
  cases how with
  | returned stopped =>
      cases stopped with
      | true => exact ⟨s, h, rfl, hb, rfl⟩
      | false => exact hagain force (fun hf => hf) rfl
  | raised => exact hagain true (fun _ => rfl) rfl
  | cancelled => cases hb

/-- What holds when a stop begins: a graceful one finds the generation drained, and a forced one
finds more generations than the cap admits, the victim counted, or a forced `stop_all`. -/
theorem begins_step {s : GenerationSet} (h : s.Sound) {st : Step} {g : Nat} {force : Bool}
    (hb : s.Begins st g force) :
    s.current ≠ some g ∧ (s.step st).current ≠ some g ∧
      (force = false → (s.step st).unreleased g = 0) ∧
      (force = true → (s.step st).forceAll = true ∨
        (s.step st).cap < (g :: (s.step st).attached).length) := by
  obtain ⟨⟨requests, hr⟩, hst⟩ := hb
  cases st with
  | reconcile =>
      have hready : s.reconciler = .ready := hst
      have hclear : Sound { s with triedForced := [], triedGraceful := [] } := h.untried
      simp only [GenerationSet.step, if_pos hready] at hr ⊢
      obtain ⟨hcurrent, hkeep, hgraceful, hforce⟩ := advance_begins hclear hr
      exact ⟨hcurrent, fun hc => hcurrent (hkeep ▸ hc), hgraceful, hforce⟩
  | stopEnds how =>
      simp only [GenerationSet.step] at hr ⊢
      split at hr
      · rename_i victim kind n hs
        obtain ⟨t, ht, hcurrent, hr', heq⟩ := stopEnds_begins h hs hr
        simp only [heq]
        obtain ⟨hne, hkeep, hgraceful, hforce⟩ := advance_begins ht hr'
        exact ⟨hcurrent ▸ hne, fun hc => hne (hkeep ▸ hc), hgraceful, hforce⟩
      · rename_i hno
        exact absurd hr (hno g force requests)
  | _ => exact absurd hst id

/-! ## Bindings -/

@[simp] theorem kick_bindings (s : GenerationSet) : s.kick.bindings = s.bindings := by
  unfold GenerationSet.kick
  split <;> rfl

@[simp] theorem update_bindings (s : GenerationSet) (g : Nat) (f : Generation → Generation) :
    (s.update g f).bindings = s.bindings := rfl

@[simp] theorem addRetiring_bindings (s : GenerationSet) (g : Nat) :
    (s.addRetiring g).bindings = s.bindings := rfl

@[simp] theorem installCurrent_bindings (s : GenerationSet) (g : Nat) :
    (s.installCurrent g).bindings = s.bindings := by
  unfold GenerationSet.installCurrent
  split
  · split <;> simp
  · simp

@[simp] theorem retire_bindings (s : GenerationSet) (g : Nat) :
    (s.retire g).bindings = s.bindings := by
  unfold GenerationSet.retire
  split
  · rfl
  · dsimp only
    split <;> split <;> simp

@[simp] theorem stopAll_bindings (s : GenerationSet) (force : Bool) :
    (s.stopAll force).bindings = s.bindings := by
  unfold GenerationSet.stopAll
  simp only [kick_bindings, requestRetry]
  split <;> rfl

@[simp] theorem advance_bindings (s : GenerationSet) : s.advance.bindings = s.bindings := by
  unfold GenerationSet.advance
  split
  · rfl
  · rename_i g force _
    cases force <;> rfl

@[simp] theorem reattach_bindings (s : GenerationSet) (g : Nat) (failed retry : Bool) :
    (s.reattach g failed retry).bindings = s.bindings := by
  by_cases hm : g ∈ s.retiring
  · rw [reattach_mem hm]
    rfl
  · rw [reattach_eq hm]
    rfl

@[simp] theorem stopEnds_bindings (s : GenerationSet) (g : Nat) (force : Bool) (requests : Nat)
    (how : StopEnd) : (s.stopEnds g force requests how).bindings = s.bindings := by
  cases how with
  | returned stopped => cases stopped <;> simp [GenerationSet.stopEnds]
  | raised => simp [GenerationSet.stopEnds]
  | cancelled => exact reattach_bindings s g true false

theorem release_bindings_length (s : GenerationSet) (index : Nat) :
    (s.release index).bindings.length = s.bindings.length := by
  unfold GenerationSet.release
  split
  · rfl
  · split
    · rfl
    · dsimp only
      split <;> simp

theorem bindServing_binds {s s' : GenerationSet} {digest : Digest}
    (hs : s.bindServing digest = some s') :
    ∃ g ∈ s.attached, s'.bindings = s.bindings ++ [⟨g, false⟩] ∧ s'.current = some g := by
  unfold GenerationSet.bindServing at hs
  split at hs
  · rename_i current hc
    have hcurrent := (Option.filter_eq_some_iff.mp hc).1
    cases hs
    exact ⟨current, mem_attached.mpr (.inr hcurrent), rfl, hcurrent⟩
  · split at hs
    · cases hs
    · rename_i g hg
      have hmem : g ∈ s.retiring := List.mem_reverse.mp (List.mem_of_find?_eq_some hg)
      cases hs
      refine ⟨g, mem_attached.mpr (.inl hmem), ?_, installCurrent_current _ g⟩
      simp [GenerationSet.makeBinding]

/-- A step that adds a binding adds it to an attached generation, which was attached before or is
new; through `acquire` it is the current one. -/
theorem bindings_step {s : GenerationSet} (h : s.Sound) {st : Step} {b : Binding}
    (hb : (s.step st).bindings = s.bindings ++ [b]) :
    b.released = false ∧ (b.generation ∈ s.attached ∨ ¬ s.made b.generation) ∧
      b.generation ∈ (s.step st).attached ∧
      ((∀ serial, st ≠ .bind serial) → (s.step st).current = some b.generation) := by
  have hsame : ∀ l : List Binding, l.length = s.bindings.length → l ≠ s.bindings ++ [b] := by
    intro l hl hlb
    have := congrArg List.length hlb
    simp at this
    omega
  have hserve : ∀ {t t' : GenerationSet} {digest}, t.bindServing digest = some t' →
      t.attached = s.attached → t.bindings = s.bindings → t'.bindings = s.bindings ++ [b] →
      b.released = false ∧ (b.generation ∈ s.attached ∨ ¬ s.made b.generation) ∧
        b.generation ∈ t'.attached ∧ t'.current = some b.generation := by
    intro t t' digest ht ha hbt hb'
    obtain ⟨g, hg, hbind, hcurrent⟩ := bindServing_binds ht
    rw [hbind, hbt, List.append_cancel_left_eq, List.singleton_inj] at hb'
    subst hb'
    exact ⟨rfl, .inl (ha ▸ hg), mem_attached.mpr (.inr hcurrent), hcurrent⟩
  cases st with
  | acquire digest =>
      simp only [GenerationSet.step] at hb ⊢
      split at hb
      · exact absurd hb (hsame _ rfl)
      · cases hs : s.bindServing digest with
        | none =>
            rw [hs] at hb
            exact absurd hb (hsame _ rfl)
        | some s' =>
            rw [hs] at hb
            rename_i hstopping
            obtain ⟨hr, ha, ha', hc⟩ := hserve hs rfl rfl hb
            simp only [if_neg hstopping]
            exact ⟨hr, ha, ha', fun _ => hc⟩
  | locked index =>
      generalize hstep : s.step (.locked index) = s' at hb ⊢
      simp only [GenerationSet.step] at hstep
      split at hstep
      · rename_i digest _ _
        split at hstep
        · subst hstep
          exact absurd hb (hsame _ rfl)
        · cases hs : GenerationSet.bindServing { s with waiting := s.waiting.eraseIdx index } digest with
          | none =>
              rw [hs] at hstep
              subst hstep
              exact absurd hb (hsame _ rfl)
          | some t =>
              rw [hs] at hstep
              subst hstep
              obtain ⟨hr, ha, ha', hc⟩ := hserve hs rfl rfl hb
              exact ⟨hr, ha, ha', fun _ => hc⟩
      · subst hstep
        exact absurd hb (hsame _ rfl)
  | started =>
      simp only [GenerationSet.step] at hb ⊢
      split at hb
      · rename_i digest hstart
        unfold GenerationSet.started at hb ⊢
        dsimp only at hb ⊢
        split at hb
        · exact absurd hb (hsame _ (by simp [GenerationSet.create]))
        · rename_i hstopping
          simp only [if_neg hstopping]
          simp only [GenerationSet.makeBinding, installCurrent_bindings, GenerationSet.create,
            List.append_cancel_left_eq, List.singleton_inj] at hb
          subst hb
          have hc := installCurrent_current
            (GenerationSet.create { s with starting := none } (.new digest)) s.nextSerial
          refine ⟨rfl, .inr fun hm => Nat.lt_irrefl _ hm.2, ?_, fun _ => hc⟩
          exact mem_attached.mpr (.inr hc)
      · exact absurd hb (hsame _ rfl)
  | bind g =>
      simp only [GenerationSet.step] at hb ⊢
      split at hb
      · exact absurd hb (hsame _ rfl)
      · rename_i hno
        rw [if_neg hno]
        simp only [GenerationSet.makeBinding, List.append_cancel_left_eq,
          List.singleton_inj] at hb
        subst hb
        simp only [not_or, Decidable.not_not] at hno
        have hg : g ∈ s.attached := (h.live g hno.2.1).mp (by simpa using hno.2.2)
        exact ⟨rfl, .inl hg, hg, fun hne => absurd rfl (hne g)⟩
  | release index => exact absurd hb (hsame _ (release_bindings_length s index))
  | adopt digest current =>
      refine absurd hb (hsame _ ?_)
      simp only [GenerationSet.step, GenerationSet.adopt]
      split
      · rfl
      · split <;> simp [GenerationSet.create]
  | abandoned index => exact absurd hb (hsame _ rfl)
  | startFailed => exact absurd hb (hsame _ rfl)
  | retire g =>
      refine absurd hb (hsame _ ?_)
      simp only [GenerationSet.step]
      split <;> simp
  | retireCurrent =>
      refine absurd hb (hsame _ ?_)
      simp only [GenerationSet.step]
      split <;> simp
  | discard g =>
      refine absurd hb (hsame _ ?_)
      simp only [GenerationSet.step]
      split <;> rfl
  | reap => exact absurd hb (hsame _ (by simp [GenerationSet.step, requestRetry]))
  | stopAll force => exact absurd hb (hsame _ (by simp [GenerationSet.step]))
  | reconcile =>
      refine absurd hb (hsame _ ?_)
      simp only [GenerationSet.step]
      split <;> simp
  | stopEnds how =>
      refine absurd hb (hsame _ ?_)
      simp only [GenerationSet.step]
      split <;> simp
  | cancelled =>
      refine absurd hb (hsame _ ?_)
      simp only [GenerationSet.step]
      split <;> rfl

end GenerationSet

end Avibe.Runtime
