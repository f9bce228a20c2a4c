import Avibe.Runtime.GenerationRuns

/-!
# The life of the generations of a unit

The cap when the reconciler has nothing to do, and the whole contract of a set of
generations over any run of its calls, its starts and its stops.
-/

namespace Avibe.Runtime

open SortOn Machine

namespace GenerationSet

/-! ## The cap -/

/-- A reconciler that returned left the set within its cap, or with only failed generations to
stop. -/
def Capped (s : GenerationSet) : Prop :=
  s.stopping = false → s.reconciler = .none ∨ s.reconciler = .done →
    s.attached.length ≤ s.cap ∨ ∀ g ∈ s.retiring, (s.generations g).failed = true

theorem capped_of_not_idle {s : GenerationSet} (h : s.reconciler.idle = false) : s.Capped := by
  rintro - (hr | hr) <;> rw [hr] at h <;> cases h

theorem capped_kick (s : GenerationSet) : s.kick.Capped := by
  apply capped_of_not_idle
  unfold GenerationSet.kick
  split
  · rfl
  · rename_i hidle
    exact Bool.eq_false_iff.mpr hidle

theorem capped_installCurrent (s : GenerationSet) (g : Nat) : (s.installCurrent g).Capped := by
  unfold GenerationSet.installCurrent
  split
  · split <;> exact capped_kick _
  · exact capped_kick _

/-- The generations changed in fields that the cap does not read. -/
theorem Capped.same {s s' : GenerationSet} (h : s.Capped) (hs : s'.stopping = s.stopping)
    (hr : s'.reconciler = s.reconciler) (hc : s'.cap = s.cap) (ha : s'.current = s.current)
    (hl : s'.retiring = s.retiring)
    (hf : ∀ g ∈ s.retiring, (s'.generations g).failed = (s.generations g).failed) : s'.Capped := by
  intro hstop hidle
  rcases h (hs ▸ hstop) (hr ▸ hidle) with h | h
  · left
    rwa [GenerationSet.attached, hl, ha, hc]
  · right
    intro g hg
    rw [hl] at hg
    exact (hf g hg).trans (h g hg)

theorem Capped.makeBinding {s : GenerationSet} (h : s.Capped) (g : Nat) :
    (s.makeBinding g).Capped := by
  refine h.same rfl rfl rfl rfl rfl fun x _ => ?_
  simp only [GenerationSet.makeBinding, GenerationSet.update]
  split <;> rfl

/-- Once the new binding is made. -/
theorem capped_installed (s : GenerationSet) (g : Nat) :
    ((s.installCurrent g).makeBinding g).Capped :=
  (capped_installCurrent s g).makeBinding g

theorem Capped.bindServing {s s' : GenerationSet} (h : s.Capped) {digest : Digest}
    (hs : s.bindServing digest = some s') : s'.Capped := by
  unfold GenerationSet.bindServing at hs
  split at hs
  · cases hs
    exact h.makeBinding _
  · split at hs
    · cases hs
    · cases hs
      exact capped_installed _ _

theorem Capped.release {s : GenerationSet} (h : s.Capped) (index : Nat) :
    (s.release index).Capped := by
  unfold GenerationSet.release
  split
  · exact h
  · split
    · exact h
    · dsimp only
      split
      · exact capped_kick _
      · refine h.same rfl rfl rfl rfl rfl fun g _ => ?_
        simp only [GenerationSet.update]
        split <;> rfl

theorem Capped.retire {s : GenerationSet} (h : s.Capped) (g : Nat) : (s.retire g).Capped := by
  unfold GenerationSet.retire
  split
  · exact h
  · exact capped_kick _

theorem Capped.detach {s : GenerationSet} (h : s.Capped) (g : Nat) : (s.detach g).Capped := by
  intro hstop hidle
  rcases h hstop hidle with h | h
  · left
    refine Nat.le_trans ?_ h
    have hlist : (s.retiring.erase g).length ≤ s.retiring.length := List.length_erase_le
    simp only [GenerationSet.attached, GenerationSet.detach, List.length_append]
    split
    · simp only [Option.toList_none, List.length_nil]
      omega
    · exact Nat.add_le_add_right hlist _
  · right
    intro x hx
    have := h x (List.mem_of_mem_erase hx)
    simp only [GenerationSet.detach, GenerationSet.update]
    split <;> exact this

theorem capped_advance {s : GenerationSet} (h : s.Sound) : s.advance.Capped := by
  unfold GenerationSet.advance
  split
  · rename_i hv
    intro hstop _
    rcases nextVictim_none hv hstop with hcap | hall
    · exact .inl hcap
    · refine .inr fun g hg => ?_
      exact ((h.tried g (hall g hg)).2 (mem_attached.mpr (.inl hg))).2
  · exact capped_of_not_idle rfl

theorem capped_stopEnds {s : GenerationSet} (h : s.Sound) {g : Nat} {force : Bool} {requests : Nat}
    (hr : s.reconciler = .stopping g force requests) (how : StopEnd) :
    (s.stopEnds g force requests how).Capped := by
  have hagain : ∀ failed : Bool, (force = true → failed = true) →
      (s.reattach g failed (s.retryRequests ≠ requests)).advance.Capped := by
    intro failed hf
    have hsound := h.reattach hr hf (fun hne => of_decide_eq_true hne) .ready (.inr rfl)
    have hadvance := capped_advance hsound
    rwa [advance_reconciler] at hadvance
  cases how with
  | returned stopped =>
      cases stopped with
      | true => exact capped_advance h
      | false => exact hagain force fun hf => hf
  | raised => exact hagain true fun _ => rfl
  | cancelled =>
      rintro - (hidle | hidle) <;> cases hidle

/-- Every step leaves the set within its cap, unless a pass is due. -/
theorem Capped.step {s : GenerationSet} (hs : s.Sound) (h : s.Capped) (st : Step) :
    (s.step st).Capped := by
  cases st with
  | acquire digest =>
      simp only [GenerationSet.step]
      split
      · exact h
      · cases hb : s.bindServing digest with
        | none => exact h.same rfl rfl rfl rfl rfl fun _ _ => rfl
        | some s' => exact h.bindServing hb
  | locked index =>
      simp only [GenerationSet.step]
      split
      · rename_i digest _ _
        have h' : Capped { s with waiting := s.waiting.eraseIdx index } :=
          h.same rfl rfl rfl rfl rfl fun _ _ => rfl
        split
        · exact h'
        · cases hb : GenerationSet.bindServing { s with waiting := s.waiting.eraseIdx index } digest with
          | none => exact h.same rfl rfl rfl rfl rfl fun _ _ => rfl
          | some s' => exact h'.bindServing hb
      · exact h
  | abandoned index => exact h.same rfl rfl rfl rfl rfl fun _ _ => rfl
  | started =>
      simp only [GenerationSet.step]
      split
      · unfold GenerationSet.started
        dsimp only
        split
        · exact capped_kick _
        · exact capped_installed _ _
      · exact h
  | startFailed => exact h.same rfl rfl rfl rfl rfl fun _ _ => rfl
  | bind g =>
      simp only [GenerationSet.step]
      split
      · exact h
      · exact h.makeBinding g
  | release index => exact h.release index
  | adopt digest current =>
      simp only [GenerationSet.step]
      split
      · exact h
      · unfold GenerationSet.adopt
        dsimp only
        split
        · exact capped_installCurrent _ _
        · exact capped_kick _
  | retire g =>
      simp only [GenerationSet.step]
      split
      · exact h.retire g
      · exact h
  | retireCurrent =>
      simp only [GenerationSet.step]
      split
      · exact h.retire _
      · exact h
  | discard g =>
      simp only [GenerationSet.step]
      split
      · exact h.detach g
      · exact h
  | reap => exact capped_kick _
  | stopAll force => exact capped_kick _
  | reconcile =>
      simp only [GenerationSet.step]
      split
      · exact capped_advance hs.untried
      · exact h
  | stopEnds how =>
      simp only [GenerationSet.step]
      split
      · rename_i g force requests hr
        exact capped_stopEnds hs hr how
      · exact h
  | cancelled =>
      simp only [GenerationSet.step]
      split
      · rintro - (hidle | hidle) <;> cases hidle
      · exact h

/-! ## The cap and the forced stop of everything -/

/-- What only `stop_all` changes. -/
def settings (s : GenerationSet) : Nat × Bool := (s.cap, s.forceAll)

@[simp] theorem kick_settings (s : GenerationSet) : s.kick.settings = s.settings := by
  unfold GenerationSet.kick
  split <;> rfl

@[simp] theorem update_settings (s : GenerationSet) (g : Nat) (f : Generation → Generation) :
    (s.update g f).settings = s.settings := rfl

@[simp] theorem addRetiring_settings (s : GenerationSet) (g : Nat) :
    (s.addRetiring g).settings = s.settings := rfl

@[simp] theorem makeBinding_settings (s : GenerationSet) (g : Nat) :
    (s.makeBinding g).settings = s.settings := rfl

@[simp] theorem create_settings (s : GenerationSet) (g : Generation) :
    (s.create g).settings = s.settings := rfl

@[simp] theorem requestRetry_settings (s : GenerationSet) :
    s.requestRetry.settings = s.settings := rfl

@[simp] theorem installCurrent_settings (s : GenerationSet) (g : Nat) :
    (s.installCurrent g).settings = s.settings := by
  unfold GenerationSet.installCurrent
  split
  · split
    · rw [kick_settings]
      rfl
    · rw [kick_settings]
      rfl
  · rw [kick_settings]
    rfl

@[simp] theorem retire_settings (s : GenerationSet) (g : Nat) :
    (s.retire g).settings = s.settings := by
  unfold GenerationSet.retire
  split
  · rfl
  · rw [kick_settings]
    split <;> split <;> rfl

theorem bindServing_settings {s s' : GenerationSet} {digest : Digest}
    (hs : s.bindServing digest = some s') : s'.settings = s.settings := by
  unfold GenerationSet.bindServing at hs
  split at hs
  · cases hs
    rfl
  · split at hs
    · cases hs
    · cases hs
      rw [makeBinding_settings, installCurrent_settings]
      rfl

@[simp] theorem release_settings (s : GenerationSet) (index : Nat) :
    (s.release index).settings = s.settings := by
  unfold GenerationSet.release
  split
  · rfl
  · split
    · rfl
    · dsimp only
      split
      · rw [kick_settings]
        rfl
      · rfl

theorem stopAll_settings (s : GenerationSet) (force : Bool) :
    (s.stopAll force).settings = (s.cap, s.forceAll || force) := by
  unfold GenerationSet.stopAll
  rw [kick_settings, requestRetry_settings]
  dsimp only
  split <;> rfl

@[simp] theorem advance_settings (s : GenerationSet) : s.advance.settings = s.settings := by
  unfold GenerationSet.advance
  split
  · rfl
  · rename_i g force _
    cases force <;> rfl

@[simp] theorem reattach_settings (s : GenerationSet) (g : Nat) (failed retry : Bool) :
    (s.reattach g failed retry).settings = s.settings := by
  by_cases hm : g ∈ s.retiring
  · rw [reattach_mem hm]
    rfl
  · rw [reattach_eq hm]
    rfl

@[simp] theorem stopEnds_settings (s : GenerationSet) (g : Nat) (force : Bool) (requests : Nat)
    (how : StopEnd) : (s.stopEnds g force requests how).settings = s.settings := by
  cases how with
  | returned stopped => cases stopped <;> simp [GenerationSet.stopEnds]
  | raised => simp [GenerationSet.stopEnds]
  | cancelled => exact reattach_settings s g true false

theorem settings_step (s : GenerationSet) (st : Step) :
    (s.step st).settings = s.settings ∨ st = .stopAll true ∧ (s.step st).cap = s.cap := by
  cases st with
  | acquire digest =>
      left
      simp only [GenerationSet.step]
      split
      · rfl
      · cases hb : s.bindServing digest with
        | none => rfl
        | some s' => exact bindServing_settings hb
  | locked index =>
      left
      simp only [GenerationSet.step]
      split
      · rename_i digest _ _
        split
        · rfl
        · cases hb : GenerationSet.bindServing { s with waiting := s.waiting.eraseIdx index } digest with
          | none => rfl
          | some s' =>
              have hset := bindServing_settings hb
              exact hset
      · rfl
  | started =>
      left
      simp only [GenerationSet.step]
      split
      · unfold GenerationSet.started
        dsimp only
        split
        · rw [kick_settings]
          rfl
        · rw [makeBinding_settings, installCurrent_settings]
          rfl
      · rfl
  | adopt digest current =>
      left
      simp only [GenerationSet.step, GenerationSet.adopt]
      split
      · rfl
      · split <;> simp
  | stopAll force =>
      have hset := stopAll_settings s force
      cases force with
      | true => exact .inr ⟨rfl, congrArg Prod.fst hset⟩
      | false =>
          left
          simpa [settings, GenerationSet.step] using hset
  | abandoned index => exact .inl rfl
  | startFailed => exact .inl rfl
  | release index => exact .inl (release_settings s index)
  | retireCurrent =>
      left
      simp only [GenerationSet.step]
      split <;> simp
  | reap => exact .inl (kick_settings _)
  | reconcile =>
      left
      simp only [GenerationSet.step]
      split
      · rw [advance_settings]
        rfl
      · rfl
  | _ =>
      left
      simp only [GenerationSet.step]
      split <;> first | rfl | simp

/-! ## Cancellation -/

/-- The last reconciler was not cancelled. -/
def Intact (s : GenerationSet) : Prop := s.reconciler ≠ .cancelled

section Intact

variable {s : GenerationSet}

theorem Intact.kick (h : s.Intact) : s.kick.Intact := by
  unfold GenerationSet.kick
  split
  · exact fun hr => Reconciler.noConfusion hr
  · exact h

theorem Intact.installCurrent (h : s.Intact) (g : Nat) : (s.installCurrent g).Intact := by
  unfold GenerationSet.installCurrent
  split
  · split <;> exact Intact.kick h
  · exact Intact.kick h

theorem Intact.retire (h : s.Intact) (g : Nat) : (s.retire g).Intact := by
  unfold GenerationSet.retire
  split
  · exact h
  · apply Intact.kick
    split <;> split <;> exact h

theorem Intact.bindServing (h : s.Intact) {s' : GenerationSet} {digest : Digest}
    (hs : s.bindServing digest = some s') : s'.Intact := by
  unfold GenerationSet.bindServing at hs
  split at hs
  · cases hs
    exact h
  · split at hs
    · cases hs
    · cases hs
      exact Intact.installCurrent (s := s.reopened _) h _

theorem Intact.release (h : s.Intact) (index : Nat) : (s.release index).Intact := by
  unfold GenerationSet.release
  split
  · exact h
  · split
    · exact h
    · dsimp only
      split
      · exact Intact.kick h
      · exact h

theorem Intact.stopAll (h : s.Intact) (force : Bool) : (s.stopAll force).Intact := by
  unfold GenerationSet.stopAll
  apply Intact.kick
  dsimp only
  split <;> exact h

theorem intact_advance (s : GenerationSet) : s.advance.Intact := by
  unfold GenerationSet.advance
  split <;> exact fun hr => Reconciler.noConfusion hr

theorem intact_stopEnds (s : GenerationSet) (g : Nat) (force : Bool) (requests : Nat)
    {how : StopEnd} (hhow : how ≠ .cancelled) : (s.stopEnds g force requests how).Intact := by
  cases how with
  | returned stopped => cases stopped <;> exact intact_advance _
  | raised => exact intact_advance _
  | cancelled => exact absurd rfl hhow

theorem Intact.step (h : s.Intact) {st : Step} (hc : st ≠ .cancelled)
    (he : st ≠ .stopEnds .cancelled) : (s.step st).Intact := by
  cases st with
  | acquire digest =>
      simp only [GenerationSet.step]
      split
      · exact h
      · cases hb : s.bindServing digest with
        | none => exact h
        | some s' => exact h.bindServing hb
  | locked index =>
      simp only [GenerationSet.step]
      split
      · rename_i digest _ _
        have h' : Intact { s with waiting := s.waiting.eraseIdx index } := h
        split
        · exact h
        · cases hb : GenerationSet.bindServing { s with waiting := s.waiting.eraseIdx index } digest with
          | none => exact h
          | some s' => exact h'.bindServing hb
      · exact h
  | started =>
      simp only [GenerationSet.step]
      split
      · rename_i digest _
        unfold GenerationSet.started
        dsimp only
        split
        · exact Intact.kick h
        · have h' : Intact (GenerationSet.create { s with starting := none } (.new digest)) := h
          exact h'.installCurrent s.nextSerial
      · exact h
  | adopt digest current =>
      simp only [GenerationSet.step, GenerationSet.adopt]
      split
      · exact h
      · split
        · exact Intact.installCurrent (s := GenerationSet.create _ _) h _
        · exact Intact.kick h
  | abandoned index => exact h
  | startFailed => exact h
  | bind g =>
      simp only [GenerationSet.step]
      split <;> exact h
  | release index => exact h.release index
  | retire g =>
      simp only [GenerationSet.step]
      split
      · exact h.retire g
      · exact h
  | retireCurrent =>
      simp only [GenerationSet.step]
      split
      · exact h.retire _
      · exact h
  | discard g =>
      simp only [GenerationSet.step]
      split <;> exact h
  | reap => exact Intact.kick h
  | stopAll force => exact h.stopAll force
  | reconcile =>
      simp only [GenerationSet.step]
      split
      · exact intact_advance _
      · exact h
  | stopEnds how =>
      simp only [GenerationSet.step]
      split
      · exact intact_stopEnds _ _ _ _ fun hhow => he (congrArg Step.stopEnds hhow)
      · exact h
  | cancelled => exact absurd rfl hc

end Intact

/-! ## Gone for good -/

theorem Gone.advance {s : GenerationSet} {g : Nat} (h : s.Gone g) : s.advance.Gone g := by
  have hw := (within_here s).advance
  refine ⟨⟨h.1.1, Nat.lt_of_lt_of_le h.1.2 hw.serial⟩, fun hg => ?_⟩
  rcases hw.only g hg with hg | hg
  · exact h.2 hg
  · exact absurd h.1.2 (Nat.not_lt.mpr hg)

/-- A generation whose stop ended its process is gone. -/
theorem gone_stopped {s : GenerationSet} (h : s.Sound) {g : Nat} {force : Bool} {requests : Nat}
    (hr : s.reconciler = .stopping g force requests) : s.advance.Gone g := by
  have hrun := h.running g force requests hr
  have hgone : Gone { s with reconciler := .ready } g := by
    refine ⟨hrun.1, ?_⟩
    rintro (hg | ⟨_, _, hg⟩)
    · exact hrun.2.1 hg
    · cases hg
  have hadvance := hgone.advance
  rwa [advance_reconciler] at hadvance

/-- A generation that is discarded while its stop does not run is gone. -/
theorem gone_discarded {s : GenerationSet} (h : s.Sound) {g : Nat} (hg : s.made g)
    (hr : ¬ s.stopRuns g) : (s.detach g).Gone g := by
  refine ⟨hg, ?_⟩
  rintro (ha | hr')
  · have hne := @mem_erase s.retiring g g h.increasing
    rcases mem_attached.mp ha with hm | hc
    · exact (hne.mp hm).1 rfl
    · simp only [GenerationSet.detach] at hc
      split at hc
      · cases hc
      · rename_i hcurrent
        exact hcurrent hc
  · exact hr hr'

end GenerationSet

/-! ## The contract over whole runs -/

/-- A set of generations, with the stops that ended a process and the generations that were
discarded. -/
structure World where
  set : GenerationSet
  ended : List Nat
  discarded : List Nat

namespace World

open GenerationSet

def new (cap : Nat) : World := ⟨.new cap, [], []⟩

def step (w : World) (st : Step) : World where
  set := w.set.step st
  ended :=
    match st, w.set.reconciler with
    | .stopEnds (.returned true), .stopping serial _ _ => serial :: w.ended
    | _, _ => w.ended
  discarded :=
    match st with
    | .discard serial => if w.set.made serial then serial :: w.discarded else w.discarded
    | _ => w.discarded

/-- The world after a run. -/
def run (cap : Nat) (steps : List Step) : World := after step (new cap) steps

structure Kept (cap : Nat) (w : World) : Prop where
  sound : w.set.Sound
  serial : 0 < w.set.nextSerial
  ended : ∀ g ∈ w.ended, w.set.Gone g
  capped : w.set.Capped
  cap : w.set.cap = cap

theorem kept_new (cap : Nat) : Kept cap (new cap) where
  sound := sound_new cap
  serial := Nat.one_pos
  ended := by simp [new]
  capped := fun _ _ => .inl (Nat.zero_le _)
  cap := rfl

theorem Kept.step {cap : Nat} {w : World} (h : Kept cap w) (st : Step) : Kept cap (w.step st) where
  sound := h.sound.step h.serial st
  serial := Nat.lt_of_lt_of_le h.serial (within_step h.sound st).serial
  ended := by
    intro g hg
    simp only [World.step] at hg ⊢
    split at hg
    · rename_i serial force requests hr
      rcases List.mem_cons.mp hg with rfl | hg
      · simp only [GenerationSet.step, hr]
        exact gone_stopped h.sound hr
      · exact (h.ended g hg).step h.sound _
    · exact (h.ended g hg).step h.sound _
  capped := h.capped.step h.sound st
  cap := by
    rcases settings_step w.set st with hs | hs
    · exact (congrArg Prod.fst hs).trans h.cap
    · exact hs.2.trans h.cap

theorem kept_run (cap : Nat) (steps : List Step) : Kept cap (run cap steps) :=
  after_inv (P := Kept cap) step (fun _ st h => h.step st) (kept_new cap) steps

/-- The contract of the set between two steps, whatever the next step is. -/
structure Lawful (cap : Nat) (w : World) : Prop where
  /-- An attached generation is the current one or one of the retiring ones, once. -/
  once : ∀ g, w.set.made g → (w.set.generations g).stopped = false → w.set.attached.count g = 1
  attached : ∀ g ∈ w.set.attached, w.set.made g ∧ (w.set.generations g).stopped = false
  increasing : w.set.retiring.Pairwise (· < ·)
  apart : ∀ g, w.set.current = some g → g ∉ w.set.retiring ∧ (w.set.generations g).retiring = false
  graceful : ∀ st g, w.set.Begins st g false → w.set.current ≠ some g ∧
    (w.set.step st).current ≠ some g ∧ (w.set.step st).unreleased g = 0
  forced : ∀ st g, w.set.Begins st g true →
    (w.set.step st).forceAll = true ∨ cap < (g :: (w.set.step st).attached).length
  binds : ∀ st b, (w.set.step st).bindings = w.set.bindings ++ [b] →
    ¬ w.set.stopRuns b.generation ∧ ¬ (w.set.step st).stopRuns b.generation ∧
      b.generation ∉ w.ended ∧ ((w.set.step st).generations b.generation).stopped = false ∧
      ((∀ serial, st ≠ .bind serial) →
        ((w.set.step st).generations b.generation).closed = false)
  counted : ∀ g, (w.set.generations g).bindings = w.set.unreleased g
  released : ∀ index b, w.set.bindings[index]? = some b →
    ((w.set.release index).generations b.generation).bindings + (if b.released then 0 else 1) =
      (w.set.generations b.generation).bindings
  ended : ∀ g ∈ w.ended, g ∉ w.set.attached

theorem released_once {s : GenerationSet} (h : s.Sound) {index : Nat} {b : Binding}
    (hb : s.bindings[index]? = some b) :
    ((s.release index).generations b.generation).bindings + (if b.released then 0 else 1) =
      (s.generations b.generation).bindings := by
  cases hr : b.released with
  | true => simp [GenerationSet.release, hb, hr]
  | false =>
      have hpos : 0 < s.unreleased b.generation :=
        List.countP_pos_iff.mpr ⟨b, List.mem_of_getElem? hb, by simp [hr]⟩
      rw [← h.counts] at hpos
      have hdown : ((s.release index).generations b.generation).bindings =
          (s.generations b.generation).bindings - 1 := by
        simp only [GenerationSet.release, hb, hr, Bool.false_eq_true, if_false]
        split
        · simp only [GenerationSet.kick]
          split <;> simp [GenerationSet.update]
        · simp [GenerationSet.update]
      rw [hdown]
      simp only [Bool.false_eq_true, if_false]
      omega

theorem Kept.lawful {cap : Nat} {w : World} (h : Kept cap w) : w.Lawful cap where
  once := by
    intro g hg hlive
    have hmem := (h.sound.live g hg).mp hlive
    have hretiring : w.set.retiring.Nodup := h.sound.increasing.imp Nat.ne_of_lt
    have hnodup : w.set.attached.Nodup := by
      refine List.nodup_append.mpr ⟨hretiring, ?_, ?_⟩
      · cases w.set.current <;> simp
      · rintro a ha b hb rfl
        exact h.sound.apart a (Option.mem_toList.mp hb) ha
    exact List.count_eq_one_of_mem hnodup hmem
  attached := fun g hg =>
    ⟨h.sound.attached g hg, (h.sound.live g (h.sound.attached g hg)).mpr hg⟩
  increasing := h.sound.increasing
  apart := by
    intro g hc
    have hnot := h.sound.apart g hc
    have hmade := h.sound.attached g (mem_attached.mpr (.inr hc))
    refine ⟨hnot, Bool.eq_false_iff.mpr fun hr => hnot ((h.sound.flag g hmade).mp hr)⟩
  graceful := fun st g hb =>
    have hstep := begins_step h.sound hb
    ⟨hstep.1, hstep.2.1, hstep.2.2.1 rfl⟩
  forced := by
    intro st g hb
    have hcap : (w.set.step st).cap = cap := (h.step st).cap
    rcases (begins_step h.sound hb).2.2.2 rfl with hall | hmany
    · exact .inl hall
    · exact .inr (hcap ▸ hmany)
  binds := by
    intro st b hb
    obtain ⟨-, hbefore, hafter, hcurrent⟩ := bindings_step h.sound hb
    have hsound := (h.step st).sound
    have hmade := hsound.attached b.generation hafter
    refine ⟨?_, ?_, ?_, (hsound.live b.generation hmade).mpr hafter, ?_⟩
    · rintro ⟨force, requests, hr⟩
      obtain ⟨hm, hno, -⟩ := h.sound.running b.generation force requests hr
      exact hbefore.elim hno fun hnew => hnew hm
    · rintro ⟨force, requests, hr⟩
      exact (hsound.running b.generation force requests hr).2.1 hafter
    · intro hended
      exact ((h.ended _ hended).step h.sound st).2 (.inl hafter)
    · intro hst
      exact hsound.admits b.generation (hcurrent hst)
  counted := h.sound.counts
  released := fun _ _ hb => released_once h.sound hb
  ended := fun g hg ha => (h.ended g hg).2 (.inl ha)

/-- No step discards a generation whose stop runs. -/
def Apart (w : World) (st : Step) : Prop := ∀ g, st = .discard g → ¬ w.set.stopRuns g

/-- The step cancels no stop and no reconciler. -/
def Uncancelled (st : Step) : Prop := st ≠ .cancelled ∧ st ≠ .stopEnds .cancelled

theorem discarded_step {cap : Nat} {w : World} (h : Kept cap w)
    (hd : ∀ g ∈ w.discarded, w.set.Gone g) {st : Step} (hst : w.Apart st) :
    ∀ g ∈ (w.step st).discarded, (w.step st).set.Gone g := by
  intro g hg
  simp only [World.step] at hg ⊢
  split at hg
  · rename_i serial
    split at hg
    · rename_i hmade
      rcases List.mem_cons.mp hg with rfl | hg
      · simp only [GenerationSet.step, if_pos hmade]
        exact gone_discarded h.sound hmade (hst g rfl)
      · exact (hd g hg).step h.sound _
    · exact (hd g hg).step h.sound _
  · exact (hd g hg).step h.sound _

theorem discarded_run {cap : Nat} {w : World} (h : Kept cap w)
    (hd : ∀ g ∈ w.discarded, w.set.Gone g) {steps : List Step}
    (hsteps : Along step Apart w steps) :
    ∀ g ∈ (after step w steps).discarded, (after step w steps).set.Gone g := by
  induction steps generalizing w with
  | nil => exact hd
  | cons st steps ih => exact ih (h.step st) (discarded_step h hd hsteps.1) hsteps.2

theorem intact_run {w : World} (h : w.set.Intact) {steps : List Step}
    (hsteps : ∀ st ∈ steps, Uncancelled st) : (after step w steps).set.Intact :=
  after_inv_of (P := fun w : World => w.set.Intact) step
    (fun _ _ hst hw => hw.step hst.1 hst.2) h hsteps

/-- Everything is stopped by force only after a forced `stop_all`. -/
theorem forceAll_run {w : World} {steps : List Step} (h : w.set.forceAll = false)
    (hsteps : Step.stopAll true ∉ steps) : (after step w steps).set.forceAll = false := by
  induction steps generalizing w with
  | nil => exact h
  | cons st steps ih =>
      rw [List.mem_cons, not_or] at hsteps
      refine ih ?_ hsteps.2
      rcases settings_step w.set st with hs | hs
      · exact (congrArg Prod.snd hs).trans h
      · exact absurd hs.1.symm hsteps.1

/-- The contract of a set of generations. After any run of calls, starts and stops, with any next
step: the attached generations are listed once, in order, and a current one does not retire; a
graceful stop begins on drained work only, and a forced one only above the cap or once
`stop_all` asked for it; nothing is bound to a generation that stops or stopped, and through
`acquire` to none that is closed; and a binding counts down once. A generation that was discarded
while no stop of it ran stays away, and a reconciler that no cancellation cut short leaves at most
`cap` generations or only failed ones to stop. -/
theorem run_lawful (cap : Nat) (steps : List Step) :
    (run cap steps).Lawful cap ∧
      (∀ st g, (run cap steps).set.Begins st g true →
        .stopAll true ∈ steps ∨ cap < (g :: ((run cap steps).set.step st).attached).length) ∧
      (Along step Apart (new cap) steps →
        ∀ g ∈ (run cap steps).discarded, g ∉ (run cap steps).set.attached) ∧
      ((∀ st ∈ steps, Uncancelled st) → (run cap steps).set.reconciler.idle = true →
        (run cap steps).set.stopping = false →
        (run cap steps).set.attached.length ≤ cap ∨
          ∀ g ∈ (run cap steps).set.retiring, ((run cap steps).set.generations g).failed = true) := by
  have hkept := kept_run cap steps
  refine ⟨hkept.lawful, ?_, ?_, ?_⟩
  · intro st g hb
    rcases hkept.lawful.forced st g hb with hall | hmany
    · left
      by_contra hno
      have hoff : (run cap steps).set.forceAll = false := forceAll_run rfl hno
      rcases settings_step (run cap steps).set st with hs | hs
      · have hsame := congrArg Prod.snd hs
        exact Bool.false_ne_true (hoff.symm.trans (hsame.symm.trans hall))
      · obtain ⟨-, hst⟩ := hb
        rw [hs.1] at hst
        exact hst
    · exact .inr hmany
  · intro halong g hg ha
    exact (discarded_run (kept_new cap) (by simp [new]) halong g hg).2 (.inl ha)
  · intro hsteps hidle hstop
    have hintact : (run cap steps).set.Intact := intact_run (fun hr => Reconciler.noConfusion hr) hsteps
    have hreturned : (run cap steps).set.reconciler = .none ∨
        (run cap steps).set.reconciler = .done := by
      cases hr : (run cap steps).set.reconciler with
      | none => exact .inl rfl
      | done => exact .inr rfl
      | cancelled => exact absurd hr hintact
      | ready => rw [hr] at hidle; cases hidle
      | stopping g force requests => rw [hr] at hidle; cases hidle
    have hcapped := hkept.capped hstop hreturned
    rwa [hkept.cap] at hcapped

/-- A generation discarded in its graceful stop is attached again when the stop declines; and with
the stop at the cap cancelled, four generations stay attached at a cap of two, though one that has
not failed could stop. -/
theorem discarded_reappears :
    (let w := run 2 [.adopt "a" true, .adopt "b" true, .reconcile, .discard 1,
      .stopEnds (.returned false)]
    1 ∈ w.discarded ∧ 1 ∈ w.set.attached) ∧
    (let w := run 2 [.adopt "a" true, .adopt "b" true, .adopt "c" true, .adopt "d" true, .reconcile,
      .stopEnds .cancelled]
    w.set.reconciler.idle = true ∧ w.set.stopping = false ∧ w.set.attached.length = 4 ∧
      2 ∈ w.set.retiring ∧ (w.set.generations 2).failed = false) := by
  decide

end World

end Avibe.Runtime
