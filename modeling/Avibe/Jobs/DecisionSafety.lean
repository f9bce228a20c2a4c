import Avibe.Jobs.Decision

/-!
# Safety of the start decision

A step either leaves `decision` alone or makes it, and only the starting host
makes it `go`, after it has recorded the identity of the wrapper it launched.
What a party knows is a matter of where it stands: `HostKnows`, `ReaderKnows`
and `WrapperKnows` say it. Each party's own steps keep its knowledge, and the
others' steps do too, because a decision never changes.
-/

namespace Avibe.Jobs

open Machine

/-- The identity of the launched wrapper is on record. -/
def Recorded (d : Disk) (w : Option Wrapper) : Prop :=
  ∃ identity w', d.record = some (some identity) ∧ w = some w' ∧ w'.pid = identity.pid

/-- The step leaves the decision alone, or makes it; it makes it `go` only when
`p` holds. -/
def Decides (p : Prop) (d d' : Disk) : Prop :=
  d'.decision = d.decision ∨
    d.decision = none ∧ (d'.decision = some .abandon ∨ d'.decision = some .go ∧ p)

theorem Decides.keeps {p : Prop} {d d' : Disk} (h : Decides p d d') {x : Decision}
    (hx : d.decision = some x) : d'.decision = some x := by
  rcases h with h | ⟨hnone, -⟩
  · rw [h, hx]
  · simp [hnone] at hx

theorem Decides.ne_none {p : Prop} {d d' : Disk} (h : Decides p d d')
    (hx : d.decision ≠ none) : d'.decision ≠ none := by
  obtain ⟨x, hx⟩ := Option.ne_none_iff_exists'.mp hx
  simp [h.keeps hx]

/-! ## The starting host -/

/-- What holds where the starting host stands. -/
def HostKnows (h : Host) (d : Disk) (w : Option Wrapper) : Prop :=
  match h with
  | .idle => w = none
  | .made => w = none
  | .awaitPid pid => ∃ w', w = some w' ∧ w'.pid = pid
  | .recording identity => ∃ w', w = some w' ∧ w'.pid = identity.pid
  | .creating value purpose =>
      (value = .go → Recorded d w) ∧ (purpose = .launchFailed → w = none)
  | .readingBack _ purpose => d.decision ≠ none ∧ (purpose = .launchFailed → w = none)
  | .returned decision => d.decision = some decision
  | .launchFailed => w = none
  | .cancelled => True
  | .crashed => True

theorem hostKnows_done {purpose : Purpose} {decision : Decision} {d : Disk}
    {w : Option Wrapper} (hd : d.decision = some decision)
    (hw : purpose = .launchFailed → w = none) :
    HostKnows (purpose.done decision) d w := by
  cases purpose with
  | decide => exact hd
  | launchFailed => exact hw rfl
  | cancel => trivial

theorem hostKnows_recordAndDecide {identity : Option Identity} {d : Disk}
    {w : Option Wrapper} (h : ∀ i ∈ identity, ∃ w', w = some w' ∧ w'.pid = i.pid) :
    HostKnows (recordAndDecide identity) d w := by
  cases identity with
  | none => exact ⟨by simp, by simp⟩
  | some i => exact h i rfl

theorem awaitedIdentity_pid {pid text : Nat} {heads : Option Bool} {captured : Option Nat}
    {i : Identity} (h : awaitedIdentity pid text heads captured = some i) : i.pid = pid := by
  unfold awaitedIdentity at h
  split at h
  · simp at h
  · split at h
    · simp at h
    · obtain ⟨t, -, rfl⟩ := Option.map_eq_some_iff.mp h
      rfl

theorem hostStep_knows {h h' : Host} {d d' : Disk} {w : Option Wrapper} {a : HostAction}
    (hk : HostKnows h d w) (hs : hostStep h d a = some (h', d')) :
    HostKnows h' d' (launched w a) ∧ Decides (Recorded d w) d d' := by
  cases a with
  | makeJob =>
      cases h <;> simp only [hostStep, reduceCtorEq, Option.some.injEq, Prod.mk.injEq] at hs
      obtain ⟨rfl, rfl⟩ := hs
      exact ⟨hk, .inl rfl⟩
  | launch pid =>
      cases h <;> simp only [hostStep, reduceCtorEq, Option.some.injEq, Prod.mk.injEq] at hs
      obtain ⟨rfl, rfl⟩ := hs
      exact ⟨⟨_, rfl, rfl⟩, .inl rfl⟩
  | launchFails =>
      cases h <;> simp only [hostStep, reduceCtorEq, Option.some.injEq, Prod.mk.injEq] at hs
      obtain ⟨rfl, rfl⟩ := hs
      exact ⟨⟨by simp, fun _ => hk⟩, .inl rfl⟩
  | pollPid heads captured =>
      cases h <;> simp only [hostStep, reduceCtorEq] at hs
      split at hs <;> simp only [reduceCtorEq, Option.some.injEq, Prod.mk.injEq] at hs
      rename_i text heq _
      obtain ⟨rfl, rfl⟩ := hs
      obtain rfl := Host.awaitPid.inj heq
      refine ⟨hostKnows_recordAndDecide fun i hi => ?_, .inl rfl⟩
      obtain ⟨w', hw, hp⟩ := hk
      exact ⟨w', hw, hp.trans (awaitedIdentity_pid hi).symm⟩
  | giveUp =>
      cases h <;> simp only [hostStep, reduceCtorEq, Option.some.injEq, Prod.mk.injEq] at hs
      obtain ⟨rfl, rfl⟩ := hs
      exact ⟨hostKnows_recordAndDecide (by simp), .inl rfl⟩
  | cancelStart =>
      cases h <;> simp only [hostStep, reduceCtorEq, Option.some.injEq, Prod.mk.injEq] at hs
      obtain ⟨rfl, rfl⟩ := hs
      exact ⟨⟨by simp, by simp⟩, .inl rfl⟩
  | recordIdentity =>
      cases h <;> simp only [hostStep, reduceCtorEq, Option.some.injEq, Prod.mk.injEq] at hs
      obtain ⟨rfl, rfl⟩ := hs
      obtain ⟨w', hw, hp⟩ := hk
      exact ⟨⟨fun _ => ⟨_, w', rfl, hw, hp⟩, by simp⟩, .inl rfl⟩
  | link =>
      cases h <;> simp only [hostStep, reduceCtorEq] at hs
      rename_i value purpose
      cases hd : d.decision with
      | none =>
          simp only [hd, Option.some.injEq, Prod.mk.injEq] at hs
          obtain ⟨rfl, rfl⟩ := hs
          refine ⟨hostKnows_done rfl hk.2, .inr ⟨hd, ?_⟩⟩
          cases value with
          | abandon => exact .inl rfl
          | go => exact .inr ⟨rfl, hk.1 rfl⟩
      | some x =>
          simp only [hd, Option.some.injEq, Prod.mk.injEq] at hs
          obtain ⟨rfl, rfl⟩ := hs
          exact ⟨⟨by simp [hd], hk.2⟩, .inl rfl⟩
  | readBack =>
      cases h <;> simp only [hostStep, reduceCtorEq, Option.some.injEq, Prod.mk.injEq] at hs
      rename_i value purpose
      obtain ⟨rfl, rfl⟩ := hs
      obtain ⟨x, hx⟩ := Option.ne_none_iff_exists'.mp hk.1
      rw [hx]
      exact ⟨hostKnows_done hx hk.2, .inl rfl⟩
  | crash =>
      simp only [hostStep, Option.some.injEq, Prod.mk.injEq] at hs
      obtain ⟨rfl, rfl⟩ := hs
      exact ⟨trivial, .inl rfl⟩

/-- The host's knowledge survives the steps of the others. -/
theorem HostKnows.mono {p : Prop} {h : Host} {d d' : Disk} {w w' : Option Wrapper}
    (hk : HostKnows h d w) (hd : Decides p d d') (hr : d'.record = d.record)
    (hw : w'.map Wrapper.pid = w.map Wrapper.pid) : HostKnows h d' w' := by
  have hnone : w = none → w' = none := by
    rintro rfl
    simpa using hw
  have hpid : ∀ n, (∃ x, w = some x ∧ x.pid = n) → ∃ x, w' = some x ∧ x.pid = n := by
    rintro n ⟨x, rfl, rfl⟩
    simpa using hw
  cases h with
  | idle => exact hnone hk
  | made => exact hnone hk
  | awaitPid pid => exact hpid pid hk
  | recording identity => exact hpid _ hk
  | creating value purpose =>
      refine ⟨fun hgo => ?_, fun hp => hnone (hk.2 hp)⟩
      obtain ⟨identity, x, hrec, hx, hp⟩ := hk.1 hgo
      obtain ⟨x', hx', hp'⟩ := hpid _ ⟨x, hx, hp⟩
      exact ⟨identity, x', hr.trans hrec, hx', hp'⟩
  | readingBack value purpose => exact ⟨hd.ne_none hk.1, fun hp => hnone (hk.2 hp)⟩
  | returned decision => exact hd.keeps hk
  | launchFailed => exact hnone hk
  | cancelled => trivial
  | crashed => trivial

/-! ## The other hosts -/

def ReaderKnows (r : Reader) (d : Disk) : Prop :=
  match r with
  | .readingBack => d.decision ≠ none
  | .observed decision => d.decision = some decision
  | _ => True

theorem readerStep_knows {r r' : Reader} {d d' : Disk} {a : ReaderAction}
    (hk : ReaderKnows r d) (hs : readerStep r d a = some (r', d')) :
    ReaderKnows r' d' ∧ Decides False d d' ∧ d'.record = d.record := by
  cases a with
  | recover =>
      cases r <;> simp only [readerStep, reduceCtorEq, Option.some.injEq, Prod.mk.injEq] at hs
      obtain ⟨rfl, rfl⟩ := hs
      exact ⟨trivial, .inl rfl, rfl⟩
  | cancel =>
      cases r <;> simp only [readerStep, reduceCtorEq, Option.some.injEq, Prod.mk.injEq] at hs
      obtain ⟨rfl, rfl⟩ := hs
      exact ⟨trivial, .inl rfl, rfl⟩
  | readDecision =>
      cases r <;> simp only [readerStep, reduceCtorEq] at hs
      cases hd : d.decision with
      | none =>
          simp only [hd, Option.some.injEq, Prod.mk.injEq] at hs
          obtain ⟨rfl, rfl⟩ := hs
          exact ⟨trivial, .inl rfl, rfl⟩
      | some x =>
          simp only [hd, Option.some.injEq, Prod.mk.injEq] at hs
          obtain ⟨rfl, rfl⟩ := hs
          exact ⟨hd, .inl rfl, rfl⟩
  | readMeta =>
      cases r <;> simp only [readerStep, reduceCtorEq] at hs
      split at hs <;> simp only [reduceCtorEq, Option.some.injEq, Prod.mk.injEq] at hs <;>
        obtain ⟨rfl, rfl⟩ := hs <;> exact ⟨trivial, .inl rfl, rfl⟩
  | link =>
      cases r <;> simp only [readerStep, reduceCtorEq] at hs
      cases hd : d.decision with
      | none =>
          simp only [hd, Option.some.injEq, Prod.mk.injEq] at hs
          obtain ⟨rfl, rfl⟩ := hs
          exact ⟨rfl, .inr ⟨hd, .inl rfl⟩, rfl⟩
      | some x =>
          simp only [hd, Option.some.injEq, Prod.mk.injEq] at hs
          obtain ⟨rfl, rfl⟩ := hs
          exact ⟨by simp [ReaderKnows, hd], .inl rfl, rfl⟩
  | readBack =>
      cases r <;> simp only [readerStep, reduceCtorEq, Option.some.injEq, Prod.mk.injEq] at hs
      obtain ⟨rfl, rfl⟩ := hs
      obtain ⟨x, hx⟩ := Option.ne_none_iff_exists'.mp hk
      rw [hx]
      exact ⟨hx, .inl rfl, rfl⟩
  | crash =>
      simp only [readerStep, Option.some.injEq, Prod.mk.injEq] at hs
      obtain ⟨rfl, rfl⟩ := hs
      exact ⟨trivial, .inl rfl, rfl⟩

theorem ReaderKnows.mono {p : Prop} {r : Reader} {d d' : Disk} (hk : ReaderKnows r d)
    (hd : Decides p d d') : ReaderKnows r d' := by
  cases r with
  | readingBack => exact hd.ne_none hk
  | observed decision => exact hd.keeps hk
  | _ => trivial

/-! ## The wrapper -/

def WrapperKnows (w : Wrapper) (d : Disk) : Prop :=
  (w.ran = true ∨ w.pc = .cleared → d.decision = some .go) ∧
    (w.pc = .refused → d.decision = some .abandon)

theorem wrapperStep_knows {w w' : Wrapper} {d d' : Disk} {a : WrapperAction}
    (hk : WrapperKnows w d) (hs : wrapperStep w d a = some (w', d')) :
    WrapperKnows w' d' ∧ Decides False d d' ∧ d'.record = d.record ∧ w'.pid = w.pid := by
  obtain ⟨pid, pc, ran⟩ := w
  obtain ⟨hgo, hab⟩ := hk
  simp only at hgo hab
  cases a with
  | writePid =>
      cases pc <;> simp only [wrapperStep, reduceCtorEq, Option.some.injEq, Prod.mk.injEq] at hs
      obtain ⟨rfl, rfl⟩ := hs
      exact ⟨⟨by simpa using hgo, by simp⟩, .inl rfl, rfl, rfl⟩
  | seeDecision =>
      cases pc <;> simp only [wrapperStep, reduceCtorEq] at hs
      split at hs <;> simp only [reduceCtorEq, Option.some.injEq, Prod.mk.injEq] at hs
      obtain ⟨rfl, rfl⟩ := hs
      exact ⟨⟨by simpa using hgo, by simp⟩, .inl rfl, rfl, rfl⟩
  | timeout =>
      cases pc <;> simp only [wrapperStep, reduceCtorEq] at hs
      split at hs <;> simp only [reduceCtorEq, Option.some.injEq, Prod.mk.injEq] at hs
      obtain ⟨rfl, rfl⟩ := hs
      exact ⟨⟨by simpa using hgo, by simp⟩, .inl rfl, rfl, rfl⟩
  | link =>
      cases pc <;> simp only [wrapperStep, reduceCtorEq] at hs
      cases hd : d.decision with
      | none =>
          simp only [hd, Option.some.injEq, Prod.mk.injEq] at hs
          obtain ⟨rfl, rfl⟩ := hs
          simp only [hd] at hgo
          exact ⟨⟨by simpa using hgo, by simp⟩, .inr ⟨hd, .inl rfl⟩, rfl, rfl⟩
      | some x =>
          simp only [hd, Option.some.injEq, Prod.mk.injEq] at hs
          obtain ⟨rfl, rfl⟩ := hs
          exact ⟨⟨by simpa using hgo, by simp⟩, .inl rfl, rfl, rfl⟩
  | read =>
      cases pc <;> simp only [wrapperStep, reduceCtorEq] at hs
      cases hd : d.decision with
      | none =>
          simp only [hd, Option.some.injEq, Prod.mk.injEq] at hs
          obtain ⟨rfl, rfl⟩ := hs
          exact ⟨⟨by simpa using hgo, by simp⟩, .inl rfl, rfl, rfl⟩
      | some x =>
          cases x with
          | go =>
              simp only [hd, Option.some.injEq, Prod.mk.injEq] at hs
              obtain ⟨rfl, rfl⟩ := hs
              exact ⟨⟨fun _ => hd, by simp⟩, .inl rfl, rfl, rfl⟩
          | abandon =>
              simp only [hd, Option.some.injEq, Prod.mk.injEq] at hs
              obtain ⟨rfl, rfl⟩ := hs
              exact ⟨⟨by simpa using hgo, fun _ => hd⟩, .inl rfl, rfl, rfl⟩
  | deadlinePassed =>
      cases pc <;> simp only [wrapperStep, reduceCtorEq, Option.some.injEq, Prod.mk.injEq] at hs
      obtain ⟨rfl, rfl⟩ := hs
      exact ⟨⟨fun _ => hgo (.inr rfl), by simp⟩, .inl rfl, rfl, rfl⟩
  | runCommand =>
      cases pc <;> simp only [wrapperStep, reduceCtorEq, Option.some.injEq, Prod.mk.injEq] at hs
      obtain ⟨rfl, rfl⟩ := hs
      exact ⟨⟨fun _ => hgo (.inr rfl), by simp⟩, .inl rfl, rfl, rfl⟩
  | ends =>
      simp only [wrapperStep, Option.some.injEq, Prod.mk.injEq] at hs
      obtain ⟨rfl, rfl⟩ := hs
      refine ⟨⟨?_, by simp⟩, .inl rfl, rfl, rfl⟩
      rintro (h | h)
      · exact hgo (.inl h)
      · simp at h

theorem WrapperKnows.mono {p : Prop} {w : Wrapper} {d d' : Disk} (hk : WrapperKnows w d)
    (hd : Decides p d d') : WrapperKnows w d' :=
  ⟨fun h => hd.keeps (hk.1 h), fun h => hd.keeps (hk.2 h)⟩

/-! ## All parties -/

structure Safe (s : Job) : Prop where
  host : HostKnows s.host s.disk s.wrapper
  readers : ∀ i, ReaderKnows (s.readers i) s.disk
  wrapper : ∀ w, s.wrapper = some w → WrapperKnows w s.disk

theorem safe_init : Safe Job.init :=
  ⟨rfl, fun _ => trivial, by simp [Job.init]⟩

theorem step_safe {s s' : Job} {a : Action} (hs : Safe s) (h : step s a = some s') :
    Safe s' ∧ Decides (Recorded s.disk s.wrapper) s.disk s'.disk := by
  cases a with
  | host a =>
      obtain ⟨⟨h', d'⟩, hstep, rfl⟩ := Option.map_eq_some_iff.mp h
      obtain ⟨hk, hd⟩ := hostStep_knows hs.host hstep
      refine ⟨⟨hk, fun i => (hs.readers i).mono hd, ?_⟩, hd⟩
      intro w hw
      cases a with
      | launch pid =>
          obtain rfl : (⟨pid, .booting, false⟩ : Wrapper) = w := by simpa [launched] using hw
          exact ⟨by simp, by simp⟩
      | _ => exact (hs.wrapper w hw).mono hd
  | reader i a =>
      obtain ⟨⟨r', d'⟩, hstep, rfl⟩ := Option.map_eq_some_iff.mp h
      obtain ⟨hk, hd, hr⟩ := readerStep_knows (hs.readers i) hstep
      refine ⟨⟨hs.host.mono hd hr rfl, fun j => ?_, fun w hw => (hs.wrapper w hw).mono hd⟩,
        hd.imp id (And.imp id (Or.imp id (And.imp id False.elim)))⟩
      by_cases hj : j = i
      · simpa [hj] using hk
      · simpa [hj] using (hs.readers j).mono hd
  | wrapper a =>
      simp only [step] at h
      split at h
      · simp at h
      · rename_i w hw
        obtain ⟨⟨w', d'⟩, hstep, rfl⟩ := Option.map_eq_some_iff.mp h
        obtain ⟨hk, hd, hr, hp⟩ := wrapperStep_knows (hs.wrapper w hw) hstep
        refine ⟨⟨hs.host.mono hd hr (by simp [hw, hp]), fun j => (hs.readers j).mono hd, ?_⟩,
          hd.imp id (And.imp id (Or.imp id (And.imp id False.elim)))⟩
        rintro x hx
        obtain rfl : w' = x := by simpa using hx
        exact hk

theorem next_safe (s : Job) (a : Action) (hs : Safe s) :
    Safe (ofStep step s a) ∧
      Decides (Recorded s.disk s.wrapper) s.disk (ofStep step s a).disk := by
  unfold ofStep
  cases h : step s a with
  | none => exact ⟨hs, .inl rfl⟩
  | some s' => exact step_safe hs h

theorem jobAfter_safe (run : List Action) : Safe (jobAfter run) :=
  after_inv _ (fun s a hs => (next_safe s a hs).1) safe_init run

/-- A decision that has been made stays. -/
theorem after_decision {s : Job} (hs : Safe s) {d : Decision}
    (hd : s.disk.decision = some d) (run : List Action) :
    (after (ofStep step) s run).disk.decision = some d := by
  have h := after_inv (P := fun s => Safe s ∧ s.disk.decision = some d) (ofStep step)
    (fun s a hs => ⟨(next_safe s a hs.1).1, (next_safe s a hs.1).2.keeps hs.2⟩) ⟨hs, hd⟩ run
  exact h.2

/-- A job without a launched wrapper, whose starting host has failed, stays so. -/
theorem after_launchFailed {s : Job} (hs : Safe s) (hl : s.host = .launchFailed)
    (run : List Action) : ¬ (after (ofStep step) s run).ran := by
  have h := after_inv
    (P := fun s => s.wrapper = none ∧ (s.host = .launchFailed ∨ s.host = .crashed))
    (ofStep step) (ofStep_inv ?_) ⟨by simpa [hl, HostKnows] using hs.host, .inl hl⟩ run
  · rintro ⟨w, hw, -⟩
    simp [h.1] at hw
  · rintro s a s' h ⟨hw, hh⟩
    cases a with
    | host a =>
        obtain ⟨⟨h', d'⟩, hstep, rfl⟩ := Option.map_eq_some_iff.mp h
        rcases hh with hh | hh <;> rw [hh] at hstep <;>
          cases a <;> simp [hostStep] at hstep <;> exact ⟨hw, .inr hstep.1.symm⟩
    | reader i a =>
        obtain ⟨⟨r', d'⟩, -, rfl⟩ := Option.map_eq_some_iff.mp h
        exact ⟨hw, hh⟩
    | wrapper a => simp [step, hw] at h

/-- In every run: a decision never changes; the command runs only on `go`; the
identity of its wrapper was on record before there was a decision; and once a
party has observed that the job did not start, the command never runs. -/
theorem job_decision (run later : List Action) :
    (∀ d, (jobAfter run).disk.decision = some d →
      (jobAfter (run ++ later)).disk.decision = some d) ∧
    ((jobAfter run).ran → (jobAfter run).disk.decision = some .go) ∧
    ((jobAfter run).ran → ∃ before a rest, run = before ++ a :: rest ∧
      (jobAfter before).disk.decision = none ∧
      (jobAfter (before ++ [a])).disk.decision = some .go ∧
      Recorded (jobAfter before).disk (jobAfter before).wrapper) ∧
    (ObservedNotStarted (jobAfter run) → ¬ (jobAfter (run ++ later)).ran) := by
  have hs := jobAfter_safe run
  have happ : jobAfter (run ++ later) = after (ofStep step) (jobAfter run) later :=
    after_append _ _ _ _
  have hgo : ∀ r, (jobAfter r).ran → (jobAfter r).disk.decision = some .go := by
    rintro r ⟨w, hw, hran⟩
    exact ((jobAfter_safe r).wrapper w hw).1 (.inl hran)
  refine ⟨?_, hgo run, ?_, ?_⟩
  · intro d hd
    rw [happ]
    exact after_decision hs hd later
  · intro hran
    obtain ⟨before, a, rest, rfl, hb, ha⟩ := exists_change (ofStep step)
      (P := fun s => s.disk.decision = some .go) (s := Job.init) (by simp [Job.init])
      (hgo run hran)
    have hsb := jobAfter_safe before
    have hnext : jobAfter (before ++ [a]) = ofStep step (jobAfter before) a :=
      after_append _ _ _ _
    rcases (next_safe _ a hsb).2 with h | ⟨hnone, h | ⟨-, hrec⟩⟩
    · exact absurd (h.symm.trans ha) hb
    · rw [show (ofStep step (jobAfter before) a).disk.decision = some .go from ha] at h
      simp at h
    · exact ⟨before, a, rest, rfl, hnone, by rw [hnext]; exact ha, hrec⟩
  · intro hobs hran
    have hdec := hgo _ hran
    rw [happ] at hran hdec
    have habandon : ∀ {x : Job}, x = jobAfter run → x.disk.decision = some .abandon → False := by
      rintro x rfl hx
      have := after_decision hs hx later
      rw [hdec] at this
      simp at this
    rcases hobs with h | h | ⟨i, h⟩ | ⟨w, hw, h⟩
    · exact habandon rfl (by simpa [h, HostKnows] using hs.host)
    · exact after_launchFailed hs h later hran
    · exact habandon rfl (by simpa [h, ReaderKnows] using hs.readers i)
    · exact habandon rfl ((hs.wrapper w hw).2 h)

/-- A start that nothing interrupts. -/
def startRun : List Action :=
  [.host .makeJob, .host (.launch 7), .wrapper .writePid,
    .host (.pollPid (some true) (some 1)), .host .recordIdentity, .host .link,
    .wrapper .seeDecision, .wrapper .read, .wrapper .runCommand]

/-- A start whose wrapper times out before the host has decided. -/
def lateRun : List Action :=
  [.host .makeJob, .host (.launch 7), .wrapper .writePid,
    .host (.pollPid (some true) (some 1)), .host .recordIdentity, .wrapper .timeout,
    .wrapper .link, .host .link, .host .readBack]

theorem job_decision_runs :
    (jobAfter startRun).ran ∧ (jobAfter startRun).disk.decision = some .go ∧
      ObservedNotStarted (jobAfter lateRun) ∧
      ¬ (jobAfter (lateRun ++ [.wrapper .read, .wrapper .runCommand])).ran := by
  have hran : (jobAfter startRun).ran := ⟨⟨7, .running, true⟩, rfl, rfl⟩
  have hlate : ObservedNotStarted (jobAfter lateRun) := .inl rfl
  exact ⟨hran, (job_decision startRun []).2.1 hran, hlate,
    (job_decision lateRun [.wrapper .read, .wrapper .runCommand]).2.2.2 hlate⟩

end Avibe.Jobs
