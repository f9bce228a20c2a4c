import Avibe.Hub.Recovery
import Avibe.Lib.Machine
import Mathlib.Tactic.FinCases

/-!
# One probe at a time

What the calls do to the record of one Source, and what holds for it in every run: the
deadlines only move forward between successes, a stale failure counts for nothing, and as
long as no other attempt's failure is counted while a probe is out, the probe is alone.
-/

namespace Avibe.Hub

open Machine

namespace Policy

/-! ## Records -/

@[simp] theorem setSource_same (p : Policy) (id : String) (r : Option Recovery) :
    (p.setSource id r).sources id = r := by simp [setSource]

@[simp] theorem setSource_ne (p : Policy) {id id' : String} (r : Option Recovery) (h : id ≠ id') :
    (p.setSource id' r).sources id = p.sources id := by simp [setSource, h]

@[simp] theorem setRetired_sources (p : Policy) (id : String) (o : Option Observation) :
    (p.setRetired id o).sources = p.sources := rfl

theorem setSource_eq (p : Policy) {id : String} {r : Option Recovery} (h : p.sources id = r) :
    p.setSource id r = p := by
  unfold setSource
  congr
  funext i
  split
  · rename_i hi
    rw [hi, h]
  · rfl

/-- A record that moved forward: the same probe and failures, with later deadlines. -/
structure Forward (r r' : Recovery) : Prop where
  identity : r'.identity = r.identity
  owner : r'.owner = r.owner
  failed : r'.failedGeneration = r.failedGeneration
  retry_le : r.retryAt ≤ r'.retryAt
  eligible_le : r.eligibleAt ≤ r'.eligibleAt

theorem forward_refl (r : Recovery) : Forward r r := ⟨rfl, rfl, rfl, le_refl _, le_refl _⟩

theorem Forward.trans {a b c : Recovery} (h : Forward a b) (h' : Forward b c) : Forward a c :=
  ⟨h'.identity.trans h.identity, h'.owner.trans h.owner, h'.failed.trans h.failed,
    le_trans h.retry_le h'.retry_le, le_trans h.eligible_le h'.eligible_le⟩

/-- A record after a look at the configuration: it moved forward, or it is a new one that nobody
probes and that counts no failure. -/
def Looked (identity : Identity) (r r' : Option Recovery) : Prop :=
  match r with
  | some r => ∃ x, r' = some x ∧ Forward r x
  | none => ∀ x, r' = some x → x.identity = identity ∧ x.owner = none ∧ x.failedGeneration = none

theorem looked_refl (identity : Identity) (r : Option Recovery) : Looked identity r r := by
  cases r with
  | none =>
      intro x hx
      cases hx
  | some r => exact ⟨r, rfl, forward_refl r⟩

theorem Looked.trans {identity : Identity} {a b c : Option Recovery} (h : Looked identity a b)
    (h' : Looked identity b c) : Looked identity a c := by
  cases a with
  | some a =>
      obtain ⟨b, rfl, hab⟩ := h
      obtain ⟨c, rfl, hbc⟩ := h'
      exact ⟨c, rfl, hab.trans hbc⟩
  | none =>
      cases b with
      | none => exact h'
      | some b =>
          obtain ⟨c, rfl, hbc⟩ := h'
          intro x hx
          cases hx
          obtain ⟨hi, ho, hf⟩ := h b rfl
          exact ⟨hbc.identity.trans hi, hbc.owner.trans ho, hbc.failed.trans hf⟩

section Look

variable (instant : String → ℚ) (clock : Clock)

theorem looked_restored (source : Source) (r : Option Recovery) :
    Looked source.identity r (restored instant clock source r) := by
  cases r with
  | none =>
      intro x hx
      unfold restored at hx
      cases hp : persistedRetry instant source with
      | none =>
          rw [hp] at hx
          cases hx
      | some retryAt =>
          rw [hp] at hx
          cases hx
          exact ⟨rfl, rfl, rfl⟩
  | some r =>
      unfold restored
      cases hp : persistedRetry instant source with
      | none => exact ⟨r, rfl, forward_refl r⟩
      | some persisted =>
          dsimp only
          split
          · rename_i hlt
            exact ⟨_, rfl, rfl, rfl, rfl, le_of_lt hlt, le_max_left _ _⟩
          · exact ⟨r, rfl, forward_refl r⟩

theorem known_ne (p : Policy) {source : Source} {id : String} (h : id ≠ source.id) :
    (p.known source).sources id = p.sources id := by
  unfold known
  split
  · split
    · rfl
    · exact setSource_ne p none h
  · rfl

theorem known_eq {p : Policy} {source : Source}
    (h : ∀ r, p.sources source.id = some r → r.identity = source.identity) :
    p.known source = p := by
  unfold known
  split
  · rename_i r hr
    exact if_pos (h r hr)
  · rfl

theorem state_ne (p : Policy) {source : Source} {id : String} (h : id ≠ source.id) :
    (p.state instant clock source).sources id = p.sources id := by
  have hk := known_ne p h
  unfold state
  split
  · rfl
  · dsimp only
    split
    · split
      · exact hk
      · simp [h, hk]
    · simp [h, hk]

/-- A look at a Source of an unchanged identity. -/
theorem looked_state {p : Policy} {source : Source}
    (h : ∀ r, p.sources source.id = some r → r.identity = source.identity) :
    Looked source.identity (p.sources source.id)
      ((p.state instant clock source).sources source.id) := by
  have hlook := looked_restored instant clock source (p.sources source.id)
  unfold state
  split
  · exact looked_refl _ _
  · rw [known_eq h]
    dsimp only
    split
    · split
      · exact looked_refl _ _
      · simpa using hlook
    · simpa using hlook

theorem record_eq {p : Policy} {source : Source} (hub : source.supplyChannel = .hub) :
    p.record instant clock source = (p.state instant clock source).sources source.id := by
  unfold record
  rw [if_neg]
  exact fun hne => hne hub

/-- A look changes nothing when no persisted cooldown is later than the record and no retired one
is obsolete. -/
theorem state_eq {p : Policy} {source : Source} {r : Recovery} (hr : p.sources source.id = some r)
    (hi : r.identity = source.identity)
    (hretired : ∀ o, p.retiredCooldowns source.id = some o → source.cooldownObservation = some o)
    (hlate : ∀ persisted, persistedRetry instant source = some persisted → persisted ≤ r.retryAt) :
    p.state instant clock source = p := by
  have hknown : p.known source = p := known_eq fun x hx => by
    rw [hr] at hx
    cases hx
    exact hi
  have hrestored : restored instant clock source (p.sources source.id) = p.sources source.id := by
    rw [hr]
    unfold restored
    cases hp : persistedRetry instant source with
    | none => rfl
    | some persisted =>
        dsimp only
        rw [if_neg (not_lt.mpr (hlate persisted hp))]
  unfold state
  split
  · rfl
  · rw [hknown]
    dsimp only
    split
    · rename_i o ho
      rw [if_pos (hretired o ho).symm]
    · rw [hrestored]
      exact setSource_eq p rfl

/-! ## Calls -/

/-- A failure that is not newer than the last counted one. -/
theorem failed_stale {p : Policy} {source : Source} {failure : Failure} {r : Recovery} {g : Nat}
    (hr : p.record instant clock source = some r) (hg : r.failedGeneration = some g)
    (hle : failure.generation ≤ g) :
    p.failed instant clock source failure = (p.state instant clock source, r.retryAt, false) := by
  unfold failed
  simp [hr, hg, hle]

/-- A failure that counts replaces the record by a later one that nobody probes. -/
theorem failed_counted {p : Policy} {source : Source} {failure : Failure}
    (h : (p.failed instant clock source failure).2.2 = true) :
    ∃ x, (p.failed instant clock source failure).1 =
        (p.state instant clock source).setSource source.id (some x) ∧
      x.identity = source.identity ∧ x.owner = none ∧
      x.failedGeneration = some failure.generation ∧
      ∀ r, p.record instant clock source = some r →
        r.retryAt ≤ x.retryAt ∧ r.eligibleAt ≤ x.eligibleAt := by
  unfold failed at h ⊢
  dsimp only at h ⊢
  split at h
  · cases h
  · rename_i hstale
    rw [if_neg hstale]
    cases hrecord : p.record instant clock source with
    | none => exact ⟨_, rfl, rfl, rfl, rfl, fun r hr => by cases hr⟩
    | some r =>
        refine ⟨_, rfl, rfl, rfl, rfl, fun r' hr' => ?_⟩
        cases hr'
        exact ⟨le_trans (le_max_right _ _) (le_max_left _ _), le_max_right _ _⟩

theorem failed_not_counted {p : Policy} {source : Source} {failure : Failure}
    (h : (p.failed instant clock source failure).2.2 = false) :
    (p.failed instant clock source failure).1 = p.state instant clock source := by
  unfold failed at h ⊢
  dsimp only at h ⊢
  split at h
  · rename_i hstale
    rw [if_pos hstale]
  · cases h

/-- A claim on a recovering Source is admitted once its deadline passed and nobody probes it. -/
theorem claim_admitted {p : Policy} {source : Source} {g : Nat} {r : Recovery}
    (hr : p.record instant clock source = some r)
    (h : (p.claim instant clock source g).2 = true) :
    r.owner = none ∧ r.eligibleAt ≤ clock.monotonic ∧
      (p.claim instant clock source g).1 =
        (p.state instant clock source).setSource source.id (some { r with owner := some g }) := by
  unfold claim at h ⊢
  simp only [hr] at h ⊢
  split at h
  · cases h
  · rename_i hno
    rw [if_neg hno]
    simp only [not_or, not_not, not_lt] at hno
    exact ⟨hno.1, hno.2, rfl⟩

theorem claim_refused {p : Policy} {source : Source} {g : Nat}
    (h : (p.claim instant clock source g).2 = false ∨ p.record instant clock source = none) :
    (p.claim instant clock source g).1 = p.state instant clock source := by
  unfold claim at h ⊢
  cases hr : p.record instant clock source with
  | none => rfl
  | some r =>
      simp only [hr] at h ⊢
      split
      · rfl
      · rename_i hno
        rcases h with h | h
        · rw [if_neg hno] at h
          cases h
        · cases h

theorem succeeded_same {p : Policy} {source : Source} (hub : source.supplyChannel = .hub) :
    (p.succeeded instant clock source).1.sources source.id = none := by
  unfold succeeded
  cases hr : p.record instant clock source with
  | none =>
      rw [record_eq instant clock hub] at hr
      exact hr
  | some r =>
      cases source.cooldownObservation <;> simp

theorem succeeded_ne (p : Policy) {source : Source} {id : String} (h : id ≠ source.id) :
    (p.succeeded instant clock source).1.sources id = p.sources id := by
  have hstate := state_ne instant clock p h
  unfold succeeded
  cases hr : p.record instant clock source with
  | none => exact hstate
  | some r =>
      cases source.cooldownObservation <;> simp [h, hstate]

/-- The Source with this id, when there is one only. -/
theorem find_unique {config : List Source} {source : Source} (hmem : source ∈ config)
    (hub : source.supplyChannel = .hub) (hunique : ∀ s ∈ config, s.id = source.id → s = source) :
    (config.filter fun s => s.supplyChannel = .hub).reverse.find? (·.id = source.id) =
      some source := by
  cases hf : (config.filter fun s => s.supplyChannel = .hub).reverse.find? (·.id = source.id) with
  | none =>
      have hnone := List.find?_eq_none.mp hf source (by simp [hmem, hub])
      simp at hnone
  | some s =>
      have hs := List.mem_of_find?_eq_some hf
      have hid := List.find?_some hf
      simp only [List.mem_reverse, List.mem_filter] at hs
      rw [hunique s hs.1 (by simpa using hid)]

theorem reconcile_sources {p : Policy} {config : List Source} {source : Source}
    (hmem : source ∈ config) (hub : source.supplyChannel = .hub)
    (hunique : ∀ s ∈ config, s.id = source.id → s = source)
    (h : ∀ r, p.sources source.id = some r → r.identity = source.identity) :
    (p.reconcile config).sources source.id = p.sources source.id := by
  unfold reconcile
  simp only [find_unique hmem hub hunique]
  cases hr : p.sources source.id with
  | none => rfl
  | some r => simp [h r hr]

theorem looked_annotate {p : Policy} {config : List Source} {id : String} {identity : Identity}
    (hconfig : ∀ s ∈ config, s.id = id → s.identity = identity)
    (h : ∀ r, p.sources id = some r → r.identity = identity) :
    Looked identity (p.sources id) ((annotate instant clock p config).1.sources id) := by
  induction config generalizing p with
  | nil => exact looked_refl _ _
  | cons source rest ih =>
      have hlook : Looked identity (p.sources id) ((p.state instant clock source).sources id) := by
        by_cases hid : id = source.id
        · have hsame := hconfig source List.mem_cons_self hid.symm
          subst hid
          rw [← hsame] at h ⊢
          exact looked_state instant clock h
        · rw [state_ne instant clock p hid]
          exact looked_refl _ _
      have hidentity : ∀ r, (p.state instant clock source).sources id = some r →
          r.identity = identity := by
        intro x hx
        cases hr : p.sources id with
        | none =>
            rw [hr] at hlook
            exact (hlook x hx).1
        | some r =>
            rw [hr] at hlook
            obtain ⟨y, hy, hforward⟩ := hlook
            rw [hx] at hy
            cases hy
            exact hforward.identity.trans (h r hr)
      have hrest := ih (fun s hs => hconfig s (List.mem_cons_of_mem _ hs)) hidentity
      simp only [annotate]
      split <;> exact hlook.trans hrest

end Look

end Policy

/-! ## Runs -/

inductive Call where
  | claim (source : Source) (generation : Nat)
  | release (sourceId : String) (generation : Option Nat)
  | failed (source : Source) (failure : Failure)
  | succeeded (source : Source)
  | annotations (config : List Source)
  | reconcile (config : List Source)

/-- The policy, with what happened to one Source: the attempt whose claim on the recovering Source
was admitted and that did not end, and the last counted failure since a success. -/
structure Watch where
  policy : Policy
  probe : Option Nat
  counted : Option Nat

namespace Watch

open Policy

variable (instant : String → ℚ) (id : String)

def start : Watch := ⟨.empty, none, none⟩

/-- One call at an instant of both clocks. -/
def step (w : Watch) : Clock × Call → Watch
  | (clock, .claim source g) =>
      let recovering := (w.policy.record instant clock source).isSome
      let (policy, admitted) := w.policy.claim instant clock source g
      { w with
        policy
        probe := if source.id = id ∧ admitted ∧ recovering then some g else w.probe }
  | (_, .release sourceId g) =>
      { w with
        policy := w.policy.release sourceId g
        probe := if sourceId = id ∧ w.probe = g then none else w.probe }
  | (clock, .failed source failure) =>
      let (policy, _, counted) := w.policy.failed instant clock source failure
      { policy
        probe := if source.id = id ∧ w.probe = some failure.generation then none else w.probe
        counted := if source.id = id ∧ counted then some failure.generation else w.counted }
  | (clock, .succeeded source) =>
      { policy := (w.policy.succeeded instant clock source).1
        probe := if source.id = id then none else w.probe
        counted := if source.id = id then none else w.counted }
  | (clock, .annotations config) =>
      { w with policy := (w.policy.annotations instant clock config).1 }
  | (_, .reconcile config) => { w with policy := w.policy.reconcile config }

/-- The call is about the Source as it is, a hub Source of this identity that stays configured. -/
def Fits (identity : Identity) : Call → Prop
  | .claim source _ | .failed source _ | .succeeded source =>
      source.id = id → source.identity = identity ∧ source.supplyChannel = .hub
  | .release _ _ => True
  | .annotations config | .reconcile config =>
      ∃ source ∈ config, source.id = id ∧ source.identity = identity ∧
        source.supplyChannel = .hub ∧ ∀ s ∈ config, s.id = id → s = source

/-- While a probe is out, no failure of another attempt counts. -/
def Uncontested (w : Watch) : Clock × Call → Prop
  | (_, .failed source failure) =>
      source.id = id → ∀ g, w.probe = some g → failure.generation ≠ g →
        ∃ c, w.counted = some c ∧ failure.generation ≤ c
  | _ => True

structure Kept (identity : Identity) (w : Watch) : Prop where
  identity : ∀ r, w.policy.sources id = some r → r.identity = identity
  counted : (w.policy.sources id).bind Recovery.failedGeneration = w.counted

/-- The probe holds the record. -/
def Held (w : Watch) : Prop :=
  ∀ g, w.probe = some g → ∃ r, w.policy.sources id = some r ∧ r.owner = some g

theorem kept_start (identity : Identity) : Kept id identity start :=
  ⟨fun r hr => (by cases hr), rfl⟩

section Step

variable {instant id} {identity : Identity} {w : Watch} {clock : Clock}

theorem Kept.of_looked (h : Kept id identity w) {policy : Policy} (probe : Option Nat)
    (hlook : Looked identity (w.policy.sources id) (policy.sources id)) :
    Kept id identity ⟨policy, probe, w.counted⟩ := by
  cases hr : w.policy.sources id with
  | none =>
      rw [hr] at hlook
      have hcounted := h.counted
      rw [hr] at hcounted
      refine ⟨fun x hx => (hlook x hx).1, ?_⟩
      cases hx : policy.sources id with
      | none => exact hcounted
      | some x => exact (hlook x hx).2.2.trans hcounted
  | some r =>
      rw [hr] at hlook
      obtain ⟨x, hx, hforward⟩ := hlook
      have hcounted := h.counted
      rw [hr] at hcounted
      refine ⟨fun y hy => ?_, ?_⟩
      · rw [hx] at hy
        cases hy
        exact hforward.identity.trans (h.identity r hr)
      · simp only [hx]
        exact hforward.failed.trans hcounted

theorem Held.of_looked (h : Held id w) {policy : Policy} (counted : Option Nat)
    (hlook : Looked identity (w.policy.sources id) (policy.sources id)) :
    Held id ⟨policy, w.probe, counted⟩ := by
  intro g hg
  obtain ⟨r, hr, hown⟩ := h g hg
  rw [hr] at hlook
  obtain ⟨x, hx, hforward⟩ := hlook
  exact ⟨x, hx, hforward.owner.trans hown⟩

variable (instant clock) in
/-- A look at any Source. -/
theorem Kept.looked (h : Kept id identity w) (source : Source)
    (hfit : source.id = id → source.identity = identity) :
    Looked identity (w.policy.sources id) ((w.policy.state instant clock source).sources id) := by
  by_cases hid : source.id = id
  · have hsame := hfit hid
    subst hid
    rw [← hsame]
    exact looked_state instant clock fun r hr => (h.identity r hr).trans hsame.symm
  · rw [state_ne instant clock w.policy (fun hne => hid hne.symm)]
    exact looked_refl _ _

variable (instant clock) in
theorem Kept.looked_annotations (h : Kept id identity w) {config : List Source}
    (hfit : Fits id identity (.annotations config)) :
    Looked identity (w.policy.sources id) ((w.policy.annotations instant clock config).1.sources id) ∧
      (w.policy.reconcile config).sources id = w.policy.sources id := by
  obtain ⟨source, hmem, rfl, rfl, hub, hunique⟩ := hfit
  have hkeep := reconcile_sources hmem hub hunique h.identity
  refine ⟨?_, hkeep⟩
  rw [← hkeep]
  apply looked_annotate
  · intro s hs hid
    rw [hunique s hs hid]
  · intro r hr
    rw [hkeep] at hr
    exact h.identity r hr

theorem Kept.step (h : Kept id identity w) {c : Clock × Call} (hfit : Fits id identity c.2) :
    Kept id identity (w.step instant id c) := by
  obtain ⟨clock, call⟩ := c
  cases call with
  | claim source g =>
      have hlook := h.looked instant clock source
        fun hid => (hfit hid).1
      simp only [Watch.step]
      by_cases hadmits : (w.policy.claim instant clock source g).2 = true ∧
          ∃ r, w.policy.record instant clock source = some r
      · obtain ⟨hadmits, r, hr⟩ := hadmits
        obtain ⟨-, -, hpolicy⟩ := claim_admitted instant clock hr hadmits
        rw [hpolicy]
        by_cases hid : source.id = id
        · obtain ⟨hsame, hub⟩ := hfit hid
          rw [record_eq instant clock hub] at hr
          have hkept := h.of_looked w.probe hlook
          subst hid
          constructor
          · intro x hx
            simp only [setSource_same, Option.some.injEq] at hx
            subst hx
            exact hkept.identity r hr
          · have hcounted := hkept.counted
            simp only [hr] at hcounted
            simpa using hcounted
        · have hne : id ≠ source.id := fun hne => hid hne.symm
          apply h.of_looked
          rwa [setSource_ne _ _ hne]
      · have hrefused : (w.policy.claim instant clock source g).2 = false ∨
            w.policy.record instant clock source = none := by
          cases hr : w.policy.record instant clock source with
          | none => exact .inr rfl
          | some r =>
              left
              rw [Bool.eq_false_iff]
              exact fun hadmitted => hadmits ⟨hadmitted, r, hr⟩
        rw [claim_refused instant clock hrefused]
        exact h.of_looked _ hlook
  | release sourceId g =>
      simp only [Watch.step, Policy.release]
      split
      · rename_i r hr
        split
        · by_cases hid : id = sourceId
          · subst hid
            refine ⟨fun x hx => ?_, ?_⟩
            · simp only [setSource_same, Option.some.injEq] at hx
              subst hx
              exact h.identity r hr
            · have hcounted := h.counted
              rw [hr] at hcounted
              simpa using hcounted
          · apply h.of_looked
            rw [setSource_ne _ _ hid]
            exact looked_refl _ _
        · exact ⟨h.identity, h.counted⟩
      · exact ⟨h.identity, h.counted⟩
  | failed source failure =>
      have hlook := h.looked instant clock source
        fun hid => (hfit hid).1
      simp only [Watch.step]
      cases hcount : (w.policy.failed instant clock source failure).2.2 with
      | true =>
          obtain ⟨x, hpolicy, hxi, -, hxf, -⟩ := failed_counted instant clock hcount
          rw [hpolicy]
          by_cases hid : source.id = id
          · subst hid
            refine ⟨fun y hy => ?_, ?_⟩
            · simp only [setSource_same, Option.some.injEq] at hy
              subst hy
              exact hxi.trans (hfit rfl).1
            · simpa using hxf
          · have hsame : (if source.id = id ∧ true = true then some failure.generation
                else w.counted) = w.counted := if_neg fun hboth => hid hboth.1
            rw [hsame]
            apply h.of_looked
            rwa [setSource_ne _ _ fun hne => hid hne.symm]
      | false =>
          have hsame : (if source.id = id ∧ false = true then some failure.generation
              else w.counted) = w.counted := if_neg fun hboth => Bool.false_ne_true hboth.2
          rw [failed_not_counted instant clock hcount, hsame]
          exact h.of_looked _ hlook
  | succeeded source =>
      simp only [Watch.step]
      by_cases hid : source.id = id
      · subst hid
        have hnone := succeeded_same (p := w.policy) instant clock (hfit rfl).2
        refine ⟨fun r hr => ?_, ?_⟩
        · rw [hnone] at hr
          cases hr
        · simp [hnone]
      · rw [if_neg hid, if_neg hid]
        apply h.of_looked
        rw [succeeded_ne instant clock _ fun hne => hid hne.symm]
        exact looked_refl _ _
  | annotations config => exact h.of_looked _ (h.looked_annotations instant clock hfit).1
  | reconcile config =>
      apply h.of_looked
      rw [(h.looked_annotations instant clock hfit).2]
      exact looked_refl _ _

/-- The probe keeps the record as long as no other attempt's failure counts. -/
theorem Held.step (h : Kept id identity w) (hheld : Held id w) {c : Clock × Call}
    (hfit : Fits id identity c.2) (hfair : w.Uncontested id c) : Held id (w.step instant id c) := by
  obtain ⟨clock, call⟩ := c
  cases call with
  | claim source g =>
      have hlook := h.looked instant clock source
        fun hid => (hfit hid).1
      intro probe hprobe
      simp only [Watch.step] at hprobe ⊢
      split at hprobe
      · rename_i hall
        obtain ⟨hid, hadmits, hrecovering⟩ := hall
        obtain ⟨r, hr⟩ := Option.isSome_iff_exists.mp hrecovering
        obtain ⟨-, -, hpolicy⟩ := claim_admitted instant clock hr hadmits
        rw [hpolicy]
        subst hid
        exact ⟨_, setSource_same _ _ _, hprobe⟩
      · rename_i hnot
        obtain ⟨r, hr, hown⟩ := hheld.of_looked w.counted hlook probe hprobe
        by_cases hid : source.id = id
        · have hrecord : w.policy.record instant clock source = some r := by
            rw [record_eq instant clock (hfit hid).2, hid]
            exact hr
          have hrefused : (w.policy.claim instant clock source g).2 = false := by
            rw [Bool.eq_false_iff]
            exact fun hadmits => hnot ⟨hid, hadmits, by rw [hrecord]; rfl⟩
          rw [claim_refused instant clock (.inl hrefused)]
          exact ⟨r, hr, hown⟩
        · have hne : id ≠ source.id := fun hne => hid hne.symm
          refine ⟨r, ?_, hown⟩
          rw [← hr]
          by_cases hadmits : (w.policy.claim instant clock source g).2 = true
          · cases hrecord : w.policy.record instant clock source with
            | none => rw [claim_refused instant clock (.inr hrecord)]
            | some x =>
                obtain ⟨-, -, hpolicy⟩ := claim_admitted instant clock hrecord hadmits
                rw [hpolicy, setSource_ne _ _ hne]
          · rw [claim_refused instant clock (.inl (Bool.eq_false_iff.mpr hadmits))]
  | release sourceId g =>
      intro probe hprobe
      simp only [Watch.step] at hprobe ⊢
      split at hprobe
      · cases hprobe
      · rename_i hnot
        obtain ⟨r, hr, hown⟩ := hheld probe hprobe
        unfold Policy.release
        split
        · rename_i x hx
          split
          · rename_i howner
            by_cases hid : sourceId = id
            · subst hid
              rw [hr] at hx
              cases hx
              exact absurd ⟨rfl, hprobe.trans (hown.symm.trans howner.2)⟩ hnot
            · exact ⟨r, by rw [setSource_ne _ _ fun hne => hid hne.symm, hr], hown⟩
          · exact ⟨r, hr, hown⟩
        · exact ⟨r, hr, hown⟩
  | failed source failure =>
      have hlook := h.looked instant clock source
        fun hid => (hfit hid).1
      intro probe hprobe
      simp only [Watch.step] at hprobe ⊢
      split at hprobe
      · cases hprobe
      · rename_i hnot
        obtain ⟨r, hr, hown⟩ := hheld.of_looked w.counted hlook probe hprobe
        cases hcount : (w.policy.failed instant clock source failure).2.2 with
        | true =>
            obtain ⟨x, hpolicy, -⟩ := failed_counted instant clock hcount
            by_cases hid : source.id = id
            · -- The failure of another attempt is stale, so it cannot count.
              have hother : failure.generation ≠ probe := by
                rintro rfl
                exact hnot ⟨hid, hprobe⟩
              obtain ⟨c, hc, hle⟩ := hfair hid probe hprobe hother
              have hkept := (h.of_looked w.probe hlook).counted
              have hlooked : (w.policy.state instant clock source).sources id = some r := hr
              simp only [hlooked, hc] at hkept
              have hrecord : w.policy.record instant clock source = some r := by
                rw [record_eq instant clock (hfit hid).2, hid]
                exact hr
              rw [failed_stale instant clock hrecord hkept hle] at hcount
              cases hcount
            · exact ⟨r, by rw [hpolicy, setSource_ne _ _ fun hne => hid hne.symm]; exact hr, hown⟩
        | false =>
            rw [failed_not_counted instant clock hcount]
            exact ⟨r, hr, hown⟩
  | succeeded source =>
      intro probe hprobe
      simp only [Watch.step] at hprobe ⊢
      split at hprobe
      · cases hprobe
      · rename_i hid
        obtain ⟨r, hr, hown⟩ := hheld probe hprobe
        exact ⟨r, by rw [succeeded_ne instant clock _ fun hne => hid hne.symm, hr], hown⟩
  | annotations config => exact hheld.of_looked _ (h.looked_annotations instant clock hfit).1
  | reconcile config =>
      have hlook : Looked identity (w.policy.sources id) ((w.policy.reconcile config).sources id) := by
        rw [(h.looked_annotations instant clock hfit).2]
        exact looked_refl _ _
      exact hheld.of_looked _ hlook

/-- Between successes the record stays, and its deadlines never decrease. -/
theorem Kept.forward (h : Kept id identity w) {c : Clock × Call} (hfit : Fits id identity c.2)
    (hc : ∀ source, c.2 = .succeeded source → source.id ≠ id) {r : Recovery}
    (hr : w.policy.sources id = some r) :
    ∃ x, (w.step instant id c).policy.sources id = some x ∧ r.retryAt ≤ x.retryAt ∧
      r.eligibleAt ≤ x.eligibleAt := by
  obtain ⟨clock, call⟩ := c
  have hlooked : ∀ policy : Policy, Looked identity (w.policy.sources id) (policy.sources id) →
      ∃ x, policy.sources id = some x ∧ r.retryAt ≤ x.retryAt ∧ r.eligibleAt ≤ x.eligibleAt := by
    intro policy hlook
    rw [hr] at hlook
    obtain ⟨x, hx, hforward⟩ := hlook
    exact ⟨x, hx, hforward.retry_le, hforward.eligible_le⟩
  cases call with
  | claim source g =>
      obtain ⟨x, hx, hretry, heligible⟩ := hlooked (w.policy.state instant clock source)
        (h.looked instant clock source fun hid => (hfit hid).1)
      simp only [Watch.step]
      by_cases hadmits : (w.policy.claim instant clock source g).2 = true
      · cases hrecord : w.policy.record instant clock source with
        | none =>
            rw [claim_refused instant clock (.inr hrecord)]
            exact ⟨x, hx, hretry, heligible⟩
        | some y =>
            obtain ⟨-, -, hpolicy⟩ := claim_admitted instant clock hrecord hadmits
            rw [hpolicy]
            by_cases hid : source.id = id
            · rw [record_eq instant clock (hfit hid).2, hid, hx] at hrecord
              cases hrecord
              subst hid
              exact ⟨_, setSource_same _ _ _, hretry, heligible⟩
            · exact ⟨x, by rw [setSource_ne _ _ fun hne => hid hne.symm, hx], hretry, heligible⟩
      · rw [claim_refused instant clock (.inl (Bool.eq_false_iff.mpr hadmits))]
        exact ⟨x, hx, hretry, heligible⟩
  | release sourceId g =>
      simp only [Watch.step, Policy.release]
      split
      · rename_i x hx
        split
        · by_cases hid : sourceId = id
          · subst hid
            rw [hr] at hx
            cases hx
            exact ⟨_, setSource_same _ _ _, le_refl _, le_refl _⟩
          · exact ⟨r, by rw [setSource_ne _ _ fun hne => hid hne.symm, hr], le_refl _, le_refl _⟩
        · exact ⟨r, hr, le_refl _, le_refl _⟩
      · exact ⟨r, hr, le_refl _, le_refl _⟩
  | failed source failure =>
      obtain ⟨x, hx, hretry, heligible⟩ := hlooked (w.policy.state instant clock source)
        (h.looked instant clock source fun hid => (hfit hid).1)
      simp only [Watch.step]
      cases hcount : (w.policy.failed instant clock source failure).2.2 with
      | true =>
          obtain ⟨y, hpolicy, -, -, -, hlater⟩ := failed_counted instant clock hcount
          rw [hpolicy]
          by_cases hid : source.id = id
          · have hrecord : w.policy.record instant clock source = some x := by
              rw [record_eq instant clock (hfit hid).2, hid, hx]
            obtain ⟨hretry', heligible'⟩ := hlater x hrecord
            subst hid
            exact ⟨y, setSource_same _ _ _, le_trans hretry hretry', le_trans heligible heligible'⟩
          · exact ⟨x, by rw [setSource_ne _ _ fun hne => hid hne.symm, hx], hretry, heligible⟩
      | false =>
          rw [failed_not_counted instant clock hcount]
          exact ⟨x, hx, hretry, heligible⟩
  | succeeded source =>
      have hid := hc source rfl
      refine ⟨r, ?_, le_refl _, le_refl _⟩
      simp only [Watch.step]
      rw [succeeded_ne instant clock _ hid.symm, hr]
  | annotations config => exact hlooked _ (h.looked_annotations instant clock hfit).1
  | reconcile config =>
      refine ⟨r, ?_, le_refl _, le_refl _⟩
      simp only [Watch.step]
      rw [(h.looked_annotations instant clock hfit).2, hr]

end Step

section Run

variable {instant id} {identity : Identity} {calls : List (Clock × Call)}

theorem kept_run (hfit : ∀ c ∈ calls, Fits id identity c.2) :
    Kept id identity (after (step instant id) start calls) :=
  after_inv_of (Q := fun c => Fits id identity c.2) (step instant id)
    (fun _ _ hc h => h.step hc) (kept_start id identity) hfit

theorem held_run {w : Watch} (h : Kept id identity w) (hheld : Held id w)
    (hfit : ∀ c ∈ calls, Fits id identity c.2)
    (hfair : Along (step instant id) (Uncontested id) w calls) :
    Held id (after (step instant id) w calls) := by
  induction calls generalizing w with
  | nil => exact hheld
  | cons c calls ih =>
      have hc := hfit c List.mem_cons_self
      exact ih (h.step hc) (hheld.step h hc hfair.1) (fun d hd => hfit d (List.mem_cons_of_mem _ hd))
        hfair.2

/-- Recovery over a whole run of calls on a hub Source of one identity. No claim is admitted before
the deadline in force; the deadlines never decrease but by a success; a failure not newer than the
last counted one does not count, and changes nothing but what a look at a later persisted cooldown
changes; and as long as no failure of another attempt counted while a probe was out, no claim is
admitted while a probe is out. -/
theorem run_half_open (hfit : ∀ c ∈ calls, Fits id identity c.2) :
    let w := after (step instant id) start calls
    (∀ clock source g, source.id = id → Fits id identity (.claim source g) →
      (w.policy.claim instant clock source g).2 = true →
      ∀ r, w.policy.sources id = some r ∨ w.policy.record instant clock source = some r →
        r.eligibleAt ≤ clock.monotonic) ∧
    (∀ c : Clock × Call, Fits id identity c.2 →
      (∀ source, c.2 = .succeeded source → source.id ≠ id) →
      ∀ r, w.policy.sources id = some r →
        ∃ x, (w.step instant id c).policy.sources id = some x ∧ r.retryAt ≤ x.retryAt ∧
          r.eligibleAt ≤ x.eligibleAt) ∧
    (∀ clock source failure g, source.id = id → Fits id identity (.failed source failure) →
      w.counted = some g → failure.generation ≤ g →
      (w.policy.failed instant clock source failure).1 = w.policy.state instant clock source ∧
      (w.policy.failed instant clock source failure).2.2 = false ∧
      ∃ r, w.policy.sources id = some r ∧
        ((∀ o, w.policy.retiredCooldowns id = some o → source.cooldownObservation = some o) →
          (∀ persisted, persistedRetry instant source = some persisted → persisted ≤ r.retryAt) →
          w.policy.failed instant clock source failure = (w.policy, r.retryAt, false))) ∧
    (Along (step instant id) (Uncontested id) start calls →
      ∀ clock source g, source.id = id → Fits id identity (.claim source g) →
        (w.policy.claim instant clock source g).2 = true → w.probe = none) := by
  intro w
  have hkept : Kept id identity w := kept_run hfit
  refine ⟨?_, fun c hc hs r hr => hkept.forward hc hs hr, ?_, ?_⟩
  · intro clock source g hid hsource hadmits r hr
    obtain ⟨hsame, hub⟩ := hsource hid
    have hlook := hkept.looked instant clock source fun _ => hsame
    rcases hr with hr | hr
    · rw [hr] at hlook
      obtain ⟨x, hx, hforward⟩ := hlook
      have hrecord : w.policy.record instant clock source = some x := by
        rw [record_eq instant clock hub, hid, hx]
      obtain ⟨-, heligible, -⟩ := claim_admitted instant clock hrecord hadmits
      exact le_trans hforward.eligible_le heligible
    · exact (claim_admitted instant clock hr hadmits).2.1
  · intro clock source failure g hid hsource hcounted hle
    obtain ⟨hsame, hub⟩ := hsource hid
    have hlook := hkept.looked instant clock source fun _ => hsame
    have hlast := hkept.counted
    rw [hcounted] at hlast
    obtain ⟨r, hr, hg⟩ := Option.bind_eq_some_iff.mp hlast
    rw [hr] at hlook
    obtain ⟨x, hx, hforward⟩ := hlook
    have hrecord : w.policy.record instant clock source = some x := by
      rw [record_eq instant clock hub, hid, hx]
    have hstale := failed_stale instant clock hrecord (hforward.failed.trans hg) hle
    rw [hstale]
    refine ⟨rfl, rfl, r, hr, fun hretired hlate => ?_⟩
    have hstate : w.policy.state instant clock source = w.policy := by
      subst hid
      exact state_eq instant clock hr ((hkept.identity r hr).trans hsame.symm) hretired hlate
    rw [hstate] at hx ⊢
    rw [hr] at hx
    cases hx
    rfl
  · intro hfair clock source g hid hsource hadmits
    obtain ⟨hsame, hub⟩ := hsource hid
    have hheld : Held id w := held_run (kept_start id identity) (fun _ hg => by cases hg) hfit hfair
    cases hprobe : w.probe with
    | none => rfl
    | some probe =>
        have hlook := hkept.looked instant clock source
          fun _ => hsame
        obtain ⟨x, hx, hown⟩ := hheld.of_looked w.counted hlook probe hprobe
        have hrecord : w.policy.record instant clock source = some x := by
          rw [record_eq instant clock hub, hid]
          exact hx
        obtain ⟨hfree, -⟩ := claim_admitted instant clock hrecord hadmits
        rw [hown] at hfree
        cases hfree

/-- A hub Source without a persisted cooldown. -/
def sampleSource : Source :=
  ⟨"src_00000001", .apiKey, "openai", .openaiResponses, .hub, none, none, none, .standby, []⟩

def sampleFailure (generation : Nat) : Failure :=
  ⟨.network, generation, none, none, none, none, fun lower _ => lower⟩

/-- Two attempts start while the Source is healthy, the first fails, and a third probes it; then the
second fails late. -/
def lateFailure : List (Clock × Call) :=
  [(⟨0, 0⟩, .claim sampleSource 1), (⟨0, 0⟩, .claim sampleSource 2),
    (⟨1, 1⟩, .failed sampleSource (sampleFailure 1)), (⟨10, 10⟩, .claim sampleSource 3),
    (⟨11, 11⟩, .failed sampleSource (sampleFailure 2))]

/-- The late failure gives the probe away: the third attempt is out, and a fourth is admitted. -/
theorem late_failure_admits :
    (after (step (fun _ => 0) sampleSource.id) start lateFailure).probe = some 3 ∧
      ((after (step (fun _ => 0) sampleSource.id) start lateFailure).policy.claim (fun _ => 0)
        ⟨100, 100⟩ sampleSource 4).2 = true := by
  decide +kernel

/-- Without the late failure the fourth attempt waits for the third. -/
theorem probe_alone :
    (after (step (fun _ => 0) sampleSource.id) start (lateFailure.take 4)).probe = some 3 ∧
      ((after (step (fun _ => 0) sampleSource.id) start (lateFailure.take 4)).policy.claim
        (fun _ => 0) ⟨100, 100⟩ sampleSource 4).2 = false := by
  have hfit : ∀ c ∈ lateFailure.take 4, Fits sampleSource.id sampleSource.identity c.2 := by
    intro c hc
    fin_cases hc <;> exact fun _ => ⟨rfl, rfl⟩
  have hfair : Along (step (fun _ => 0) sampleSource.id) (Uncontested sampleSource.id) start
      (lateFailure.take 4) :=
    ⟨trivial, trivial, fun _ _ hg => (by cases hg), trivial, trivial⟩
  have hprobe : (after (step (fun _ => 0) sampleSource.id) start (lateFailure.take 4)).probe =
      some 3 := by decide +kernel
  refine ⟨hprobe, Bool.eq_false_iff.mpr fun hadmits => ?_⟩
  have hnone := (run_half_open hfit).2.2.2 hfair ⟨100, 100⟩ sampleSource 4 rfl
    (fun _ => ⟨rfl, rfl⟩) hadmits
  rw [hprobe] at hnone
  cases hnone

end Run

end Watch

end Avibe.Hub
