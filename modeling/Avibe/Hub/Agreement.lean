import Avibe.Hub.Resolver

/-!
# The resolver and the recovery policy agree

After `annotations` the record of every hub Source is settled: another look at the same
configuration and instant changes nothing. So what the resolver reads from the note
is what `claim` decides by.
-/

namespace Avibe.Hub

open Machine

namespace Policy

/-! ## Reachable policies -/

variable (instant : String → ℚ)

/-- The policy after one call. -/
def call (p : Policy) : Clock × Call → Policy
  | (clock, .claim source g) => (p.claim instant clock source g).1
  | (_, .release sourceId g) => p.release sourceId g
  | (clock, .failed source failure) => (p.failed instant clock source failure).1
  | (clock, .succeeded source) => (p.succeeded instant clock source).1
  | (clock, .annotations config) => (p.annotations instant clock config).1
  | (_, .reconcile config) => p.reconcile config

/-- No record has the reason that marks a retired cooldown. -/
def Named (p : Policy) : Prop := ∀ id r, p.sources id = some r → r.reason ≠ "recovery"

variable {instant} {p : Policy} {clock : Clock}

theorem Named.setSource (h : p.Named) (id : String) {r : Option Recovery}
    (hr : ∀ x, r = some x → x.reason ≠ "recovery") : (p.setSource id r).Named := by
  intro i x hx
  simp only [Policy.setSource] at hx
  split at hx
  · exact hr x hx
  · exact h i x hx

theorem named_restored {source : Source} {r : Option Recovery}
    (hr : ∀ x, r = some x → x.reason ≠ "recovery") :
    ∀ x, restored instant clock source r = some x → x.reason ≠ "recovery" := by
  intro x hx
  unfold restored at hx
  cases r with
  | none =>
      cases hp : persistedRetry instant source with
      | none =>
          rw [hp] at hx
          cases hx
      | some retryAt =>
          rw [hp] at hx
          cases hx
          dsimp only
          split
          · rename_i key _
            cases key <;> decide
          · decide
  | some r =>
      have hreason := hr r rfl
      cases hp : persistedRetry instant source with
      | none =>
          rw [hp] at hx
          cases hx
          exact hreason
      | some persisted =>
          rw [hp] at hx
          dsimp only at hx
          split at hx <;> cases hx <;> exact hreason

theorem Named.known (h : p.Named) (source : Source) : (p.known source).Named := by
  unfold Policy.known
  split
  · split
    · exact h
    · exact h.setSource _ fun x hx => (by cases hx)
  · exact h

variable (instant clock) in
theorem Named.state (h : p.Named) (source : Source) : (p.state instant clock source).Named := by
  have hknown := h.known source
  unfold Policy.state
  split
  · exact h
  · dsimp only
    split
    · split
      · exact hknown
      · exact Named.setSource hknown _ (named_restored fun x hx => hknown _ x hx)
    · exact Named.setSource hknown _ (named_restored fun x hx => hknown _ x hx)

theorem Named.record (h : p.Named) {source : Source} {r : Recovery}
    (hr : p.record instant clock source = some r) : r.reason ≠ "recovery" := by
  unfold Policy.record at hr
  split at hr
  · cases hr
  · exact h.state instant clock source _ r hr

theorem Named.reconcile (h : p.Named) (config : List Source) : (p.reconcile config).Named := by
  intro id r hr
  exact h id r (Option.filter_eq_some_iff.mp hr).1

theorem Named.annotate (h : p.Named) (config : List Source) :
    (annotate instant clock p config).1.Named := by
  induction config generalizing p with
  | nil => exact h
  | cons source rest ih =>
      have hrest := ih (h.state instant clock source)
      simp only [Policy.annotate]
      split <;> exact hrest

theorem Named.call (h : p.Named) (c : Clock × Call) : (p.call instant c).Named := by
  obtain ⟨clock, call⟩ := c
  cases call with
  | claim source g =>
      have hstate := h.state instant clock source
      simp only [Policy.call, claim]
      split
      · exact hstate
      · rename_i r hr
        split
        · exact hstate
        · have hreason := h.record hr
          exact hstate.setSource _ fun x hx => by
            cases hx
            exact hreason
  | release sourceId g =>
      simp only [Policy.call, release]
      split
      · rename_i r hr
        split
        · exact h.setSource _ fun x hx => by
            cases hx
            exact h sourceId r hr
        · exact h
      · exact h
  | failed source failure =>
      have hstate := h.state instant clock source
      simp only [Policy.call]
      cases hcount : (p.failed instant clock source failure).2.2 with
      | true =>
          obtain ⟨x, hpolicy, hreason⟩ : ∃ x, (p.failed instant clock source failure).1 =
              (p.state instant clock source).setSource source.id (some x) ∧
              x.reason = failure.reason.text := by
            unfold failed at hcount ⊢
            dsimp only at hcount ⊢
            split at hcount
            · cases hcount
            · rename_i hstale
              rw [if_neg hstale]
              exact ⟨_, rfl, rfl⟩
          rw [hpolicy]
          refine hstate.setSource _ fun y hy => ?_
          cases hy
          rw [hreason]
          cases failure.reason <;> decide
      | false =>
          rw [failed_not_counted instant clock hcount]
          exact hstate
  | succeeded source =>
      have hstate := h.state instant clock source
      have hgone := hstate.setSource source.id (r := none) fun x hx => (by cases hx)
      simp only [Policy.call, succeeded]
      split
      · exact hstate
      · split
        · exact hgone
        · exact hgone
  | annotations config => exact (h.reconcile config).annotate config
  | reconcile config => exact h.reconcile config

theorem named_run (calls : List (Clock × Call)) :
    (after (Policy.call instant) Policy.empty calls).Named :=
  after_inv (P := Named) (Policy.call instant) (fun _ c h => h.call c)
    (fun _ _ hr => by cases hr) calls

/-! ## Settled records -/

variable (instant) in
/-- A look at the Source changes nothing. -/
structure Settled (p : Policy) (source : Source) : Prop where
  identity : ∀ r, p.sources source.id = some r → r.identity = source.identity
  retired : ∀ o, p.retiredCooldowns source.id = some o → source.cooldownObservation = some o
  restored : p.retiredCooldowns source.id = none → ∀ persisted,
    persistedRetry instant source = some persisted →
      ∃ r, p.sources source.id = some r ∧ persisted ≤ r.retryAt

theorem state_retired_ne (p : Policy) {source : Source} {id : String} (h : id ≠ source.id) :
    (p.state instant clock source).retiredCooldowns id = p.retiredCooldowns id := by
  have hknown : (p.known source).retiredCooldowns = p.retiredCooldowns := by
    unfold known
    split
    · split <;> rfl
    · rfl
  unfold state
  split
  · rfl
  · dsimp only
    split
    · split
      · rw [hknown]
      · simp [setSource, setRetired, h, hknown]
    · simp [setSource, hknown]

theorem known_identity (p : Policy) (source : Source) :
    ∀ r, (p.known source).sources source.id = some r → r.identity = source.identity := by
  intro r hr
  unfold known at hr
  split at hr
  · rename_i x hx
    split at hr
    · rename_i hi
      rw [hx] at hr
      cases hr
      exact hi
    · simp at hr
  · rename_i hx
    rw [hx] at hr
    cases hr

theorem restored_persisted {source : Source} {r : Option Recovery} {persisted : ℚ}
    (h : persistedRetry instant source = some persisted) :
    ∃ x, Policy.restored instant clock source r = some x ∧ persisted ≤ x.retryAt := by
  cases r with
  | none =>
      unfold Policy.restored
      rw [h]
      exact ⟨_, rfl, le_refl _⟩
  | some r =>
      unfold Policy.restored
      rw [h]
      dsimp only
      split
      · exact ⟨_, rfl, le_refl _⟩
      · rename_i hlt
        exact ⟨r, rfl, not_lt.mp hlt⟩

theorem restored_identity {source : Source} {r : Option Recovery}
    (h : ∀ x, r = some x → x.identity = source.identity) :
    ∀ x, Policy.restored instant clock source r = some x → x.identity = source.identity := by
  intro x hx
  have hlook := looked_restored instant clock source r
  cases r with
  | none => exact (hlook x hx).1
  | some r =>
      obtain ⟨y, hy, hforward⟩ := hlook
      rw [hx] at hy
      cases hy
      exact hforward.identity.trans (h r rfl)

variable (instant clock) in
theorem settled_state (p : Policy) {source : Source} (hub : source.supplyChannel = .hub) :
    Settled instant (p.state instant clock source) source := by
  have hknown := known_identity p source
  unfold state
  rw [if_neg fun hne => hne hub]
  dsimp only
  cases hretired : (p.known source).retiredCooldowns source.id with
  | some o =>
      by_cases ho : some o = source.cooldownObservation
      · simp only [if_pos ho]
        refine ⟨hknown, fun x hx => ?_, fun hnone => ?_⟩
        · rw [hretired] at hx
          rw [← ho, hx]
        · rw [hretired] at hnone
          cases hnone
      · simp only [if_neg ho]
        refine ⟨fun r hr => ?_, fun x hx => ?_, fun _ persisted hp => ?_⟩
        · rw [setSource_same] at hr
          exact restored_identity hknown r hr
        · simp [setSource, setRetired] at hx
        · rw [setSource_same]
          exact restored_persisted hp
  | none =>
      refine ⟨fun r hr => ?_, fun x hx => ?_, fun _ persisted hp => ?_⟩
      · simp only [setSource_same] at hr
        exact restored_identity hknown r hr
      · have hx' : (p.known source).retiredCooldowns source.id = some x := hx
        rw [hretired] at hx'
        cases hx'
      · simp only [setSource_same]
        exact restored_persisted hp

/-- The record of a settled Source is the one that `claim` reads. -/
theorem Settled.record {source : Source} (h : Settled instant p source)
    (hub : source.supplyChannel = .hub) : p.record instant clock source = p.sources source.id := by
  have hknown : p.known source = p := known_eq h.identity
  rw [record_eq instant clock hub]
  unfold state
  rw [if_neg fun hne => hne hub, hknown]
  dsimp only
  cases hretired : p.retiredCooldowns source.id with
  | some o =>
      rw [h.retired o hretired]
      simp
  | none =>
      simp only [setSource_same]
      cases hp : persistedRetry instant source with
      | none =>
          cases hr : p.sources source.id <;> simp [Policy.restored, hp]
      | some persisted =>
          obtain ⟨r, hr, hle⟩ := h.restored hretired persisted hp
          simp [Policy.restored, hp, hr, not_lt.mpr hle]

theorem Settled.of_slot {q : Policy} {source : Source} (h : Settled instant p source)
    (hs : q.sources source.id = p.sources source.id)
    (hr : q.retiredCooldowns source.id = p.retiredCooldowns source.id) : Settled instant q source :=
  ⟨fun r hq => h.identity r (hs ▸ hq), fun o hq => h.retired o (hr ▸ hq), fun hq persisted hp => by
    rw [hs]
    exact h.restored (hr ▸ hq) persisted hp⟩

variable (instant clock) in
theorem annotate_ne {config : List Source} {id : String} (p : Policy)
    (h : id ∉ config.map Source.id) :
    (annotate instant clock p config).1.sources id = p.sources id ∧
      (annotate instant clock p config).1.retiredCooldowns id = p.retiredCooldowns id ∧
      (annotate instant clock p config).2.find? (fun a => a.1 = id) = none := by
  induction config generalizing p with
  | nil => exact ⟨rfl, rfl, rfl⟩
  | cons source rest ih =>
      rw [List.map_cons, List.mem_cons, not_or] at h
      obtain ⟨hs, hr, hf⟩ := ih (p.state instant clock source) h.2
      rw [state_ne instant clock p h.1] at hs
      rw [state_retired_ne p h.1] at hr
      have hne : ¬ source.id = id := fun heq => h.1 heq.symm
      simp only [annotate]
      split
      · exact ⟨hs, hr, by simp [hne, hf]⟩
      · exact ⟨hs, hr, hf⟩

variable (clock) in
theorem annotation_slot {q : Policy} {source : Source}
    (hs : q.sources source.id = p.sources source.id)
    (hr : q.retiredCooldowns source.id = p.retiredCooldowns source.id) :
    annotationOf clock q source = annotationOf clock p source := by
  unfold annotationOf
  rw [hs, hr]

/-- After the annotations every hub Source is settled, and its annotation is the one of its record. -/
theorem annotate_settled {config : List Source} (p : Policy) (hunique : (config.map Source.id).Nodup)
    {source : Source} (hmem : source ∈ config) (hub : source.supplyChannel = .hub) :
    Settled instant (annotate instant clock p config).1 source ∧
      ((annotate instant clock p config).2.find? (fun a => a.1 = source.id)).map Prod.snd =
        annotationOf clock (annotate instant clock p config).1 source := by
  induction config generalizing p with
  | nil => cases hmem
  | cons head rest ih =>
      rw [List.map_cons, List.nodup_cons] at hunique
      rcases List.mem_cons.mp hmem with rfl | hrest
      · obtain ⟨hs, hr, hf⟩ := annotate_ne instant clock
          (p.state instant clock source) hunique.1
        have hsettled := (settled_state instant clock p hub).of_slot hs hr
        have hslot := annotation_slot clock hs hr
        simp only [annotate]
        split
        · rename_i a ha
          refine ⟨hsettled, ?_⟩
          rw [hslot, ha]
          simp
        · rename_i ha
          refine ⟨hsettled, ?_⟩
          rw [hslot, ha, hf]
          rfl
      · have hne : head.id ≠ source.id := fun heq =>
          hunique.1 (heq ▸ List.mem_map_of_mem hrest)
        have hboth := ih (p.state instant clock head) hunique.2 hrest
        simp only [annotate]
        split
        · refine ⟨hboth.1, ?_⟩
          rw [List.find?_cons_of_neg (by simpa using hne)]
          exact hboth.2
        · exact hboth

/-- `claim` on a settled Source. -/
theorem Settled.claim {source : Source} (h : Settled instant p source)
    (hub : source.supplyChannel = .hub) (g : Nat) :
    (p.claim instant clock source g).2 =
      (p.sources source.id).all fun r => r.owner = none && r.eligibleAt ≤ clock.monotonic := by
  unfold Policy.claim
  rw [h.record hub]
  cases hr : p.sources source.id with
  | none => rfl
  | some r =>
      by_cases hno : r.owner ≠ none ∨ clock.monotonic < r.eligibleAt
      · simp only [if_pos hno, Option.all_some]
        rcases hno with hno | hno
        · simp [hno]
        · simp [not_le.mpr hno]
      · simp only [if_neg hno, Option.all_some]
        simp only [not_or, not_not, not_lt] at hno
        simp [hno.1, hno.2]

end Policy

/-! ## One hop -/

open Policy

section Inspect

variable {instant : String → ℚ} {now : Option ℚ} {unavailable : List String} {source : Source}
variable {backend : Backend} {modelId : String} {channel : Option Channel}
variable {live : List (String × Annotation)}

/-- Nothing but recovery can keep the hop from running. -/
structure Open (unavailable : List String) (source : Source) (backend : Backend) (modelId : String)
    (channel : Option Channel) : Prop where
  supply : supplyEligible source backend modelId channel = true
  state : source.state.blocked = false
  structural : structuralBlocker unavailable source backend modelId = false

theorem open_of_persisted
    (h : (persistedLive instant now unavailable source backend modelId channel).runnable = true) :
    Open unavailable source backend modelId channel := by
  simp only [persistedLive, Bool.and_eq_true] at h
  obtain ⟨hsupply, hrun⟩ := h
  have hparts := hsupply
  simp only [supplyEligible, Bool.and_eq_true] at hparts
  simp only [sourceRunnable, Bool.and_eq_true, Bool.or_eq_true, decide_eq_true_eq] at hrun
  refine ⟨hsupply, ?_, ?_⟩
  · rcases hrun.2 with (hs | hs) | hs
    · rw [hs]
      rfl
    · rw [hs]
      rfl
    · unfold sourceRetryReady persistedRetry at hs
      cases hstate : source.state <;> simp_all [SourceState.blocked]
  · simp [structuralBlocker, hparts.1.1, hparts.1.2, hrun.1.2]

/-- A hop that runs is open. -/
theorem open_of_runnable
    (h : (inspectSource instant now unavailable source backend modelId channel live).runnable =
      true) : Open unavailable source backend modelId channel := by
  unfold inspectSource at h
  dsimp only at h
  split at h
  · split at h
    · rename_i hopen
      exact ⟨hopen.1, hopen.2.1, hopen.2.2⟩
    · exact open_of_persisted h
  · exact open_of_persisted h

theorem inspectSource_open (h : Open unavailable source backend modelId channel) :
    inspectSource instant now unavailable source backend modelId channel live =
      match liveAnnotation live source with
      | some note => annotated instant now source note
          (persistedLive instant now unavailable source backend modelId channel)
      | none => persistedLive instant now unavailable source backend modelId channel := by
  unfold inspectSource
  dsimp only
  cases liveAnnotation live source with
  | some note => exact if_pos ⟨h.supply, h.state, h.structural⟩
  | none => rfl

variable (instant now source) in
/-- The hop of a record that is not due does not run. -/
theorem annotated_waiting {note : Annotation} (hreason : note.reason ≠ "recovery")
    (hretry : note.retryAt ≠ none) (persisted : Live) :
    (annotated instant now source note persisted).runnable = false := by
  unfold annotated
  dsimp only
  rw [if_neg hreason]
  cases hr : note.retryAt with
  | none => exact absurd hr hretry
  | some retryAt => rfl

variable (instant now source) in
/-- The hop of a record that is due runs unless an attempt has it. -/
theorem annotated_due (note : Annotation) (hreason : note.reason ≠ "recovery")
    (hretry : note.retryAt = none) (persisted : Live) (hb : persisted.backoff = false) :
    (annotated instant now source note persisted).runnable = !note.inFlight ∧
      (annotated instant now source note persisted).cooldown = false ∧
      (annotated instant now source note persisted).backoff = false ∧
      (annotated instant now source note persisted).recovery =
        some (if note.inFlight then .inFlight else .eligible) := by
  unfold annotated
  dsimp only
  rw [if_neg hreason, hretry]
  refine ⟨rfl, rfl, ?_, rfl⟩
  dsimp only
  split <;> split <;> exact hb

variable (instant now) in
/-- A retired cooldown that the Source still has leaves the hop to run. -/
theorem annotated_retired {note : Annotation} (hreason : note.reason = "recovery")
    (hretired : retiredNow source note = true) (persisted : Live)
    (hc : persisted.cooldown = true) :
    (annotated instant now source note persisted).cooldown = false ∧
      (annotated instant now source note persisted).backoff = persisted.backoff ∧
      (annotated instant now source note persisted).recovery = persisted.recovery := by
  simp [annotated, hreason, hretired, hc]

end Inspect

section Agreement

variable {instant : String → ℚ} {clock : Clock} {p : Policy} {unavailable : List String}
variable {source : Source} {backend : Backend} {modelId : String} {channel : Option Channel}
variable {live : List (String × Annotation)}

/-- What the inspection of an open hop and `claim` read of a settled Source, in one place. -/
theorem agree_open (hnamed : p.Named) (hsettled : Settled instant p source)
    (hub : source.supplyChannel = .hub) (hlive : liveAnnotation live source =
      Policy.annotationOf clock p source) (hopen : Open unavailable source backend modelId channel)
    (g : Nat) :
    let l := inspectSource instant (some clock.now) unavailable source backend modelId channel live
    (l.runnable = true → (p.claim instant clock source g).2 = true) ∧
      ((l.backoff = true ∨ l.cooldown = true ∨ l.recovery = some .inFlight) →
        (p.claim instant clock source g).2 = false ∨
          source.state.isCooldown = true ∧ persistedRetry instant source = none) := by
  dsimp only
  rw [inspectSource_open hopen, hlive, hsettled.claim hub]
  unfold Policy.annotationOf
  rw [if_neg fun hne => hne hub]
  cases hr : p.sources source.id with
  | some r =>
      have hreason := hnamed source.id r hr
      dsimp only [Option.all_some]
      by_cases heligible : r.eligibleAt ≤ clock.monotonic
      · have hzero : max 0 (r.eligibleAt - clock.monotonic) = 0 :=
          max_eq_left (sub_nonpos.mpr heligible)
        simp only [if_pos hzero]
        obtain ⟨hrun, hc, hb, hrec⟩ := annotated_due instant (some clock.now) source
          ⟨r.reason, none, r.owner.isSome,
            (p.retiredCooldowns source.id).map fun o => (o.retryAt, o.detailKey)⟩ hreason rfl
          (persistedLive instant (some clock.now) unavailable source backend modelId channel) rfl
        rw [hrun, hc, hb, hrec]
        cases howner : r.owner <;> simp [heligible]
      · have hpos : max 0 (r.eligibleAt - clock.monotonic) ≠ 0 := fun hzero =>
          heligible (sub_nonpos.mp (max_eq_left_iff.mp hzero))
        simp only [if_neg hpos]
        rw [annotated_waiting instant (some clock.now) source hreason (by simp)]
        simp [heligible]
  | none =>
      dsimp only [Option.all_none]
      refine ⟨fun _ => rfl, fun hblocked => ?_⟩
      cases hretired : p.retiredCooldowns source.id with
      | some o =>
          have hobs := hsettled.retired o hretired
          have hnow : retiredNow source ⟨"recovery", none, false, some (o.retryAt, o.detailKey)⟩ =
              true ∧ source.state.isCooldown = true := by
            unfold Source.cooldownObservation at hobs
            cases hstate : source.state <;> rw [hstate] at hobs <;> cases hobs
            simp [retiredNow, hstate, SourceState.isCooldown]
          obtain ⟨hc, hb, hrec⟩ := annotated_retired instant (some clock.now) rfl hnow.1
            (persistedLive instant (some clock.now) unavailable source backend modelId channel)
            hnow.2
          rw [hretired] at hblocked
          simp only [Option.map_some] at hblocked
          rw [hc, hb, hrec] at hblocked
          simp [persistedLive] at hblocked
      | none =>
          rw [hretired] at hblocked
          simp only [Option.map_none] at hblocked
          have hcooldown : source.state.isCooldown = true := by
            rcases hblocked with hb | hc | hrec
            · cases hb
            · exact hc
            · cases hrec
          refine Or.inr ⟨hcooldown, ?_⟩
          cases hp : persistedRetry instant source with
          | none => rfl
          | some persisted =>
              obtain ⟨r, hsome, -⟩ := hsettled.restored hretired persisted hp
              rw [hr] at hsome
              cases hsome

end Agreement

/-! ## A turn -/

section Turn

variable (claudeModelId : String → Option (String × List Nat × Option Nat))
variable (gptFrom56 : String → Bool) (instant : String → ℚ)

/-- What recovery admission and the configuration say of an inspected hop. -/
structure Agrees (clock : Clock) (p : Policy) (i : Inspection) : Prop where
  admitted : ∀ source g, i.source = some source → source.supplyChannel = .hub →
    i.runnable = true → (p.claim instant clock source g).2 = true
  refused : ∀ source g, i.source = some source → source.supplyChannel = .hub →
    i.temporaryBlocker = true → (p.claim instant clock source g).2 = false ∨
      source.state.isCooldown = true ∧ persistedRetry instant source = none
  clear : i.runnable = true → i.supplyEligible = true ∧ i.structuralBlocker = false ∧
    ∃ source, i.source = some source ∧ source.state.blocked = false

/-- The resolution of a turn says of the effective route what the inspections of its hops say. -/
structure Resolves (hops : List Hop) (inspect : Hop → Inspection) (channel : Option Channel)
    (resolution : TurnResolution) : Prop where
  candidates : resolution.candidateHops = (hops.map inspect).filter Inspection.runnable
  waiting : resolution.supplyStatus = some .waiting → ∀ hop ∈ hops,
    counted channel (inspect hop) = true → (inspect hop).temporaryBlocker = true
  unavailable : resolution.channel = .unavailable ↔ ∀ hop ∈ hops, (inspect hop).runnable = false

variable {now : Option ℚ} {unavailable : List String} {config : Config} {backend : Backend}
variable {model : String} {channel : Option Channel} {live : List (String × Annotation)}

theorem inspectExactHop_source {hop : Option Hop} {source : Source}
    (h : (inspectExactHop instant now unavailable config backend model hop channel live).source =
      some source) :
    ∃ exact : Hop, hop = some exact ∧ source ∈ config.sources ∧
      (inspectExactHop instant now unavailable config backend model hop channel live).supplyEligible =
        supplyEligible source backend exact.modelId channel ∧
      (inspectExactHop instant now unavailable config backend model hop channel
        live).structuralBlocker = structuralBlocker unavailable source backend exact.modelId ∧
      let l := inspectSource instant now unavailable source backend exact.modelId channel live
      let i := inspectExactHop instant now unavailable config backend model hop channel live
      i.runnable = l.runnable ∧ i.backoff = l.backoff ∧ i.cooldown = l.cooldown ∧
        i.recovery = l.recovery := by
  cases hop with
  | none => cases h
  | some hop =>
      simp only [inspectExactHop] at h ⊢
      cases hfind : config.sources.find? fun s => s.id = hop.sourceId with
      | none =>
          rw [hfind] at h
          cases h
      | some found =>
          rw [hfind] at h
          cases h
          exact ⟨hop, rfl, List.mem_of_find?_eq_some hfind, rfl, rfl, rfl, rfl, rfl, rfl⟩

/-- An inspection that runs has a Source. -/
theorem inspectExactHop_runnable {hop : Option Hop}
    (h : (inspectExactHop instant now unavailable config backend model hop channel live).runnable =
      true) :
    ∃ source, (inspectExactHop instant now unavailable config backend model hop channel
      live).source = some source := by
  cases hop with
  | none => cases h
  | some hop =>
      simp only [inspectExactHop] at h ⊢
      cases hfind : config.sources.find? fun s => s.id = hop.sourceId with
      | none =>
          rw [hfind] at h
          cases h
      | some found => exact ⟨found, rfl⟩

theorem liveAnnotation_annotations (p : Policy) (clock : Clock) {source : Source}
    (hmem : source ∈ config.sources) (hub : source.supplyChannel = .hub) :
    Settled instant (p.annotations instant clock config.sources).1 source ∧
      liveAnnotation (p.annotations instant clock config.sources).2 source =
        Policy.annotationOf clock (p.annotations instant clock config.sources).1 source := by
  obtain ⟨hsettled, hlive⟩ := annotate_settled (p.reconcile config.sources) config.unique hmem hub
  refine ⟨hsettled, ?_⟩
  unfold liveAnnotation
  rw [if_pos hub]
  exact hlive

/-- Every hop inspected with the annotations of a reachable policy agrees with that policy. -/
theorem agrees_annotations (calls : List (Clock × Call)) (clock : Clock) (hop : Option Hop) :
    let out := (after (Policy.call instant) Policy.empty calls).annotations instant clock
      config.sources
    Agrees instant clock out.1 (inspectExactHop instant (some clock.now) unavailable config backend
      model hop channel out.2) := by
  dsimp only
  have hnamed : ((after (Policy.call instant) Policy.empty calls).annotations instant clock
      config.sources).1.Named := (named_run calls).call (clock, .annotations config.sources)
  refine ⟨fun source g hsource hub hrun => ?_, fun source g hsource hub hblocked => ?_,
    fun hrun => ?_⟩
  · obtain ⟨exact, -, hmem, -, -, hrunnable, -⟩ := inspectExactHop_source instant hsource
    obtain ⟨hsettled, hlive⟩ := liveAnnotation_annotations instant
      (after (Policy.call instant) Policy.empty calls) clock hmem hub
    rw [hrunnable] at hrun
    exact (agree_open hnamed hsettled hub hlive (open_of_runnable hrun) g).1 hrun
  · obtain ⟨exact, -, hmem, hsupply, hstructural, -, hb, hc, hr⟩ :=
      inspectExactHop_source instant hsource
    obtain ⟨hsettled, hlive⟩ := liveAnnotation_annotations instant
      (after (Policy.call instant) Policy.empty calls) clock hmem hub
    simp only [Inspection.temporaryBlocker, hsource, hsupply, hstructural, hb, hc, hr,
      Option.any_some, Bool.and_eq_true, Bool.or_eq_true, Bool.not_eq_true', decide_eq_true_eq,
      or_assoc] at hblocked
    obtain ⟨⟨⟨hstate, helig⟩, hclear⟩, hlater⟩ := hblocked
    exact (agree_open hnamed hsettled hub hlive ⟨helig, hstate, hclear⟩ g).2 hlater
  · obtain ⟨source, hsource⟩ := inspectExactHop_runnable instant hrun
    obtain ⟨exact, -, -, hsupply, hstructural, hrunnable, -⟩ := inspectExactHop_source instant hsource
    rw [hrunnable] at hrun
    have hopen := open_of_runnable hrun
    rw [hsupply, hstructural]
    exact ⟨hopen.supply, hopen.structural, source, hsource, hopen.state⟩

/-- No route has the empty name. -/
theorem effectiveModelRoute_empty (config : Config) (backend : Backend) :
    (effectiveModelRoute claudeModelId config backend "").hops = [] := by
  have hnone : (config.agents backend).override "" = none := by
    have hfind : (config.agents backend).routes.find? (fun r => r.1 = "") = none := by
      rw [List.find?_eq_none]
      intro route hroute
      simpa using (config.agents backend).keys route hroute
    unfold Agent.override
    rw [hfind]
    rfl
  unfold effectiveModelRoute
  dsimp only
  rw [hnone]
  simp

theorem supplyStatus_waiting {inspections : List Inspection}
    (h : supplyStatus inspections = .waiting) : ∀ i ∈ inspections, i.temporaryBlocker = true := by
  unfold supplyStatus at h
  split at h
  · cases h
  · split at h
    · split at h <;> cases h
    · split at h
      · rename_i hall
        exact List.all_eq_true.mp hall
      · cases h

/-- A resolution outside direct mode is what the inspections of the effective route say. -/
theorem resolves_hub (hmode : (config.agents backend).mode ≠ .direct) :
    Resolves (effectiveModelRoute claudeModelId config backend model).hops
      (fun hop => inspectExactHop instant now unavailable config backend model (some hop) channel live)
      channel
      (resolveModelHubTurn claudeModelId gptFrom56 instant config backend model now unavailable
        channel live) := by
  unfold resolveModelHubTurn
  rw [if_neg hmode]
  split
  · rename_i hempty
    rw [hempty.2, effectiveModelRoute_empty]
    exact ⟨rfl, fun h => (by cases h), by simp⟩
  · dsimp only
    set hops := (effectiveModelRoute claudeModelId config backend model).hops
    set inspect := fun hop =>
      inspectExactHop instant now unavailable config backend model (some hop) channel live
    have hcandidates : ((hops.map inspect).filter fun i => i.source.isSome).filter
        Inspection.runnable = (hops.map inspect).filter Inspection.runnable := by
      rw [List.filter_filter]
      refine List.filter_congr fun i hi => ?_
      obtain ⟨hop, -, rfl⟩ := List.mem_map.mp hi
      cases hrun : (inspect hop).runnable with
      | false => rfl
      | true =>
          obtain ⟨source, hsource⟩ := inspectExactHop_runnable instant hrun
          have : (inspect hop).source.isSome = true := by
            rw [hsource]
            rfl
          simp [this]
    rw [hcandidates]
    refine ⟨rfl, fun h hop hhop hcounted => ?_, ?_⟩
    · refine supplyStatus_waiting (Option.some.inj h) _ ?_
      exact List.mem_filter.mpr ⟨List.mem_map_of_mem hhop, hcounted⟩
    · cases hlist : (hops.map inspect).filter Inspection.runnable with
      | nil =>
          rw [List.filter_eq_nil_iff] at hlist
          simp only [List.head?_nil, Option.bind_none, true_iff]
          intro hop hhop
          simpa using hlist (inspect hop) (List.mem_map_of_mem hhop)
      | cons first rest =>
          have hfirst : first ∈ (hops.map inspect).filter Inspection.runnable := by
            rw [hlist]
            exact List.mem_cons_self
          obtain ⟨hmem, hrun⟩ := List.mem_filter.mp hfirst
          obtain ⟨hop, hhop, rfl⟩ := List.mem_map.mp hmem
          obtain ⟨source, hsource⟩ := inspectExactHop_runnable instant hrun
          have hsource' : (inspect hop).source = some source := hsource
          simp only [List.head?_cons, Option.bind_some, hsource', reduceCtorEq, false_iff,
            not_forall, Bool.not_eq_false]
          exact ⟨hop, hhop, hrun⟩

/-- The resolver and recovery admission agree in every state that the policy can reach. -/
theorem resolver_agrees (calls : List (Clock × Call)) (clock : Clock) (config : Config)
    (backend : Backend) (model : String) (unavailable : List String) (channel : Option Channel) :
    let out := (after (Policy.call instant) Policy.empty calls).annotations instant clock
      config.sources
    let inspect := fun hop => inspectExactHop instant (some clock.now) unavailable config backend
      model hop channel out.2
    (∀ hop, Agrees instant clock out.1 (inspect hop)) ∧
      ((config.agents backend).mode ≠ .direct →
        Resolves (effectiveModelRoute claudeModelId config backend model).hops
          (fun hop => inspect (some hop)) channel
          (resolveModelHubTurn claudeModelId gptFrom56 instant config backend model (some clock.now)
            unavailable channel out.2)) :=
  ⟨fun hop => agrees_annotations instant calls clock hop,
    fun hmode => resolves_hub claudeModelId gptFrom56 instant hmode⟩

/-- An agent with one route, to a Source that is active. -/
def oneRoute (mode : Mode) : Config where
  sources := [⟨"s", .apiKey, "openai", .openaiChat, .hub, none, none, none, .active, []⟩]
  agents := fun _ =>
    { mode, order := [], routes := [("m", ⟨[⟨"s", "m"⟩], none⟩)], models := [],
      keys := by simp }
  unique := by simp

def activeSource (id : String) : Source :=
  ⟨id, .apiKey, "openai", .openaiChat, .hub, none, none, none, .active, []⟩

/-- An agent with a route of two hops, to Sources that are active. -/
def twoHops : Config where
  sources := [activeSource "a", activeSource "b"]
  agents := fun _ =>
    { mode := .hub, order := [], routes := [("m", ⟨[⟨"a", "m"⟩, ⟨"b", "m"⟩], none⟩)], models := []
      keys := by simp }
  unique := by decide

/-- A request to the first Source failed. -/
def failedCalls : List (Clock × Call) :=
  [(⟨0, 0⟩, .failed (activeSource "a") ⟨.serverError, 1, none, none, none, none, fun low _ => low⟩)]

/-- After the failure the second hop is the candidate, and the policy refuses the first Source and admits
the second one. -/
theorem resolver_agrees_failed :
    let out := (after (Policy.call fun _ => 0) Policy.empty failedCalls).annotations (fun _ => 0) ⟨1, 1⟩
      twoHops.sources
    (resolveModelHubTurn (fun _ => none) (fun _ => false) (fun _ => 0) twoHops .vibey "m" (some 1) []
        none out.2).candidateHops =
      [inspectExactHop (fun _ => 0) (some 1) [] twoHops .vibey "m" (some ⟨"b", "m"⟩) none out.2] ∧
    (∀ g, (out.1.claim (fun _ => 0) ⟨1, 1⟩ (activeSource "a") g).2 = false) ∧
    ∀ g, (out.1.claim (fun _ => 0) ⟨1, 1⟩ (activeSource "b") g).2 = true := by
  obtain ⟨hagrees, hresolves⟩ := resolver_agrees (fun _ => none) (fun _ => false) (fun _ => 0)
    failedCalls ⟨1, 1⟩ twoHops .vibey "m" [] none
  have hmode : (twoHops.agents .vibey).mode ≠ .direct := by decide
  refine ⟨(hresolves hmode).candidates.trans (by decide +kernel), fun g => ?_, fun g => ?_⟩
  · rcases (hagrees (some ⟨"a", "m"⟩)).refused (activeSource "a") g (by decide +kernel) rfl
      (by decide +kernel) with h | ⟨h, -⟩
    · exact h
    · cases h
  · exact (hagrees (some ⟨"b", "m"⟩)).admitted (activeSource "b") g (by decide +kernel) rfl
      (by decide +kernel)

/-- An agent in direct mode has no candidates, also where a hop of its route would run. -/
theorem direct_mode_unresolved :
    ¬ Resolves (effectiveModelRoute (fun _ => none) (oneRoute .direct) .vibey "m").hops
      (fun hop => inspectExactHop (fun _ => 0) (some 0) [] (oneRoute .direct) .vibey "m" (some hop)
        none (Policy.empty.annotations (fun _ => 0) ⟨0, 0⟩ (oneRoute .direct).sources).2) none
      (resolveModelHubTurn (fun _ => none) (fun _ => false) (fun _ => 0) (oneRoute .direct) .vibey
        "m" (some 0) [] none
        (Policy.empty.annotations (fun _ => 0) ⟨0, 0⟩ (oneRoute .direct).sources).2) := by
  intro h
  have hcandidates := h.candidates
  revert hcandidates
  decide +kernel

end Turn

end Avibe.Hub
