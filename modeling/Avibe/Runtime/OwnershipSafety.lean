import Avibe.Runtime.Ownership

/-!
# Reclamation fails closed

A fact that was noted is never lost (`Grows`), and the disposition of a target is at least as bad
as each fact that is held for it or for one of its Sessions. So a target that does not block
reclamation was given no row that notes a blocking fact: each loop of `derive` is one fold, and
what one of its rows notes is still held at the end (`foldlM_notes`).

The snapshots of several targets are those of each target alone: the rows that one of them is
given are the same whatever else is read (`rowsOf_single`).
-/

namespace Avibe.Ownership

open Checked
open Deliveries (OrderingRole)
open Transcript (strip)

/-! ## Dispositions -/

theorem blocks_iff (d : Disposition) : d.blocks = true ↔ 2 ≤ d.priority := by
  cases d <;> decide

theorem priority_le_foldl (ds : List Disposition) (best : Disposition) :
    best.priority ≤
      (ds.foldl (fun best d => if best.priority < d.priority then d else best) best).priority ∧
    ∀ d ∈ ds, d.priority ≤
      (ds.foldl (fun best d => if best.priority < d.priority then d else best) best).priority := by
  induction ds generalizing best with
  | nil => exact ⟨Nat.le_refl _, fun d hd => by cases hd⟩
  | cons e ds ih =>
      rw [List.foldl_cons, List.forall_mem_cons]
      obtain ⟨hbest, hall⟩ := ih (if best.priority < e.priority then e else best)
      have hboth : best.priority ≤ (if best.priority < e.priority then e else best).priority ∧
          e.priority ≤ (if best.priority < e.priority then e else best).priority := by
        split <;> omega
      exact ⟨le_trans hboth.1 hbest, le_trans hboth.2 hbest, hall⟩

theorem priority_le_safest {ds : List Disposition} {d : Disposition} (h : d ∈ ds) :
    d.priority ≤ (safest ds).priority := by
  cases ds with
  | nil => cases h
  | cons e ds =>
      obtain ⟨hbest, hall⟩ := priority_le_foldl ds e
      rcases List.mem_cons.mp h with rfl | h
      · exact hbest
      · exact hall d h

/-- One blocking disposition is enough. -/
theorem safest_blocks {ds : List Disposition} {d : Disposition} (h : d ∈ ds) (hd : d.blocks = true) :
    (safest ds).blocks = true := by
  rw [blocks_iff] at hd ⊢
  exact le_trans hd (priority_le_safest h)

/-! ## Facts that are held -/

/-- The fact is noted for the target or for one of its Sessions. -/
def Derivation.Held (d : Derivation) (fact : Disposition) : Prop :=
  fact ∈ d.targetFacts ∨ ∃ e ∈ d.sessions, fact ∈ e.2.facts

/-- A fact that blocks is noted. -/
def Derivation.Blocked (d : Derivation) : Prop := ∃ fact, d.Held fact ∧ fact.blocks = true

theorem Derivation.Blocked.snapshot {t : Target} {d : Derivation} (h : d.Blocked) :
    (d.snapshot t).blocksReclamation = true := by
  obtain ⟨fact, hheld, hblocks⟩ := h
  unfold TargetSnapshot.blocksReclamation Derivation.snapshot
  dsimp only
  rcases hheld with hheld | ⟨e, he, hfact⟩
  · exact safest_blocks (List.mem_append_left _ hheld) hblocks
  · refine safest_blocks (List.mem_append_right _ ?_) (safest_blocks hfact hblocks)
    rw [List.map_map]
    exact List.mem_map_of_mem he

/-- Nothing that was noted is lost, and the Sessions stay the same. -/
structure Grows (d d' : Derivation) : Prop where
  held : ∀ fact, d.Held fact → d'.Held fact
  knows : ∀ sessionId, d'.knows sessionId = d.knows sessionId

theorem Grows.refl (d : Derivation) : Grows d d := ⟨fun _ h => h, fun _ => rfl⟩

theorem Grows.trans {a b c : Derivation} (h : Grows a b) (h' : Grows b c) : Grows a c :=
  ⟨fun fact hheld => h'.held fact (h.held fact hheld), fun id => (h'.knows id).trans (h.knows id)⟩

theorem Grows.blocked {d d' : Derivation} (h : Grows d d') (hd : d.Blocked) : d'.Blocked := by
  obtain ⟨fact, hheld, hblocks⟩ := hd
  exact ⟨fact, h.held fact hheld, hblocks⟩

section Noting

variable {d d' : Derivation} {sessionId reason : String} {fact : Disposition} {keep : Notes → Notes}

theorem grows_note (h : d.note sessionId fact reason keep = .ok d')
    (hkeep : ∀ n, (keep n).facts = n.facts) : Grows d d' ∧ d'.Held fact := by
  obtain ⟨notes, hnotes, h⟩ := bind_ok h
  have hget := found_ok hnotes
  obtain rfl := pure_ok h
  refine ⟨⟨fun x hx => ?_, fun id => ?_⟩, .inr ⟨_, Dict.mem_set_self _ _ _, ?_⟩⟩
  · rcases hx with hx | ⟨e, he, hx⟩
    · exact .inl hx
    · rcases Dict.mem_set_of_mem (keep { notes with
        facts := notes.facts ++ [fact], reasons := notes.reasons ++ [reason] }) he with hmem | hsame
      · exact .inr ⟨e, hmem, hx⟩
      · rw [hget] at hsame
        refine .inr ⟨_, Dict.mem_set_self _ _ _, ?_⟩
        rw [hkeep, Option.some.inj hsame]
        exact List.mem_append_left _ hx
  · unfold Derivation.knows
    rw [Dict.get_set]
    split
    · rename_i hid
      rw [hid, hget]
      rfl
    · rfl
  · rw [hkeep]
    exact List.mem_append_right _ List.mem_cons_self

theorem grows_target (hsessions : d'.sessions = d.sessions)
    (hfacts : d'.targetFacts = d.targetFacts ++ [fact]) : Grows d d' ∧ d'.Held fact := by
  refine ⟨⟨fun x hx => ?_, fun id => ?_⟩, .inl ?_⟩
  · unfold Derivation.Held at hx ⊢
    rw [hsessions, hfacts]
    exact hx.imp_left fun hx => List.mem_append_left _ hx
  · rw [Derivation.knows, Derivation.knows, hsessions]
  · rw [hfacts]
    exact List.mem_append_right _ List.mem_cons_self

/-- A step that notes a fact for the target. -/
theorem target_ok {x : Derivation} {bad : Prop} (hok : (Except.ok x : Except String Derivation) = .ok d')
    (hsessions : x.sessions = d.sessions) (hfacts : x.targetFacts = d.targetFacts ++ [fact])
    (hblocks : bad → fact.blocks = true) : Grows d d' ∧ (bad → d'.Blocked) := by
  obtain rfl := Except.ok.inj hok
  obtain ⟨hgrows, hheld⟩ := grows_target hsessions hfacts
  exact ⟨hgrows, fun hbad => ⟨fact, hheld, hblocks hbad⟩⟩

/-- A step that notes a fact for a Session. -/
theorem note_ok {bad : Prop} (h : d.note sessionId fact reason keep = .ok d')
    (hkeep : ∀ n, (keep n).facts = n.facts) (hblocks : bad → fact.blocks = true) :
    Grows d d' ∧ (bad → d'.Blocked) := by
  obtain ⟨hgrows, hheld⟩ := grows_note h hkeep
  exact ⟨hgrows, fun hbad => ⟨fact, hheld, hblocks hbad⟩⟩

end Noting

/-- A loop whose steps note a blocking fact for each bad row has noted one when there was a bad
row. -/
theorem foldlM_notes {ρ : Type} {step : Derivation → ρ → Except String Derivation}
    {bad : (String → Bool) → ρ → Prop}
    (hstep : ∀ d row d', step d row = .ok d' → Grows d d' ∧ (bad d.knows row → d'.Blocked))
    {rows : List ρ} {d d' : Derivation} (h : rows.foldlM step d = .ok d') :
    Grows d d' ∧ ∀ row ∈ rows, bad d.knows row → d'.Blocked := by
  induction rows generalizing d with
  | nil =>
      obtain rfl := pure_ok h
      exact ⟨Grows.refl d, fun row hrow => by cases hrow⟩
  | cons row rows ih =>
      rw [List.foldlM_cons] at h
      obtain ⟨m, hm, h⟩ := bind_ok h
      obtain ⟨hgrows, hbad⟩ := hstep d row m hm
      obtain ⟨hrest, hrows⟩ := ih h
      have hknows : m.knows = d.knows := funext hgrows.knows
      refine ⟨hgrows.trans hrest, fun r hr hr' => ?_⟩
      rcases List.mem_cons.mp hr with rfl | hr
      · exact hrest.blocked (hbad hr')
      · exact hrows r hr (by rwa [hknows])

/-! ## What each row notes -/

/-- The Delivery is in a state that a Turn owns, or in a fence state. -/
def OwnedDelivery (_ : String → Bool) (row : DeliveryRow) : Prop :=
  orderingFor (pyStr row.state) = some .turnOwned ∨ orderingFor (pyStr row.state) = some .fence

theorem deliveryStep_notes (waiting : List (String × TurnRow)) (d : Derivation) (row : DeliveryRow)
    (d' : Derivation) (h : deliveryStep waiting d row = .ok d') :
    Grows d d' ∧ (OwnedDelivery d.knows row → d'.Blocked) := by
  unfold deliveryStep at h
  dsimp only at h
  split at h
  · split at h
    · obtain ⟨m, hm, h⟩ := bind_ok h
      obtain rfl := pure_ok h
      obtain ⟨hgrows, hheld⟩ := grows_note hm fun _ => rfl
      exact ⟨⟨hgrows.held, hgrows.knows⟩, fun _ => ⟨_, hheld, rfl⟩⟩
    · exact note_ok h (fun _ => rfl) fun _ => rfl
  · refine note_ok h (fun _ => rfl) fun howned => ?_
    unfold deliveryDisposition
    rcases howned with howned | howned <;> rw [howned] <;> rfl

/-- Every Turn that `derive` is given is one that has not ended. -/
def OwnedTurn (_ : String → Bool) (_ : TurnRow) : Prop := True

theorem turnStep_notes (d : Derivation) (row : TurnRow) (d' : Derivation)
    (h : turnStep d row = .ok d') : Grows d d' ∧ (OwnedTurn d.knows row → d'.Blocked) := by
  refine note_ok h (fun _ => rfl) fun _ => ?_
  unfold turnDisposition
  dsimp only
  repeat' split
  all_goals rfl

/-- The Activity is active, and carries a runtime key of the target, a Session of it, or a runtime
key that it does not know. -/
def OwnedActivity (t : Target) (knows : String → Bool) (row : ActivityRow) : Prop :=
  ∃ activity, row.payload = .object activePhase (some activity) ∧
    (activity.runtimeKey ∈ t.activityKeys ∨ knows activity.sessionId = true ∨
      activity.runtimeKey ∉ t.allActivityKeys)

theorem activityStep_notes (t : Target) (d : Derivation) (row : ActivityRow) (d' : Derivation)
    (h : activityStep t d row = .ok d') :
    Grows d d' ∧ (OwnedActivity t d.knows row → d'.Blocked) := by
  unfold activityStep at h
  split at h
  · exact target_ok h rfl rfl fun _ => rfl
  · exact target_ok h rfl rfl fun _ => rfl
  · exact target_ok h rfl rfl fun _ => rfl
  · rename_i phase activity hpayload
    dsimp only at h
    -- A skipped row is not active, or is neither the target's nor unknown to it.
    have hskip : (phase ≠ activePhase ∨ (activity.runtimeKey ∉ t.activityKeys ∧
        d.knows activity.sessionId ≠ true ∧ activity.runtimeKey ∈ t.allActivityKeys)) →
        (Except.ok d : Except String Derivation) = .ok d' → Grows d d' ∧ (OwnedActivity t d.knows row → d'.Blocked) := by
      intro hout hok
      obtain rfl := Except.ok.inj hok
      refine ⟨Grows.refl d, ?_⟩
      rintro ⟨a, ha, howned⟩
      rw [hpayload] at ha
      cases ha
      rcases hout with hphase | ⟨hkey, hsession, hknown⟩
      · exact (hphase rfl).elim
      · rcases howned with howned | howned | howned
        · exact (hkey howned).elim
        · exact (hsession howned).elim
        · exact (howned hknown).elim
    split at h
    · rename_i hphase
      split at h
      · exact hskip (.inl fun heq => hphase (by rw [heq]; exact List.mem_cons_self)) h
      · exact target_ok h rfl rfl fun _ => rfl
    · split at h
      · rename_i hphase
        exact hskip (.inl hphase) h
      · split at h
        · exact target_ok h rfl rfl fun _ => rfl
        · rename_i hmapped
          split at h
          · rename_i hother
            refine hskip (.inr ⟨hother.1, hother.2.2, ?_⟩) h
            by_contra hkey
            exact hmapped ⟨hother.2.1, hkey⟩
          · split at h
            · split at h
              · exact target_ok h rfl rfl fun _ => rfl
              · exact note_ok h (fun _ => rfl) fun _ => rfl
            · exact target_ok h rfl rfl fun _ => rfl

theorem runDisposition_blocks {row : RunRow} (h : normalizeRunStatus row.status ≠ "queued") :
    (runDisposition row).blocks = true := by
  unfold runDisposition
  dsimp only
  rw [if_neg h]
  repeat' split
  all_goals rfl

/-- The run belongs to a Session of the target, or has one of its route keys and does not belong
to another Session of the backend. -/
def RunOfTarget (t : Target) (knows : String → Bool) (row : JoinedRun) : Prop :=
  let sessionId := orEmpty row.run.sessionId
  (sessionId ≠ "" ∧ knows sessionId = true) ∨
    (orEmpty row.run.legacySessionKey ∈ t.routeKeys ∧
      ¬ (sessionId ≠ "" ∧ strip (orEmpty row.resolvedSessionBackend) = t.backend))

/-- A run of the target that no Delivery represents and that is not queued. -/
def OwnedRun (t : Target) (delivered : List String) (knows : String → Bool) (row : JoinedRun) :
    Prop :=
  row.represented delivered = false ∧ normalizeRunStatus row.run.status ≠ "queued" ∧
    RunOfTarget t knows row

theorem detachedStep_notes {t : Target} {d : Derivation} {row : JoinedRun} {delivered : List String}
    (hsession : orEmpty row.run.sessionId ≠ "") (hknows : d.knows (orEmpty row.run.sessionId) ≠ true)
    {d' : Derivation} (h : (Except.ok (detachedStep t d row) : Except String Derivation) = .ok d') :
    Grows d d' ∧ (OwnedRun t delivered d.knows row → d'.Blocked) := by
  have hroute : RunOfTarget t d.knows row → orEmpty row.run.legacySessionKey ∈ t.routeKeys ∧
      ¬ (orEmpty row.run.sessionId ≠ "" ∧ strip (orEmpty row.resolvedSessionBackend) = t.backend) :=
    fun howned => howned.resolve_left fun hown => hknows hown.2
  have hskip : ¬ RunOfTarget t d.knows row → (Except.ok d : Except String Derivation) = .ok d' →
      Grows d d' ∧ (OwnedRun t delivered d.knows row → d'.Blocked) := by
    intro hnot hok
    obtain rfl := Except.ok.inj hok
    exact ⟨Grows.refl d, fun howned => (hnot howned.2.2).elim⟩
  unfold detachedStep at h
  dsimp only at h
  split at h
  · rename_i hsame
    exact hskip (fun howned => (hroute howned).2 ⟨hsession, hsame⟩) h
  · split at h
    · exact target_ok h rfl rfl fun howned => runDisposition_blocks howned.2.1
    · split at h
      · exact target_ok h rfl rfl fun howned => runDisposition_blocks howned.2.1
      · rename_i hkey
        split at h
        · exact target_ok h rfl rfl fun _ => rfl
        · exact hskip (fun howned => hkey (hroute howned).1) h

theorem sessionlessStep_notes {t : Target} {routes : Routes} {d d' : Derivation} {row : JoinedRun}
    {delivered : List String} (hsession : orEmpty row.run.sessionId = "")
    (h : sessionlessStep t routes d row = .ok d') :
    Grows d d' ∧ (OwnedRun t delivered d.knows row → d'.Blocked) := by
  unfold sessionlessStep at h
  dsimp only at h
  split at h
  · exact target_ok h rfl rfl fun howned => runDisposition_blocks howned.2.1
  · split at h
    · split at h
      · exact target_ok h rfl rfl fun _ => rfl
      · split at h
        · obtain ⟨hgrows, hheld⟩ := grows_note h fun _ => rfl
          exact ⟨⟨hgrows.held, hgrows.knows⟩,
            fun howned => ⟨_, hheld, runDisposition_blocks howned.2.1⟩⟩
        · exact target_ok h rfl rfl fun howned => runDisposition_blocks howned.2.1
    · rename_i hkey
      split at h
      · obtain rfl := Except.ok.inj h
        refine ⟨Grows.refl d, fun howned => ?_⟩
        rcases howned.2.2 with hown | hroute
        · exact (hown.1 hsession).elim
        · exact (hkey hroute.1).elim
      · exact target_ok h rfl rfl fun _ => rfl

theorem runStep_notes (t : Target) (routes : Routes) (delivered : List String) (d : Derivation)
    (row : JoinedRun) (d' : Derivation) (h : runStep t routes delivered d row = .ok d') :
    Grows d d' ∧ (OwnedRun t delivered d.knows row → d'.Blocked) := by
  unfold runStep at h
  dsimp only at h
  split at h
  · rename_i hrepresented
    obtain rfl := Except.ok.inj h
    refine ⟨Grows.refl d, fun howned => ?_⟩
    rw [howned.1] at hrepresented
    cases hrepresented
  · split at h
    · rename_i hsession
      split at h
      · rename_i hknows
        exact detachedStep_notes hsession hknows h
      · exact note_ok h (fun _ => rfl) fun howned => runDisposition_blocks howned.2.1
    · rename_i hsession
      exact sessionlessStep_notes (not_not.mp hsession) h

/-! ## The whole derivation -/

theorem knows_start (rows : Rows) (sessionId : String) :
    rows.start.knows sessionId = true ↔ sessionId ∈ rows.sessions.map (·.id) := by
  have hget : ∀ ids : List String, (Dict.get (ids.map fun id => (id, ({} : Notes))) sessionId).isSome =
      decide (sessionId ∈ ids) := by
    intro ids
    induction ids with
    | nil => rfl
    | cons id ids ih =>
        rw [List.map_cons, Dict.get_cons]
        by_cases hid : id = sessionId
        · simp [hid]
        · rw [if_neg hid, ih]
          simp [Ne.symm hid]
  unfold Derivation.knows Rows.start
  dsimp only
  rw [hget, decide_eq_true_eq, List.mem_eraseDups]

/-- A target that does not block reclamation was given no row that owns its resource. -/
theorem derive_free {t : Target} {rows : Rows} {s : TargetSnapshot} (h : derive t rows = .ok s)
    (hfree : s.blocksReclamation = false) :
    (∀ row ∈ rows.deliveries, ¬ OwnedDelivery rows.start.knows row) ∧ rows.turns = [] ∧
      (∀ row ∈ rows.activities, ¬ OwnedActivity t rows.start.knows row) ∧
      ∀ row ∈ rows.runs, ¬ OwnedRun t rows.delivered rows.start.knows row := by
  obtain ⟨d₁, h₁, h⟩ := bind_ok h
  obtain ⟨d₂, h₂, h⟩ := bind_ok h
  obtain ⟨d₃, h₃, h⟩ := bind_ok h
  obtain ⟨d₄, h₄, h⟩ := bind_ok h
  obtain rfl := pure_ok h
  have hclear : ¬ d₄.Blocked := fun hblocked => by
    rw [hblocked.snapshot] at hfree
    cases hfree
  obtain ⟨g₁, b₁⟩ := foldlM_notes (deliveryStep_notes _) h₁
  obtain ⟨g₂, b₂⟩ := foldlM_notes turnStep_notes h₂
  obtain ⟨g₃, b₃⟩ := foldlM_notes (activityStep_notes t) h₃
  obtain ⟨g₄, b₄⟩ := foldlM_notes (runStep_notes t _ rows.delivered) h₄
  have k₁ : d₁.knows = rows.start.knows := funext g₁.knows
  have k₂ : d₂.knows = rows.start.knows := (funext g₂.knows).trans k₁
  have k₃ : d₃.knows = rows.start.knows := (funext g₃.knows).trans k₂
  rw [k₂] at b₃
  rw [k₃] at b₄
  refine ⟨fun row hrow howned => ?_, ?_, fun row hrow howned => ?_, fun row hrow howned => ?_⟩
  · exact hclear (g₄.blocked (g₃.blocked (g₂.blocked (b₁ row hrow howned))))
  · rw [List.eq_nil_iff_forall_not_mem]
    intro row hrow
    exact hclear (g₄.blocked (g₃.blocked (b₂ row hrow trivial)))
  · exact hclear (g₄.blocked (b₃ row hrow howned))
  · exact hclear (b₄ row hrow howned)

/-! ## Several targets -/

theorem sessionById_some {rows : List SessionRow} {id : String} {row : SessionRow}
    (h : sessionById rows id = some row) : row ∈ rows ∧ row.id = id :=
  ⟨List.mem_of_find?_eq_some h, by simpa using List.find?_some h⟩

/-- With unique keys a row that is read is the row of its id. -/
theorem sessionById_filter (db : Database) {keep : SessionRow → Bool} {row : SessionRow}
    (hmem : row ∈ db.sessions) (hkeep : keep row = true) :
    sessionById (db.sessions.filter keep) row.id = some row := by
  have hin : row ∈ db.sessions.filter keep := List.mem_filter.mpr ⟨hmem, hkeep⟩
  cases hfind : sessionById (db.sessions.filter keep) row.id with
  | none =>
      have hnone := List.find?_eq_none.mp hfind row hin
      simp at hnone
  | some other =>
      obtain ⟨hother, hid⟩ := sessionById_some hfind
      have heq := List.inj_on_of_nodup_map db.keyed (List.mem_filter.mp hother).1 hmem hid
      rw [heq]

section Batch

variable {db : Database} {backend : String} {targets : List Target} {t : Target}

theorem asked_single (ht : t ∈ targets) {row : SessionRow} (h : asked backend [t] row = true) :
    asked backend targets row = true := by
  simp only [asked, List.any_cons, List.any_nil, Bool.or_false, List.flatMap_cons,
    List.flatMap_nil, List.append_nil, Bool.or_eq_true, Bool.and_eq_true, decide_eq_true_eq,
    Bool.not_eq_true', List.filterMap_cons, List.filterMap_nil] at h ⊢
  rcases h with (⟨hall, hbackend⟩ | hid) | ⟨⟨hall, hbackend⟩, hworkdir⟩
  · exact .inl (.inl ⟨List.any_eq_true.mpr ⟨t, ht, hall⟩, hbackend⟩)
  · exact .inl (.inr (List.mem_flatMap.mpr ⟨t, ht, hid⟩))
  · cases hany : targets.any (·.includeAllBackendSessions) with
    | true => exact .inl (.inl ⟨rfl, hbackend⟩)
    | false =>
        refine .inr ⟨⟨rfl, hbackend⟩, ?_⟩
        cases hdurable : t.durableSessionWorkdir with
        | none =>
            rw [hdurable] at hworkdir
            cases hworkdir
        | some w =>
            rw [hdurable] at hworkdir
            refine List.any_eq_true.mpr ⟨w, List.mem_filterMap.mpr ⟨t, ht, hdurable⟩, ?_⟩
            simpa using hworkdir

/-- A target is given the same Sessions whatever else is read. -/
theorem sessionRows_single (ht : t ∈ targets) :
    t.sessionRows backend (db.sessions.filter (asked backend targets)) =
      t.sessionRows backend (db.sessions.filter (asked backend [t])) := by
  have hfilter : ∀ keep : SessionRow → Bool, (∀ row, keep row = true → asked backend [t] row = true) →
      (db.sessions.filter (asked backend targets)).filter keep =
        (db.sessions.filter (asked backend [t])).filter keep := by
    intro keep hkeep
    rw [List.filter_filter, List.filter_filter]
    refine List.filter_congr fun row _ => ?_
    cases hrow : keep row with
    | false => rfl
    | true => rw [hkeep row hrow, asked_single ht (hkeep row hrow)]
  unfold Target.sessionRows
  split
  · rename_i hall
    refine hfilter _ fun row hrow => ?_
    simp only [decide_eq_true_eq] at hrow
    simp [asked, hall, hrow]
  · rename_i hall
    split
    · rename_i w hw
      refine hfilter _ fun row hrow => ?_
      simp only [Bool.and_eq_true, decide_eq_true_eq] at hrow
      simp [asked, hall, hw, hrow.1, hrow.2]
    · refine List.filterMap_congr fun id hid => ?_
      congr 1
      by_cases hrow : ∃ row ∈ db.sessions, row.id = id
      · obtain ⟨row, hmem, rfl⟩ := hrow
        have hone : asked backend [t] row = true := by
          simp [asked, hid]
        rw [sessionById_filter db hmem hone, sessionById_filter db hmem (asked_single ht hone)]
      · have hnone : ∀ keep, sessionById (db.sessions.filter keep) id = none := by
          intro keep
          refine List.find?_eq_none.mpr fun row hmem => ?_
          have hne : row.id ≠ id := fun heq => hrow ⟨row, (List.mem_filter.mp hmem).1, heq⟩
          simpa using hne
        rw [hnone, hnone]

theorem rowsOf_single {sessionIds : List String} {activities : List ActivityRow}
    {runs : List JoinedRun} {sessions : List SessionRow}
    (h : ∀ row ∈ sessions, row.id ∈ sessionIds) :
    db.rowsOf sessionIds activities runs sessions =
      db.rowsOf (sessions.map (·.id)) activities runs sessions := by
  have hsub : ∀ id, id ∈ sessions.map (·.id) → id ∈ sessionIds := by
    intro id hid
    obtain ⟨row, hrow, rfl⟩ := List.mem_map.mp hid
    exact h row hrow
  unfold Database.rowsOf
  dsimp only
  congr 1
  · rw [List.filter_filter, List.filter_filter]
    refine List.filter_congr fun row _ => ?_
    by_cases hown : row.sessionId ∈ sessions.map (·.id)
    · simp [hown, hsub _ hown]
    · simp [hown]
  · rw [List.filter_filter, List.filter_filter]
    refine List.filter_congr fun row _ => ?_
    by_cases hown : row.sessionId ∈ sessions.map (·.id)
    · simp [hown, hsub _ hown]
    · simp [hown]

theorem checkBindings_single (ht : t ∈ targets)
    (h : t.checkBindings (db.sessions.filter (asked backend targets)) = .ok ()) :
    t.checkBindings (db.sessions.filter (asked backend [t])) = .ok () := by
  have hall := require_ok h
  refine require_eq_ok fun b hb => ?_
  cases hfind : sessionById (db.sessions.filter (asked backend [t])) b.sessionId with
  | none => rfl
  | some row =>
      obtain ⟨hmem, hid⟩ := sessionById_some hfind
      obtain ⟨hrow, hasked⟩ := List.mem_filter.mp hmem
      have hbatch := hall b hb
      rw [← hid, sessionById_filter db hrow (asked_single ht hasked)] at hbatch
      exact hbatch

/-- The target's snapshot in a batch is the one it gets alone. -/
theorem snapshot_of_batch {snapshots : List TargetSnapshot}
    (h : snapshotManyChecked db targets = .ok snapshots) :
    snapshots = targets.map (snapshot db) := by
  unfold snapshotManyChecked at h
  dsimp only at h
  generalize hbackend : (targets.map Target.normalizedBackend).headD "" = backend at h
  obtain ⟨_, hchecks, h⟩ := bind_ok h
  obtain ⟨_, hbindings, h⟩ := bind_ok h
  obtain ⟨activities, hactivities, h⟩ := bind_ok h
  refine (mapM'_ok h fun t ht s hs => ?_).2
  have hcheck := forM_ok hchecks t ht
  have hbinding := checkBindings_single ht (forM_ok hbindings t ht)
  have hsame : t.normalizedBackend = backend := by
    obtain ⟨-, hrest⟩ := require_bind_ok hcheck
    exact (require_bind_ok hrest).1
  have hrows : db.rowsOf (targets.flatMap fun t =>
        (t.sessionRows backend (db.sessions.filter (asked backend targets))).map (·.id)) activities
        (db.runRows backend)
        (t.sessionRows backend (db.sessions.filter (asked backend targets))) =
      db.rowsOf ((t.sessionRows backend (db.sessions.filter (asked backend [t]))).map (·.id))
        activities (db.runRows backend)
        (t.sessionRows backend (db.sessions.filter (asked backend [t]))) := by
    rw [rowsOf_single fun row hrow => List.mem_flatMap.mpr ⟨t, ht, List.mem_map_of_mem hrow⟩,
      sessionRows_single ht]
  rw [hrows] at hs
  have halone : snapshotManyChecked db [t] = .ok [s] := by
    unfold snapshotManyChecked
    dsimp only
    rw [List.map_singleton, List.headD_cons, hsame]
    have hone : ∀ f : Target → Except String Unit, f t = .ok () → [t].forM f = .ok () := by
      intro f hf
      change (f t >>= fun _ => pure ()) = _
      rw [hf]
      rfl
    rw [bind_eq_ok (hone _ hcheck), bind_eq_ok (hone _ hbinding), bind_eq_ok hactivities,
      List.flatMap_singleton, List.mapM'_cons, bind_eq_ok hs]
    rfl
  rw [snapshot, snapshotMany, halone]
  rfl

end Batch

/-- For every target and all rows, a snapshot that does not block reclamation has no Delivery in a
turn-owned or fence state, no Turn that has not ended, no active Activity of the target, and no
run of the target but queued ones; and a batch gives each target its own snapshot, or none. -/
theorem reclamation_fails_closed :
    (∀ (t : Target) (rows : Rows) (s : TargetSnapshot), derive t rows = .ok s →
      s.blocksReclamation = false →
      (∀ row ∈ rows.deliveries, ∀ role, orderingFor (pyStr row.state) = some role →
        role ≠ .turnOwned ∧ role ≠ .fence) ∧
      (∀ row ∈ rows.turns, row.state = some "terminal") ∧
      (∀ row ∈ rows.activities, ∀ activity, row.payload = .object "active" (some activity) →
        activity.runtimeKey ∉ t.activityKeys ∧
        activity.sessionId ∉ rows.sessions.map (·.id) ∧
        activity.runtimeKey ∈ t.allActivityKeys) ∧
      ∀ row ∈ rows.runs, row.represented rows.delivered = false →
        ((orEmpty row.run.sessionId ≠ "" ∧
            orEmpty row.run.sessionId ∈ rows.sessions.map (·.id)) ∨
          (orEmpty row.run.legacySessionKey ∈ t.routeKeys ∧
            ¬ (orEmpty row.run.sessionId ≠ "" ∧
              strip (orEmpty row.resolvedSessionBackend) = t.backend))) →
        normalizeRunStatus row.run.status = "queued") ∧
    ∀ (db : Database) (targets : List Target),
      snapshotMany db targets = targets.map (snapshot db) ∨
        snapshotMany db targets = targets.map providerFailureSnapshot := by
  refine ⟨fun t rows s h hfree => ?_, fun db targets => ?_⟩
  · obtain ⟨hdeliveries, hturns, hactivities, hruns⟩ := derive_free h hfree
    refine ⟨fun row hrow role hrole => ?_, ?_, fun row hrow activity hactivity => ?_,
      fun row hrow hrepresented hown => ?_⟩
    · refine ⟨?_, ?_⟩
      · rintro rfl
        exact hdeliveries row hrow (.inl hrole)
      · rintro rfl
        exact hdeliveries row hrow (.inr hrole)
    · rw [hturns]
      exact fun row hrow => by cases hrow
    · have hnot := hactivities row hrow
      refine ⟨fun hkey => hnot ⟨activity, hactivity, .inl hkey⟩, fun hsession => ?_, ?_⟩
      · exact hnot ⟨activity, hactivity, .inr (.inl ((knows_start rows _).mpr hsession))⟩
      · by_contra hkey
        exact hnot ⟨activity, hactivity, .inr (.inr hkey)⟩
    · by_contra hstatus
      refine hruns row hrow ⟨hrepresented, hstatus, ?_⟩
      exact hown.imp_left fun hsession => ⟨hsession.1, (knows_start rows _).mpr hsession.2⟩
  · unfold snapshotMany
    split
    · rename_i snapshots hok
      exact .inl (snapshot_of_batch hok)
    · exact .inr rfl

/-- The target of one Session among two that share the backend. -/
def sharedTarget (sessionId runtimeKey routeKey : String) : Target where
  backend := "codex"
  resourceKey := sessionId
  bindings := [⟨sessionId, some "/work", [runtimeKey], [routeKey]⟩]
  knownActivityRuntimeKeys := ["rt-a", "rt-b"]
  knownFallbackRouteKeys := ["route:a", "route:b"]

def sharedTargets : List Target :=
  [sharedTarget "ses-a" "rt-a" "route:a", sharedTarget "ses-b" "rt-b" "route:b"]

/-- The Activity that runs in the second Session. -/
def sharedActivity : ActivityInfo where
  backend := some "codex"
  runtimeKey := "rt-b"
  id := "act-b"
  sessionId := "ses-b"

def sharedRun (sessionId status : String) : RunRow where
  id := "run-" ++ sessionId
  runType := some "agent_run"
  status
  agentBackend := some "codex"
  sessionId := some sessionId

def sharedSession (id : String) : SessionRow := ⟨id, "codex", some "/work"⟩

/-- A queued Delivery and a queued run in the first Session, work in the second one. -/
def sharedWork : Database where
  sessions := [sharedSession "ses-a", sharedSession "ses-b"]
  deliveries :=
    [{ id := "del-a", sessionId := "ses-a", state := some "queued" },
      { id := "del-b", sessionId := "ses-b", state := some "claimed" }]
  turns := [⟨"turn-a", "ses-a", some "terminal", none⟩, ⟨"turn-b", "ses-b", some "active", none⟩]
  records := [{ id := "rec-b", payload := .object "active" (some sharedActivity) }]
  runs := [sharedRun "ses-a" "pending", sharedRun "ses-b" "running"]
  agents := []
  keyed := by decide

/-- The rows that the first target is given. -/
def sharedRows : Rows :=
  sharedWork.rowsOf ["ses-a", "ses-b"] sharedWork.records (sharedWork.runRows "codex")
    [sharedSession "ses-a"]

/-- Of two targets the one without work may be reclaimed: the Activity is not of its Session, and
its run is queued. -/
theorem reclamation_fails_closed_batch :
    (snapshotMany sharedWork sharedTargets).map TargetSnapshot.blocksReclamation = [false, true] ∧
      snapshotMany sharedWork sharedTargets = sharedTargets.map (snapshot sharedWork) ∧
      ∃ s, derive (sharedTarget "ses-a" "rt-a" "route:a") sharedRows = .ok s ∧
        s.blocksReclamation = false ∧ "rt-b" ∉ (sharedTarget "ses-a" "rt-a" "route:a").activityKeys ∧
        "ses-b" ∉ sharedRows.sessions.map (·.id) ∧ normalizeRunStatus "pending" = "queued" := by
  have hblocks : (snapshotMany sharedWork sharedTargets).map TargetSnapshot.blocksReclamation =
      [false, true] := by decide +kernel
  refine ⟨hblocks, ?_, ?_⟩
  · refine (reclamation_fails_closed.2 sharedWork sharedTargets).resolve_right fun hfailed => ?_
    rw [hfailed] at hblocks
    exact absurd hblocks (by decide)
  · have hfree : (derive (sharedTarget "ses-a" "rt-a" "route:a") sharedRows).toOption.map
        TargetSnapshot.blocksReclamation = some false := by decide +kernel
    cases hderive : derive (sharedTarget "ses-a" "rt-a" "route:a") sharedRows with
    | error e =>
        rw [hderive] at hfree
        cases hfree
    | ok s =>
        rw [hderive] at hfree
        have hfree : s.blocksReclamation = false := Option.some.inj hfree
        obtain ⟨-, -, hactivities, hruns⟩ := reclamation_fails_closed.1 _ _ s hderive hfree
        obtain ⟨hkey, hsession, -⟩ := hactivities _ List.mem_cons_self sharedActivity rfl
        refine ⟨s, rfl, hfree, hkey, hsession, ?_⟩
        exact hruns ⟨sharedRun "ses-a" "pending", none, some "codex"⟩ List.mem_cons_self
          (by decide) (.inl ⟨by decide, List.mem_cons_self⟩)

/-- A target of one Session and one route key. -/
def routeTarget : Target where
  backend := "codex"
  resourceKey := "/work"
  bindings := [⟨"ses-a", some "/work", [], ["route:base"]⟩]

def routeRun (sessionId : Option String) (status : String) : JoinedRun where
  run :=
    { id := "run-b"
      runType := some "agent_run"
      status
      sessionId
      legacySessionKey := some "route:base"
      pid := some 123 }
  resolvedSessionBackend := some "codex"

def routeRows (run : JoinedRun) : Rows where
  sessions := [⟨"ses-a", "codex", some "/work"⟩]
  deliveries := [{ id := "del-a", sessionId := "ses-a", state := some "queued" }]
  turns := []
  activities := []
  runs := [run]
  delivered := []

/-- A running run with the target's route key does not block it when it belongs to another Session
of the backend. -/
theorem run_of_other_session_is_skipped :
    ¬ ∀ (t : Target) (rows : Rows) (s : TargetSnapshot), derive t rows = .ok s →
      s.blocksReclamation = false → ∀ row ∈ rows.runs, row.represented rows.delivered = false →
      (orEmpty row.run.sessionId ∈ rows.sessions.map (·.id) ∨
        orEmpty row.run.legacySessionKey ∈ t.routeKeys) →
      normalizeRunStatus row.run.status = "queued" := by
  intro h
  have hqueued := h routeTarget (routeRows (routeRun (some "ses-b") "running")) _ rfl (by decide)
    (routeRun (some "ses-b") "running") List.mem_cons_self rfl (.inr List.mem_cons_self)
  exact absurd hqueued (by decide)

end Avibe.Ownership
