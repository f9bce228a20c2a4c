import Avibe.Permissions.CacheSafety

/-!
# Runs of the cache

A run applies the responses of several processes one after the other, each through
`_cache_read_merge_write`. The fence and the reading back hold in every run; the newest
entries and project accesses are held at every point of a run exactly when each of its
responses is timely, and two timely runs of the same responses end alike.
-/

namespace Avibe.Permissions

open Dict Machine

variable {t : Texts} {instanceId : String}

/-! ## The step -/

/-- The cached projection after a response. -/
def Outcome.result (cached : Cached) : Outcome → Option Cached
  | .kept => some cached
  | .written next => some next
  | .raised => none

section Step

variable {H : History} {cached : Cached} {seen : Seen}

/-- The step keeps the fence and soundness, and currency exactly when the response is timely. -/
structure StepOk (t : Texts) (instanceId : String) (H : History) (cached : Cached) (seen : Seen)
    (r : Response) (next : Cached) : Prop where
  result : (cacheReadMergeWrite t instanceId (some cached) r).result cached = some next
  fence : authorizationRevision cached.projection ≤ authorizationRevision next.projection
  sound : Sound t instanceId H next.projection (seen.after r)
  current : Current H cached.projection seen →
    (Current H next.projection (seen.after r) ↔ Timely H cached seen r)

/-- A read of the cached revision is merged and written. -/
theorem read_equal_result (hc : Valid t instanceId cached.projection) {p : Items}
    (hp : Valid t instanceId p)
    (heq : authorizationRevision p = authorizationRevision cached.projection) (order : Nat) :
    ∃ projection order' marks,
      (mergeCached t instanceId cached (.read p order) p).result cached =
        some ⟨projection, order', marks⟩ ∧ Valid t instanceId projection ∧
      view projection =
        view (if preferCandidate order cached.cacheOrder then p else cached.projection) := by
  obtain ⟨hvalid, hview⟩ := mergeEqualRevision_spec hc hp (preferCandidate order cached.cacheOrder)
  refine ⟨mergeEqualRevision cached.projection p (preferCandidate order cached.cacheOrder),
    max cached.cacheOrder order, if cached.cacheOrder ≤ order then Marks.none
      else nextMarks cached.marks none order, ?_, hvalid, hview⟩
  simp [mergeCached, heq, Response.complete, Response.order, Response.target, hvalid.validated,
    Outcome.result]

theorem read_step (hs : Sound t instanceId H cached.projection seen) {p : Items} {order : Nat}
    (hr : FromHistory t instanceId H (.read p order)) :
    ∃ next, StepOk t instanceId H cached seen (.read p order) next := by
  have hp : Valid t instanceId p := hr.1
  have hstep : cacheReadMergeWrite t instanceId (some cached) (.read p order) =
      mergeCached t instanceId cached (.read p order) p := by
    simp only [cacheReadMergeWrite, Response.merge, hp.validated]
  rcases lt_trichotomy (authorizationRevision p) (authorizationRevision cached.projection) with
    hlt | heq | hgt
  · obtain ⟨hsound, hcurrent⟩ := read_left hs hr hlt.le hs.valid rfl
    refine ⟨cached, ?_, le_rfl, hsound, fun h => ?_⟩
    · rw [hstep, mergeCached, if_pos hlt]
      rfl
    · rw [hcurrent h]
      exact ⟨fun hnone _ => hnone, fun htimely => htimely (.inl hlt)⟩
  · obtain ⟨projection, order', marks, hresult, hvalid, hview⟩ :=
      read_equal_result hs.valid hp heq order
    have hfence : authorizationRevision projection = authorizationRevision cached.projection := by
      refine (congrArg Prod.fst hview).trans ?_
      dsimp only [view]
      split
      · exact heq
      · rfl
    cases hprefer : preferCandidate order cached.cacheOrder with
    | true =>
        rw [hprefer, if_pos rfl] at hview
        obtain ⟨hsound, hcurrent⟩ := read_taken hs hr heq.ge hvalid hview
        refine ⟨⟨projection, order', marks⟩, hstep ▸ hresult, hfence.ge, hsound, fun _ => ?_⟩
        refine ⟨fun _ hor => ?_, fun _ => hcurrent⟩
        rcases hor with hlt | ⟨-, hfalse⟩
        · exact absurd heq hlt.ne
        · rw [hprefer] at hfalse
          cases hfalse
    | false =>
        rw [hprefer, if_neg Bool.false_ne_true] at hview
        obtain ⟨hsound, hcurrent⟩ := read_left hs hr heq.le hvalid hview
        refine ⟨⟨projection, order', marks⟩, hstep ▸ hresult, hfence.ge, hsound, fun h => ?_⟩
        rw [hcurrent h]
        exact ⟨fun hnone _ => hnone, fun htimely => htimely (.inr ⟨heq, hprefer⟩)⟩
  · obtain ⟨hsound, hcurrent⟩ := read_taken hs hr hgt.le hp rfl
    refine ⟨⟨p, max cached.cacheOrder order, Marks.none⟩, ?_, hgt.le, hsound, fun _ => ?_⟩
    · rw [hstep]
      simp [mergeCached, hgt.ne, hgt.not_gt, hgt, Response.complete, Response.order, Outcome.result]
    · refine ⟨fun _ hor => ?_, fun _ => hcurrent⟩
      rcases hor with hlt | ⟨heq, -⟩
      · exact absurd hlt hgt.not_gt
      · exact absurd heq hgt.ne'

/-- A mutation is written, as it is or rebased over a newer cache. -/
theorem mutation_result (hc : Valid t instanceId cached.projection) {r : Response} {candidate : Items}
    (hcomplete : r.complete = false)
    (hmerge : r.merge (some cached.projection) = some candidate)
    (hvalid : Valid t instanceId candidate)
    (hle : authorizationRevision cached.projection ≤ authorizationRevision candidate)
    (hold : ∀ q ∈ projectsOf cached.projection, ∀ p ∈ projectsOf candidate,
      projectId q = projectId p → accessRevision q ≤ accessRevision p) :
    ∃ projection order marks,
      (cacheReadMergeWrite t instanceId (some cached) r).result cached =
        some ⟨projection, order, marks⟩ ∧ Valid t instanceId projection ∧
      view projection = (authorizationRevision candidate,
        if (authorizationRevision cached.projection = authorizationRevision candidate ∧
            r.order < cached.cacheOrder) ∧ r.target = some .access ∧
            supersededAccess cached.marks r.order = true then entriesOf cached.projection
          else entriesOf candidate, summaries (projectsOf candidate)) := by
  obtain ⟨hrebase, hrebased⟩ := mergeMutationRebase_spec hc hvalid r.target cached.marks
    r.order hold
  have hstep : cacheReadMergeWrite t instanceId (some cached) r =
      mergeCached t instanceId cached r candidate := by
    simp only [cacheReadMergeWrite, Option.map_some, hmerge, hvalid.validated]
  rw [hstep]
  by_cases h : authorizationRevision cached.projection = authorizationRevision candidate ∧
      r.order < cached.cacheOrder
  · refine ⟨_, max cached.cacheOrder r.order, nextMarks cached.marks r.target r.order, ?_, hrebase, ?_⟩
    · simp [mergeCached, hcomplete, h, hrebase.validated, Outcome.result]
    · rw [hrebased]
      simp only [h, true_and, and_self]
  · refine ⟨_, max cached.cacheOrder r.order, nextMarks cached.marks r.target r.order, ?_, hvalid, ?_⟩
    · simp [mergeCached, hle.not_gt, hcomplete, h, Outcome.result]
    · simp only [h, false_and, if_false]
      rfl

theorem access_step (hs : Sound t instanceId H cached.projection seen) {r order : Nat}
    {entries : List Json} (hr : FromHistory t instanceId H (.access r entries order)) :
    ∃ next, StepOk t instanceId H cached seen (.access r entries order) next := by
  obtain ⟨hvalid, hview, hprojects⟩ := access_candidate hs.valid r hr.1 hr.2.1
  have hfence := congrArg Prod.fst hview
  have hlist := congrArg (fun v => v.2.1) hview
  have hsum := congrArg (fun v => v.2.2) hview
  dsimp only [view] at hfence hlist hsum
  obtain ⟨projection, order', marks, hresult, hnext, hafter⟩ := mutation_result hs.valid
    (r := .access r entries order) rfl rfl hvalid (hfence ▸ le_max_left _ _)
    fun q hq p hp hid => by
      rw [hprojects] at hp
      rw [List.inj_on_of_nodup_map hs.valid.projects.2.distinct hq hp hid]
  have hmax : ∀ a : Nat, a = max a r ↔ r ≤ a := by
    intro a
    omega
  rw [hfence, hlist, hsum] at hafter
  have htarget : (Response.access r entries order).target = some .access := rfl
  simp only [hmax, Response.order, htarget, true_and, and_assoc] at hafter
  obtain ⟨hsound, hcurrent⟩ := access_spec hs hr hnext hafter
  have hnextfence := congrArg Prod.fst hafter
  dsimp only [view] at hnextfence
  exact ⟨⟨projection, order', marks⟩, hresult, hnextfence ▸ le_max_left _ _, hsound, hcurrent⟩

theorem project_step (hs : Sound t instanceId H cached.projection seen) {r order : Nat}
    {update : Items} (hr : FromHistory t instanceId H (.project r update order)) :
    ∃ next, StepOk t instanceId H cached seen (.project r update order) next := by
  obtain ⟨hvalid, hview, hprojects⟩ := project_candidate hs.valid r hr.1
  obtain ⟨-, hother, -, -, hthis⟩ := replaceProject_spec hs.valid.projects.2 hr.1
  have hfence := congrArg Prod.fst hview
  have hlist := congrArg (fun v => v.2.1) hview
  have hsum := congrArg (fun v => v.2.2) hview
  dsimp only [view] at hfence hlist hsum
  obtain ⟨projection, order', marks, hresult, hnext, hafter⟩ := mutation_result hs.valid
    (r := .project r update order) rfl rfl hvalid (hfence ▸ le_max_left _ _)
    fun q hq p hp hid => by
      rw [hprojects] at hp
      by_cases hpid : projectId p = projectId update
      · have hp' := hthis p hp hpid
        rw [← hpid, ← hid, projectNamed_self hs.valid.projects.2.distinct hq] at hp'
        have hrevision : accessRevision p = _ := congrArg Prod.fst hp'
        rw [hrevision]
        dsimp only
        split
        · exact le_rfl
        · rename_i hle
          exact not_lt.mp hle
      · rw [List.inj_on_of_nodup_map hs.valid.projects.2.distinct hq (hother p hp hpid) hid]
  rw [hfence, hlist, hsum] at hafter
  have htarget : (Response.project r update order).target ≠ some .access := by
    simp [Response.target]
  simp only [htarget, false_and, and_false, if_false] at hafter
  obtain ⟨hsound, hcurrent⟩ := project_spec hs hr hnext hafter
  have hnextfence := congrArg Prod.fst hafter
  dsimp only [view] at hnextfence
  exact ⟨⟨projection, order', marks⟩, hresult, hnextfence ▸ le_max_left _ _, hsound, hcurrent⟩

/-- One response over a sound cache. -/
theorem step_spec (hs : Sound t instanceId H cached.projection seen) {r : Response}
    (hr : FromHistory t instanceId H r) : ∃ next, StepOk t instanceId H cached seen r next := by
  cases r with
  | read p order => exact read_step hs hr
  | access revision entries order => exact access_step hs hr
  | project revision update order => exact project_step hs hr

end Step

/-! ## Reading back -/

theorem marks_ofJson_toJson (marks : Marks) :
    Marks.ofJson (if marks.toJson.isEmpty then none else some (.obj marks.toJson)) = marks := by
  obtain ⟨access, projects⟩ := marks
  cases access with
  | none =>
      by_cases h : projects = []
      · simp [Marks.toJson, Marks.ofJson, Marks.none, h]
      · simp [Marks.toJson, Marks.ofJson, h, get_cons, orderOf]
  | some order =>
      by_cases h : projects = []
      · simp [Marks.toJson, Marks.ofJson, h, get_cons, orderOf]
      · simp [Marks.toJson, Marks.ofJson, h, get_cons, orderOf]

theorem normalizeMarks_idem (marks : Marks) (projection : Items) :
    normalizeMarks (normalizeMarks marks projection) projection =
      normalizeMarks marks projection := by
  simp [normalizeMarks, List.filter_filter]

/-- The envelope of a valid projection is read back as it was written. -/
theorem readCache_writeCache (cached : Cached) (h : Valid t instanceId cached.projection)
    (cachedAt : Nat) :
    readCache t instanceId (writeCache instanceId cachedAt cached) =
      some { cached with marks := normalizeMarks cached.marks cached.projection } := by
  have hmarks : get (writeCache instanceId cachedAt cached) "mutation_orders" =
      if (normalizeMarks cached.marks cached.projection).toJson.isEmpty then none
      else some (.obj (normalizeMarks cached.marks cached.projection).toJson) := by
    unfold writeCache
    dsimp only
    split <;> simp [get_cons]
  have hread : ∀ key, key ≠ "mutation_orders" →
      get (writeCache instanceId cachedAt cached) key =
        get [("cache_schema_version", .int 1), ("instance_id", .str instanceId),
          ("cached_at", .int cachedAt), ("cache_order", .int cached.cacheOrder),
          ("projection", .obj cached.projection)] key := by
    intro key hkey
    unfold writeCache
    rw [get_append]
    split
    · simp
    · simp [get_cons, Ne.symm hkey]
  unfold readCache
  rw [hmarks, marks_ofJson_toJson, hread _ (by decide), hread _ (by decide), hread _ (by decide),
    hread _ (by decide), hread _ (by decide)]
  simp [get_cons, h.validated, normalizeMarks_idem]

/-! ## Runs -/

/-- The cache file, and the newest that the initial cache and the responses gave. -/
structure Cell where
  file : Items
  seen : Seen

section Runs

variable (t instanceId)

/-- A response with the time of its writing; a check that raises leaves the file. -/
def Cell.next (cell : Cell) (r : Nat × Response) : Cell :=
  { file := (applyResponse t instanceId cell.file r).getD cell.file
    seen := cell.seen.after r.2 }

variable (H : History)

/-- The file is read as a projection that has the newest of everything. -/
def Cell.Held (cell : Cell) : Prop :=
  ∃ cached, readCache t instanceId cell.file = some cached ∧ Current H cached.projection cell.seen

/-- The response is timely for what the file is read as. -/
def Cell.Timely (cell : Cell) (r : Nat × Response) : Prop :=
  ∃ cached, readCache t instanceId cell.file = some cached ∧
    Permissions.Timely H cached cell.seen r.2

def Cell.Sound (cell : Cell) : Prop :=
  ∃ cached, readCache t instanceId cell.file = some cached ∧
    Permissions.Sound t instanceId H cached.projection cell.seen

end Runs

section Runs

variable {H : History} {cell : Cell} {r : Nat × Response}

/-- A response is applied, and what it wrote is read back. -/
structure Applied (t : Texts) (instanceId : String) (cell : Cell) (r : Nat × Response)
    (cached next : Cached) : Prop where
  before : readCache t instanceId cell.file = some cached
  result : (cacheReadMergeWrite t instanceId (some cached) r.2).result cached = some next
  applied : applyResponse t instanceId cell.file r = some (cell.next t instanceId r).file
  back : ∃ marks, readCache t instanceId (cell.next t instanceId r).file =
    some { next with marks := marks }
  fence : authorizationRevision cached.projection ≤ authorizationRevision next.projection

theorem next_spec (hs : cell.Sound t instanceId H) (hr : FromHistory t instanceId H r.2) :
    (∃ cached next, Applied t instanceId cell r cached next) ∧
      (cell.next t instanceId r).Sound t instanceId H ∧
      (cell.Held t instanceId H →
        ((cell.next t instanceId r).Held t instanceId H ↔ cell.Timely t instanceId H r)) := by
  obtain ⟨cached, hread, hsound⟩ := hs
  obtain ⟨next, hstep⟩ := step_spec hsound hr
  have hafter : applyResponse t instanceId cell.file r = some (cell.next t instanceId r).file ∧
      ∃ marks, readCache t instanceId (cell.next t instanceId r).file =
        some { next with marks := marks } := by
    have hresult := hstep.result
    unfold Cell.next applyResponse
    rw [hread]
    cases houtcome : cacheReadMergeWrite t instanceId (some cached) r.2 with
    | kept =>
        rw [houtcome] at hresult
        cases hresult
        exact ⟨rfl, cached.marks, hread⟩
    | written written =>
        rw [houtcome] at hresult
        cases hresult
        exact ⟨rfl, _, readCache_writeCache next hstep.sound.valid r.1⟩
    | raised =>
        rw [houtcome] at hresult
        cases hresult
  obtain ⟨happlied, marks, hback⟩ := hafter
  refine ⟨⟨cached, next, hread, hstep.result, happlied, ⟨marks, hback⟩, hstep.fence⟩,
    ⟨_, hback, hstep.sound⟩, fun ⟨held, hheld, hcurrent⟩ => ?_⟩
  cases hread.symm.trans hheld
  have hiff := hstep.current hcurrent
  constructor
  · rintro ⟨after, hread', hafter⟩
    cases hback.symm.trans hread'
    exact ⟨cached, hread, hiff.mp hafter⟩
  · rintro ⟨before, hread', htimely⟩
    cases hread.symm.trans hread'
    exact ⟨_, hback, hiff.mpr htimely⟩

theorem sound_after {run : List (Nat × Response)} (hs : cell.Sound t instanceId H)
    (hrun : ∀ r ∈ run, FromHistory t instanceId H r.2) :
    (after (Cell.next t instanceId) cell run).Sound t instanceId H :=
  after_inv_of (Cell.next t instanceId) (P := fun c => c.Sound t instanceId H)
    (Q := fun r => FromHistory t instanceId H r.2) (fun _ _ hr hs => (next_spec hs hr).2.1) hs hrun

/-- A run of timely responses is one that has the newest of everything at every point. -/
theorem held_iff_timely {run : List (Nat × Response)} (hs : cell.Sound t instanceId H)
    (hheld : cell.Held t instanceId H) (hrun : ∀ r ∈ run, FromHistory t instanceId H r.2) :
    (∀ before later, run = before ++ later →
      (after (Cell.next t instanceId) cell before).Held t instanceId H) ↔
    Along (Cell.next t instanceId) (Cell.Timely t instanceId H) cell run := by
  induction run generalizing cell with
  | nil =>
      refine ⟨fun _ => trivial, fun _ before later hsplit => ?_⟩
      obtain ⟨rfl, -⟩ := List.append_eq_nil_iff.mp hsplit.symm
      exact hheld
  | cons r run ih =>
      obtain ⟨-, hsound, hiff⟩ := next_spec hs (hrun r List.mem_cons_self)
      have hrest : ∀ r ∈ run, FromHistory t instanceId H r.2 := fun r' hr' =>
        hrun r' (List.mem_cons_of_mem r hr')
      constructor
      · intro hall
        have hnext := hall [r] run rfl
        refine ⟨(hiff hheld).mp hnext, (ih hsound hnext hrest).mp fun before later hsplit => ?_⟩
        exact hall (r :: before) later (by rw [hsplit, List.cons_append])
      · rintro ⟨htimely, halong⟩ before later hsplit
        have hnext := (hiff hheld).mpr htimely
        cases before with
        | nil => exact hheld
        | cons r' before =>
            obtain ⟨rfl, htail⟩ := List.cons.inj hsplit
            exact (ih hsound hnext hrest).mpr halong before later htail

/-- The entries and the accesses that a response gives. -/
def Response.given : Response → Seen
  | r => Seen.after ⟨0, fun _ => 0⟩ r

theorem after_given (seen : Seen) (r : Response) : seen.after r =
    ⟨max seen.entries r.given.entries, fun id => max (seen.access id) (r.given.access id)⟩ := by
  cases r with
  | read p order =>
      simp only [Response.given, Seen.after, Nat.zero_max, Seen.mk.injEq, true_and]
      funext id
      split <;> simp
  | access revision entries order => simp [Response.given, Seen.after]
  | project revision update order =>
      simp only [Response.given, Seen.after, Nat.max_zero, Nat.zero_max, Seen.mk.injEq, true_and]
      funext id
      split <;> simp

theorem seen_after (cell : Cell) (run : List (Nat × Response)) :
    (after (Cell.next t instanceId) cell run).seen =
      run.foldl (fun seen r => seen.after r.2) cell.seen := by
  induction run generalizing cell with
  | nil => rfl
  | cons r run ih => exact ih _

/-- What was given does not depend on the order. -/
theorem seen_perm {run run' : List (Nat × Response)} (h : run.Perm run') (cell : Cell) :
    (after (Cell.next t instanceId) cell run).seen =
      (after (Cell.next t instanceId) cell run').seen := by
  rw [seen_after, seen_after]
  have hcomm : ∀ x y z : Nat, max (max x y) z = max (max x z) y := by
    intro x y z
    omega
  refine h.foldl_eq' (fun a _ b _ seen => ?_) cell.seen
  simp only [after_given _ a.2, after_given _ b.2]
  rw [hcomm]
  congr 1
  funext id
  exact hcomm _ _ _

/-- Two sound projections that have the newest of the same have the same entries and accesses. -/
theorem current_unique {p p' : Items} {seen : Seen} (hs : Sound t instanceId H p seen)
    (hs' : Sound t instanceId H p' seen) (hc : Current H p seen) (hc' : Current H p' seen) :
    entriesOf p = entriesOf p' ∧ ∀ q ∈ projectsOf p, ∀ q' ∈ projectsOf p',
      projectId q = projectId q' → accessOf q = accessOf q' := by
  refine ⟨hc.entries.trans hc'.entries.symm, fun q hq q' hq' hid => ?_⟩
  obtain ⟨id, -, hqid⟩ := (hs.valid.projects.2.each q hq).id
  have hrevision : (accessOf q).1 = (accessOf q').1 :=
    (hc.access _ (mem_summaries hq) id hqid).trans
      (hc'.access _ (mem_summaries hq') id (hid ▸ hqid)).symm
  have hpolicy := hs.policy _ (mem_summaries hq) id hqid
  have hpolicy' := hs'.policy _ (mem_summaries hq') id (hid ▸ hqid)
  refine Prod.ext hrevision (hpolicy.trans ?_)
  dsimp only at hpolicy' ⊢
  rw [hpolicy', hrevision]

/-- In every run the fence does not decrease and what was written is read back. The file has the
newest entries and accesses at every point exactly when every response is timely, and timely runs
of the same responses end with the same. -/
theorem cache_newest_exact (hs : cell.Sound t instanceId H) (hheld : cell.Held t instanceId H)
    (run : List (Nat × Response)) (hrun : ∀ r ∈ run, FromHistory t instanceId H r.2) :
    (∀ before r later, run = before ++ r :: later → ∃ cached next,
      Applied t instanceId (after (Cell.next t instanceId) cell before) r cached next) ∧
    ((∀ before later, run = before ++ later →
        (after (Cell.next t instanceId) cell before).Held t instanceId H) ↔
      Along (Cell.next t instanceId) (Cell.Timely t instanceId H) cell run) ∧
    ∀ run', run.Perm run' →
      Along (Cell.next t instanceId) (Cell.Timely t instanceId H) cell run →
      Along (Cell.next t instanceId) (Cell.Timely t instanceId H) cell run' →
      ∀ c c', readCache t instanceId (after (Cell.next t instanceId) cell run).file = some c →
        readCache t instanceId (after (Cell.next t instanceId) cell run').file = some c' →
        entriesOf c.projection = entriesOf c'.projection ∧
          ∀ q ∈ projectsOf c.projection, ∀ q' ∈ projectsOf c'.projection,
            projectId q = projectId q' → accessOf q = accessOf q' := by
  refine ⟨fun before r later hsplit => ?_, held_iff_timely hs hheld hrun,
    fun run' hperm halong halong' c c' hc hc' => ?_⟩
  · have hbefore := sound_after hs fun r' hr' => hrun r' (hsplit ▸ List.mem_append_left _ hr')
    have hr : r ∈ run := hsplit ▸ List.mem_append_right _ List.mem_cons_self
    exact (next_spec hbefore (hrun r hr)).1
  · have hrun' : ∀ r ∈ run', FromHistory t instanceId H r.2 := fun r hr => hrun r (hperm.mem_iff.mpr hr)
    obtain ⟨d, hd, hsound⟩ := sound_after hs hrun
    obtain ⟨d', hd', hsound'⟩ := sound_after hs hrun'
    obtain ⟨e, he, hcurrent⟩ := (held_iff_timely hs hheld hrun).mpr halong run [] (by simp)
    obtain ⟨e', he', hcurrent'⟩ := (held_iff_timely hs hheld hrun').mpr halong' run' [] (by simp)
    cases hd.symm.trans hc
    cases hd'.symm.trans hc'
    cases he.symm.trans hc
    cases he'.symm.trans hc'
    rw [← seen_perm hperm] at hsound' hcurrent'
    exact current_unique hsound hsound' hcurrent hcurrent'

end Runs

/-- Entries that are the newest already are timely in any order. -/
theorem timely_of_entries_eq {H : History} {cached : Cached} {seen : Seen} {r order : Nat}
    {entries : List Json} (h : H.entries r = H.entries seen.entries) :
    Timely H cached seen (.access r entries order) := by
  simp only [Timely]
  split
  · exact .inr h
  · exact .inr h.symm

/-! ## A replayed access list -/

/-- A projection of this revision with these access entries and no project. -/
def sampleProjection (revision : Nat) (entries : List Json) : Items :=
  let counts : Json := .obj (["active", "error", "offline", "applying", "in_sync"].map fun key =>
    (key, .int 0))
  [("schema_version", .int 1),
    ("instance", .obj [("id", .str "home"), ("access_mode", .str "allowlist"),
      ("permission_authority", .str "cloud"), ("local_mutation_allowed", .bool true),
      ("authorization_revision", .int revision)]),
    ("capabilities", .list [.str "instance.permissions.read"]),
    ("access", .obj [("owner", .obj [("email", .null), ("role", .str "owner")]),
      ("entries", .list entries)]),
    ("directory", .obj [("members", .list []), ("groups", .list [])]),
    ("projects", .list []),
    ("policy_sync", .obj [("status", .str "none"), ("projects", counts), ("resources", counts)])]

def sampleEntry : Json :=
  .obj [("kind", .str "email"), ("value", .str "ann@example.org"), ("role", .str "editor")]

/-- Lower-case texts without URLs. -/
def sampleTexts : Texts := ⟨id, fun _ => none⟩

/-- Revision 3 had one entry, and every other one has none. -/
def sampleHistory : History where
  entries r := if r = 3 then [sampleEntry] else []
  revision _ _ := 0
  policy _ _ := (none, none)
  monotone _ := fun _ _ _ => le_rfl

/-- The cache of a complete read of revision 4 that reserved order 20. -/
def sampleCell : Cell :=
  ⟨writeCache "home" 0 ⟨sampleProjection 4 [], 20, Marks.none⟩, ⟨4, fun _ => 0⟩⟩

theorem sample_valid : Valid sampleTexts "home" (sampleProjection 4 []) :=
  ⟨stripItems_eq.mp (by rfl), by decide +kernel⟩

theorem sample_read : readCache sampleTexts "home" sampleCell.file =
    some ⟨sampleProjection 4 [], 20, Marks.none⟩ :=
  readCache_writeCache ⟨sampleProjection 4 [], 20, Marks.none⟩ sample_valid 0

theorem sample_sound : sampleCell.Sound sampleTexts "home" sampleHistory :=
  ⟨_, sample_read, sample_valid, le_rfl, fun _ => le_rfl, by rintro s ⟨⟩⟩

theorem sample_held : sampleCell.Held sampleTexts "home" sampleHistory :=
  ⟨_, sample_read, rfl, by rintro s ⟨⟩⟩

/-- The acknowledgement of revision 3, which reserved order 19. -/
theorem sample_acknowledgement :
    FromHistory sampleTexts "home" sampleHistory (.access 3 [sampleEntry] 19) :=
  ⟨by decide +kernel, by simp; rfl, rfl⟩

/-- The entry is there again from revision 5 on. -/
def laterHistory : History :=
  { sampleHistory with entries := fun r => if r = 3 ∨ 5 ≤ r then [sampleEntry] else [] }

/-- The acknowledgement of revision 5, and a complete read of revision 6. -/
def sampleRun : List (Nat × Response) :=
  [(1, .access 5 [sampleEntry] 21), (2, .read (sampleProjection 6 [sampleEntry]) 22)]

theorem later_valid : Valid sampleTexts "home" (sampleProjection 6 [sampleEntry]) :=
  ⟨stripItems_eq.mp (by rfl), by decide +kernel⟩

theorem later_sound : sampleCell.Sound sampleTexts "home" laterHistory :=
  ⟨_, sample_read, sample_valid, le_rfl, fun _ => le_rfl, by rintro s ⟨⟩⟩

theorem later_held : sampleCell.Held sampleTexts "home" laterHistory :=
  ⟨_, sample_read, rfl, by rintro s ⟨⟩⟩

theorem later_run : ∀ r ∈ sampleRun, FromHistory sampleTexts "home" laterHistory r.2 := by
  intro r hr
  rcases List.mem_pair.mp hr with rfl | rfl
  · exact ⟨by decide +kernel, by simp; rfl, rfl⟩
  · exact ⟨later_valid, rfl, by rintro s ⟨⟩⟩

/-- Whatever is cached by then, the read is timely after the acknowledgement. -/
theorem later_timely :
    Along (Cell.next sampleTexts "home") (Cell.Timely sampleTexts "home" laterHistory) sampleCell
      sampleRun := by
  have hfirst : FromHistory sampleTexts "home" laterHistory (.access 5 [sampleEntry] 21) :=
    later_run _ List.mem_cons_self
  obtain ⟨cached, hread, -⟩ := (next_spec (r := (1, .access 5 [sampleEntry] 21)) later_sound hfirst).2.1
  refine ⟨⟨_, sample_read, ?_⟩, ⟨cached, hread, fun _ => ⟨.inr rfl, by rintro q ⟨⟩⟩⟩, trivial⟩
  exact .inl (by decide)

/-- And so is the acknowledgement after the read, which had its entries. -/
theorem later_timely_reverse :
    Along (Cell.next sampleTexts "home") (Cell.Timely sampleTexts "home" laterHistory) sampleCell
      sampleRun.reverse := by
  have hfirst : FromHistory sampleTexts "home" laterHistory
      (.read (sampleProjection 6 [sampleEntry]) 22) :=
    later_run _ (List.mem_cons_of_mem _ List.mem_cons_self)
  obtain ⟨cached, hread, -⟩ :=
    (next_spec (r := (2, .read (sampleProjection 6 [sampleEntry]) 22)) later_sound hfirst).2.1
  refine ⟨⟨_, sample_read, fun hearlier => ?_⟩, ⟨cached, hread, ?_⟩, trivial⟩
  · exact absurd hearlier (by decide +kernel)
  · exact timely_of_entries_eq rfl

/-- Both orders hold the newest at every point, and end with the entry. -/
theorem cache_newest_exact_sample :
    (∀ before later, sampleRun = before ++ later →
      (after (Cell.next sampleTexts "home") sampleCell before).Held sampleTexts "home" laterHistory) ∧
    (∀ before later, sampleRun.reverse = before ++ later →
      (after (Cell.next sampleTexts "home") sampleCell before).Held sampleTexts "home" laterHistory) ∧
    ∃ c c', readCache sampleTexts "home"
        (after (Cell.next sampleTexts "home") sampleCell sampleRun).file = some c ∧
      readCache sampleTexts "home"
        (after (Cell.next sampleTexts "home") sampleCell sampleRun.reverse).file = some c' ∧
      entriesOf c.projection = entriesOf c'.projection ∧ entriesOf c'.projection = [sampleEntry] := by
  obtain ⟨-, hiff, hperm⟩ := cache_newest_exact later_sound later_held sampleRun later_run
  obtain ⟨-, hiff', -⟩ := cache_newest_exact later_sound later_held sampleRun.reverse
    fun r hr => later_run r (List.mem_reverse.mp hr)
  have hall := hiff.mpr later_timely
  have hall' := hiff'.mpr later_timely_reverse
  obtain ⟨c, hc, -⟩ := hall sampleRun [] (List.append_nil _).symm
  obtain ⟨c', hc', hcurrent⟩ := hall' sampleRun.reverse [] (List.append_nil _).symm
  exact ⟨hall, hall', c, c', hc, hc',
    (hperm _ (List.reverse_perm _).symm later_timely later_timely_reverse c c' hc hc').1,
    hcurrent.entries⟩

/-- The acknowledgement of revision 3 arrives after the complete read of revision 4: the cache has
the entry of revision 3 again. -/
theorem older_entries_return :
    sampleCell.Held sampleTexts "home" sampleHistory ∧
      FromHistory sampleTexts "home" sampleHistory (.access 3 [sampleEntry] 19) ∧
      ∃ cached, readCache sampleTexts "home"
          (sampleCell.next sampleTexts "home" (1, .access 3 [sampleEntry] 19)).file = some cached ∧
        authorizationRevision cached.projection = 4 ∧
        entriesOf cached.projection = sampleHistory.entries 3 ∧
        entriesOf cached.projection ≠ sampleHistory.entries 4 := by
  obtain ⟨⟨cached, next, happlied⟩, -, -⟩ := next_spec (r := (1, .access 3 [sampleEntry] 19))
    sample_sound sample_acknowledgement
  obtain ⟨marks, hback⟩ := happlied.back
  cases sample_read.symm.trans happlied.before
  have hview : ((cacheReadMergeWrite sampleTexts "home"
      (some ⟨sampleProjection 4 [], 20, Marks.none⟩) (.access 3 [sampleEntry] 19)).result
        ⟨sampleProjection 4 [], 20, Marks.none⟩).map (fun c => view c.projection) =
      some (4, [sampleEntry], []) := by rfl
  rw [happlied.result] at hview
  have hnext : view next.projection = (4, [sampleEntry], []) := Option.some.inj hview
  have hfence : authorizationRevision next.projection = 4 := congrArg Prod.fst hnext
  have hentries : entriesOf next.projection = [sampleEntry] := congrArg (fun v => v.2.1) hnext
  refine ⟨sample_held, sample_acknowledgement, _, hback, hfence, hentries, ?_⟩
  rw [hentries]
  simp [sampleHistory]

end Avibe.Permissions
