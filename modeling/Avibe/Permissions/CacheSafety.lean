import Avibe.Lib.Machine
import Avibe.Permissions.Merging

/-!
# What the cache holds after any sequence of responses

The responses come from one history of the backend. In every run the cached fence does not
decrease and what was written is read back. The access entries and the access of each
project are the newest that any response gave exactly as long as every response is
`Timely`: what a response brings is dropped only when it is not newer, and replaces what is
cached only when that is not newer.
-/

namespace Avibe.Permissions

open Dict Machine

variable {t : Texts} {instanceId : String}

/-! ## The merged projection -/

theorem inner_prefer {a b : Items} {key : String} {x y : Items} (ha : get a key = some (.obj x))
    (hb : get b key = some (.obj y)) : inner (prefer a b) key = prefer x y := by
  have hget : get (prefer a b) key = some (.obj (prefer x y)) := by
    rw [get_prefer, ha, hb, ← mergeValue_obj]
    rfl
  rw [inner, hget]

theorem authorizationRevision_prefer {a b : Items} (ha : Valid t instanceId a)
    (hb : Valid t instanceId b) :
    authorizationRevision (prefer a b) = authorizationRevision a := by
  unfold authorizationRevision natAt
  rw [inner_prefer ha.instance.1 hb.instance.1, ha.revision,
    get_prefer_leaf ha.revision (by simp)]

theorem entriesOf_prefer {a b : Items} (ha : Valid t instanceId a) (hb : Valid t instanceId b) :
    entriesOf (prefer a b) = entriesOf a := by
  unfold entriesOf listAt
  rw [inner_prefer ha.access.1 hb.access.1, ha.entries.1, get_prefer_leaf ha.entries.1 (by simp)]

theorem authorizationRevision_set {p : Items} {key : String} {value : Json}
    (h : "instance" ≠ key) : authorizationRevision (set p key value) = authorizationRevision p := by
  unfold authorizationRevision
  rw [inner_set p key "instance" value h]

theorem entriesOf_set {p : Items} {key : String} {value : Json} (h : "access" ≠ key) :
    entriesOf (set p key value) = entriesOf p := by
  unfold entriesOf
  rw [inner_set p key "access" value h]

theorem projectsOf_set {p : Items} {key : String} {value : Json} (h : "projects" ≠ key) :
    projectsOf (set p key value) = projectsOf p := by
  unfold projectsOf listAt
  rw [get_set, if_neg h]

/-- What is followed of a projection: the fence, the access entries, and the access of each project. -/
def view (projection : Items) :
    Nat × List Json × List (Option String × Nat × Option Json × Option Json) :=
  (authorizationRevision projection, entriesOf projection, summaries (projectsOf projection))

/-- Two projections of one revision: the preferred one decides. -/
theorem mergeEqualRevision_spec {cached candidate : Items} (hc : Valid t instanceId cached)
    (hn : Valid t instanceId candidate) (preferred : Bool) :
    Valid t instanceId (mergeEqualRevision cached candidate preferred) ∧
      view (mergeEqualRevision cached candidate preferred) =
        view (if preferred then candidate else cached) := by
  have hmerge : ∀ a b : Items, Valid t instanceId a → Valid t instanceId b →
      Valid t instanceId (set (setProjects (prefer a b) (mergeProjects (projectsOf a) (projectsOf b)))
        "policy_sync" (.obj (prefer (inner a "policy_sync") (inner b "policy_sync")))) ∧
      view (set (setProjects (prefer a b) (mergeProjects (projectsOf a) (projectsOf b)))
        "policy_sync" (.obj (prefer (inner a "policy_sync") (inner b "policy_sync")))) = view a := by
    intro a b ha hb
    obtain ⟨hprojects, hsum⟩ := mergeProjects_spec ha.projects.2 hb.projects.2
    have hsync : required "policy_sync" (object policySyncFields) ∈
        projectionFields t instanceId := by simp [projectionFields]
    refine ⟨((ha.prefer hb).setProjects hprojects).set hsync _
      (checkFields_prefer closed_policySyncFields ha.policySync.2 hb.policySync.2)
      (stripSensitive_obj.mpr ((ha.clean.inner _).prefer (hb.clean.inner _))), ?_⟩
    unfold view
    rw [authorizationRevision_set (by decide), entriesOf_set (by decide), projectsOf_set (by decide),
      projectsOf_setProjects, hsum]
    unfold setProjects
    rw [authorizationRevision_set (by decide), entriesOf_set (by decide),
      authorizationRevision_prefer ha hb, entriesOf_prefer ha hb]
  unfold mergeEqualRevision
  cases preferred with
  | true => exact hmerge candidate cached hn hc
  | false => exact hmerge cached candidate hc hn

/-- A delayed mutation over the cached projection. -/
theorem mergeMutationRebase_spec {cached candidate : Items} (hc : Valid t instanceId cached)
    (hn : Valid t instanceId candidate) (target : Option Target) (marks : Marks) (order : Nat)
    (hold : ∀ q ∈ projectsOf cached, ∀ p ∈ projectsOf candidate, projectId q = projectId p →
      accessRevision q ≤ accessRevision p) :
    Valid t instanceId (mergeMutationRebase cached candidate target marks order) ∧
      view (mergeMutationRebase cached candidate target marks order) =
        (authorizationRevision candidate,
          if target = some .access ∧ supersededAccess marks order then entriesOf cached
          else entriesOf candidate, summaries (projectsOf candidate)) := by
  have hone : ∀ p ∈ projectsOf candidate, ValidProject t (rebaseProject (projectsOf cached) p) ∧
      projectId (rebaseProject (projectsOf cached) p) = projectId p ∧
      accessOf (rebaseProject (projectsOf cached) p) = accessOf p := fun p hp =>
    rebaseProject_spec (hn.projects.2.each p hp) hc.projects.2.each fun q hq => hold q hq p hp
  have hsum := summaries_map fun p hp => (hone p hp).2
  have hprojects : ValidProjects t
      ((projectsOf candidate).map (rebaseProject (projectsOf cached))) := by
    refine ⟨fun r hr => ?_, ?_⟩
    · obtain ⟨p, hp, rfl⟩ := List.mem_map.mp hr
      exact (hone p hp).1
    · rw [ids_of_summaries hsum]
      exact hn.projects.2.distinct
  have haccess : required "access" (object (accessFields t)) ∈ projectionFields t instanceId := by
    simp [projectionFields]
  have hpref := hn.prefer hc
  unfold mergeMutationRebase
  dsimp only
  split
  · have hset := hpref.set haccess (.obj (prefer (inner cached "access") (inner candidate "access")))
      (checkFields_prefer closed_accessFields hc.access.2 hn.access.2)
      (stripSensitive_obj.mpr ((hc.clean.inner "access").prefer (hn.clean.inner "access")))
    refine ⟨hset.setProjects hprojects, ?_⟩
    have hentries : get (prefer (inner cached "access") (inner candidate "access")) "entries" =
        some (.list (entriesOf cached)) := get_prefer_leaf hc.entries.1 (by simp)
    unfold view
    rw [projectsOf_setProjects, hsum]
    unfold setProjects
    rw [authorizationRevision_set (by decide), entriesOf_set (by decide),
      authorizationRevision_set (by decide), authorizationRevision_prefer hn hc]
    congr 2
    unfold entriesOf listAt
    rw [inner_set_same, hentries]
    rfl
  · refine ⟨hpref.setProjects hprojects, ?_⟩
    unfold view
    rw [projectsOf_setProjects, hsum]
    unfold setProjects
    rw [authorizationRevision_set (by decide), entriesOf_set (by decide),
      authorizationRevision_prefer hn hc, entriesOf_prefer hn hc]

theorem instanceFields_keys : ((instanceFields t instanceId).map Field.key).Nodup := by
  change ["id", "access_mode", "permission_authority", "local_mutation_allowed",
    "authorization_revision", "name", "public_url", "organization"].Nodup
  decide

theorem fenced_spec {cached : Items} (hc : Valid t instanceId cached) (revision : Nat) :
    Valid t instanceId (fenced cached revision) ∧
      view (fenced cached revision) = (max (authorizationRevision cached) revision,
        entriesOf cached, summaries (projectsOf cached)) ∧
      projectsOf (fenced cached revision) = projectsOf cached ∧
      inner (fenced cached revision) "access" = inner cached "access" := by
  have hinstance : required "instance" (object (instanceFields t instanceId)) ∈
      projectionFields t instanceId := by simp [projectionFields]
  have hrevision : required "authorization_revision" isNonnegative ∈ instanceFields t instanceId := by
    simp [instanceFields]
  have hnonnegative : isNonnegative (.int (max (authorizationRevision cached) revision : Nat)) =
      true := by simp [isNonnegative]
  have hcheck := checkFields_set instanceFields_keys hc.instance.2 hrevision
    (.int (max (authorizationRevision cached) revision : Nat)) hnonnegative
  have hclean := (hc.clean.inner "instance").set ((hc.clean.inner "instance").key hc.revision)
    (by simp [stripSensitive] : stripSensitive t
      (.int (max (authorizationRevision cached) revision : Nat)) = _)
  refine ⟨hc.set hinstance _ hcheck (stripSensitive_obj.mpr hclean), ?_, projectsOf_set (by decide),
    inner_set _ _ _ _ (by decide)⟩
  unfold view fenced
  rw [entriesOf_set (by decide), projectsOf_set (by decide)]
  congr 1
  unfold authorizationRevision natAt
  rw [inner_set_same, get_set, if_pos rfl]
  exact Int.toNat_natCast _

/-- The candidate of an access replacement. -/
theorem access_candidate {cached : Items} (hc : Valid t instanceId cached) (revision : Nat)
    {entries : List Json} (he : validAccessEntries t entries = true)
    (hclean : ∀ e ∈ entries, stripSensitive t e = e) :
    let candidate := set (fenced cached revision) "access"
      (.obj (set (inner cached "access") "entries" (.list entries)))
    Valid t instanceId candidate ∧ view candidate =
        (max (authorizationRevision cached) revision, entries, summaries (projectsOf cached)) ∧
      projectsOf candidate = projectsOf cached := by
  obtain ⟨hvalid, hview, hprojects, -⟩ := fenced_spec hc revision
  have haccess : required "access" (object (accessFields t)) ∈ projectionFields t instanceId := by
    simp [projectionFields]
  have hentries : required "entries" (listOf (validAccessEntries t)) ∈ accessFields t := by
    simp [accessFields]
  have hkeys : ((accessFields t).map Field.key).Nodup := by
    change ["owner", "entries"].Nodup
    decide
  have hcheck := checkFields_set hkeys hc.access.2 hentries (.list entries) he
  have hclean' := (hc.clean.inner "access").set ((hc.clean.inner "access").key hc.entries.1)
    (stripSensitive_list.mpr hclean)
  have hfinal : projectsOf (set (fenced cached revision) "access"
      (.obj (set (inner cached "access") "entries" (.list entries)))) = projectsOf cached :=
    (projectsOf_set (by decide)).trans hprojects
  refine ⟨hvalid.set haccess _ hcheck (stripSensitive_obj.mpr hclean'), ?_, hfinal⟩
  have hfence : authorizationRevision (fenced cached revision) =
      max (authorizationRevision cached) revision := congrArg Prod.fst hview
  unfold view
  rw [hfinal, authorizationRevision_set (by decide), hfence]
  congr 2
  unfold entriesOf listAt
  rw [inner_set_same, get_set, if_pos rfl]

/-- The candidate of a project update. -/
theorem project_candidate {cached : Items} (hc : Valid t instanceId cached) (revision : Nat)
    {update : Items} (hu : ValidProject t update) :
    let candidate := setProjects (fenced cached revision) (replaceProject (projectsOf cached) update)
    Valid t instanceId candidate ∧ view candidate =
        (max (authorizationRevision cached) revision, entriesOf cached,
          summaries (replaceProject (projectsOf cached) update)) ∧
      projectsOf candidate = replaceProject (projectsOf cached) update := by
  obtain ⟨hvalid, hview, -, -⟩ := fenced_spec hc revision
  obtain ⟨hprojects, -⟩ := replaceProject_spec hc.projects.2 hu
  have hfence : authorizationRevision (fenced cached revision) =
      max (authorizationRevision cached) revision := congrArg Prod.fst hview
  have hentries : entriesOf (fenced cached revision) = entriesOf cached :=
    congrArg (fun v => v.2.1) hview
  refine ⟨hvalid.setProjects hprojects, ?_, projectsOf_setProjects _ _⟩
  unfold view
  rw [projectsOf_setProjects]
  unfold setProjects
  rw [authorizationRevision_set (by decide), entriesOf_set (by decide), hfence, hentries]

/-! ## One response -/

/-- One history of the backend: what each authorization revision says of the access entries and of
the access of each project, and what each access revision of a project says. -/
structure History where
  entries : Nat → List Json
  revision : Nat → String → Nat
  policy : String → Nat → Option Json × Option Json
  monotone : ∀ id, Monotone fun r => revision r id

variable (t instanceId) in
/-- The response is a valid one of this history. -/
def FromHistory (H : History) : Response → Prop
  | .read p _ => Valid t instanceId p ∧ entriesOf p = H.entries (authorizationRevision p) ∧
      ∀ s ∈ summaries (projectsOf p), ∀ id, s.1 = some id →
        s.2 = (H.revision (authorizationRevision p) id,
          H.policy id (H.revision (authorizationRevision p) id))
  | .access r entries _ => validAccessEntries t entries = true ∧
      (∀ e ∈ entries, stripSensitive t e = e) ∧ entries = H.entries r
  | .project r update _ => ValidProject t update ∧ ∀ id, projectId update = some id →
      accessOf update = (H.revision r id, H.policy id (H.revision r id))

/-- The newest that the responses gave: the revision of the access entries, and the access
revision of each project. -/
structure Seen where
  entries : Nat
  access : String → Nat

def Seen.after (seen : Seen) : Response → Seen
  | .read p _ =>
      { entries := max seen.entries (authorizationRevision p)
        access := fun id =>
          match projectNamed (projectsOf p) (some id) with
          | some q => max (seen.access id) (accessRevision q)
          | none => seen.access id }
  | .access r _ _ => { seen with entries := max seen.entries r }
  | .project _ update _ =>
      { seen with access := fun id =>
          if projectId update = some id then max (seen.access id) (accessRevision update)
          else seen.access id }

/-- The projection has the newest access entries and the newest access of its projects. -/
structure Current (H : History) (projection : Items) (seen : Seen) : Prop where
  entries : entriesOf projection = H.entries seen.entries
  access : ∀ s ∈ summaries (projectsOf projection), ∀ id, s.1 = some id → s.2.1 = seen.access id

variable (t instanceId) in
/-- What holds of the cached projection in every run. -/
structure Sound (H : History) (projection : Items) (seen : Seen) : Prop where
  valid : Valid t instanceId projection
  entries_le : seen.entries ≤ authorizationRevision projection
  access_le : ∀ id, seen.access id ≤ H.revision (authorizationRevision projection) id
  policy : ∀ s ∈ summaries (projectsOf projection), ∀ id, s.1 = some id →
    s.2.2 = H.policy id s.2.1

/-- What a response brings is left out only when it is not newer, and is taken only when what is
cached is not newer. -/
def Timely (H : History) (cached : Cached) (seen : Seen) : Response → Prop
  | .read p order =>
      authorizationRevision p < authorizationRevision cached.projection ∨
        authorizationRevision p = authorizationRevision cached.projection ∧
          preferCandidate order cached.cacheOrder = false →
      (authorizationRevision p ≤ seen.entries ∨
        H.entries (authorizationRevision p) = H.entries seen.entries) ∧
      ∀ q ∈ projectsOf p, ∀ c ∈ projectsOf cached.projection, projectId c = projectId q →
        accessRevision q ≤ accessRevision c
  | .access r _ order =>
      if r ≤ authorizationRevision cached.projection ∧ order < cached.cacheOrder ∧
          supersededAccess cached.marks order = true then
        r ≤ seen.entries ∨ H.entries r = H.entries seen.entries
      else seen.entries ≤ r ∨ H.entries seen.entries = H.entries r
  | .project _ update _ =>
      projectNamed (projectsOf cached.projection) (projectId update) = none →
        ∀ id, projectId update = some id → seen.access id ≤ accessRevision update

section Step

variable {H : History} {cached : Cached} {seen : Seen}

theorem mem_summaries {projects : List Items} {p : Items} (hp : p ∈ projects) :
    (projectId p, accessOf p) ∈ summaries projects :=
  List.mem_map_of_mem hp

/-- A project that a valid list has under an id is the one of that id. -/
theorem projectNamed_id {projects : List Items} (h : ValidProjects t projects) {p : Items}
    (hp : p ∈ projects) {id : String} (hid : projectId p = some id) :
    projectNamed projects (some id) = some p := by
  rw [← hid]
  exact projectNamed_self h.distinct hp

/-- The projection of a read is taken: it has the newest of everything. -/
theorem read_taken (hs : Sound t instanceId H cached.projection seen) {p projection : Items}
    {order : Nat} (hr : FromHistory t instanceId H (.read p order))
    (hle : authorizationRevision cached.projection ≤ authorizationRevision p)
    (hvalid : Valid t instanceId projection) (hview : view projection = view p) :
    Sound t instanceId H projection (seen.after (.read p order)) ∧
      Current H projection (seen.after (.read p order)) := by
  obtain ⟨hp, hentries, haccess⟩ := hr
  have hfence : authorizationRevision projection = authorizationRevision p := congrArg Prod.fst hview
  have hlist : entriesOf projection = entriesOf p := congrArg (fun v => v.2.1) hview
  have hsum : summaries (projectsOf projection) = summaries (projectsOf p) :=
    congrArg (fun v => v.2.2) hview
  have hmono : ∀ id, seen.access id ≤ H.revision (authorizationRevision p) id := fun id =>
    (hs.access_le id).trans (H.monotone id hle)
  have hrevision : ∀ q ∈ projectsOf p, ∀ id, projectId q = some id →
      accessRevision q = H.revision (authorizationRevision p) id := fun q hq id hid =>
    congrArg Prod.fst (haccess _ (mem_summaries hq) id hid)
  refine ⟨⟨hvalid, ?_, fun id => ?_, fun s hmem id hid => ?_⟩, ?_, fun s hmem id hid => ?_⟩
  · rw [hfence]
    exact max_le (hs.entries_le.trans hle) le_rfl
  · rw [hfence]
    dsimp only [Seen.after]
    split
    · rename_i q hq
      obtain ⟨hmem, hid⟩ := projectNamed_some hq
      exact max_le (hmono id) (hrevision q hmem id hid).le
    · exact hmono id
  · rw [hsum] at hmem
    rw [haccess s hmem id hid]
  · dsimp only [Seen.after]
    rw [hlist, hentries, max_eq_right (hs.entries_le.trans hle)]
  · rw [hsum] at hmem
    obtain ⟨q, hq, rfl⟩ := List.mem_map.mp hmem
    dsimp only [Seen.after]
    rw [projectNamed_id hp.projects.2 hq hid]
    have hmax : max (seen.access id) (accessRevision q) = accessRevision q :=
      max_eq_right ((hmono id).trans (hrevision q hq id hid).ge)
    exact hmax.symm

/-- A read is left out: the cache stays the newest exactly when the read brings nothing newer. -/
theorem read_left (hs : Sound t instanceId H cached.projection seen) {p projection : Items}
    {order : Nat} (hr : FromHistory t instanceId H (.read p order))
    (hle : authorizationRevision p ≤ authorizationRevision cached.projection)
    (hvalid : Valid t instanceId projection) (hview : view projection = view cached.projection) :
    Sound t instanceId H projection (seen.after (.read p order)) ∧
      (Current H cached.projection seen → (Current H projection (seen.after (.read p order)) ↔
        (authorizationRevision p ≤ seen.entries ∨
          H.entries (authorizationRevision p) = H.entries seen.entries) ∧
        ∀ q ∈ projectsOf p, ∀ c ∈ projectsOf cached.projection, projectId c = projectId q →
          accessRevision q ≤ accessRevision c)) := by
  obtain ⟨hp, hentries, haccess⟩ := hr
  have hfence : authorizationRevision projection = authorizationRevision cached.projection :=
    congrArg Prod.fst hview
  have hlist : entriesOf projection = entriesOf cached.projection := congrArg (fun v => v.2.1) hview
  have hsum : summaries (projectsOf projection) = summaries (projectsOf cached.projection) :=
    congrArg (fun v => v.2.2) hview
  refine ⟨⟨hvalid, ?_, fun id => ?_, fun s hmem id hid => hs.policy s (hsum ▸ hmem) id hid⟩,
    fun hcurrent => ⟨fun hafter => ⟨?_, fun q hq c hc hid => ?_⟩, fun ⟨hold, hnone⟩ => ⟨?_, ?_⟩⟩⟩
  · rw [hfence]
    exact max_le hs.entries_le hle
  · rw [hfence]
    dsimp only [Seen.after]
    split
    · rename_i q hq
      obtain ⟨hmem, hid⟩ := projectNamed_some hq
      have hrevision : accessRevision q = H.revision (authorizationRevision p) id :=
        congrArg Prod.fst (haccess _ (mem_summaries hmem) id hid)
      exact max_le (hs.access_le id) (hrevision ▸ H.monotone id hle)
    · exact hs.access_le id
  · have hsame := hafter.entries
    rw [hlist, hcurrent.entries] at hsame
    by_cases hnew : authorizationRevision p ≤ seen.entries
    · exact .inl hnew
    · dsimp only [Seen.after] at hsame
      rw [max_eq_right (le_of_lt (not_le.mp hnew))] at hsame
      exact .inr hsame.symm
  · obtain ⟨id, -, hqid⟩ := (hp.projects.2.each q hq).id
    have hcid := hid.trans hqid
    have hbefore := hcurrent.access _ (mem_summaries hc) id hcid
    have hsame := hafter.access _ (hsum ▸ mem_summaries hc) id hcid
    dsimp only [Seen.after] at hsame
    rw [projectNamed_id hp.projects.2 hq hqid, ← hbefore] at hsame
    exact (le_max_right _ _).trans hsame.ge
  · dsimp only [Seen.after]
    rw [hlist, hcurrent.entries]
    rcases hold with hold | hold
    · rw [max_eq_left hold]
    · rcases le_total (authorizationRevision p) seen.entries with h | h
      · rw [max_eq_left h]
      · rw [max_eq_right h, hold]
  · intro s hmem id hid
    rw [hsum] at hmem
    have hbefore := hcurrent.access s hmem id hid
    obtain ⟨c, hc, rfl⟩ := List.mem_map.mp hmem
    dsimp only [Seen.after]
    split
    · rename_i q hq
      obtain ⟨hq', hqid⟩ := projectNamed_some hq
      have hle' := hnone q hq' c hc (hid.trans hqid.symm)
      rw [← hbefore]
      exact (max_eq_left hle').symm
    · exact hbefore

/-- The access entries after a replacement, kept or taken. -/
theorem access_spec (hs : Sound t instanceId H cached.projection seen) {r order : Nat}
    {entries : List Json} (hr : FromHistory t instanceId H (.access r entries order))
    {projection : Items} (hvalid : Valid t instanceId projection)
    (hview : view projection = (max (authorizationRevision cached.projection) r,
      if r ≤ authorizationRevision cached.projection ∧ order < cached.cacheOrder ∧
          supersededAccess cached.marks order = true then entriesOf cached.projection
        else entries, summaries (projectsOf cached.projection))) :
    Sound t instanceId H projection (seen.after (.access r entries order)) ∧
      (Current H cached.projection seen →
        (Current H projection (seen.after (.access r entries order)) ↔
          Timely H cached seen (.access r entries order))) := by
  obtain ⟨-, -, hentries⟩ := hr
  have hfence : authorizationRevision projection =
      max (authorizationRevision cached.projection) r := congrArg Prod.fst hview
  have hlist := congrArg (fun v => v.2.1) hview
  have hsum : summaries (projectsOf projection) = summaries (projectsOf cached.projection) :=
    congrArg (fun v => v.2.2) hview
  have hchoice : ∀ a b : Nat, H.entries (max a b) = H.entries a ↔
      b ≤ a ∨ H.entries b = H.entries a := by
    intro a b
    rcases le_total b a with h | h
    · simp [h]
    · rw [max_eq_right h]
      refine ⟨.inr, fun hor => hor.elim (fun hle => ?_) id⟩
      rw [le_antisymm h hle]
  refine ⟨⟨hvalid, ?_, fun id => ?_, fun s hmem id hid => hs.policy s (hsum ▸ hmem) id hid⟩,
    fun hcurrent => ?_⟩
  · rw [hfence]
    exact max_le (hs.entries_le.trans (le_max_left _ _)) (le_max_right _ _)
  · rw [hfence]
    exact (hs.access_le id).trans (H.monotone id (le_max_left _ _))
  · have hiff : Current H projection (seen.after (.access r entries order)) ↔
        entriesOf projection = H.entries (max seen.entries r) := by
      refine ⟨fun h => h.entries, fun h => ⟨h, fun s hmem id hid => ?_⟩⟩
      exact hcurrent.access s (hsum ▸ hmem) id hid
    dsimp only [view] at hlist
    rw [hiff, hlist]
    dsimp only [Timely]
    split
    · rw [hcurrent.entries]
      exact eq_comm.trans (hchoice _ _)
    · rw [hentries, max_comm]
      exact eq_comm.trans (hchoice _ _)

/-- The projects after an update. -/
theorem project_spec (hs : Sound t instanceId H cached.projection seen) {r order : Nat}
    {update : Items} (hr : FromHistory t instanceId H (.project r update order))
    {projection : Items} (hvalid : Valid t instanceId projection)
    (hview : view projection = (max (authorizationRevision cached.projection) r,
      entriesOf cached.projection,
      summaries (replaceProject (projectsOf cached.projection) update))) :
    Sound t instanceId H projection (seen.after (.project r update order)) ∧
      (Current H cached.projection seen →
        (Current H projection (seen.after (.project r update order)) ↔
          Timely H cached seen (.project r update order))) := by
  obtain ⟨hu, haccess⟩ := hr
  obtain ⟨id₀, -, hid₀⟩ := hu.id
  obtain ⟨-, hother, -, ⟨new, hnew, hnewid⟩, hthis⟩ :=
    replaceProject_spec hs.valid.projects.2 hu
  have hfence : authorizationRevision projection =
      max (authorizationRevision cached.projection) r := congrArg Prod.fst hview
  have hlist : entriesOf projection = entriesOf cached.projection := congrArg (fun v => v.2.1) hview
  have hsum : summaries (projectsOf projection) =
      summaries (replaceProject (projectsOf cached.projection) update) :=
    congrArg (fun v => v.2.2) hview
  have hurevision : accessRevision update = H.revision r id₀ := congrArg Prod.fst (haccess id₀ hid₀)
  refine ⟨⟨hvalid, ?_, fun id => ?_, fun s hmem id hid => ?_⟩, fun hcurrent =>
    ⟨fun hafter hnone id hid => ?_, fun htimely => ⟨?_, fun s hmem id hid => ?_⟩⟩⟩
  · rw [hfence]
    exact hs.entries_le.trans (le_max_left _ _)
  · rw [hfence]
    have hseen := (hs.access_le id).trans (H.monotone id
      (le_max_left (authorizationRevision cached.projection) r))
    dsimp only [Seen.after]
    split
    · rename_i hid
      cases hid₀.symm.trans hid
      exact max_le hseen (hurevision ▸ H.monotone id₀ (le_max_right _ _))
    · exact hseen
  · rw [hsum] at hmem
    obtain ⟨q, hq, rfl⟩ := List.mem_map.mp hmem
    by_cases hqid : projectId q = projectId update
    · have hq' := hthis q hq hqid
      cases hnamed : projectNamed (projectsOf cached.projection) (projectId update) with
      | none =>
          rw [hnamed] at hq'
          have hown := haccess id (hqid ▸ hid)
          dsimp only
          rw [hq', hown]
      | some old =>
          rw [hnamed] at hq'
          obtain ⟨hold, holdid⟩ := projectNamed_some hnamed
          dsimp only at hq' ⊢
          rw [hq']
          split
          · exact hs.policy _ (mem_summaries hold) id (holdid.trans (hqid.symm.trans hid))
          · rw [haccess id (hqid ▸ hid)]
    · exact hs.policy _ (mem_summaries (hother q hq hqid)) id hid
  · have hsame := hafter.access _ (hsum ▸ mem_summaries hnew) id (hnewid.trans hid)
    have hnew' := hthis new hnew hnewid
    rw [hnone] at hnew'
    dsimp only [Seen.after] at hsame hnew'
    rw [if_pos hid, hnew'] at hsame
    exact (le_max_left _ _).trans hsame.ge
  · exact hlist.trans hcurrent.entries
  · rw [hsum] at hmem
    obtain ⟨q, hq, rfl⟩ := List.mem_map.mp hmem
    dsimp only [Seen.after]
    by_cases hqid : projectId q = projectId update
    · have hid' : projectId update = some id := hqid ▸ hid
      have hq' := hthis q hq hqid
      rw [if_pos hid']
      cases hnamed : projectNamed (projectsOf cached.projection) (projectId update) with
      | none =>
          rw [hnamed] at hq'
          dsimp only at hq'
          rw [hq']
          exact (max_eq_right (htimely hnamed id hid')).symm
      | some old =>
          rw [hnamed] at hq'
          obtain ⟨hold, holdid⟩ := projectNamed_some hnamed
          have hbefore : accessRevision old = seen.access id :=
            hcurrent.access _ (mem_summaries hold) id (holdid.trans hid')
          dsimp only at hq' ⊢
          rw [hq', ← hbefore]
          split
          · rename_i hlt
            exact (max_eq_left hlt.le).symm
          · rename_i hle
            exact (max_eq_right (not_lt.mp hle)).symm
    · have hne : ¬ projectId update = some id := fun heq => hqid (hid.trans heq.symm)
      rw [if_neg hne]
      exact hcurrent.access _ (mem_summaries (hother q hq hqid)) id hid

end Step

end Avibe.Permissions
