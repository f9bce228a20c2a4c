import Avibe.Access.Intents
import Avibe.Lib.Newest

/-!
# Runs of intents

Intents reach the instance in any order and any number of times, and a call that raises is rolled
back. What a policy and its groups say of the values is a cell that takes the newest revision
(`perform_spec`), so runs settle on the same values whatever their order; and since a call that the
narrowing test does not report admits everybody it admitted before, nobody loses a use unreported.
-/

namespace Avibe.Access

open Texts Txn Machine Newest

structure Call where
  intent : Intent
  now : Text

/-- The store after a call and its transaction. -/
def perform (store : Store) (call : Call) : Store :=
  commit (applyControlPlaneIntent call.intent call.now) store

/-- The call returned. -/
def Returns (store : Store) (call : Call) : Prop :=
  (value? (applyControlPlaneIntent call.intent call.now) store).isSome = true

/-- The call returned and wrote its values. -/
def Applies (store : Store) (call : Call) : Prop :=
  (value? (applyControlPlaneIntent call.intent call.now) store).map Outcome.status = some .applied

/-- The values of a policy and the revisions it still takes. -/
def cellOf (row : Serialized) : Cell (AccessLevel × Finset Text) :=
  ⟨max (lastRevision row.policy + 1) row.policy.policyRevision,
    (row.policy.accessLevel, row.groupIds.toFinset)⟩

/-- What a call may do to the policy of its resource. -/
structure Steps (row row' : Serialized) : Prop where
  revision : row.policy.policyRevision ≤ row'.policy.policyRevision
  ownerUserId : row'.policy.ownerUserId = row.policy.ownerUserId
  organizationId : row'.policy.organizationId = row.policy.organizationId

theorem newer_iff {revision : Int} {row : Serialized} :
    Newer revision row.policy ↔ (cellOf row).next ≤ revision := by
  rw [Newer, cellOf, max_le_iff, Int.add_one_le_iff]

theorem groupIds_of_some {store : Store} {kind : ResourceKind} {resourceId : Text} {row : Serialized}
    (h : getResourcePolicy store kind resourceId = some row) :
    row.groupIds = policyGroups store kind resourceId := by
  obtain ⟨policy, -, rfl⟩ := Option.map_eq_some_iff.mp h
  rfl

theorem mem_policyGroups {store : Store} {kind : ResourceKind} {resourceId group : Text} :
    group ∈ policyGroups store kind resourceId ↔
      ∃ row ∈ store.groups, (row.resourceKind = kind ∧ row.resourceId = resourceId) ∧
        row.groupId = group := by
  rw [policyGroups, List.mem_mergeSort, List.mem_map]
  simp only [List.mem_filter, decide_eq_true_eq, and_assoc]

/-- A written policy has the groups of the intent. -/
theorem mem_policyGroups_written {store : Store} {kind : ResourceKind}
    {resourceId organization : Text} {policy : Policy} {level : AccessLevel} {groups : List Text}
    {intent : Intent} {now group : Text} :
    group ∈ policyGroups (written kind resourceId organization policy level groups intent now store)
      kind resourceId ↔ group ∈ groups := by
  rw [mem_policyGroups, written, replacePolicyGroups]
  constructor
  · rintro ⟨row, hrow, hof, rfl⟩
    cases List.mem_append.mp hrow with
    | inl hkept => exact absurd hof (of_decide_eq_true (List.mem_filter.mp hkept).2)
    | inr hnew =>
        obtain ⟨g, hg, rfl⟩ := List.mem_map.mp hnew
        exact hg
  · intro hgroup
    exact ⟨_, List.mem_append_right _ (List.mem_map_of_mem hgroup), ⟨rfl, rfl⟩, rfl⟩

theorem getResourcePolicy_written {store : Store} {kind : ResourceKind}
    {resourceId organization : Text} {policy : Policy} {level : AccessLevel} {groups : List Text}
    {intent : Intent} {now : Text} :
    let store' := written kind resourceId organization policy level groups intent now store
    getResourcePolicy store' kind resourceId = some (serializePolicy store' kind resourceId
      (updated policy level intent.revision intent.updatedByUserId now)) := by
  simp [getResourcePolicy, written, Store.setPolicy]

/-- A call that does not write its values changes nothing. -/
theorem perform_of_not_applies {store : Store} {call : Call} (h : ¬ Applies store call) :
    perform store call = store := by
  cases hresult : applyControlPlaneIntent call.intent call.now store with
  | error e => rw [perform, commit, hresult]
  | ok result =>
      obtain ⟨outcome, store'⟩ := result
      obtain ⟨_, _, _, policy, _, _, -, -, -, -, hstatus, -, hkept⟩ := apply_ok hresult
      rw [perform, commit, hresult]
      apply hkept
      intro hnew
      apply h
      rw [Applies, value?, hresult]
      exact congrArg some (hstatus.mpr hnew)

theorem Intent.For.unique {intent : Intent} {kind kind' : ResourceKind} {resourceId resourceId' : Text}
    (h : intent.For kind resourceId) (h' : intent.For kind' resourceId') :
    kind' = kind ∧ resourceId' = resourceId :=
  ⟨Option.some.inj (h'.1.symm.trans h.1), Option.some.inj (h'.2.symm.trans h.2)⟩

theorem present_of_clean {value : Option Text} {t : Text} (h : cleanOptionalString value = some t) :
    present (cleanOptionalString value) = true := by
  rw [cleanOptionalString, Option.filter_eq_some_iff, decide_eq_true_eq] at h
  rw [cleanOptionalString, h.1, Option.filter_some, if_pos (decide_eq_true h.2)]
  exact decide_eq_true h.2.1

/-- A call for a resource, on the policy it finds. -/
theorem perform_spec {store : Store} {call : Call} {kind : ResourceKind} {resourceId : Text}
    (hfor : call.intent.For kind resourceId) {row : Serialized}
    (hrow : getResourcePolicy store kind resourceId = some row) :
    ∃ row', getResourcePolicy (perform store call) kind resourceId = some row' ∧ Steps row row' ∧
      (row' ≠ row → present (cleanOptionalString row.policy.organizationId) = true) ∧
      (Returns store call → ∃ value, call.intent.values = some value ∧
        cellOf row' = (cellOf row).offer ⟨call.intent.revision, value⟩) := by
  have hsame : Steps row row := ⟨Int.le_refl _, rfl, rfl⟩
  cases hresult : applyControlPlaneIntent call.intent call.now store with
  | error e =>
      have hreturns : ¬ Returns store call := by simp [Returns, value?, hresult]
      rw [perform, commit, hresult]
      exact ⟨row, hrow, hsame, fun hne => absurd rfl hne, fun h => absurd h hreturns⟩
  | ok result =>
      obtain ⟨outcome, store'⟩ := result
      obtain ⟨kind', resourceId', organization, policy, level, groups, hfor', hvalues, hpolicy, horganization,
        -, hwritten, hkept⟩ := apply_ok hresult
      obtain ⟨rfl, rfl⟩ := hfor.unique hfor'
      obtain rfl : serializePolicy store kind' resourceId' policy = row := by
        rw [getResourcePolicy, hpolicy] at hrow
        exact Option.some.inj hrow
      rw [perform, commit, hresult]
      by_cases hnew : Newer call.intent.revision policy
      · have hcell : (cellOf (serializePolicy store kind' resourceId' policy)).next ≤
            call.intent.revision := newer_iff.mp hnew
        rw [hwritten hnew]
        refine ⟨_, getResourcePolicy_written, ⟨hnew.2, rfl, rfl⟩,
          fun _ => present_of_clean horganization, fun _ => ⟨_, hvalues, ?_⟩⟩
        rw [Cell.offer, if_pos hcell, cellOf]
        have hnext : max (call.intent.revision + 1) call.intent.revision = call.intent.revision + 1 :=
          max_eq_left (Int.lt_succ _).le
        have hgroups : (policyGroups (written kind' resourceId' organization policy level groups call.intent
            call.now store) kind' resourceId').toFinset = groups.toFinset := by
          ext group
          rw [List.mem_toFinset, List.mem_toFinset, mem_policyGroups_written]
        simp only [serializePolicy, lastRevision, updated, Option.getD_some, hnext, hgroups]
      · have hcell : ¬ (cellOf (serializePolicy store kind' resourceId' policy)).next ≤
            call.intent.revision := fun h => hnew (newer_iff.mpr h)
        rw [hkept hnew]
        refine ⟨_, hrow, hsame, fun hne => absurd rfl hne, fun _ => ⟨_, hvalues, ?_⟩⟩
        rw [Cell.offer, if_neg hcell]

/-- A call that the narrowing test does not report takes no use away. -/
theorem perform_allowed {store : Store} {call : Call} {kind : ResourceKind} {resourceId : Text}
    (hfor : call.intent.For kind resourceId) {row row' : Serialized}
    (hrow : getResourcePolicy store kind resourceId = some row)
    (hrow' : getResourcePolicy (perform store call) kind resourceId = some row')
    (hnarrowed : resourcePolicyNarrowed (some row) (some row') = false) {context : UserContext}
    (h : Allowed context kind row) : Allowed context kind row' := by
  obtain ⟨next, hnext, hsteps, hpresent, -⟩ := perform_spec hfor hrow
  obtain rfl : next = row' := Option.some.inj (hnext.symm.trans hrow')
  by_cases hne : next = row
  · rw [hne]
    exact h
  · exact allowed_of_not_narrowed hsteps.ownerUserId hsteps.organizationId (hpresent hne) hnarrowed h

/-! ## Runs -/

/-- The offer of an intent that has values. -/
def offerOf (call : Call) : Option (Offer (AccessLevel × Finset Text)) :=
  call.intent.values.map fun value => ⟨call.intent.revision, value⟩

theorem mem_offers {calls : List Call} {o : Offer (AccessLevel × Finset Text)} :
    o ∈ calls.filterMap offerOf ↔
      ∃ call ∈ calls, call.intent.revision = o.revision ∧ call.intent.values = some o.value := by
  rw [List.mem_filterMap]
  apply exists_congr
  intro call
  apply and_congr_right
  intro _
  rw [offerOf, Option.map_eq_some_iff]
  constructor
  · rintro ⟨value, hvalue, rfl⟩
    exact ⟨rfl, hvalue⟩
  · rintro ⟨hrevision, hvalue⟩
    exact ⟨o.value, hvalue, by rw [hrevision]⟩

theorem run_row {store : Store} {kind : ResourceKind} {resourceId : Text} {row : Serialized}
    (hrow : getResourcePolicy store kind resourceId = some row) {calls : List Call}
    (hfor : ∀ call ∈ calls, call.intent.For kind resourceId) :
    ∃ final, getResourcePolicy (after perform store calls) kind resourceId = some final := by
  induction calls generalizing store row with
  | nil => exact ⟨row, hrow⟩
  | cons call calls ih =>
      obtain ⟨row', hrow', -⟩ := perform_spec (hfor call List.mem_cons_self) hrow
      exact ih hrow' fun c hc => hfor c (List.mem_cons_of_mem _ hc)

/-- A run in which every call returned is a run of offers to the cell. -/
theorem run_offers {store : Store} {kind : ResourceKind} {resourceId : Text} {row final : Serialized}
    (hrow : getResourcePolicy store kind resourceId = some row) {calls : List Call}
    (hfor : ∀ call ∈ calls, call.intent.For kind resourceId)
    (hreturns : Along perform Returns store calls)
    (hfinal : getResourcePolicy (after perform store calls) kind resourceId = some final) :
    (∀ call ∈ calls, (offerOf call).isSome) ∧
      cellOf final = after Cell.offer (cellOf row) (calls.filterMap offerOf) := by
  induction calls generalizing store row with
  | nil =>
      obtain rfl : row = final := Option.some.inj (hrow.symm.trans hfinal)
      exact ⟨fun call h => absurd h List.not_mem_nil, rfl⟩
  | cons call calls ih =>
      obtain ⟨row', hrow', -, -, hoffer⟩ := perform_spec (hfor call List.mem_cons_self) hrow
      obtain ⟨value, hvalue, hcell⟩ := hoffer hreturns.1
      have hthis : offerOf call = some ⟨call.intent.revision, value⟩ := by rw [offerOf, hvalue]; rfl
      obtain ⟨hall, hrest⟩ := ih hrow' (fun c hc => hfor c (List.mem_cons_of_mem _ hc)) hreturns.2 hfinal
      constructor
      · intro c hc
        cases List.mem_cons.mp hc with
        | inl h => rw [h, hthis]; rfl
        | inr h => exact hall c h
      · rw [List.filterMap_cons_some hthis, after_cons, ← hcell]
        exact hrest

/-- Every call of such a run has its offer in the run of offers. -/
theorem exists_offer {calls : List Call} (hall : ∀ call ∈ calls, (offerOf call).isSome) {call : Call}
    (h : call ∈ calls) : ∃ o ∈ calls.filterMap offerOf, o.revision = call.intent.revision := by
  obtain ⟨o, ho⟩ := Option.isSome_iff_exists.mp (hall call h)
  refine ⟨o, List.mem_filterMap.mpr ⟨call, h, ho⟩, ?_⟩
  obtain ⟨value, -, rfl⟩ := Option.map_eq_some_iff.mp ho
  rfl

/-- The values a run ends with are those of its newest intent, or the first ones. -/
theorem run_values {store : Store} {kind : ResourceKind} {resourceId : Text} {row final : Serialized}
    (hrow : getResourcePolicy store kind resourceId = some row) {calls : List Call}
    (hfor : ∀ call ∈ calls, call.intent.For kind resourceId)
    (hreturns : Along perform Returns store calls)
    (hfinal : getResourcePolicy (after perform store calls) kind resourceId = some final) :
    (∃ call ∈ calls, Newer call.intent.revision row.policy ∧
      (∀ call' ∈ calls, call'.intent.revision ≤ call.intent.revision) ∧
      call.intent.values = some (final.policy.accessLevel, final.groupIds.toFinset)) ∨
    (∀ call ∈ calls, ¬ Newer call.intent.revision row.policy) ∧
      final.policy.accessLevel = row.policy.accessLevel ∧
      final.groupIds.toFinset = row.groupIds.toFinset := by
  obtain ⟨hall, hcell⟩ := run_offers hrow hfor hreturns hfinal
  cases settled_after (cellOf row) (calls.filterMap offerOf) with
  | kept hold heq =>
      have hvalue := congrArg Cell.value (hcell.trans heq)
      refine Or.inr ⟨fun call hcall hnew => ?_, congrArg Prod.fst hvalue, congrArg Prod.snd hvalue⟩
      obtain ⟨o, ho, hrevision⟩ := exists_offer hall hcall
      exact absurd (newer_iff.mp hnew) (not_le.mpr (hrevision ▸ hold o ho))
  | took o hmem hnew hmax heq =>
      obtain ⟨call, hcall, hrevision, hvalues⟩ := mem_offers.mp hmem
      have hvalue : (final.policy.accessLevel, final.groupIds.toFinset) = o.value :=
        congrArg Cell.value (hcell.trans heq)
      refine Or.inl ⟨call, hcall, newer_iff.mpr (hrevision ▸ hnew), fun call' hcall' => ?_,
        hvalue ▸ hvalues⟩
      obtain ⟨o', ho', hrevision'⟩ := exists_offer hall hcall'
      rw [← hrevision', hrevision]
      exact hmax o' ho'

/-- Runs of the same intents, in whatever order and however often, end with the same values. -/
theorem run_order {store : Store} {kind : ResourceKind} {resourceId : Text} {row final final' : Serialized}
    (hrow : getResourcePolicy store kind resourceId = some row) {calls calls' : List Call}
    (hfor : ∀ call ∈ calls, call.intent.For kind resourceId)
    (hagree : ∀ call ∈ calls, ∀ call' ∈ calls, call.intent.revision = call'.intent.revision →
      call.intent.values = call'.intent.values)
    (hmem : ∀ call, call ∈ calls' ↔ call ∈ calls)
    (hreturns : Along perform Returns store calls) (hreturns' : Along perform Returns store calls')
    (hfinal : getResourcePolicy (after perform store calls) kind resourceId = some final)
    (hfinal' : getResourcePolicy (after perform store calls') kind resourceId = some final') :
    cellOf final' = cellOf final := by
  obtain ⟨-, hcell⟩ := run_offers hrow hfor hreturns hfinal
  obtain ⟨-, hcell'⟩ := run_offers hrow (fun c hc => hfor c ((hmem c).mp hc)) hreturns' hfinal'
  rw [hcell, hcell']
  apply Eq.symm
  apply settled_unique _ _ (settled_after _ _) (settled_after _ _)
  · intro o
    rw [mem_offers, mem_offers]
    exact exists_congr fun call => and_congr_left fun _ => (hmem call).symm
  · intro o ho p hp hrevision
    obtain ⟨call, hcall, hcallRevision, hvalues⟩ := mem_offers.mp ho
    obtain ⟨call', hcall', hcallRevision', hvalues'⟩ := mem_offers.mp hp
    have hsame := hagree call hcall call' hcall' (by rw [hcallRevision, hrevision, hcallRevision'])
    exact Option.some.inj (hvalues.symm.trans (hsame.trans hvalues'))

theorem run_allowed {store : Store} {kind : ResourceKind} {resourceId : Text} {row final : Serialized}
    (hrow : getResourcePolicy store kind resourceId = some row) {calls : List Call}
    (hfor : ∀ call ∈ calls, call.intent.For kind resourceId)
    (hfinal : getResourcePolicy (after perform store calls) kind resourceId = some final)
    (hnarrowed : Along perform (fun s call => resourcePolicyNarrowed (getResourcePolicy s kind resourceId)
      (getResourcePolicy (perform s call) kind resourceId) = false) store calls)
    {context : UserContext} (h : Allowed context kind row) : Allowed context kind final := by
  induction calls generalizing store row with
  | nil =>
      obtain rfl : row = final := Option.some.inj (hrow.symm.trans hfinal)
      exact h
  | cons call calls ih =>
      obtain ⟨row', hrow', -⟩ := perform_spec (hfor call List.mem_cons_self) hrow
      have hstep : resourcePolicyNarrowed (getResourcePolicy store kind resourceId)
          (getResourcePolicy (perform store call) kind resourceId) = false := hnarrowed.1
      rw [hrow, hrow'] at hstep
      exact ih hrow' (fun c hc => hfor c (List.mem_cons_of_mem _ hc)) hfinal hnarrowed.2
        (perform_allowed (hfor call List.mem_cons_self) hrow hrow' hstep h)

/-- **Access intents converge, and no loss of access goes unreported**. -/
theorem intents_converge {store : Store} {kind : ResourceKind} {resourceId : Text} {row : Serialized}
    (hrow : getResourcePolicy store kind resourceId = some row) {calls : List Call}
    (hfor : ∀ call ∈ calls, call.intent.For kind resourceId)
    (hagree : ∀ call ∈ calls, ∀ call' ∈ calls, call.intent.revision = call'.intent.revision →
      call.intent.values = call'.intent.values) :
    (∀ earlier call later, calls = earlier ++ call :: later →
      ∃ p p', getResourcePolicy (after perform store earlier) kind resourceId = some p ∧
        getResourcePolicy (after perform store (earlier ++ [call])) kind resourceId = some p' ∧
        Steps p p' ∧
        (¬ Applies (after perform store earlier) call →
          after perform store (earlier ++ [call]) = after perform store earlier) ∧
        (resourcePolicyNarrowed (some p) (some p') = false →
          ∀ context, Allowed context kind p → Allowed context kind p')) ∧
      ∃ final, getResourcePolicy (after perform store calls) kind resourceId = some final ∧
        (Along perform Returns store calls →
          (∃ call ∈ calls, Newer call.intent.revision row.policy ∧
            (∀ call' ∈ calls, call'.intent.revision ≤ call.intent.revision) ∧
            call.intent.values = some (final.policy.accessLevel, final.groupIds.toFinset)) ∨
          (∀ call ∈ calls, ¬ Newer call.intent.revision row.policy) ∧
            final.policy.accessLevel = row.policy.accessLevel ∧
            final.groupIds.toFinset = row.groupIds.toFinset) ∧
        (∀ calls', (∀ call, call ∈ calls' ↔ call ∈ calls) → Along perform Returns store calls →
          Along perform Returns store calls' →
          ∃ final', getResourcePolicy (after perform store calls') kind resourceId = some final' ∧
            final'.policy.accessLevel = final.policy.accessLevel ∧
            final'.groupIds.toFinset = final.groupIds.toFinset) ∧
        (Along perform (fun s call => resourcePolicyNarrowed (getResourcePolicy s kind resourceId)
            (getResourcePolicy (perform s call) kind resourceId) = false) store calls →
          ∀ context, Allowed context kind row → Allowed context kind final) := by
  constructor
  · intro earlier call later hcalls
    have hfor' : ∀ c ∈ earlier ++ call :: later, c.intent.For kind resourceId := hcalls ▸ hfor
    obtain ⟨p, hp⟩ := run_row hrow fun c hc => hfor' c (List.mem_append_left _ hc)
    have hcall := hfor' call (List.mem_append_right _ List.mem_cons_self)
    obtain ⟨p', hp', hsteps, -⟩ := perform_spec hcall hp
    refine ⟨p, p', hp, ?_, hsteps, ?_, ?_⟩
    · rw [after_append]
      exact hp'
    · rw [after_append]
      exact perform_of_not_applies
    · exact fun hnarrowed context => perform_allowed hcall hp hp' hnarrowed
  · obtain ⟨final, hfinal⟩ := run_row hrow hfor
    refine ⟨final, hfinal, ?_, ?_, ?_⟩
    · exact fun hreturns => run_values hrow hfor hreturns hfinal
    · intro calls' hmem hreturns hreturns'
      obtain ⟨final', hfinal'⟩ := run_row hrow fun c hc => hfor c ((hmem c).mp hc)
      have hcell := run_order hrow hfor hagree hmem hreturns hreturns' hfinal hfinal'
      have hvalue := congrArg Cell.value hcell
      exact ⟨final', hfinal', congrArg Prod.fst hvalue, congrArg Prod.snd hvalue⟩
    · exact fun hnarrowed context => run_allowed hrow hfor hfinal hnarrowed

/-- The policy of an agent of one organization, before any intent. -/
def freshStore : Store :=
  ⟨fun kind id => if kind = .agent ∧ id = lit "a" then
      some ⟨some (lit "o"), some (lit "u"), .privateLevel, none, 0, none, lit "now"⟩ else none, []⟩

def callOf (revision : Int) (level : String) (groupIds : List (Option Text)) : Call :=
  ⟨⟨some (lit "o"), lit "agent", some (lit " a "), revision, lit level, .items groupIds, none⟩, lit "later"⟩

/-- Opened to all, then to two groups, then to one of them. -/
def narrowing : List Call :=
  [callOf 1 "public" [], callOf 2 "scope" [some (lit "g"), some (lit "h")],
    callOf 3 "scope" [some (lit "g"), some (lit " g ")]]

/-- The same calls, the newest one first and last. -/
def narrowingLate : List Call :=
  [callOf 3 "scope" [some (lit "g"), some (lit " g ")], callOf 1 "public" [],
    callOf 2 "scope" [some (lit "g"), some (lit "h")],
    callOf 3 "scope" [some (lit "g"), some (lit " g ")]]

theorem narrowing_newest {call : Call} (hcall : call ∈ narrowing) (hlast : 3 ≤ call.intent.revision) :
    call.intent.values = some (.scopeLevel, {lit "g"}) := by
  simp only [narrowing, List.mem_cons, List.not_mem_nil, or_false] at hcall
  rcases hcall with rfl | rfl | rfl
  · exact absurd hlast (by decide)
  · exact absurd hlast (by decide)
  · decide +kernel

/-- Both orders end with the one group, the last step is reported as narrower, and a call without
groups that raises in between changes nothing. -/
theorem intents_converge_narrowing :
    (∃ final final', getResourcePolicy (after perform freshStore narrowing) .agent (lit "a") = some final ∧
      getResourcePolicy (after perform freshStore narrowingLate) .agent (lit "a") = some final' ∧
      (final.policy.accessLevel = .scopeLevel ∧ final.groupIds.toFinset = {lit "g"}) ∧
      final'.policy.accessLevel = .scopeLevel ∧ final'.groupIds.toFinset = {lit "g"}) ∧
    (∃ p p', getResourcePolicy (after perform freshStore (narrowing.take 2)) .agent (lit "a") = some p ∧
      getResourcePolicy (after perform freshStore narrowing) .agent (lit "a") = some p' ∧ Steps p p' ∧
      resourcePolicyNarrowed (some p) (some p') = true) ∧
    after perform freshStore (narrowing ++ [callOf 4 "scope" []]) = after perform freshStore narrowing := by
  have hrow : getResourcePolicy freshStore .agent (lit "a") = some (serializePolicy freshStore .agent (lit "a")
      ⟨some (lit "o"), some (lit "u"), .privateLevel, none, 0, none, lit "now"⟩) := rfl
  have hfor : ∀ call ∈ narrowing ++ [callOf 4 "scope" []], call.intent.For .agent (lit "a") := by
    simp only [Intent.For]
    decide +kernel
  have hagree : ∀ call ∈ narrowing ++ [callOf 4 "scope" []],
      ∀ call' ∈ narrowing ++ [callOf 4 "scope" []],
      call.intent.revision = call'.intent.revision → call.intent.values = call'.intent.values := by
    decide +kernel
  have hmem : ∀ call, call ∈ narrowingLate ↔ call ∈ narrowing := by
    intro call
    simp only [narrowing, narrowingLate, List.mem_cons, List.not_mem_nil, or_false]
    tauto
  have hreturns : Along perform Returns freshStore narrowing := ⟨by rfl, by rfl, by rfl, trivial⟩
  have hreturns' : Along perform Returns freshStore narrowingLate :=
    ⟨by rfl, by rfl, by rfl, by rfl, trivial⟩
  obtain ⟨hsteps, final, hfinal, hvalues, hperm, -⟩ := intents_converge hrow
    (fun call h => hfor call (List.mem_append_left _ h))
    (fun call h call' h' => hagree call (List.mem_append_left _ h) call' (List.mem_append_left _ h'))
  obtain ⟨final', hfinal', hlevel, hgroups⟩ := hperm narrowingLate hmem hreturns hreturns'
  have hnewest : final.policy.accessLevel = .scopeLevel ∧ final.groupIds.toFinset = {lit "g"} := by
    rcases hvalues hreturns with ⟨call, hcall, -, hmax, hvalue⟩ | ⟨hold, -⟩
    · have hgroup := narrowing_newest hcall <|
        hmax (callOf 3 "scope" [some (lit "g"), some (lit " g ")]) (List.mem_of_mem_getLast? rfl)
      have hsame := Option.some.inj (hvalue.symm.trans hgroup)
      exact ⟨congrArg Prod.fst hsame, congrArg Prod.snd hsame⟩
    · refine absurd ?_ (hold (callOf 1 "public" []) List.mem_cons_self)
      rw [Newer]
      decide
  refine ⟨⟨final, final', hfinal, hfinal', hnewest, hlevel.trans hnewest.1, hgroups.trans hnewest.2⟩, ?_, ?_⟩
  · obtain ⟨p, p', hp, hp', hstep, -⟩ := hsteps (narrowing.take 2) _ [] rfl
    refine ⟨p, p', hp, hp', hstep, ?_⟩
    obtain rfl : p' = final := Option.some.inj (hp'.symm.trans hfinal)
    have hscope : (getResourcePolicy (after perform freshStore (narrowing.take 2)) .agent (lit "a")).map
        (·.policy.accessLevel) = some .scopeLevel := by rfl
    rw [hp] at hscope
    have hbefore : lit "h" ∈ p.groupIds := by
      rw [groupIds_of_some hp, mem_policyGroups]
      decide +kernel
    have hafter : lit "h" ∉ p'.groupIds := by
      rw [← List.mem_toFinset, hnewest.2]
      decide +kernel
    simp only [resourcePolicyNarrowed, Option.some.inj hscope, hnewest.1]
    exact (Bool.not_eq_true' _).mpr (List.all_eq_false.mpr ⟨lit "h", hbefore, by simpa using hafter⟩)
  · obtain ⟨-, -, -, -, -, hkept, -⟩ :=
      (intents_converge hrow hfor hagree).1 narrowing (callOf 4 "scope" []) [] rfl
    refine hkept ?_
    rw [Applies]
    decide +kernel

end Avibe.Access
