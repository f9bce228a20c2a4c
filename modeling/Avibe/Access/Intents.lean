import Avibe.Access.Policies
import Avibe.Lib.Recency
import Avibe.Lib.Txn
import Mathlib.Logic.Function.Basic
import Mathlib.Algebra.Group.Int.Defs
import Mathlib.Data.List.Lex
import Mathlib.Order.Fin.Basic

/-!
# Control-plane intents

The hosted control plane sends access intents with a revision; each is applied to the stored policy of
its resource inside a transaction of the caller. `apply_ok` says all that a call which returned can
have done, and the theorems after it speak of one call.
-/

namespace Avibe.Access

open Texts Txn

structure GroupRow where
  resourceKind : ResourceKind
  resourceId : Text
  groupId : Text
  organizationId : Text
  createdAt : Text
deriving DecidableEq

structure Store where
  policies : ResourceKind → Text → Option Policy
  groups : List GroupRow

inductive Error
  | resourceAccess (code : String)
  /-- A string that has no encoding in UTF-8, or a number beyond 64 bits, given to the database. -/
  | binding
deriving DecidableEq

/-- The group ids of a request, as they came: an element is `none` when it is not a string. -/
inductive GroupsValue
  | missing
  | items (groupIds : List (Option Text))
  | other

structure Intent where
  organizationId : Option Text
  resourceKind : Text
  resourceId : Option Text
  revision : Int
  accessLevel : Text
  groupIds : GroupsValue
  updatedByUserId : Option Text

inductive Status
  | stale
  | alreadyApplied
  | applied
deriving DecidableEq

structure Outcome where
  status : Status
  policy : Serialized

def invalidIntent : Error := .resourceAccess "invalid_resource_acl_intent"

def requiredIdentifier (value : Option Text) (code : String) : Txn Store Error Text :=
  match cleanOptionalString value with
  | some cleaned => pure cleaned
  | none => throw (.resourceAccess code)

def kindOf (t : Text) : Option ResourceKind :=
  if t = lit "agent" then some .agent
  else if t = lit "vault_secret" then some .vaultSecret
  else if t = lit "skill" then some .skill
  else none

def validateResourceKind (resourceKind : Text) : Txn Store Error ResourceKind :=
  match kindOf resourceKind with
  | some kind => pure kind
  | none => throw (.resourceAccess "invalid_resource_kind")

/-- The cleaned group ids, each once, when all of them are strings. -/
def normalizeGroupIds : GroupsValue → Option (List Text)
  | .missing => some []
  | .items groupIds => (groupIds.mapM cleanOptionalString).map Recency.unique
  | .other => none

def validatePolicyValues (accessLevel : Text) (groupIds : GroupsValue) (organizationId : Option Text) :
    Option (AccessLevel × List Text) := do
  let level ← AccessLevel.ofText accessLevel
  let groups ← normalizeGroupIds groupIds
  if level ≠ .privateLevel ∧ !present organizationId then none
  else if level = .scopeLevel then
    if groups = [] then none else some (level, groups)
  else if groups ≠ [] then none
  else some (level, groups)

/-- The database takes the string. -/
def bindable (t : Text) : Bool := t.all isScalar

def policyGroups (store : Store) (kind : ResourceKind) (resourceId : Text) : List Text :=
  ((store.groups.filter fun row => row.resourceKind = kind ∧ row.resourceId = resourceId).map
    GroupRow.groupId).mergeSort fun a b => decide (a ≤ b)

def serializePolicy (store : Store) (kind : ResourceKind) (resourceId : Text) (policy : Policy) :
    Serialized :=
  ⟨policy, policyGroups store kind resourceId⟩

def getResourcePolicy (store : Store) (kind : ResourceKind) (resourceId : Text) : Option Serialized :=
  (store.policies kind resourceId).map (serializePolicy store kind resourceId)

/-- The groups of one policy replaced. -/
def replacePolicyGroups (kind : ResourceKind) (resourceId organizationId : Text) (groupIds : List Text)
    (now : Text) (rows : List GroupRow) : List GroupRow :=
  (rows.filter fun row => ¬ (row.resourceKind = kind ∧ row.resourceId = resourceId)) ++
    groupIds.map fun groupId => ⟨kind, resourceId, groupId, organizationId, now⟩

def Store.setPolicy (store : Store) (kind : ResourceKind) (resourceId : Text) (policy : Policy) :
    ResourceKind → Text → Option Policy :=
  Function.update store.policies kind
    (Function.update (store.policies kind) resourceId (some policy))

/-- The values of an intent written over a policy. -/
def updated (policy : Policy) (level : AccessLevel) (revision : Int) (updatedByUserId : Option Text)
    (now : Text) : Policy :=
  { policy with
    accessLevel := level
    policyRevision := revision
    lastAppliedControlPlaneRevision := some revision
    updatedByUserId := some ((cleanOptionalString updatedByUserId).getD (lit "control_plane"))
    updatedAt := now }

/-- Another organization has one of the groups. -/
def groupConflict (store : Store) (organizationId : Text) (groupIds : List Text) : Bool :=
  store.groups.any fun row => row.groupId ∈ groupIds ∧ row.organizationId ≠ organizationId

/-- The largest number of a database column. -/
def maxInteger : Int := 2 ^ 63 - 1

def lastRevision (policy : Policy) : Int := policy.lastAppliedControlPlaneRevision.getD (-1)

/-- The store with the values of an intent written. -/
def written (kind : ResourceKind) (resourceId organization : Text) (policy : Policy)
    (level : AccessLevel) (groups : List Text) (intent : Intent) (now : Text) (store : Store) : Store :=
  ⟨store.setPolicy kind resourceId (updated policy level intent.revision intent.updatedByUserId now),
    replacePolicyGroups kind resourceId organization groups now store.groups⟩

/-- The newer values written to the policy and its groups. -/
def writeIntent (kind : ResourceKind) (resourceId organization : Text) (policy : Policy)
    (level : AccessLevel) (groups : List Text) (intent : Intent) (now : Text) :
    Txn Store Error Outcome := do
  let store ← get
  raiseIf (!groups.all bindable) .binding
  raiseIf (groupConflict store organization groups) (.resourceAccess "resource_group_organization_mismatch")
  let policy' := updated policy level intent.revision intent.updatedByUserId now
  raiseIf (maxInteger < intent.revision ∨ !policy'.updatedByUserId.all bindable) .binding
  let store' := written kind resourceId organization policy level groups intent now store
  set store'
  pure ⟨.applied, serializePolicy store' kind resourceId policy'⟩

def applyControlPlaneIntent (intent : Intent) (now : Text) : Txn Store Error Outcome := do
  let organization ← requiredIdentifier intent.organizationId "invalid_organization_id"
  let kind ← validateResourceKind intent.resourceKind
  let resourceId ← requiredIdentifier intent.resourceId "invalid_resource_id"
  raiseIf (intent.revision < 0) invalidIntent
  match validatePolicyValues intent.accessLevel intent.groupIds (some organization) with
  | none => throw invalidIntent
  | some (level, groups) =>
      raiseIf (!bindable resourceId) .binding
      let store ← get
      match store.policies kind resourceId with
      | none => throw (.resourceAccess "resource_not_found")
      | some policy =>
          raiseIf (cleanOptionalString policy.organizationId ≠ some organization)
            (.resourceAccess "resource_organization_mismatch")
          if intent.revision < lastRevision policy ∨ intent.revision < policy.policyRevision then
            pure ⟨.stale, serializePolicy store kind resourceId policy⟩
          else if intent.revision = lastRevision policy then
            pure ⟨.alreadyApplied, serializePolicy store kind resourceId policy⟩
          else writeIntent kind resourceId organization policy level groups intent now

/-! ## One call -/

/-- The intent is for the resource. -/
def Intent.For (intent : Intent) (kind : ResourceKind) (resourceId : Text) : Prop :=
  kindOf intent.resourceKind = some kind ∧ cleanOptionalString intent.resourceId = some resourceId

/-- The level and the set of groups of an intent, when it has them. -/
def Intent.values (intent : Intent) : Option (AccessLevel × Finset Text) :=
  (AccessLevel.ofText intent.accessLevel).bind fun level =>
    (normalizeGroupIds intent.groupIds).map fun groups => (level, groups.toFinset)

/-- The revision is one that the policy has not seen. -/
def Newer (revision : Int) (policy : Policy) : Prop :=
  lastRevision policy < revision ∧ policy.policyRevision ≤ revision

theorem validatePolicyValues_some {accessLevel : Text} {groupIds : GroupsValue}
    {organizationId : Option Text} {level : AccessLevel} {groups : List Text}
    (h : validatePolicyValues accessLevel groupIds organizationId = some (level, groups)) :
    AccessLevel.ofText accessLevel = some level ∧ normalizeGroupIds groupIds = some groups := by
  rw [validatePolicyValues] at h
  cases hlevel : AccessLevel.ofText accessLevel with
  | none => simp [hlevel] at h
  | some l =>
      cases hgroups : normalizeGroupIds groupIds with
      | none => simp [hlevel, hgroups] at h
      | some g =>
          have hsame : some (l, g) = some (level, groups) := by
            simp only [hlevel, hgroups] at h
            change (if _ then _ else if _ then if _ then _ else _ else if _ then _ else _) = _ at h
            split at h
            · cases h
            · split at h
              · split at h
                · cases h
                · exact h
              · split at h
                · cases h
                · exact h
          cases hsame
          exact ⟨rfl, rfl⟩

theorem requiredIdentifier_ok {value : Option Text} {code : String} {s s' : Store} {t : Text}
    (h : requiredIdentifier value code s = .ok (t, s')) : cleanOptionalString value = some t ∧ s = s' := by
  cases hcleaned : cleanOptionalString value with
  | none =>
      rw [requiredIdentifier, hcleaned] at h
      exact absurd h throw_ok
  | some cleaned =>
      rw [requiredIdentifier, hcleaned] at h
      exact ⟨congrArg some (pure_ok h).1, (pure_ok h).2⟩

theorem validateResourceKind_ok {resourceKind : Text} {s s' : Store} {kind : ResourceKind}
    (h : validateResourceKind resourceKind s = .ok (kind, s')) : kindOf resourceKind = some kind ∧ s = s' := by
  cases hknown : kindOf resourceKind with
  | none =>
      rw [validateResourceKind, hknown] at h
      exact absurd h throw_ok
  | some known =>
      rw [validateResourceKind, hknown] at h
      exact ⟨congrArg some (pure_ok h).1, (pure_ok h).2⟩

theorem writeIntent_ok {kind : ResourceKind} {resourceId organization : Text} {policy : Policy}
    {level : AccessLevel} {groups : List Text} {intent : Intent} {now : Text} {s s' : Store}
    {outcome : Outcome}
    (h : writeIntent kind resourceId organization policy level groups intent now s = .ok (outcome, s')) :
    outcome.status = .applied ∧
      s' = written kind resourceId organization policy level groups intent now s := by
  have h := get_bind_ok h
  obtain ⟨_, _, hgroups, h⟩ := bind_ok h
  obtain ⟨-, rfl⟩ := raiseIf_ok hgroups
  obtain ⟨_, _, hconflict, h⟩ := bind_ok h
  obtain ⟨-, rfl⟩ := raiseIf_ok hconflict
  obtain ⟨_, _, hbound, h⟩ := bind_ok h
  obtain ⟨-, rfl⟩ := raiseIf_ok hbound
  obtain ⟨_, _, hset, h⟩ := bind_ok h
  obtain ⟨rfl, rfl⟩ := pure_ok h
  exact ⟨rfl, (set_ok hset).symm⟩

/-- What a call that returned found and did. -/
theorem apply_ok {intent : Intent} {now : Text} {s s' : Store} {outcome : Outcome}
    (h : applyControlPlaneIntent intent now s = .ok (outcome, s')) :
    ∃ kind resourceId organization policy level groups, intent.For kind resourceId ∧
      intent.values = some (level, groups.toFinset) ∧ s.policies kind resourceId = some policy ∧
      cleanOptionalString policy.organizationId = some organization ∧
      (outcome.status = .applied ↔ Newer intent.revision policy) ∧
      (Newer intent.revision policy →
        s' = written kind resourceId organization policy level groups intent now s) ∧
      (¬ Newer intent.revision policy → s' = s) := by
  obtain ⟨organization, _, horganization, h⟩ := bind_ok h
  obtain ⟨-, rfl⟩ := requiredIdentifier_ok horganization
  obtain ⟨kind, _, hkindOk, h⟩ := bind_ok h
  obtain ⟨hkind, rfl⟩ := validateResourceKind_ok hkindOk
  obtain ⟨resourceId, _, hidOk, h⟩ := bind_ok h
  obtain ⟨hid, rfl⟩ := requiredIdentifier_ok hidOk
  obtain ⟨_, _, hrevision, h⟩ := bind_ok h
  obtain ⟨-, rfl⟩ := raiseIf_ok hrevision
  cases hvalues : validatePolicyValues intent.accessLevel intent.groupIds (some organization) with
  | none =>
      rw [hvalues] at h
      exact absurd h throw_ok
  | some values =>
  obtain ⟨level, groups⟩ := values
  rw [hvalues] at h
  obtain ⟨hlevel, hgroups⟩ := validatePolicyValues_some hvalues
  obtain ⟨_, _, hbindable, h⟩ := bind_ok h
  obtain ⟨-, rfl⟩ := raiseIf_ok hbindable
  have h := get_bind_ok h
  cases hpolicy : s.policies kind resourceId with
  | none =>
      rw [hpolicy] at h
      exact absurd h throw_ok
  | some policy =>
  rw [hpolicy] at h
  obtain ⟨_, _, hmatchOk, h⟩ := bind_ok h
  obtain ⟨hmismatch, rfl⟩ := raiseIf_ok hmatchOk
  refine ⟨kind, resourceId, organization, policy, level, groups, ⟨hkind, hid⟩, ?_, hpolicy,
    not_not.mp hmismatch, ?_⟩
  · simp [Intent.values, hlevel, hgroups]
  split at h
  · rename_i hstale
    obtain ⟨rfl, rfl⟩ := pure_ok h
    have hold : ¬ Newer intent.revision policy := by
      rw [Newer]
      omega
    simp [hold]
  split at h
  · rename_i hsame
    obtain ⟨rfl, rfl⟩ := pure_ok h
    have hold : ¬ Newer intent.revision policy := by
      rw [Newer]
      omega
    simp [hold]
  · have hnew : Newer intent.revision policy := by
      rw [Newer]
      omega
    obtain ⟨hstatus, hstore⟩ := writeIntent_ok h
    simp [hnew, hstatus, hstore]

end Avibe.Access
