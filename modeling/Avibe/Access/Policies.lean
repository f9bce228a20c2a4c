import Avibe.Lib.Texts
import Mathlib.Data.Finset.Basic

/-!
# Resource policies

The access policies of an instance's resources: a level, an owner, an organization and the groups of
a scoped policy, with the check that decides whether a user's context may use the resource and the
test that tells whether an update removed a use.
-/

namespace Avibe.Access

open Texts

inductive ResourceKind
  | agent
  | vaultSecret
  | skill
  | showPage
deriving DecidableEq

inductive AccessLevel
  | publicLevel
  | scopeLevel
  | privateLevel
deriving DecidableEq

def AccessLevel.ofText (t : Text) : Option AccessLevel :=
  if t = lit "public" then some .publicLevel
  else if t = lit "scope" then some .scopeLevel
  else if t = lit "private" then some .privateLevel
  else none

/-- A string without the white space around it, unless it is empty, too long or has control
characters. -/
def cleanOptionalString (value : Option Text) : Option Text :=
  (value.map strip).filter fun cleaned =>
    cleaned ≠ [] ∧ cleaned.length ≤ 200 ∧ cleaned.all fun c => 32 ≤ c && c ≠ 127

structure Policy where
  organizationId : Option Text
  ownerUserId : Option Text
  accessLevel : AccessLevel
  updatedByUserId : Option Text
  policyRevision : Int
  lastAppliedControlPlaneRevision : Option Int
  updatedAt : Text
deriving DecidableEq

/-- A policy with its groups, as it is handed out. -/
structure Serialized where
  policy : Policy
  groupIds : List Text
deriving DecidableEq

/-! ## Contexts -/

inductive Role
  | viewer
  | editor
  | member
  | owner
deriving DecidableEq

def Role.rank : Role → Nat
  | viewer => 1
  | editor => 2
  | member => 3
  | owner => 4

def Role.ofText (t : Text) : Option Role :=
  if t = lit "viewer" then some .viewer
  else if t = lit "editor" then some .editor
  else if t = lit "member" then some .member
  else if t = lit "owner" then some .owner
  else none

def instanceAccessSources : List Text :=
  [lit "owner", lit "public_instance", lit "email", lit "email_domain", lit "organization_group"]

def organizationRoles : List Text := [lit "owner", lit "admin", lit "member"]

structure UserContext where
  instanceRole : Option Text
  subject : Option Text
  instanceAccessSource : Option Text
  organizationId : Option Text
  organizationMemberId : Option Text
  organizationRole : Option Text
  groupIds : Finset Text
  isRemote : Bool
  instanceKind : Option Text

/-- The string is there and not empty. -/
def present (t : Option Text) : Bool := t.any (· ≠ [])

namespace UserContext

variable (context : UserContext)

def hasRole (minimum : Role) : Bool :=
  minimum.rank ≤ ((context.instanceRole.bind Role.ofText).map Role.rank).getD 0

def isPersonalInstance : Bool := context.instanceKind = some (lit "personal")

def isActiveOrganizationMember : Bool :=
  (context.instanceRole.bind Role.ofText).isSome && context.instanceAccessSource.any (· ∈ instanceAccessSources) &&
    present context.organizationId && present context.organizationMemberId &&
    context.organizationRole.any (· ∈ organizationRoles)

def canManageInstance : Bool := context.hasRole .member

def canUseResource (kind : ResourceKind) : Bool :=
  match kind with
  | .agent | .skill | .vaultSecret => context.hasRole .editor
  | .showPage => false

end UserContext

/-! ## The checks -/

/-- What the stored policy itself allows. -/
def policyAdmits (context : UserContext) (policy : Policy) (groupIds : List Text) : Bool :=
  let organizationId := cleanOptionalString policy.organizationId
  let inOrganization := context.isActiveOrganizationMember && context.organizationId = organizationId
  match policy.accessLevel with
  | .privateLevel =>
      let ownerUserId := cleanOptionalString policy.ownerUserId
      present ownerUserId && present context.subject && ownerUserId = context.subject &&
        (!present organizationId || inOrganization)
  | .publicLevel => present organizationId && inOrganization
  | .scopeLevel =>
      present organizationId && inOrganization && context.groupIds ≠ ∅ &&
        groupIds.any (· ∈ context.groupIds)

def policyAllows (context : UserContext) (kind : ResourceKind) (policy : Option Policy)
    (groupIds : List Text) : Bool :=
  if context.canManageInstance then true
  else if kind = .agent ∧ context.isPersonalInstance then context.canUseResource kind
  else if (kind = .skill ∨ kind = .vaultSecret) ∧ context.isRemote ∧ context.hasRole .editor ∧
      (context.isActiveOrganizationMember ∨ context.isPersonalInstance) then true
  else if !context.canUseResource kind then false
  else policy.any fun policy => policyAdmits context policy groupIds

/-- The user of a context may use the resource under its policy. -/
def Allowed (context : UserContext) (kind : ResourceKind) (row : Serialized) : Prop :=
  policyAllows context kind (some row.policy) row.groupIds = true

def resourcePolicyNarrowed (previous updated : Option Serialized) : Bool :=
  match previous, updated with
  | some previous, some updated =>
      match previous.policy.accessLevel, updated.policy.accessLevel with
      | .publicLevel, .scopeLevel | .publicLevel, .privateLevel | .privateLevel, .scopeLevel | .scopeLevel, .privateLevel => true
      | .scopeLevel, .scopeLevel => !previous.groupIds.all (· ∈ updated.groupIds)
      | _, _ => false
  | _, _ => false

/-- An update that keeps the owner and the organization, and that the test does not call a narrowing,
admits everybody it admitted before. -/
theorem policyAdmits_of_not_narrowed {previous updated : Serialized}
    (howner : updated.policy.ownerUserId = previous.policy.ownerUserId)
    (horganization : updated.policy.organizationId = previous.policy.organizationId)
    (hpresent : present (cleanOptionalString previous.policy.organizationId) = true)
    (hnarrowed : resourcePolicyNarrowed (some previous) (some updated) = false)
    {context : UserContext} (h : policyAdmits context previous.policy previous.groupIds = true) :
    policyAdmits context updated.policy updated.groupIds = true := by
  rw [policyAdmits] at h ⊢
  rw [resourcePolicyNarrowed] at hnarrowed
  rw [howner, horganization]
  cases hlevel : previous.policy.accessLevel with
  | publicLevel =>
      cases hlevel' : updated.policy.accessLevel with
      | publicLevel => simpa [hlevel] using h
      | scopeLevel => simp [hlevel, hlevel'] at hnarrowed
      | privateLevel => simp [hlevel, hlevel'] at hnarrowed
  | scopeLevel =>
      cases hlevel' : updated.policy.accessLevel with
      | publicLevel =>
          simp only [hlevel, Bool.and_eq_true] at h ⊢
          exact h.1.1
      | scopeLevel =>
          simp only [hlevel, hlevel', Bool.not_eq_false', List.all_eq_true, decide_eq_true_eq] at hnarrowed
          simp only [hlevel, Bool.and_eq_true, List.any_eq_true] at h ⊢
          have hmatch := h.2
          exact ⟨h.1, hmatch.imp fun group hgroup => ⟨hnarrowed group hgroup.1, hgroup.2⟩⟩
      | privateLevel => simp [hlevel, hlevel'] at hnarrowed
  | privateLevel =>
      cases hlevel' : updated.policy.accessLevel with
      | publicLevel =>
          simp only [hlevel, hpresent, Bool.not_true, Bool.false_or, Bool.true_and, Bool.and_eq_true] at h ⊢
          exact h.2
      | scopeLevel => simp [hlevel, hlevel'] at hnarrowed
      | privateLevel => simpa [hlevel] using h

theorem allowed_of_not_narrowed {previous updated : Serialized}
    (howner : updated.policy.ownerUserId = previous.policy.ownerUserId)
    (horganization : updated.policy.organizationId = previous.policy.organizationId)
    (hpresent : present (cleanOptionalString previous.policy.organizationId) = true)
    (hnarrowed : resourcePolicyNarrowed (some previous) (some updated) = false)
    {context : UserContext} {kind : ResourceKind} (h : Allowed context kind previous) :
    Allowed context kind updated := by
  rw [Allowed, policyAllows] at h ⊢
  split
  · rfl
  · split
    · simpa [*] using h
    · split
      · rfl
      · split
        · simp [*] at h
        · simp only [*] at h
          exact policyAdmits_of_not_narrowed howner horganization hpresent hnarrowed (by simpa using h)

end Avibe.Access
