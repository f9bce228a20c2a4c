import Avibe.Lib.Dict
import Avibe.Transcript.Store

/-!
# The permissions projection

What the backend says of an instance, as the JSON object that the client validates, caches
and merges. A check of an object is the list of its fields with the check of each; fields
that the client does not know stay. `prefer` merges two objects and keeps the additive
fields of the second.

`Texts` holds what depends on the Unicode tables and on `urlsplit`.
-/

namespace Avibe.Permissions

open Dict

inductive Json where
  | null
  | bool (value : Bool)
  | int (value : Int)
  | float (literal : String)
  | str (value : String)
  | list (items : List Json)
  | obj (items : List (String × Json))

abbrev Items := List (String × Json)

/-- What `urlsplit` says of a URL. -/
structure UrlParts where
  scheme : String
  netloc : String
  hostname : Option String
  username : Option String
  password : Option String
  path : String
  query : String
  fragment : String

structure Texts where
  /-- `str.lower` -/
  lower : String → String
  /-- None where `urlsplit` or its `port` raises `ValueError`. -/
  urlsplit : String → Option UrlParts

/-! ## Merging -/

mutual

/-- A preferred value over the one that the other object has. -/
def mergeValue : Json → Option Json → Json
  | .obj a, some (.obj b) => .obj (overlay (mergeItems a b) b)
  | value, _ => value

def mergeItems : Items → Items → Items
  | [], _ => []
  | (key, value) :: rest, fallback => (key, mergeValue value (get fallback key)) ::
      mergeItems rest fallback

end

/-- `_prefer_mapping` -/
def prefer (preferred fallback : Items) : Items := overlay (mergeItems preferred fallback) fallback

theorem get_mergeItems (preferred fallback : Items) (key : String) :
    get (mergeItems preferred fallback) key =
      (get preferred key).map fun value => mergeValue value (get fallback key) := by
  induction preferred with
  | nil => rfl
  | cons e rest ih =>
      rw [mergeItems, get_cons, get_cons, ih]
      by_cases h : e.1 = key <;> simp [h]

@[simp] theorem get_prefer (preferred fallback : Items) (key : String) :
    get (prefer preferred fallback) key =
      ((get preferred key).map fun value => mergeValue value (get fallback key)).or
        (get fallback key) := by
  rw [prefer, get_overlay, get_mergeItems]

/-- A value that is no object is kept as it is. -/
theorem mergeValue_of_ne {value : Json} (h : ∀ items, value ≠ .obj items) (other : Option Json) :
    mergeValue value other = value := by
  cases value with
  | obj items => exact absurd rfl (h items)
  | _ => simp [mergeValue]

theorem mergeValue_obj (a b : Items) : mergeValue (.obj a) (some (.obj b)) = .obj (prefer a b) := by
  simp [mergeValue, prefer]

/-! ## Sensitive keys -/

section Texts

variable (t : Texts)

/-- The text contains the part. -/
def containsPart (s part : String) : Bool := s.toList.tails.any fun tail => part.toList.isPrefixOf tail

def isSensitive (key : String) : Bool :=
  ["secret", "token", "credential"].any fun part => containsPart (t.lower key) part

mutual

/-- `_strip_sensitive` -/
def stripSensitive : Json → Json
  | .list items => .list (stripList items)
  | .obj items => .obj (stripItems items)
  | value => value

def stripList : List Json → List Json
  | [] => []
  | value :: rest => stripSensitive value :: stripList rest

def stripItems : Items → Items
  | [] => []
  | (key, value) :: rest =>
      if isSensitive t key then stripItems rest else (key, stripSensitive value) :: stripItems rest

end

/-! ## Checks -/

/-- A field of an object, with the check of its value. -/
structure Field where
  key : String
  required : Bool
  check : Json → Bool

def checkFields (fields : List Field) (items : Items) : Bool :=
  fields.all fun f =>
    match get items f.key with
    | none => !f.required
    | some value => f.check value

def object (fields : List Field) : Json → Bool
  | .obj items => checkFields fields items
  | _ => false

def listOf (check : List Json → Bool) : Json → Bool
  | .list items => check items
  | _ => false

def required (key : String) (check : Json → Bool) : Field := ⟨key, true, check⟩

def optional (key : String) (check : Json → Bool) : Field := ⟨key, false, check⟩

def nullable (check : Json → Bool) : Json → Bool
  | .null => true
  | value => check value

/-- `_require_string` -/
def isString : Json → Bool
  | .str _ => true
  | _ => false

def blank (s : String) : Bool := Transcript.strip s = ""

/-- `_require_nonempty_string` -/
def isNonemptyString : Json → Bool
  | .str s => !blank s
  | _ => false

/-- `_require_enum` -/
def isEnum (allowed : List String) : Json → Bool
  | .str s => s ∈ allowed
  | _ => false

def isNonnegative : Json → Bool
  | .int n => 0 ≤ n
  | _ => false

def isBool : Json → Bool
  | .bool _ => true
  | _ => false

/-- `_require_https_public_url` -/
def isHttpsPublicUrl : Json → Bool
  | .str s =>
      !blank s && s = Transcript.strip s &&
        match t.urlsplit s with
        | none => false
        | some u =>
            u.scheme = "https" && u.netloc ≠ "" && u.hostname.any (· ≠ "") &&
              !u.username.any (· ≠ "") && !u.password.any (· ≠ "") &&
              (u.path = "" || u.path = "/") && u.query = "" && u.fragment = ""
  | _ => false

/-- `_is_valid_project_id` -/
def isValidProjectId : Json → Bool
  | .str s => !blank s && s ∉ [".", ".."] && '/' ∉ s.toList && '\\' ∉ s.toList
  | _ => false

def textOf : Option Json → Option String
  | some (.str s) => some s
  | _ => none

/-- The text of a member of each object. -/
def textsOf (key : String) (values : List Json) : List (Option String) :=
  values.map fun
    | .obj items => textOf (get items key)
    | _ => none

/-- `_principal_identity` -/
def principalIdentity (kind value : String) : String × String :=
  let normalized := Transcript.strip value
  let normalized :=
    if kind = "email_domain" then
      match normalized.toList with
      | '@' :: rest => String.ofList rest
      | _ => normalized
    else normalized
  (kind, if kind ≠ "organization_group" then t.lower normalized else normalized)

/-- The principals of a list of objects, named by these two members. -/
def principals (kind value : String) (values : List Json) : List (Option (String × String)) :=
  values.map fun
    | .obj items =>
        match textOf (get items kind), textOf (get items value) with
        | some k, some v => some (principalIdentity t k v)
        | _, _ => none
    | _ => none

def principalKinds : List String := ["email", "email_domain", "organization_group"]

/-- `_validate_access_entries` -/
def validAccessEntries (entries : List Json) : Bool :=
  (entries.all (object [required "kind" (isEnum principalKinds),
    required "value" isNonemptyString,
    required "role" (isEnum ["viewer", "editor", "member"])])) &&
    decide (principals t "kind" "value" entries).Nodup

/-- The bindings of a project. -/
def validBindings (bindings : List Json) : Bool :=
  (bindings.all (object [required "principal_kind" (isEnum principalKinds),
    required "principal_value" isNonemptyString,
    required "access_role" (isEnum ["viewer", "editor"])])) &&
    decide (principals t "principal_kind" "principal_value" bindings).Nodup

def projectAccess : Json → Bool :=
  object [required "mode" (isEnum ["inherit", "restricted"]),
    required "revision" isNonnegative,
    required "bindings" (listOf (validBindings t))]

def projectSync : Json → Bool :=
  object [required "status" (isEnum ["in_sync", "pending", "offline", "error", "deleted"]),
    required "desired_access_revision" isNonnegative,
    required "applied_access_revision" isNonnegative,
    required "last_synced_at" (nullable isString),
    optional "last_sync_error" isString]

/-- `_validate_project` -/
def validateProject : Json → Bool :=
  object [required "project_id" isValidProjectId,
    required "organization_id" (nullable isNonemptyString),
    required "display_name" isString,
    required "access" (projectAccess t),
    required "sync" projectSync]

def validProjects (projects : List Json) : Bool :=
  projects.all (validateProject t) && decide (textsOf "project_id" projects).Nodup

def validateSyncCounts : Json → Bool :=
  object (["active", "error", "offline", "applying", "in_sync"].map fun key =>
    required key isNonnegative)

def validCapabilities (capabilities : List Json) : Bool :=
  (capabilities.all fun
    | .str s => s ≠ ""
    | _ => false) &&
    some "instance.permissions.read" ∈ capabilities.map (fun c => textOf (some c)) &&
    decide (capabilities.map fun c => textOf (some c)).Nodup

def validGroupIds (ids : List Json) : Bool :=
  ids.all isNonemptyString && decide (ids.map fun c => textOf (some c)).Nodup

def validMembers (members : List Json) : Bool :=
  members.all (object [required "id" isNonemptyString, required "email" isNonemptyString,
    required "organization_role" (isEnum ["owner", "admin", "member"]),
    required "group_ids" (listOf validGroupIds)]) &&
    decide (textsOf "id" members).Nodup

def validGroups (groups : List Json) : Bool :=
  groups.all (object [required "id" isNonemptyString, required "name" isString,
    required "archived_at" (nullable isString)]) &&
    decide (textsOf "id" groups).Nodup

/-- The `instance` of a projection. -/
def instanceFields (instanceId : String) : List Field :=
  [required "id" (fun
      | .str s => !blank s && s = instanceId
      | _ => false),
    required "access_mode" (isEnum ["allowlist", "public"]),
    required "permission_authority" (isEnum ["instance", "cloud"]),
    required "local_mutation_allowed" isBool,
    required "authorization_revision" isNonnegative,
    optional "name" isNonemptyString,
    optional "public_url" (isHttpsPublicUrl t),
    optional "organization" (nullable (object [required "id" isNonemptyString,
      required "name" isNonemptyString]))]

def accessFields : List Field :=
  [required "owner" (object [required "email" (nullable isNonemptyString),
      required "role" (isEnum ["owner"])]),
    required "entries" (listOf (validAccessEntries t))]

def policySyncFields : List Field :=
  [required "status" (isEnum ["none", "in_sync", "applying", "offline", "error"]),
    required "projects" validateSyncCounts, required "resources" validateSyncCounts]

def projectionFields (instanceId : String) : List Field :=
  [required "schema_version" (fun
      | .int n => n = 1
      | _ => false),
    required "instance" (object (instanceFields t instanceId)),
    required "capabilities" (listOf validCapabilities),
    required "access" (object (accessFields t)),
    required "directory" (object [required "members" (listOf validMembers),
      required "groups" (listOf validGroups)]),
    required "projects" (listOf (validProjects t)),
    required "policy_sync" (object policySyncFields)]

/-- `_validated_projection`; none where it raises. -/
def validatedProjection (payload : Items) (instanceId : String) : Option Items :=
  let projection := stripItems t payload
  if checkFields (projectionFields t instanceId) projection then some projection else none

end Texts

/-! ## Members -/

/-- The object that a member is; the empty one where it is none. -/
def inner (items : Items) (key : String) : Items :=
  match get items key with
  | some (.obj value) => value
  | _ => []

def listAt (items : Items) (key : String) : List Json :=
  match get items key with
  | some (.list value) => value
  | _ => []

def natAt (items : Items) (key : String) : Nat :=
  match get items key with
  | some (.int n) => n.toNat
  | _ => 0

def objOf : Json → Items
  | .obj items => items
  | _ => []

def authorizationRevision (projection : Items) : Nat :=
  natAt (inner projection "instance") "authorization_revision"

def entriesOf (projection : Items) : List Json := listAt (inner projection "access") "entries"

def projectsOf (projection : Items) : List Items := (listAt projection "projects").map objOf

def projectId (project : Items) : Option String := textOf (get project "project_id")

def accessRevision (project : Items) : Nat := natAt (inner project "access") "revision"

end Avibe.Permissions
