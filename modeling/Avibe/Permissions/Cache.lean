import Avibe.Permissions.Projection

/-!
# The offline cache of the projection

Complete reads, access replacements and project updates reach the cache in any order.
`cacheReadMergeWrite` reads the cached projection, merges the response into it and writes
the result, all under one lock. Three signals order the responses: the authorization
revision, the order that a request reserved when it started, and the marks of the entities
that a mutation wrote.

The cache file is the JSON value that was written to it; reading the text back is left to
`json.loads`. A lock or a file that fails leaves the cache as it was and is not modelled,
nor is the guard that refuses a response of another pairing.
-/

namespace Avibe.Permissions

open Dict

local instance optionString_lawfulBEq : LawfulBEq (Option String) := inferInstance

/-- The orders of the mutations that wrote an entity. -/
structure Marks where
  access : Option Nat
  projects : List (String × Nat)
  deriving DecidableEq, Repr

def Marks.none : Marks := ⟨.none, []⟩

/-- `PermissionsProjectionResult` of a cached projection. -/
structure Cached where
  projection : Items
  cacheOrder : Nat
  marks : Marks

section Envelope

variable (t : Texts)

/-- `_normalize_mutation_orders` -/
def normalizeMarks (marks : Marks) (projection : Items) : Marks :=
  let ids := (projectsOf projection).map projectId
  { marks with projects := marks.projects.filter fun e => some e.1 ∈ ids }

def Marks.toJson (marks : Marks) : Items :=
  (match marks.access with
    | some order => [("access", Json.int order)]
    | none => []) ++
  if marks.projects = [] then []
  else [("projects", .obj (marks.projects.map fun e => (e.1, Json.int e.2)))]

def orderOf : Json → Option Nat
  | .int n => if 0 ≤ n then some n.toNat else none
  | _ => none

/-- The well-shaped part of the marks in an envelope. -/
def Marks.ofJson : Option Json → Marks
  | some (.obj items) =>
      { access := (get items "access").bind orderOf
        projects := match get items "projects" with
          | some (.obj orders) => orders.filterMap fun e => (orderOf e.2).map fun n => (e.1, n)
          | _ => [] }
  | _ => Marks.none

/-- `_write_cache` -/
def writeCache (instanceId : String) (cachedAt : Nat) (cached : Cached) : Items :=
  let marks := (normalizeMarks cached.marks cached.projection).toJson
  [("cache_schema_version", .int 1), ("instance_id", .str instanceId), ("cached_at", .int cachedAt),
    ("cache_order", .int cached.cacheOrder), ("projection", .obj cached.projection)] ++
    if marks.isEmpty then [] else [("mutation_orders", .obj marks)]

/-- `_read_cache` of an envelope that is an object. -/
def readCache (instanceId : String) (envelope : Items) : Option Cached :=
  match get envelope "cache_schema_version", get envelope "instance_id" with
  | some (.int version), some (.str id) =>
      if version ≠ 1 ∨ id ≠ instanceId then none
      else
        match get envelope "cached_at", (get envelope "cache_order").getD (.int 0),
          get envelope "projection" with
        | some (.int cachedAt), .int order, some (.obj payload) =>
            if cachedAt < 0 ∨ order < 0 then none
            else
              (validatedProjection t payload instanceId).map fun projection =>
                ⟨projection, order.toNat,
                  normalizeMarks (.ofJson (get envelope "mutation_orders")) projection⟩
        | _, _, _ => none
  | _, _ => none

end Envelope

/-! ## Merging a response -/

/-- `_merge_project_mutation_acknowledgement` -/
def mergeAcknowledgement (acknowledged cached : Items) : Items :=
  if accessRevision acknowledged < accessRevision cached then prefer cached acknowledged
  else prefer acknowledged cached

/-- The project of an id; `_validate_project` makes ids texts. -/
def projectNamed (projects : List Items) (id : Option String) : Option Items :=
  projects.find? fun p => projectId p = id

/-- `_merge_projects` -/
def mergeProjects (preferred fallback : List Items) : List Items :=
  preferred.map fun p =>
    match projectNamed fallback (projectId p) with
    | some other => prefer p other
    | none => p

def setProjects (projection : Items) (projects : List Items) : Items :=
  set projection "projects" (.list (projects.map Json.obj))

/-- `_merge_equal_revision_projection` -/
def mergeEqualRevision (cached candidate : Items) (preferCandidate : Bool) : Items :=
  let (preferred, fallback) := if preferCandidate then (candidate, cached) else (cached, candidate)
  let merged := setProjects (prefer preferred fallback)
    (mergeProjects (projectsOf preferred) (projectsOf fallback))
  set merged "policy_sync"
    (.obj (prefer (inner preferred "policy_sync") (inner fallback "policy_sync")))

/-- What a mutation wrote. -/
inductive Target where
  | access
  | project (id : String)
  deriving DecidableEq, Repr

/-- The project of a delayed mutation with what the cache has of it. -/
def rebaseProject (cached : List Items) (project : Items) : Items :=
  match projectNamed cached (projectId project) with
  | none => project
  | some old =>
      set (mergeAcknowledgement project old) "sync"
        (.obj (prefer (inner old "sync") (inner project "sync")))

/-- The mark says that a newer mutation wrote the access entries. -/
def supersededAccess (marks : Marks) (requestOrder : Nat) : Bool :=
  marks.access.any (requestOrder < ·)

/-- `_merge_mutation_rebase_projection` -/
def mergeMutationRebase (cached candidate : Items) (target : Option Target) (marks : Marks)
    (requestOrder : Nat) : Items :=
  let merged := prefer candidate cached
  let merged :=
    if target = some .access ∧ supersededAccess marks requestOrder then
      set merged "access" (.obj (prefer (inner cached "access") (inner candidate "access")))
    else merged
  setProjects merged ((projectsOf candidate).map (rebaseProject (projectsOf cached)))

/-- A response of the backend, with the order that its request reserved. -/
inductive Response where
  | read (projection : Items) (order : Nat)
  | access (revision : Nat) (entries : List Json) (order : Nat)
  | project (revision : Nat) (update : Items) (order : Nat)

def Response.order : Response → Nat
  | .read _ order | .access _ _ order | .project _ _ order => order

def Response.target : Response → Option Target
  | .read _ _ => none
  | .access _ _ _ => some .access
  | .project _ update _ => some (.project ((projectId update).getD ""))

def Response.complete : Response → Bool
  | .read _ _ => true
  | _ => false

/-- The cached projection with the fence of a mutation. -/
def fenced (cached : Items) (revision : Nat) : Items :=
  set cached "instance" (.obj (set (inner cached "instance") "authorization_revision"
    (.int (max (authorizationRevision cached) revision : Nat))))

/-- The projects with an acknowledged one. -/
def replaceProject (projects : List Items) (project : Items) : List Items :=
  let id := projectId project
  let merged :=
    match projectNamed projects id with
    | some old => mergeAcknowledgement project old
    | none => project
  let replaced := projects.map fun current => if projectId current = id then merged else current
  if replaced.any fun current => projectId current = id then replaced else replaced ++ [merged]

/-- The `merge` that a response gives to `_cache_read_merge_write`. -/
def Response.merge : Response → Option Items → Option Items
  | .read projection _, _ => some projection
  | _, none => none
  | .access revision entries _, some cached =>
      some (set (fenced cached revision) "access"
        (.obj (set (inner cached "access") "entries" (.list entries))))
  | .project revision update _, some cached =>
      some (setProjects (fenced cached revision) (replaceProject (projectsOf cached) update))

/-- The marks after a response that was written. -/
def nextMarks (marks : Marks) (target : Option Target) (requestOrder : Nat) : Marks :=
  let newer := fun (current : Option Nat) =>
    if current.all (· < requestOrder) then some requestOrder else current
  match target with
  | none => marks
  | some .access => { marks with access := newer marks.access }
  | some (.project id) =>
      { marks with projects :=
          match newer (get marks.projects id) with
          | some order => set marks.projects id order
          | none => marks.projects }

/-- The request order says that the candidate is the newer of two equal revisions. -/
def preferCandidate (requestOrder cacheOrder : Nat) : Bool :=
  if requestOrder ≠ 0 ∧ cacheOrder ≠ 0 then cacheOrder ≤ requestOrder else 0 < requestOrder

section Step

variable (t : Texts) (instanceId : String)

/-- The outcome of a response: the cache is left, written, or a check raised. -/
inductive Outcome where
  | kept
  | written (cached : Cached)
  | raised

/-- What a validated candidate writes over a cached projection. -/
def mergeCached (cached : Cached) (r : Response) (candidate : Items) : Outcome :=
  let old := authorizationRevision cached.projection
  let new := authorizationRevision candidate
  if new < old then .kept
  else
    let wins := old < new ∨ old = new ∧ cached.cacheOrder ≤ r.order
    let merged :=
      if old = new ∧ r.complete then
        validatedProjection t (mergeEqualRevision cached.projection candidate
          (preferCandidate r.order cached.cacheOrder)) instanceId
      else if old = new ∧ r.order < cached.cacheOrder then
        validatedProjection t (mergeMutationRebase cached.projection candidate r.target cached.marks
          r.order) instanceId
      else some candidate
    match merged with
    | none => .raised
    | some projection =>
        .written ⟨projection, max cached.cacheOrder r.order,
          if r.complete ∧ wins then Marks.none else nextMarks cached.marks r.target r.order⟩

/-- `_cache_read_merge_write` -/
def cacheReadMergeWrite (cached : Option Cached) (r : Response) : Outcome :=
  match r.merge (cached.map Cached.projection) with
  | none => .kept
  | some candidate =>
      match validatedProjection t candidate instanceId with
      | none => .raised
      | some candidate =>
          match cached with
          | none =>
              .written ⟨candidate, r.order,
                if r.complete then Marks.none else nextMarks Marks.none r.target r.order⟩
          | some cached => mergeCached t instanceId cached r candidate

/-- The cache file after a response, written at this time. -/
def applyResponse (file : Items) (response : Nat × Response) : Option Items :=
  match cacheReadMergeWrite t instanceId (readCache t instanceId file) response.2 with
  | .kept => some file
  | .written cached => some (writeCache instanceId response.1 cached)
  | .raised => none

end Step

end Avibe.Permissions
