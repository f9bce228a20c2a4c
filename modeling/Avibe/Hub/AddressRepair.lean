import Mathlib.Data.List.Nodup
import Avibe.Lib.Gathering
import Mathlib.Algebra.GroupWithZero.Nat

/-!
# Repairing stored credential addresses

A stored model id may still carry the address of the credential it was discovered through. The same id
names a row of a source's inventory, a hop and a key of a route, a row of a backend's menu, a hidden and a
checked entry, and every one of these collections is renamed here, each by its own rule for two ids that
meet on one name. The payload is one that passed the strict parse, so a hop is its source and its model,
and the fields no rule reads are carried along.
-/

namespace Avibe.Repair

open Gathering

abbrev Text := List Char

local instance text_lawfulBEq : LawfulBEq Text := inferInstance

structure Row (F : Type) where
  id : Text
  fields : F
deriving DecidableEq, Repr

structure Hop where
  sourceId : Text
  modelId : Text
deriving DecidableEq, Repr

structure Route (F : Type) where
  hops : List Hop
  fields : F
deriving DecidableEq, Repr

structure Source (F : Type) where
  id : Text
  models : List (Row F)
  fields : F
deriving DecidableEq, Repr

structure Menu (F : Type) where
  checked : List Text
  fields : F
deriving DecidableEq, Repr

structure Agent (F : Type) where
  models : List (Row F)
  removedModelIds : List Text
  menu : Option (Menu F)
  routes : List (Text × Route F)
  fields : F
deriving DecidableEq, Repr

structure Payload (F : Type) where
  sources : List (Source F)
  agents : List (Text × Agent F)
  fields : F
deriving DecidableEq, Repr

/-- What a repair would write, and how much of it there is to report. -/
structure AddressRepair (F : Type) where
  payload : Payload F
  models : Nat := 0
  hops : Nat := 0
  routes : Nat := 0
  menuEntries : Nat := 0
  backends : List Text := []
deriving DecidableEq, Repr

def AddressRepair.changed {F : Type} (r : AddressRepair F) : Bool :=
  r.models ≠ 0 || r.hops ≠ 0 || r.routes ≠ 0 || r.menuEntries ≠ 0

/-! ## One id -/

/-- The rest of an id behind a leading segment that is one of the addresses. -/
def peel (addresses : List Text) (identity : Text) : Option Text :=
  match identity.span (· ≠ '/') with
  | (_, []) | (_, [_]) => none
  | (address, _ :: remainder) => if address ∈ addresses then some remainder else none

def unwrap (addresses : List Text) : Nat → Text → Text
  | 0, identity => identity
  | fuel + 1, identity =>
      match peel addresses identity with
      | none => identity
      | some remainder => unwrap addresses fuel remainder

def modelIdWithoutCredentialAddresses (value : Text) (addresses : List Text) : Text :=
  unwrap addresses value.length value

/-- With its prefix given. -/
def modelIdWithoutCredentialAddress (value pre : Text) : Text :=
  modelIdWithoutCredentialAddresses value [pre]

/-! ## One collection -/

section Collections

variable {F : Type} (addresses : List Text)

def healRows (held moved : List Text) : List (Row F) → List (Row F) × Nat
  | [] => ([], 0)
  | row :: rest =>
      let identity := modelIdWithoutCredentialAddresses row.id addresses
      if identity = row.id then
        let (healed, count) := healRows held moved rest
        (row :: healed, count)
      else if identity ∈ held ∨ identity ∈ moved then
        let (healed, count) := healRows held moved rest
        (healed, count + 1)
      else
        let (healed, count) := healRows held (identity :: moved) rest
        ({ row with id := identity } :: healed, count + 1)

/-- Rename each row's id, dropping one that lands on a name already held. -/
def healedRows (rows : List (Row F)) : List (Row F) × Nat :=
  let held := (rows.map Row.id).filter fun id => modelIdWithoutCredentialAddresses id addresses = id
  healRows addresses held [] rows

def healIds (seen : List Text) : List Text → List Text × Nat
  | [] => ([], 0)
  | value :: rest =>
      let identity := modelIdWithoutCredentialAddresses value addresses
      let moved := if identity ≠ value then 1 else 0
      if identity ∈ seen then
        let (healed, count) := healIds seen rest
        (healed, count + moved)
      else
        let (healed, count) := healIds (identity :: seen) rest
        (identity :: healed, count + moved)

/-- Rename each id in a flat list, keeping the first of any pair that meets. -/
def healedIds (values : List Text) : List Text × Nat :=
  healIds addresses [] values

end Collections

section Hops

variable (addresses : List (Text × Text))

def healHops (seen : List (Text × Text)) : List Hop → List Hop × Nat
  | [] => ([], 0)
  | hop :: rest =>
      match addresses.lookup hop.sourceId with
      | none =>
          let (healed, count) := healHops seen rest
          (hop :: healed, count)
      | some pre =>
          let identity := modelIdWithoutCredentialAddress hop.modelId pre
          let moved := if identity ≠ hop.modelId then 1 else 0
          if (hop.sourceId, identity) ∈ seen then
            let (healed, count) := healHops seen rest
            (healed, count + moved)
          else
            let (healed, count) := healHops ((hop.sourceId, identity) :: seen) rest
            ({ hop with modelId := identity } :: healed, count + moved)

/-- Rename each hop against the address of the source that hop names. -/
def healedHops (hops : List Hop) : List Hop × Nat :=
  healHops addresses [] hops

end Hops

def mergedHops (held incoming : List Hop) : List Hop :=
  held ++ incoming.filter (· ∉ held)

/-! ## The routes of an agent -/

section Routes

variable {F : Type} (addresses : List (Text × Text)) (known : List Text)

structure RouteRepair (F : Type) where
  healed : List (Text × Route F)
  /-- The names a key that needed no repair has claimed. -/
  claimedBare : List Text
  hops : Nat
  routes : Nat

def healedRoute (route : Route F) : Route F :=
  { route with hops := (healedHops addresses route.hops).1 }

/-- The route written under a name: the one already spelled bare is the base of the two. -/
def joined (bare claimed : Bool) (route : Route F) : Option (Route F) → Route F
  | none => route
  | some held =>
      if bare && !claimed then { route with hops := mergedHops route.hops held.hops }
      else { held with hops := mergedHops held.hops route.hops }

def repairRoute (s : RouteRepair F) (entry : Text × Route F) : RouteRepair F :=
  let route := healedRoute addresses entry.2
  let identity := modelIdWithoutCredentialAddresses entry.1 known
  let bare : Bool := identity = entry.1
  {
    healed := upsert s.healed identity (joined bare (identity ∈ s.claimedBare) route)
    claimedBare := if bare then identity :: s.claimedBare else s.claimedBare
    hops := s.hops + (healedHops addresses entry.2.hops).2
    routes := s.routes + if bare then 0 else 1
  }

def repairRoutes (routes : List (Text × Route F)) : RouteRepair F :=
  routes.foldl (repairRoute addresses known) ⟨[], [], 0, 0⟩

end Routes

/-! ## The payload -/

section Payloads

variable {F : Type} (addresses : List (Text × Text)) (known : List Text)

/-- A source without a proven address is left alone. -/
def healedSource (source : Source F) : Source F × Nat :=
  match addresses.lookup source.id with
  | none => (source, 0)
  | some pre =>
      let (models, moved) := healedRows [pre] source.models
      ({ source with models }, moved)

/-- What was renamed of an agent. -/
structure Moved where
  hops : Nat
  routes : Nat
  menuEntries : Nat
deriving DecidableEq, Repr

def Moved.total (m : Moved) : Nat := m.hops + m.routes + m.menuEntries

def healedMenu (menu : Option (Menu F)) : Option (Menu F) × Nat :=
  match menu with
  | none => (none, 0)
  | some menu =>
      let (checked, moved) := healedIds known menu.checked
      (some { menu with checked }, moved)

def healedAgent (agent : Agent F) : Agent F × Moved :=
  let (models, rowsMoved) := healedRows known agent.models
  let (removedModelIds, removedMoved) := healedIds known agent.removedModelIds
  let (menu, checkedMoved) := healedMenu known agent.menu
  let repaired := repairRoutes addresses known agent.routes
  ({ agent with models, removedModelIds, menu, routes := repaired.healed },
    ⟨repaired.hops, repaired.routes, rowsMoved + removedMoved + checkedMoved⟩)

/-- The rewriting itself, behind the test that some address is known. -/
def healedPayload (addresses : List (Text × Text)) (payload : Payload F) : AddressRepair F :=
  let known := addresses.map Prod.snd
  let sources := payload.sources.map (healedSource addresses)
  let agents := payload.agents.map fun e => (e.1, healedAgent addresses known e.2)
  {
    payload := {
      payload with
      sources := sources.map Prod.fst
      agents := agents.map fun e => (e.1, e.2.1) }
    models := (sources.map Prod.snd).sum
    hops := (agents.map fun e => e.2.2.hops).sum
    routes := (agents.map fun e => e.2.2.routes).sum
    menuEntries := (agents.map fun e => e.2.2.menuEntries).sum
    backends := (agents.filter fun e => 0 < e.2.2.total).map Prod.fst
  }

/-- Rewrite every id carrying one of these sources' own proven addresses. -/
def repairCredentialAddresses (payload : Payload F) (addresses : List (Text × Text)) :
    AddressRepair F :=
  if addresses.map Prod.snd = [] then { payload } else healedPayload addresses payload

end Payloads

/-! ## The strict parse -/

/-- What the strict parse promises of an agent. -/
structure Agent.Parsed {F : Type} (agent : Agent F) : Prop where
  models : (agent.models.map Row.id).Nodup
  removed : agent.removedModelIds.Nodup
  checked : ∀ menu ∈ agent.menu, menu.checked.Nodup
  routes : (agent.routes.map Prod.fst).Nodup
  hops : ∀ e ∈ agent.routes, e.2.hops.Nodup

/-- What the strict parse promises of a payload: the ids of every collection are unique. -/
structure Payload.Parsed {F : Type} (payload : Payload F) : Prop where
  sources : ∀ source ∈ payload.sources, (source.models.map Row.id).Nodup
  agents : ∀ e ∈ payload.agents, e.2.Parsed

end Avibe.Repair
