import Avibe.Hub.AddressRoutes

/-!
# The repair loses no identity and breaks no reference

A payload is clean when no id in it carries a known address. The repair makes every payload clean, keeps
the uniqueness the strict parse promises, and is the identity on a clean one; its counts are zero exactly
when there was nothing to repair. Every collection comes out with the stripped ids of what went in, so
the ids that met before still meet.
-/

namespace Avibe.Repair

open Recency Gathering

variable {F : Type} {addresses : List (Text × Text)} {known : List Text}

/-- The addresses an inventory is stripped of: its source's own, when there is a proof of it. -/
def ownAddress (addresses : List (Text × Text)) (sourceId : Text) : List Text :=
  (addresses.lookup sourceId).toList

/-! ## Clean payloads -/

structure Agent.Clean (addresses : List (Text × Text)) (known : List Text) (agent : Agent F) : Prop where
  models : ∀ row ∈ agent.models, Bare known row.id
  removed : ∀ id ∈ agent.removedModelIds, Bare known id
  checked : ∀ menu ∈ agent.menu, ∀ id ∈ menu.checked, Bare known id
  routes : ∀ e ∈ agent.routes, Bare known e.1
  hops : ∀ e ∈ agent.routes, ∀ hop ∈ e.2.hops, stripHop addresses hop = hop

structure Payload.Clean (addresses : List (Text × Text)) (payload : Payload F) : Prop where
  sources : ∀ source ∈ payload.sources, ∀ row ∈ source.models, Bare (ownAddress addresses source.id) row.id
  agents : ∀ e ∈ payload.agents, e.2.Clean addresses (addresses.map Prod.snd)

theorem healedSource_eq (source : Source F) :
    healedSource addresses source =
      ({ source with models := (healedRows (ownAddress addresses source.id) source.models).1 },
        (healedRows (ownAddress addresses source.id) source.models).2) := by
  unfold healedSource ownAddress
  cases addresses.lookup source.id with
  | none =>
      rw [Option.toList_none, healedRows_of_bare fun row _ => strip_nil row.id]
  | some pre => rfl

theorem healedSource_of_clean {source : Source F}
    (h : ∀ row ∈ source.models, Bare (ownAddress addresses source.id) row.id) :
    healedSource addresses source = (source, 0) := by
  rw [healedSource_eq, healedRows_of_bare h]

/-! ## The agents -/

inductive Collection
  | menuRows | routeKeys | hidden | checked
deriving DecidableEq, Repr

/-- The ids an agent stores in a collection. -/
def Agent.ids (agent : Agent F) : Collection → List Text
  | .menuRows => agent.models.map Row.id
  | .routeKeys => agent.routes.map Prod.fst
  | .hidden => agent.removedModelIds
  | .checked => (agent.menu.map Menu.checked).getD []

/-- What the repair makes of an agent. -/
structure AgentHealed (addresses : List (Text × Text)) (known : List Text) (before after : Agent F) :
    Prop where
  fields : after.fields = before.fields
  menuFields : after.menu.map Menu.fields = before.menu.map Menu.fields
  /-- Every collection has exactly the stripped ids. -/
  ids : ∀ c id, id ∈ after.ids c ↔ ∃ old ∈ before.ids c, strip known old = id
  /-- Two ids that name one model meet in every pair of collections as they did. -/
  meets : ∀ c d, ∀ v ∈ before.ids c, ∀ w ∈ before.ids d, strip known v = strip known w →
    strip known v ∈ after.ids c ∧ strip known v ∈ after.ids d
  /-- A menu row that carried no known address stays as it is. -/
  keepsRow : ∀ row ∈ before.models, Bare known row.id → row ∈ after.models
  /-- Each hop of a route, stripped, occurs once in the route that now stands under the name. -/
  keepsHops : ∀ e ∈ before.routes, ∃ route, (strip known e.1, route) ∈ after.routes ∧
    ∀ hop ∈ e.2.hops, route.hops.count (stripHop addresses hop) = 1
  /-- A route whose key carried no known address keeps its fields and its hops, in front. -/
  keepsRoute : ∀ e ∈ before.routes, Bare known e.1 → ∃ route, (e.1, route) ∈ after.routes ∧
    route.fields = e.2.fields ∧ unique (e.2.hops.map (stripHop addresses)) <+: route.hops
  /-- A route has no other hops than those of the routes that took its name. -/
  noOtherHop : ∀ e ∈ after.routes, ∀ hop ∈ e.2.hops, ∃ old ∈ before.routes,
    strip known old.1 = e.1 ∧ ∃ oldHop ∈ old.2.hops, stripHop addresses oldHop = hop

theorem healedMenu_eq (menu : Option (Menu F)) :
    healedMenu known menu =
      (menu.map fun m => { m with checked := (healedIds known m.checked).1 },
        ((menu.map fun m => (healedIds known m.checked).2).getD 0)) := by
  cases menu <;> rfl

theorem mem_healedIds {values : List Text} {id : Text} :
    id ∈ (healedIds known values).1 ↔ ∃ old ∈ values, strip known old = id := by
  rw [healedIds_eq, mem_unique, List.mem_map]

theorem healedAgent_ids {agent : Agent F} (h : agent.Parsed) (c : Collection) (id : Text) :
    id ∈ (healedAgent addresses known agent).1.ids c ↔ ∃ old ∈ agent.ids c, strip known old = id := by
  cases c with
  | menuRows =>
      show id ∈ (healedRows known agent.models).1.map Row.id ↔ _
      rw [healedRows_ids]
      simp [Agent.ids]
  | routeKeys =>
      show id ∈ (repairRoutes addresses known agent.routes).healed.map Prod.fst ↔ _
      rw [repairRoutes_keys h.routes h.hops, mem_unique]
      simp [Agent.ids]
  | hidden => exact mem_healedIds
  | checked =>
      show id ∈ ((healedMenu known agent.menu).1.map Menu.checked).getD [] ↔ _
      rw [healedMenu_eq]
      cases hmenu : agent.menu with
      | none => simp [Agent.ids, hmenu]
      | some menu => simpa [Agent.ids, hmenu] using mem_healedIds

theorem healedAgent_healed {agent : Agent F} (h : agent.Parsed) :
    AgentHealed addresses known agent (healedAgent addresses known agent).1 where
  fields := rfl
  menuFields := by
    show (healedMenu known agent.menu).1.map Menu.fields = _
    rw [healedMenu_eq, Option.map_map]
    rfl
  ids := healedAgent_ids h
  meets := by
    intro c d v hv w hw hsame
    exact ⟨(healedAgent_ids h c _).mpr ⟨v, hv, rfl⟩, (healedAgent_ids h d _).mpr ⟨w, hw, hsame.symm⟩⟩
  keepsRow := fun _ hrow hbare => healedRows_keeps hrow hbare
  keepsHops := by
    intro e he
    have hname : strip known e.1 ∈ (repairRoutes addresses known agent.routes).healed.map Prod.fst := by
      rw [repairRoutes_keys h.routes h.hops, mem_unique]
      exact List.mem_map_of_mem he
    obtain ⟨entry, hentry, hkey⟩ := List.mem_map.mp hname
    obtain ⟨hnodup, hhops⟩ := repairRoutes_hops h.routes h.hops hentry
    refine ⟨entry.2, hkey ▸ hentry, fun hop hhop => ?_⟩
    exact List.count_eq_one_of_mem hnodup ((hhops _).mpr ⟨e, he, hkey.symm, hop, hhop, rfl⟩)
  keepsRoute := by
    intro e he hbare
    have hname : e.1 ∈ (repairRoutes addresses known agent.routes).healed.map Prod.fst := by
      rw [repairRoutes_keys h.routes h.hops, mem_unique]
      exact List.mem_map.mpr ⟨e, he, hbare⟩
    obtain ⟨entry, hentry, hkey⟩ := List.mem_map.mp hname
    have hentry' : (e.1, entry.2) ∈ (repairRoutes addresses known agent.routes).healed :=
      hkey ▸ hentry
    exact ⟨entry.2, hentry', repairRoutes_base h.routes h.hops he hbare hentry'⟩
  noOtherHop := by
    intro e he hop hhop
    exact ((repairRoutes_hops h.routes h.hops he).2 hop).mp hhop

theorem healedAgent_parsed {agent : Agent F} (h : agent.Parsed) :
    (healedAgent addresses known agent).1.Parsed where
  models := healedRows_nodup h.models
  removed := by
    show (healedIds known agent.removedModelIds).1.Nodup
    rw [healedIds_eq]
    exact nodup_unique _
  checked := by
    intro menu hmenu
    have hmenu' : menu ∈ (healedMenu known agent.menu).1 := hmenu
    rw [healedMenu_eq] at hmenu'
    obtain ⟨old, -, rfl⟩ := Option.map_eq_some_iff.mp hmenu'
    show (healedIds known old.checked).1.Nodup
    rw [healedIds_eq]
    exact nodup_unique _
  routes := by
    show ((repairRoutes addresses known agent.routes).healed.map Prod.fst).Nodup
    rw [repairRoutes_keys h.routes h.hops]
    exact nodup_unique _
  hops := fun _ he => (repairRoutes_hops h.routes h.hops he).1

theorem healedAgent_clean {agent : Agent F} (h : agent.Parsed) :
    (healedAgent addresses known agent).1.Clean addresses known where
  models := fun _ hrow => healedRows_bare hrow
  removed := by
    intro id hid
    obtain ⟨old, -, rfl⟩ := mem_healedIds.mp hid
    exact bare_strip old
  checked := by
    intro menu hmenu id hid
    have hmenu' : menu ∈ (healedMenu known agent.menu).1 := hmenu
    rw [healedMenu_eq] at hmenu'
    obtain ⟨old, -, rfl⟩ := Option.map_eq_some_iff.mp hmenu'
    obtain ⟨value, -, rfl⟩ := mem_healedIds.mp hid
    exact bare_strip value
  routes := by
    intro e he
    have hname : e.1 ∈ (repairRoutes addresses known agent.routes).healed.map Prod.fst :=
      List.mem_map_of_mem he
    rw [repairRoutes_keys h.routes h.hops, mem_unique] at hname
    obtain ⟨old, -, hold⟩ := List.mem_map.mp hname
    rw [← hold]
    exact bare_strip old.1
  hops := by
    intro e he hop hhop
    obtain ⟨old, -, -, oldHop, -, rfl⟩ := ((repairRoutes_hops h.routes h.hops he).2 hop).mp hhop
    exact stripHop_stripHop oldHop

theorem healedAgent_of_clean {agent : Agent F} (h : agent.Parsed) (hclean : agent.Clean addresses known) :
    healedAgent addresses known agent = (agent, ⟨0, 0, 0⟩) := by
  have hmenu : healedMenu known agent.menu = (agent.menu, 0) := by
    cases hcases : agent.menu with
    | none => rfl
    | some menu =>
        rw [healedMenu, healedIds_of_bare (h.checked menu hcases) (hclean.checked menu hcases)]
  have hhops : (repairRoutes addresses known agent.routes).hops = 0 := by
    rw [(repairRoutes_counts agent.routes).1]
    apply List.sum_eq_zero_iff_forall_eq_nat.mpr
    intro count hcount
    obtain ⟨e, he, rfl⟩ := List.mem_map.mp hcount
    rw [healedHops_of_clean (h.hops e he) (hclean.hops e he)]
  have hroutes : (repairRoutes addresses known agent.routes).routes = 0 := by
    rw [(repairRoutes_counts agent.routes).2, List.countP_eq_zero]
    intro e he
    simpa using hclean.routes e he
  rw [healedAgent, healedRows_of_bare hclean.models, healedIds_of_bare h.removed hclean.removed, hmenu]
  dsimp only
  rw [repairRoutes_of_clean h.routes h.hops hclean.routes hclean.hops, hhops, hroutes]

/-- Nothing is counted of an agent only when there was nothing to repair. -/
theorem healedAgent_clean_of_total {agent : Agent F} (h : agent.Parsed)
    (hzero : (healedAgent addresses known agent).2.total = 0) : agent.Clean addresses known := by
  have hsum : (repairRoutes addresses known agent.routes).hops +
      (repairRoutes addresses known agent.routes).routes +
        ((healedRows known agent.models).2 + (healedIds known agent.removedModelIds).2 +
          (healedMenu known agent.menu).2) = 0 := hzero
  rw [(repairRoutes_counts agent.routes).1, (repairRoutes_counts agent.routes).2, healedRows_count,
    healedIds_eq, healedMenu_eq] at hsum
  have hhops : (agent.routes.map fun e => (healedHops addresses e.2.hops).2).sum = 0 := by omega
  have hroutes : (agent.routes.countP fun e => ¬ Bare known e.1) = 0 := by omega
  have hrows : (agent.models.countP fun row => ¬ Bare known row.id) = 0 := by omega
  have hremoved : (agent.removedModelIds.countP fun id => ¬ Bare known id) = 0 := by
    dsimp only at hsum
    omega
  have hchecked : (agent.menu.map fun m => (healedIds known m.checked).2).getD 0 = 0 := by
    dsimp only at hsum
    omega
  exact {
    models := fun row hrow => by simpa using List.countP_eq_zero.mp hrows row hrow
    removed := fun id hid => by simpa using List.countP_eq_zero.mp hremoved id hid
    checked := by
      intro menu hmenu id hid
      have hmenu' : agent.menu = some menu := hmenu
      rw [hmenu', Option.map_some, Option.getD_some, healedIds_eq] at hchecked
      simpa using List.countP_eq_zero.mp hchecked id hid
    routes := fun e he => by simpa using List.countP_eq_zero.mp hroutes e he
    hops := by
      intro e he hop hhop
      have hcount := List.sum_eq_zero_iff_forall_eq_nat.mp hhops _ (List.mem_map_of_mem he)
      rw [healedHops_eq (h.hops e he)] at hcount
      simpa using List.countP_eq_zero.mp hcount hop hhop }

/-! ## The payload -/

/-- What the repair makes of a source. -/
structure SourceHealed (addresses : List (Text × Text)) (before after : Source F) : Prop where
  id : after.id = before.id
  fields : after.fields = before.fields
  unique : (before.models.map Row.id).Nodup → (after.models.map Row.id).Nodup
  /-- The inventory has exactly the ids stripped of the source's own address. -/
  ids : ∀ id, id ∈ after.models.map Row.id ↔
    ∃ row ∈ before.models, strip (ownAddress addresses before.id) row.id = id
  keepsRow : ∀ row ∈ before.models, Bare (ownAddress addresses before.id) row.id → row ∈ after.models
  /-- Every row has the fields of one that is renamed to its id. -/
  noOtherRow : ∀ row ∈ after.models, ∃ old ∈ before.models,
    row = { old with id := strip (ownAddress addresses before.id) old.id }

theorem healedSource_healed (source : Source F) :
    SourceHealed addresses source (healedSource addresses source).1 := by
  rw [healedSource_eq]
  exact {
    id := rfl
    fields := rfl
    unique := healedRows_nodup
    ids := fun id => by
      rw [healedRows_ids]
      exact List.mem_map
    keepsRow := fun _ hrow hbare => healedRows_keeps hrow hbare
    noOtherRow := fun _ hrow => healedRows_mem hrow }

theorem healedPayload_of_clean {payload : Payload F} (h : payload.Parsed)
    (hclean : payload.Clean addresses) : healedPayload addresses payload = { payload } := by
  have hsources : payload.sources.map (healedSource addresses) = payload.sources.map fun s => (s, 0) :=
    List.map_congr_left fun source hsource => healedSource_of_clean (hclean.sources source hsource)
  have hagents : payload.agents.map (fun e => (e.1, healedAgent addresses (addresses.map Prod.snd) e.2)) =
      payload.agents.map fun e => (e.1, e.2, ⟨0, 0, 0⟩) :=
    List.map_congr_left fun e he => by
      rw [healedAgent_of_clean (h.agents e he) (hclean.agents e he)]
  have hbackends : ((payload.agents.map fun e => (e.1, e.2, (⟨0, 0, 0⟩ : Moved))).filter fun e =>
      0 < e.2.2.total) = [] := by
    rw [List.filter_map, List.map_eq_nil_iff, List.filter_eq_nil_iff]
    intro e _
    simp [Moved.total]
  rw [healedPayload, hsources, hagents, hbackends]
  simp [Function.comp_def]

theorem repairCredentialAddresses_eq {payload : Payload F} (h : payload.Parsed) :
    repairCredentialAddresses payload addresses = healedPayload addresses payload := by
  rw [repairCredentialAddresses]
  split
  · rename_i hknown
    have hnil : addresses = [] := List.map_eq_nil_iff.mp hknown
    subst hnil
    refine (healedPayload_of_clean h ?_).symm
    exact {
      sources := fun source _ row _ => strip_nil row.id
      agents := fun e _ => {
        models := fun row _ => strip_nil row.id
        removed := fun id _ => strip_nil id
        checked := fun _ _ id _ => strip_nil id
        routes := fun e _ => strip_nil e.1
        hops := fun _ _ _ _ => rfl } }
  · rfl

theorem healedPayload_parsed {payload : Payload F} (h : payload.Parsed) :
    (healedPayload addresses payload).payload.Parsed where
  sources := by
    intro source hsource
    simp only [healedPayload, List.mem_map, exists_exists_and_eq_and] at hsource
    obtain ⟨old, hold, rfl⟩ := hsource
    exact (healedSource_healed old).unique (h.sources old hold)
  agents := by
    intro e he
    simp only [healedPayload, List.mem_map, exists_exists_and_eq_and] at he
    obtain ⟨old, hold, rfl⟩ := he
    exact healedAgent_parsed (h.agents old hold)

theorem healedPayload_clean {payload : Payload F} (h : payload.Parsed) :
    (healedPayload addresses payload).payload.Clean addresses where
  sources := by
    intro source hsource row hrow
    simp only [healedPayload, List.mem_map, exists_exists_and_eq_and] at hsource
    obtain ⟨old, hold, rfl⟩ := hsource
    rw [(healedSource_healed old).id]
    rw [healedSource_eq] at hrow
    exact healedRows_bare hrow
  agents := by
    intro e he
    simp only [healedPayload, List.mem_map, exists_exists_and_eq_and] at he
    obtain ⟨old, hold, rfl⟩ := he
    exact healedAgent_clean (h.agents old hold)

/-- Nothing is reported only when there was nothing to repair. -/
theorem healedPayload_unchanged {payload : Payload F} (h : payload.Parsed)
    (hsame : (healedPayload addresses payload).changed = false) : payload.Clean addresses := by
  simp only [AddressRepair.changed, Bool.or_eq_false_iff, decide_eq_false_iff_not, ne_eq, not_not]
    at hsame
  obtain ⟨⟨⟨hmodels, hhops⟩, hroutes⟩, hmenu⟩ := hsame
  simp only [healedPayload, List.sum_eq_zero_iff_forall_eq_nat, List.map_map, List.mem_map,
    Function.comp_apply, forall_exists_index, and_imp, forall_apply_eq_imp_iff₂]
    at hmodels hhops hroutes hmenu
  exact {
    sources := by
      intro source hsource row hrow
      have hcount := hmodels source hsource
      rw [healedSource_eq, healedRows_count] at hcount
      simpa using List.countP_eq_zero.mp hcount row hrow
    agents := by
      intro e he
      apply healedAgent_clean_of_total (h.agents e he)
      rw [Moved.total, hhops e he, hroutes e he, hmenu e he] }

/-- A hop names a row of its source's inventory. -/
def Payload.Names (payload : Payload F) (hop : Hop) : Prop :=
  ∃ source ∈ payload.sources, source.id = hop.sourceId ∧ hop.modelId ∈ source.models.map Row.id

theorem healedPayload_names {payload : Payload F} {hop : Hop} (h : payload.Names hop) :
    (healedPayload addresses payload).payload.Names (stripHop addresses hop) := by
  obtain ⟨source, hsource, hid, hmodel⟩ := h
  obtain ⟨row, hrow, hrowid⟩ := List.mem_map.mp hmodel
  have hhealed : SourceHealed addresses source (healedSource addresses source).1 :=
    healedSource_healed source
  refine ⟨(healedSource addresses source).1, ?_, by rw [hhealed.id, hid, stripHop_sourceId], ?_⟩
  · simp only [healedPayload, List.mem_map, exists_exists_and_eq_and]
    exact ⟨source, hsource, rfl⟩
  · rw [hhealed.ids]
    refine ⟨row, hrow, ?_⟩
    rw [hrowid, hid, stripHop, ownAddress]
    cases addresses.lookup hop.sourceId with
    | none => exact strip_nil _
    | some pre => rfl

/-- The whole repair: a second one changes nothing, nothing reported is nothing changed, the uniqueness
of the strict parse is kept, no identity is lost, and what met by name still meets. -/
theorem repairCredentialAddresses_faithful (payload : Payload F) (addresses : List (Text × Text))
    (h : payload.Parsed) :
    let r := repairCredentialAddresses payload addresses
    repairCredentialAddresses r.payload addresses = { payload := r.payload } ∧
    (r.changed = false ↔ r.payload = payload) ∧
    r.payload.Parsed ∧
    r.payload.fields = payload.fields ∧
    List.Forall₂ (SourceHealed addresses) payload.sources r.payload.sources ∧
    List.Forall₂ (fun before after => after.1 = before.1 ∧
        AgentHealed addresses (addresses.map Prod.snd) before.2 after.2)
      payload.agents r.payload.agents ∧
    (∀ hop, payload.Names hop → r.payload.Names (stripHop addresses hop)) := by
  dsimp only
  rw [repairCredentialAddresses_eq h, repairCredentialAddresses_eq (healedPayload_parsed h)]
  refine ⟨healedPayload_of_clean (healedPayload_parsed h) (healedPayload_clean h), ⟨?_, ?_⟩,
    healedPayload_parsed h, rfl, ?_, ?_, fun _ => healedPayload_names⟩
  · intro hsame
    rw [healedPayload_of_clean h (healedPayload_unchanged h hsame)]
  · intro hsame
    have hclean : (healedPayload addresses payload).payload.Clean addresses := healedPayload_clean h
    rw [hsame] at hclean
    rw [healedPayload_of_clean h hclean]
    rfl
  · simp only [healedPayload, List.map_map, List.forall₂_map_right_iff]
    exact List.forall₂_same.mpr fun source _ => healedSource_healed source
  · simp only [healedPayload, List.map_map, List.forall₂_map_right_iff]
    exact List.forall₂_same.mpr fun e he => ⟨rfl, healedAgent_healed (h.agents e he)⟩

/-- Two routes and two menu rows that meet on one name, one of each spelled bare and arriving second. -/
def metPayload : Payload Nat where
  sources := [⟨['s'], [⟨"p/m".toList, 1⟩, ⟨"m".toList, 2⟩], 0⟩]
  agents := [(['c'], {
    models := [⟨"p/p/m".toList, 3⟩, ⟨"m".toList, 4⟩]
    removedModelIds := ["p/n".toList, "n".toList]
    menu := none
    routes := [("p/m".toList, ⟨[⟨['s'], "p/m".toList⟩, ⟨['t'], "m".toList⟩], 5⟩),
      ("m".toList, ⟨[⟨['u'], "m".toList⟩, ⟨['s'], "m".toList⟩], 6⟩)]
    fields := 0 })]
  fields := 0

theorem metPayload_parsed : metPayload.Parsed where
  sources := by decide
  agents := by
    intro e he
    cases List.mem_singleton.mp he
    exact ⟨by decide, by decide, (fun _ h => nomatch h), by decide, by decide⟩

/-- The bare route is the base, and the hop they share is in it once. -/
theorem repairCredentialAddresses_faithful_met :
    (repairCredentialAddresses metPayload [(['s'], ['p'])]).payload.agents.map (fun e => e.2.routes) =
        [[("m".toList, ⟨[⟨['u'], "m".toList⟩, ⟨['s'], "m".toList⟩, ⟨['t'], "m".toList⟩], 6⟩)]] ∧
      let r := repairCredentialAddresses metPayload [(['s'], ['p'])]
      repairCredentialAddresses r.payload [(['s'], ['p'])] = { payload := r.payload } ∧
      (r.changed = false ↔ r.payload = metPayload) ∧ r.payload.Parsed :=
  have h := repairCredentialAddresses_faithful metPayload [(['s'], ['p'])] metPayload_parsed
  ⟨by decide, h.1, h.2.1, h.2.2.1⟩

end Avibe.Repair
