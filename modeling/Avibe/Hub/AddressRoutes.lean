import Avibe.Hub.AddressNames

/-!
# The merged routes of an agent

The keys of the routes come out stripped, each at its first place. Under each stands one route: the one
that was spelled bare or else the first, with its own hops first and then those of the others that it
has not yet, in the order of their arrival.
-/

namespace Avibe.Repair

open Recency Gathering

variable {F : Type} (addresses : List (Text × Text)) (known : List Text)

/-- The entries a name takes, the bare one first. -/
def baseFirst (group : List (Text × Route F)) : List (Text × Route F) :=
  group.filter (fun e => Bare known e.1) ++ group.filter fun e => ¬ Bare known e.1

/-- Every hop of the entries under its new name, each once. -/
def allHops (entries : List (Text × Route F)) : List Hop :=
  unique (entries.flatMap fun e => (healedHops addresses e.2.hops).1)

/-- The route that stands for all of the entries. -/
def merged : List (Text × Route F) → Option (Route F)
  | [] => none
  | base :: others => some { base.2 with hops := allHops addresses (base :: others) }

/-- The entries with one name. -/
def group (routes : List (Text × Route F)) (name : Text) : List (Text × Route F) :=
  routes.filter fun e => strip known e.1 = name

/-- One entry taken under its name, with the mark that a bare one has claimed it. -/
def write (held : Option (Route F × Bool)) (entry : Text × Route F) : Route F × Bool :=
  (joined (Bare known entry.1) (held.any Prod.snd) (healedRoute addresses entry.2) (held.map Prod.fst),
    Bare known entry.1 || held.any Prod.snd)

variable {addresses known}

theorem allHops_concat (entries : List (Text × Route F)) (e : Text × Route F)
    (h : (healedHops addresses e.2.hops).1.Nodup) :
    allHops addresses (entries ++ [e]) =
      mergedHops (allHops addresses entries) (healedHops addresses e.2.hops).1 := by
  rw [allHops, List.flatMap_append, List.flatMap_singleton, unique_append_filter, unique_of_nodup h,
    mergedHops, allHops]
  simp only [mem_unique]

theorem allHops_cons (entries : List (Text × Route F)) (e : Text × Route F)
    (h : (healedHops addresses e.2.hops).1.Nodup) :
    allHops addresses (e :: entries) =
      mergedHops (healedHops addresses e.2.hops).1 (allHops addresses entries) := by
  rw [allHops, List.flatMap_cons, unique_append_filter, unique_of_nodup h]
  rfl

theorem healedHops_nodup {hops : List Hop} (h : hops.Nodup) : (healedHops addresses hops).1.Nodup := by
  rw [healedHops_eq h]
  exact nodup_unique _

/-- The entries of one name leave the merged route and whether a bare one was among them. -/
theorem settled_write {entries : List (Text × Route F)} (hkeys : (entries.map Prod.fst).Nodup)
    (hname : ∀ a ∈ entries, ∀ b ∈ entries, strip known a.1 = strip known b.1)
    (hhops : ∀ e ∈ entries, e.2.hops.Nodup) :
    settled (write addresses known) entries =
      (merged addresses (baseFirst known entries)).map fun route =>
        (route, entries.any fun e => Bare known e.1) := by
  induction entries using List.reverseRecOn with
  | nil => rfl
  | append_singleton entries e ih =>
      rw [List.map_append, List.nodup_append] at hkeys
      have hsub : ∀ a ∈ entries, a ∈ entries ++ [e] := fun a ha => List.mem_append_left _ ha
      have hlast : e ∈ entries ++ [e] := by simp
      have hnodup : (healedHops addresses e.2.hops).1.Nodup := healedHops_nodup (hhops e hlast)
      rw [settled_concat, ih hkeys.1 (fun a ha b hb => hname a (hsub a ha) b (hsub b hb))
        fun a ha => hhops a (hsub a ha)]
      by_cases hbare : Bare known e.1
      · -- no other entry of the name is bare: its key would be the same
        have hother : ∀ a ∈ entries, ¬ Bare known a.1 := by
          intro a ha habare
          have hsame : a.1 = e.1 := by
            rw [← habare, ← hbare]
            exact hname a (hsub a ha) e hlast
          exact hkeys.2.2 a.1 (List.mem_map_of_mem ha) e.1 (by simp) hsame
        have hnone : entries.filter (fun a => Bare known a.1) = [] :=
          List.filter_eq_nil_iff.mpr fun a ha => by simpa using hother a ha
        have hall : entries.filter (fun a => ¬ Bare known a.1) = entries :=
          List.filter_eq_self.mpr fun a ha => by simpa using hother a ha
        have hany : (entries.any fun a => Bare known a.1) = false := by
          simpa using hother
        have hbase : baseFirst known entries = entries := by rw [baseFirst, hnone, hall]; rfl
        have hnew : baseFirst known (entries ++ [e]) = e :: entries := by
          rw [baseFirst, List.filter_append, List.filter_append, hnone, hall]
          simp [hbare]
        rw [hbase, hnew, hany]
        cases entries with
        | nil =>
            simp [merged, write, joined, healedRoute, allHops, hbare, unique_of_nodup hnodup]
        | cons first rest =>
            simp [merged, write, joined, healedRoute, hbare, allHops_cons (first :: rest) e hnodup]
      · have hnew : baseFirst known (entries ++ [e]) = baseFirst known entries ++ [e] := by
          rw [baseFirst, List.filter_append, List.filter_append, baseFirst]
          simp [hbare]
        rw [hnew]
        cases hbase : baseFirst known entries with
        | nil =>
            have hnil : entries = [] := by
              apply List.eq_nil_iff_forall_not_mem.mpr
              intro a ha
              have hmem : a ∈ baseFirst known entries := by
                by_cases habare : Bare known a.1
                · exact List.mem_append_left _ (List.mem_filter.mpr ⟨ha, decide_eq_true habare⟩)
                · exact List.mem_append_right _ (List.mem_filter.mpr ⟨ha, decide_eq_true habare⟩)
              rw [hbase] at hmem
              cases hmem
            subst hnil
            simp [merged, write, joined, healedRoute, allHops, hbare, unique_of_nodup hnodup]
        | cons base others =>
            have hconcat := allHops_concat (base :: others) e hnodup
            rw [List.cons_append] at hconcat
            simp [merged, write, joined, healedRoute, hbare, hconcat]

/-- The routes loop fills a dictionary and marks the names that a bare key has claimed. -/
theorem repairRoutes_gather (routes : List (Text × Route F)) :
    (repairRoutes addresses known routes).healed =
        (gather (fun e => strip known e.1) (write addresses known) routes).map
          (fun e => (e.1, e.2.1)) ∧
      ∀ name, name ∈ (repairRoutes addresses known routes).claimedBare ↔
        ((value (gather (fun e => strip known e.1) (write addresses known) routes) name).any
          Prod.snd) = true := by
  induction routes using List.reverseRecOn with
  | nil => exact ⟨rfl, fun name => by simp [repairRoutes, gather, value]⟩
  | append_singleton routes e ih =>
      obtain ⟨hhealed, hclaimed⟩ := ih
      have hstep : repairRoutes addresses known (routes ++ [e]) =
          repairRoute addresses known (repairRoutes addresses known routes) e := by
        rw [repairRoutes, List.foldl_append]
        rfl
      rw [hstep, gather_concat]
      constructor
      · simp only [repairRoute, hhealed]
        apply map_upsert
        simp only [write]
        congr 1
        rw [Bool.eq_iff_iff, decide_eq_true_iff]
        exact hclaimed _
      · intro name
        rw [value_upsert]
        have hold := hclaimed name
        by_cases hbare : Bare known e.1
        · have hbare' : modelIdWithoutCredentialAddresses e.1 known = e.1 := hbare
          by_cases hname : name = strip known e.1
          · simp [repairRoute, hbare', hname, write, hbare]
          · have hne : ¬ name = e.1 := fun he => hname (he.trans hbare.symm)
            simp only [if_neg hname, ← hold]
            simp [repairRoute, hbare', hne]
        · have hbare' : ¬ modelIdWithoutCredentialAddresses e.1 known = e.1 := hbare
          by_cases hname : name = strip known e.1
          · subst hname
            simp [repairRoute, hbare', write, hbare, hold]
          · simp only [if_neg hname, ← hold]
            simp [repairRoute, hbare']

theorem group_isSome {routes : List (Text × Route F)} {name : Text}
    (h : name ∈ routes.map fun e => strip known e.1) :
    (merged addresses (baseFirst known (group known routes name))).isSome := by
  obtain ⟨e, he, hname⟩ := List.mem_map.mp h
  have hmem : e ∈ group known routes name := List.mem_filter.mpr ⟨he, decide_eq_true hname⟩
  have hbase : e ∈ baseFirst known (group known routes name) := by
    by_cases hbare : Bare known e.1
    · exact List.mem_append_left _ (List.mem_filter.mpr ⟨hmem, decide_eq_true hbare⟩)
    · exact List.mem_append_right _ (List.mem_filter.mpr ⟨hmem, decide_eq_true hbare⟩)
  cases hcases : baseFirst known (group known routes name) with
  | nil =>
      rw [hcases] at hbase
      cases hbase
  | cons base others => rfl

/-- What the routes loop leaves. -/
theorem repairRoutes_healed {routes : List (Text × Route F)} (hkeys : (routes.map Prod.fst).Nodup)
    (hhops : ∀ e ∈ routes, e.2.hops.Nodup) :
    (repairRoutes addresses known routes).healed =
      tabulate (unique (routes.map fun e => strip known e.1))
        fun name => merged addresses (baseFirst known (group known routes name)) := by
  rw [(repairRoutes_gather routes).1, gather_eq, map_tabulate]
  congr 1
  funext name
  have hsub : (group known routes name).Sublist routes := List.filter_sublist
  have hgroup : ∀ e ∈ group known routes name, strip known e.1 = name := fun e he =>
    of_decide_eq_true (List.mem_filter.mp he).2
  have hsettled : settled (write addresses known) (group known routes name) = _ :=
    settled_write (hkeys.sublist (hsub.map Prod.fst))
      (fun a ha b hb => (hgroup a ha).trans (hgroup b hb).symm) fun e he => hhops e (hsub.subset he)
  rw [show routes.filter (fun e => strip known e.1 = name) = group known routes name from rfl, hsettled]
  cases merged addresses (baseFirst known (group known routes name)) <;> rfl

/-! ## What the loop over the routes counts -/

theorem repairRoutes_counts (routes : List (Text × Route F)) :
    (repairRoutes addresses known routes).hops =
        (routes.map fun e => (healedHops addresses e.2.hops).2).sum ∧
      (repairRoutes addresses known routes).routes = routes.countP fun e => ¬ Bare known e.1 := by
  induction routes using List.reverseRecOn with
  | nil => exact ⟨rfl, rfl⟩
  | append_singleton routes e ih =>
      have hstep : repairRoutes addresses known (routes ++ [e]) =
          repairRoute addresses known (repairRoutes addresses known routes) e := by
        rw [repairRoutes, List.foldl_append]
        rfl
      rw [hstep]
      constructor
      · simp [repairRoute, ih.1]
      · rw [List.countP_append, ← ih.2]
        by_cases hbare : Bare known e.1
        · have hbare' : modelIdWithoutCredentialAddresses e.1 known = e.1 := hbare
          simp [repairRoute, hbare, hbare']
        · have hbare' : ¬ modelIdWithoutCredentialAddresses e.1 known = e.1 := hbare
          simp [repairRoute, hbare, hbare']

section Routes

variable {routes : List (Text × Route F)}

theorem repairRoutes_keys (hkeys : (routes.map Prod.fst).Nodup) (hhops : ∀ e ∈ routes, e.2.hops.Nodup) :
    (repairRoutes addresses known routes).healed.map Prod.fst =
      unique (routes.map fun e => strip known e.1) := by
  rw [repairRoutes_healed hkeys hhops]
  exact tabulate_keys fun name hname => group_isSome (mem_unique.mp hname)

/-- The route under a name has the hops of all entries that take the name. -/
theorem repairRoutes_mem (hkeys : (routes.map Prod.fst).Nodup) (hhops : ∀ e ∈ routes, e.2.hops.Nodup)
    {e : Text × Route F} (h : e ∈ (repairRoutes addresses known routes).healed) :
    merged addresses (baseFirst known (group known routes e.1)) = some e.2 := by
  rw [repairRoutes_healed hkeys hhops] at h
  exact (mem_tabulate.mp h).2

theorem mem_baseFirst {entries : List (Text × Route F)} {e : Text × Route F} :
    e ∈ baseFirst known entries ↔ e ∈ entries := by
  rw [baseFirst, List.mem_append, List.mem_filter, List.mem_filter]
  by_cases hbare : Bare known e.1
  · simp [hbare]
  · simp [hbare]

theorem merged_hops {entries : List (Text × Route F)} {route : Route F}
    (h : merged addresses entries = some route) : route.hops = allHops addresses entries := by
  cases entries with
  | nil => cases h
  | cons base others =>
      cases h
      rfl

theorem mem_allHops {entries : List (Text × Route F)} (hhops : ∀ e ∈ entries, e.2.hops.Nodup)
    {hop : Hop} :
    hop ∈ allHops addresses entries ↔
      ∃ e ∈ entries, ∃ old ∈ e.2.hops, stripHop addresses old = hop := by
  rw [allHops, mem_unique, List.mem_flatMap]
  constructor
  · rintro ⟨e, he, hhop⟩
    rw [healedHops_eq (hhops e he), mem_unique, List.mem_map] at hhop
    exact ⟨e, he, hhop⟩
  · rintro ⟨e, he, hhop⟩
    refine ⟨e, he, ?_⟩
    rw [healedHops_eq (hhops e he), mem_unique, List.mem_map]
    exact hhop

/-- The hops under a name are the stripped hops of the entries that take it, each once. -/
theorem repairRoutes_hops (hkeys : (routes.map Prod.fst).Nodup) (hhops : ∀ e ∈ routes, e.2.hops.Nodup)
    {e : Text × Route F} (h : e ∈ (repairRoutes addresses known routes).healed) :
    e.2.hops.Nodup ∧ ∀ hop, hop ∈ e.2.hops ↔
      ∃ old ∈ routes, strip known old.1 = e.1 ∧ ∃ oldHop ∈ old.2.hops, stripHop addresses oldHop = hop := by
  have hmerged := merged_hops (repairRoutes_mem hkeys hhops h)
  have hgroup : ∀ a ∈ baseFirst known (group known routes e.1), a.2.hops.Nodup := fun a ha =>
    hhops a (List.mem_filter.mp (mem_baseFirst.mp ha)).1
  rw [hmerged]
  refine ⟨nodup_unique _, fun hop => ?_⟩
  rw [mem_allHops hgroup]
  simp [mem_baseFirst, group, and_assoc]

/-- A route whose key was bare is the base of what stands under its name. -/
theorem repairRoutes_base (hkeys : (routes.map Prod.fst).Nodup) (hhops : ∀ e ∈ routes, e.2.hops.Nodup)
    {e : Text × Route F} (he : e ∈ routes) (hbare : Bare known e.1) {route : Route F}
    (h : (e.1, route) ∈ (repairRoutes addresses known routes).healed) :
    route.fields = e.2.fields ∧ unique (e.2.hops.map (stripHop addresses)) <+: route.hops := by
  have hmerged : merged addresses (baseFirst known (group known routes e.1)) = some route :=
    repairRoutes_mem hkeys hhops h
  have hgroup : e ∈ (group known routes e.1).filter fun a => Bare known a.1 := by
    rw [List.mem_filter, group, List.mem_filter]
    exact ⟨⟨he, decide_eq_true hbare⟩, decide_eq_true hbare⟩
  have hhead : ∀ a ∈ (group known routes e.1).filter (fun a => Bare known a.1), a = e := by
    intro a ha
    rw [List.mem_filter, group, List.mem_filter] at ha
    have habare : strip known a.1 = a.1 := of_decide_eq_true ha.2
    have haname : strip known a.1 = e.1 := of_decide_eq_true ha.1.2
    exact List.inj_on_of_nodup_map hkeys ha.1.1 he (habare.symm.trans haname)
  cases hbares : (group known routes e.1).filter fun a => Bare known a.1 with
  | nil =>
      rw [hbares] at hgroup
      cases hgroup
  | cons base others =>
      have hbase : base = e := hhead base (by rw [hbares]; exact List.mem_cons_self)
      subst hbase
      rw [baseFirst, hbares, List.cons_append] at hmerged
      cases hmerged
      refine ⟨rfl, ?_⟩
      rw [allHops, List.flatMap_cons, healedHops_eq (hhops base he)]
      exact prefix_unique_append (nodup_unique _) _

theorem repairRoutes_of_clean (hkeys : (routes.map Prod.fst).Nodup)
    (hhops : ∀ e ∈ routes, e.2.hops.Nodup) (hbare : ∀ e ∈ routes, Bare known e.1)
    (hclean : ∀ e ∈ routes, ∀ hop ∈ e.2.hops, stripHop addresses hop = hop) :
    (repairRoutes addresses known routes).healed = routes := by
  have hmap : routes.map (fun e => strip known e.1) = routes.map Prod.fst := List.map_congr_left hbare
  rw [repairRoutes_healed hkeys hhops, hmap, unique_of_nodup hkeys]
  apply tabulate_of_entries
  intro e he
  have hin : e ∈ group known routes e.1 := List.mem_filter.mpr ⟨he, decide_eq_true (hbare e he)⟩
  have honly : ∀ a ∈ group known routes e.1, a = e := by
    intro a ha
    obtain ⟨hmem, hname⟩ := List.mem_filter.mp ha
    have hsame : a.1 = e.1 := (hbare a hmem).symm.trans (of_decide_eq_true hname)
    exact List.inj_on_of_nodup_map hkeys hmem he hsame
  have hnodup : (group known routes e.1).Nodup := (List.Nodup.of_map _ hkeys).filter _
  have hgroup : group known routes e.1 = [e] := by
    cases hcases : group known routes e.1 with
    | nil =>
        rw [hcases] at hin
        cases hin
    | cons first rest =>
        rw [hcases] at honly hnodup
        have hrest : rest = [] := by
          apply List.eq_nil_iff_forall_not_mem.mpr
          intro b hb
          have heq : b = first :=
            (honly b (List.mem_cons_of_mem _ hb)).trans (honly first List.mem_cons_self).symm
          exact (List.nodup_cons.mp hnodup).1 (heq ▸ hb)
        rw [hrest, honly first List.mem_cons_self]
  have hhop := healedHops_of_clean (hhops e he) (hclean e he)
  have hbase : baseFirst known [e] = [e] := by
    simp [baseFirst, hbare e he]
  rw [hgroup, hbase, merged, allHops, List.flatMap_singleton, hhop, unique_of_nodup (hhops e he)]

end Routes

end Avibe.Repair
