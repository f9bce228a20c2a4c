import Avibe.Work.Lanes

/-!
# A lane keeps its partitions apart

Room for what a scan may admit is reserved before the scan and spent after it. With that room counted in, every step
keeps the books of a lane (`Sound`), as long as no padded key is admitted: an item frees the partition of its own
key, and the coordinator admitted it under the key without the padding (`lane_keeps_partitions`).
-/

namespace Avibe.Work

open Texts

/-- The item tasks that have not ended. -/
def Lane.itemWorkers (s : Lane) : Nat := (s.tasks.filter Task.isItem).length

/-- The room that is reserved for a scan. -/
def Coordinator.planned : Coordinator → Nat
  | .scanning request _ => request.limit
  | _ => 0

/-- The books of a lane, with room for some more items. -/
structure Sound (c : Config) (planned : Nat) (s : Lane) : Prop where
  fresh : ∀ t ∈ s.tasks, t.id < s.nextId
  nodup : (s.tasks.map Task.id).Nodup
  owned : ∀ t ∈ s.tasks, t.phase ≠ .finished → s.workers.lookup t.partition = some t.id
  owners : ∀ p id, s.workers.lookup p = some id → ∃ t ∈ s.tasks, t.id = id ∧ t.partition = p
  items : ∀ t ∈ s.tasks, ∀ item, t.role = .item item → t.phase ≠ .finished ∧ t.partition = item.partitionKey
  rewind : ∀ p ∈ s.rewindAfterPartitions, p ∈ s.workers
  backoff : s.live = true → s.backoffDeadlines.keys ≠ [] → s.backoffTask.isSome = true
  capacity : s.itemWorkers + planned ≤ c.laneCapacity
  reserved : s.itemWorkers + s.backoffDeadlines.keys.length + planned ≤ c.backoffPartitionLimit
  unviolated : s.violated = false

/-- Nothing in the books has changed, save that the lane may have ended. -/
structure SameBooks (s s' : Lane) : Prop where
  tasks : s'.tasks = s.tasks
  nextId : s'.nextId = s.nextId
  workers : s'.workers = s.workers
  rewind : s'.rewindAfterPartitions = s.rewindAfterPartitions
  deadlines : s'.backoffDeadlines = s.backoffDeadlines
  task : s'.backoffTask = s.backoffTask
  violated : s'.violated = s.violated
  live : s'.live = true → s.live = true

variable {c : Config} {planned : Nat} {s s' : Lane}

theorem SameBooks.refl (s : Lane) : SameBooks s s := ⟨rfl, rfl, rfl, rfl, rfl, rfl, rfl, id⟩

theorem SameBooks.trans {s'' : Lane} (h : SameBooks s s') (h' : SameBooks s' s'') : SameBooks s s'' where
  tasks := h'.tasks.trans h.tasks
  nextId := h'.nextId.trans h.nextId
  workers := h'.workers.trans h.workers
  rewind := h'.rewind.trans h.rewind
  deadlines := h'.deadlines.trans h.deadlines
  task := h'.task.trans h.task
  violated := h'.violated.trans h.violated
  live := h.live ∘ h'.live

namespace Sound

theorem same (h : Sound c planned s) (hs : SameBooks s s') : Sound c planned s' where
  fresh := by rw [hs.tasks, hs.nextId]; exact h.fresh
  nodup := by rw [hs.tasks]; exact h.nodup
  owned := by rw [hs.tasks, hs.workers]; exact h.owned
  owners := by rw [hs.tasks, hs.workers]; exact h.owners
  items := by rw [hs.tasks]; exact h.items
  rewind := by rw [hs.rewind, hs.workers]; exact h.rewind
  backoff := by rw [hs.deadlines, hs.task]; exact h.backoff ∘ hs.live
  capacity := by rw [Lane.itemWorkers, hs.tasks]; exact h.capacity
  reserved := by rw [Lane.itemWorkers, hs.tasks, hs.deadlines]; exact h.reserved
  unviolated := hs.violated.trans h.unviolated

theorem mono (h : Sound c planned s) {less : Nat} (hless : less ≤ planned) : Sound c less s where
  fresh := h.fresh
  nodup := h.nodup
  owned := h.owned
  owners := h.owners
  items := h.items
  rewind := h.rewind
  backoff := h.backoff
  capacity := by have := h.capacity; omega
  reserved := by have := h.reserved; omega
  unviolated := h.unviolated

theorem eq_of_id (h : Sound c planned s) {t u : Task} (ht : t ∈ s.tasks) (hu : u ∈ s.tasks) (hid : t.id = u.id) :
    t = u :=
  List.inj_on_of_nodup_map h.nodup ht hu hid

/-- At most one task runs for a partition. -/
theorem eq_of_partition (h : Sound c planned s) {t u : Task} (ht : t ∈ s.tasks) (hu : u ∈ s.tasks)
    (htruns : t.phase ≠ .finished) (huruns : u.phase ≠ .finished) (hpartition : t.partition = u.partition) : t = u := by
  have hid : some t.id = some u.id := by
    rw [← h.owned t ht htruns, ← h.owned u hu huruns, hpartition]
  exact h.eq_of_id ht hu (Option.some.inj hid)

theorem item_runs (h : Sound c planned s) {t : Task} (ht : t ∈ s.tasks) (hitem : t.isItem = true) :
    t.phase ≠ .finished := by
  rw [Task.isItem] at hitem
  split at hitem
  · rename_i item hrole
    exact (h.items t ht item hrole).1
  · cases hitem

theorem itemWorkers_le_workers (h : Sound c planned s) : s.itemWorkers ≤ s.workers.keys.length := by
  have hnodup : ((s.tasks.filter Task.isItem).map Task.partition).Nodup := by
    refine List.Nodup.map_on ?_ ((List.Nodup.of_map _ h.nodup).filter _)
    intro t ht u hu hpartition
    obtain ⟨ht, htitem⟩ := List.mem_filter.mp ht
    obtain ⟨hu, huitem⟩ := List.mem_filter.mp hu
    exact h.eq_of_partition ht hu (h.item_runs ht htitem) (h.item_runs hu huitem) hpartition
  have hsub : (s.tasks.filter Task.isItem).map Task.partition ⊆ s.workers.keys := by
    intro p hp
    obtain ⟨t, ht, rfl⟩ := List.mem_map.mp hp
    obtain ⟨ht, hitem⟩ := List.mem_filter.mp ht
    rw [← AList.mem_keys, ← AList.lookup_isSome, h.owned t ht (h.item_runs ht hitem)]
    rfl
  have hle := (List.subperm_of_subset hnodup hsub).length_le
  rwa [List.length_map] at hle

end Sound

/-! ## What leaves the books alone -/

theorem quiesce_same (s : Lane) : SameBooks s s.quiesce := by
  rw [Lane.quiesce]
  split
  · exact .refl s
  · exact ⟨rfl, rfl, rfl, rfl, rfl, rfl, rfl, id⟩

theorem stopForLostLease_same (c : Config) (s : Lane) : SameBooks s (s.stopForLostLease c) := by
  rw [Lane.stopForLostLease]
  split
  · exact .refl s
  · exact (quiesce_same s).trans ⟨rfl, rfl, rfl, rfl, rfl, rfl, rfl, id⟩

theorem rest_same (s : Lane) : SameBooks s s.rest := ⟨rfl, rfl, rfl, rfl, rfl, rfl, rfl, id⟩

theorem advance_same (s : Lane) (items : List WorkItem) (hasMore : Bool) : SameBooks s (s.advance items hasMore) := by
  rw [Lane.advance]
  split
  · split
    · exact .refl s
    · exact ⟨rfl, rfl, rfl, rfl, rfl, rfl, rfl, id⟩
  · split
    · exact .refl s
    · exact ⟨rfl, rfl, rfl, rfl, rfl, rfl, rfl, id⟩

theorem rewindExpired_same (s : Lane) (hasMore : Bool) : SameBooks s (s.rewindExpired hasMore) := by
  rw [Lane.rewindExpired]
  split
  · exact ⟨rfl, rfl, rfl, rfl, rfl, rfl, rfl, id⟩
  · exact .refl s

theorem continued_same (s : Lane) : SameBooks s { s with scanContinuationTask := true } :=
  ⟨rfl, rfl, rfl, rfl, rfl, rfl, rfl, id⟩

theorem quiesce_coordinator (s : Lane) : s.quiesce.coordinator = s.coordinator := by
  rw [Lane.quiesce]
  split <;> rfl

theorem stopForLostLease_coordinator (c : Config) (s : Lane) :
    (s.stopForLostLease c).coordinator = s.coordinator := by
  rw [Lane.stopForLostLease]
  split
  · rfl
  · exact quiesce_coordinator s

theorem rest_planned (s : Lane) : s.rest.coordinator.planned = 0 := by
  rw [Lane.rest]
  dsimp only
  split <;> rfl

/-! ## The coordinator -/

theorem Sound.rest (h : Sound c planned s) : Sound c s.rest.coordinator.planned s.rest := by
  rw [rest_planned]
  exact (h.same (rest_same s)).mono (Nat.zero_le _)

theorem Sound.endedLane (h : Sound c planned s) (coordinator : Coordinator) (hplanned : coordinator.planned = 0) :
    Sound c coordinator.planned { s.stopForLostLease c with coordinator } := by
  rw [hplanned]
  refine (h.same ?_).mono (Nat.zero_le _)
  exact (stopForLostLease_same c s).trans ⟨rfl, rfl, rfl, rfl, rfl, rfl, rfl, id⟩

/-- A scan is asked for as many items as there is room for. -/
theorem Sound.page (h : Sound c planned s) (ownsLease : Bool) (pages : Nat) :
    Sound c (s.page c ownsLease pages).coordinator.planned (s.page c ownsLease pages) := by
  rw [Lane.page]
  split
  · exact h.rest
  · split
    · exact h.endedLane .ended rfl
    · dsimp only
      split
      · exact h.rest
      · have hitems := h.itemWorkers_le_workers
        have hplanned : min (min (c.laneCapacity - s.workers.keys.length)
              (c.backoffPartitionLimit - s.backoffDeadlines.keys.length - s.workers.keys.length)) c.scanPageSize ≤
            min (c.laneCapacity - s.workers.keys.length)
              (c.backoffPartitionLimit - s.backoffDeadlines.keys.length - s.workers.keys.length) := Nat.min_le_left _ _
        have hcapacity := hplanned.trans (Nat.min_le_left _ _)
        have hreserved := hplanned.trans (Nat.min_le_right _ _)
        have hroom := (h.mono (Nat.zero_le _)).capacity
        have hledger := (h.mono (Nat.zero_le _)).reserved
        have hsame : SameBooks s { s with rewindRequested := false } := ⟨rfl, rfl, rfl, rfl, rfl, rfl, rfl, id⟩
        have hbooks := (h.mono (Nat.zero_le _)).same hsame
        exact {
          fresh := hbooks.fresh
          nodup := hbooks.nodup
          owned := hbooks.owned
          owners := hbooks.owners
          items := hbooks.items
          rewind := hbooks.rewind
          backoff := hbooks.backoff
          capacity := by
            dsimp only [Coordinator.planned, Lane.itemWorkers] at hroom hitems ⊢
            omega
          reserved := by
            dsimp only [Coordinator.planned, Lane.itemWorkers] at hledger hitems ⊢
            omega
          unviolated := hbooks.unviolated }

/-! ## Admission -/

/-- The books with one more task, which owns a partition that was free. -/
theorem Sound.create (h : Sound c planned s) {t : Task} (hid : t.id = s.nextId) (hruns : t.phase ≠ .finished)
    (hfree : t.partition ∉ s.workers)
    (hitem : ∀ item, t.role = .item item → t.partition = item.partitionKey) {less : Nat}
    (hless : less + (if t.isItem then 1 else 0) ≤ planned) :
    Sound c less
      { s with
        workers := s.workers.insert t.partition t.id
        tasks := s.tasks ++ [t]
        nextId := s.nextId + 1 } := by
  have hcount : ({ s with
        workers := s.workers.insert t.partition t.id
        tasks := s.tasks ++ [t]
        nextId := s.nextId + 1 } : Lane).itemWorkers = s.itemWorkers + if t.isItem then 1 else 0 := by
    rw [Lane.itemWorkers, List.filter_append, List.length_append, ← Lane.itemWorkers]
    cases hrole : t.isItem <;> simp [hrole]
  exact {
    fresh := by
      intro u hu
      cases List.mem_append.mp hu with
      | inl hold => exact Nat.lt_succ_of_lt (h.fresh u hold)
      | inr hnew =>
          rw [List.mem_singleton.mp hnew, hid]
          exact Nat.lt_succ_self _
    nodup := by
      rw [List.map_append, List.map_singleton]
      refine List.nodup_append.mpr ⟨h.nodup, List.nodup_singleton _, ?_⟩
      intro id hold id' hnew heq
      obtain ⟨u, hu, rfl⟩ := List.mem_map.mp hold
      rw [List.mem_singleton.mp hnew, hid] at heq
      exact absurd (h.fresh u hu) (heq ▸ Nat.lt_irrefl _)
    owned := by
      intro u hu huruns
      cases List.mem_append.mp hu with
      | inl hold =>
          have hother : u.partition ≠ t.partition := by
            intro heq
            apply hfree
            rw [← heq, ← AList.lookup_isSome, h.owned u hold huruns]
            rfl
          rw [AList.lookup_insert_ne hother]
          exact h.owned u hold huruns
      | inr hnew =>
          rw [List.mem_singleton.mp hnew]
          exact AList.lookup_insert _
    owners := by
      intro p id hlookup
      by_cases hp : p = t.partition
      · rw [hp, AList.lookup_insert] at hlookup
        exact ⟨t, List.mem_append_right _ (List.mem_singleton_self t), Option.some.inj hlookup, hp.symm⟩
      · rw [AList.lookup_insert_ne hp] at hlookup
        obtain ⟨u, hu, huid, hup⟩ := h.owners p id hlookup
        exact ⟨u, List.mem_append_left _ hu, huid, hup⟩
    items := by
      intro u hu item hrole
      cases List.mem_append.mp hu with
      | inl hold => exact h.items u hold item hrole
      | inr hnew =>
          rw [List.mem_singleton.mp hnew] at hrole ⊢
          exact ⟨hruns, hitem item hrole⟩
    rewind := fun p hp => (AList.mem_insert _).mpr (.inr (h.rewind p hp))
    backoff := h.backoff
    capacity := by
      have := h.capacity
      rw [hcount]
      omega
    reserved := by
      have := h.reserved
      rw [hcount]
      dsimp only
      omega
    unviolated := h.unviolated }

/-- The item is one that the coordinator runs, unless its partition is occupied. -/
def WorkItem.runs (item : WorkItem) : Prop :=
  item.cursorOnly = false ∧ item.partition ≠ [] ∧ item.deferUntilPartitionRelease = false

instance (item : WorkItem) : Decidable item.runs :=
  inferInstanceAs (Decidable (item.cursorOnly = false ∧ item.partition ≠ [] ∧ item.deferUntilPartitionRelease = false))

/-- No item that runs beside some occupied partitions has a padded key. -/
def Unpadded : Finset Key → List WorkItem → Prop
  | _, [] => True
  | occupied, item :: rest =>
      if item.runs ∧ item.partition ∉ occupied then
        item.partition = item.partitionKey ∧ Unpadded (insert item.partition occupied) rest
      else Unpadded occupied rest

/-- The partitions that nothing is admitted to. -/
def Lane.occupied (s : Lane) : Finset Key := (s.workers.keys ++ s.backoffDeadlines.keys).toFinset

theorem mem_occupied {p : Key} : p ∈ s.occupied ↔ p ∈ s.workers ∨ p ∈ s.backoffDeadlines := by
  rw [Lane.occupied, List.mem_toFinset, List.mem_append, AList.mem_keys, AList.mem_keys]

theorem Sound.delayRewind (h : Sound c planned s) {p : Key} (hp : p ∈ s.workers) :
    Sound c planned { s with rewindAfterPartitions := insert p s.rewindAfterPartitions } := by
  refine ⟨h.fresh, h.nodup, h.owned, h.owners, h.items, ?_, h.backoff, h.capacity, h.reserved, h.unviolated⟩
  intro q hq
  cases Finset.mem_insert.mp hq with
  | inl heq => exact heq ▸ hp
  | inr hold => exact h.rewind q hold

theorem Sound.admitItem (h : Sound c (planned + 1) s) {item : WorkItem} {rest : List WorkItem}
    (hitems : Unpadded s.occupied (item :: rest)) :
    Sound c planned (s.admitItem item) ∧ Unpadded (s.admitItem item).occupied rest := by
  have hless := h.mono (Nat.le_succ planned)
  rw [Unpadded] at hitems
  rw [Lane.admitItem]
  by_cases hcursor : item.cursorOnly = true
  · rw [if_pos hcursor]
    rw [if_neg fun hruns => by simp [WorkItem.runs, hcursor] at hruns] at hitems
    exact ⟨hless, hitems⟩
  · rw [if_neg hcursor]
    by_cases hempty : item.partition = []
    · rw [if_pos hempty]
      rw [if_neg fun hruns => hruns.1.2.1 hempty] at hitems
      exact ⟨hless, hitems⟩
    · rw [if_neg hempty]
      by_cases hdefer : item.deferUntilPartitionRelease = true
      · rw [if_pos hdefer]
        rw [if_neg fun hruns => by simp [WorkItem.runs, hdefer] at hruns] at hitems
        split
        · rename_i howned
          exact ⟨hless.delayRewind howned, hitems⟩
        · exact ⟨hless.same ⟨rfl, rfl, rfl, rfl, rfl, rfl, rfl, id⟩, hitems⟩
      · rw [if_neg hdefer]
        have hruns : item.runs := ⟨Bool.eq_false_iff.mpr hcursor, hempty, Bool.eq_false_iff.mpr hdefer⟩
        by_cases howned : item.partition ∈ s.workers
        · rw [if_pos howned]
          rw [if_neg fun h => h.2 (mem_occupied.mpr (.inl howned))] at hitems
          exact ⟨hless.delayRewind howned, hitems⟩
        · rw [if_neg howned]
          by_cases hwaits : item.partition ∈ s.backoffDeadlines
          · rw [if_pos hwaits]
            rw [if_neg fun h => h.2 (mem_occupied.mpr (.inr hwaits))] at hitems
            exact ⟨hless, hitems⟩
          · rw [if_neg hwaits]
            rw [if_pos ⟨hruns, fun hmem => (mem_occupied.mp hmem).elim howned hwaits⟩] at hitems
            obtain ⟨hkey, hitems⟩ := hitems
            constructor
            · have hone : ∀ item', Role.item item = .item item' → item.partition = item'.partitionKey := by
                intro item' hrole
                cases hrole
                exact hkey
              exact @Sound.create c (planned + 1) s h ⟨s.nextId, item.partition, .item item, .created⟩ rfl
                (fun hfinished => by cases hfinished) howned hone planned (Nat.le_refl _)
            · have hoccupied : ({ s with
                    workers := s.workers.insert item.partition s.nextId
                    tasks := s.tasks ++ [⟨s.nextId, item.partition, .item item, .created⟩]
                    nextId := s.nextId + 1 } : Lane).occupied = insert item.partition s.occupied := by
                ext p
                rw [Finset.mem_insert, mem_occupied, mem_occupied, AList.mem_insert, or_assoc]
              rw [hoccupied]
              exact hitems

theorem Sound.admitAll {items : List WorkItem} (h : Sound c (items.length + planned) s)
    (hitems : Unpadded s.occupied items) : Sound c planned (items.foldl Lane.admitItem s) := by
  induction items generalizing s with
  | nil =>
      rw [List.length_nil, Nat.zero_add] at h
      exact h
  | cons item rest ih =>
      rw [List.length_cons, Nat.add_right_comm] at h
      obtain ⟨hsound, hrest⟩ := h.admitItem hitems
      exact ih hsound hrest

/-! ## Releases -/

/-- Some tasks leave, of which none owns a partition any more. -/
theorem Sound.forget (h : Sound c planned s) {keep : Task → Bool}
    (hgone : ∀ t ∈ s.tasks, keep t = false → ∀ p, s.workers.lookup p ≠ some t.id) :
    Sound c planned { s with tasks := s.tasks.filter keep } := by
  have hcount : ({ s with tasks := s.tasks.filter keep } : Lane).itemWorkers ≤ s.itemWorkers :=
    (List.filter_sublist.filter Task.isItem).length_le
  exact {
    fresh := fun t ht => h.fresh t (List.mem_of_mem_filter ht)
    nodup := h.nodup.sublist (List.filter_sublist.map _)
    owned := fun t ht => h.owned t (List.mem_of_mem_filter ht)
    owners := by
      intro p id hlookup
      obtain ⟨t, ht, rfl, hp⟩ := h.owners p id hlookup
      refine ⟨t, List.mem_filter.mpr ⟨ht, ?_⟩, rfl, hp⟩
      by_contra hleft
      exact hgone t ht (Bool.eq_false_iff.mpr hleft) p hlookup
    items := fun t ht => h.items t (List.mem_of_mem_filter ht)
    rewind := h.rewind
    backoff := h.backoff
    capacity := by
      have := h.capacity
      omega
    reserved := by
      have := h.reserved
      dsimp only
      omega
    unviolated := h.unviolated }

/-- A partition leaves its owner, which has ended, and the owner may leave the tasks. -/
theorem Sound.freed (h : Sound c planned s) (keep : Task → Bool) (room : Nat) {p : Key} {id : Nat}
    (howner : s.workers.lookup p = some id) (hgone : ∀ t ∈ s.tasks, keep t = false → t.id = id)
    (hdone : ∀ t ∈ s.tasks, t.id = id → keep t = true → t.phase = .finished)
    (hroom : ((s.tasks.filter keep).filter Task.isItem).length + room ≤ s.itemWorkers + planned) :
    Sound c room
      { s with
        tasks := s.tasks.filter keep
        workers := s.workers.erase p
        rewindAfterPartitions := s.rewindAfterPartitions.erase p } where
  fresh := fun t ht => h.fresh t (List.mem_of_mem_filter ht)
  nodup := h.nodup.sublist (List.filter_sublist.map _)
  owned := by
    intro t ht hruns
    obtain ⟨ht, hkeep⟩ := List.mem_filter.mp ht
    have hother : t.partition ≠ p := by
      intro heq
      have hlookup := h.owned t ht hruns
      rw [heq, howner] at hlookup
      exact hruns (hdone t ht (Option.some.inj hlookup).symm hkeep)
    rw [AList.lookup_erase_ne hother]
    exact h.owned t ht hruns
  owners := by
    intro q id' hlookup
    by_cases hq : q = p
    · rw [hq, AList.lookup_erase] at hlookup
      cases hlookup
    · rw [AList.lookup_erase_ne hq] at hlookup
      obtain ⟨t, ht, rfl, htq⟩ := h.owners q id' hlookup
      refine ⟨t, List.mem_filter.mpr ⟨ht, ?_⟩, rfl, htq⟩
      by_contra hleft
      obtain ⟨u, hu, hid, hup⟩ := h.owners p id howner
      have heq := h.eq_of_id ht hu ((hgone t ht (Bool.eq_false_iff.mpr hleft)).trans hid.symm)
      exact hq (by rw [← htq, heq, hup])
  items := fun t ht => h.items t (List.mem_of_mem_filter ht)
  rewind := by
    intro q hq
    obtain ⟨hne, hold⟩ := Finset.mem_erase.mp hq
    exact AList.mem_erase.mpr ⟨hne, h.rewind q hold⟩
  backoff := h.backoff
  capacity := by
    have := h.capacity
    dsimp only [Lane.itemWorkers] at *
    omega
  reserved := by
    have := h.reserved
    dsimp only [Lane.itemWorkers] at *
    omega
  unviolated := h.unviolated

theorem release_same (s : Lane) (p : Key) :
    SameBooks
      { s with
        workers := s.workers.erase p
        rewindAfterPartitions := s.rewindAfterPartitions.erase p } (s.release p) := by
  rw [Lane.release, Lane.rewindAfterPartitionRelease]
  dsimp only
  split
  · exact ⟨rfl, rfl, rfl, rfl, rfl, rfl, rfl, id⟩
  · rename_i hnone
    exact ⟨rfl, rfl, rfl, (Finset.erase_eq_of_notMem hnone).symm, rfl, rfl, rfl, id⟩

theorem release_coordinator (s : Lane) (p : Key) : (s.release p).coordinator = s.coordinator := by
  rw [Lane.release, Lane.rewindAfterPartitionRelease]
  dsimp only
  split <;> rfl

/-! ## The backoff ledger -/

theorem length_keys_insert_le {α : Type} {β : α → Type} [DecidableEq α] (a : α) (b : β a) (d : AList β) :
    (d.insert a b).keys.length ≤ d.keys.length + 1 := by
  rw [AList.keys_insert, List.length_cons]
  exact Nat.succ_le_succ List.length_erase_le

theorem earliest_isSome {deadlines : AList fun _ : Key => Instant} (h : deadlines.keys ≠ []) :
    (deadlines.entries.map Sigma.snd).min?.isSome = true := by
  rw [Option.isSome_iff_ne_none, ne_eq, List.min?_eq_none_iff, List.map_eq_nil_iff]
  intro hentries
  apply h
  rw [AList.keys, hentries]
  rfl

/-- A partition whose room was reserved waits for its retry. -/
theorem Sound.startPartitionBackoff (h : Sound c (planned + 1) s) (p : Key) (now : Instant) :
    Sound c planned (s.startPartitionBackoff c p now) := by
  have hlength := length_keys_insert_le p (now + c.retryBackoff) s.backoffDeadlines
  have hbooks : ∀ task : Option Instant, task.isSome = true →
      Sound c planned
        { s with backoffDeadlines := s.backoffDeadlines.insert p (now + c.retryBackoff), backoffTask := task } :=
    fun task htask => {
      fresh := h.fresh
      nodup := h.nodup
      owned := h.owned
      owners := h.owners
      items := h.items
      rewind := h.rewind
      backoff := fun _ _ => htask
      capacity := (h.mono (Nat.le_succ planned)).capacity
      reserved := by
        have hledger := h.reserved
        dsimp only [Lane.itemWorkers] at hledger ⊢
        omega
      unviolated := h.unviolated }
  rw [Lane.startPartitionBackoff]
  dsimp only
  by_cases htask : s.backoffTask.isSome = true
  · rw [if_pos htask]
    exact hbooks s.backoffTask htask
  · rw [if_neg htask]
    apply hbooks
    apply earliest_isSome
    rw [AList.keys_insert]
    exact List.cons_ne_nil _ _

theorem startPartitionBackoff_coordinator (p : Key) (now : Instant) :
    (s.startPartitionBackoff c p now).coordinator = s.coordinator := by
  rw [Lane.startPartitionBackoff]
  dsimp only
  split <;> rfl

theorem Sound.not_unreserved (h : Sound c (planned + 1) s) (p : Key) : s.unreserved c p = false := by
  have hledger := h.reserved
  rw [Lane.unreserved, Bool.and_eq_false_iff]
  right
  rw [decide_eq_false_iff_not]
  omega

/-- Expired partitions leave the ledger, and the next deadline is awaited. -/
theorem Sound.finishPartitionBackoff (h : Sound c planned s) (deadline : Instant) (completed : Bool) :
    Sound c planned (s.finishPartitionBackoff deadline completed) := by
  have hlength : (s.deadlinesAfter deadline).keys.length ≤ s.backoffDeadlines.keys.length := by
    rw [Lane.deadlinesAfter, AList.keys, AList.keys]
    exact (List.filter_sublist.map _).length_le
  have hbooks : ∀ (deadlines : AList fun _ : Key => Instant) (task : Option Instant) (event pending : Bool),
      deadlines.keys.length ≤ s.backoffDeadlines.keys.length →
      (s.live = true → deadlines.keys ≠ [] → task.isSome = true) →
      Sound c planned
        { s with
          backoffDeadlines := deadlines
          backoffTask := task
          event
          expiredBackoffRewindPending := pending } :=
    fun deadlines task event pending hle htask => {
      fresh := h.fresh
      nodup := h.nodup
      owned := h.owned
      owners := h.owners
      items := h.items
      rewind := h.rewind
      backoff := htask
      capacity := h.capacity
      reserved := by
        have hledger := h.reserved
        dsimp only [Lane.itemWorkers] at hledger ⊢
        omega
      unviolated := h.unviolated }
  have hnext : ∀ s' : Lane, (s'.live && s'.backoffDeadlines.keys ≠ []) = false →
      s'.live = true → s'.backoffDeadlines.keys ≠ [] → s'.backoffTask.isSome = true := by
    intro s' hnone hlive hsome
    rw [hlive, Bool.true_and, decide_eq_false_iff_not] at hnone
    exact absurd hsome hnone
  rw [Lane.finishPartitionBackoff]
  dsimp only
  cases completed with
  | true =>
      rw [if_pos rfl]
      split
      · rename_i hwaits
        obtain ⟨-, hsome⟩ := Bool.and_eq_true_iff.mp hwaits
        apply hbooks _ _ _ _ hlength
        exact fun _ _ => earliest_isSome (of_decide_eq_true hsome)
      · rename_i hnone
        apply hbooks _ _ _ _ hlength
        exact hnext _ (Bool.eq_false_iff.mpr hnone)
  | false =>
      rw [if_neg Bool.false_ne_true]
      split
      · rename_i hwaits
        obtain ⟨-, hsome⟩ := Bool.and_eq_true_iff.mp hwaits
        apply hbooks _ _ _ _ (Nat.le_refl _)
        exact fun _ _ => earliest_isSome (of_decide_eq_true hsome)
      · rename_i hnone
        apply hbooks _ _ _ _ (Nat.le_refl _)
        exact hnext _ (Bool.eq_false_iff.mpr hnone)

theorem finishPartitionBackoff_coordinator (deadline : Instant) (completed : Bool) :
    (s.finishPartitionBackoff deadline completed).coordinator = s.coordinator := by
  rw [Lane.finishPartitionBackoff]
  dsimp only
  cases completed with
  | true =>
      rw [if_pos rfl]
      split <;> rfl
  | false =>
      rw [if_neg Bool.false_ne_true]
      split <;> rfl

/-! ## Items and live owners -/

theorem isItem_of_role {t : Task} {item : WorkItem} (h : t.role = .item item) : t.isItem = true := by
  rw [Task.isItem, h]

/-- An item that ends frees its partition, and the room it had is there for its backoff. -/
theorem Sound.finishItem (h : Sound c planned s) {t : Task} (ht : t ∈ s.tasks) {item : WorkItem}
    (hrole : t.role = .item item) (shouldBackoff : Bool) (now : Instant) :
    Sound c planned (s.finishItem c t item shouldBackoff now) := by
  obtain ⟨hruns, hpartition⟩ := h.items t ht item hrole
  have howner := h.owned t ht hruns
  rw [hpartition] at howner
  have hcount : ((s.tasks.filter fun u => u.id ≠ t.id).filter Task.isItem).length + 1 ≤ s.itemWorkers := by
    have hlt : ((s.tasks.filter Task.isItem).filter fun u => u.id ≠ t.id).length <
        (s.tasks.filter Task.isItem).length := by
      rw [List.length_filter_lt_length_iff_exists]
      exact ⟨t, List.mem_filter.mpr ⟨ht, isItem_of_role hrole⟩, by simp⟩
    rw [List.filter_comm]
    exact hlt
  have hfreed := h.freed (fun u => u.id ≠ t.id) (planned + 1) howner (fun u _ hgone => by simpa using hgone)
    (fun u _ hid hkeep => absurd hid (of_decide_eq_true hkeep)) (by omega)
  have hreleased : Sound c (planned + 1)
      ({ s with tasks := s.tasks.filter fun u => u.id ≠ t.id }.release item.partitionKey) :=
    hfreed.same (release_same { s with tasks := s.tasks.filter fun u => u.id ≠ t.id } item.partitionKey)
  rw [Lane.finishItem]
  dsimp only
  rw [if_pos howner]
  generalize hleft : (if shouldBackoff = true then
      ({ s with
        tasks := s.tasks.filter fun u => u.id ≠ t.id
        workers := s.workers.erase item.partitionKey
        rewindAfterPartitions := s.rewindAfterPartitions.erase item.partitionKey } : Lane)
    else { s with tasks := s.tasks.filter fun u => u.id ≠ t.id }.release item.partitionKey) = left
  have hsound : Sound c (planned + 1) left := by
    rw [← hleft]
    split
    · exact hfreed
    · exact hreleased
  rw [hsound.not_unreserved, Bool.and_false, if_neg Bool.false_ne_true]
  split
  · exact (hsound.startPartitionBackoff _ now).same ⟨rfl, rfl, rfl, rfl, rfl, rfl, rfl, id⟩
  · exact (hsound.mono (Nat.le_succ planned)).same ⟨rfl, rfl, rfl, rfl, rfl, rfl, rfl, id⟩

theorem finishItem_coordinator {t : Task} {item : WorkItem} {shouldBackoff : Bool} {now : Instant} :
    (s.finishItem c t item shouldBackoff now).coordinator = s.coordinator := by
  rw [Lane.finishItem]
  dsimp only
  generalize hleft : (if AList.lookup item.partitionKey s.workers = some t.id then
      if shouldBackoff = true then
        ({ s with
          tasks := s.tasks.filter fun u => u.id ≠ t.id
          workers := s.workers.erase item.partitionKey
          rewindAfterPartitions := s.rewindAfterPartitions.erase item.partitionKey } : Lane)
      else { s with tasks := s.tasks.filter fun u => u.id ≠ t.id }.release item.partitionKey
    else { s with tasks := s.tasks.filter fun u => u.id ≠ t.id }) = left
  have hcoordinator : left.coordinator = s.coordinator := by
    rw [← hleft]
    split
    · split
      · rfl
      · exact release_coordinator _ _
    · rfl
  split
  · exact hcoordinator
  · split
    · exact (startPartitionBackoff_coordinator _ _).trans hcoordinator
    · exact hcoordinator

theorem Sound.setPhase (h : Sound c planned s) {t : Task} (ht : t ∈ s.tasks) {phase : Phase}
    (hruns : t.phase ≠ .finished) (hitem : t.isItem = true → phase ≠ .finished) :
    Sound c planned (s.setPhase t.id phase) := by
  have hback : ∀ u ∈ (s.setPhase t.id phase).tasks, ∃ v ∈ s.tasks, u.id = v.id ∧ u.partition = v.partition ∧
      u.role = v.role ∧ (u = v ∨ v = t ∧ u.phase = phase) := by
    intro u hu
    obtain ⟨v, hv, rfl⟩ := List.mem_map.mp hu
    refine ⟨v, hv, ?_⟩
    by_cases hid : v.id = t.id
    · rw [if_pos hid]
      exact ⟨rfl, rfl, rfl, .inr ⟨h.eq_of_id hv ht hid, rfl⟩⟩
    · rw [if_neg hid]
      exact ⟨rfl, rfl, rfl, .inl rfl⟩
  have hids : (s.setPhase t.id phase).tasks.map Task.id = s.tasks.map Task.id := by
    rw [Lane.setPhase, List.map_map]
    apply List.map_congr_left
    intro u hu
    rw [Function.comp_apply]
    split <;> rfl
  have hcount : (s.setPhase t.id phase).itemWorkers = s.itemWorkers := by
    rw [Lane.itemWorkers, Lane.itemWorkers, Lane.setPhase, List.filter_map, List.length_map]
    congr 1
    apply List.filter_congr
    intro u hu
    rw [Function.comp_apply]
    split <;> rfl
  exact {
    fresh := by
      intro u hu
      obtain ⟨v, hv, hid, -⟩ := hback u hu
      rw [hid]
      exact h.fresh v hv
    nodup := hids ▸ h.nodup
    owned := by
      intro u hu huruns
      obtain ⟨v, hv, hid, hpartition, -, hphase⟩ := hback u hu
      rw [hid, hpartition]
      apply h.owned v hv
      cases hphase with
      | inl hsame => exact hsame ▸ huruns
      | inr hchanged => exact hchanged.1 ▸ hruns
    owners := by
      intro p id hlookup
      obtain ⟨v, hv, hid, hpartition⟩ := h.owners p id hlookup
      refine ⟨if v.id = t.id then { v with phase } else v, List.mem_map_of_mem hv, ?_⟩
      split
      · exact ⟨hid, hpartition⟩
      · exact ⟨hid, hpartition⟩
    items := by
      intro u hu item hrole
      obtain ⟨v, hv, -, hpartition, hsame, hphase⟩ := hback u hu
      rw [hpartition]
      obtain ⟨hvruns, hkey⟩ := h.items v hv item (hsame ▸ hrole)
      refine ⟨?_, hkey⟩
      cases hphase with
      | inl hsame => exact hsame ▸ hvruns
      | inr hchanged =>
          rw [hchanged.2]
          exact hitem (isItem_of_role (hchanged.1 ▸ hsame ▸ hrole))
    rewind := h.rewind
    backoff := h.backoff
    capacity := hcount ▸ h.capacity
    reserved := by
      have := h.reserved
      rw [hcount]
      exact this
    unviolated := h.unviolated }

theorem Sound.admitLive (h : Sound c planned s) (partition : Key) (caller : Option Nat) (ownsLease : Bool) :
    Sound c planned (s.admitLive c partition caller ownsLease) := by
  rw [Lane.admitLive]
  split
  · exact h
  · split
    · exact h.same (stopForLostLease_same c s)
    · split
      · split
        · exact h
        · exact h.same ⟨rfl, rfl, rfl, rfl, rfl, rfl, rfl, id⟩
      · rename_i hfree
        exact @Sound.create c planned s h ⟨s.nextId, partition, .live, .running⟩ rfl
          (fun hfinished => by cases hfinished) (AList.lookup_eq_none.mp hfree) (fun item hrole => by cases hrole) planned
          (Nat.le_refl _)

theorem admitLive_coordinator (partition : Key) (caller : Option Nat) (ownsLease : Bool) :
    (s.admitLive c partition caller ownsLease).coordinator = s.coordinator := by
  rw [Lane.admitLive]
  split
  · rfl
  · split
    · exact stopForLostLease_coordinator c s
    · split
      · split <;> rfl
      · rfl

/-- A live owner that has ended leaves its partition, unless another has taken it over. -/
theorem Sound.releaseLivePartition (h : Sound c planned s) {t : Task} (ht : t ∈ s.tasks) (hdone : t.phase = .finished) :
    Sound c planned (s.releaseLivePartition t) := by
  have hended : ∀ u ∈ s.tasks, u.id = t.id → u.phase = .finished := fun u hu hid => h.eq_of_id hu ht hid ▸ hdone
  have hsound : Sound c planned
      (if s.workers.lookup t.partition = some t.id then
        { s with tasks := s.tasks.filter fun u => u.id ≠ t.id }.release t.partition
      else { s with tasks := s.tasks.filter fun u => u.id ≠ t.id }) := by
    split
    · rename_i howner
      have hfreed := h.freed (fun u => u.id ≠ t.id) planned howner (fun u _ hgone => by simpa using hgone)
        (fun u hu hid _ => hended u hu hid)
        (Nat.add_le_add_right (List.filter_sublist.filter Task.isItem).length_le planned)
      exact hfreed.same (release_same { s with tasks := s.tasks.filter fun u => u.id ≠ t.id } t.partition)
    · rename_i hother
      apply h.forget
      intro u hu hgone p hlookup
      have hid : u.id = t.id := by simpa using hgone
      obtain ⟨v, hv, hvid, hvp⟩ := h.owners p u.id hlookup
      have heq : v = t := h.eq_of_id hv ht (hvid.trans hid)
      rw [← hvp, heq, hid] at hlookup
      exact hother hlookup
  exact hsound.same ⟨rfl, rfl, rfl, rfl, rfl, rfl, rfl, id⟩

theorem releaseLivePartition_coordinator (t : Task) : (s.releaseLivePartition t).coordinator = s.coordinator := by
  rw [Lane.releaseLivePartition]
  dsimp only
  split
  · exact release_coordinator _ _
  · rfl

/-- A waiter takes the partition of an owner that has ended. -/
theorem Sound.takeOver (h : Sound c planned s) {p : Key} {id : Nat} (howner : s.workers.lookup p = some id)
    (hdone : s.done id = true) : Sound c planned (s.release p) := by
  have hended : ∀ u ∈ s.tasks, u.id = id → u.phase = .finished := by
    intro u hu hid
    have hone := List.all_eq_true.mp hdone u hu
    simpa [hid] using hone
  have hall : s.tasks.filter (fun _ => true) = s.tasks := List.filter_eq_self.mpr fun _ _ => rfl
  have hfreed := h.freed (fun _ => true) planned howner (fun u _ hgone => by cases hgone) (fun u hu hid _ => hended u hu hid)
    (by rw [hall]; exact Nat.le_refl _)
  rw [hall] at hfreed
  exact hfreed.same (release_same s p)

/-! ## Steps -/

/-- No padded key is admitted from what a scan returns. -/
def ScansUnpadded (s : Lane) : Step → Prop
  | .scanned items _ _ _ => Unpadded s.occupied items
  | _ => True

theorem task?_some {id : Nat} {t : Task} (h : s.task? id = some t) : t ∈ s.tasks ∧ t.id = id :=
  ⟨List.mem_of_find?_eq_some h, by simpa using List.find?_some h⟩

theorem Sound.scanned (h : Sound c planned s) {request : Request} (pages : Nat) {items : List WorkItem}
    (hasMore ownsLease stillOwnsLease : Bool) (hlimit : items.length ≤ planned) (hitems : Unpadded s.occupied items) :
    Sound c (s.scanned c request pages items hasMore ownsLease stillOwnsLease).coordinator.planned
      (s.scanned c request pages items hasMore ownsLease stillOwnsLease) := by
  rw [Lane.scanned]
  split
  · exact h.rest
  · split
    · exact h.endedLane .ended rfl
    · have hadvance := advance_same s items hasMore
      have hbefore : Sound c (items.length + 0) (s.advance items hasMore) := (h.mono hlimit).same hadvance
      have hoccupied : (s.advance items hasMore).occupied = s.occupied := by
        rw [Lane.occupied, hadvance.workers, hadvance.deadlines, Lane.occupied]
      have hadmitted := hbefore.admitAll (hoccupied ▸ hitems)
      have hexpired := hadmitted.same (rewindExpired_same _ hasMore)
      dsimp only
      split
      · exact hexpired.rest
      · split
        · exact hexpired.rest
        · split
          · exact (hexpired.same (continued_same _)).rest
          · exact hexpired.page stillOwnsLease (pages - 1)

/-- Every step keeps the books, with the room that is reserved. -/
theorem Sound.step (h : Sound c s.coordinator.planned s) {i : Step} (hi : ScansUnpadded s i)
    (hs : step c s i = some s') : Sound c s'.coordinator.planned s' := by
  cases i with
  | wakes ownsLease =>
      rw [Work.step] at hs
      split at hs
      · split at hs
        · obtain rfl := Option.some.inj hs
          have hwoken : Sound c s.coordinator.planned { s with event := false } :=
            h.same ⟨rfl, rfl, rfl, rfl, rfl, rfl, rfl, id⟩
          exact hwoken.page ownsLease c.scanContinuationPages
        · cases hs
      · cases hs
  | scanned items hasMore ownsLease stillOwnsLease =>
      rw [Work.step] at hs
      split at hs
      · rename_i request pages hcoordinator
        split at hs
        · rename_i hlimit
          obtain rfl := Option.some.inj hs
          rw [hcoordinator] at h
          exact h.scanned pages hasMore ownsLease stillOwnsLease hlimit hi
        · cases hs
      · cases hs
  | scanFailed =>
      rw [Work.step] at hs
      split at hs
      · obtain rfl := Option.some.inj hs
        split
        · exact (h.mono (Nat.zero_le _)).same ⟨rfl, rfl, rfl, rfl, rfl, rfl, rfl, id⟩
        · exact h.rest
      · cases hs
  | retried =>
      rw [Work.step] at hs
      split at hs
      · obtain rfl := Option.some.inj hs
        have harmed : Sound c s.coordinator.planned { s with event := s.event || s.arms } :=
          h.same ⟨rfl, rfl, rfl, rfl, rfl, rfl, rfl, id⟩
        exact harmed.rest
      · cases hs
  | itemStarts id ownsLease now =>
      rw [Work.step] at hs
      split at hs
      · rename_i id' partition item htask
        obtain ⟨ht, rfl⟩ := task?_some htask
        split at hs
        · obtain rfl := Option.some.inj hs
          exact h.setPhase ht (fun hfinished => by cases hfinished) fun _ hfinished => by cases hfinished
        · obtain rfl := Option.some.inj hs
          have hstopped : SameBooks s (if s.live = true then s.stopForLostLease c else s) := by
            split
            · exact stopForLostLease_same c s
            · exact .refl s
          have hcoordinator : (if s.live = true then s.stopForLostLease c else s).coordinator = s.coordinator := by
            split
            · exact stopForLostLease_coordinator c s
            · rfl
          rw [finishItem_coordinator, hcoordinator]
          exact (h.same hstopped).finishItem (hstopped.tasks.symm ▸ ht) rfl false now
      · cases hs
  | itemEnds id outcome now =>
      rw [Work.step] at hs
      split at hs
      · rename_i id' partition item htask
        obtain ⟨ht, rfl⟩ := task?_some htask
        obtain rfl := Option.some.inj hs
        rw [finishItem_coordinator]
        exact h.finishItem ht rfl _ now
      · cases hs
  | liveAsks partitionKey caller ownsLease =>
      rw [Work.step] at hs
      split at hs
      · cases hs
      · obtain rfl := Option.some.inj hs
        rw [admitLive_coordinator]
        exact h.admitLive _ caller ownsLease
  | waiterWakes waiter ownsLease =>
      rw [Work.step] at hs
      split at hs
      · rename_i hready
        obtain rfl := Option.some.inj hs
        have hleft : Sound c s.coordinator.planned { s with waiters := s.waiters.erase waiter } :=
          h.same ⟨rfl, rfl, rfl, rfl, rfl, rfl, rfl, id⟩
        dsimp only
        split
        · rename_i howner
          rw [admitLive_coordinator, release_coordinator]
          exact (hleft.takeOver howner hready.2).admitLive _ waiter.caller ownsLease
        · rw [admitLive_coordinator]
          exact hleft.admitLive _ waiter.caller ownsLease
      · cases hs
  | liveEnds id =>
      rw [Work.step] at hs
      split at hs
      · rename_i id' partition htask
        obtain ⟨ht, rfl⟩ := task?_some htask
        obtain rfl := Option.some.inj hs
        exact h.setPhase ht (fun hfinished => by cases hfinished) fun hitem => by cases hitem
      · cases hs
  | liveReleased id =>
      rw [Work.step] at hs
      split at hs
      · rename_i id' partition htask
        obtain ⟨ht, rfl⟩ := task?_some htask
        obtain rfl := Option.some.inj hs
        rw [releaseLivePartition_coordinator]
        exact h.releaseLivePartition ht rfl
      · cases hs
  | backoffEnds completed =>
      rw [Work.step] at hs
      split at hs
      · obtain rfl := Option.some.inj hs
        rw [finishPartitionBackoff_coordinator]
        exact h.finishPartitionBackoff _ completed
      · cases hs
  | continuationEnds =>
      rw [Work.step] at hs
      split at hs
      · obtain rfl := Option.some.inj hs
        exact h.same ⟨rfl, rfl, rfl, rfl, rfl, rfl, rfl, id⟩
      · cases hs
  | notified resetCursor =>
      rw [Work.step] at hs
      split at hs
      · obtain rfl := Option.some.inj hs
        exact h.same ⟨rfl, rfl, rfl, rfl, rfl, rfl, rfl, id⟩
      · cases hs
  | delayedWake =>
      rw [Work.step] at hs
      split at hs
      · obtain rfl := Option.some.inj hs
        exact h.same ⟨rfl, rfl, rfl, rfl, rfl, rfl, rfl, id⟩
      · cases hs
  | reconciled ownsLease =>
      rw [Work.step] at hs
      split at hs
      · cases hs
      · split at hs
        · obtain rfl := Option.some.inj hs
          rw [stopForLostLease_coordinator]
          exact h.same (stopForLostLease_same c s)
        · split at hs
          · obtain rfl := Option.some.inj hs
            exact h.same ⟨rfl, rfl, rfl, rfl, rfl, rfl, rfl, id⟩
          · cases hs
  | unregister =>
      rw [Work.step] at hs
      split at hs
      · obtain rfl := Option.some.inj hs
        exact h.same ⟨rfl, rfl, rfl, rfl, rfl, rfl, rfl, fun hlive => by cases hlive⟩
      · cases hs
  | unregisterFinishes =>
      rw [Work.step] at hs
      split at hs
      · split at hs
        · obtain rfl := Option.some.inj hs
          refine ⟨h.fresh, h.nodup, h.owned, h.owners, h.items, h.rewind, fun _ hsome => absurd rfl hsome, h.capacity,
            ?_, h.unviolated⟩
          have hledger := h.reserved
          dsimp only [Lane.itemWorkers] at hledger ⊢
          rw [AList.keys_empty, List.length_nil]
          omega
        · cases hs
      · cases hs
  | quiesce =>
      obtain rfl := Option.some.inj hs
      rw [quiesce_coordinator]
      exact h.same (quiesce_same s)
  | stop =>
      obtain rfl := Option.some.inj hs
      exact h.same ⟨rfl, rfl, rfl, rfl, rfl, rfl, rfl, id⟩
  | stopBegins =>
      rw [Work.step] at hs
      split at hs
      · obtain rfl := Option.some.inj hs
        have hcoordinator := quiesce_coordinator s
        dsimp only
        rw [hcoordinator]
        exact h.same ((quiesce_same s).trans ⟨rfl, rfl, rfl, rfl, rfl, rfl, rfl, id⟩)
      · cases hs

/-! ## Runs -/

theorem sound_new (c : Config) : Sound c 0 .new where
  fresh := fun t ht => by cases ht
  nodup := List.nodup_nil
  owned := fun t ht => by cases ht
  owners := fun p id hlookup => by cases hlookup
  items := fun t ht => by cases ht
  rewind := fun p hp => absurd hp (Finset.notMem_empty p)
  backoff := fun _ hsome => absurd rfl hsome
  capacity := Nat.zero_le _
  reserved := Nat.zero_le _
  unviolated := rfl

/-- The callback of a live owner that has ended can run, and its partition is not the owner's after it. -/
theorem Sound.released (h : Sound c planned s) {t : Task} (ht : t ∈ s.tasks) (hlive : t.role = .live)
    (hdone : t.phase = .finished) :
    ∃ s', Work.step c s (.liveReleased t.id) = some s' ∧ s'.workers.lookup t.partition ≠ some t.id := by
  obtain ⟨id, partition, role, phase⟩ := t
  obtain rfl : role = .live := hlive
  obtain rfl : phase = .finished := hdone
  have hfound : s.task? id = some ⟨id, partition, .live, .finished⟩ := by
    obtain ⟨u, hu⟩ := Option.isSome_iff_exists.mp
      (List.find?_isSome.mpr ⟨_, ht, decide_eq_true rfl⟩ : (s.tasks.find? fun u => u.id = id).isSome = true)
    obtain ⟨humem, huid⟩ := task?_some hu
    rw [Lane.task?, hu, h.eq_of_id humem ht huid]
  refine ⟨s.releaseLivePartition ⟨id, partition, .live, .finished⟩, ?_, ?_⟩
  · rw [Work.step, hfound]
  · rw [Lane.releaseLivePartition]
    dsimp only
    split
    · have hworkers := (release_same { s with tasks := s.tasks.filter fun u => u.id ≠ id } partition).workers
      dsimp only at hworkers
      rw [hworkers, AList.lookup_erase]
      exact fun hnone => by cases hnone
    · rename_i hother
      exact hother

/-- What a lane keeps: one running task for a partition, no partition with an owner that has ended (save a live one
whose callback is still to run, and frees it), bounded workers and backoffs, and an owner or a pending task for
everything that waits for one. -/
structure Lawful (c : Config) (s : Lane) : Prop where
  exclusive : ∀ t ∈ s.tasks, ∀ u ∈ s.tasks, t.phase ≠ .finished → u.phase ≠ .finished → t.partition = u.partition → t = u
  freed : ∀ p id, s.workers.lookup p = some id →
    ∃ t ∈ s.tasks, t.id = id ∧ t.partition = p ∧ (t.phase = .finished → t.role = .live)
  released : ∀ t ∈ s.tasks, t.role = .live → t.phase = .finished →
    ∃ s', step c s (.liveReleased t.id) = some s' ∧ s'.workers.lookup t.partition ≠ some t.id
  capacity : s.itemWorkers ≤ c.laneCapacity
  reserved : s.itemWorkers + s.backoffDeadlines.keys.length ≤ c.backoffPartitionLimit
  unviolated : s.violated = false
  rewind : ∀ p ∈ s.rewindAfterPartitions, ∃ t ∈ s.tasks, t.partition = p ∧ s.workers.lookup p = some t.id
  backoff : s.live = true → s.backoffDeadlines.keys ≠ [] → s.backoffTask.isSome = true

theorem Sound.lawful (h : Sound c planned s) : Lawful c s where
  exclusive := fun _ ht _ hu htruns huruns hpartition => h.eq_of_partition ht hu htruns huruns hpartition
  freed := by
    intro p id hlookup
    obtain ⟨t, ht, hid, hp⟩ := h.owners p id hlookup
    refine ⟨t, ht, hid, hp, fun hdone => ?_⟩
    cases hrole : t.role with
    | item item => exact absurd hdone (h.items t ht item hrole).1
    | live => rfl
  released := fun _ ht hlive hdone => h.released ht hlive hdone
  capacity := (h.mono (Nat.zero_le _)).capacity
  reserved := (h.mono (Nat.zero_le _)).reserved
  unviolated := h.unviolated
  rewind := by
    intro p hp
    obtain ⟨id, hlookup⟩ := Option.isSome_iff_exists.mp (AList.lookup_isSome.mpr (h.rewind p hp))
    obtain ⟨t, ht, rfl, htp⟩ := h.owners p id hlookup
    exact ⟨t, ht, htp, hlookup⟩
  backoff := h.backoff

/-- In every run that admits no padded key, a lane is lawful in every state. -/
theorem lane_keeps_partitions (c : Config) {run reached : List Step}
    (hrun : Machine.Along (Machine.ofStep (step c)) ScansUnpadded .new run) (hreached : reached <+: run) :
    Lawful c (after c .new reached) := by
  obtain ⟨later, rfl⟩ := hreached
  obtain ⟨hbefore, -⟩ := (Machine.along_append _).mp hrun
  have hsound : Sound c (after c .new reached).coordinator.planned (after c .new reached) := by
    have hstep : ∀ s i, ScansUnpadded s i → Sound c s.coordinator.planned s →
        Sound c (Machine.ofStep (step c) s i).coordinator.planned (Machine.ofStep (step c) s i) := by
      intro s i hi hs
      rw [Machine.ofStep]
      cases hstep : step c s i with
      | none => exact hs
      | some s' => exact hs.step hi hstep
    have hnew : Sound c Lane.new.coordinator.planned .new := sound_new c
    exact Machine.after_inv_along _ hstep hnew hbefore
  exact hsound.lawful

def sampleConfig : Config := ⟨2, 2, 1, 1, false, by decide, by decide, by decide⟩

/-- A scan returns one item, whose processing raises. -/
def failedRun (key : Key) : List Step :=
  [.wakes true, .scanned [⟨key, none, true, false, false⟩] false true true, .itemStarts 0 true 0, .itemEnds 0 .raised 0]

theorem lane_keeps_failed_partition : Lawful sampleConfig (after sampleConfig .new (failedRun [0x61])) := by
  refine @lane_keeps_partitions sampleConfig (failedRun [0x61]) _ ?_ (List.prefix_refl _)
  · refine ⟨trivial, ?_, trivial, trivial, trivial⟩
    rw [ScansUnpadded, Unpadded]
    split
    · exact ⟨by decide, trivial⟩
    · trivial

/-- The partition of a padded key keeps its ended owner. -/
theorem padded_key_keeps_owner : ¬ Lawful sampleConfig (after sampleConfig .new (failedRun [0x20, 0x61])) := by
  intro h
  have howner : (after sampleConfig .new (failedRun [0x20, 0x61])).workers.lookup [0x61] = some 0 := by decide
  obtain ⟨t, ht, -⟩ := h.freed _ _ howner
  have hnone : (after sampleConfig .new (failedRun [0x20, 0x61])).tasks.length = 0 := by decide
  rw [List.eq_nil_of_length_eq_zero hnone] at ht
  cases ht

end Avibe.Work
