import Avibe.Runtime.Generations

/-!
# What the steps keep

The lists of a set of generations and the flags of its generations agree in every state
that calls and the reconciler can reach.
-/

namespace Avibe.Runtime

open SortOn Machine

namespace GenerationSet

/-- The bindings of a generation that are not released. -/
def unreleased (s : GenerationSet) (serial : Nat) : Nat :=
  s.bindings.countP fun b => b.generation = serial && !b.released

structure Sound (s : GenerationSet) : Prop where
  increasing : s.retiring.Pairwise (· < ·)
  apart : ∀ g, s.current = some g → g ∉ s.retiring
  attached : ∀ g ∈ s.attached, s.made g
  live : ∀ g, s.made g → ((s.generations g).stopped = false ↔ g ∈ s.attached)
  flag : ∀ g, s.made g → ((s.generations g).retiring = true ↔ g ∈ s.retiring)
  admits : ∀ g, s.current = some g → (s.generations g).closed = false
  counts : ∀ g, (s.generations g).bindings = s.unreleased g
  bound : ∀ b ∈ s.bindings, s.made b.generation
  tried : ∀ g ∈ s.triedForced, s.made g ∧
    (g ∈ s.attached → (s.generations g).closed = true ∧ (s.generations g).failed = true)
  running : ∀ g force requests, s.reconciler = .stopping g force requests →
    s.made g ∧ g ∉ s.attached ∧
      (g ∈ s.triedForced → force = true ∧ requests = s.retryRequests)

theorem sound_new (cap : Nat) : (new cap).Sound where
  increasing := List.Pairwise.nil
  apart := by simp [new]
  attached := by simp [new, GenerationSet.attached]
  live := by
    rintro g ⟨h, h'⟩
    simp [new] at h'
    omega
  flag := by
    rintro g ⟨h, h'⟩
    simp [new] at h'
    omega
  admits := by simp [new]
  counts := by simp [new, unreleased, Generation.new]
  bound := by simp [new]
  tried := by simp [new]
  running := by simp [new]

theorem increasing_add {l : List Nat} {g : Nat} (h : l.Pairwise (· < ·)) (hg : g ∉ l) :
    (sortOn id (l ++ [g])).Pairwise (· < ·) := by
  have hl : l.Nodup := h.imp Nat.ne_of_lt
  have hadd : (l ++ [g]).Nodup := by
    rw [List.nodup_append]
    refine ⟨hl, List.nodup_singleton g, ?_⟩
    rintro a ha b hb rfl
    exact hg (List.mem_singleton.mp hb ▸ ha)
  exact @sortOn_increasing Nat Nat _ id _ (by rwa [List.map_id])

theorem mem_erase {l : List Nat} {g h : Nat} (hl : l.Pairwise (· < ·)) :
    h ∈ l.erase g ↔ h ≠ g ∧ h ∈ l := by
  have hnodup : l.Nodup := hl.imp Nat.ne_of_lt
  exact hnodup.mem_erase_iff

theorem increasing_erase {l : List Nat} (g : Nat) (hl : l.Pairwise (· < ·)) :
    (l.erase g).Pairwise (· < ·) := hl.sublist List.erase_sublist

@[simp] theorem mem_attached {s : GenerationSet} {g : Nat} :
    g ∈ s.attached ↔ g ∈ s.retiring ∨ s.current = some g := by
  simp [GenerationSet.attached]

theorem Sound.kick {s : GenerationSet} (h : s.Sound) : s.kick.Sound := by
  unfold GenerationSet.kick
  split
  · exact ⟨h.increasing, h.apart, h.attached, h.live, h.flag, h.admits, h.counts, h.bound, h.tried,
      fun _ _ _ hr => by cases hr⟩
  · exact h

theorem Sound.detach {s : GenerationSet} (h : s.Sound) {g : Nat} (hg : s.made g) :
    (s.detach g).Sound := by
  have he := fun h => @mem_erase s.retiring g h ‹s.Sound›.increasing
  obtain ⟨hinc, hapart, hatt, hlive, hflag, hadm, hcounts, hbound, htried, hrun⟩ := h
  refine ⟨increasing_erase g hinc, ?_, ?_, ?_, ?_, ?_, ?_, ?_, ?_, ?_⟩ <;>
    simp only [GenerationSet.detach, update, made, mem_attached, unreleased] at *
  all_goals grind

/-- A generation in place is changed in a field that no list speaks of. -/
theorem Sound.update {s : GenerationSet} (h : s.Sound) {g : Nat} {f : Generation → Generation}
    (hs : (f (s.generations g)).stopped = (s.generations g).stopped)
    (hr : (f (s.generations g)).retiring = (s.generations g).retiring)
    (hb : (f (s.generations g)).bindings = (s.generations g).bindings)
    (hc : s.current = some g → (f (s.generations g)).closed = false)
    (ht : (s.generations g).closed = true → (s.generations g).failed = true →
      (f (s.generations g)).closed = true ∧ (f (s.generations g)).failed = true) :
    (s.update g f).Sound := by
  obtain ⟨hinc, hapart, hatt, hlive, hflag, hadm, hcounts, hbound, htried, hrun⟩ := h
  refine ⟨hinc, hapart, ?_, ?_, ?_, ?_, ?_, ?_, ?_, ?_⟩ <;>
    simp only [GenerationSet.update, made, mem_attached, unreleased] at *
  all_goals grind

/-- The current generation retires. -/
theorem Sound.demote {s : GenerationSet} (h : s.Sound) {g : Nat} (hg : s.current = some g)
    (closed : Bool) :
    (({ s with current := none }.update g fun x => { x with closed := closed || x.closed }).addRetiring
      g).Sound := by
  obtain ⟨hinc, hapart, hatt, hlive, hflag, hadm, hcounts, hbound, htried, hrun⟩ := h
  refine ⟨increasing_add hinc (hapart g hg), ?_, ?_, ?_, ?_, ?_, ?_, ?_, ?_, ?_⟩ <;>
    simp only [GenerationSet.addRetiring, GenerationSet.update, made, mem_attached, mem_sortOn,
      List.mem_append, List.mem_singleton, unreleased] at *
  all_goals grind

theorem Sound.makeBinding {s : GenerationSet} (h : s.Sound) {g : Nat} (hg : s.made g) :
    (s.makeBinding g).Sound := by
  obtain ⟨hinc, hapart, hatt, hlive, hflag, hadm, hcounts, hbound, htried, hrun⟩ := h
  refine ⟨hinc, hapart, ?_, ?_, ?_, ?_, ?_, ?_, ?_, ?_⟩ <;>
    simp only [GenerationSet.makeBinding, GenerationSet.update, made, mem_attached, unreleased,
      List.mem_append, List.mem_singleton, List.countP_append, List.countP_singleton] at *
  all_goals grind

theorem Sound.requestRetry {s : GenerationSet} (h : s.Sound) : s.requestRetry.Sound := by
  obtain ⟨hinc, hapart, hatt, hlive, hflag, hadm, hcounts, hbound, htried, hrun⟩ := h
  refine ⟨hinc, hapart, ?_, ?_, ?_, ?_, ?_, ?_, ?_, ?_⟩ <;>
    simp only [GenerationSet.requestRetry, made, mem_attached, unreleased] at *
  all_goals grind

/-- A generation whose stop did not finish, and whether it is to be tried again. -/
def kept (failed retry : Bool) (g : Generation) : Generation :=
  { g with
    stopped := false
    closed := if failed then true else g.closed
    failed := if !retry && failed then true else g.failed
    deferred := if !retry && !failed then true else g.deferred }

theorem reattach_mem {s : GenerationSet} {g : Nat} (hg : g ∈ s.retiring) (failed retry : Bool) :
    s.reattach g failed retry = s.update g (kept failed retry) :=
  if_neg (not_not_intro hg)

theorem reattach_eq {s : GenerationSet} {g : Nat} (hg : g ∉ s.retiring) (failed retry : Bool) :
    s.reattach g failed retry = (s.update g (kept failed retry)).addRetiring g :=
  if_pos hg

/-- A generation whose stop did not finish is attached again. -/
theorem Sound.reattach {s : GenerationSet} (h : s.Sound) {g : Nat} {force : Bool} {requests : Nat}
    (hg : s.reconciler = .stopping g force requests) {failed retry : Bool}
    (hf : force = true → failed = true) (hr : retry = true → s.retryRequests ≠ requests)
    (next : Reconciler) (hn : next.idle = true ∨ next = .ready) :
    Sound { s.reattach g failed retry with reconciler := next } := by
  obtain ⟨hinc, hapart, hatt, hlive, hflag, hadm, hcounts, hbound, htried, hrun⟩ := h
  have hnot : g ∉ s.retiring := fun hm => (hrun g force requests hg).2.1 (mem_attached.mpr (.inl hm))
  have hnext : ∀ x f n, next ≠ .stopping x f n := by
    rintro x f n rfl
    rcases hn with hn | hn <;> cases hn
  rw [reattach_eq hnot]
  refine ⟨increasing_add hinc hnot, ?_, ?_, ?_, ?_, ?_, ?_, ?_, ?_, ?_⟩ <;>
    simp only [kept, GenerationSet.addRetiring, GenerationSet.update, made, mem_attached, mem_sortOn,
      List.mem_append, List.mem_singleton, unreleased] at *
  all_goals grind

/-- A new generation retires at once. -/
theorem Sound.createRetiring {s : GenerationSet} (h : s.Sound) (hp : 0 < s.nextSerial)
    {g : Generation} (hg : g.stopped = false ∧ g.bindings = 0) :
    ((s.create g).addRetiring s.nextSerial).Sound := by
  have hnot : s.nextSerial ∉ s.retiring := fun hm =>
    absurd (h.attached _ (mem_attached.mpr (.inl hm))).2 (Nat.lt_irrefl _)
  have hnone : s.unreleased s.nextSerial = 0 := by
    rw [unreleased, List.countP_eq_zero]
    intro b hb
    have := (h.bound b hb).2
    simp
    omega
  obtain ⟨hinc, hapart, hatt, hlive, hflag, hadm, hcounts, hbound, htried, hrun⟩ := h
  refine ⟨increasing_add hinc hnot, ?_, ?_, ?_, ?_, ?_, ?_, ?_, ?_, ?_⟩ <;>
    simp only [GenerationSet.create, GenerationSet.addRetiring, GenerationSet.update, made,
      mem_attached, mem_sortOn, List.mem_append, List.mem_singleton, unreleased] at *
  all_goals grind

theorem installCurrent_none {s : GenerationSet} (h : s.current = none) (g : Nat) :
    s.installCurrent g = kick { s with current := some g } := by
  simp [installCurrent, h]

theorem installCurrent_some {s : GenerationSet} {previous : Nat} (h : s.current = some previous)
    {g : Nat} (hne : previous ≠ g) :
    s.installCurrent g = kick ({ s with current := some g }.addRetiring previous) := by
  simp [installCurrent, h, hne]

@[simp] theorem kick_current (s : GenerationSet) : s.kick.current = s.current := by
  unfold GenerationSet.kick
  split <;> rfl

theorem installCurrent_current (s : GenerationSet) (g : Nat) :
    (s.installCurrent g).current = some g := by
  unfold installCurrent
  split
  · split <;> simp [GenerationSet.addRetiring, GenerationSet.update]
  · simp

/-- A new generation becomes the current one. -/
theorem Sound.createCurrent {s : GenerationSet} (h : s.Sound) (hp : 0 < s.nextSerial)
    (digest : Digest) : ((s.create (.new digest)).installCurrent s.nextSerial).Sound := by
  have hnot : s.nextSerial ∉ s.retiring := fun hm =>
    absurd (h.attached _ (mem_attached.mpr (.inl hm))).2 (Nat.lt_irrefl _)
  have hnone : s.unreleased s.nextSerial = 0 := by
    rw [unreleased, List.countP_eq_zero]
    intro b hb
    have := (h.bound b hb).2
    simp
    omega
  cases hc : s.current with
  | none =>
      rw [installCurrent_none (s := s.create (.new digest)) hc]
      apply Sound.kick
      obtain ⟨hinc, hapart, hatt, hlive, hflag, hadm, hcounts, hbound, htried, hrun⟩ := h
      refine ⟨hinc, ?_, ?_, ?_, ?_, ?_, ?_, ?_, ?_, ?_⟩ <;>
        simp only [GenerationSet.create, Generation.new, made, mem_attached, unreleased] at *
      all_goals grind
  | some previous =>
      have hmade := h.attached previous (mem_attached.mpr (.inr hc))
      have hne : previous ≠ s.nextSerial := Nat.ne_of_lt hmade.2
      rw [installCurrent_some (s := s.create (.new digest)) hc hne]
      apply Sound.kick
      obtain ⟨hinc, hapart, hatt, hlive, hflag, hadm, hcounts, hbound, htried, hrun⟩ := h
      refine ⟨increasing_add hinc (hapart previous hc), ?_, ?_, ?_, ?_, ?_, ?_, ?_, ?_, ?_⟩ <;>
        simp only [GenerationSet.create, Generation.new, GenerationSet.addRetiring,
          GenerationSet.update, made, mem_attached, mem_sortOn, List.mem_append,
          List.mem_singleton, unreleased] at *
      all_goals grind

/-- A retiring generation that was taken off its list, to serve again. -/
def reopened (s : GenerationSet) (serial : Nat) : GenerationSet :=
  { s with retiring := s.retiring.erase serial }.update serial fun g =>
    { g with retiring := false, deferred := false }

theorem Sound.promote {s : GenerationSet} (h : s.Sound) {g : Nat} (hg : g ∈ s.retiring)
    (hopen : (s.generations g).closed = false) : ((s.reopened g).installCurrent g).Sound := by
  have he := fun h => @mem_erase s.retiring g h ‹s.Sound›.increasing
  have hg' : g ∈ s.attached := mem_attached.mpr (.inl hg)
  cases hc : s.current with
  | none =>
      rw [installCurrent_none (s := s.reopened g) hc]
      apply Sound.kick
      obtain ⟨hinc, hapart, hatt, hlive, hflag, hadm, hcounts, hbound, htried, hrun⟩ := h
      refine ⟨increasing_erase g hinc, ?_, ?_, ?_, ?_, ?_, ?_, ?_, ?_, ?_⟩ <;>
        simp only [reopened, GenerationSet.update, made, mem_attached, unreleased] at *
      all_goals grind
  | some previous =>
      have hne : previous ≠ g := by
        rintro rfl
        exact h.apart previous hc hg
      rw [installCurrent_some (s := s.reopened g) hc hne]
      apply Sound.kick
      have hnot : previous ∉ s.retiring.erase g := by
        rw [he]
        exact fun hm => h.apart previous hc hm.2
      obtain ⟨hinc, hapart, hatt, hlive, hflag, hadm, hcounts, hbound, htried, hrun⟩ := h
      refine ⟨increasing_add (increasing_erase g hinc) hnot, ?_, ?_, ?_, ?_, ?_, ?_, ?_, ?_, ?_⟩ <;>
        simp only [reopened, GenerationSet.addRetiring, GenerationSet.update, made, mem_attached,
          mem_sortOn, List.mem_append, List.mem_singleton, unreleased] at *
      all_goals grind

theorem Sound.bindServing {s s' : GenerationSet} (h : s.Sound) {digest : Digest}
    (hs : s.bindServing digest = some s') : s'.Sound := by
  unfold GenerationSet.bindServing at hs
  split at hs
  · rename_i current hc
    cases hs
    have hcurrent : s.current = some current := (Option.filter_eq_some_iff.mp hc).1
    exact h.makeBinding (h.attached current (mem_attached.mpr (.inr hcurrent)))
  · split at hs
    · cases hs
    · rename_i g hg
      cases hs
      have hmem : g ∈ s.retiring := List.mem_reverse.mp (List.mem_of_find?_eq_some hg)
      have hopen : (s.generations g).closed = false := by
        have := List.find?_some hg
        simp only [Bool.and_eq_true, Bool.not_eq_true'] at this
        exact this.2
      have hmade := h.attached g (mem_attached.mpr (.inl hmem))
      have hsound := h.promote hmem hopen
      refine hsound.makeBinding ?_
      exact hsound.attached g (mem_attached.mpr (.inr (installCurrent_current _ g)))

theorem Sound.retire {s : GenerationSet} (h : s.Sound) {g : Nat} (hg : s.made g) :
    (s.retire g).Sound := by
  unfold GenerationSet.retire
  split
  · exact h
  · rename_i hstopped
    have hlive : g ∈ s.attached := (h.live g hg).mp (by simpa using hstopped)
    apply Sound.kick
    by_cases hc : s.current = some g
    · have hdemote := h.demote hc true
      simpa [GenerationSet.update, hc, h.apart g hc] using hdemote
    · have hmem : g ∈ s.retiring := (mem_attached.mp hlive).resolve_right hc
      have hupdate := h.update (g := g) (f := fun x => { x with closed := true }) rfl rfl rfl
        (fun hcurrent => absurd hcurrent hc) (fun _ hf => ⟨rfl, hf⟩)
      simpa [GenerationSet.update, hc, hmem] using hupdate

theorem Sound.stopAll {s : GenerationSet} (h : s.Sound) (force : Bool) :
    (s.stopAll force).Sound := by
  unfold GenerationSet.stopAll
  apply Sound.kick
  apply Sound.requestRetry
  cases hc : s.current with
  | none =>
      obtain ⟨hinc, hapart, hatt, hlive, hflag, hadm, hcounts, hbound, htried, hrun⟩ := h
      refine ⟨hinc, ?_, ?_, ?_, ?_, ?_, ?_, ?_, ?_, ?_⟩ <;>
        simp only [made, mem_attached, unreleased] at *
      all_goals grind
  | some current =>
      obtain ⟨hinc, hapart, hatt, hlive, hflag, hadm, hcounts, hbound, htried, hrun⟩ := h
      refine ⟨increasing_add hinc (hapart current hc), ?_, ?_, ?_, ?_, ?_, ?_, ?_, ?_, ?_⟩ <;>
        simp only [GenerationSet.addRetiring, GenerationSet.update, made, mem_attached, mem_sortOn,
          List.mem_append, List.mem_singleton, unreleased] at *
      all_goals grind

/-- The binding at this place, released. -/
def releasedAt (s : GenerationSet) (index : Nat) (binding : Binding) : GenerationSet :=
  { s with bindings := s.bindings.set index { binding with released := true } }.update
    binding.generation fun g => { g with bindings := g.bindings - 1 }

theorem unreleased_releasedAt {s : GenerationSet} {index : Nat} {binding : Binding}
    (hb : s.bindings[index]? = some binding) (hr : binding.released = false) (g : Nat) :
    (s.releasedAt index binding).unreleased g =
      if g = binding.generation then s.unreleased g - 1 else s.unreleased g := by
  obtain ⟨hlt, hget⟩ := List.getElem?_eq_some_iff.mp hb
  simp only [unreleased, releasedAt, GenerationSet.update]
  rw [List.countP_set hlt, hget]
  by_cases hg : g = binding.generation
  · simp [hg, hr]
  · have hg' : binding.generation ≠ g := fun h => hg h.symm
    simp [hg, hg']

theorem Sound.releasedAt {s : GenerationSet} (h : s.Sound) {index : Nat} {binding : Binding}
    (hb : s.bindings[index]? = some binding) (hr : binding.released = false) :
    (s.releasedAt index binding).Sound := by
  have hcount := unreleased_releasedAt hb hr
  have hbound' : ∀ b ∈ s.bindings.set index { binding with released := true },
      s.made b.generation := by
    intro b hm
    rcases List.mem_or_eq_of_mem_set hm with hm | rfl
    · exact h.bound b hm
    · exact h.bound binding (List.mem_of_getElem? hb)
  obtain ⟨hinc, hapart, hatt, hlive, hflag, hadm, hcounts, hbound, htried, hrun⟩ := h
  refine ⟨hinc, hapart, hatt, ?_, ?_, ?_, fun g => ?_, hbound', ?_, ?_⟩
  case refine_4 =>
    rw [hcount, ← hcounts]
    simp only [GenerationSet.releasedAt, GenerationSet.update]
    split <;> rfl
  all_goals
    simp only [GenerationSet.releasedAt, GenerationSet.update, made, mem_attached] at *
    grind

theorem Sound.release {s : GenerationSet} (h : s.Sound) (index : Nat) :
    (s.release index).Sound := by
  unfold GenerationSet.release
  split
  · exact h
  · rename_i binding hb
    split
    · exact h
    · rename_i hr
      have hreleased := h.releasedAt hb (by simpa using hr)
      have hupdate := hreleased.update (g := binding.generation)
        (f := fun x => { x with deferred := false }) rfl rfl rfl
        (fun hc => hreleased.admits _ hc) (fun hc hf => ⟨hc, hf⟩)
      dsimp only
      split
      · apply Sound.kick
        exact ⟨hupdate.increasing, hupdate.apart, hupdate.attached, hupdate.live, hupdate.flag,
          hupdate.admits, hupdate.counts, hupdate.bound, hupdate.tried, hupdate.running⟩
      · exact hreleased

/-- The generation that the reconciler stops next, and why. -/
theorem nextVictim_mem {s : GenerationSet} {g : Nat} {force : Bool}
    (h : s.nextVictim = some (g, force)) :
    g ∈ s.retiring ∧ g ∉ s.triedForced ∧
      (force = true → s.forceAll = true ∨ s.cap < s.attached.length) ∧
      (force = false → (s.generations g).bindings = 0) := by
  have hmem : g ∈ s.retiring.filter (· ∉ s.triedForced) →
      g ∈ s.retiring ∧ g ∉ s.triedForced := fun hm => by simpa using hm
  unfold nextVictim at h
  dsimp only at h
  split at h
  · rename_i hall
    obtain ⟨x, hx, hxg⟩ := Option.map_eq_some_iff.mp h
    cases hxg
    obtain ⟨hr, ht⟩ := hmem (List.mem_of_head? hx)
    exact ⟨hr, ht, fun _ => .inl hall.1, fun hf => (by cases hf)⟩
  · split at h
    · rename_i hcap
      obtain ⟨x, hx, hxg⟩ := Option.map_eq_some_iff.mp h
      cases hxg
      obtain ⟨hr, ht⟩ := hmem (List.mem_of_head? hx)
      exact ⟨hr, ht, fun _ => .inr hcap.2.1, fun hf => (by cases hf)⟩
    · obtain ⟨x, hx, hxg⟩ := Option.map_eq_some_iff.mp h
      cases hxg
      obtain ⟨hr, ht⟩ := hmem (List.mem_of_find?_eq_some hx)
      have hdrained := List.find?_some hx
      simp only [Bool.and_eq_true, decide_eq_true_eq] at hdrained
      exact ⟨hr, ht, fun hf => (by cases hf), fun _ => hdrained.1.1.2⟩

/-- Without a victim the set is within its cap, or every retiring generation was forced already. -/
theorem nextVictim_none {s : GenerationSet} (h : s.nextVictim = none) (hs : s.stopping = false) :
    s.attached.length ≤ s.cap ∨ ∀ g ∈ s.retiring, g ∈ s.triedForced := by
  by_cases hu : s.retiring.filter (· ∉ s.triedForced) = []
  · refine .inr fun g hg => ?_
    have := List.filter_eq_nil_iff.mp hu g hg
    simpa using this
  · refine .inl (Nat.not_lt.mp fun hcap => ?_)
    have hhead : ∃ x, (s.retiring.filter (· ∉ s.triedForced)).head? = some x :=
      ⟨_, List.head?_eq_some_head hu⟩
    obtain ⟨x, hx⟩ := hhead
    unfold nextVictim at h
    dsimp only at h
    split at h
    · rw [hx] at h
      cases h
    · rw [if_pos ⟨hs, hcap, hu⟩, hx] at h
      cases h

theorem Sound.advance {s : GenerationSet} (h : s.Sound) : s.advance.Sound := by
  unfold GenerationSet.advance
  split
  · exact ⟨h.increasing, h.apart, h.attached, h.live, h.flag, h.admits, h.counts, h.bound, h.tried,
      fun _ _ _ hr => by cases hr⟩
  · rename_i g force hv
    obtain ⟨hmem, htried, -, -⟩ := nextVictim_mem hv
    have hmade := h.attached g (mem_attached.mpr (.inl hmem))
    have hd := h.detach hmade
    have hgone : g ∉ (s.detach g).attached := by
      have he := @mem_erase s.retiring g g h.increasing
      simp [GenerationSet.detach, GenerationSet.update, he]
    cases force with
    | true =>
        refine ⟨hd.increasing, hd.apart, hd.attached, hd.live, hd.flag, hd.admits, hd.counts,
          hd.bound, ?_, ?_⟩
        · intro x hx
          rcases List.mem_cons.mp hx with rfl | hx
          · exact ⟨hmade, fun hm => absurd hm hgone⟩
          · exact hd.tried x hx
        · intro x f n hrun
          cases hrun
          exact ⟨hmade, hgone, fun _ => ⟨rfl, rfl⟩⟩
    | false =>
        refine ⟨hd.increasing, hd.apart, hd.attached, hd.live, hd.flag, hd.admits, hd.counts,
          hd.bound, hd.tried, ?_⟩
        intro x f n hrun
        cases hrun
        exact ⟨hmade, hgone, fun ht => absurd ht htried⟩

/-- The loop reads nothing of the task that runs it. -/
theorem advance_reconciler (s : GenerationSet) (r : Reconciler) :
    advance { s with reconciler := r } = s.advance := by
  have hv : nextVictim { s with reconciler := r } = s.nextVictim := rfl
  unfold GenerationSet.advance
  rw [hv]
  cases s.nextVictim with
  | none => rfl
  | some choice =>
      obtain ⟨g, force⟩ := choice
      cases force <;> rfl

theorem Sound.stopEnds {s : GenerationSet} (h : s.Sound) {g : Nat} {force : Bool} {requests : Nat}
    (hr : s.reconciler = .stopping g force requests) (how : StopEnd) :
    (s.stopEnds g force requests how).Sound := by
  have hagain : ∀ failed : Bool, (force = true → failed = true) →
      (s.reattach g failed (s.retryRequests ≠ requests)).advance.Sound := by
    intro failed hf
    have hsound := h.reattach hr hf (fun hne => of_decide_eq_true hne) .ready (.inr rfl)
    have hadvance := hsound.advance
    rwa [advance_reconciler] at hadvance
  cases how with
  | returned stopped =>
      cases stopped with
      | true => exact h.advance
      | false => exact hagain force fun hf => hf
  | raised => exact hagain true fun _ => rfl
  | cancelled =>
      exact h.reattach hr (fun _ => rfl) (fun hne => by cases hne) .cancelled (.inl rfl)

/-- A pass starts. -/
theorem Sound.untried {s : GenerationSet} (h : s.Sound) :
    Sound { s with triedForced := [], triedGraceful := [] } :=
  ⟨h.increasing, h.apart, h.attached, h.live, h.flag, h.admits, h.counts, h.bound,
    fun _ hg => (by cases hg), fun g force requests hr => ⟨(h.running g force requests hr).1,
      (h.running g force requests hr).2.1, fun hg => (by cases hg)⟩⟩

/-- Every step keeps the lists and the flags in agreement. -/
theorem Sound.step {s : GenerationSet} (h : s.Sound) (hp : 0 < s.nextSerial) (st : Step) :
    (s.step st).Sound := by
  cases st with
  | acquire digest =>
      simp only [GenerationSet.step]
      split
      · exact h
      · cases hs : s.bindServing digest with
        | none =>
            exact ⟨h.increasing, h.apart, h.attached, h.live, h.flag, h.admits, h.counts, h.bound,
              h.tried, h.running⟩
        | some s' => exact h.bindServing hs
  | locked index =>
      simp only [GenerationSet.step]
      split
      · rename_i digest _ _
        have h' : Sound { s with waiting := s.waiting.eraseIdx index } :=
          ⟨h.increasing, h.apart, h.attached, h.live, h.flag, h.admits, h.counts, h.bound, h.tried,
            h.running⟩
        split
        · exact h'
        · cases hs : GenerationSet.bindServing { s with waiting := s.waiting.eraseIdx index } digest with
          | none =>
              exact ⟨h.increasing, h.apart, h.attached, h.live, h.flag, h.admits, h.counts, h.bound,
                h.tried, h.running⟩
          | some s' => exact h'.bindServing hs
      · exact h
  | abandoned index =>
      exact ⟨h.increasing, h.apart, h.attached, h.live, h.flag, h.admits, h.counts, h.bound, h.tried,
        h.running⟩
  | started =>
      simp only [GenerationSet.step]
      split
      · rename_i digest _
        have h' : Sound { s with starting := none } :=
          ⟨h.increasing, h.apart, h.attached, h.live, h.flag, h.admits, h.counts, h.bound, h.tried,
            h.running⟩
        unfold GenerationSet.started
        dsimp only
        split
        · exact (h'.createRetiring hp ⟨rfl, rfl⟩).kick
        · have hsound := h'.createCurrent hp digest
          refine hsound.makeBinding (hsound.attached _ (mem_attached.mpr (.inr ?_)))
          exact installCurrent_current _ _
      · exact h
  | startFailed =>
      exact ⟨h.increasing, h.apart, h.attached, h.live, h.flag, h.admits, h.counts, h.bound, h.tried,
        h.running⟩
  | bind g =>
      simp only [GenerationSet.step]
      split
      · exact h
      · rename_i hno
        exact h.makeBinding (Decidable.not_not.mp fun hm => hno (.inr (.inl hm)))
  | release index => exact h.release index
  | adopt digest current =>
      simp only [GenerationSet.step]
      split
      · exact h
      · unfold GenerationSet.adopt
        dsimp only
        split
        · exact h.createCurrent hp digest
        · exact (h.createRetiring hp ⟨rfl, rfl⟩).kick
  | retire g =>
      simp only [GenerationSet.step]
      split
      · rename_i hg
        exact h.retire hg
      · exact h
  | retireCurrent =>
      simp only [GenerationSet.step]
      split
      · rename_i current hc
        exact h.retire (h.attached current (mem_attached.mpr (.inr hc)))
      · exact h
  | discard g =>
      simp only [GenerationSet.step]
      split
      · rename_i hg
        exact h.detach hg
      · exact h
  | reap => exact h.requestRetry.kick
  | stopAll force => exact h.stopAll force
  | reconcile =>
      simp only [GenerationSet.step]
      split
      · exact h.untried.advance
      · exact h
  | stopEnds how =>
      simp only [GenerationSet.step]
      split
      · rename_i g force requests hr
        exact h.stopEnds hr how
      · exact h
  | cancelled =>
      simp only [GenerationSet.step]
      split
      · exact ⟨h.increasing, h.apart, h.attached, h.live, h.flag, h.admits, h.counts, h.bound,
          h.tried, fun _ _ _ hr => (by cases hr)⟩
      · exact h

end GenerationSet

end Avibe.Runtime
