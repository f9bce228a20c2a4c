import Avibe.Transcript.Fork
import Avibe.Transcript.ForkPoint

/-!
# Stability of the inherited prefix

`Valid` holds in every reachable store. From it follow the list a Session loads
and, for a chain of links in range, that later transactions leave what it
inherits alone and only extend its own rows.
-/

namespace Avibe.Transcript

open Checked SortOn

variable {α : Type}

theorem valid_empty : Valid (Store.empty : Store α) := by
  refine ⟨trivial, by simp [Store.empty], by simp [Store.empty], ?_, ?_⟩
  · intro m
    simp [ownRows, contextRows, Store.empty]
  · intro m source anchor h
    simp [forkLink, Store.session?, Store.empty] at h

theorem ownRows_of_unknown {st : Store α} (hv : Valid st) {m : String}
    (hm : m ∉ st.sessions.map Session.id) : ownRows st m = [] := by
  refine List.eq_nil_iff_forall_not_mem.mpr fun e he => ?_
  simp only [ownRows, contextRows, List.mem_append, List.mem_filterMap] at he
  have hentry : ∀ r ∈ st.messages ++ st.events, r.toEntry m none ≠ some e := by
    intro r hr hre
    have hne : r.sessionId ≠ m := fun h => hm (h ▸ hv.owned r hr)
    simp [toEntry_other hne] at hre
  rcases he with ⟨r, hr, hre⟩ | ⟨r, hr, hre⟩
  · exact hentry r (List.mem_append_left _ hr) hre
  · exact hentry r (List.mem_append_right _ hr) hre

/-- The next number is above the anchor, too. -/
theorem anchor_lt_next {st : Store α} (hv : Valid st) {m source : String} {anchor n : Nat}
    (hl : forkLink st m = .ok (some (source, anchor))) (h : nextContextSeq st m = .ok n) :
    anchor < n := by
  rcases (nextContextSeq_cases h).2 with ⟨e, he, rfl⟩ | ⟨-, link, hl', rfl⟩
  · have := hv.above m source anchor hl e he
    omega
  · rw [hl] at hl'
    obtain rfl : some (source, anchor) = link := by simpa using hl'
    simp [anchorOf]

theorem Gains.mem {st st' : Store α} {m : String} {e : Entry α} (h : Gains st st' m e)
    {m' : String} {e' : Entry α} (he : e' ∈ ownRows st' m') :
    e' ∈ ownRows st m' ∨ m' = m ∧ e' = e := by
  by_cases hm : m' = m
  · subst hm
    obtain ⟨l, l', hold, hnew⟩ := h.own
    rw [hnew] at he
    rw [hold]
    simp only [List.mem_append, List.mem_cons] at he ⊢
    rcases he with he | rfl | he
    · exact .inl (.inl he)
    · exact .inr ⟨trivial, rfl⟩
    · exact .inl (.inr he)
  · rw [h.others m' hm] at he
    exact .inl he

theorem Gains.perm {st st' : Store α} {m : String} {e : Entry α} (h : Gains st st' m e) :
    (ownRows st' m).Perm (e :: ownRows st m) := by
  obtain ⟨l, l', hold, hnew⟩ := h.own
  rw [hold, hnew]
  exact List.perm_middle

/-- A row above the bound does not show up to it. -/
theorem Gains.contextRows {st st' : Store α} {m : String} {e : Entry α}
    (h : Gains st st' m e) {m' : String} {bound : Nat} (hb : m' = m → bound < e.contextSeq) :
    contextRows st' m' (some bound) = contextRows st m' (some bound) := by
  rw [contextRows_eq_filter, contextRows_eq_filter]
  by_cases hm : m' = m
  · subst hm
    obtain ⟨l, l', hold, hnew⟩ := h.own
    have hout : within (some bound) e.contextSeq = false := by
      have := hb rfl
      simp [within]
      omega
    rw [hold, hnew, List.filter_append, List.filter_append, List.filter_cons, hout]
    simp
  · rw [h.others m' hm]

/-- The next number is above everything the Session loads. -/
theorem contextEntries_lt_next {st : Store α} (hv : Valid st) {m : String}
    (hm : m ∈ st.sessions.map Session.id) {entries : List (Entry α)}
    (hload : contextEntries st m = .ok entries) {n : Nat}
    (hn : nextContextSeq st m = .ok n) : ∀ e ∈ entries, e.contextSeq < n := by
  obtain ⟨chain, ha, hc⟩ := ancestry_eq hv.rooted hm
  rw [(contextEntries_eq hv ha hc).1] at hload
  obtain rfl := Except.ok.inj hload
  intro e he
  rcases List.mem_append.mp he with he | he
  · have he := mem_sortOn.mp he
    cases hc with
    | root _ => simp at he
    | link hl rest =>
        have := (Chain.link hl rest).le_anchor hl e he
        have := anchor_lt_next hv hl hn
        omega
  · exact (nextContextSeq_cases hn).1 e (mem_sortOn.mp he)

section Steps

variable [DecidableEq α]

theorem step_valid {st st' : Store α} {op : Op α} (hv : Valid st) (h : step st op = .ok st') :
    Valid st' := by
  rcases step_cases hv.ids hv.owned h with
    ⟨s, link, -, hid, hl, hsrc, rfl⟩ | ⟨hk, hsame | ⟨m, n, e, -, hm, hn, hseq, hg⟩⟩
  · refine ⟨⟨hv.rooted, hid, link, hl, hsrc⟩, hv.ids, ?_, hv.distinct, ?_⟩
    · intro r hr
      exact List.mem_cons_of_mem _ (hv.owned r hr)
    · intro m source anchor hlink e he
      by_cases hm : m = s.id
      · subst hm
        change e ∈ ownRows st s.id at he
        rw [ownRows_of_unknown hv hid] at he
        simp at he
      · rw [forkLink_create hm] at hlink
        exact hv.above m source anchor hlink e he
  · refine ⟨hk.sessions ▸ hv.rooted, hk.ids hv.ids, ?_, ?_, ?_⟩
    · rw [hk.sessions]
      exact hk.owned hv.owned
    · intro m
      rw [hsame]
      exact hv.distinct m
    · intro m source anchor hl e he
      rw [hsame] at he
      rw [forkLink_congr hk.sessions] at hl
      exact hv.above m source anchor hl e he
  · obtain ⟨hlt, -⟩ := nextContextSeq_cases hn
    refine ⟨hk.sessions ▸ hv.rooted, hk.ids hv.ids, ?_, ?_, ?_⟩
    · rw [hk.sessions]
      exact hk.owned hv.owned
    · intro m'
      by_cases hm' : m' = m
      · subst hm'
        refine (hg.perm.map Entry.contextSeq).nodup_iff.mpr ?_
        rw [List.map_cons, List.nodup_cons]
        refine ⟨?_, hv.distinct m'⟩
        rw [hseq]
        rintro hmem
        obtain ⟨e', he', heq⟩ := List.mem_map.mp hmem
        have := hlt e' he'
        omega
      · rw [hg.others m' hm']
        exact hv.distinct m'
    · intro m' source anchor hl e' he'
      rw [forkLink_congr hk.sessions] at hl
      rcases hg.mem he' with he' | ⟨rfl, rfl⟩
      · exact hv.above m' source anchor hl e' he'
      · rw [hseq]
        exact anchor_lt_next hv hl hn

theorem commit_valid {st : Store α} (hv : Valid st) (op : Op α) : Valid (commit st op) := by
  unfold commit
  split
  · rename_i st' h
    exact step_valid hv h
  · exact hv

theorem run_valid {st : Store α} (hv : Valid st) (ops : List (Op α)) : Valid (run st ops) := by
  induction ops generalizing st with
  | nil => exact hv
  | cons op ops ih => exact ih (commit_valid hv op)

end Steps

/-! ## Links in range -/

/-- Every link of the Session's chain names an anchor below the next number of
its source. -/
inductive InRange (st : Store α) : String → Prop
  | root {m : String} (h : forkLink st m = .ok none) : InRange st m
  | link {m source : String} {anchor n : Nat}
      (h : forkLink st m = .ok (some (source, anchor)))
      (hn : nextContextSeq st source = .ok n) (ha : anchor < n) (rest : InRange st source) :
      InRange st m

/-- The own rows of a Session after a transaction, or several: the old ones,
then later ones. -/
def Extends (st st' : Store α) (m : String) (more : List (Entry α)) : Prop :=
  sortOn Entry.contextSeq (ownRows st' m) = sortOn Entry.contextSeq (ownRows st m) ++ more

theorem Gains.extends {st st' : Store α} {m : String} {e : Entry α} (hv : Valid st)
    (h : Gains st st' m e) (hn : nextContextSeq st m = .ok e.contextSeq) :
    Extends st st' m [e] := by
  refine Increasing.sortOn_eq (List.pairwise_append.mpr
    ⟨sortOn_increasing (hv.distinct m), by simp, ?_⟩) ?_
  · intro a ha b hb
    rw [List.mem_singleton.mp hb]
    exact (nextContextSeq_cases hn).1 a (mem_sortOn.mp ha)
  · refine List.perm_append_comm.trans ?_
    exact ((sortOn_perm _ _).cons e).trans h.perm.symm

theorem nextContextSeq_congr {st st' : Store α} {m : String}
    (hs : forkLink st' m = forkLink st m) (ho : ownRows st' m = ownRows st m) {n n' : Nat}
    (h : nextContextSeq st m = .ok n) (h' : nextContextSeq st' m = .ok n') : n ≤ n' := by
  obtain ⟨hlt', -⟩ := nextContextSeq_cases h'
  rcases (nextContextSeq_cases h).2 with ⟨e, he, rfl⟩ | ⟨hnil, link, hl, rfl⟩
  · rw [ho] at hlt'
    have := hlt' e he
    omega
  · rcases (nextContextSeq_cases h').2 with ⟨e, he, -⟩ | ⟨-, link', hl', rfl⟩
    · rw [ho, hnil] at he
      simp at he
    · rw [hs, hl] at hl'
      obtain rfl : link = link' := by simpa using hl'
      exact Nat.le_refl _

theorem source_mem {st : Store α} (hv : Valid st) {m source : String} {anchor : Nat}
    (hm : m ∈ st.sessions.map Session.id)
    (hl : forkLink st m = .ok (some (source, anchor))) :
    source ∈ st.sessions.map Session.id := by
  obtain ⟨link, hl', hin⟩ := forkLink_ok hv.rooted hm
  rw [hl] at hl'
  obtain rfl : some (source, anchor) = link := by simpa using hl'
  exact hin _ rfl

section Steps

variable [DecidableEq α]

/-- A transaction keeps the links of the Sessions that exist, and their next
numbers do not decrease. -/
theorem step_keeps {st st' : Store α} {op : Op α} (hv : Valid st) (h : step st op = .ok st')
    {m : String} (hm : m ∈ st.sessions.map Session.id) :
    m ∈ st'.sessions.map Session.id ∧ forkLink st' m = forkLink st m ∧
      ∀ n, nextContextSeq st m = .ok n → ∃ n', nextContextSeq st' m = .ok n' ∧ n ≤ n' := by
  have hv' := step_valid hv h
  rcases step_cases hv.ids hv.owned h with
    ⟨s, link, -, hid, hl, hsrc, rfl⟩ | ⟨hk, hcase⟩
  · have hne : m ≠ s.id := fun he => hid (he ▸ hm)
    have hlink : forkLink { st with sessions := s :: st.sessions } m = forkLink st m :=
      forkLink_create hne
    refine ⟨List.mem_cons_of_mem _ hm, hlink, fun n hn => ?_⟩
    obtain ⟨link', hl', -⟩ := forkLink_ok hv.rooted hm
    obtain ⟨n', hn'⟩ := nextContextSeq_ok (hlink.trans hl')
    exact ⟨n', hn', nextContextSeq_congr hlink rfl hn hn'⟩
  · have hlink := forkLink_congr hk.sessions m
    refine ⟨hk.sessions ▸ hm, hlink, fun n hn => ?_⟩
    obtain ⟨link', hl', -⟩ := forkLink_ok hv.rooted hm
    obtain ⟨n', hn'⟩ := nextContextSeq_ok (hlink.trans hl')
    refine ⟨n', hn', ?_⟩
    rcases hcase with hsame | ⟨m', k, e, -, -, hk', hseq, hg⟩
    · exact nextContextSeq_congr hlink (hsame m) hn hn'
    · by_cases he : m = m'
      · subst he
        rw [hn] at hk'
        obtain rfl : n = k := by simpa using hk'
        have hin : e ∈ ownRows st' m := hg.perm.mem_iff.mpr (by simp)
        have := (nextContextSeq_cases hn').1 e hin
        omega
      · exact nextContextSeq_congr hlink (hg.others m he) hn hn'

theorem step_inRange {st st' : Store α} {op : Op α} (hv : Valid st) (h : step st op = .ok st')
    {m : String} (hm : m ∈ st.sessions.map Session.id) (hr : InRange st m) :
    InRange st' m := by
  induction hr with
  | root hl => exact .root ((step_keeps hv h hm).2.1.trans hl)
  | link hl hn ha _ ih =>
      have hsrc := source_mem hv hm hl
      obtain ⟨n', hn', hle⟩ := (step_keeps hv h hsrc).2.2 _ hn
      exact .link ((step_keeps hv h hm).2.1.trans hl) hn' (by omega) (ih hsrc)

/-- A transaction leaves the chain of a Session in range alone, and the rows
along it. -/
theorem step_chain {st st' : Store α} {op : Op α} (hv : Valid st) (h : step st op = .ok st')
    {m : String} {bound : Option Nat} {chain : List (String × Option Nat)}
    (hm : m ∈ st.sessions.map Session.id) (hc : Chain st m bound chain) (hr : InRange st m) :
    Chain st' m bound chain ∧ chainRows st' chain = chainRows st chain := by
  induction hc with
  | root hl => exact ⟨.root ((step_keeps hv h hm).2.1.trans hl), rfl⟩
  | @link m source bound anchor chain hl rest ih =>
      have hsrc := source_mem hv hm hl
      cases hr with
      | root hl' => simp [hl] at hl'
      | @link _ source' anchor' n hl' hn ha hr' =>
          rw [hl] at hl'
          simp only [Except.ok.injEq, Option.some.injEq, Prod.mk.injEq] at hl'
          obtain ⟨rfl, rfl⟩ := hl'
          obtain ⟨hchain, hrows⟩ := ih hsrc hr'
          refine ⟨.link ((step_keeps hv h hm).2.1.trans hl) hchain, ?_⟩
          have htight := tighten_le bound anchor
          have hfirst : contextRows st' source (some (tighten bound anchor)) =
              contextRows st source (some (tighten bound anchor)) := by
            rcases step_cases hv.ids hv.owned h with
              ⟨s, link, -, -, -, -, rfl⟩ | ⟨hk, hsame | ⟨m', k, e, -, -, hk', hseq, hg⟩⟩
            · rfl
            · rw [contextRows_eq_filter, contextRows_eq_filter, hsame]
            · refine hg.contextRows fun hs => ?_
              rw [← hs, hn] at hk'
              obtain rfl : n = k := by simpa using hk'
              omega
          simp only [chainRows, List.flatMap_cons] at hrows ⊢
          rw [hfirst, hrows]

/-- A transaction extends the own rows of the Session it appends to. -/
theorem step_extends {st st' : Store α} {op : Op α} (hv : Valid st)
    (h : step st op = .ok st') (m : String) :
    ∃ more, Extends st st' m more ∧ (op.appendsTo ≠ some m → more = []) := by
  rcases step_cases hv.ids hv.owned h with
    ⟨s, link, -, -, -, -, rfl⟩ | ⟨-, hsame | ⟨m', n, e, hop, -, hn, hseq, hg⟩⟩
  · exact ⟨[], by simp [Extends, ownRows, contextRows], fun _ => rfl⟩
  · exact ⟨[], by simp [Extends, hsame], fun _ => rfl⟩
  · by_cases hm : m = m'
    · subst hm
      exact ⟨[e], hg.extends hv (hseq ▸ hn), fun hne => absurd hop hne⟩
    · exact ⟨[], by simp [Extends, hg.others m hm], fun _ => rfl⟩

/-- What a run keeps of a Session in range: its chain, the rows along it, and
its own rows at the front of its later ones. -/
theorem run_keeps {st : Store α} (hv : Valid st) (ops : List (Op α)) {m : String}
    (hm : m ∈ st.sessions.map Session.id) {chain : List (String × Option Nat)}
    (hc : Chain st m none chain) (hr : InRange st m) :
    m ∈ (run st ops).sessions.map Session.id ∧ Chain (run st ops) m none chain ∧
      chainRows (run st ops) chain = chainRows st chain ∧
      ∃ more, Extends st (run st ops) m more ∧
        ((∀ op ∈ ops, op.appendsTo ≠ some m) → more = []) := by
  induction ops generalizing st with
  | nil => exact ⟨hm, hc, rfl, [], by simp [Extends, run], fun _ => rfl⟩
  | cons op ops ih =>
      have hrun : run st (op :: ops) = run (commit st op) ops := rfl
      cases hs : step st op with
      | error err =>
          have hcommit : commit st op = st := by simp [commit, hs]
          rw [hrun, hcommit]
          obtain ⟨h₁, h₂, h₃, more, h₄, h₅⟩ := ih hv hm hc hr
          exact ⟨h₁, h₂, h₃, more, h₄, fun h => h₅ fun o ho => h o (by simp [ho])⟩
      | ok st' =>
          have hcommit : commit st op = st' := by simp [commit, hs]
          rw [hrun, hcommit]
          obtain ⟨hc', hrows⟩ := step_chain hv hs hm hc hr
          obtain ⟨more₁, hext₁, hnil₁⟩ := step_extends hv hs m
          obtain ⟨h₁, h₂, h₃, more₂, hext₂, hnil₂⟩ := ih (step_valid hv hs)
            (step_keeps hv hs hm).1 hc' (step_inRange hv hs hm hr)
          refine ⟨h₁, h₂, h₃.trans hrows, more₁ ++ more₂, ?_, fun h => ?_⟩
          · rw [Extends] at hext₁ hext₂ ⊢
            rw [hext₂, hext₁, List.append_assoc]
          · rw [hnil₁ (h op (by simp)), hnil₂ fun o ho => h o (by simp [ho])]
            rfl

/-- A fork at a resolved point of a source in range is in range. -/
theorem resolveForkPoint_inRange {st st' : Store α} (hv : Valid st) {child : Session}
    {source : String} {point : Nat} {entries : List (Entry α)} (hr : InRange st source)
    (hload : contextEntries st source = .ok entries)
    (settled : List (Entry α) → Bool) {asOf : Option Int} {unended : Option Nat}
    (hp : resolveForkPoint settled entries asOf unended = .ok point)
    (hl : child.forkLink = .ok (some (source, point)))
    (h : step st (.createSession child) = .ok st') : InRange st' child.id := by
  have hsrc : source ∈ st.sessions.map Session.id := by
    obtain ⟨-, h⟩ := require_bind_ok h
    obtain ⟨link, hl', h⟩ := bind_ok h
    obtain ⟨hin, -⟩ := require_bind_ok h
    rw [hl] at hl'
    obtain rfl : some (source, point) = link := by simpa using hl'
    exact hin _ rfl
  obtain ⟨link, hlink, -⟩ := forkLink_ok hv.rooted hsrc
  obtain ⟨n, hn⟩ := nextContextSeq_ok hlink
  have hpos : 0 < n := by
    rcases (nextContextSeq_cases hn).2 with ⟨e, -, rfl⟩ | ⟨-, link, -, rfl⟩ <;> omega
  have htop := topSeq_lt hpos (contextEntries_lt_next hv hsrc hload hn)
  have hle := resolveForkPoint_le settled hp
  obtain ⟨n', hn', hnn⟩ := (step_keeps hv h hsrc).2.2 n hn
  have hchild : forkLink st' child.id = .ok (some (source, point)) := by
    obtain ⟨-, h⟩ := require_bind_ok h
    obtain ⟨_, _, h⟩ := bind_ok h
    obtain ⟨-, h⟩ := require_bind_ok h
    obtain rfl := pure_ok h
    simpa [forkLink, Store.session?] using hl
  exact .link hchild hn' (by omega) (step_inRange hv h hsrc hr)

/-- In every reachable store a Session loads the rows of its ancestors up to
the smallest anchor on the way, then its own rows, by strictly increasing
sequence number and below its next one. When its links are in range, no later
transaction changes what it inherits, and only an append to the Session itself
extends the list; a fork of it at a resolved point is in range, too. -/
theorem contextEntries_stable (ops : List (Op α)) (m : String)
    (hm : m ∈ (run Store.empty ops).sessions.map Session.id) :
    ∃ inherited own : List (Entry α),
      contextEntries (run Store.empty ops) m = .ok (inherited ++ own) ∧
      (∀ e, e ∈ inherited ↔ ∃ a anchors, Ancestor (run Store.empty ops) m a anchors ∧
        e ∈ contextRows (run Store.empty ops) a none ∧
        ∀ anchor ∈ anchors, e.contextSeq ≤ anchor) ∧
      (∀ e, e ∈ own ↔ e ∈ contextRows (run Store.empty ops) m none) ∧
      (inherited ++ own).Pairwise (fun e e' => e.contextSeq < e'.contextSeq) ∧
      (∃ n, nextContextSeq (run Store.empty ops) m = .ok n ∧
        ∀ e ∈ inherited ++ own, e.contextSeq < n) ∧
      (InRange (run Store.empty ops) m → ∀ later : List (Op α), ∃ more,
        contextEntries (run Store.empty (ops ++ later)) m =
          .ok (inherited ++ (own ++ more)) ∧
        ((∀ op ∈ later, op.appendsTo ≠ some m) → more = [])) ∧
      ∀ settled asOf unended point child st', InRange (run Store.empty ops) m →
        resolveForkPoint settled (inherited ++ own) asOf unended = .ok point →
        child.forkLink = .ok (some (m, point)) →
        step (run Store.empty ops) (.createSession child) = .ok st' →
        InRange st' child.id := by
  have hv := run_valid (valid_empty (α := α)) ops
  generalize hst : run Store.empty ops = st at hm hv
  obtain ⟨chain, ha, hc⟩ := ancestry_eq hv.rooted hm
  obtain ⟨hload, hinc⟩ := contextEntries_eq hv ha hc
  obtain ⟨link, hl, -⟩ := forkLink_ok hv.rooted hm
  obtain ⟨n, hn⟩ := nextContextSeq_ok hl
  refine ⟨_, _, hload, ?_, fun e => mem_sortOn, hinc, ⟨n, hn, ?_⟩, ?_,
    fun settled asOf unended point child st' hr hp hl h =>
      resolveForkPoint_inRange hv hr hload settled hp hl h⟩
  · intro e
    rw [mem_sortOn, hc.mem_iff]
    simp [within, ownRows]
  · exact contextEntries_lt_next hv hm hload hn
  · intro hr later
    have hrun : run Store.empty (ops ++ later) = run st later := by
      rw [← hst]
      simp [run, List.foldl_append]
    obtain ⟨hm', hc', hrows, more, hext, hnil⟩ := run_keeps hv later hm hc hr
    obtain ⟨chain', ha', hc''⟩ := ancestry_eq (run_valid hv later).rooted hm'
    obtain rfl := hc''.unique hc'
    refine ⟨more, ?_, hnil⟩
    rw [hrun, (contextEntries_eq (run_valid hv later) ha' hc').1, hrows, hext]

end Steps

/-! ## Anchors past the end -/

/-- A Session with an input and its answer, its fork at `anchor`, and a row of the fork. -/
def forkAt (anchor : Nat) : List (Op Nat) :=
  [.createSession ⟨"source", none, some "scope"⟩,
    .addMessage "m1" "source" true 0,
    .consumeInput "source" "m1" 0,
    .appendResponse "source" "r1" none 1,
    .createSession ⟨"child", some ⟨"source", .int anchor⟩, some "scope"⟩,
    .appendResponse "child" "c1" none 2]

def grandchild : Session := ⟨"grandchild", some ⟨"child", .int 3⟩, some "scope"⟩

/-- The child keeps what it loads, and so does a fork of it at a resolved point. -/
theorem contextEntries_stable_fork :
    ∃ entries, contextEntries (run Store.empty (forkAt 2)) "child" = .ok entries ∧
      entries.map Entry.rowId = ["m1", "r1", "c1"] ∧
      (∀ later : List (Op Nat), (∀ op ∈ later, op.appendsTo ≠ some "child") →
        contextEntries (run Store.empty (forkAt 2 ++ later)) "child" = .ok entries) ∧
      resolveForkPoint (fun _ => true) entries none none = .ok 3 ∧
      InRange (run Store.empty (forkAt 2 ++ [.createSession grandchild])) "grandchild" := by
  obtain ⟨inherited, own, hload, -, -, -, -, hstable, hfork⟩ :=
    contextEntries_stable (forkAt 2) "child" (by decide)
  have hrange : InRange (run Store.empty (forkAt 2)) "child" :=
    @InRange.link Nat _ "child" "source" 2 3 (by decide) (by decide) (by decide)
      (.root (by decide))
  have hentries : inherited ++ own =
      [⟨"source", 1, "m1", 0⟩, ⟨"source", 2, "r1", 1⟩, ⟨"child", 3, "c1", 2⟩] :=
    Except.ok.inj (hload.symm.trans (by decide))
  have hpoint : resolveForkPoint (fun _ => true) (inherited ++ own) none none = .ok 3 := by
    rw [hentries]
    decide
  refine ⟨inherited ++ own, hload, ?_, fun later h => ?_, hpoint,
    hfork _ none none 3 grandchild _ hrange hpoint (by decide) rfl⟩
  · rw [hentries]
    rfl
  · obtain ⟨more, hlater, hnil⟩ := hstable hrange later
    rw [hlater, hnil h, List.append_nil]

/-- A fork anchored past the end of its source loads a later row of it. -/
theorem contextEntries_past_end :
    ¬ ∀ (ops later : List (Op Nat)) (m : String),
      (∀ op ∈ later, op.appendsTo ≠ some m) →
        contextEntries (run Store.empty (ops ++ later)) m =
          contextEntries (run Store.empty ops) m := by
  intro h
  have hlater := h (forkAt 3) [.appendResponse "source" "r2" none 3] "child" (by decide)
  revert hlater
  decide

end Avibe.Transcript
