import Avibe.Transcript.Rows

/-!
# Fork ancestry

The fork links of a reachable store form a tree: a Session names a source that
was there before it. `Chain` follows the links of a Session and keeps the
smallest anchor met so far, as `ancestors` does. The own rows of a Session lie
above its anchor, and the rows it inherits do not, so the rows along a chain
have distinct numbers and the sorted list splits into what is inherited and
what is its own.

A later append to an ancestor receives the ancestor's next number. It stays out
of the prefix when the anchor was below that number, which is what `InRange`
asks of every link of the chain.
-/

namespace Avibe.Transcript

open Checked SortOn

variable {α : Type}

/-- Every Session names an earlier Session as its source, or none. -/
def Rooted : List Session → Prop
  | [] => True
  | s :: rest => Rooted rest ∧ s.id ∉ rest.map Session.id ∧
      ∃ link, s.forkLink = .ok link ∧ ∀ p ∈ link, p.1 ∈ rest.map Session.id

/-- What every transaction keeps true of the store. -/
structure Valid (st : Store α) : Prop where
  rooted : Rooted st.sessions
  ids : (st.messages.map Row.id).Nodup
  owned : ∀ r ∈ st.messages ++ st.events, r.sessionId ∈ st.sessions.map Session.id
  distinct : ∀ m, ((ownRows st m).map Entry.contextSeq).Nodup
  above : ∀ m source anchor, forkLink st m = .ok (some (source, anchor)) →
    ∀ e ∈ ownRows st m, anchor < e.contextSeq

/-! ## Links -/

theorem Rooted.of_append {a b : List Session} (h : Rooted (a ++ b)) : Rooted b := by
  induction a with
  | nil => exact h
  | cons s a ih => exact ih h.1

theorem Rooted.not_mem {a b : List Session} (h : Rooted (a ++ b)) :
    ∀ s ∈ a, s.id ∉ b.map Session.id := by
  induction a with
  | nil => simp
  | cons s a ih =>
      intro s' hs'
      rcases List.mem_cons.mp hs' with rfl | hs'
      · intro hb
        obtain ⟨x, hx, hid⟩ := List.mem_map.mp hb
        exact h.2.1 (List.mem_map.mpr ⟨x, List.mem_append_right _ hx, hid⟩)
      · exact ih h.1 s' hs'

/-- The link of a Session row. -/
theorem forkLink_of_split {st : Store α} (h : Rooted st.sessions) {a b : List Session}
    {s : Session} (hs : st.sessions = a ++ s :: b) : forkLink st s.id = s.forkLink := by
  rw [hs] at h
  have hnone : a.find? (·.id = s.id) = none := by
    rw [List.find?_eq_none]
    intro s' hs' he
    exact Rooted.not_mem h s' hs' (by simp [of_decide_eq_true he])
  simp [forkLink, Store.session?, hs, List.find?_append, hnone]

theorem forkLink_create {st : Store α} {s : Session} {m : String} (hm : m ≠ s.id) :
    forkLink { st with sessions := s :: st.sessions } m = forkLink st m := by
  simp [forkLink, Store.session?, Ne.symm hm]

theorem forkLink_congr {st st' : Store α} (h : st'.sessions = st.sessions) (m : String) :
    forkLink st' m = forkLink st m := by
  simp [forkLink, Store.session?, h]

theorem forkLink_ok {st : Store α} (h : Rooted st.sessions) {m : String}
    (hm : m ∈ st.sessions.map Session.id) :
    ∃ link, forkLink st m = .ok link ∧ ∀ p ∈ link, p.1 ∈ st.sessions.map Session.id := by
  obtain ⟨s, hs, rfl⟩ := List.mem_map.mp hm
  obtain ⟨a, b, hsplit⟩ := List.append_of_mem hs
  have hr := h
  rw [hsplit] at hr
  obtain ⟨-, -, link, hl, hin⟩ := hr.of_append
  refine ⟨link, (forkLink_of_split h hsplit).trans hl, fun p hp => ?_⟩
  rw [hsplit]
  simp only [List.map_append, List.map_cons, List.mem_append, List.mem_cons]
  exact .inr (.inr (hin p hp))

/-! ## Chains -/

theorem tighten_le (bound : Option Nat) (anchor : Nat) : tighten bound anchor ≤ anchor := by
  cases bound <;> simp [tighten]

theorem within_tighten (bound : Option Nat) (anchor n : Nat) :
    n ≤ tighten bound anchor ↔ within bound n = true ∧ n ≤ anchor := by
  cases bound <;> simp [tighten, within]

/-- The fork sources of a Session with their bounds. -/
inductive Chain (st : Store α) : String → Option Nat → List (String × Option Nat) → Prop
  | root {m : String} {bound : Option Nat} (h : forkLink st m = .ok none) :
      Chain st m bound []
  | link {m source : String} {bound : Option Nat} {anchor : Nat}
      {chain : List (String × Option Nat)}
      (h : forkLink st m = .ok (some (source, anchor)))
      (rest : Chain st source (some (tighten bound anchor)) chain) :
      Chain st m bound ((source, some (tighten bound anchor)) :: chain)

/-- The loop follows the chain, and does not raise. -/
theorem ancestors_chain {st : Store α} (h : Rooted st.sessions) {newer older : List Session}
    (hs : st.sessions = newer ++ older) {m : String} (hm : m ∈ older.map Session.id)
    {fuel : Nat} (hf : older.length < fuel) {seen : List String}
    (hseen : ∀ x ∈ seen, x = m ∨ x ∉ older.map Session.id) (bound : Option Nat) :
    ∃ chain, ancestors st fuel seen m bound = .ok chain ∧ Chain st m bound chain := by
  induction older generalizing newer m fuel seen bound with
  | nil => simp at hm
  | cons s older ih =>
      have hs' : st.sessions = (newer ++ [s]) ++ older := by simp [hs]
      simp only [List.length_cons] at hf
      have hroot : Rooted (s :: older) := by
        rw [hs] at h
        exact h.of_append
      by_cases hid : s.id = m
      · subst hid
        obtain ⟨-, hnew, link, hl, hin⟩ := hroot
        have hlink := (forkLink_of_split h hs).trans hl
        obtain ⟨fuel, rfl⟩ : ∃ k, fuel = k + 1 := ⟨fuel - 1, by omega⟩
        cases link with
        | none =>
            exact ⟨[], by simp [ancestors, hlink, bind, Except.bind, pure, Except.pure],
              .root hlink⟩
        | some p =>
            obtain ⟨source, anchor⟩ := p
            have hsrc := hin _ rfl
            have hfresh : source ∉ seen := by
              intro hx
              rcases hseen source hx with rfl | hx
              · exact hnew hsrc
              · exact hx (by simp only [List.map_cons, List.mem_cons]; exact .inr hsrc)
            have hf' : older.length < fuel := by omega
            have hseen' : ∀ x ∈ source :: seen, x = source ∨ x ∉ older.map Session.id := by
              intro x hx
              rcases List.mem_cons.mp hx with rfl | hx
              · exact .inl rfl
              · rcases hseen x hx with rfl | hx
                · exact .inr hnew
                · simp only [List.map_cons, List.mem_cons, not_or] at hx
                  exact .inr hx.2
            obtain ⟨chain, hok, hchain⟩ :=
              ih hs' hsrc hf' hseen' (some (tighten bound anchor))
            refine ⟨_, ?_, .link hlink hchain⟩
            simp [ancestors, hlink, require, hfresh, hok, bind, Except.bind, pure,
              Except.pure]
      · have hm' : m ∈ older.map Session.id := by
          simp only [List.map_cons, List.mem_cons] at hm
          exact hm.resolve_left (Ne.symm hid)
        refine ih hs' hm' (by omega) ?_ bound
        intro x hx
        rcases hseen x hx with hx | hx
        · exact .inl hx
        · simp only [List.map_cons, List.mem_cons, not_or] at hx
          exact .inr hx.2

theorem Chain.unique {st : Store α} {m : String} {bound : Option Nat}
    {c c' : List (String × Option Nat)} (h : Chain st m bound c) (h' : Chain st m bound c') :
    c = c' := by
  induction h generalizing c' with
  | root hl =>
      cases h' with
      | root _ => rfl
      | link hl' _ => simp [hl] at hl'
  | link hl _ ih =>
      cases h' with
      | root hl' => simp [hl] at hl'
      | link hl' hrest =>
          rw [hl] at hl'
          simp only [Except.ok.injEq, Option.some.injEq, Prod.mk.injEq] at hl'
          obtain ⟨rfl, rfl⟩ := hl'
          rw [ih hrest]

theorem ancestry_eq {st : Store α} (h : Rooted st.sessions) {m : String}
    (hm : m ∈ st.sessions.map Session.id) :
    ∃ chain, ancestry st m = .ok ((m, none) :: chain) ∧ Chain st m none chain := by
  have hs : st.sessions = [] ++ st.sessions := rfl
  have hseen : ∀ x ∈ [m], x = m ∨ x ∉ st.sessions.map Session.id := by simp
  obtain ⟨chain, hok, hchain⟩ :=
    ancestors_chain h hs hm (Nat.lt_succ_self _) hseen none
  exact ⟨chain, by simp [ancestry, hok, bind, Except.bind, pure, Except.pure], hchain⟩

/-! ## The rows along a chain -/

/-- The rows the members of a chain give, up to their bounds. -/
abbrev chainRows (st : Store α) (chain : List (String × Option Nat)) : List (Entry α) :=
  chain.flatMap fun m => contextRows st m.1 m.2

theorem Chain.within {st : Store α} {m : String} {bound : Option Nat}
    {chain : List (String × Option Nat)} (h : Chain st m bound chain) :
    ∀ e ∈ chainRows st chain, within bound e.contextSeq = true := by
  induction h with
  | root _ => simp
  | link hl _ ih =>
      intro e he
      rw [chainRows, List.flatMap_cons, List.mem_append] at he
      rcases he with he | he
      · have := (mem_contextRows.mp he).2
        exact ((within_tighten _ _ _).mp (by simpa [Transcript.within] using this)).1
      · exact ((within_tighten _ _ _).mp (by simpa [Transcript.within] using ih e he)).1

/-- What a Session inherits lies at or below its anchor. -/
theorem Chain.le_anchor {st : Store α} {m source : String} {bound : Option Nat} {anchor : Nat}
    {chain : List (String × Option Nat)} (h : Chain st m bound chain)
    (hl : forkLink st m = .ok (some (source, anchor))) :
    ∀ e ∈ chainRows st chain, e.contextSeq ≤ anchor := by
  intro e he
  cases h with
  | root _ => simp at he
  | link hl' rest =>
      rw [hl] at hl'
      simp only [Except.ok.injEq, Option.some.injEq, Prod.mk.injEq] at hl'
      obtain ⟨rfl, rfl⟩ := hl'
      rw [chainRows, List.flatMap_cons, List.mem_append] at he
      have hw : e.contextSeq ≤ tighten bound anchor := by
        rcases he with he | he
        · simpa [Transcript.within] using (mem_contextRows.mp he).2
        · simpa [Transcript.within] using rest.within e he
      exact Nat.le_trans hw (tighten_le _ _)

theorem Chain.nil_of_root {st : Store α} {m : String} {bound : Option Nat}
    {chain : List (String × Option Nat)} (h : Chain st m bound chain)
    (hl : forkLink st m = .ok none) : chain = [] :=
  h.unique (.root hl)

/-- What a Session inherits lies below its own rows. -/
theorem Chain.lt_own {st : Store α} (hv : Valid st) {m : String} {bound : Option Nat}
    {chain : List (String × Option Nat)} (h : Chain st m bound chain) :
    ∀ e ∈ chainRows st chain, ∀ e' ∈ ownRows st m, e.contextSeq < e'.contextSeq := by
  intro e he e' he'
  cases hl : forkLink st m with
  | error err => cases h with
    | root hl' => simp [hl] at hl'
    | link hl' _ => simp [hl] at hl'
  | ok link =>
      cases link with
      | none =>
          rw [h.nil_of_root hl] at he
          simp at he
      | some p =>
          exact Nat.lt_of_le_of_lt (h.le_anchor hl e he) (hv.above m p.1 p.2 hl e' he')

theorem contextRows_nodup {st : Store α} (hv : Valid st) (m : String) (bound : Option Nat) :
    ((contextRows st m bound).map Entry.contextSeq).Nodup := by
  rw [contextRows_eq_filter]
  exact (hv.distinct m).sublist ((List.filter_sublist).map _)

theorem Chain.nodup {st : Store α} (hv : Valid st) {m : String} {bound : Option Nat}
    {chain : List (String × Option Nat)} (h : Chain st m bound chain) :
    ((chainRows st chain).map Entry.contextSeq).Nodup := by
  induction h with
  | root _ => simp
  | @link m source bound anchor chain hl rest ih =>
      rw [chainRows, List.flatMap_cons, List.map_append, List.nodup_append]
      refine ⟨contextRows_nodup hv source _, ih, ?_⟩
      intro n hn n' hn'
      obtain ⟨e, he, rfl⟩ := List.mem_map.mp hn
      obtain ⟨e', he', rfl⟩ := List.mem_map.mp hn'
      have := rest.lt_own hv e' he' e (mem_contextRows.mp he).1
      omega

/-- `m` is reached from a Session through links with the given anchors. -/
inductive Ancestor (st : Store α) : String → String → List Nat → Prop
  | source {s m : String} {anchor : Nat} (h : forkLink st s = .ok (some (m, anchor))) :
      Ancestor st s m [anchor]
  | further {s source m : String} {anchor : Nat} {anchors : List Nat}
      (h : forkLink st s = .ok (some (source, anchor))) (rest : Ancestor st source m anchors) :
      Ancestor st s m (anchor :: anchors)

/-- What a Session inherits is the rows of its ancestors up to the smallest
anchor on the way. -/
theorem Chain.mem_iff {st : Store α} {s : String} {bound : Option Nat}
    {chain : List (String × Option Nat)} (h : Chain st s bound chain) (e : Entry α) :
    e ∈ chainRows st chain ↔
      Transcript.within bound e.contextSeq = true ∧ ∃ m anchors, Ancestor st s m anchors ∧
        e ∈ ownRows st m ∧ ∀ a ∈ anchors, e.contextSeq ≤ a := by
  induction h with
  | root hl =>
      simp only [chainRows, List.flatMap_nil, List.not_mem_nil, false_iff, not_and, not_exists]
      intro _ m anchors ha
      cases ha with
      | source hl' => simp [hl] at hl'
      | further hl' _ => simp [hl] at hl'
  | @link s source bound anchor chain hl rest ih =>
      rw [chainRows, List.flatMap_cons, List.mem_append, ih, mem_contextRows]
      simp only [Transcript.within, decide_eq_true_eq, within_tighten]
      constructor
      · rintro (⟨he, hb, hle⟩ | ⟨⟨hb, hle⟩, m, anchors, ha, he, hall⟩)
        · exact ⟨hb, source, [anchor], .source hl, he, by simpa using hle⟩
        · exact ⟨hb, m, anchor :: anchors, .further hl ha, he, by simpa using ⟨hle, hall⟩⟩
      · rintro ⟨hb, m, anchors, ha, he, hall⟩
        cases ha with
        | source hl' =>
            rw [hl] at hl'
            simp only [Except.ok.injEq, Option.some.injEq, Prod.mk.injEq] at hl'
            obtain ⟨rfl, rfl⟩ := hl'
            exact .inl ⟨he, hb, hall _ (by simp)⟩
        | further hl' ha =>
            rw [hl] at hl'
            simp only [Except.ok.injEq, Option.some.injEq, Prod.mk.injEq] at hl'
            obtain ⟨rfl, rfl⟩ := hl'
            exact .inr ⟨⟨hb, hall _ (by simp)⟩, m, _, ha, he,
              fun a h => hall a (by simp [h])⟩

/-- The list a Session loads: what it inherits, then its own rows. -/
theorem contextEntries_eq {st : Store α} (hv : Valid st) {m : String}
    {chain : List (String × Option Nat)} (ha : ancestry st m = .ok ((m, none) :: chain))
    (h : Chain st m none chain) :
    contextEntries st m = .ok (sortOn Entry.contextSeq (chainRows st chain) ++
      sortOn Entry.contextSeq (ownRows st m)) ∧
    Increasing Entry.contextSeq (sortOn Entry.contextSeq (chainRows st chain) ++
      sortOn Entry.contextSeq (ownRows st m)) := by
  have hsort := sortOn_append (h.nodup hv) (hv.distinct m) (h.lt_own hv)
  have hinc : Increasing Entry.contextSeq (sortOn Entry.contextSeq (chainRows st chain) ++
      sortOn Entry.contextSeq (ownRows st m)) := by
    refine List.pairwise_append.mpr
      ⟨sortOn_increasing (h.nodup hv), sortOn_increasing (hv.distinct m), ?_⟩
    intro e he e' he'
    exact h.lt_own hv e (mem_sortOn.mp he) e' (mem_sortOn.mp he')
  refine ⟨?_, hinc⟩
  have hzip : ∀ (l : List (Entry α)), Increasing Entry.contextSeq l →
      ∀ p ∈ l.zip l.tail, p.1.contextSeq ≠ p.2.contextSeq := by
    intro l hl
    induction l with
    | nil => simp
    | cons a l ih =>
        cases l with
        | nil => simp
        | cons b l =>
            obtain ⟨hab, hl⟩ := List.pairwise_cons.mp hl
            intro p hp
            rcases List.mem_cons.mp hp with rfl | hp
            · exact Nat.ne_of_lt (hab b (by simp))
            · exact ih hl p hp
  have hreq := hzip _ hinc
  simp only [contextEntries, ha, bind, Except.bind, List.flatMap_cons, pure, Except.pure]
  rw [hsort]
  simp only [require]
  rw [if_pos hreq]

end Avibe.Transcript
