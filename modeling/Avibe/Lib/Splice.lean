import Mathlib.Data.List.Basic

/-!
# Splicing

A list with disjoint spans replaced: the parts between the spans stay as they are. `weave` puts the parts
kept and the parts put in between them together again, so that a list and its splice differ in the second
ones only.
-/

namespace Splice

variable {α : Type}

def slice (l : List α) (lo hi : Nat) : List α := (l.take hi).drop lo

structure Span where
  lo : Nat
  hi : Nat
deriving DecidableEq

/-- The spans lie one after the other from a position to the end of a list of length `n`. -/
def Ordered (n : Nat) : Nat → List Span → Prop
  | pos, [] => pos ≤ n
  | pos, s :: spans => pos ≤ s.lo ∧ s.lo ≤ s.hi ∧ Ordered n s.hi spans

/-- What lies between the spans. -/
def gaps (l : List α) : Nat → List Span → List (List α)
  | pos, [] => [l.drop pos]
  | pos, s :: spans => slice l pos s.lo :: gaps l s.hi spans

/-- Kept parts with other parts between them. -/
def weave : List (List α) → List (List α) → List α
  | [], _ => []
  | kept :: _, [] => kept
  | kept :: keeps, part :: parts => kept ++ (part ++ weave keeps parts)

/-- The same parts one after the other. -/
def interleave : List (List α) → List (List α) → List (List α)
  | [], _ => []
  | kept :: _, [] => [kept]
  | kept :: keeps, part :: parts => kept :: part :: interleave keeps parts

theorem flatten_interleave (keeps parts : List (List α)) :
    (interleave keeps parts).flatten = weave keeps parts := by
  induction keeps generalizing parts with
  | nil => rfl
  | cons kept keeps ih =>
      cases parts with
      | nil => exact List.append_nil kept
      | cons part parts => rw [interleave, weave, List.flatten_cons, List.flatten_cons, ih]

theorem map_interleave {β : Type} (f : List α → List β) (keeps parts : List (List α)) :
    (interleave keeps parts).map f = interleave (keeps.map f) (parts.map f) := by
  induction keeps generalizing parts with
  | nil => rfl
  | cons kept keeps ih =>
      cases parts with
      | nil => rfl
      | cons part parts =>
          rw [interleave, List.map_cons, List.map_cons, ih, List.map_cons, List.map_cons, interleave]

theorem Ordered.le {n pos : Nat} {spans : List Span} (h : Ordered n pos spans) : pos ≤ n := by
  induction spans generalizing pos with
  | nil => exact h
  | cons s spans ih => exact Nat.le_trans h.1 (Nat.le_trans h.2.1 (ih h.2.2))

theorem Ordered.mem {n pos : Nat} {spans : List Span} (h : Ordered n pos spans) {s : Span}
    (hs : s ∈ spans) : pos ≤ s.lo ∧ s.lo ≤ s.hi ∧ s.hi ≤ n := by
  induction spans generalizing pos with
  | nil => cases hs
  | cons t spans ih =>
      cases List.mem_cons.mp hs with
      | inl heq => exact heq ▸ ⟨h.1, h.2.1, h.2.2.le⟩
      | inr hlater =>
          obtain ⟨hlo, hle, hhi⟩ := ih h.2.2 hlater
          exact ⟨Nat.le_trans h.1 (Nat.le_trans h.2.1 hlo), hle, hhi⟩

theorem Ordered.pairwise {n pos : Nat} {spans : List Span} (h : Ordered n pos spans) :
    spans.Pairwise fun a b => a.hi ≤ b.lo := by
  induction spans generalizing pos with
  | nil => exact List.Pairwise.nil
  | cons s spans ih => exact List.Pairwise.cons (fun t ht => (h.2.2.mem ht).1) (ih h.2.2)

theorem ordered_of_pairwise {n pos : Nat} {spans : List Span} (hn : pos ≤ n)
    (hmem : ∀ s ∈ spans, pos ≤ s.lo ∧ s.lo ≤ s.hi ∧ s.hi ≤ n) (h : spans.Pairwise fun a b => a.hi ≤ b.lo) :
    Ordered n pos spans := by
  induction spans generalizing pos with
  | nil => exact hn
  | cons s spans ih =>
      obtain ⟨hlo, hle, hhi⟩ := hmem s List.mem_cons_self
      rw [List.pairwise_cons] at h
      refine ⟨hlo, hle, ih hhi (fun t ht => ⟨h.1 t ht, ?_⟩) h.2⟩
      exact (hmem t (List.mem_cons_of_mem _ ht)).2

theorem slice_append_drop {l : List α} {lo hi : Nat} (h : lo ≤ hi) :
    slice l lo hi ++ l.drop hi = l.drop lo := by
  rw [slice, List.drop_take]
  conv_rhs => rw [← List.take_append_drop (hi - lo) (l.drop lo)]
  rw [List.drop_drop, Nat.add_sub_cancel' h]

theorem slice_append_slice {l : List α} {lo mid hi : Nat} (h : lo ≤ mid) (h' : mid ≤ hi) :
    slice l lo mid ++ slice l mid hi = slice l lo hi := by
  have hmid : slice l lo mid = slice (l.take hi) lo mid := by
    rw [slice, slice, List.take_take, Nat.min_eq_left h']
  rw [hmid]
  exact slice_append_drop h

theorem length_slice {l : List α} {lo hi : Nat} (h : hi ≤ l.length) : (slice l lo hi).length = hi - lo := by
  rw [slice, List.length_drop, List.length_take, Nat.min_eq_left h]

/-- A part of a list after some elements that are not in it. -/
theorem slice_drop {l : List α} {skip lo hi : Nat} (hlo : skip ≤ lo) (hhi : skip ≤ hi) :
    slice (l.drop skip) (lo - skip) (hi - skip) = slice l lo hi := by
  rw [slice, slice, List.take_drop, List.drop_drop, Nat.add_sub_cancel' hlo, Nat.add_sub_cancel' hhi]

/-- An element of a part that is not the last of the part is not the last of the list. -/
theorem mem_dropLast_of_slice {l : List α} {lo hi : Nat} {a : α} (h : a ∈ (slice l lo hi).dropLast) :
    a ∈ l.dropLast := by
  have hdrop : (slice l lo hi).dropLast = (l.take hi).dropLast.drop lo := by
    rw [slice]
    generalize l.take hi = head
    rw [List.dropLast_eq_take, List.dropLast_eq_take, List.length_drop, List.drop_take,
      Nat.sub_right_comm]
  have htake : (l.take hi).dropLast <+: l.dropLast := by
    rw [List.dropLast_eq_take, List.dropLast_eq_take, List.take_take]
    apply List.take_prefix_take_left
    rw [List.length_take]
    omega
  rw [hdrop] at h
  exact htake.subset (List.mem_of_mem_drop h)

/-- A list is its gaps with its spans between them. -/
theorem weave_gaps {l : List α} {pos : Nat} {spans : List Span} (h : Ordered l.length pos spans) :
    weave (gaps l pos spans) (spans.map fun s => slice l s.lo s.hi) = l.drop pos := by
  induction spans generalizing pos with
  | nil => rfl
  | cons s spans ih =>
      rw [gaps, List.map_cons, weave, ih h.2.2, slice_append_drop h.2.1, slice_append_drop h.1]

/-- More kept before the first part. -/
theorem weave_prepend (before kept : List α) (keeps parts : List (List α)) :
    weave ((before ++ kept) :: keeps) parts = before ++ weave (kept :: keeps) parts := by
  cases parts with
  | nil => rfl
  | cons part parts => rw [weave, weave, List.append_assoc]

theorem gaps_prepend {l : List α} {pos next : Nat} {spans : List Span} (hnext : pos ≤ next)
    (h : Ordered l.length next spans) (parts : List (List α)) :
    weave (gaps l pos spans) parts = slice l pos next ++ weave (gaps l next spans) parts := by
  cases spans with
  | nil => rw [gaps, gaps, ← weave_prepend, slice_append_drop hnext]
  | cons s spans => rw [gaps, gaps, ← weave_prepend, slice_append_slice hnext h.1]

theorem Ordered.later {n pos next : Nat} {spans : List Span} (h : Ordered n pos spans)
    (hnext : next ≤ n) (hspans : ∀ s ∈ spans, next ≤ s.lo) : Ordered n next spans := by
  cases spans with
  | nil => exact hnext
  | cons s spans => exact ⟨hspans s List.mem_cons_self, h.2⟩

/-- Spans that no replaced one meets are found in the splice, one after the other. -/
theorem exists_weave {l : List α} {pos : Nat} {spans kept : List Span} {parts : List (List α)}
    (hspans : Ordered l.length pos spans) (hkept : Ordered l.length pos kept)
    (hlength : parts.length = spans.length)
    (hdisjoint : ∀ k ∈ kept, ∀ s ∈ spans, k.hi ≤ s.lo ∨ s.hi ≤ k.lo) :
    ∃ others, others.length = kept.length + 1 ∧
      weave (gaps l pos spans) parts = weave others (kept.map fun k => slice l k.lo k.hi) := by
  induction hsize : spans.length + kept.length using Nat.strongRecOn
      generalizing pos spans kept parts with
  | _ size ih =>
      cases kept with
      | nil => exact ⟨[weave (gaps l pos spans) parts], rfl, rfl⟩
      | cons k kept =>
          rw [List.length_cons] at hsize
          have hk := hkept.mem List.mem_cons_self
          by_cases hfirst : ∀ s ∈ spans, k.hi ≤ s.lo
          · have hnext := hspans.later hk.2.2 hfirst
            obtain ⟨others, hothers, heq⟩ := ih _ (by omega) hnext hkept.2.2 hlength
              (fun k' hk' => hdisjoint k' (List.mem_cons_of_mem _ hk')) rfl
            refine ⟨slice l pos k.lo :: others, congrArg (· + 1) hothers, ?_⟩
            rw [gaps_prepend (Nat.le_trans hk.1 hk.2.1) hnext, heq, List.map_cons, weave,
              ← List.append_assoc, slice_append_slice hk.1 hk.2.1]
          · cases spans with
            | nil => exact absurd (fun s hs => absurd hs List.not_mem_nil) hfirst
            | cons s spans =>
                rw [List.length_cons] at hsize
                have hbefore : s.hi ≤ k.lo := by
                  apply (hdisjoint k List.mem_cons_self s List.mem_cons_self).resolve_left
                  intro hafter
                  apply hfirst
                  intro t ht
                  cases List.mem_cons.mp ht with
                  | inl hsame => exact hsame ▸ hafter
                  | inr hlater =>
                      exact Nat.le_trans hafter (Nat.le_trans hspans.2.1 (hspans.2.2.mem hlater).1)
                cases parts with
                | nil => cases hlength
                | cons part parts =>
                    have hlater : Ordered l.length s.hi (k :: kept) := ⟨hbefore, hkept.2⟩
                    obtain ⟨others, hothers, heq⟩ := ih _ (by rw [List.length_cons]; omega) hspans.2.2
                      hlater (Nat.succ.inj hlength)
                      (fun k' hk' t ht => hdisjoint k' hk' t (List.mem_cons_of_mem _ ht)) rfl
                    cases others with
                    | nil => cases hothers
                    | cons other others =>
                        refine ⟨(slice l pos s.lo ++ (part ++ other)) :: others, hothers, ?_⟩
                        rw [gaps, weave, heq, weave_prepend, weave_prepend]

end Splice
