import Avibe.Lib.Ranges

/-!
# Finding every match

`finditer` over a matcher that says how long its match at the head of a text is. A matcher whose
matches neither are empty nor hold the start of another one is found at every place it matches.
-/

namespace Ranges

variable {α : Type}

/-- The matches from a position on, the first `skip` places left out. -/
def finditerFrom (m : List α → Option Nat) (pos : Nat) : Nat → List α → List Span
  | _, [] => []
  | skip + 1, _ :: rest => finditerFrom m (pos + 1) skip rest
  | 0, c :: rest =>
      match m (c :: rest) with
      | none => finditerFrom m (pos + 1) 0 rest
      | some n => (pos, pos + n) :: finditerFrom m (pos + 1) (n - 1) rest

/-- The matches in a text, from left to right and apart from each other. -/
def finditer (m : List α → Option Nat) (l : List α) : List Span := finditerFrom m 0 0 l

/-- Matches are not empty, lie in the text, and hold no start of another one. -/
structure Separate (m : List α → Option Nat) : Prop where
  pos : ∀ l n, m l = some n → 0 < n
  le : ∀ l n, m l = some n → n ≤ l.length
  apart : ∀ l n, m l = some n → ∀ k, 0 < k → k < n → m (l.drop k) = none

section Finditer

variable {m : List α → Option Nat}

theorem finditerFrom_ge {pos skip : Nat} {l : List α} {r : Span}
    (hr : r ∈ finditerFrom m pos skip l) : pos + skip ≤ r.1 := by
  induction l generalizing pos skip with
  | nil => cases hr
  | cons c rest ih =>
      cases skip with
      | succ skip =>
          have := ih hr
          omega
      | zero =>
          rw [finditerFrom] at hr
          split at hr
          · have := ih hr
            omega
          · rcases List.mem_cons.mp hr with rfl | hr
            · exact Nat.le_refl _
            · have := ih hr
              omega

theorem finditerFrom_le {pos skip : Nat} {l : List α} {r : Span}
    (hr : r ∈ finditerFrom m pos skip l) : r.1 ≤ r.2 := by
  induction l generalizing pos skip with
  | nil => cases hr
  | cons c rest ih =>
      cases skip with
      | succ skip => exact ih hr
      | zero =>
          rw [finditerFrom] at hr
          split at hr
          · exact ih hr
          · rcases List.mem_cons.mp hr with rfl | hr
            · exact Nat.le_add_right _ _
            · exact ih hr

theorem finditerFrom_pairwise (hm : Separate m) (pos skip : Nat) (l : List α) :
    (finditerFrom m pos skip l).Pairwise fun r s => r.2 ≤ s.1 := by
  induction l generalizing pos skip with
  | nil => exact List.Pairwise.nil
  | cons c rest ih =>
      cases skip with
      | succ skip => exact ih _ _
      | zero =>
          rw [finditerFrom]
          split
          · exact ih _ _
          · rename_i n hn
            refine List.pairwise_cons.mpr ⟨fun s hs => ?_, ih _ _⟩
            have hge := finditerFrom_ge hs
            have hpos := hm.pos _ _ hn
            simp only
            omega

theorem mem_finditerFrom (hm : Separate m) {pos skip : Nat} {l : List α}
    (hskip : ∀ k, k < skip → m (l.drop k) = none) {r : Span} :
    r ∈ finditerFrom m pos skip l ↔
      ∃ k n, k < l.length ∧ m (l.drop k) = some n ∧ r = (pos + k, pos + k + n) := by
  induction l generalizing pos skip with
  | nil =>
      refine ⟨fun h => (by cases h), ?_⟩
      rintro ⟨k, n, hk, -⟩
      cases hk
  | cons c rest ih =>
      have hshift : (∃ k n, k < rest.length ∧ m (rest.drop k) = some n ∧
          r = (pos + 1 + k, pos + 1 + k + n)) ↔
          ∃ k n, k < (c :: rest).length ∧ m ((c :: rest).drop k) = some n ∧
            r = (pos + k, pos + k + n) ∧ 0 < k := by
        constructor
        · rintro ⟨k, n, hk, hn, rfl⟩
          refine ⟨k + 1, n, Nat.succ_lt_succ hk, hn, ?_, Nat.succ_pos k⟩
          rw [Nat.add_assoc pos 1 k, Nat.add_comm 1 k]
        · rintro ⟨k, n, hk, hn, rfl, hpos⟩
          obtain ⟨k, rfl⟩ := Nat.exists_eq_succ_of_ne_zero (Nat.ne_of_gt hpos)
          refine ⟨k, n, Nat.lt_of_succ_lt_succ hk, hn, ?_⟩
          rw [Nat.add_assoc pos 1 k, Nat.add_comm 1 k]
      cases skip with
      | succ skip =>
          rw [finditerFrom, ih fun k hk => hskip (k + 1) (Nat.succ_lt_succ hk), hshift]
          refine ⟨fun ⟨k, n, hk, hn, hr, _⟩ => ⟨k, n, hk, hn, hr⟩, ?_⟩
          rintro ⟨k, n, hk, hn, hr⟩
          refine ⟨k, n, hk, hn, hr, Nat.pos_of_ne_zero fun h0 => ?_⟩
          rw [h0, hskip 0 (Nat.succ_pos skip)] at hn
          cases hn
      | zero =>
          rw [finditerFrom]
          split
          · rename_i hnone
            rw [ih fun k hk => absurd hk (Nat.not_lt_zero k), hshift]
            refine ⟨fun ⟨k, n, hk, hn, hr, _⟩ => ⟨k, n, hk, hn, hr⟩, ?_⟩
            rintro ⟨k, n, hk, hn, hr⟩
            refine ⟨k, n, hk, hn, hr, Nat.pos_of_ne_zero fun h0 => ?_⟩
            rw [h0, List.drop_zero, hnone] at hn
            cases hn
          · rename_i n hn
            have hrest : ∀ k, k < n - 1 → m (rest.drop k) = none := fun k hk =>
              hm.apart _ _ hn (k + 1) (Nat.succ_pos k) (by omega)
            rw [List.mem_cons, ih hrest, hshift]
            constructor
            · rintro (rfl | ⟨k, n', hk, hn', hr, -⟩)
              · exact ⟨0, n, Nat.succ_pos _, hn, rfl⟩
              · exact ⟨k, n', hk, hn', hr⟩
            · rintro ⟨k, n', hk, hn', hr⟩
              rcases Nat.eq_zero_or_pos k with rfl | hpos
              · rw [List.drop_zero, hn] at hn'
                exact .inl (by rw [hr, Option.some.inj hn']; rfl)
              · exact .inr ⟨k, n', hk, hn', hr, hpos⟩

/-- Every place where the matcher matches is found. -/
theorem mem_finditer (hm : Separate m) {l : List α} {r : Span} :
    r ∈ finditer m l ↔ r.1 < l.length ∧ ∃ n, m (l.drop r.1) = some n ∧ r.2 = r.1 + n := by
  rw [finditer, mem_finditerFrom hm fun k hk => absurd hk (Nat.not_lt_zero k)]
  constructor
  · rintro ⟨k, n, hk, hn, rfl⟩
    rw [Nat.zero_add]
    exact ⟨hk, n, hn, rfl⟩
  · rintro ⟨hk, n, hn, hr⟩
    exact ⟨r.1, n, hk, hn, Prod.ext (Nat.zero_add _).symm (by rw [hr, Nat.zero_add])⟩

theorem finditer_pairwise (hm : Separate m) (l : List α) :
    (finditer m l).Pairwise fun r s => r.2 ≤ s.1 := finditerFrom_pairwise hm 0 0 l

end Finditer

end Ranges
