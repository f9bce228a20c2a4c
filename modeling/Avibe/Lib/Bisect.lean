import Mathlib.Order.Lattice
import Mathlib.Order.Defs.LinearOrder

/-!
# Bisection

A search between a number that fits and a greater one that does not. It ends at a number that fits and
whose successor does not: the largest that fits, when whatever is below a fitting number fits.
-/

namespace Bisect

/-- The search for the largest number from `low` to below `high` that fits. -/
def largest (fits : Nat → Bool) (low high : Nat) : Nat :=
  if 1 < high - low then
    let middle := (low + high) / 2
    if fits middle then largest fits middle high else largest fits low middle
  else low
  termination_by high - low
  decreasing_by all_goals omega

variable {fits : Nat → Bool}

theorem largest_step {low high : Nat} (h : 1 < high - low) :
    largest fits low high =
      if fits ((low + high) / 2) then largest fits ((low + high) / 2) high
      else largest fits low ((low + high) / 2) := by
  rw [largest, if_pos h]

theorem largest_stop {low high : Nat} (h : ¬ 1 < high - low) : largest fits low high = low := by
  rw [largest, if_neg h]

theorem largest_spec {low high : Nat} (hlow : fits low = true) (hhigh : fits high = false)
    (h : low < high) :
    low ≤ largest fits low high ∧ largest fits low high < high ∧
      fits (largest fits low high) = true ∧ fits (largest fits low high + 1) = false := by
  induction hgap : high - low using Nat.strong_induction_on generalizing low high with
  | _ gap ih =>
      by_cases hwide : 1 < high - low
      · rw [largest_step hwide]
        cases hmiddle : fits ((low + high) / 2) with
        | true =>
            obtain ⟨hge, hlt, hfits, hnot⟩ :=
              ih (high - (low + high) / 2) (by omega) hmiddle hhigh (by omega) rfl
            exact ⟨le_trans (by omega) hge, hlt, hfits, hnot⟩
        | false =>
            obtain ⟨hge, hlt, hfits, hnot⟩ :=
              ih ((low + high) / 2 - low) (by omega) hlow hmiddle (by omega) rfl
            exact ⟨hge, lt_of_lt_of_le hlt (by omega), hfits, hnot⟩
      · have hnext : low + 1 = high := by omega
        rw [largest_stop hwide]
        exact ⟨le_refl _, h, hlow, hnext ▸ hhigh⟩

/-- What the search ends at, whatever fits. -/
theorem largest_cases {low high : Nat} (hhigh : fits high = false) (h : low < high) :
    low ≤ largest fits low high ∧ largest fits low high < high ∧
      fits (largest fits low high + 1) = false ∧
      (fits (largest fits low high) = true ∨ largest fits low high = low) := by
  induction hgap : high - low using Nat.strong_induction_on generalizing low high with
  | _ gap ih =>
      by_cases hwide : 1 < high - low
      · rw [largest_step hwide]
        cases hmiddle : fits ((low + high) / 2) with
        | true =>
            obtain ⟨hge, hlt, hfits, hnot⟩ := largest_spec hmiddle hhigh (by omega)
            exact ⟨le_trans (by omega) hge, hlt, hnot, .inl hfits⟩
        | false =>
            obtain ⟨hge, hlt, hnot, hfits⟩ :=
              ih ((low + high) / 2 - low) (by omega) hmiddle (by omega) rfl
            exact ⟨hge, lt_of_lt_of_le hlt (by omega), hnot, hfits⟩
      · have hnext : low + 1 = high := by omega
        rw [largest_stop hwide]
        exact ⟨le_refl _, h, hnext ▸ hhigh, .inr rfl⟩

/-- Whatever fits, the search ends at a number that does or where it started. -/
theorem largest_fits (fits : Nat → Bool) (low high : Nat) :
    fits (largest fits low high) = true ∨ largest fits low high = low := by
  induction hgap : high - low using Nat.strong_induction_on generalizing low high with
  | _ gap ih =>
      by_cases hwide : 1 < high - low
      · rw [largest_step hwide]
        cases hmiddle : fits ((low + high) / 2) with
        | true =>
            apply Or.inl
            cases ih (high - (low + high) / 2) (by omega) _ _ rfl with
            | inl hfits => exact hfits
            | inr hsame => exact (congrArg fits hsame).trans hmiddle
        | false => exact ih ((low + high) / 2 - low) (by omega) _ _ rfl
      · exact .inr (largest_stop hwide)

/-- The numbers tried on the way to a target. -/
def probes (target low high : Nat) : List Nat :=
  if 1 < high - low then
    let middle := (low + high) / 2
    middle :: if middle ≤ target then probes target middle high else probes target low middle
  else []
  termination_by high - low
  decreasing_by all_goals omega

theorem probes_step {target low high : Nat} (h : 1 < high - low) :
    probes target low high = (low + high) / 2 ::
      if (low + high) / 2 ≤ target then probes target ((low + high) / 2) high
      else probes target low ((low + high) / 2) := by
  rw [probes, if_pos h]

theorem probes_stop {target low high : Nat} (h : ¬ 1 < high - low) : probes target low high = [] := by
  rw [probes, if_neg h]

/-- The search ends at a number above which nothing fits exactly when what it tries on the way there,
up to that number, fits. -/
theorem largest_eq_iff {target low high : Nat} (hlow : low ≤ target) (hhigh : target < high)
    (hmax : ∀ n, target < n → fits n = false) :
    largest fits low high = target ↔ ∀ n ∈ probes target low high, n ≤ target → fits n = true := by
  induction hgap : high - low using Nat.strong_induction_on generalizing low high with
  | _ gap ih =>
      by_cases hwide : 1 < high - low
      · rw [largest_step hwide, probes_step hwide]
        by_cases hbelow : (low + high) / 2 ≤ target
        · rw [if_pos hbelow, List.forall_mem_cons]
          cases hmiddle : fits ((low + high) / 2) with
          | true =>
              rw [if_pos rfl, ih (high - (low + high) / 2) (by omega) hbelow hhigh rfl]
              exact ⟨fun hrest => ⟨fun _ => rfl, hrest⟩, fun hboth => hboth.2⟩
          | false =>
              rw [if_neg Bool.false_ne_true]
              apply iff_of_false
              · obtain ⟨-, hlt, -⟩ := largest_cases hmiddle (by omega : low < (low + high) / 2)
                omega
              · exact fun hboth => absurd (hboth.1 hbelow) Bool.false_ne_true
        · have hmiddle : fits ((low + high) / 2) = false := hmax _ (not_le.mp hbelow)
          rw [if_neg hbelow, List.forall_mem_cons, hmiddle, if_neg Bool.false_ne_true,
            ih ((low + high) / 2 - low) (by omega) hlow (not_le.mp hbelow) rfl]
          exact ⟨fun hrest => ⟨fun hle => absurd hle hbelow, hrest⟩, fun hboth => hboth.2⟩
      · rw [largest_stop hwide, probes_stop hwide]
        exact iff_of_true (by omega) fun n hn => absurd hn List.not_mem_nil

end Bisect
