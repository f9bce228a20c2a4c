import Mathlib.Data.List.Basic

/-!
# Machines

A machine is a state and a function that takes one step; `after` is its state
after a list of steps. A step that is not enabled leaves the state as it is
(`ofStep`), so that every list of steps is a run and a statement about all
lists is a statement about all interleavings.
-/

namespace Machine

variable {σ ι : Type}

section Next

variable (next : σ → ι → σ)

/-- The state after a run. -/
def after (s : σ) (run : List ι) : σ := run.foldl next s

@[simp] theorem after_nil (s : σ) : after next s [] = s := rfl

@[simp] theorem after_cons (s : σ) (i : ι) (run : List ι) :
    after next s (i :: run) = after next (next s i) run := rfl

theorem after_append (s : σ) (run run' : List ι) :
    after next s (run ++ run') = after next (after next s run) run' :=
  List.foldl_append

/-- What every step keeps holds after every run. -/
theorem after_inv {P : σ → Prop} (hstep : ∀ s i, P s → P (next s i)) {s : σ} (h : P s)
    (run : List ι) : P (after next s run) := by
  induction run generalizing s with
  | nil => exact h
  | cons i run ih => exact ih (hstep s i h)

/-- What the steps of a run keep holds after it. -/
theorem after_inv_of {P : σ → Prop} {Q : ι → Prop} (hstep : ∀ s i, Q i → P s → P (next s i))
    {s : σ} (h : P s) {run : List ι} (hrun : ∀ i ∈ run, Q i) : P (after next s run) := by
  induction run generalizing s with
  | nil => exact h
  | cons i run ih =>
      exact ih (hstep s i (hrun i List.mem_cons_self) h)
        fun j hj => hrun j (List.mem_cons_of_mem _ hj)

/-- What became true in a run became true at one of its steps. -/
theorem exists_change {P : σ → Prop} {s : σ} {run : List ι} (h₀ : ¬ P s)
    (h : P (after next s run)) :
    ∃ before i later, run = before ++ i :: later ∧ ¬ P (after next s before) ∧
      P (next (after next s before) i) := by
  induction run generalizing s with
  | nil => exact absurd h h₀
  | cons i run ih =>
      by_cases hi : P (next s i)
      · exact ⟨[], i, run, rfl, h₀, hi⟩
      · obtain ⟨before, j, later, rfl, hb, hj⟩ := ih hi h
        exact ⟨i :: before, j, later, rfl, hb, hj⟩

/-- Every step of the run is one that its state allows. -/
def Along (Q : σ → ι → Prop) : σ → List ι → Prop
  | _, [] => True
  | s, i :: run => Q s i ∧ Along Q (next s i) run

theorem along_append {Q : σ → ι → Prop} {s : σ} {run run' : List ι} :
    Along next Q s (run ++ run') ↔ Along next Q s run ∧ Along next Q (after next s run) run' := by
  induction run generalizing s with
  | nil => simp [Along]
  | cons i run ih => simp [Along, ih, and_assoc]

/-- What the steps that a run takes keep holds after it. -/
theorem after_inv_along {P : σ → Prop} {Q : σ → ι → Prop} (hstep : ∀ s i, Q s i → P s → P (next s i)) {s : σ}
    (h : P s) {run : List ι} (hrun : Along next Q s run) : P (after next s run) := by
  induction run generalizing s with
  | nil => exact h
  | cons i run ih => exact ih (hstep s i hrun.1 h) hrun.2

end Next

/-- A step that is not enabled changes nothing. -/
def ofStep (step : σ → ι → Option σ) (s : σ) (i : ι) : σ := (step s i).getD s

theorem ofStep_inv {step : σ → ι → Option σ} {P : σ → Prop}
    (hstep : ∀ s i s', step s i = some s' → P s → P s') (s : σ) (i : ι) (h : P s) :
    P (ofStep step s i) := by
  unfold ofStep
  cases hs : step s i with
  | none => exact h
  | some s' => exact hstep s i s' hs h

end Machine
