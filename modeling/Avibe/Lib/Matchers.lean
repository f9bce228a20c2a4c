import Mathlib.Data.List.Basic

/-!
# Matchers

A pattern as the function that says how long its match at the head of a text is. A pattern that a separator stops
matches in a text what it matches before the separator (`Stops`), so that taking every match out of a text takes
them out of each side of the separator (`dropMatches_append`).
-/

namespace Matchers

variable {α : Type}

abbrev Matcher (α : Type) := List α → Option Nat

/-- The end of a pattern. -/
def done : Matcher α := fun _ => some 0

/-- One element of a class. -/
def one (p : α → Bool) (next : Matcher α) : Matcher α
  | [] => none
  | c :: t => if p c then (next t).map (· + 1) else none

/-- As many elements of a class as there are, for a pattern that cannot go on with one of them. -/
def many (p : α → Bool) (next : Matcher α) : Matcher α := fun t =>
  (next (t.dropWhile p)).map (· + (t.takeWhile p).length)

/-- The first of two patterns that matches. -/
def orElse (m n : Matcher α) : Matcher α := fun t => (m t).or (n t)

/-- The text without its matches, after `skip` elements of one. -/
def dropFrom (m : Matcher α) : Nat → List α → List α
  | _, [] => []
  | skip + 1, _ :: t => dropFrom m skip t
  | 0, c :: t =>
      match m (c :: t) with
      | none => c :: dropFrom m 0 t
      | some n => dropFrom m (n - 1) t

/-- The text without its matches, taken from the left and apart from each other. -/
def dropMatches (m : Matcher α) (t : List α) : List α := dropFrom m 0 t

@[simp] theorem dropMatches_nil (m : Matcher α) : dropMatches m [] = [] := rfl

theorem dropFrom_subset (m : Matcher α) (skip : Nat) (t : List α) : dropFrom m skip t ⊆ t := by
  induction t generalizing skip with
  | nil =>
      cases skip <;> exact List.Subset.refl _
  | cons c t ih =>
      cases skip with
      | succ skip => exact List.subset_cons_of_subset c (ih skip)
      | zero =>
          rw [dropFrom]
          cases m (c :: t) with
          | none => exact List.cons_subset_cons c (ih 0)
          | some n => exact List.subset_cons_of_subset c (ih (n - 1))

/-- Where the pattern matches nowhere, nothing is dropped. -/
theorem dropMatches_eq_self {m : Matcher α} {t : List α} (h : ∀ u, u <:+ t → m u = none) : dropMatches m t = t := by
  induction t with
  | nil => rfl
  | cons c t ih =>
      rw [dropMatches, dropFrom, h _ List.suffix_rfl]
      exact congrArg (c :: ·) (ih fun u hu => h u (hu.trans (List.suffix_cons c t)))

/-! ## Separators -/

/-- What the pattern matches, it matches before the separator. -/
structure Stops (m : Matcher α) (sep : α) : Prop where
  same : ∀ a b, m (a ++ sep :: b) = m a
  le : ∀ a n, m a = some n → n ≤ a.length

section Stops

variable {m n next : Matcher α} {p : α → Bool} {sep : α}

theorem stops_done : Stops (done : Matcher α) sep where
  same _ _ := rfl
  le a n h := by
    obtain rfl := Option.some.inj h
    exact Nat.zero_le _

theorem Stops.one (hp : p sep = false) (h : Stops next sep) : Stops (one p next) sep where
  same a b := by
    cases a with
    | nil =>
        simp [Matchers.one, hp]
    | cons c a => rw [List.cons_append, Matchers.one, Matchers.one, h.same]
  le a n hn := by
    cases a with
    | nil => cases hn
    | cons c a =>
        rw [Matchers.one] at hn
        split at hn
        · obtain ⟨k, hk, rfl⟩ := Option.map_eq_some_iff.mp hn
          exact Nat.succ_le_succ (h.le a k hk)
        · cases hn

theorem dropWhile_append_sep (hp : p sep = false) (a b : List α) :
    (a ++ sep :: b).dropWhile p = a.dropWhile p ++ sep :: b := by
  induction a with
  | nil => exact List.dropWhile_cons_of_neg (by simp [hp])
  | cons c a ih =>
      rw [List.cons_append, List.dropWhile_cons, List.dropWhile_cons]
      split
      · exact ih
      · rfl

theorem takeWhile_append_sep (hp : p sep = false) (a b : List α) :
    (a ++ sep :: b).takeWhile p = a.takeWhile p := by
  induction a with
  | nil => exact List.takeWhile_cons_of_neg (by simp [hp])
  | cons c a ih =>
      rw [List.cons_append, List.takeWhile_cons, List.takeWhile_cons]
      split
      · rw [ih]
      · rfl

theorem Stops.many (hp : p sep = false) (h : Stops next sep) : Stops (many p next) sep where
  same a b := by rw [Matchers.many, dropWhile_append_sep hp, takeWhile_append_sep hp, h.same, Matchers.many]
  le a n hn := by
    obtain ⟨k, hk, rfl⟩ := Option.map_eq_some_iff.mp hn
    have hlen := congrArg List.length (List.takeWhile_append_dropWhile (p := p) (l := a))
    rw [List.length_append] at hlen
    have := h.le _ k hk
    omega

theorem Stops.orElse (hm : Stops m sep) (hn : Stops n sep) : Stops (orElse m n) sep where
  same a b := by rw [Matchers.orElse, hm.same, hn.same, Matchers.orElse]
  le a k hk := by
    rw [Matchers.orElse, Option.or_eq_some_iff] at hk
    rcases hk with hk | ⟨-, hk⟩
    · exact hm.le a k hk
    · exact hn.le a k hk

theorem dropFrom_append (h : Stops m sep) (hnil : m [] = none) {skip : Nat} {a : List α} (hskip : skip ≤ a.length) (b : List α) :
    dropFrom m skip (a ++ sep :: b) = dropFrom m skip a ++ sep :: dropMatches m b := by
  induction a generalizing skip with
  | nil =>
      obtain rfl := Nat.le_zero.mp hskip
      have hnone : m (sep :: b) = none := (h.same [] b).trans hnil
      simp [dropFrom, hnone, dropMatches]
  | cons c a ih =>
      cases skip with
      | succ skip => exact ih (Nat.le_of_succ_le_succ hskip)
      | zero =>
          rw [List.cons_append, dropFrom, dropFrom, ← List.cons_append, h.same]
          cases hm : m (c :: a) with
          | none => exact congrArg (c :: ·) (ih (Nat.zero_le _))
          | some n =>
              have hle := h.le _ n hm
              exact ih (by rw [List.length_cons] at hle; omega)

/-- Taking the matches out of a text takes them out of each side of a separator. -/
theorem dropMatches_append (h : Stops m sep) (hnil : m [] = none) (a b : List α) :
    dropMatches m (a ++ sep :: b) = dropMatches m a ++ sep :: dropMatches m b :=
  dropFrom_append h hnil (Nat.zero_le _) b

end Stops

/-- What is done to each side of a separator is done to each part. -/
theorem splitOn_map_of_append [BEq α] [LawfulBEq α] {f : List α → List α} {sep : α}
    (happend : ∀ a b, f (a ++ sep :: b) = f a ++ sep :: f b) (hsubset : ∀ t, f t ⊆ t) (t : List α) :
    (f t).splitOn sep = (t.splitOn sep).map f := by
  induction hlen : t.length using Nat.strongRecOn generalizing t with
  | ind n ih =>
      by_cases hmem : sep ∈ t
      · obtain ⟨a, b, rfl, ha⟩ := List.eq_append_cons_of_mem hmem
        have hshort : b.length < n := by
          rw [← hlen, List.length_append, List.length_cons]
          omega
        rw [happend, List.splitOn_append_cons_self_of_not_mem (fun hin => ha (hsubset a hin)),
          List.splitOn_append_cons_self_of_not_mem ha, List.map_cons, ih b.length hshort b rfl]
      · rw [List.splitOn_eq_singleton (fun hin => hmem (hsubset t hin)), List.splitOn_eq_singleton hmem,
          List.map_singleton]

end Matchers
