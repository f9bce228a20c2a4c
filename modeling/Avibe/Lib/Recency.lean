import Mathlib.Data.Finset.Card

/-!
# Recently touched

A history of touches has its distinct things in the order of their last touches, the latest first: each
new touch moves its thing to the front. A list bounded to the first `n` of them can be carried on from
one part of the history to the next, because a move to the front never brings back a thing from behind
the bound.
-/

namespace Recency

variable {α : Type*} [DecidableEq α]

def toFront (a : α) (l : List α) : List α := a :: l.filter (· ≠ a)

/-- The distinct elements in the order of their first places. -/
def unique : List α → List α
  | [] => []
  | a :: l => toFront a (unique l)

/-- The distinct things of a history, the last touched first. -/
def latest (history : List α) : List α := unique history.reverse

theorem mem_toFront {a b : α} {l : List α} : b ∈ toFront a l ↔ b = a ∨ b ∈ l := by
  by_cases h : b = a
  · simp [toFront, h]
  · simp [toFront, h]

theorem nodup_toFront (a : α) {l : List α} (h : l.Nodup) : (toFront a l).Nodup := by
  apply List.nodup_cons.mpr
  exact ⟨fun hmem => by simp at hmem, h.filter _⟩

theorem mem_unique {b : α} {l : List α} : b ∈ unique l ↔ b ∈ l := by
  induction l with
  | nil => exact Iff.rfl
  | cons a l ih => rw [unique, mem_toFront, ih, List.mem_cons]

theorem nodup_unique (l : List α) : (unique l).Nodup := by
  induction l with
  | nil => exact List.nodup_nil
  | cons a l ih => exact nodup_toFront a ih

theorem mem_latest {b : α} {history : List α} : b ∈ latest history ↔ b ∈ history := by
  rw [latest, mem_unique, List.mem_reverse]

theorem nodup_latest (history : List α) : (latest history).Nodup := nodup_unique _

theorem length_latest (history : List α) : (latest history).length = history.toFinset.card := by
  rw [latest, ← List.toFinset_card_of_nodup (nodup_unique _)]
  congr 1
  ext b
  rw [List.mem_toFinset, List.mem_toFinset, mem_unique, List.mem_reverse]

theorem unique_append (xs ys : List α) : unique (xs ++ ys) = xs.foldr toFront (unique ys) := by
  induction xs with
  | nil => rfl
  | cons a xs ih => rw [List.cons_append, unique, ih, List.foldr_cons]

theorem unique_of_nodup {l : List α} (h : l.Nodup) : unique l = l := by
  induction l with
  | nil => rfl
  | cons a l ih =>
      rw [List.nodup_cons] at h
      rw [unique, ih h.2, toFront, List.filter_eq_self.mpr]
      intro b hb
      exact decide_eq_true fun heq => h.1 (heq ▸ hb)

/-! ## Bounded lists -/

/-- Without one of its elements, a list has its first `n` among its own first `n + 1`. -/
theorem take_filter_take (n : Nat) (a : α) {l : List α} (h : l.Nodup) :
    ((l.take (n + 1)).filter (· ≠ a)).take n = (l.filter (· ≠ a)).take n := by
  induction l generalizing n with
  | nil => rfl
  | cons b l ih =>
      rw [List.nodup_cons] at h
      by_cases hb : b = a
      · have hself : ∀ m, (l.take m).filter (· ≠ a) = l.take m := fun m =>
          List.filter_eq_self.mpr fun c hc =>
            decide_eq_true fun heq => h.1 (hb ▸ heq ▸ List.mem_of_mem_take hc)
        have hall : l.filter (· ≠ a) = l := List.filter_eq_self.mpr fun c hc =>
          decide_eq_true fun heq => h.1 (hb ▸ heq ▸ hc)
        rw [List.take_succ_cons, List.filter_cons_of_neg (by simp [hb]),
          List.filter_cons_of_neg (by simp [hb]), hself, hall, List.take_take, Nat.min_self]
      · rw [List.take_succ_cons, List.filter_cons_of_pos (by simp [hb]),
          List.filter_cons_of_pos (by simp [hb])]
        cases n with
        | zero => rfl
        | succ n => rw [List.take_succ_cons, List.take_succ_cons, ih n h.2]

theorem take_toFront_take (n : Nat) (a : α) {l : List α} (h : l.Nodup) :
    (toFront a (l.take n)).take n = (toFront a l).take n := by
  cases n with
  | zero => rfl
  | succ n => rw [toFront, toFront, List.take_succ_cons, List.take_succ_cons, take_filter_take n a h]

theorem nodup_foldr_toFront (xs : List α) {l : List α} (h : l.Nodup) :
    (xs.foldr toFront l).Nodup := by
  induction xs with
  | nil => exact h
  | cons a xs ih => exact nodup_toFront a ih

/-- The first `n` after a run of touches follow from the first `n` before it. -/
theorem take_foldr_toFront (n : Nat) (xs : List α) {l : List α} (h : l.Nodup) :
    (xs.foldr toFront (l.take n)).take n = (xs.foldr toFront l).take n := by
  induction xs with
  | nil => rw [List.foldr_nil, List.foldr_nil, List.take_take, Nat.min_self]
  | cons a xs ih =>
      have htake : (l.take n).Nodup := h.sublist (List.take_sublist n l)
      rw [List.foldr_cons, List.foldr_cons, ← take_toFront_take n a (nodup_foldr_toFront xs htake), ih,
        take_toFront_take n a (nodup_foldr_toFront xs h)]

theorem latest_append (earlier later : List α) :
    latest (earlier ++ later) = later.reverse.foldr toFront (latest earlier) := by
  rw [latest, List.reverse_append, unique_append, latest]

/-- A bounded list carried on from the earlier part of a history is that of the whole history. -/
theorem take_unique_append (n : Nat) (earlier later : List α) :
    (unique (later.reverse ++ (latest earlier).take n)).take n = (latest (earlier ++ later)).take n := by
  rw [unique_append, unique_of_nodup ((nodup_latest earlier).sublist (List.take_sublist _ _)),
    take_foldr_toFront n _ (nodup_latest earlier), latest_append]

/-- A thing is pushed out of the carried list when one was before or the list outgrows its bound. -/
theorem pushed_out_iff (n : Nat) (earlier later : List α) :
    n < (latest earlier).length ∨ n < (unique (later.reverse ++ (latest earlier).take n)).length ↔
      n < (latest (earlier ++ later)).length := by
  by_cases hmany : n < (latest earlier).length
  · have hgrows : (latest earlier).length ≤ (latest (earlier ++ later)).length := by
      rw [length_latest, length_latest, List.toFinset_append]
      exact Finset.card_le_card Finset.subset_union_left
    exact ⟨fun _ => hmany.trans_le hgrows, fun _ => Or.inl hmany⟩
  · rw [List.take_of_length_le (not_lt.mp hmany), or_iff_right hmany, unique_append,
      unique_of_nodup (nodup_latest earlier), latest_append]

end Recency
