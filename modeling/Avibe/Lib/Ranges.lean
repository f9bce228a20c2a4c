import Mathlib.Data.List.Basic
import Mathlib.Data.List.Forall2

/-!
# Ranges of a list

Half-open ranges of positions, cutting them out of a list, and writing over them. Both walk the
ranges in order with a cursor; on ranges in order, cutting keeps exactly the positions in none of
them, and two lists that agree position by position still do when both are cut.
-/

namespace Ranges

/-- The positions from the first number up to the second. -/
abbrev Span := Nat × Nat

/-- The position lies in one of the ranges. -/
def Inside (spans : List Span) (p : Nat) : Prop := ∃ r ∈ spans, r.1 ≤ p ∧ p < r.2

instance (spans : List Span) (p : Nat) : Decidable (Inside spans p) :=
  inferInstanceAs (Decidable (∃ r ∈ spans, r.1 ≤ p ∧ p < r.2))

/-- The ranges are not reversed and come one after the other. -/
structure Ordered (spans : List Span) : Prop where
  le : ∀ r ∈ spans, r.1 ≤ r.2
  apart : spans.Pairwise fun r s => r.2 ≤ s.1

theorem Ordered.of_cons {r : Span} {spans : List Span} (h : Ordered (r :: spans)) : Ordered spans :=
  ⟨fun s hs => h.le s (List.mem_cons_of_mem _ hs), (List.pairwise_cons.mp h.apart).2⟩

theorem ordered_nil : Ordered [] := ⟨fun r hr => (by cases hr), List.Pairwise.nil⟩

theorem inside_cons {r : Span} {spans : List Span} {p : Nat} :
    Inside (r :: spans) p ↔ (r.1 ≤ p ∧ p < r.2) ∨ Inside spans p := by
  simp [Inside]

variable {α β : Type}

/-- The members from one position up to another. -/
def slice (start stop : Nat) (l : List α) : List α := (l.take stop).drop start

theorem length_slice (start stop : Nat) (l : List α) :
    (slice start stop l).length = min stop l.length - start := by
  rw [slice, List.length_drop, List.length_take]

theorem slice_append_drop {start stop : Nat} (h : start ≤ stop) (l : List α) :
    slice start stop l ++ l.drop stop = l.drop start := by
  have hsplit := List.take_append_drop stop l
  conv_rhs => rw [← hsplit]
  rw [slice, List.drop_append, List.length_take]
  rcases Nat.le_total stop l.length with hstop | hstop
  · rw [Nat.min_eq_left hstop, Nat.sub_eq_zero_of_le h, List.drop_zero]
  · rw [List.drop_eq_nil_of_le hstop, List.drop_nil]

theorem forall₂_slice {R : α → β → Prop} {l : List α} {m : List β} (h : List.Forall₂ R l m)
    (start stop : Nat) : List.Forall₂ R (slice start stop l) (slice start stop m) :=
  List.forall₂_drop start (List.forall₂_take stop h)

/-! ## Cutting -/

def removeFrom (cursor : Nat) (l : List α) : List Span → List α
  | [] => l.drop cursor
  | r :: spans => slice cursor r.1 l ++ removeFrom r.2 l spans

/-- The list without the ranges. -/
def remove (l : List α) (spans : List Span) : List α := removeFrom 0 l spans

/-- Two lists that agree position by position agree after the same cuts. -/
theorem forall₂_removeFrom {R : α → β → Prop} {l : List α} {m : List β} (h : List.Forall₂ R l m)
    (spans : List Span) (cursor : Nat) :
    List.Forall₂ R (removeFrom cursor l spans) (removeFrom cursor m spans) := by
  induction spans generalizing cursor with
  | nil => exact List.forall₂_drop cursor h
  | cons r spans ih => exact List.rel_append (forall₂_slice h cursor r.1) (ih r.2)

theorem forall₂_remove {R : α → β → Prop} {l : List α} {m : List β} (h : List.Forall₂ R l m)
    (spans : List Span) : List.Forall₂ R (remove l spans) (remove m spans) :=
  forall₂_removeFrom h spans 0

/-- The members at the positions that satisfy a predicate, of a list whose first position is `n`. -/
def keepFrom (n : Nat) (p : Nat → Bool) (l : List α) : List α :=
  ((l.zipIdx n).filter fun c => p c.2).map Prod.fst

theorem keepFrom_all {n : Nat} {p : Nat → Bool} {l : List α}
    (h : ∀ i, n ≤ i → i < n + l.length → p i = true) : keepFrom n p l = l := by
  rw [keepFrom, List.filter_eq_self.mpr, List.zipIdx_map_fst]
  rintro ⟨a, i⟩ hmem
  exact h i (List.le_snd_of_mem_zipIdx hmem) (List.snd_lt_add_of_mem_zipIdx hmem)

theorem keepFrom_none {n : Nat} {p : Nat → Bool} {l : List α}
    (h : ∀ i, n ≤ i → i < n + l.length → p i = false) : keepFrom n p l = [] := by
  rw [keepFrom, List.filter_eq_nil_iff.mpr, List.map_nil]
  rintro ⟨a, i⟩ hmem
  simp [h i (List.le_snd_of_mem_zipIdx hmem) (List.snd_lt_add_of_mem_zipIdx hmem)]

theorem keepFrom_drop {start stop : Nat} (h : start ≤ stop) (p : Nat → Bool) (l : List α) :
    keepFrom start p (l.drop start) =
      keepFrom start p (slice start stop l) ++ keepFrom stop p (l.drop stop) := by
  rw [← slice_append_drop h l, keepFrom, List.zipIdx_append, List.filter_append, List.map_append]
  rcases Nat.le_total stop l.length with hstop | hstop
  · rw [length_slice, Nat.min_eq_left hstop, Nat.add_sub_cancel' h]
    rfl
  · rw [List.drop_eq_nil_of_le hstop]
    rfl

theorem removeFrom_eq {spans : List Span} (h : Ordered spans) (l : List α) {cursor : Nat}
    (hcursor : ∀ r ∈ spans, cursor ≤ r.1) :
    removeFrom cursor l spans =
      keepFrom cursor (fun i => !decide (Inside spans i)) (l.drop cursor) := by
  induction spans generalizing cursor with
  | nil => exact (keepFrom_all fun i _ _ => by simp [Inside]).symm
  | cons r spans ih =>
      have hr := h.le r List.mem_cons_self
      have hrest := (List.pairwise_cons.mp h.apart).1
      have hstart := hcursor r List.mem_cons_self
      rw [removeFrom, keepFrom_drop hstart, keepFrom_drop hr, ih h.of_cons hrest]
      have hbefore : keepFrom cursor (fun i => !decide (Inside (r :: spans) i))
          (slice cursor r.1 l) = slice cursor r.1 l := by
        refine keepFrom_all fun i _ hi => ?_
        have hlt : i < r.1 := by
          rw [length_slice] at hi
          omega
        have hout : ¬ Inside (r :: spans) i := by
          rw [inside_cons, not_or]
          refine ⟨fun hin => absurd hin.1 (by omega), ?_⟩
          rintro ⟨s, hs, hin⟩
          have := hrest s hs
          omega
        simp [hout]
      have hinside : keepFrom r.1 (fun i => !decide (Inside (r :: spans) i))
          (slice r.1 r.2 l) = [] := by
        refine keepFrom_none fun i hi hi' => ?_
        have hlt : i < r.2 := by
          rw [length_slice] at hi'
          omega
        simp [inside_cons, hi, hlt]
      have hafter : keepFrom r.2 (fun i => !decide (Inside (r :: spans) i)) (l.drop r.2) =
          keepFrom r.2 (fun i => !decide (Inside spans i)) (l.drop r.2) := by
        unfold keepFrom
        congr 1
        refine List.filter_congr ?_
        rintro ⟨a, i⟩ hmem
        have hi := List.le_snd_of_mem_zipIdx hmem
        have hiff : Inside (r :: spans) i ↔ Inside spans i := by
          rw [inside_cons]
          exact or_iff_right fun hin => absurd hin.2 (by simpa using hi)
        simp [hiff]
      rw [hbefore, hinside, hafter, List.nil_append]

/-- Cutting ordered ranges keeps the positions in none of them. -/
theorem remove_eq {spans : List Span} (h : Ordered spans) (l : List α) :
    remove l spans = keepFrom 0 (fun i => !decide (Inside spans i)) l := by
  rw [remove, removeFrom_eq h l (fun _ _ => Nat.zero_le _), List.drop_zero]

/-! ## Writing over -/

def overwriteFrom (f : α → α) (l : List α) : List Span → Nat → List α
  | [], cursor => l.drop cursor
  | r :: spans, cursor =>
      if r.1 < cursor then overwriteFrom f l spans cursor
      else slice cursor r.1 l ++ ((slice r.1 r.2 l).map f ++ overwriteFrom f l spans r.2)

/-- The list with the members in the ranges changed; a range that starts in one before it is left
out. -/
def overwrite (f : α → α) (l : List α) (spans : List Span) : List α := overwriteFrom f l spans 0

theorem forall₂_overwriteFrom {R : α → α → Prop} (hrefl : ∀ a, R a a) {f : α → α}
    (hf : ∀ a, R a (f a)) (l : List α) {spans : List Span} (h : ∀ r ∈ spans, r.1 ≤ r.2)
    (cursor : Nat) : List.Forall₂ R (l.drop cursor) (overwriteFrom f l spans cursor) := by
  have hself : ∀ m : List α, List.Forall₂ R m m := fun m => List.forall₂_same.mpr fun a _ => hrefl a
  induction spans generalizing cursor with
  | nil => exact hself _
  | cons r spans ih =>
      have ih := ih fun s hs => h s (List.mem_cons_of_mem _ hs)
      rw [overwriteFrom]
      split
      · exact ih cursor
      · rename_i hle
        rw [← slice_append_drop (Nat.not_lt.mp hle) l,
          ← slice_append_drop (h r List.mem_cons_self) l]
        refine List.rel_append (hself _) (List.rel_append ?_ (ih r.2))
        exact List.forall₂_map_right_iff.mpr (List.forall₂_same.mpr fun a _ => hf a)

/-- Each member of the list is as it was or changed. -/
theorem forall₂_overwrite {R : α → α → Prop} (hrefl : ∀ a, R a a) {f : α → α} (hf : ∀ a, R a (f a))
    (l : List α) {spans : List Span} (h : ∀ r ∈ spans, r.1 ≤ r.2) :
    List.Forall₂ R l (overwrite f l spans) := forall₂_overwriteFrom hrefl hf l h 0

/-! ## Splitting by containers -/

/-- The ranges that start outside the containers and those that start inside one; both lists are in
order, and the containers are walked once. -/
def partitionByStart : List Span → List Span → List Span × List Span
  | [], _ => ([], [])
  | r :: spans, containers =>
      let containers := containers.dropWhile fun c => c.2 ≤ r.1
      let rest := partitionByStart spans containers
      match containers with
      | [] => (r :: rest.1, rest.2)
      | c :: _ =>
          if c.1 ≤ r.1 ∧ r.1 < c.2 then (rest.1, r :: rest.2) else (r :: rest.1, rest.2)

theorem partitionByStart_fst_sublist (spans containers : List Span) :
    (partitionByStart spans containers).1.Sublist spans := by
  induction spans generalizing containers with
  | nil => exact List.Sublist.refl _
  | cons r spans ih =>
      rw [partitionByStart]
      split
      · exact (ih _).cons_cons r
      · split
        · exact (ih _).cons r
        · exact (ih _).cons_cons r

theorem partitionByStart_snd_sublist (spans containers : List Span) :
    (partitionByStart spans containers).2.Sublist spans := by
  induction spans generalizing containers with
  | nil => exact List.Sublist.refl _
  | cons r spans ih =>
      rw [partitionByStart]
      split
      · exact (ih _).cons r
      · split
        · exact (ih _).cons_cons r
        · exact (ih _).cons r

/-- What starts in no container is put outside. -/
theorem mem_partitionByStart_fst {r : Span} {spans containers : List Span} (hr : r ∈ spans)
    (h : ¬ Inside containers r.1) : r ∈ (partitionByStart spans containers).1 := by
  induction spans generalizing containers with
  | nil => cases hr
  | cons s spans ih =>
      have hsub : ∀ c ∈ containers.dropWhile fun c => c.2 ≤ s.1, c ∈ containers := fun c hc =>
        (List.dropWhile_sublist _).subset hc
      have hrest : ¬ Inside (containers.dropWhile fun c => c.2 ≤ s.1) r.1 :=
        fun ⟨c, hc, hin⟩ => h ⟨c, hsub c hc, hin⟩
      rw [partitionByStart]
      rcases List.mem_cons.mp hr with rfl | hr
      · split
        · exact List.mem_cons_self
        · rename_i c cs heq
          rw [if_neg]
          · exact List.mem_cons_self
          · exact fun hin => hrest ⟨c, by rw [heq]; exact List.mem_cons_self, hin⟩
      · have hmem := ih hr hrest
        split
        · exact List.mem_cons_of_mem _ hmem
        · split
          · exact hmem
          · exact List.mem_cons_of_mem _ hmem

end Ranges
