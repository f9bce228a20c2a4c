import Avibe.Lib.Machine
import Mathlib.Algebra.Order.Group.Int

/-!
# Newest wins

A cell with a value and the least revision it still takes. An offer with that revision or a later one
sets the value and raises the bound past itself; every other offer is refused. Where the offers of one
revision agree, the value after a run of offers does not depend on their order or repetition.
-/

namespace Newest

variable {V : Type}

structure Cell (V : Type) where
  next : Int
  value : V

structure Offer (V : Type) where
  revision : Int
  value : V

def Cell.offer (c : Cell V) (o : Offer V) : Cell V :=
  if c.next ≤ o.revision then ⟨o.revision + 1, o.value⟩ else c

/-- The cell after a run of offers holds the newest one that it took. -/
inductive Settled (c : Cell V) (offers : List (Offer V)) (c' : Cell V) : Prop
  | kept (h : ∀ o ∈ offers, o.revision < c.next) (heq : c' = c)
  | took (o : Offer V) (hmem : o ∈ offers) (hnew : c.next ≤ o.revision)
      (hmax : ∀ o' ∈ offers, o'.revision ≤ o.revision) (heq : c' = ⟨o.revision + 1, o.value⟩)

theorem settled_after (c : Cell V) (offers : List (Offer V)) :
    Settled c offers (Machine.after Cell.offer c offers) := by
  induction offers generalizing c with
  | nil => exact Settled.kept (fun _ h => by cases h) rfl
  | cons o offers ih =>
      rw [Machine.after_cons]
      by_cases hnew : c.next ≤ o.revision
      · have hoffer : c.offer o = ⟨o.revision + 1, o.value⟩ := if_pos hnew
        rw [hoffer]
        cases ih ⟨o.revision + 1, o.value⟩ with
        | kept hold heq =>
            apply Settled.took o List.mem_cons_self hnew _ heq
            intro o' ho'
            cases List.mem_cons.mp ho' with
            | inl h => exact h ▸ le_refl _
            | inr h => exact Int.lt_add_one_iff.mp (hold o' h)
        | took p hmem hlater hmax heq =>
            have hle : o.revision ≤ p.revision := (Int.lt_succ o.revision).le.trans hlater
            apply Settled.took p (List.mem_cons_of_mem _ hmem) (le_trans hnew hle) _ heq
            intro o' ho'
            cases List.mem_cons.mp ho' with
            | inl h => rw [h]; exact hle
            | inr h => exact hmax o' h
      · have hoffer : c.offer o = c := if_neg hnew
        rw [hoffer]
        cases ih c with
        | kept hold heq =>
            apply Settled.kept _ heq
            intro o' ho'
            cases List.mem_cons.mp ho' with
            | inl h => rw [h]; exact not_le.mp hnew
            | inr h => exact hold o' h
        | took p hmem hlater hmax heq =>
            apply Settled.took p (List.mem_cons_of_mem _ hmem) hlater _ heq
            intro o' ho'
            cases List.mem_cons.mp ho' with
            | inl h => rw [h]; exact (not_le.mp hnew).le.trans hlater
            | inr h => exact hmax o' h

/-- Offers with the same members, equal where their revisions are, settle on the same cell. -/
theorem settled_unique {c d d' : Cell V} {offers offers' : List (Offer V)}
    (hmem : ∀ o, o ∈ offers ↔ o ∈ offers')
    (hagree : ∀ o ∈ offers, ∀ p ∈ offers, o.revision = p.revision → o.value = p.value)
    (h : Settled c offers d) (h' : Settled c offers' d') : d = d' := by
  cases h with
  | kept hold heq =>
      cases h' with
      | kept _ heq' => rw [heq, heq']
      | took p hp hnew _ _ => exact absurd (hold p ((hmem p).mpr hp)) (not_lt.mpr hnew)
  | took o ho hnew hmax heq =>
      cases h' with
      | kept hold _ => exact absurd (hold o ((hmem o).mp ho)) (not_lt.mpr hnew)
      | took p hp _ hmax' heq' =>
          have hrevision : o.revision = p.revision :=
            le_antisymm (hmax' o ((hmem o).mp ho)) (hmax p ((hmem p).mpr hp))
          rw [heq, heq', hagree o ho p ((hmem p).mpr hp) hrevision, hrevision]

end Newest
