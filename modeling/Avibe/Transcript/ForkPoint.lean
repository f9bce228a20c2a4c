import Mathlib.Data.List.Dedup
import Avibe.Transcript.Rows

/-!
# Fork points

The anchor of a new fork, resolved once from the rows its source loads: the
largest settled point before an unfinished Turn, or a point that a system
mechanism names. Which rows are settled is a parameter.
-/

namespace Avibe.Transcript

open Checked SortOn

variable {α : Type}

inductive ForkPointError where
  | unsettled
  | outOfRange
  deriving DecidableEq, Repr

/-- The largest sequence number of a list of entries, or zero. -/
def topSeq (entries : List (Entry α)) : Nat :=
  ((entries.map Entry.contextSeq).max?).getD 0

/-- The rows up to a point. -/
def upTo (entries : List (Entry α)) (asOf : Nat) : List (Entry α) :=
  entries.filter fun e => e.contextSeq ≤ asOf

/-- The sequence numbers before the first input of an unfinished Turn, the
largest first. -/
def cutCandidates (entries : List (Entry α)) (unendedInputSeq : Option Nat) : List Nat :=
  (sortOn id ((entries.map Entry.contextSeq).filter fun n =>
    match unendedInputSeq with
    | none => true
    | some u => n < u).dedup).reverse

section Settled

variable (settled : List (Entry α) → Bool)

def latestCut (entries : List (Entry α)) (unendedInputSeq : Option Nat) : Nat :=
  ((cutCandidates entries unendedInputSeq).find? fun n => settled (upTo entries n)).getD 0

/-- A point that a system mechanism names. -/
def forkPoint (entries : List (Entry α)) (asOf : Int) : Except ForkPointError Nat := do
  require (0 ≤ asOf ∧ asOf ≤ topSeq entries) .outOfRange
  require (settled (upTo entries asOf.toNat) = true) .unsettled
  return asOf.toNat

/-- The fork point of a new fork, from the rows its source loads. -/
def resolveForkPoint (entries : List (Entry α)) (asOf : Option Int)
    (unendedInputSeq : Option Nat) : Except ForkPointError Nat :=
  match asOf with
  | some asOf => forkPoint settled entries asOf
  | none => .ok (latestCut settled entries unendedInputSeq)

theorem le_topSeq {entries : List (Entry α)} {e : Entry α} (he : e ∈ entries) :
    e.contextSeq ≤ topSeq entries := by
  unfold topSeq
  have hin : e.contextSeq ∈ entries.map Entry.contextSeq := List.mem_map.mpr ⟨e, he, rfl⟩
  cases h : (entries.map Entry.contextSeq).max? with
  | none =>
      rw [max?_eq_none h] at hin
      simp at hin
  | some top => exact (List.max?_eq_some_iff.mp h).2 _ hin

theorem topSeq_lt {entries : List (Entry α)} {n : Nat} (hpos : 0 < n)
    (h : ∀ e ∈ entries, e.contextSeq < n) : topSeq entries < n := by
  unfold topSeq
  cases hm : (entries.map Entry.contextSeq).max? with
  | none => exact hpos
  | some top =>
      obtain ⟨e, he, rfl⟩ := List.mem_map.mp (List.max?_eq_some_iff.mp hm).1
      exact h e he

theorem latestCut_le (entries : List (Entry α)) (unended : Option Nat) :
    latestCut settled entries unended ≤ topSeq entries := by
  unfold latestCut
  cases hf : (cutCandidates entries unended).find? fun n => settled (upTo entries n) with
  | none => simp
  | some n =>
      have hn := List.mem_of_find?_eq_some hf
      simp only [cutCandidates, List.mem_reverse, mem_sortOn, List.mem_dedup,
        List.mem_filter, List.mem_map] at hn
      obtain ⟨⟨e, he, rfl⟩, -⟩ := hn
      exact le_topSeq he

/-- A resolved point is not past the rows of the source. -/
theorem resolveForkPoint_le {entries : List (Entry α)} {asOf : Option Int}
    {unended : Option Nat} {point : Nat}
    (h : resolveForkPoint settled entries asOf unended = .ok point) :
    point ≤ topSeq entries := by
  cases asOf with
  | some asOf =>
      obtain ⟨hrange, h⟩ := require_bind_ok h
      obtain ⟨-, h⟩ := require_bind_ok h
      obtain rfl := pure_ok h
      omega
  | none =>
      obtain rfl := Except.ok.inj h
      exact latestCut_le settled entries unended

end Settled

end Avibe.Transcript
