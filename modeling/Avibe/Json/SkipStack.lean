import Mathlib.Data.Nat.Bitwise

/-!
# The packed skip stack

An unrelated subtree is skipped with a stack of grammar states packed into integers,
three bits a state and sixty-four states an integer. The list has the integer of the
top first.
-/

namespace Avibe.Json

inductive SkipState where
  | mapKeyOrEnd
  | mapKey
  | mapColon
  | mapValue
  | mapCommaOrEnd
  | arrayValueOrEnd
  | arrayValue
  | arrayCommaOrEnd
  deriving DecidableEq, Repr

def SkipState.code : SkipState → Nat
  | .mapKeyOrEnd => 0
  | .mapKey => 1
  | .mapColon => 2
  | .mapValue => 3
  | .mapCommaOrEnd => 4
  | .arrayValueOrEnd => 5
  | .arrayValue => 6
  | .arrayCommaOrEnd => 7

def SkipState.ofCode : Nat → SkipState
  | 0 => .mapKeyOrEnd
  | 1 => .mapKey
  | 2 => .mapColon
  | 3 => .mapValue
  | 4 => .mapCommaOrEnd
  | 5 => .arrayValueOrEnd
  | 6 => .arrayValue
  | _ => .arrayCommaOrEnd

theorem SkipState.ofCode_code (state : SkipState) : ofCode state.code = state := by
  cases state <;> rfl

theorem SkipState.code_lt (state : SkipState) : state.code < 8 := by
  cases state <;> decide

def skipStateBits : Nat := 3

def skipStateMask : Nat := 1 <<< skipStateBits - 1

def skipStatesPerChunk : Nat := 64

structure SkipStack where
  depth : Nat
  chunks : List Nat
  deriving DecidableEq, Repr

namespace SkipStack

def empty : SkipStack := ⟨0, []⟩

/-- `_push_skip_state` -/
def push (s : SkipStack) (state : SkipState) : SkipStack :=
  let slot := s.depth % skipStatesPerChunk
  let chunks := if slot = 0 then 0 :: s.chunks else s.chunks
  { depth := s.depth + 1
    chunks := chunks.modifyHead fun chunk => chunk ||| state.code <<< (slot * skipStateBits) }

/-- `_set_skip_state` -/
def set (s : SkipStack) (state : SkipState) : SkipStack :=
  let slot := (s.depth - 1) % skipStatesPerChunk
  let shift := slot * skipStateBits
  let mask := skipStateMask <<< shift
  { s with chunks := s.chunks.modifyHead fun chunk => chunk.ldiff mask ||| state.code <<< shift }

/-- `_skip_state` -/
def state (s : SkipStack) : SkipState :=
  let slot := (s.depth - 1) % skipStatesPerChunk
  .ofCode (s.chunks.headD 0 >>> (slot * skipStateBits) &&& skipStateMask)

/-- `_pop_skip_state`, apart from the value that ends with the last state. -/
def pop (s : SkipStack) : SkipStack :=
  let slot := (s.depth - 1) % skipStatesPerChunk
  { depth := s.depth - 1
    chunks :=
      if slot = 0 then s.chunks.tail
      else
        let shift := slot * skipStateBits
        s.chunks.modifyHead fun chunk => chunk.ldiff (skipStateMask <<< shift) }

/-! ## The stack that is packed -/

/-- The integers of a stack whose top is the first state. -/
def packed : List SkipState → List Nat
  | [] => []
  | state :: below =>
      let slot := below.length % skipStatesPerChunk
      if slot = 0 then state.code :: packed below
      else (packed below).modifyHead fun chunk => chunk + state.code * 2 ^ (slot * skipStateBits)

def Packs (s : SkipStack) (states : List SkipState) : Prop :=
  s.depth = states.length ∧ s.chunks = packed states

/-! ## Fields of an integer -/

theorem or_field {lo k : Nat} (h : lo < 2 ^ k) (q : Nat) : lo ||| q <<< k = lo + q * 2 ^ k := by
  rw [Nat.shiftLeft_eq, Nat.or_comm, Nat.mul_comm q, ← Nat.two_pow_add_eq_or_of_lt h, Nat.add_comm]

theorem ldiff_field {lo k q : Nat} (h : lo < 2 ^ k) (hq : q < 8) :
    (lo + q * 2 ^ k).ldiff (skipStateMask <<< k) = lo := by
  refine Nat.eq_of_testBit_eq fun j => ?_
  rw [Nat.testBit_ldiff, Nat.add_comm, Nat.mul_comm, Nat.testBit_two_pow_mul_add q h,
    Nat.testBit_shiftLeft]
  by_cases hj : j < k
  · simp [hj, Nat.not_le.mpr hj]
  · have hlo : lo.testBit j = false :=
      Nat.testBit_lt_two_pow (Nat.lt_of_lt_of_le h (Nat.pow_le_pow_right (by decide) (by omega)))
    have hmask : skipStateMask.testBit (j - k) = decide (j - k < 3) :=
      Nat.testBit_two_pow_sub_one 3 (j - k)
    have hqj : 3 ≤ j - k → q.testBit (j - k) = false := fun h3 =>
      Nat.testBit_lt_two_pow (Nat.lt_of_lt_of_le hq (Nat.pow_le_pow_right (n := 2) (i := 3) (by decide) h3))
    by_cases h3 : j - k < 3
    · simp [hj, Nat.not_lt.mp hj, hmask, h3, hlo]
    · simp [hj, hqj (Nat.not_lt.mp h3), hlo]

theorem field {lo k q : Nat} (h : lo < 2 ^ k) (hq : q < 8) :
    (lo + q * 2 ^ k) >>> k &&& skipStateMask = q := by
  have hmask : skipStateMask = 2 ^ 3 - 1 := rfl
  rw [Nat.shiftRight_eq_div_pow, Nat.add_mul_div_right _ _ (Nat.two_pow_pos k),
    Nat.div_eq_of_lt h, Nat.zero_add, hmask, Nat.and_two_pow_sub_one_eq_mod]
  exact Nat.mod_eq_of_lt hq

/-! ## The integer of the top -/

/-- The bits below the next state, in the integer that takes it. -/
def low (below : List SkipState) : Nat :=
  if below.length % skipStatesPerChunk = 0 then 0 else (packed below).headD 0

/-- The integers below the one that takes the next state. -/
def others (below : List SkipState) : List Nat :=
  if below.length % skipStatesPerChunk = 0 then packed below else (packed below).tail

def shift (below : List SkipState) : Nat := below.length % skipStatesPerChunk * skipStateBits

theorem packed_ne_nil {state : SkipState} {below : List SkipState} :
    packed (state :: below) ≠ [] := by
  induction below generalizing state with
  | nil => simp [packed]
  | cons state' below ih =>
      rw [packed]
      split
      · simp
      · rw [ne_eq, List.modifyHead_eq_nil_iff]
        exact ih

/-- The integers that the next state is written to. -/
theorem low_others (below : List SkipState) :
    (if below.length % skipStatesPerChunk = 0 then 0 :: packed below else packed below) =
      low below :: others below := by
  unfold low others
  split
  · rfl
  · rename_i hslot
    cases below with
    | nil => exact absurd rfl hslot
    | cons state below =>
        cases hp : packed (state :: below) with
        | nil => exact absurd hp packed_ne_nil
        | cons chunk chunks => rfl

theorem packed_cons (state : SkipState) (below : List SkipState) :
    packed (state :: below) =
      (low below + state.code * 2 ^ shift below) :: others below := by
  have hlow := low_others below
  rw [packed]
  split
  · rename_i hslot
    simp only [hslot, if_true] at hlow
    simp only [List.cons.injEq] at hlow
    rw [← hlow.1, ← hlow.2, shift, hslot]
    simp
  · rename_i hslot
    rw [if_neg hslot] at hlow
    rw [hlow]
    rfl

theorem low_lt (below : List SkipState) : low below < 2 ^ shift below := by
  induction below with
  | nil => decide
  | cons state below ih =>
      unfold low
      split
      · exact Nat.two_pow_pos _
      · rename_i hslot
        have hshift : shift (state :: below) = shift below + 3 := by
          simp only [shift, skipStatesPerChunk, skipStateBits, List.length_cons] at hslot ⊢
          omega
        have hcode := Nat.mul_le_mul_right (2 ^ shift below) (Nat.le_pred_of_lt state.code_lt)
        rw [packed_cons, hshift, Nat.pow_add]
        simp only [List.headD_cons]
        simp only [Nat.pred_eq_sub_one, Nat.reduceSub] at hcode
        omega

/-! ## The operations are those of a stack -/

theorem packs_empty : Packs empty [] := ⟨rfl, rfl⟩

theorem Packs.push {s : SkipStack} {below : List SkipState} (h : Packs s below)
    (state : SkipState) : Packs (s.push state) (state :: below) := by
  obtain ⟨hdepth, hchunks⟩ := h
  refine ⟨congrArg (· + 1) hdepth, ?_⟩
  rw [packed_cons, ← or_field (low_lt below)]
  simp only [SkipStack.push, hdepth, hchunks, low_others, List.modifyHead_cons]
  rfl

theorem Packs.state {s : SkipStack} {state : SkipState} {below : List SkipState}
    (h : Packs s (state :: below)) : s.state = state := by
  obtain ⟨hdepth, hchunks⟩ := h
  have hfield := field (low_lt below) state.code_lt
  simp only [SkipStack.state, hdepth, hchunks, packed_cons, List.length_cons, Nat.add_sub_cancel,
    List.headD_cons]
  rw [shift] at hfield
  rw [shift, hfield, SkipState.ofCode_code]

theorem Packs.set {s : SkipStack} {state : SkipState} {below : List SkipState}
    (h : Packs s (state :: below)) (next : SkipState) : Packs (s.set next) (next :: below) := by
  obtain ⟨hdepth, hchunks⟩ := h
  refine ⟨hdepth, ?_⟩
  have hclear := ldiff_field (low_lt below) state.code_lt
  rw [packed_cons, ← or_field (low_lt below)]
  simp only [SkipStack.set, hdepth, hchunks, packed_cons, List.length_cons, Nat.add_sub_cancel,
    List.modifyHead_cons]
  rw [shift] at hclear ⊢
  rw [hclear]

theorem Packs.pop {s : SkipStack} {state : SkipState} {below : List SkipState}
    (h : Packs s (state :: below)) : Packs s.pop below := by
  obtain ⟨hdepth, hchunks⟩ := h
  have hclear := ldiff_field (low_lt below) state.code_lt
  have hlow := low_others below
  refine ⟨by simp [SkipStack.pop, hdepth], ?_⟩
  simp only [SkipStack.pop, hdepth, hchunks, packed_cons, List.length_cons, Nat.add_sub_cancel,
    List.modifyHead_cons, List.tail_cons]
  split
  · rename_i hslot
    rw [others, if_pos hslot]
  · rename_i hslot
    rw [if_neg hslot] at hlow
    rw [shift] at hclear ⊢
    rw [hclear, hlow]

/-- The depth is zero for the empty stack alone. -/
theorem Packs.depth_eq_zero {s : SkipStack} {states : List SkipState} (h : Packs s states) :
    s.depth = 0 ↔ states = [] := by
  rw [h.1, List.length_eq_zero_iff]

end SkipStack

end Avibe.Json
