import Avibe.Lib.Utf8

/-!
# Strict UTF-8 decoders

The incremental decoder with the error handler `strict` keeps the bytes of a
sequence that is not complete yet and fails at the first byte that no well-formed
sequence has there.
-/

namespace Utf8

/-- One well-formed sequence. -/
inductive Sequence : List UInt8 → Prop where
  | ascii {a : UInt8} (ha : lead a = .ascii) : Sequence [a]
  | two {a b : UInt8} (ha : lead a = .two) (hb : isContinuation b = true) : Sequence [a, b]
  | three {a b c low high : UInt8} (ha : lead a = .three low high)
      (hb : within low high b = true) (hc : isContinuation c = true) : Sequence [a, b, c]
  | four {a b c d low high : UInt8} (ha : lead a = .four low high)
      (hb : within low high b = true) (hc : isContinuation c = true)
      (hd : isContinuation d = true) : Sequence [a, b, c, d]

/-- The bytes that the decoder keeps after one more byte; none when it fails. -/
def feed : List UInt8 → UInt8 → Option (List UInt8)
  | [], b =>
      match lead b with
      | .ascii => some []
      | .invalid => none
      | _ => some [b]
  | [a], b =>
      match lead a with
      | .two => if isContinuation b then some [] else none
      | .three low high => if within low high b then some [a, b] else none
      | .four low high => if within low high b then some [a, b] else none
      | _ => none
  | [a, b], c =>
      match lead a with
      | .three _ _ => if isContinuation c then some [] else none
      | .four _ _ => if isContinuation c then some [a, b, c] else none
      | _ => none
  | [_, _, _], d => if isContinuation d then some [] else none
  | _, _ => none

theorem lead_ascii {b : UInt8} : lead b = .ascii ↔ b < 0x80 := by
  unfold lead
  split
  · rename_i h
    exact iff_of_true rfl h
  · rename_i h
    refine iff_of_false (fun hl => ?_) h
    repeat' split at hl
    all_goals cases hl

/-- An ASCII byte is no continuation. -/
theorem not_isContinuation {b : UInt8} (h : b < 0x80) : isContinuation b = false := by
  have hnot : ¬ (0x80 : UInt8) ≤ b := UInt8.not_le.mpr h
  simp [isContinuation, within, hnot]

theorem lead_low {a low high : UInt8}
    (h : lead a = .three low high ∨ lead a = .four low high) : 0x80 ≤ low := by
  unfold lead at h
  repeat' split at h
  all_goals rcases h with h | h <;> cases h <;> decide

theorem not_within {a b low high : UInt8}
    (h : lead a = .three low high ∨ lead a = .four low high) (hb : b < 0x80) :
    within low high b = false := by
  have hlow := lead_low h
  have hnot : ¬ low ≤ b := fun hle => absurd (UInt8.le_trans hlow hle) (UInt8.not_le.mpr hb)
  simp [within, hnot]

@[simp] theorem feed_nil_ascii {b : UInt8} (h : b < 0x80) : feed [] b = some [] := by
  simp [feed, lead_ascii.mpr h]

/-- Only a continuation follows a byte that is kept. -/
theorem feed_of_ascii {pending next : List UInt8} {b : UInt8} (hb : b < 0x80)
    (h : feed pending b = some next) : pending = [] ∧ next = [] := by
  have hc := not_isContinuation hb
  match pending with
  | [] =>
      rw [feed_nil_ascii hb] at h
      cases h
      exact ⟨rfl, rfl⟩
  | [a] =>
      simp only [feed] at h
      split at h
      · simp [hc] at h
      · rename_i low high hl
        simp [not_within (.inl hl) hb] at h
      · rename_i low high hl
        simp [not_within (.inr hl) hb] at h
      · cases h
  | [a, c] =>
      simp only [feed, hc] at h
      split at h <;> cases h
  | [a, c, d] => simp [feed, hc] at h
  | _ :: _ :: _ :: _ :: _ => cases h

/-- The bytes kept are the start of a sequence. -/
inductive Kept : List UInt8 → Prop where
  | none : Kept []
  | one {a : UInt8} (ha : lead a ≠ .ascii) (ha' : lead a ≠ .invalid) : Kept [a]
  | two {a b low high : UInt8} (ha : lead a = .three low high ∨ lead a = .four low high)
      (hb : within low high b = true) : Kept [a, b]
  | three {a b c low high : UInt8} (ha : lead a = .four low high)
      (hb : within low high b = true) (hc : isContinuation c = true) : Kept [a, b, c]

/-- A byte completes the sequence that was started, or is kept with it. -/
theorem Kept.feed {pending next : List UInt8} {b : UInt8} (hk : Kept pending)
    (h : feed pending b = some next) :
    (next = [] ∧ Sequence (pending ++ [b])) ∨ (next = pending ++ [b] ∧ Kept (pending ++ [b])) := by
  cases hk with
  | none =>
      simp only [Utf8.feed] at h
      split at h
      · rename_i hl
        cases h
        exact .inl ⟨rfl, .ascii hl⟩
      · cases h
      · rename_i hl hl'
        cases h
        exact .inr ⟨rfl, .one hl hl'⟩
  | one ha ha' =>
      simp only [Utf8.feed] at h
      split at h
      · rename_i hl
        split at h
        · rename_i hb
          cases h
          exact .inl ⟨rfl, .two hl hb⟩
        · cases h
      · rename_i low high hl
        split at h
        · rename_i hb
          cases h
          exact .inr ⟨rfl, .two (.inl hl) hb⟩
        · cases h
      · rename_i low high hl
        split at h
        · rename_i hb
          cases h
          exact .inr ⟨rfl, .two (.inr hl) hb⟩
        · cases h
      · cases h
  | two ha hw =>
      simp only [Utf8.feed] at h
      split at h
      · rename_i low high hl
        split at h
        · rename_i hb
          cases h
          rcases ha with ha | ha
          · cases hl.symm.trans ha
            exact .inl ⟨rfl, .three hl hw hb⟩
          · cases hl.symm.trans ha
        · cases h
      · rename_i low high hl
        split at h
        · rename_i hb
          cases h
          rcases ha with ha | ha
          · cases hl.symm.trans ha
          · cases hl.symm.trans ha
            exact .inr ⟨rfl, .three hl hw hb⟩
        · cases h
      · cases h
  | three ha hw hc =>
      simp only [Utf8.feed] at h
      split at h
      · rename_i hb
        cases h
        exact .inl ⟨rfl, .four ha hw hc hb⟩
      · cases h

/-- The bytes of a character of more than one byte are not ASCII. -/
theorem Sequence.ascii_or_high {bytes : List UInt8} (h : Sequence bytes) :
    (∃ a, bytes = [a] ∧ a < 0x80) ∨ ∀ b ∈ bytes, 0x80 ≤ b := by
  have hlead : ∀ {a : UInt8}, lead a ≠ .ascii → 0x80 ≤ a := fun ha =>
    UInt8.not_lt.mp fun hlt => ha (lead_ascii.mpr hlt)
  have hcont : ∀ {a : UInt8}, isContinuation a = true → 0x80 ≤ a := by
    intro a ha
    refine UInt8.not_lt.mp fun hlt => ?_
    rw [not_isContinuation hlt] at ha
    cases ha
  have hwithin : ∀ {a b low high : UInt8},
      (lead a = .three low high ∨ lead a = .four low high) →
      within low high b = true → 0x80 ≤ b := by
    intro a b low high ha hb
    refine UInt8.not_lt.mp fun hlt => ?_
    rw [not_within ha hlt] at hb
    cases hb
  cases h with
  | ascii ha => exact .inl ⟨_, rfl, lead_ascii.mp ha⟩
  | two ha hb =>
      refine .inr ?_
      simp only [List.forall_mem_cons]
      exact ⟨hlead (by simp [ha]), hcont hb, by simp⟩
  | three ha hb hc =>
      refine .inr ?_
      simp only [List.forall_mem_cons]
      exact ⟨hlead (by simp [ha]), hwithin (.inl ha) hb, hcont hc, by simp⟩
  | four ha hb hc hd =>
      refine .inr ?_
      simp only [List.forall_mem_cons]
      exact ⟨hlead (by simp [ha]), hwithin (.inr ha) hb, hcont hc, hcont hd, by simp⟩

/-- A sequence that starts with an ASCII byte is that byte. -/
theorem Sequence.eq_singleton {char : List UInt8} (h : Sequence char) {a : UInt8}
    {rest bytes : List UInt8} (hc : char ++ rest = a :: bytes) (ha : a < 0x80) : char = [a] := by
  rcases h.ascii_or_high with ⟨b, rfl, -⟩ | hhigh
  · cases hc
    rfl
  · cases char with
    | nil => cases h
    | cons b char =>
        cases hc
        exact absurd (hhigh a (by simp)) (UInt8.not_le.mpr ha)

/-- A sequence leaves nothing kept. -/
theorem Sequence.foldlM_feed {bytes : List UInt8} (h : Sequence bytes) :
    bytes.foldlM Utf8.feed [] = some [] := by
  cases h with
  | ascii ha => simp [Utf8.feed, ha]
  | two ha hb => simp [Utf8.feed, ha, hb]
  | three ha hb hc => simp [Utf8.feed, ha, hb, hc]
  | four ha hb hc hd => simp [Utf8.feed, ha, hb, hc, hd]

end Utf8
