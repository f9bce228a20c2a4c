import Mathlib.Data.List.Basic

/-!
# Replacing UTF-8 decoders

`decode final bytes` is the UTF-8 decoder with the error handler `replace`: it
returns the decoded text and the bytes it leaves undecoded. An ill-formed
sequence becomes one replacement character for its maximal valid prefix. A
well-formed sequence that the end of the input cuts is left undecoded, unless
`final` says that no more input comes; then it is one replacement character.

The incremental decoder keeps the undecoded bytes and puts them before its next
input. `decode_append` is the statement that makes it independent of the cut.
-/

namespace Utf8

/-- The character an ill-formed sequence is replaced by. -/
def replacement : Char := Char.ofNat 0xFFFD

/-- What the first byte of a sequence announces. A three or four byte sequence
bounds its second byte, which excludes overlong forms and surrogates. -/
inductive Lead where
  | ascii
  | two
  | three (low high : UInt8)
  | four (low high : UInt8)
  | invalid
  deriving DecidableEq

def lead (b : UInt8) : Lead :=
  if b < 0x80 then .ascii
  else if b < 0xC2 then .invalid
  else if b < 0xE0 then .two
  else if b = 0xE0 then .three 0xA0 0xBF
  else if b = 0xED then .three 0x80 0x9F
  else if b < 0xF0 then .three 0x80 0xBF
  else if b = 0xF0 then .four 0x90 0xBF
  else if b < 0xF4 then .four 0x80 0xBF
  else if b = 0xF4 then .four 0x80 0x8F
  else .invalid

/-- `b` lies between `low` and `high`. -/
def within (low high b : UInt8) : Bool := low ≤ b && b ≤ high

def isContinuation (b : UInt8) : Bool := within 0x80 0xBF b

/-- The payload bits of a continuation byte. -/
def bits (b : UInt8) : Nat := b.toNat % 0x40

/-- The first character of `b :: rest` and the bytes after it; `none` when the
end of the input cuts a well-formed sequence. -/
def head (b : UInt8) (rest : List UInt8) : Option (Char × List UInt8) :=
  match lead b, rest with
  | .ascii, rest => some (Char.ofNat b.toNat, rest)
  | .invalid, rest => some (replacement, rest)
  | _, [] => none
  | .two, b₁ :: rest₁ =>
      if isContinuation b₁ then
        some (Char.ofNat (b.toNat % 0x20 * 0x40 + bits b₁), rest₁)
      else some (replacement, b₁ :: rest₁)
  | .three low high, b₁ :: rest₁ =>
      if within low high b₁ then
        match rest₁ with
        | [] => none
        | b₂ :: rest₂ =>
            if isContinuation b₂ then
              some (Char.ofNat
                ((b.toNat % 0x10 * 0x40 + bits b₁) * 0x40 + bits b₂), rest₂)
            else some (replacement, b₂ :: rest₂)
      else some (replacement, b₁ :: rest₁)
  | .four low high, b₁ :: rest₁ =>
      if within low high b₁ then
        match rest₁ with
        | [] => none
        | b₂ :: rest₂ =>
            if isContinuation b₂ then
              match rest₂ with
              | [] => none
              | b₃ :: rest₃ =>
                  if isContinuation b₃ then
                    some (Char.ofNat
                      (((b.toNat % 0x08 * 0x40 + bits b₁) * 0x40 + bits b₂) * 0x40
                        + bits b₃), rest₃)
                  else some (replacement, b₃ :: rest₃)
            else some (replacement, b₂ :: rest₂)
      else some (replacement, b₁ :: rest₁)

/-- The decoder on at most `n` characters. -/
def decodeN (final : Bool) : Nat → List UInt8 → List Char × List UInt8
  | 0, bytes => ([], bytes)
  | _ + 1, [] => ([], [])
  | n + 1, b :: rest =>
      match head b rest with
      | none => if final then ([replacement], []) else ([], b :: rest)
      | some (c, rest') =>
          let r := decodeN final n rest'
          (c :: r.1, r.2)

/-- Every character takes at least one byte, so the length is enough. -/
def decode (final : Bool) (bytes : List UInt8) : List Char × List UInt8 :=
  decodeN final bytes.length bytes

theorem head_length {b : UInt8} {rest : List UInt8} {c : Char} {rest' : List UInt8}
    (h : head b rest = some (c, rest')) : rest'.length ≤ rest.length := by
  unfold head at h
  split at h <;> grind

/-- More input after a whole first character does not change it. -/
theorem head_append {b : UInt8} {rest : List UInt8} {c : Char} {rest' : List UInt8}
    (more : List UInt8) (h : head b rest = some (c, rest')) :
    head b (rest ++ more) = some (c, rest' ++ more) := by
  unfold head at h ⊢
  split at h <;> grind

theorem decodeN_of_le (final : Bool) {n m : Nat} (bytes : List UInt8)
    (hn : bytes.length ≤ n) (hm : bytes.length ≤ m) :
    decodeN final n bytes = decodeN final m bytes := by
  induction n generalizing m bytes with
  | zero =>
      obtain rfl : bytes = [] := List.eq_nil_of_length_eq_zero (by omega)
      cases m <;> rfl
  | succ n ih =>
      cases bytes with
      | nil => cases m <;> rfl
      | cons b rest =>
          cases m with
          | zero => simp at hm
          | succ m =>
              simp only [decodeN]
              cases h : head b rest with
              | none => rfl
              | some p =>
                  obtain ⟨c, rest'⟩ := p
                  have hlen := head_length h
                  simp only [List.length_cons] at hn hm
                  simp only [ih rest' (m := m) (by omega) (by omega)]

@[simp] theorem decode_nil (final : Bool) : decode final [] = ([], []) := rfl

theorem decode_cons_none (final : Bool) {b : UInt8} {rest : List UInt8}
    (h : head b rest = none) :
    decode final (b :: rest) =
      if final then ([replacement], []) else ([], b :: rest) := by
  simp [decode, decodeN, h]

theorem decode_cons_some (final : Bool) {b : UInt8} {rest : List UInt8} {c : Char}
    {rest' : List UInt8} (h : head b rest = some (c, rest')) :
    decode final (b :: rest) =
      (c :: (decode final rest').1, (decode final rest').2) := by
  have hlen := head_length h
  simp only [decode, List.length_cons, decodeN, h]
  rw [decodeN_of_le final rest' hlen (Nat.le_refl _)]

/-- Decoding splits an appended input: what the first part leaves undecoded
goes before the second part. -/
theorem decode_append (final : Bool) (a b : List UInt8) :
    decode final (a ++ b) =
      ((decode false a).1 ++ (decode final ((decode false a).2 ++ b)).1,
        (decode final ((decode false a).2 ++ b)).2) := by
  induction hn : a.length using Nat.strongRecOn generalizing a with
  | ind n ih =>
      cases a with
      | nil => simp
      | cons x rest =>
          cases h : head x rest with
          | none => simp [decode_cons_none false h]
          | some p =>
              obtain ⟨c, rest'⟩ := p
              have hlen := head_length h
              simp only [List.length_cons] at hn
              have hrest := ih rest'.length (by omega) rest' rfl
              rw [List.cons_append, decode_cons_some final (head_append b h),
                decode_cons_some false h, hrest]
              simp

/-! ## Bytes that are held back -/

/-- The input is one sequence that its end cuts, or empty. -/
def Cut (bytes : List UInt8) : Prop := decode false bytes = ([], bytes)

theorem cut_nil : Cut [] := rfl

/-- What the decoder leaves undecoded is cut. -/
theorem decode_snd_cut (bytes : List UInt8) : Cut (decode false bytes).2 := by
  have h := decode_append false bytes []
  have hl := congrArg (fun r => r.1.length) h
  have h2 := congrArg Prod.snd h
  simp only [List.append_nil, List.length_append] at hl h2
  have h1 : (decode false (decode false bytes).2).1 = [] :=
    List.eq_nil_of_length_eq_zero (by omega)
  exact Prod.ext h1 h2.symm

theorem Cut.head_none {b : UInt8} {rest : List UInt8} (h : Cut (b :: rest)) :
    head b rest = none := by
  cases hh : head b rest with
  | none => rfl
  | some p =>
      obtain ⟨c, rest'⟩ := p
      rw [Cut, decode_cons_some false hh] at h
      simp at h

/-- At the end of the input a cut sequence is one replacement character. -/
theorem Cut.decode_true {bytes : List UInt8} (h : Cut bytes) :
    (decode true bytes).1 = [] ∨ (decode true bytes).1 = [replacement] := by
  cases bytes with
  | nil => exact .inl rfl
  | cons b rest =>
      right
      rw [decode_cons_none true h.head_none]
      rfl

/-- One more byte leaves a sequence cut, completes it, or is the first byte
after it. -/
theorem head_concat {x : UInt8} {rest : List UInt8} (b : UInt8)
    (h : head x rest = none) :
    head x (rest ++ [b]) = none ∨ (∃ c, head x (rest ++ [b]) = some (c, [])) ∨
      head x (rest ++ [b]) = some (replacement, [b]) := by
  unfold head at h ⊢
  split at h <;> grind

theorem decode_singleton (b : UInt8) :
    (decode false [b]).1 = [] ∨ ∃ c, (decode false [b]).1 = [c] := by
  cases h : head b [] with
  | none => exact .inl (by rw [decode_cons_none false h]; rfl)
  | some p =>
      obtain ⟨c, rest⟩ := p
      have hlen := head_length h
      obtain rfl : rest = [] := List.eq_nil_of_length_eq_zero (by simpa using hlen)
      exact .inr ⟨c, by rw [decode_cons_some false h]; simp⟩

/-- One byte after a cut sequence decodes to at most one character, after a
replacement character for the sequence when it breaks it. -/
theorem Cut.decode_concat {bytes : List UInt8} (h : Cut bytes) (b : UInt8) :
    (decode false (bytes ++ [b])).1 = [] ∨
      ∃ s c, (decode false (bytes ++ [b])).1 = s ++ [c] ∧ ∀ d ∈ s, d = replacement := by
  cases bytes with
  | nil =>
      rcases decode_singleton b with h | ⟨c, h⟩
      · exact .inl h
      · exact .inr ⟨[], c, h, by simp⟩
  | cons x rest =>
      rw [List.cons_append]
      rcases head_concat b h.head_none with h | ⟨c, h⟩ | h
      · exact .inl (by rw [decode_cons_none false h]; rfl)
      · exact .inr ⟨[], c, by rw [decode_cons_some false h]; simp, by simp⟩
      · right
        rw [decode_cons_some false h]
        rcases decode_singleton b with h | ⟨c, h⟩
        · exact ⟨[], replacement, by rw [h]; rfl, by simp⟩
        · exact ⟨[replacement], c, by rw [h]; rfl, by simp⟩

end Utf8
