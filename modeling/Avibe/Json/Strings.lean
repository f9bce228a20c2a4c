import Avibe.Json.Grammar

/-!
# Strings, byte by byte

The bytes between the quotes are read with three facts: whether the byte before was a
backslash, how many digits of a `\u` escape are still due, and the bytes of a
character that is not complete yet.
-/

namespace Avibe.Json

structure StringState where
  escaped : Bool
  digits : Nat
  pending : List UInt8
  deriving DecidableEq, Repr

namespace StringState

/-- Between two characters. -/
def clean : StringState := ⟨false, 0, []⟩

def decode (s : StringState) (b : UInt8) : Option StringState :=
  (Utf8.feed s.pending b).map fun pending => { s with pending := pending }

/-- One byte of a string; none for a byte that no character has there. -/
def step (s : StringState) (b : UInt8) : Option StringState :=
  if s.digits ≠ 0 then
    if isHexDigit b then decode { s with digits := s.digits - 1 } b else none
  else if s.escaped then
    if isEscape b then decode { s with escaped := false } b
    else if b = 0x75 then decode { s with escaped := false, digits := 4 } b
    else none
  else if b = 0x5C then decode { s with escaped := true } b
  else if b = 0x22 ∨ b < 0x20 then none
  else decode s b

end StringState

open StringState

theorem isHexDigit_lt {b : UInt8} (h : isHexDigit b = true) : b < 0x80 := by
  simp only [isHexDigit, isDigit, Bool.or_eq_true, Bool.and_eq_true, decide_eq_true_eq] at h
  rcases h with (⟨-, h⟩ | ⟨-, h⟩) | ⟨-, h⟩ <;>
    exact UInt8.lt_of_le_of_lt h (by decide)

theorem isEscape_lt {b : UInt8} (h : isEscape b = true) : b < 0x80 ∧ b ≠ 0x75 := by
  simp only [isEscape, List.mem_cons, List.not_mem_nil, or_false, decide_eq_true_eq] at h
  rcases h with rfl | rfl | rfl | rfl | rfl | rfl | rfl | rfl <;> decide

theorem decode_ascii {escaped : Bool} {digits : Nat} {b : UInt8} (h : b < 0x80) :
    decode ⟨escaped, digits, []⟩ b = some ⟨escaped, digits, []⟩ := by
  simp [decode, h]

/-! ## Characters are read to their end -/

theorem step_digit {k : Nat} {b : UInt8} (h : isHexDigit b = true) :
    step ⟨false, k + 1, []⟩ b = some ⟨false, k, []⟩ := by
  rw [step, if_pos (Nat.succ_ne_zero k), if_pos h]
  exact decode_ascii (isHexDigit_lt h)

theorem foldlM_digits {digits : List UInt8} (h : ∀ b ∈ digits, isHexDigit b = true) :
    digits.foldlM step ⟨false, digits.length, []⟩ = some clean := by
  induction digits with
  | nil => rfl
  | cons b digits ih =>
      obtain ⟨hb, hrest⟩ := List.forall_mem_cons.mp h
      rw [List.foldlM_cons, List.length_cons, step_digit hb]
      exact ih hrest

theorem step_backslash : step clean 0x5C = some ⟨true, 0, []⟩ := by decide

theorem step_escape {b : UInt8} (h : isEscape b = true) :
    step ⟨true, 0, []⟩ b = some clean := by
  rw [step, if_neg (by simp), if_pos rfl, if_pos h]
  exact decode_ascii (isEscape_lt h).1

theorem step_unicode : step ⟨true, 0, []⟩ 0x75 = some ⟨false, 4, []⟩ := by decide

theorem step_plain {pending : List UInt8} {b : UInt8} (hlow : 0x20 ≤ b) (hq : b ≠ 0x22)
    (hs : b ≠ 0x5C) :
    step ⟨false, 0, pending⟩ b = (Utf8.feed pending b).map fun pending => ⟨false, 0, pending⟩ := by
  have hor : ¬ (b = 0x22 ∨ b < 0x20) := by
    rintro (h | h)
    · exact hq h
    · exact absurd hlow (UInt8.not_le.mpr h)
  rw [step, if_neg (by simp), if_neg (by simp), if_neg hs, if_neg hor]
  rfl

theorem plain_of_high {b : UInt8} (h : 0x80 ≤ b) : 0x20 ≤ b ∧ b ≠ 0x22 ∧ b ≠ 0x5C := by
  refine ⟨UInt8.le_trans (by decide) h, ?_, ?_⟩ <;> rintro rfl <;> exact absurd h (by decide)

theorem foldlM_high {bytes pending next : List UInt8} (h : ∀ b ∈ bytes, 0x80 ≤ b)
    (hf : bytes.foldlM Utf8.feed pending = some next) :
    bytes.foldlM step ⟨false, 0, pending⟩ = some ⟨false, 0, next⟩ := by
  induction bytes generalizing pending with
  | nil =>
      cases hf
      rfl
  | cons b bytes ih =>
      obtain ⟨hb, hrest⟩ := List.forall_mem_cons.mp h
      obtain ⟨hlow, hq, hs⟩ := plain_of_high hb
      rw [List.foldlM_cons] at hf ⊢
      obtain ⟨p, hp, hf⟩ := Option.bind_eq_some_iff.mp hf
      rw [step_plain hlow hq hs, hp]
      exact ih hrest hf

theorem Unescaped.foldlM_step {char : List UInt8} (h : Unescaped char) :
    char.foldlM step clean = some clean := by
  rcases h.1.ascii_or_high with ⟨a, rfl, ha⟩ | hhigh
  · obtain ⟨hlow, hq, hs⟩ := h.2 a rfl
    simp [clean, step_plain hlow hq hs, ha]
  · exact foldlM_high hhigh h.1.foldlM_feed

theorem Chars.foldlM_step {bytes : List UInt8} (h : Chars bytes) :
    bytes.foldlM step clean = some clean := by
  induction h with
  | nil => rfl
  | unescaped hchar _ ih =>
      rw [List.foldlM_append, hchar.foldlM_step]
      exact ih
  | escape hb _ ih =>
      rw [List.foldlM_cons, step_backslash]
      simp only [Option.bind_eq_bind, Option.bind_some, List.foldlM_cons]
      rw [step_escape hb]
      exact ih
  | unicode hlen hdigits _ ih =>
      rw [List.foldlM_cons, step_backslash]
      simp only [Option.bind_eq_bind, Option.bind_some, List.foldlM_cons]
      rw [step_unicode]
      simp only [Option.bind_some, List.foldlM_append]
      rw [← hlen, foldlM_digits hdigits]
      exact ih

/-! ## What is read to its end is a list of characters -/

/-- The bytes of a character that is not complete. -/
inductive Partial : StringState → List UInt8 → Prop where
  | char {pending : List UInt8} (h : Utf8.Kept pending) : Partial ⟨false, 0, pending⟩ pending
  | escape : Partial ⟨true, 0, []⟩ [0x5C]
  | unicode {digits : List UInt8} {k : Nat} (hdigits : ∀ b ∈ digits, isHexDigit b = true)
      (hlen : digits.length + (k + 1) = 4) : Partial ⟨false, k + 1, []⟩ (0x5C :: 0x75 :: digits)

theorem Partial.step_char {pending : List UInt8} (h : Utf8.Kept pending) {b : UInt8}
    {s : StringState} (hs : step ⟨false, 0, pending⟩ b = some s) :
    Partial s (pending ++ [b]) ∨
      (s = clean ∧ ∀ rest, Chars rest → Chars (pending ++ b :: rest)) := by
  rw [step, if_neg (by simp), if_neg (by simp)] at hs
  split at hs
  · rename_i hb
    subst hb
    obtain ⟨next, hnext, rfl⟩ := Option.map_eq_some_iff.mp hs
    obtain ⟨hp, rfl⟩ := Utf8.feed_of_ascii (by decide) hnext
    simp only at hp
    subst hp
    exact .inl .escape
  · rename_i hb
    split at hs
    · cases hs
    · rename_i hplain
      obtain ⟨next, hnext, rfl⟩ := Option.map_eq_some_iff.mp hs
      rcases h.feed hnext with ⟨rfl, hseq⟩ | ⟨rfl, hkept⟩
      · refine .inr ⟨rfl, fun rest hrest => ?_⟩
        rw [List.append_cons]
        refine .unescaped ⟨hseq, fun c hc => ?_⟩ hrest
        obtain ⟨-, hcb⟩ := List.append_inj' (show pending ++ [b] = [] ++ [c] from hc) rfl
        cases hcb
        exact ⟨UInt8.not_lt.mp fun hlt => hplain (.inr hlt), fun hq => hplain (.inl hq), hb⟩
      · exact .inl (.char hkept)

theorem Partial.step_escape {b : UInt8} {s : StringState} (hs : step ⟨true, 0, []⟩ b = some s) :
    Partial s ([0x5C] ++ [b]) ∨
      (s = clean ∧ ∀ rest, Chars rest → Chars ([0x5C] ++ b :: rest)) := by
  rw [step, if_neg (by simp), if_pos rfl] at hs
  split at hs
  · rename_i hb
    rw [decode_ascii (isEscape_lt hb).1] at hs
    cases hs
    exact .inr ⟨rfl, fun rest hrest => .escape hb hrest⟩
  · split at hs
    · rename_i hb
      subst hb
      cases hs
      exact .inl (@Partial.unicode [] 3 (by simp) rfl)
    · cases hs

theorem Partial.step_digit {digits : List UInt8} {k : Nat}
    (hdigits : ∀ b ∈ digits, isHexDigit b = true) (hlen : digits.length + (k + 1) = 4)
    {b : UInt8} {s : StringState} (hs : step ⟨false, k + 1, []⟩ b = some s) :
    Partial s ((0x5C :: 0x75 :: digits) ++ [b]) ∨
      (s = clean ∧ ∀ rest, Chars rest → Chars ((0x5C :: 0x75 :: digits) ++ b :: rest)) := by
  have hb : isHexDigit b = true := by
    rw [step, if_pos (Nat.succ_ne_zero k)] at hs
    split at hs
    · assumption
    · cases hs
  rw [Json.step_digit hb] at hs
  cases hs
  have hdigits' : ∀ c ∈ digits ++ [b], isHexDigit c = true :=
    List.forall_mem_append.mpr ⟨hdigits, List.forall_mem_singleton.mpr hb⟩
  cases k with
  | zero =>
      refine .inr ⟨rfl, fun rest hrest => ?_⟩
      have hlen' : (digits ++ [b]).length = 4 := by simpa using hlen
      have := Chars.unicode hlen' hdigits' hrest
      simpa using this
  | succ k =>
      refine .inl ?_
      have hlen' : (digits ++ [b]).length + (k + 1) = 4 := by
        rw [List.length_append, List.length_singleton]
        omega
      exact .unicode hdigits' hlen'

theorem Partial.step {s s' : StringState} {current : List UInt8} {b : UInt8}
    (h : Partial s current) (hs : s.step b = some s') :
    Partial s' (current ++ [b]) ∨
      (s' = clean ∧ ∀ rest, Chars rest → Chars (current ++ b :: rest)) := by
  cases h with
  | char hk => exact Partial.step_char hk hs
  | escape => exact Partial.step_escape hs
  | unicode hdigits hlen => exact Partial.step_digit hdigits hlen hs

theorem Partial.clean : Partial clean [] := .char .none

theorem Partial.chars {s : StringState} {current bytes : List UInt8} (h : Partial s current)
    (hs : bytes.foldlM StringState.step s = some StringState.clean) : Chars (current ++ bytes) := by
  induction bytes generalizing s current with
  | nil =>
      cases hs
      cases h
      exact .nil
  | cons b bytes ih =>
      rw [List.foldlM_cons] at hs
      obtain ⟨s', hs', hrest⟩ := Option.bind_eq_some_iff.mp hs
      rcases h.step hs' with hp | ⟨rfl, hchars⟩
      · rw [List.append_cons]
        exact ih hp hrest
      · exact hchars bytes (ih .clean hrest)

/-- The bytes between the quotes are read from clean to clean. -/
theorem chars_iff {bytes : List UInt8} :
    Chars bytes ↔ bytes.foldlM StringState.step clean = some clean :=
  ⟨Chars.foldlM_step, Partial.clean.chars⟩

end Avibe.Json
