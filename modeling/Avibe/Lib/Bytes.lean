import Mathlib.Data.List.Basic
import Mathlib.Algebra.GroupWithZero.Nat

/-!
# Byte strings

Little-endian integers of a fixed width and lowercase hexadecimal text. Both are
inverse to their readers, so what a reader accepts is written back as it was.
-/

namespace Bytes

/-! ## Little-endian integers -/

/-- The integer of a little-endian byte string. -/
def ofLittle : List UInt8 → Nat
  | [] => 0
  | b :: bs => b.toNat + 256 * ofLittle bs

/-- The low `width` bytes of an integer, the lowest first. -/
def toLittle : Nat → Nat → List UInt8
  | 0, _ => []
  | width + 1, n => UInt8.ofNat (n % 256) :: toLittle width (n / 256)

@[simp] theorem length_toLittle (width n : Nat) : (toLittle width n).length = width := by
  induction width generalizing n with
  | zero => rfl
  | succ width ih => simp [toLittle, ih]

theorem ofLittle_lt (bs : List UInt8) : ofLittle bs < 256 ^ bs.length := by
  induction bs with
  | nil => exact Nat.one_pos
  | cons b bs ih =>
      have hb := b.toNat_lt
      rw [ofLittle, List.length_cons, Nat.pow_succ]
      omega

theorem toLittle_ofLittle (bs : List UInt8) : toLittle bs.length (ofLittle bs) = bs := by
  induction bs with
  | nil => rfl
  | cons b bs ih =>
      have hb := b.toNat_lt
      have hmod : (b.toNat + 256 * ofLittle bs) % 256 = b.toNat := by omega
      have hdiv : (b.toNat + 256 * ofLittle bs) / 256 = ofLittle bs := by omega
      rw [ofLittle, List.length_cons, toLittle, hmod, hdiv, ih, UInt8.ofNat_toNat]

theorem ofLittle_toLittle {width n : Nat} (h : n < 256 ^ width) :
    ofLittle (toLittle width n) = n := by
  induction width generalizing n with
  | zero =>
      rw [Nat.pow_zero] at h
      rw [toLittle, ofLittle]
      omega
  | succ width ih =>
      rw [Nat.pow_succ] at h
      have hbyte : (UInt8.ofNat (n % 256)).toNat = n % 256 := by
        rw [UInt8.toNat_ofNat']
        omega
      rw [toLittle, ofLittle, ih (by omega), hbyte]
      omega

/-! ## Hexadecimal text -/

/-- The digit of a value below 16. -/
def digit (n : Nat) : Char := Char.ofNat (if n < 10 then 48 + n else 87 + n)

/-- The value of a lowercase digit. -/
def value? (c : Char) : Option Nat :=
  if 48 ≤ c.toNat ∧ c.toNat ≤ 57 then some (c.toNat - 48)
  else if 97 ≤ c.toNat ∧ c.toNat ≤ 102 then some (c.toNat - 87)
  else none

def isHex (c : Char) : Bool := (value? c).isSome

/-- A text is checked character by character. -/
instance decidableAllHex (digits : List Char) : Decidable (∀ c ∈ digits, isHex c = true) := List.decidableBAll _ digits

def toHex (bs : List UInt8) : List Char :=
  bs.flatMap fun b => [digit (b.toNat / 16), digit (b.toNat % 16)]

/-- The bytes of a text of digits; none for another text. -/
def ofHex : List Char → Option (List UInt8)
  | [] => some []
  | [_] => none
  | c :: d :: rest => do
      let high ← value? c
      let low ← value? d
      let bs ← ofHex rest
      return UInt8.ofNat (16 * high + low) :: bs

theorem value?_digit {n : Nat} (h : n < 16) : value? (digit n) = some n := by
  revert n
  decide

theorem value?_lt {c : Char} {n : Nat} (h : value? c = some n) : n < 16 := by
  unfold value? at h
  split at h
  · cases h
    omega
  · split at h
    · cases h
      omega
    · cases h

theorem digit_value {c : Char} {n : Nat} (h : value? c = some n) : digit n = c := by
  unfold value? at h
  have hof : ∀ m, m = c.toNat → Char.ofNat m = c := by
    rintro m rfl
    exact Char.ofNat_toNat c
  split at h
  · cases h
    rw [digit, if_pos (by omega)]
    exact hof _ (by omega)
  · split at h
    · cases h
      rw [digit, if_neg (by omega)]
      exact hof _ (by omega)
    · cases h

@[simp] theorem length_toHex (bs : List UInt8) : (toHex bs).length = 2 * bs.length := by
  induction bs with
  | nil => rfl
  | cons b bs ih =>
      simp only [toHex, List.flatMap_cons, List.length_append, List.length_cons,
        List.length_nil] at ih ⊢
      omega

theorem isHex_toHex (bs : List UInt8) : ∀ c ∈ toHex bs, isHex c = true := by
  intro c hc
  obtain ⟨b, -, hc⟩ := List.mem_flatMap.mp hc
  have hb := b.toNat_lt
  rcases List.mem_cons.mp hc with rfl | hc
  · rw [isHex, value?_digit (by omega)]
    rfl
  · rw [List.mem_singleton.mp hc, isHex, value?_digit (by omega)]
    rfl

theorem ofHex_toHex (bs : List UInt8) : ofHex (toHex bs) = some bs := by
  induction bs with
  | nil => rfl
  | cons b bs ih =>
      have hb := b.toNat_lt
      have hval : 16 * (b.toNat / 16) + b.toNat % 16 = b.toNat := by omega
      rw [toHex, List.flatMap_cons]
      change ofHex (digit _ :: digit _ :: toHex bs) = _
      rw [ofHex, value?_digit (by omega), value?_digit (by omega), ih]
      simp only [Option.bind_eq_bind, Option.bind_some, Option.pure_def, hval, UInt8.ofNat_toNat]

theorem toHex_ofHex {cs : List Char} {bs : List UInt8} (h : ofHex cs = some bs) :
    toHex bs = cs := by
  induction cs using ofHex.induct generalizing bs with
  | case1 =>
      cases h
      rfl
  | case2 => cases h
  | case3 c d rest ih =>
      rw [ofHex] at h
      obtain ⟨high, hhigh, h⟩ := Option.bind_eq_some_iff.mp h
      obtain ⟨low, hlow, h⟩ := Option.bind_eq_some_iff.mp h
      obtain ⟨tail, htail, h⟩ := Option.bind_eq_some_iff.mp h
      cases h
      have h₁ := value?_lt hhigh
      have h₂ := value?_lt hlow
      have hbyte : (UInt8.ofNat (16 * high + low)).toNat = 16 * high + low := by
        rw [UInt8.toNat_ofNat']
        omega
      have hdiv : (16 * high + low) / 16 = high := by omega
      have hmod : (16 * high + low) % 16 = low := by omega
      rw [toHex, List.flatMap_cons, hbyte, hdiv, hmod, digit_value hhigh, digit_value hlow]
      change c :: d :: toHex tail = _
      rw [ih htail]

/-- A text of an even number of digits has bytes. -/
theorem ofHex_isSome {cs : List Char} (hlen : cs.length % 2 = 0)
    (h : ∀ c ∈ cs, isHex c = true) : ∃ bs, ofHex cs = some bs := by
  induction cs using ofHex.induct with
  | case1 => exact ⟨[], rfl⟩
  | case2 c => simp at hlen
  | case3 c d rest ih =>
      obtain ⟨hc, h⟩ := List.forall_mem_cons.mp h
      obtain ⟨hd, h⟩ := List.forall_mem_cons.mp h
      obtain ⟨high, hhigh⟩ := Option.isSome_iff_exists.mp hc
      obtain ⟨low, hlow⟩ := Option.isSome_iff_exists.mp hd
      obtain ⟨tail, htail⟩ := ih (by simp only [List.length_cons] at hlen; omega) h
      rw [ofHex, hhigh, hlow, htail]
      exact ⟨_, rfl⟩

end Bytes
