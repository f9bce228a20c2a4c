import Avibe.Json.Grammar

/-!
# Numbers, byte by byte

The states of `_advance_number`, each with the bytes that may still follow it.
-/

namespace Avibe.Json

inductive NumberState where
  | unset
  | sign
  | zero
  | int
  | dot
  | frac
  | exp
  | expSign
  | expInt
  deriving DecidableEq, Repr

namespace NumberState

/-- The state after the first byte of a number. -/
def start (b : UInt8) : Option NumberState :=
  if b = 0x2D then some .sign
  else if b = 0x30 then some .zero
  else if isDigit b then some .int
  else none

/-- `_advance_number` -/
def advance : NumberState → UInt8 → Option NumberState
  | .sign, b => if b = 0x30 then some .zero else if isDigit b then some .int else none
  | .zero, b =>
      if b = 0x2E then some .dot else if b = 0x65 ∨ b = 0x45 then some .exp else none
  | .int, b =>
      if isDigit b then some .int
      else if b = 0x2E then some .dot
      else if b = 0x65 ∨ b = 0x45 then some .exp
      else none
  | .dot, b => if isDigit b then some .frac else none
  | .frac, b =>
      if isDigit b then some .frac else if b = 0x65 ∨ b = 0x45 then some .exp else none
  | .exp, b =>
      if b = 0x2B ∨ b = 0x2D then some .expSign else if isDigit b then some .expInt else none
  | .expSign, b => if isDigit b then some .expInt else none
  | .expInt, b => if isDigit b then some .expInt else none
  | .unset, _ => none

/-- A number may end here. -/
def final : NumberState → Bool
  | .zero | .int | .frac | .expInt => true
  | _ => false

end NumberState

open NumberState

/-- The bytes bring the number to an end. -/
def NumberState.Ends (s : NumberState) (bytes : List UInt8) : Prop :=
  ∃ s', bytes.foldlM advance s = some s' ∧ s'.final = true

theorem ends_nil {s : NumberState} : s.Ends [] ↔ s.final = true := by
  constructor
  · rintro ⟨s', hs, hf⟩
    cases hs
    exact hf
  · exact fun hf => ⟨s, rfl, hf⟩

theorem ends_cons {s : NumberState} {b : UInt8} {bytes : List UInt8} :
    s.Ends (b :: bytes) ↔ ∃ s', s.advance b = some s' ∧ s'.Ends bytes := by
  simp only [NumberState.Ends, List.foldlM_cons, Option.bind_eq_bind, Option.bind_eq_some_iff]
  constructor
  · rintro ⟨s', ⟨s'', h, hrest⟩, hf⟩
    exact ⟨s'', h, s', hrest, hf⟩
  · rintro ⟨s'', h, s', hrest, hf⟩
    exact ⟨s', ⟨s'', h, hrest⟩, hf⟩

/-! ## The bytes that may follow a state -/

def AllDigits (bytes : List UInt8) : Prop := ∀ b ∈ bytes, isDigit b = true

def OptExp (bytes : List UInt8) : Prop := bytes = [] ∨ Exp bytes

def OptFrac (bytes : List UInt8) : Prop := bytes = [] ∨ Frac bytes

def NumberState.Rest : NumberState → List UInt8 → Prop
  | .unset, _ => False
  | .expInt, bytes => AllDigits bytes
  | .expSign, bytes => Digits bytes
  | .exp, bytes =>
      ∃ sign digits, bytes = sign ++ digits ∧ (sign = [] ∨ sign = [0x2B] ∨ sign = [0x2D]) ∧
        Digits digits
  | .frac, bytes => ∃ digits exp, bytes = digits ++ exp ∧ AllDigits digits ∧ OptExp exp
  | .dot, bytes => ∃ digits exp, bytes = digits ++ exp ∧ Digits digits ∧ OptExp exp
  | .zero, bytes => ∃ frac exp, bytes = frac ++ exp ∧ OptFrac frac ∧ OptExp exp
  | .int, bytes =>
      ∃ digits frac exp, bytes = digits ++ (frac ++ exp) ∧ AllDigits digits ∧ OptFrac frac ∧
        OptExp exp
  | .sign, bytes =>
      ∃ int frac exp, bytes = int ++ (frac ++ exp) ∧ IntPart int ∧ OptFrac frac ∧ OptExp exp

theorem allDigits_cons {b : UInt8} {bytes : List UInt8} :
    AllDigits (b :: bytes) ↔ isDigit b = true ∧ AllDigits bytes :=
  List.forall_mem_cons

theorem digits_cons {b : UInt8} {bytes : List UInt8} :
    Digits (b :: bytes) ↔ isDigit b = true ∧ AllDigits bytes := by
  simp only [Digits, ne_eq, reduceCtorEq, not_false_eq_true, true_and]
  exact allDigits_cons

theorem not_digits_nil : ¬ Digits [] := fun h => h.1 rfl

theorem optExp_cons {b : UInt8} {bytes : List UInt8} :
    OptExp (b :: bytes) ↔ (b = 0x65 ∨ b = 0x45) ∧ Rest .exp bytes := by
  constructor
  · rintro (h | ⟨e, sign, digits, h, he, hsign, hdigits⟩)
    · cases h
    · cases h
      exact ⟨he, sign, digits, rfl, hsign, hdigits⟩
  · rintro ⟨he, sign, digits, rfl, hsign, hdigits⟩
    exact .inr ⟨b, sign, digits, rfl, he, hsign, hdigits⟩

theorem rest_exp_cons {b : UInt8} {bytes : List UInt8} :
    Rest .exp (b :: bytes) ↔
      ((b = 0x2B ∨ b = 0x2D) ∧ Digits bytes) ∨ (isDigit b = true ∧ AllDigits bytes) := by
  constructor
  · rintro ⟨sign, digits, h, rfl | rfl | rfl, hdigits⟩
    · cases h
      exact .inr (digits_cons.mp hdigits)
    · cases h
      exact .inl ⟨.inl rfl, hdigits⟩
    · cases h
      exact .inl ⟨.inr rfl, hdigits⟩
  · rintro (⟨rfl | rfl, hdigits⟩ | hdigits)
    · exact ⟨[0x2B], bytes, rfl, .inr (.inl rfl), hdigits⟩
    · exact ⟨[0x2D], bytes, rfl, .inr (.inr rfl), hdigits⟩
    · exact ⟨[], b :: bytes, rfl, .inl rfl, digits_cons.mpr hdigits⟩

theorem rest_frac_cons {b : UInt8} {bytes : List UInt8} :
    Rest .frac (b :: bytes) ↔ (isDigit b = true ∧ Rest .frac bytes) ∨ OptExp (b :: bytes) := by
  constructor
  · rintro ⟨digits, exp, h, hdigits, hexp⟩
    cases digits with
    | nil =>
        cases h
        exact .inr hexp
    | cons d digits =>
        cases h
        obtain ⟨hd, hdigits⟩ := allDigits_cons.mp hdigits
        exact .inl ⟨hd, digits, exp, rfl, hdigits, hexp⟩
  · rintro (⟨hb, digits, exp, rfl, hdigits, hexp⟩ | hexp)
    · exact ⟨b :: digits, exp, rfl, allDigits_cons.mpr ⟨hb, hdigits⟩, hexp⟩
    · exact ⟨[], b :: bytes, rfl, by simp [AllDigits], hexp⟩

theorem rest_dot_cons {b : UInt8} {bytes : List UInt8} :
    Rest .dot (b :: bytes) ↔ isDigit b = true ∧ Rest .frac bytes := by
  constructor
  · rintro ⟨digits, exp, h, hdigits, hexp⟩
    cases digits with
    | nil => exact absurd hdigits not_digits_nil
    | cons d digits =>
        cases h
        obtain ⟨hd, hdigits⟩ := digits_cons.mp hdigits
        exact ⟨hd, digits, exp, rfl, hdigits, hexp⟩
  · rintro ⟨hb, digits, exp, rfl, hdigits, hexp⟩
    exact ⟨b :: digits, exp, rfl, digits_cons.mpr ⟨hb, hdigits⟩, hexp⟩

theorem rest_zero_cons {b : UInt8} {bytes : List UInt8} :
    Rest .zero (b :: bytes) ↔ (b = 0x2E ∧ Rest .dot bytes) ∨ OptExp (b :: bytes) := by
  constructor
  · rintro ⟨frac, exp, h, rfl | ⟨digits, rfl, hdigits⟩, hexp⟩
    · cases h
      exact .inr hexp
    · cases h
      exact .inl ⟨rfl, digits, exp, rfl, hdigits, hexp⟩
  · rintro (⟨rfl, digits, exp, rfl, hdigits, hexp⟩ | hexp)
    · exact ⟨0x2E :: digits, exp, rfl, .inr ⟨digits, rfl, hdigits⟩, hexp⟩
    · exact ⟨[], b :: bytes, rfl, .inl rfl, hexp⟩

theorem rest_int_cons {b : UInt8} {bytes : List UInt8} :
    Rest .int (b :: bytes) ↔ (isDigit b = true ∧ Rest .int bytes) ∨ Rest .zero (b :: bytes) := by
  constructor
  · rintro ⟨digits, frac, exp, h, hdigits, hfrac, hexp⟩
    cases digits with
    | nil => exact .inr ⟨frac, exp, h, hfrac, hexp⟩
    | cons d digits =>
        cases h
        obtain ⟨hd, hdigits⟩ := allDigits_cons.mp hdigits
        exact .inl ⟨hd, digits, frac, exp, rfl, hdigits, hfrac, hexp⟩
  · rintro (⟨hb, digits, frac, exp, rfl, hdigits, hfrac, hexp⟩ | ⟨frac, exp, h, hfrac, hexp⟩)
    · exact ⟨b :: digits, frac, exp, rfl, allDigits_cons.mpr ⟨hb, hdigits⟩, hfrac, hexp⟩
    · exact ⟨[], frac, exp, h, by simp [AllDigits], hfrac, hexp⟩

theorem rest_sign_cons {b : UInt8} {bytes : List UInt8} :
    Rest .sign (b :: bytes) ↔
      (b = 0x30 ∧ Rest .zero bytes) ∨ (isDigit b = true ∧ b ≠ 0x30 ∧ Rest .int bytes) := by
  constructor
  · rintro ⟨int, frac, exp, h, rfl | ⟨d, digits, rfl, hd, hne, hdigits⟩, hfrac, hexp⟩
    · cases h
      exact .inl ⟨rfl, frac, exp, rfl, hfrac, hexp⟩
    · cases h
      exact .inr ⟨hd, hne, digits, frac, exp, rfl, hdigits, hfrac, hexp⟩
  · rintro (⟨rfl, frac, exp, rfl, hfrac, hexp⟩ |
      ⟨hb, hne, digits, frac, exp, rfl, hdigits, hfrac, hexp⟩)
    · exact ⟨[0x30], frac, exp, rfl, .inl rfl, hfrac, hexp⟩
    · exact ⟨b :: digits, frac, exp, rfl, .inr ⟨b, digits, rfl, hb, hne, hdigits⟩, hfrac, hexp⟩

theorem rest_nil {s : NumberState} : s.Rest [] ↔ s.final = true := by
  have hall : AllDigits [] := by simp [AllDigits]
  cases s with
  | unset => exact iff_of_false id (by decide)
  | expInt => exact iff_of_true hall rfl
  | expSign => exact iff_of_false not_digits_nil (by decide)
  | exp =>
      refine iff_of_false ?_ (by decide)
      rintro ⟨sign, digits, h, -, hdigits⟩
      exact hdigits.1 (List.append_eq_nil_iff.mp h.symm).2
  | frac => exact iff_of_true ⟨[], [], rfl, hall, .inl rfl⟩ rfl
  | dot =>
      refine iff_of_false ?_ (by decide)
      rintro ⟨digits, exp, h, hdigits, -⟩
      exact hdigits.1 (List.append_eq_nil_iff.mp h.symm).1
  | zero => exact iff_of_true ⟨[], [], rfl, .inl rfl, .inl rfl⟩ rfl
  | int => exact iff_of_true ⟨[], [], [], rfl, hall, .inl rfl, .inl rfl⟩ rfl
  | sign =>
      refine iff_of_false ?_ (by decide)
      rintro ⟨int, frac, exp, h, hint, -⟩
      rw [(List.append_eq_nil_iff.mp h.symm).1] at hint
      rcases hint with hint | ⟨d, rest, hint, -⟩ <;> cases hint

theorem isDigit_ne {b c : UInt8} (h : isDigit b = true) (hc : isDigit c = false) : b ≠ c := by
  rintro rfl
  rw [h] at hc
  cases hc

/-- What follows a state is what follows its successor, after the byte between them. -/
theorem rest_cons {s : NumberState} {b : UInt8} {bytes : List UInt8} :
    s.Rest (b :: bytes) ↔ ∃ s', s.advance b = some s' ∧ s'.Rest bytes := by
  have hdot : isDigit 0x2E = false := by decide
  have he : isDigit 0x65 = false := by decide
  have hE : isDigit 0x45 = false := by decide
  have hplus : isDigit 0x2B = false := by decide
  have hminus : isDigit 0x2D = false := by decide
  cases s with
  | unset => simp [Rest, advance]
  | expInt => simp [advance, Rest, allDigits_cons]
  | expSign => simp [advance, Rest, digits_cons]
  | exp =>
      rw [rest_exp_cons]
      by_cases hs : b = 0x2B ∨ b = 0x2D
      · have hb : isDigit b = false := by rcases hs with rfl | rfl <;> assumption
        simp [advance, hs, hb, Rest]
      · simp [advance, hs, Rest]
  | frac =>
      rw [rest_frac_cons, optExp_cons]
      by_cases hd : isDigit b = true
      · simp [advance, hd, isDigit_ne hd he, isDigit_ne hd hE]
      · simp [advance, hd]
  | dot => simp [advance, rest_dot_cons]
  | zero =>
      rw [rest_zero_cons, optExp_cons]
      by_cases hd : b = 0x2E
      · simp [advance, hd]
      · simp [advance, hd]
  | int =>
      rw [rest_int_cons, rest_zero_cons, optExp_cons]
      by_cases hd : isDigit b = true
      · simp [advance, hd, isDigit_ne hd hdot, isDigit_ne hd he, isDigit_ne hd hE]
      · by_cases hb : b = 0x2E
        · simp [advance, hb, hdot]
        · simp [advance, hd, hb]
  | sign =>
      rw [rest_sign_cons]
      by_cases hb : b = 0x30
      · simp [advance, hb]
      · simp [advance, hb]

theorem ends_iff_rest {s : NumberState} {bytes : List UInt8} : s.Ends bytes ↔ s.Rest bytes := by
  induction bytes generalizing s with
  | nil => rw [ends_nil, rest_nil]
  | cons b bytes ih => simp only [ends_cons, rest_cons, ih]

/-- The numbers of the grammar are what the states read to an end. -/
theorem number_iff {bytes : List UInt8} :
    Number bytes ↔ ∃ b rest s, bytes = b :: rest ∧ start b = some s ∧ s.Ends rest := by
  have hunsigned : ∀ bytes, Rest .sign bytes ↔
      ∃ b rest s, bytes = b :: rest ∧ advance .sign b = some s ∧ s.Ends rest := by
    intro bytes
    cases bytes with
    | nil =>
        refine iff_of_false (fun h => ?_) (by rintro ⟨b, rest, s, h, -⟩; cases h)
        exact absurd (rest_nil.mp h) (by decide)
    | cons b rest =>
        rw [← ends_iff_rest, ends_cons]
        constructor
        · rintro ⟨s, hs, hrest⟩
          exact ⟨b, rest, s, rfl, hs, hrest⟩
        · rintro ⟨b', rest', s, h, hs, hrest⟩
          cases h
          exact ⟨s, hs, hrest⟩
  constructor
  · rintro ⟨minus, int, frac, exp, rfl, rfl | rfl, hint, hfrac, hexp⟩
    · obtain ⟨b, rest, s, h, hs, hends⟩ := (hunsigned _).mp ⟨int, frac, exp, rfl, hint, hfrac, hexp⟩
      refine ⟨b, rest, s, h, ?_, hends⟩
      have hne : b ≠ 0x2D := by
        rintro rfl
        cases hs
      rw [start, if_neg hne]
      exact hs
    · refine ⟨0x2D, _, .sign, rfl, rfl, ends_iff_rest.mpr ?_⟩
      exact ⟨int, frac, exp, rfl, hint, hfrac, hexp⟩
  · rintro ⟨b, rest, s, rfl, hs, hends⟩
    by_cases hb : b = 0x2D
    · subst hb
      cases hs
      obtain ⟨int, frac, exp, rfl, hint, hfrac, hexp⟩ := ends_iff_rest.mp hends
      exact ⟨[0x2D], int, frac, exp, rfl, .inr rfl, hint, hfrac, hexp⟩
    · rw [start, if_neg hb] at hs
      obtain ⟨int, frac, exp, h, hint, hfrac, hexp⟩ := (hunsigned _).mpr ⟨b, rest, s, rfl, hs, hends⟩
      exact ⟨[], int, frac, exp, h, .inl rfl, hint, hfrac, hexp⟩

end Avibe.Json
