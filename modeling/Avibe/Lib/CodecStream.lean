import Avibe.Lib.TextEnds
import Avibe.Lib.Utf8

/-!
# Decoding in pieces

A text can be decoded piece by piece wherever no sequence is cut (`decode_append`). The incremental decoder
keeps the bytes of a sequence that the end of its input cuts, and puts them before its next input
(`decodeOpen_append`).
-/

namespace Texts

section Cut

variable {onError : UInt8 → Text} {more : List UInt8}

theorem sequence?_append {bytes : List UInt8} {c : CodePoint} (h : sequence? bytes = some c) :
    sequence? (bytes ++ more) = some c := by
  obtain ⟨hscalar, hprefix⟩ := sequence?_eq_some.mp h
  exact sequence?_eq_some.mpr ⟨hscalar, hprefix.trans (List.prefix_append _ _)⟩

/-- More bytes make a sequence only of the first bytes of one. -/
theorem sequence?_append_cases (bytes : List UInt8) :
    sequence? (bytes ++ more) = sequence? bytes ∨
      ∃ c, isScalar c = true ∧ bytes <+: encodePoint c ∧ bytes ≠ encodePoint c ∧ encodePoint c <+: bytes ++ more := by
  cases hshort : sequence? bytes with
  | some c => exact .inl (sequence?_append hshort)
  | none =>
      cases hlong : sequence? (bytes ++ more) with
      | none => exact .inl rfl
      | some c =>
          right
          obtain ⟨hscalar, hprefix⟩ := sequence?_eq_some.mp hlong
          have hnot : ¬ encodePoint c <+: bytes := by
            intro hwithin
            rw [sequence?_eq_some.mpr ⟨hscalar, hwithin⟩] at hshort
            cases hshort
          have hcut : bytes <+: encodePoint c := by
            cases List.prefix_or_prefix_of_prefix hprefix (List.prefix_append bytes more) with
            | inl hwithin => exact absurd hwithin hnot
            | inr hcut => exact hcut
          exact ⟨c, hscalar, hcut, fun heq => hnot (heq ▸ List.prefix_refl _), hprefix⟩

/-- Decoding goes on after some bytes if no sequence goes from them into what follows. -/
theorem decodeFrom_append {bytes : List UInt8} {skip : Nat} (hskip : skip ≤ bytes.length)
    (h : ∀ b rest, b :: rest <:+ bytes → sequence? (b :: rest ++ more) = sequence? (b :: rest)) :
    decodeFrom onError skip (bytes ++ more) = decodeFrom onError skip bytes ++ decode onError more := by
  induction bytes generalizing skip with
  | nil =>
      obtain rfl := Nat.le_zero.mp hskip
      rfl
  | cons b bytes ih =>
      have hnext : ∀ d rest, d :: rest <:+ bytes → sequence? (d :: rest ++ more) = sequence? (d :: rest) :=
        fun d rest hsuffix => h d rest (hsuffix.trans (List.suffix_cons b bytes))
      cases skip with
      | succ skip => exact ih (Nat.le_of_succ_le_succ hskip) hnext
      | zero =>
          have hhead := h b bytes (List.suffix_refl _)
          rw [List.cons_append] at hhead
          rw [List.cons_append, decodeFrom, decodeFrom, hhead]
          cases hsequence : sequence? (b :: bytes) with
          | none =>
              simp only [ih (Nat.zero_le _) hnext, List.append_assoc]
          | some c =>
              obtain ⟨-, hprefix⟩ := sequence?_eq_some.mp hsequence
              have hlength := hprefix.length_le
              rw [List.length_cons] at hlength
              simp only [ih (Nat.sub_le_of_le_add hlength) hnext, List.cons_append]

/-- A sequence is never cut before a byte that starts one. -/
theorem decode_append {bytes : List UInt8} (hmore : ∀ b ∈ more.head?, ¬ IsTail b) :
    decode onError (bytes ++ more) = decode onError bytes ++ decode onError more := by
  apply decodeFrom_append (Nat.zero_le _)
  intro b rest _
  cases @sequence?_append_cases more (b :: rest) with
  | inl hsame => exact hsame
  | inr hcut =>
      obtain ⟨c, -, ⟨tail, heq⟩, hne, hprefix⟩ := hcut
      rw [← heq] at hprefix
      have htail : tail <+: more := (List.prefix_append_right_inj _).mp hprefix
      cases tail with
      | nil => exact absurd ((List.append_nil _).symm.trans heq) hne
      | cons d tail =>
          obtain ⟨a, tails, hshape, -, htails⟩ := encodePoint_shape c
          rw [hshape] at heq
          have hd : d ∈ tails := by
            rw [← (List.cons.inj heq).2]
            exact List.mem_append_right _ List.mem_cons_self
          obtain ⟨later, rfl⟩ := htail
          exact absurd (htails d hd) (hmore d rfl)

end Cut

/-! ## The incremental decoder -/

section Open

variable (onError : UInt8 → Text)

/-- What some bytes decode to, and the bytes of a sequence that their end cuts. -/
def decodeOpenFrom : Nat → List UInt8 → Text × List UInt8
  | _, [] => ([], [])
  | 0, b :: rest =>
      if (Utf8.head b rest).isNone then ([], b :: rest)
      else
        match sequence? (b :: rest) with
        | some c => (c :: (decodeOpenFrom ((encodePoint c).length - 1) rest).1,
            (decodeOpenFrom ((encodePoint c).length - 1) rest).2)
        | none => (onError b ++ (decodeOpenFrom 0 rest).1, (decodeOpenFrom 0 rest).2)
  | skip + 1, _ :: rest => decodeOpenFrom skip rest

def decodeOpen (bytes : List UInt8) : Text × List UInt8 := decodeOpenFrom onError 0 bytes

end Open

theorem not_lt_of_toNat {a k : UInt8} (h : k.toNat ≤ a.toNat) : ¬ a < k :=
  UInt8.not_lt.mpr (UInt8.le_iff_toNat_le.mpr h)

theorem ne_of_toNat {a k : UInt8} (h : a.toNat ≠ k.toNat) : a ≠ k := fun heq => h (heq ▸ rfl)

theorem within_of_toNat {low high b : UInt8} (hlow : low.toNat ≤ b.toNat) (hhigh : b.toNat ≤ high.toNat) :
    Utf8.within low high b = true := by
  rw [Utf8.within, Bool.and_eq_true]
  exact ⟨decide_eq_true (UInt8.le_iff_toNat_le.mpr hlow), decide_eq_true (UInt8.le_iff_toNat_le.mpr hhigh)⟩

theorem lead_two {a : UInt8} (h : 0xc2 ≤ a.toNat) (hlt : a.toNat < 0xe0) : Utf8.lead a = .two := by
  have h80 : ¬ a < 0x80 := not_lt_of_toNat (le_trans (by decide) h)
  have hc2 : ¬ a < 0xc2 := not_lt_of_toNat h
  have he0 : a < 0xe0 := UInt8.lt_iff_toNat_lt.mpr hlt
  rw [Utf8.lead, if_neg h80, if_neg hc2, if_pos he0]

theorem lead_three {a b : UInt8} (h : 0xe0 ≤ a.toNat) (hlt : a.toNat < 0xf0) (htail : IsTail b)
    (hlow : a.toNat = 0xe0 → 0xa0 ≤ b.toNat) (hhigh : a.toNat = 0xed → b.toNat < 0xa0) :
    ∃ low high, Utf8.lead a = .three low high ∧ Utf8.within low high b = true := by
  have h80 : ¬ a < 0x80 := not_lt_of_toNat (le_trans (by decide) h)
  have hc2 : ¬ a < 0xc2 := not_lt_of_toNat (le_trans (by decide) h)
  have hbelow : ¬ a < 0xe0 := not_lt_of_toNat h
  have habove : a < 0xf0 := UInt8.lt_iff_toNat_lt.mpr hlt
  have hmax : b.toNat ≤ 0xbf := Nat.le_of_lt_succ htail.2
  rw [Utf8.lead, if_neg h80, if_neg hc2, if_neg hbelow]
  by_cases he0 : a = 0xe0
  · rw [if_pos he0]
    exact ⟨_, _, rfl, within_of_toNat (hlow (he0 ▸ rfl)) hmax⟩
  · rw [if_neg he0]
    by_cases hed : a = 0xed
    · rw [if_pos hed]
      exact ⟨_, _, rfl, within_of_toNat htail.1 (Nat.le_of_lt_succ (hhigh (hed ▸ rfl)))⟩
    · rw [if_neg hed, if_pos habove]
      exact ⟨_, _, rfl, within_of_toNat htail.1 hmax⟩

theorem lead_four {a b : UInt8} (h : 0xf0 ≤ a.toNat) (hlt : a.toNat ≤ 0xf4) (htail : IsTail b)
    (hlow : a.toNat = 0xf0 → 0x90 ≤ b.toNat) (hhigh : a.toNat = 0xf4 → b.toNat < 0x90) :
    ∃ low high, Utf8.lead a = .four low high ∧ Utf8.within low high b = true := by
  have h80 : ¬ a < 0x80 := not_lt_of_toNat (le_trans (by decide) h)
  have hc2 : ¬ a < 0xc2 := not_lt_of_toNat (le_trans (by decide) h)
  have he0 : ¬ a < 0xe0 := not_lt_of_toNat (le_trans (by decide) h)
  have hf0 : ¬ a < 0xf0 := not_lt_of_toNat h
  have hmax : b.toNat ≤ 0xbf := Nat.le_of_lt_succ htail.2
  have hthree : ∀ k : UInt8, k.toNat < 0xf0 → a ≠ k := fun k hk => ne_of_toNat (ne_of_gt (lt_of_lt_of_le hk h))
  rw [Utf8.lead, if_neg h80, if_neg hc2, if_neg he0, if_neg (hthree _ (by decide)), if_neg (hthree _ (by decide)),
    if_neg hf0]
  by_cases hfirst : a = 0xf0
  · rw [if_pos hfirst]
    exact ⟨_, _, rfl, within_of_toNat (hlow (hfirst ▸ rfl)) hmax⟩
  · rw [if_neg hfirst]
    by_cases hlast : a = 0xf4
    · have hf4 : ¬ a < 0xf4 := not_lt_of_toNat (hlast ▸ Nat.le_refl _)
      rw [if_neg hf4, if_pos hlast]
      exact ⟨_, _, rfl, within_of_toNat htail.1 (Nat.le_of_lt_succ (hhigh (hlast ▸ rfl)))⟩
    · have hf4 : a < 0xf4 := by
        apply UInt8.lt_iff_toNat_lt.mpr
        exact lt_of_le_of_ne hlt fun heq => hlast (UInt8.toNat_inj.mp heq)
      rw [if_pos hf4]
      exact ⟨_, _, rfl, within_of_toNat htail.1 hmax⟩

/-- What a decoder takes for a cut sequence is the first bytes of one. -/
theorem head_cut {c : CodePoint} (hscalar : isScalar c = true) {b : UInt8} {rest : List UInt8}
    (h : b :: rest <+: encodePoint c) (hne : b :: rest ≠ encodePoint c) : Utf8.head b rest = none := by
  have hc := c.isLt
  simp only [isScalar, Fin.lt_def, Bool.or_eq_true, decide_eq_true_eq] at hscalar
  obtain ⟨tails, htails⟩ := h
  have hmore : tails ≠ [] := by
    rintro rfl
    exact hne (by rw [← htails, List.append_nil])
  rcases encodePoint_cases c with ⟨_, heq, -⟩ | ⟨hlow, hlt, -, heq⟩ | ⟨hlow, hlt, -, heq⟩ | ⟨hlow, -, heq⟩
  · rw [heq, List.cons_append, List.cons_eq_cons, List.append_eq_nil_iff] at htails
    exact absurd htails.2.2 hmore
  · rw [heq, List.cons_append, List.cons_eq_cons] at htails
    obtain ⟨rfl, htails⟩ := htails
    have hlead : Utf8.lead (.ofNat (0xc0 + c.val / 64)) = .two := by
      apply lead_two <;> simp <;> omega
    cases rest with
    | nil =>
        unfold Utf8.head
        rw [hlead]
    | cons d rest =>
        rw [List.cons_append, List.cons_eq_cons, List.append_eq_nil_iff] at htails
        exact absurd htails.2.2 hmore
  · rw [heq, List.cons_append, List.cons_eq_cons] at htails
    obtain ⟨rfl, htails⟩ := htails
    have hlead : ∃ low high, Utf8.lead (.ofNat (0xe0 + c.val / 4096)) = .three low high ∧
        Utf8.within low high (.ofNat (0x80 + c.val / 64 % 64)) = true := by
      apply lead_three <;> simp [IsTail] <;> omega
    obtain ⟨low, high, hlead, hwithin⟩ := hlead
    cases rest with
    | nil =>
        unfold Utf8.head
        rw [hlead]
    | cons d rest =>
        rw [List.cons_append, List.cons_eq_cons] at htails
        obtain ⟨rfl, htails⟩ := htails
        cases rest with
        | nil =>
            unfold Utf8.head
            rw [hlead]
            exact if_pos hwithin
        | cons d rest =>
            rw [List.cons_append, List.cons_eq_cons, List.append_eq_nil_iff] at htails
            exact absurd htails.2.2 hmore
  · rw [heq, List.cons_append, List.cons_eq_cons] at htails
    obtain ⟨rfl, htails⟩ := htails
    have hlead : ∃ low high, Utf8.lead (.ofNat (0xf0 + c.val / 262144)) = .four low high ∧
        Utf8.within low high (.ofNat (0x80 + c.val / 4096 % 64)) = true := by
      apply lead_four <;> simp [IsTail] <;> omega
    obtain ⟨low, high, hlead, hwithin⟩ := hlead
    have hcontinuation : Utf8.isContinuation (.ofNat (0x80 + c.val / 64 % 64)) = true := by
      simp [Utf8.isContinuation, Utf8.within, UInt8.le_iff_toNat_le]
      omega
    cases rest with
    | nil =>
        unfold Utf8.head
        rw [hlead]
    | cons d rest =>
        rw [List.cons_append, List.cons_eq_cons] at htails
        obtain ⟨rfl, htails⟩ := htails
        cases rest with
        | nil =>
            unfold Utf8.head
            rw [hlead]
            exact if_pos hwithin
        | cons d rest =>
            rw [List.cons_append, List.cons_eq_cons] at htails
            obtain ⟨rfl, htails⟩ := htails
            cases rest with
            | nil =>
                unfold Utf8.head
                rw [hlead]
                exact (if_pos hwithin).trans (if_pos hcontinuation)
            | cons d rest =>
                rw [List.cons_append, List.cons_eq_cons, List.append_eq_nil_iff] at htails
                exact absurd htails.2.2 hmore

section Open

variable {onError : UInt8 → Text}

theorem sequence?_append_of_whole {b : UInt8} {rest : List UInt8} (h : Utf8.head b rest ≠ none) (more : List UInt8) :
    sequence? (b :: rest ++ more) = sequence? (b :: rest) := by
  cases @sequence?_append_cases more (b :: rest) with
  | inl hsame => exact hsame
  | inr hcut =>
      obtain ⟨c, hscalar, hprefix, hne, -⟩ := hcut
      exact absurd (head_cut hscalar hprefix hne) h

theorem decodeOpenFrom_append {skip : Nat} {bytes : List UInt8} (hskip : skip ≤ bytes.length) (more : List UInt8) :
    decodeFrom onError skip (bytes ++ more) =
      (decodeOpenFrom onError skip bytes).1 ++ decode onError ((decodeOpenFrom onError skip bytes).2 ++ more) := by
  induction bytes generalizing skip with
  | nil =>
      obtain rfl := Nat.le_zero.mp hskip
      rfl
  | cons b bytes ih =>
      cases skip with
      | succ skip => exact ih (Nat.le_of_succ_le_succ hskip)
      | zero =>
          rw [decodeOpenFrom]
          by_cases hcut : (Utf8.head b bytes).isNone = true
          · rw [if_pos hcut]
            rfl
          · rw [if_neg hcut]
            have hwhole := sequence?_append_of_whole (fun heq => hcut (heq ▸ rfl)) more
            rw [List.cons_append] at hwhole
            rw [List.cons_append, decodeFrom, hwhole]
            cases hsequence : sequence? (b :: bytes) with
            | none => simp only [ih (Nat.zero_le _), List.append_assoc]
            | some c =>
                obtain ⟨-, hprefix⟩ := sequence?_eq_some.mp hsequence
                have hlength := hprefix.length_le
                rw [List.length_cons] at hlength
                simp only [ih (Nat.sub_le_of_le_add hlength), List.cons_append]

/-- What the incremental decoder has not decoded goes before what follows. -/
theorem decodeOpen_append (bytes more : List UInt8) :
    decode onError (bytes ++ more) =
      (decodeOpen onError bytes).1 ++ decode onError ((decodeOpen onError bytes).2 ++ more) :=
  decodeOpenFrom_append (Nat.zero_le _) more

end Open

end Texts
