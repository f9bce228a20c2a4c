import Mathlib.Tactic.Ring
import Avibe.Citations.HostLiterals

/-!
# Hosts that end in a number

The IPv4 address that the URL standard finds in a host whose last label is a number, as a number
of 32 bits (`ipv4Value?`), and that `canonicalHost` writes it as a dotted quad. The numbers of the
standard have no bound; the code stops reading one that is too wide and takes `ipv4TooLarge` for
it, which fails every check that the exact number fails (`SameNumber`).
-/

namespace Avibe.Citations

open Ip Places

/-! ## The standard's reading -/

/-- The exact number of a part. -/
def number? (part : Text) : Option Nat :=
  if part = [] then none else valueOf? (radixOf part).1 (radixOf part).2

/-- The host is read as an IPv4 address: its last label has only digits, or is a number. -/
def EndsInNumber (host : Text) : Prop :=
  let last := (labels host).getLast?.getD []
  (last ≠ [] ∧ ∀ c ∈ last, (digit? 10 c).isSome = true) ∨ (number? last).isSome = true

/-- The 32-bit value of one to four numbers: all but the last are bytes, and the last fills the
bytes that are left. -/
def ipv4Value? (parts : List Text) : Option Nat := do
  let numbers ← parts.mapM number?
  let last := numbers.getLast?.getD 0
  if parts.length ≤ 4 ∧ (∀ n ∈ numbers.dropLast, n ≤ 255) ∧ last < 256 ^ (5 - numbers.length) then
    some (ofPlaces 256 numbers.dropLast * 256 ^ (5 - numbers.length) + last)
  else none

/-! ## Numbers that are too wide -/

/-- The same number, or two that are both too large. -/
def SameNumber (n m : Nat) : Prop := n = m ∨ (2 ^ 32 ≤ n ∧ 2 ^ 32 ≤ m)

theorem SameNumber.lt_iff {n m bound : Nat} (h : SameNumber n m) (hbound : bound ≤ 2 ^ 32) :
    n < bound ↔ m < bound := by
  rcases h with rfl | ⟨hn, hm⟩
  · rfl
  · omega

theorem SameNumber.eq {n m bound : Nat} (h : SameNumber n m) (hbound : bound ≤ 2 ^ 32)
    (hn : n < bound) : n = m := by
  rcases h with rfl | ⟨hn', -⟩
  · rfl
  · omega

theorem digit?_zero_char (radix : Nat) (hradix : 0 < radix) : digit? radix '0' = some 0 :=
  Option.filter_eq_some_iff.mpr ⟨rfl, by simpa using hradix⟩

theorem char_of_digit_zero {radix : Nat} {c : Char} (h : digit? radix c = some 0) : c = '0' := by
  have hvalue : digitValue? c = some 0 := (Option.filter_eq_some_iff.mp h).1
  exact digit?_zero (Option.filter_eq_some_iff.mpr ⟨hvalue, rfl⟩)

/-- Leading zeros of the text are leading zeros of the digits. -/
theorem mapM_dropWhile {radix : Nat} {t : Text} {ds : List Nat}
    (h : t.mapM (digit? radix) = some ds) :
    (t.dropWhile (· == '0')).mapM (digit? radix) = some (ds.dropWhile (· == 0)) := by
  induction t generalizing ds with
  | nil =>
      cases h
      rfl
  | cons c t ih =>
      obtain ⟨d, es, hd, hes, rfl⟩ := mapM_digit_cons h
      by_cases hc : c = '0'
      · subst hc
        have hlt := digit?_le hd
        rw [digit?_zero_char radix (by omega)] at hd
        cases hd
        rw [List.dropWhile_cons_of_pos (by rfl), List.dropWhile_cons_of_pos (by rfl), ih hes]
      · have hne : d ≠ 0 := by
          rintro rfl
          exact hc (char_of_digit_zero hd)
        rw [List.dropWhile_cons_of_neg (by simpa using hc),
          List.dropWhile_cons_of_neg (by simpa using hne), h]

theorem radixOf_cases (part : Text) :
    (radixOf part).1 = 10 ∨ (radixOf part).1 = 16 ∨ (radixOf part).1 = 8 := by
  unfold radixOf
  split
  · split
    · exact .inr (.inl rfl)
    · exact .inr (.inr rfl)
  · exact .inl rfl

/-- A text wider than its radix allows is a number of more than 32 bits. -/
theorem tooLarge_of_wide {part : Text} {v : Nat}
    (hv : valueOf? (radixOf part).1 (radixOf part).2 = some v)
    (hwide : ipv4Widest (radixOf part).1 < ((radixOf part).2.dropWhile (· == '0')).length) :
    2 ^ 32 ≤ v := by
  obtain ⟨ds, hds, rfl⟩ := valueOf?_eq_some.mp hv
  have hdrop := mapM_dropWhile hds
  rw [length_mapM_digit hdrop] at hwide
  rw [← ofPlaces_dropWhile]
  cases hshape : ds.dropWhile (· == 0) with
  | nil => rw [hshape] at hwide; exact (Nat.not_lt_zero _ hwide).elim
  | cons d es =>
      rw [hshape, List.length_cons] at hwide
      have hd : 0 < d := by
        have hnot := List.head?_dropWhile_not (· == 0) ds
        rw [hshape] at hnot
        exact Nat.pos_of_ne_zero (by simpa using hnot)
      have hbase : 0 < (radixOf part).1 := by
        rcases radixOf_cases part with h | h | h <;> rw [h] <;> decide
      calc 2 ^ 32 ≤ (radixOf part).1 ^ ipv4Widest (radixOf part).1 := by
            rcases radixOf_cases part with h | h | h <;> rw [h] <;> decide
        _ ≤ (radixOf part).1 ^ es.length := Nat.pow_le_pow_right hbase (by omega)
        _ ≤ ofPlaces (radixOf part).1 (d :: es) := pow_le_ofPlaces hd es

theorem all_digits_iff {radix : Nat} {t : Text} :
    (t.all fun c => (digit? radix c).isSome) = true ↔ (valueOf? radix t).isSome = true := by
  change _ ↔ ((t.mapM (digit? radix)).map (ofPlaces radix)).isSome = true
  rw [List.all_eq_true, Option.isSome_map]
  induction t with
  | nil => exact ⟨fun _ => rfl, fun _ c hc => by cases hc⟩
  | cons c t ih =>
      rw [List.forall_mem_cons, List.mapM_cons, ih]
      cases digit? radix c with
      | none => simp
      | some d =>
          cases t.mapM (digit? radix) with
          | none => simp
          | some ds => simp

/-- `ipv4Number` finds a number exactly where there is one, and the same one unless it is too
large. -/
theorem ipv4Number_same (part : Text) :
    (ipv4Number part = none ∧ number? part = none) ∨
      ∃ n m, ipv4Number part = some n ∧ number? part = some m ∧ SameNumber n m := by
  unfold ipv4Number number?
  by_cases hpart : part = []
  · exact .inl ⟨if_pos hpart, if_pos hpart⟩
  · rw [if_neg hpart, if_neg hpart]
    dsimp only
    by_cases hempty : (radixOf part).1 = 16 ∧ (radixOf part).2 = []
    · refine .inr ⟨0, 0, if_pos hempty, ?_, .inl rfl⟩
      rw [hempty.2]
      rfl
    · rw [if_neg hempty]
      cases hv : valueOf? (radixOf part).1 (radixOf part).2 with
      | none =>
          refine .inl ⟨if_neg ?_, rfl⟩
          rw [all_digits_iff, hv]
          simp
      | some v =>
          rw [if_pos (all_digits_iff.mpr (by rw [hv]; rfl))]
          split
          · rename_i hwide
            exact .inr ⟨_, v, rfl, rfl, .inr ⟨Nat.le_refl _, tooLarge_of_wide hv hwide⟩⟩
          · exact .inr ⟨v, v, rfl, rfl, .inl rfl⟩

theorem ipv4Number_none_iff (part : Text) : ipv4Number part = none ↔ number? part = none := by
  rcases ipv4Number_same part with ⟨h, h'⟩ | ⟨n, m, h, h', -⟩
  · rw [h, h']
  · rw [h, h']
    simp

theorem mapM_same (parts : List Text) :
    (parts.mapM ipv4Number = none ∧ parts.mapM number? = none) ∨
      ∃ ns ms, parts.mapM ipv4Number = some ns ∧ parts.mapM number? = some ms ∧
        List.Forall₂ SameNumber ns ms := by
  induction parts with
  | nil => exact .inr ⟨[], [], rfl, rfl, .nil⟩
  | cons part parts ih =>
      rw [List.mapM_cons, List.mapM_cons]
      rcases ipv4Number_same part with ⟨h, h'⟩ | ⟨n, m, h, h', hnm⟩
      · rw [h, h']
        exact .inl ⟨rfl, rfl⟩
      · rw [h, h']
        rcases ih with ⟨hs, hs'⟩ | ⟨ns, ms, hs, hs', hall⟩
        · rw [hs, hs']
          exact .inl ⟨rfl, rfl⟩
        · rw [hs, hs']
          exact .inr ⟨n :: ns, m :: ms, rfl, rfl, .cons hnm hall⟩

/-! ## The dotted quad -/

/-- The numbers are those of an address. -/
def Fits (numbers : List Nat) : Prop :=
  (∀ n ∈ numbers.dropLast, n ≤ 255) ∧ numbers.getLast?.getD 0 < 256 ^ (5 - numbers.length)

theorem Fits.lt {numbers : List Nat} (h : Fits numbers) : ∀ n ∈ numbers, n < 2 ^ 32 := by
  intro n hn
  have hne : numbers ≠ [] := List.ne_nil_of_mem hn
  have hsplit := List.dropLast_concat_getLast hne
  have hlast : numbers.getLast?.getD 0 = numbers.getLast hne := by
    rw [List.getLast?_eq_some_getLast hne]
    rfl
  rw [← hsplit] at hn
  rcases List.mem_append.mp hn with hn | hn
  · exact lt_of_le_of_lt (h.1 n hn) (by decide)
  · rw [List.mem_singleton.mp hn, ← hlast]
    have hpos := List.length_pos_iff.mpr hne
    exact lt_of_lt_of_le h.2 (Nat.pow_le_pow_right (by decide) (by omega : 5 - numbers.length ≤ 4))

theorem eq_of_same {ns ms : List Nat} (h : List.Forall₂ SameNumber ns ms)
    (hfits : Fits ns ∨ Fits ms) : ns = ms := by
  have hlt : (∀ n ∈ ns, n < 2 ^ 32) ∨ ∀ m ∈ ms, m < 2 ^ 32 := hfits.imp Fits.lt Fits.lt
  clear hfits
  induction h with
  | nil => rfl
  | @cons n m ns ms hnm hall ih =>
      have hhead : n = m := by
        rcases hnm with rfl | ⟨hn, hm⟩
        · rfl
        · rcases hlt with hlt | hlt
          · exact absurd (hlt n List.mem_cons_self) (Nat.not_lt.mpr hn)
          · exact absurd (hlt m List.mem_cons_self) (Nat.not_lt.mpr hm)
      rw [hhead, ih (hlt.imp (fun h k hk => h k (List.mem_cons_of_mem _ hk))
        fun h k hk => h k (List.mem_cons_of_mem _ hk))]

theorem address_eq (base : Nat) {numbers : List Nat} (hne : numbers ≠ []) (h : numbers.length ≤ 4) :
    numbers.dropLast.zipIdx.foldl
        (fun address (p : Nat × Nat) => address + p.1 * base ^ (3 - p.2)) (numbers.getLast?.getD 0) =
      ofPlaces base numbers.dropLast * base ^ (5 - numbers.length) + numbers.getLast?.getD 0 := by
  match numbers with
  | [] => exact (hne rfl).elim
  | [a] =>
      change a = 0 * base ^ 4 + a
      ring
  | [a, b] =>
      change b + a * base ^ 3 = (0 * base + a) * base ^ 3 + b
      ring
  | [a, b, c] =>
      change c + a * base ^ 3 + b * base ^ 2 = ((0 * base + a) * base + b) * base ^ 2 + c
      ring
  | [a, b, c, d] =>
      change d + a * base ^ 3 + b * base ^ 2 + c * base ^ 1 =
        (((0 * base + a) * base + b) * base + c) * base ^ 1 + d
      ring
  | _ :: _ :: _ :: _ :: _ :: _ =>
      simp only [List.length_cons] at h
      omega

theorem Fits.value_lt {numbers : List Nat} (h : Fits numbers) (hne : numbers ≠ [])
    (hlength : numbers.length ≤ 4) :
    ofPlaces 256 numbers.dropLast * 256 ^ (5 - numbers.length) + numbers.getLast?.getD 0 < 2 ^ 32 := by
  have hplaces : ofPlaces 256 numbers.dropLast < 256 ^ numbers.dropLast.length :=
    ofPlaces_lt fun d hd => Nat.lt_succ_of_le (h.1 d hd)
  have hpos := List.length_pos_iff.mpr hne
  rw [List.length_dropLast] at hplaces
  calc ofPlaces 256 numbers.dropLast * 256 ^ (5 - numbers.length) + numbers.getLast?.getD 0
      < (ofPlaces 256 numbers.dropLast + 1) * 256 ^ (5 - numbers.length) := by
        rw [Nat.add_mul, Nat.one_mul]
        exact Nat.add_lt_add_left h.2 _
    _ ≤ 256 ^ (numbers.length - 1) * 256 ^ (5 - numbers.length) := Nat.mul_le_mul_right _ hplaces
    _ = 256 ^ 4 := by
        rw [← Nat.pow_add, show numbers.length - 1 + (5 - numbers.length) = 4 by omega]
    _ = 2 ^ 32 := rfl

theorem toDigits_eq_textOf : ∀ n < 256, Nat.toDigits 10 n = textOf 10 3 n := by
  decide +kernel

theorem quad_text {address : Nat} (h : address < 2 ^ 32) :
    ['.'].intercalate
        ([24, 16, 8, 0].map fun shift => Nat.toDigits 10 ((address >>> shift) &&& 0xFF)) =
      text4 (BitVec.ofNat 32 address) := by
  have hbyte : ∀ shift, Nat.toDigits 10 ((address >>> shift) &&& 0xFF) =
      textOf 10 3 (address / 2 ^ shift % 256) := by
    intro shift
    have hmask : (address >>> shift) &&& 0xFF = address / 2 ^ shift % 256 := by
      rw [show (0xFF : Nat) = 2 ^ 8 - 1 from rfl, Nat.and_two_pow_sub_one_eq_mod,
        Nat.shiftRight_eq_div_pow]
    rw [hmask, toDigits_eq_textOf _ (Nat.mod_lt _ (by decide))]
  rw [text4, BitVec.toNat_ofNat, Nat.mod_eq_of_lt h]
  simp only [hbyte, places, List.map_cons, List.map_nil, List.nil_append, List.cons_append,
    Nat.div_div_eq_div_mul, Nat.reduceMul, Nat.reducePow, Nat.div_one]

/-! ## The canonical host -/

theorem labels_ne_nil (host : Text) : labels host ≠ [] := by
  unfold labels
  have hne : host.splitOn '.' ≠ [] := List.splitOn_ne_nil _ _
  dsimp only
  split
  · rename_i h
    intro hnil
    have hlength := congrArg List.length hnil
    rw [List.length_dropLast, List.length_nil] at hlength
    omega
  · exact hne

theorem length_mapM {f : Text → Option Nat} {parts : List Text} {ns : List Nat}
    (h : parts.mapM f = some ns) : ns.length = parts.length := by
  induction parts generalizing ns with
  | nil =>
      cases h
      rfl
  | cons part parts ih =>
      rw [List.mapM_cons] at h
      obtain ⟨n, -, h⟩ := Option.bind_eq_some_iff.mp h
      obtain ⟨ms, hms, h⟩ := Option.bind_eq_some_iff.mp h
      cases h
      rw [List.length_cons, List.length_cons, ih hms]

/-- A host that ends in a number is written as the dotted quad of its value, or as no host. -/
theorem canonicalHost_number {host : Text} (h : EndsInNumber host) :
    canonicalHost host =
      match ipv4Value? (labels host) with
      | some v => text4 (BitVec.ofNat 32 v)
      | none => [] := by
  have hnot : ¬ (¬ ((labels host).getLast?.getD [] ≠ [] ∧
      (((labels host).getLast?.getD []).all fun c => (digit? 10 c).isSome) = true) ∧
      ipv4Number ((labels host).getLast?.getD []) = none) := by
    rintro ⟨hdigits, hnumber⟩
    rcases h with ⟨hne, hall⟩ | hsome
    · exact hdigits ⟨hne, List.all_eq_true.mpr hall⟩
    · rw [(ipv4Number_none_iff _).mp hnumber] at hsome
      cases hsome
  unfold canonicalHost ipv4Value?
  dsimp only
  rw [if_neg hnot]
  rcases mapM_same (labels host) with ⟨hns, hms⟩ | ⟨ns, ms, hns, hms, hsame⟩
  · rw [hns, hms]
    simp
  · rw [hns, hms]
    have hne : ns ≠ [] := by
      rintro rfl
      exact labels_ne_nil host (List.length_eq_zero_iff.mp (length_mapM hns).symm)
    have hlength := length_mapM hns
    simp only [Option.bind_eq_bind, Option.bind_some]
    by_cases hfour : 4 < (labels host).length
    · rw [if_pos hfour, if_neg (by omega)]
    · rw [if_neg hfour]
      by_cases hfits : Fits ns
      · obtain rfl := eq_of_same hsame (.inl hfits)
        have hany : ¬ (ns.dropLast.any fun number => decide (255 < number)) = true := by
          rw [List.any_eq_true]
          rintro ⟨n, hn, hgt⟩
          exact absurd (hfits.1 n hn) (Nat.not_le.mpr (of_decide_eq_true hgt))
        rw [if_neg hany, if_neg (Nat.not_le.mpr hfits.2),
          if_pos ⟨Nat.le_of_not_lt hfour, hfits.1, hfits.2⟩]
        dsimp only
        rw [address_eq 256 hne (by omega)]
        exact quad_text (hfits.value_lt hne (by omega))
      · have hms' : ¬ Fits ms := fun hfits' => by
          rw [← eq_of_same hsame (.inr hfits')] at hfits'
          exact hfits hfits'
        have hnone : ¬ ((labels host).length ≤ 4 ∧ (∀ n ∈ ms.dropLast, n ≤ 255) ∧
            ms.getLast?.getD 0 < 256 ^ (5 - ms.length)) := fun hall => hms' ⟨hall.2.1, hall.2.2⟩
        rw [if_neg hnone]
        by_cases hany : (ns.dropLast.any fun number => decide (255 < number)) = true
        · rw [if_pos hany]
        · have hlast : 256 ^ (5 - ns.length) ≤ ns.getLast?.getD 0 := by
            by_contra hlt
            refine hfits ⟨fun n hn => ?_, Nat.not_le.mp hlt⟩
            by_contra hgt
            exact hany (List.any_eq_true.mpr ⟨n, hn, decide_eq_true (Nat.not_le.mp hgt)⟩)
          rw [if_neg hany, if_pos hlast]

theorem ipv4Value?_lt {host : Text} {v : Nat} (h : ipv4Value? (labels host) = some v) :
    v < 2 ^ 32 := by
  unfold ipv4Value? at h
  obtain ⟨ns, hns, h⟩ := Option.bind_eq_some_iff.mp h
  dsimp only at h
  split at h
  · rename_i hall
    cases h
    have hlength := length_mapM hns
    refine Fits.value_lt ⟨hall.2.1, hall.2.2⟩ ?_ (by omega)
    rintro rfl
    exact labels_ne_nil host (List.length_eq_zero_iff.mp hlength.symm)
  · cases h

theorem canonicalHost_name {host : Text} (h : ¬ EndsInNumber host) : canonicalHost host = host := by
  unfold canonicalHost
  dsimp only
  refine if_pos ⟨fun hdigits => h (.inl ⟨hdigits.1, List.all_eq_true.mp hdigits.2⟩), ?_⟩
  refine (ipv4Number_none_iff _).mpr (Option.not_isSome_iff_eq_none.mp fun hsome => h (.inr hsome))

theorem number?_textOf : ∀ n < 256, number? (textOf 10 3 n) = some n := by
  decide +kernel

theorem labels_text4 (a : BitVec 32) : labels (text4 a) = (places 256 4 a.toNat).map (textOf 10 3) := by
  have hsplit : (text4 a).splitOn '.' = (places 256 4 a.toNat).map (textOf 10 3) := by
    refine List.splitOn_intercalate '.' (fun t ht => ?_) (by simp [places])
    obtain ⟨n, -, rfl⟩ := List.mem_map.mp ht
    exact not_mem_textOf (by decide) (by decide) (by decide)
  unfold labels
  dsimp only
  rw [hsplit, if_neg]
  rintro ⟨hlast, -⟩
  have hmem : [] ∈ (places 256 4 a.toNat).map (textOf 10 3) := List.mem_of_getLast? hlast
  obtain ⟨n, -, hn⟩ := List.mem_map.mp hmem
  exact textOf_ne_nil hn

theorem ipv4Value?_text4 (a : BitVec 32) : ipv4Value? (labels (text4 a)) = some a.toNat := by
  have hmap : ((places 256 4 a.toNat).map (textOf 10 3)).mapM number? =
      some (places 256 4 a.toNat) :=
    mapM_map fun n hn => number?_textOf n (mem_places_lt (by decide) hn)
  have hsplit : places 256 4 a.toNat = places 256 3 (a.toNat / 256) ++ [a.toNat % 256] := rfl
  have hvalue := ofPlaces_places (show a.toNat < 256 ^ 4 from a.isLt)
  rw [hsplit, ofPlaces_concat] at hvalue
  unfold ipv4Value?
  rw [labels_text4, hmap]
  simp only [Option.bind_eq_bind, Option.bind_some]
  rw [length_places, List.length_map, length_places, hsplit, List.dropLast_concat,
    List.getLast?_concat, Option.getD_some, if_pos, Nat.pow_one, hvalue]
  exact ⟨by decide, fun n hn => Nat.le_of_lt_succ (mem_places_lt (by decide) hn),
    Nat.mod_lt _ (by decide)⟩

theorem endsInNumber_text4 (a : BitVec 32) : EndsInNumber (text4 a) := by
  have hlast : (labels (text4 a)).getLast?.getD [] = textOf 10 3 (a.toNat % 256) := by
    rw [labels_text4]
    change ((places 256 3 (a.toNat / 256) ++ [a.toNat % 256]).map (textOf 10 3)).getLast?.getD [] = _
    rw [List.map_append, List.map_singleton, List.getLast?_concat, Option.getD_some]
  refine .inr ?_
  rw [hlast, number?_textOf _ (Nat.mod_lt _ (by decide))]
  rfl

theorem canonicalHost_idempotent (host : Text) :
    canonicalHost (canonicalHost host) = canonicalHost host := by
  by_cases h : EndsInNumber host
  · rw [canonicalHost_number h]
    split
    · rename_i v hv
      rw [canonicalHost_number (endsInNumber_text4 _), ipv4Value?_text4]
      dsimp only
      rw [BitVec.ofNat_toNat, BitVec.setWidth_eq]
    · rfl
  · rw [canonicalHost_name h, canonicalHost_name h]

end Avibe.Citations
