import Mathlib.Data.List.TakeWhile
import Mathlib.Data.Nat.Bitwise
import Mathlib.Data.Nat.Digits.Lemmas
import Avibe.Vault.Addresses

/-!
# Reading an address back

Both encoders are undone by their readers, for every input.

The checksum fold is linear in exclusive or, so the last six values enter it as they are: a fold
over six values is the fold over six zeros, changed by the number that the values spell
(`polymod_checksum`). The regrouping of bits is followed as one number: after any part of the
program the values written are the highest places of the number read so far (`bits_foldl`).
-/

namespace Avibe.Vault.Addresses

open Places

/-! ## The checksum -/

/-- What the generator `g` adds for bit `i` of `top`. -/
def tap (g i top : Nat) : Nat := if (top >>> i) &&& 1 ≠ 0 then g else 0

theorem tap_xor (g i a b : Nat) : tap g i (a ^^^ b) = tap g i a ^^^ tap g i b := by
  unfold tap
  rw [Nat.shiftRight_xor_distrib, Nat.and_xor_distrib_right, Nat.and_one_is_mod, Nat.and_one_is_mod]
  rcases Nat.mod_two_eq_zero_or_one (a >>> i) with ha | ha <;>
    rcases Nat.mod_two_eq_zero_or_one (b >>> i) with hb | hb <;> rw [ha, hb] <;> simp

theorem tap_zero (g i : Nat) : tap g i 0 = 0 := by
  simp [tap]

theorem tap_lt {g : Nat} (h : g < 2 ^ 30) (i top : Nat) : tap g i top < 2 ^ 30 := by
  unfold tap
  split
  · exact h
  · exact Nat.two_pow_pos 30

theorem polymodStep_eq (chk value : Nat) :
    polymodStep chk value =
      ((chk &&& 0x1FFFFFF) <<< 5) ^^^ value ^^^ tap 0x3B6A57B2 0 (chk >>> 25) ^^^
        tap 0x26508E6D 1 (chk >>> 25) ^^^ tap 0x1EA119FA 2 (chk >>> 25) ^^^
        tap 0x3D4233DD 3 (chk >>> 25) ^^^ tap 0x2A1462B3 4 (chk >>> 25) := rfl

/-- A step of the fold is linear in its two arguments together. -/
theorem polymodStep_xor (a b v w : Nat) :
    polymodStep (a ^^^ b) (v ^^^ w) = polymodStep a v ^^^ polymodStep b w := by
  rw [polymodStep_eq, polymodStep_eq, polymodStep_eq, Nat.shiftRight_xor_distrib,
    Nat.and_xor_distrib_right, Nat.shiftLeft_xor_distrib]
  simp only [tap_xor]
  ac_rfl

theorem polymodStep_lt {value : Nat} (h : value < 2 ^ 30) (chk : Nat) :
    polymodStep chk value < 2 ^ 30 := by
  have hlow : (chk &&& 0x1FFFFFF) <<< 5 < 2 ^ 30 := by
    have hmask : chk &&& 0x1FFFFFF < 2 ^ 25 := Nat.and_lt_two_pow chk (by decide)
    rw [Nat.shiftLeft_eq]
    omega
  rw [polymodStep_eq]
  refine Nat.xor_lt_two_pow (Nat.xor_lt_two_pow (Nat.xor_lt_two_pow (Nat.xor_lt_two_pow
    (Nat.xor_lt_two_pow (Nat.xor_lt_two_pow hlow h) ?_) ?_) ?_) ?_) ?_ <;>
    exact tap_lt (by decide) _ _

/-- Below `2 ^ 25` no generator is added: a step only moves the value up. -/
theorem polymodStep_small {chk value : Nat} (h : chk < 2 ^ 25) (hv : value < 32) :
    polymodStep chk value = chk * 32 + value := by
  have htop : chk >>> 25 = 0 := by
    rw [Nat.shiftRight_eq_div_pow]
    exact Nat.div_eq_of_lt h
  have hmask : chk &&& 0x1FFFFFF = chk := by
    rw [show (0x1FFFFFF : Nat) = 2 ^ 25 - 1 from rfl, Nat.and_two_pow_sub_one_eq_mod,
      Nat.mod_eq_of_lt h]
  have hxor : chk <<< 5 ^^^ value = chk <<< 5 + value := by
    apply Nat.eq_of_testBit_eq
    intro i
    rw [Nat.shiftLeft_add_eq_or_of_lt hv, Nat.testBit_xor, Nat.testBit_or, Nat.testBit_shiftLeft]
    by_cases hi : 5 ≤ i
    · have hbit : value.testBit i = false :=
        Nat.testBit_lt_two_pow (lt_of_lt_of_le hv (Nat.pow_le_pow_right Nat.two_pos hi))
      simp [hbit]
    · simp [hi]
  rw [polymodStep_eq, htop, hmask]
  simp only [tap_zero, Nat.xor_zero]
  rw [hxor, Nat.shiftLeft_eq]

theorem foldl_polymodStep_xor (a b : Nat) (vs : List Nat) :
    vs.foldl polymodStep (a ^^^ b) =
      (List.replicate vs.length 0).foldl polymodStep a ^^^ vs.foldl polymodStep b := by
  induction vs generalizing a b with
  | nil => rfl
  | cons v vs ih =>
      rw [List.foldl_cons, List.length_cons, List.replicate_succ, List.foldl_cons, List.foldl_cons,
        ← ih, ← polymodStep_xor, Nat.zero_xor]

theorem foldl_polymodStep_zero {vs : List Nat} (hlength : vs.length ≤ 6) (h : ∀ v ∈ vs, v < 32) :
    vs.foldl polymodStep 0 = ofPlaces 32 vs := by
  induction vs using List.reverseRecOn with
  | nil => rfl
  | append_singleton vs v ih =>
      rw [List.length_append, List.length_singleton] at hlength
      have hvs : ∀ w ∈ vs, w < 32 := fun w hw => h w (List.mem_append_left _ hw)
      have hsmall : ofPlaces 32 vs < 2 ^ 25 := by
        calc ofPlaces 32 vs < 32 ^ vs.length := ofPlaces_lt hvs
          _ ≤ 32 ^ 5 := Nat.pow_le_pow_right (by decide) (by omega)
      rw [List.foldl_append, ih (by omega) hvs, ofPlaces_concat]
      exact polymodStep_small hsmall (h v (by simp))

theorem foldl_polymodStep_lt {chk : Nat} (hchk : chk < 2 ^ 30) {vs : List Nat}
    (h : ∀ v ∈ vs, v < 2 ^ 30) : vs.foldl polymodStep chk < 2 ^ 30 := by
  induction vs generalizing chk with
  | nil => exact hchk
  | cons v vs ih =>
      obtain ⟨hv, hvs⟩ := List.forall_mem_cons.mp h
      exact ih (polymodStep_lt hv chk) hvs

theorem bech32Checksum_eq (hrp : Text) (data : List Nat) (const : Nat) :
    bech32Checksum hrp data const =
      places 32 6 (bech32Polymod (hrpExpand hrp ++ data ++ List.replicate 6 0) ^^^ const) := by
  unfold bech32Checksum
  dsimp only
  rw [show [0, 0, 0, 0, 0, 0] = List.replicate 6 0 from rfl]
  generalize bech32Polymod (hrpExpand hrp ++ data ++ List.replicate 6 0) ^^^ const = p
  have hand : ∀ x : Nat, x &&& 31 = x % 32 := fun x => Nat.and_two_pow_sub_one_eq_mod x 5
  rw [show List.range 6 = [0, 1, 2, 3, 4, 5] from rfl]
  simp only [List.map_cons, List.map_nil, hand, Nat.shiftRight_eq_div_pow, places,
    List.nil_append, List.cons_append, Nat.div_div_eq_div_mul]
  simp only [Nat.reduceMul, Nat.reduceSub, Nat.reducePow, Nat.div_one]

theorem mem_bech32Checksum {hrp : Text} {data : List Nat} {const d : Nat}
    (h : d ∈ bech32Checksum hrp data const) : d < 32 := by
  rw [bech32Checksum_eq] at h
  exact mem_places_lt (by decide) h

theorem mem_hrpExpand {hrp : Text} {v : Nat} (h : v ∈ hrpExpand hrp) : v < 2 ^ 30 := by
  unfold hrpExpand at h
  rcases List.mem_append.mp h with h | h
  · rcases List.mem_append.mp h with h | h
    · obtain ⟨c, -, rfl⟩ := List.mem_map.mp h
      have hc : c.toNat < 0x110000 := by
        rcases c.valid with hc | hc
        · exact lt_trans hc (by decide)
        · exact hc.2
      have hle : c.toNat >>> 5 ≤ c.toNat := by
        rw [Nat.shiftRight_eq_div_pow]
        exact Nat.div_le_self _ _
      exact lt_of_le_of_lt hle (lt_trans hc (by decide))
    · rw [List.mem_singleton.mp h]
      decide
  · obtain ⟨c, -, rfl⟩ := List.mem_map.mp h
    exact lt_of_le_of_lt Nat.and_le_right (by decide)

/-- The checksum is the one that makes the fold end in the constant. -/
theorem polymod_checksum (hrp : Text) {data : List Nat} {const : Nat} (hdata : ∀ d ∈ data, d < 32)
    (hconst : const < 2 ^ 30) :
    bech32Polymod (hrpExpand hrp ++ (data ++ bech32Checksum hrp data const)) = const := by
  have hlt : bech32Polymod (hrpExpand hrp ++ data ++ List.replicate 6 0) < 2 ^ 30 := by
    refine foldl_polymodStep_lt (by decide) fun v hv => ?_
    rcases List.mem_append.mp hv with hv | hv
    · rcases List.mem_append.mp hv with hv | hv
      · exact mem_hrpExpand hv
      · exact lt_trans (hdata v hv) (by decide)
    · rw [List.eq_of_mem_replicate hv]
      decide
  rw [← List.append_assoc, bech32Checksum_eq]
  generalize hp : bech32Polymod (hrpExpand hrp ++ data ++ List.replicate 6 0) = p at hlt ⊢
  have hnumber : (places 32 6 (p ^^^ const)).foldl polymodStep 0 = p ^^^ const := by
    rw [foldl_polymodStep_zero (by rw [length_places]) fun v hv => mem_places_lt (by decide) hv]
    exact ofPlaces_places (Nat.xor_lt_two_pow hlt hconst)
  have hfold := foldl_polymodStep_xor (bech32Polymod (hrpExpand hrp ++ data)) 0
    (places 32 6 (p ^^^ const))
  rw [Nat.xor_zero, length_places, hnumber] at hfold
  unfold bech32Polymod at hp hfold ⊢
  rw [List.foldl_append] at hp
  rw [List.foldl_append, hfold, hp, ← Nat.xor_assoc, Nat.xor_self, Nat.zero_xor]

/-! ## The groups of bits -/

theorem and_mask (x t : Nat) : x &&& ((1 <<< t) - 1) = x % 2 ^ t := by
  rw [Nat.one_shiftLeft, Nat.and_two_pow_sub_one_eq_mod]

theorem drain_eq {tobits : Nat} (ht : 0 < tobits) (acc bits : Nat) (ret : List Nat) :
    drain acc tobits bits ret =
      (bits % tobits,
        ret ++ places (2 ^ tobits) (bits / tobits) (acc / 2 ^ (bits % tobits))) := by
  fun_induction drain acc tobits bits ret with
  | case1 bits ret h ih =>
      have hmod : (bits - tobits) % tobits = bits % tobits := (Nat.mod_eq_sub_mod h.2).symm
      have hdiv : bits / tobits = 1 + (bits - tobits) / tobits := by
        rw [Nat.div_eq_sub_div ht h.2, Nat.add_comm]
      have hsum : bits % tobits + tobits * ((bits - tobits) / tobits) = bits - tobits := by
        rw [← hmod, Nat.mod_add_div]
      have htop : acc / 2 ^ (bits % tobits) / (2 ^ tobits) ^ ((bits - tobits) / tobits) =
          acc >>> (bits - tobits) := by
        rw [Nat.div_div_eq_div_mul, ← Nat.pow_mul, ← Nat.pow_add, hsum, Nat.shiftRight_eq_div_pow]
      rw [ih, hmod, hdiv, places_add, htop, and_mask, List.append_assoc]
      rfl
  | case2 bits ret h =>
      have hlt : bits < tobits := by
        by_contra hge
        exact h ⟨ht, Nat.le_of_not_lt hge⟩
      rw [Nat.mod_eq_of_lt hlt, Nat.div_eq_of_lt hlt, places, List.append_nil]

theorem mem_toNat_lt (data : List UInt8) : ∀ d ∈ data.map UInt8.toNat, d < 256 := by
  intro d hd
  obtain ⟨b, -, rfl⟩ := List.mem_map.mp hd
  exact b.toNat_lt

theorem ofBig_concat (data : List UInt8) (value : UInt8) :
    ofBig (data ++ [value]) = ofBig data * 256 + value.toNat := by
  rw [ofBig, List.map_append, List.map_singleton, ofPlaces_concat]
  rfl

theorem ofBig_lt (data : List UInt8) : ofBig data < 256 ^ data.length := by
  have hlt : ofBig data < 256 ^ (data.map UInt8.toNat).length := ofPlaces_lt (mem_toNat_lt data)
  rwa [List.length_map] at hlt

theorem places_ofBig (data : List UInt8) :
    (places 256 data.length (ofBig data)).map UInt8.ofNat = data := by
  have hplaces : places 256 (data.map UInt8.toNat).length (ofBig data) = data.map UInt8.toNat :=
    places_ofPlaces (mem_toNat_lt data)
  rw [List.length_map] at hplaces
  rw [hplaces, List.map_map]
  exact List.map_id'' (fun b => UInt8.ofNat_toNat) data

/-- The values written after a part of the program are the highest places of its number, and the
bits at hand are those that are left of it. -/
theorem bits_foldl {tobits : Nat} (ht : 0 < tobits) (data : List UInt8) :
    data.foldl (Bits.step 8 tobits) {} =
      { acc := ofBig data
        bits := 8 * data.length % tobits
        ret := places (2 ^ tobits) (8 * data.length / tobits)
          (ofBig data / 2 ^ (8 * data.length % tobits)) } := by
  induction data using List.reverseRecOn with
  | nil => simp [ofBig, ofPlaces, places]
  | append_singleton data value ih =>
      have hacc : ofBig data <<< 8 ||| value.toNat = ofBig (data ++ [value]) := by
        rw [← Nat.shiftLeft_add_eq_or_of_lt value.toNat_lt, Nat.shiftLeft_eq, ofBig_concat]
      have hhigh : ofBig (data ++ [value]) / 2 ^ 8 = ofBig data := by
        have hvalue := value.toNat_lt
        rw [ofBig_concat]
        omega
      rw [List.foldl_append, ih, List.foldl_cons, List.foldl_nil, Bits.step]
      dsimp only
      rw [hacc, drain_eq ht, List.length_append, List.length_singleton, Nat.mul_add, Nat.mul_one]
      generalize 8 * data.length = B
      have hdiv : (B + 8) / tobits = B / tobits + (B % tobits + 8) / tobits := by
        conv_lhs => rw [← Nat.div_add_mod B tobits, Nat.add_assoc, Nat.mul_add_div ht]
      have htop : ofBig (data ++ [value]) / 2 ^ ((B + 8) % tobits) /
          (2 ^ tobits) ^ ((B % tobits + 8) / tobits) = ofBig data / 2 ^ (B % tobits) := by
        rw [Nat.div_div_eq_div_mul, ← Nat.pow_mul, ← Nat.pow_add, ← Nat.mod_add_mod B, Nat.mod_add_div,
          Nat.add_comm, Nat.pow_add, ← Nat.div_div_eq_div_mul, hhigh]
      rw [Nat.mod_add_mod, hdiv, places_add, htop]

/-- The number of pad bits after a program of `n` bytes. -/
def padBits (n : Nat) : Nat := 5 * ((8 * n + 4) / 5) - 8 * n

/-- The program with its pad bits as one number, five bits at a time. -/
theorem convertbits_eq (data : List UInt8) :
    convertbits data 8 5 =
      places 32 ((8 * data.length + 4) / 5) (ofBig data * 2 ^ padBits data.length) := by
  unfold convertbits padBits
  rw [bits_foldl (by decide)]
  dsimp only
  generalize 8 * data.length = B
  by_cases hbits : B % 5 = 0
  · have hwidth : (B + 4) / 5 = B / 5 := by omega
    have hpad : 5 * (B / 5) - B = 0 := by omega
    rw [if_neg (by simpa using hbits), hbits, hwidth, hpad, Nat.pow_zero, Nat.div_one, Nat.mul_one]
    rfl
  · have hwidth : (B + 4) / 5 = B / 5 + 1 := by omega
    have hpad : 5 * (B / 5 + 1) - B = 5 - B % 5 := by omega
    have hpow : 2 ^ 5 = 2 ^ (B % 5) * 2 ^ (5 - B % 5) := by
      rw [← Nat.pow_add]
      congr 1
      omega
    have hhigh : ofBig data * 2 ^ (5 - B % 5) / 32 = ofBig data / 2 ^ (B % 5) := by
      rw [show (32 : Nat) = 2 ^ 5 from rfl, hpow]
      exact Nat.mul_div_mul_right _ _ (Nat.two_pow_pos _)
    rw [if_pos hbits, hwidth, hpad, places, hhigh, and_mask, Nat.shiftLeft_eq]
    rfl

theorem mem_convertbits {data : List UInt8} {d : Nat} (h : d ∈ convertbits data 8 5) : d < 32 := by
  rw [convertbits_eq] at h
  exact mem_places_lt (by decide) h

theorem regroup_convertbits (data : List UInt8) : regroup (convertbits data 8 5) = some data := by
  have hnumber : ofBig data * 2 ^ padBits data.length < 32 ^ ((8 * data.length + 4) / 5) := by
    have hpow : 32 ^ ((8 * data.length + 4) / 5) =
        256 ^ data.length * 2 ^ padBits data.length := by
      rw [show (32 : Nat) = 2 ^ 5 from rfl, show (256 : Nat) = 2 ^ 8 from rfl, ← Nat.pow_mul,
        ← Nat.pow_mul, ← Nat.pow_add]
      congr 1
      unfold padBits
      omega
    rw [hpow]
    exact Nat.mul_lt_mul_of_pos_right (ofBig_lt data) (Nat.two_pow_pos _)
  have hpad : 5 * ((8 * data.length + 4) / 5) % 8 = padBits data.length := by
    unfold padBits
    omega
  have hbytes : 5 * ((8 * data.length + 4) / 5) / 8 = data.length := by omega
  have hle : padBits data.length ≤ 4 := by
    unfold padBits
    omega
  unfold regroup
  dsimp only
  rw [convertbits_eq, length_places, ofPlaces_places hnumber, hpad, hbytes,
    if_pos ⟨hle, Nat.mul_mod_left _ _⟩, Nat.mul_div_cancel _ (Nat.two_pow_pos _), places_ofBig]

/-! ## The text of an address -/

def bech32Char (d : Nat) : Char := bech32Charset.getD d 'q'

theorem bech32Char_ok : ∀ d < 32, bech32Charset[d]? = some (bech32Char d) ∧
    bech32Charset.idxOf? (bech32Char d) = some d ∧ (bech32Char d != '1') = true := by
  decide +kernel

theorem mapM_bech32 {ds : List Nat} (h : ∀ d ∈ ds, d < 32) :
    ds.mapM (bech32Charset[·]?) = some (ds.map bech32Char) := by
  induction ds with
  | nil => rfl
  | cons d ds ih =>
      obtain ⟨hd, hds⟩ := List.forall_mem_cons.mp h
      rw [List.mapM_cons, (bech32Char_ok d hd).1, ih hds]
      rfl

theorem splitAddress_text (hrp : Text) {ds : List Nat} (h : ∀ d ∈ ds, d < 32) :
    splitAddress (hrp ++ '1' :: ds.map bech32Char) = some (hrp, ds) := by
  have hsymbols : ∀ c ∈ (ds.map bech32Char).reverse, (c != '1') = true := by
    intro c hc
    obtain ⟨d, hd, rfl⟩ := List.mem_map.mp (List.mem_reverse.mp hc)
    exact (bech32Char_ok d (h d hd)).2.2
  have hreverse : (hrp ++ '1' :: ds.map bech32Char).reverse =
      (ds.map bech32Char).reverse ++ '1' :: hrp.reverse := by simp
  have htake : ((ds.map bech32Char).reverse ++ '1' :: hrp.reverse).takeWhile (· != '1') =
      (ds.map bech32Char).reverse := by
    rw [List.takeWhile_append_of_pos hsymbols]
    simp
  have hdrop : ((ds.map bech32Char).reverse ++ '1' :: hrp.reverse).dropWhile (· != '1') =
      '1' :: hrp.reverse := by
    rw [List.dropWhile_append_of_pos hsymbols]
    simp
  have hvalues : (ds.map bech32Char).mapM bech32Charset.idxOf? = some ds :=
    mapM_map fun d hd => (bech32Char_ok d (h d hd)).2.1
  unfold splitAddress
  dsimp only
  rw [hreverse, htake, hdrop, List.reverse_reverse, hvalues]
  simp

/-- The version, the program and the checksum, as values below 32. -/
def segwitSymbols (hrp : Text) (witver : Nat) (witprog : List UInt8) : List Nat :=
  (witver :: convertbits witprog 8 5) ++
    bech32Checksum hrp (witver :: convertbits witprog 8 5) (versionConst witver)

section Segwit

variable (hrp : Text) {witver : Nat} (witprog : List UInt8)

theorem mem_segwitData (h : witver ≤ 16) : ∀ d ∈ witver :: convertbits witprog 8 5, d < 32 := by
  intro d hd
  rcases List.mem_cons.mp hd with rfl | hd
  · omega
  · exact mem_convertbits hd

theorem mem_segwitSymbols (h : witver ≤ 16) : ∀ d ∈ segwitSymbols hrp witver witprog, d < 32 := by
  intro d hd
  rcases List.mem_append.mp hd with hd | hd
  · exact mem_segwitData witprog h d hd
  · exact mem_bech32Checksum hd

theorem segwitEncode_eq (h : witver ≤ 16) :
    segwitEncode hrp witver witprog =
      some (hrp ++ '1' :: (segwitSymbols hrp witver witprog).map bech32Char) := by
  have hsymbols := mapM_bech32 (mem_segwitSymbols hrp witprog h)
  unfold segwitEncode
  unfold segwitSymbols at hsymbols ⊢
  dsimp only at hsymbols ⊢
  rw [hsymbols]
  rfl

theorem versionConst_lt (witver : Nat) : versionConst witver < 2 ^ 30 := by
  unfold versionConst
  split <;> decide

theorem segwitDecode_encode (h : witver ≤ 16) :
    (segwitEncode hrp witver witprog).bind segwitDecode = some (hrp, witver, witprog) := by
  have hsplit := splitAddress_text hrp (mem_segwitSymbols hrp witprog h)
  have hchecksum : bech32Polymod (hrpExpand hrp ++ segwitSymbols hrp witver witprog) =
      versionConst witver :=
    polymod_checksum hrp (mem_segwitData witprog h) (versionConst_lt witver)
  have hdata : (segwitSymbols hrp witver witprog).take
      ((segwitSymbols hrp witver witprog).length - 6) = witver :: convertbits witprog 8 5 := by
    unfold segwitSymbols
    rw [bech32Checksum_eq, List.length_append, length_places, Nat.add_sub_cancel]
    exact List.take_left
  rw [segwitEncode_eq hrp witprog h, Option.bind_some]
  unfold segwitDecode
  rw [hsplit]
  simp only [Option.bind_eq_bind, Option.bind_some, hchecksum, hdata, List.tail_cons,
    regroup_convertbits]
  simp [segwitSymbols]

end Segwit

/-! ## Base58 -/

theorem ofPlaces_eq_ofDigits (base : Nat) (ds : List Nat) :
    ofPlaces base ds = Nat.ofDigits base ds.reverse := by
  induction ds using List.reverseRecOn with
  | nil => rfl
  | append_singleton ds d ih =>
      rw [ofPlaces_concat, ih, List.reverse_append, List.reverse_singleton, List.singleton_append,
        Nat.ofDigits_cons, Nat.mul_comm, Nat.add_comm]

theorem b58Char_ok : ∀ d < 58, b58Charset.idxOf? (b58Char d) = some d := by
  decide +kernel

theorem b58Loop_eq (n : Nat) (out : Text) :
    b58Loop n out = (Nat.digits 58 n).reverse.map b58Char ++ out := by
  fun_induction b58Loop n out with
  | case1 out => simp
  | case2 n out h ih =>
      rw [ih, Nat.digits_def' (by decide) (Nat.pos_of_ne_zero h), List.reverse_cons,
        List.map_append, List.append_assoc]
      rfl

/-- The digits of a number do not start with a `1` in the text. -/
theorem takeWhile_digits (zeros n : Nat) :
    (List.replicate zeros '1' ++ (Nat.digits 58 n).reverse.map b58Char).takeWhile (· == '1') =
      List.replicate zeros '1' := by
  have hones : ∀ c ∈ List.replicate zeros '1', (c == '1') = true := fun c hc => by
    rw [List.eq_of_mem_replicate hc]
    rfl
  rw [List.takeWhile_append_of_pos hones]
  by_cases hn : n = 0
  · simp [hn]
  · have hlast := Nat.getLast_digit_ne_zero 58 hn
    cases hds : (Nat.digits 58 n).reverse with
    | nil => simp
    | cons d ds =>
        have hd : d = (Nat.digits 58 n).getLast (Nat.digits_ne_nil_iff_ne_zero.mpr hn) := by
          have hhead : (Nat.digits 58 n).reverse.head? = some d := by rw [hds]; rfl
          rw [List.head?_reverse, List.getLast?_eq_getLast_of_ne_nil] at hhead
          exact (Option.some.inj hhead).symm
        have hlt : d < 58 := by
          rw [hd]
          exact Nat.digits_lt_base (by decide) (List.getLast_mem _)
        have hne : ¬ (b58Char d == '1') = true := by
          intro hone
          have hindex := b58Char_ok d hlt
          rw [eq_of_beq hone] at hindex
          exact hlast (hd.symm.trans (Option.some.inj hindex).symm)
        rw [List.map_cons, List.takeWhile_cons, if_neg hne, List.append_nil]

theorem replicate_leadingZeros (data : List UInt8) :
    List.replicate (leadingZeros data) 0 ++ data.dropWhile (· == 0) = data := by
  induction data with
  | nil => rfl
  | cons b data ih =>
      by_cases hb : b = 0
      · have hdrop : (b :: data).dropWhile (· == 0) = data.dropWhile (· == 0) :=
          List.dropWhile_cons_of_pos (by simpa using hb)
        have hle : (data.dropWhile (· == 0)).length ≤ data.length :=
          (List.dropWhile_sublist _).length_le
        have hzeros : leadingZeros (b :: data) = leadingZeros data + 1 := by
          unfold leadingZeros
          rw [hdrop, List.length_cons]
          omega
        rw [hzeros, hdrop, List.replicate_succ, List.cons_append, ih, hb]
      · have hdrop : (b :: data).dropWhile (· == 0) = b :: data :=
          List.dropWhile_cons_of_neg (by simpa using hb)
        rw [leadingZeros, hdrop, Nat.sub_self, List.replicate_zero, List.nil_append]

theorem ofBig_dropWhile (data : List UInt8) : ofBig (data.dropWhile (· == 0)) = ofBig data := by
  have hmap : (data.dropWhile (· == 0)).map UInt8.toNat =
      (data.map UInt8.toNat).dropWhile (· == 0) := by
    rw [List.dropWhile_map]
    congr 2
    funext b
    exact Bool.eq_iff_iff.mpr (by simp [← UInt8.toNat_inj])
  rw [ofBig, hmap, ofPlaces_dropWhile, ofBig]

/-- A byte string that does not start with a zero byte is read off its number. -/
theorem digits_ofBig {data : List UInt8} (h : data.head? ≠ some 0) :
    ((Nat.digits 256 (ofBig data)).reverse).map UInt8.ofNat = data := by
  have hdigits : Nat.digits 256 (ofBig data) = (data.map UInt8.toNat).reverse := by
    rw [ofBig, ofPlaces_eq_ofDigits]
    refine Nat.digits_ofDigits 256 (by decide) _ (fun d hd => ?_) fun hne => ?_
    · exact mem_toNat_lt data d (List.mem_reverse.mp hd)
    · rw [List.getLast_reverse]
      cases data with
      | nil => simp at hne
      | cons b data =>
          intro hzero
          refine h (congrArg some ?_)
          exact UInt8.toNat_inj.mp hzero
  rw [hdigits, List.reverse_reverse, List.map_map]
  exact List.map_id'' (fun b => UInt8.ofNat_toNat) data

theorem b58decode_text (data : List UInt8) :
    b58decode (List.replicate (leadingZeros data) '1' ++ b58Loop (ofBig data) []) = some data := by
  have hchars : List.replicate (leadingZeros data) '1' ++
      (Nat.digits 58 (ofBig data)).reverse.map b58Char =
      (List.replicate (leadingZeros data) 0 ++ (Nat.digits 58 (ofBig data)).reverse).map b58Char := by
    rw [List.map_append, List.map_replicate]
    rfl
  have hdigits : ((List.replicate (leadingZeros data) 0 ++
      (Nat.digits 58 (ofBig data)).reverse).map b58Char).mapM b58Charset.idxOf? =
      some (List.replicate (leadingZeros data) 0 ++ (Nat.digits 58 (ofBig data)).reverse) := by
    refine mapM_map fun d hd => b58Char_ok d ?_
    rcases List.mem_append.mp hd with hd | hd
    · rw [List.eq_of_mem_replicate hd]
      decide
    · exact Nat.digits_lt_base (by decide) (List.mem_reverse.mp hd)
  have hnumber : ofPlaces 58 (List.replicate (leadingZeros data) 0 ++
      (Nat.digits 58 (ofBig data)).reverse) = ofBig data := by
    rw [ofPlaces_eq_ofDigits, List.reverse_append, List.reverse_reverse, List.reverse_replicate,
      Nat.ofDigits_append_replicate_zero, Nat.ofDigits_digits]
  have hhead : (data.dropWhile (· == 0)).head? ≠ some 0 := by
    intro hzero
    have hnot := List.head?_dropWhile_not (· == 0) data
    rw [hzero] at hnot
    simp at hnot
  have hrest := digits_ofBig hhead
  rw [ofBig_dropWhile] at hrest
  rw [b58Loop_eq, List.append_nil]
  unfold b58decode
  rw [takeWhile_digits, hchars, hdigits]
  simp only [Option.bind_eq_bind, Option.bind_some, hnumber, List.length_replicate, hrest,
    replicate_leadingZeros, Option.pure_def]

theorem b58decode_b58check (sha256 : List UInt8 → Vector UInt8 32) (payload : List UInt8) :
    b58decode (b58check sha256 payload) = some (checkedPayload sha256 payload) :=
  b58decode_text _

theorem b58check_injective (sha256 : List UInt8 → Vector UInt8 32) :
    Function.Injective (b58check sha256) := by
  intro p q h
  have hread := congrArg b58decode h
  rw [b58decode_b58check, b58decode_b58check] at hread
  have hpayload := Option.some.inj hread
  have hlength : p.length = q.length := by
    have hlengths := congrArg List.length hpayload
    simpa [checkedPayload] using hlengths
  exact (List.append_inj hpayload hlength).1

theorem segwitEncode_injective :
    Function.Injective fun a : Text × Fin 17 × List UInt8 => segwitEncode a.1 a.2.1 a.2.2 := by
  rintro ⟨hrp, v, p⟩ ⟨hrp', v', p'⟩ h
  have hread := congrArg (Option.bind · segwitDecode) h
  simp only [segwitDecode_encode _ _ (Nat.le_of_lt_succ (Fin.is_lt _)), Option.some.injEq,
    Prod.mk.injEq] at hread
  obtain ⟨rfl, hv, rfl⟩ := hread
  rw [Fin.ext hv]

/-- Every segwit address is read back to its version and program with a valid checksum, every
base58 address to its payload and checksum bytes, and no two inputs share an address. -/
theorem addresses_decode (sha256 : List UInt8 → Vector UInt8 32) :
    (∀ (hrp : Text) (witver : Fin 17) (witprog : List UInt8), ∃ text data checksum,
      segwitEncode hrp witver witprog = some text ∧
      splitAddress text = some (hrp, witver.val :: data ++ checksum) ∧
      checksum.length = 6 ∧
      bech32Polymod (hrpExpand hrp ++ (witver.val :: data) ++ checksum) = versionConst witver ∧
      regroup data = some witprog) ∧
    (∀ payload, b58decode (b58check sha256 payload) =
      some (payload ++ (sha256 (sha256 payload).toList).toList.take 4)) ∧
    Function.Injective (fun a : Text × Fin 17 × List UInt8 => segwitEncode a.1 a.2.1 a.2.2) ∧
    Function.Injective (b58check sha256) := by
  refine ⟨fun hrp witver witprog => ?_, b58decode_b58check sha256, segwitEncode_injective,
    b58check_injective sha256⟩
  have hver : witver.val ≤ 16 := Nat.le_of_lt_succ witver.isLt
  refine ⟨_, convertbits witprog 8 5,
    bech32Checksum hrp (witver.val :: convertbits witprog 8 5) (versionConst witver),
    segwitEncode_eq hrp witprog hver, splitAddress_text hrp (mem_segwitSymbols hrp witprog hver),
    ?_, ?_, regroup_convertbits witprog⟩
  · rw [bech32Checksum_eq, length_places]
  · rw [List.append_assoc]
    exact polymod_checksum hrp (mem_segwitData witprog hver) (versionConst_lt witver)

end Avibe.Vault.Addresses
