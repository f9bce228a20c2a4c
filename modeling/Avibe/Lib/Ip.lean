import Avibe.Lib.Places

/-!
# IP addresses and their texts

IPv4 and IPv6 addresses as numbers, the text of an address and the address of a text. A text
is written with the longest run of zero groups left out; whatever run is left out, reading
the text gives the address back (`parse_text`).
-/

namespace Ip

open Places

abbrev Text := List Char

/-! ## Digits -/

def digitValue? (c : Char) : Option Nat :=
  if '0' ≤ c ∧ c ≤ '9' then some (c.toNat - '0'.toNat)
  else if 'a' ≤ c ∧ c ≤ 'f' then some (c.toNat - 'a'.toNat + 10)
  else if 'A' ≤ c ∧ c ≤ 'F' then some (c.toNat - 'A'.toNat + 10)
  else none

/-- The text of a number in this base, in lower case and without leading zeros. -/
def textOf (base width n : Nat) : Text := (numeral base width n).map Nat.digitChar

/-- The number of a text of digits below the base. -/
def valueOf? (base : Nat) (t : Text) : Option Nat :=
  (t.mapM fun c => (digitValue? c).filter (· < base)).map (ofPlaces base)

theorem digitValue?_digitChar : ∀ d < 16, digitValue? (Nat.digitChar d) = some d := by decide

theorem digitChar_mem : ∀ d < 16, Nat.digitChar d ∈ "0123456789abcdef".toList := by decide

section Texts

variable {base width n : Nat}

theorem valueOf?_map {ds : List Nat} (hbase : base ≤ 16) (h : ∀ d ∈ ds, d < base) :
    valueOf? base (ds.map Nat.digitChar) = some (ofPlaces base ds) := by
  have hdigits : (ds.map Nat.digitChar).mapM
      (fun c => (digitValue? c).filter (· < base)) = some ds := by
    refine mapM_map fun d hd => ?_
    rw [digitValue?_digitChar d (Nat.lt_of_lt_of_le (h d hd) hbase), Option.filter_some,
      if_pos (decide_eq_true (h d hd))]
  rw [valueOf?, hdigits, Option.map_some]

theorem valueOf?_textOf (hbase : base ≤ 16) (hpos : 0 < base) (h : n < base ^ width) :
    valueOf? base (textOf base width n) = some n := by
  rw [textOf, valueOf?_map hbase fun d hd => mem_numeral_lt hpos hd, ofPlaces_numeral h]

/-- The digits that the library writes for a number, as places. -/
theorem toDigits_eq_map (hbase : 1 < base) (n : Nat) :
    ∃ ds, Nat.toDigits base n = ds.map Nat.digitChar ∧ (∀ d ∈ ds, d < base) ∧
      ofPlaces base ds = n := by
  induction n using Nat.strong_induction_on with
  | _ n ih =>
      rw [Nat.toDigits_eq_if hbase]
      split
      · rename_i hlt
        refine ⟨[n], rfl, fun d hd => ?_, ?_⟩
        · rw [List.mem_singleton.mp hd]
          exact hlt
        · simp [ofPlaces]
      · rename_i hge
        obtain ⟨ds, hds, hlt, hvalue⟩ := ih (n / base) (Nat.div_lt_self (by omega) hbase)
        refine ⟨ds ++ [n % base], ?_, fun d hd => ?_, ?_⟩
        · rw [hds, List.map_append, List.map_singleton]
        · rcases List.mem_append.mp hd with hd | hd
          · exact hlt d hd
          · rw [List.mem_singleton.mp hd]
            exact Nat.mod_lt n (by omega)
        · rw [ofPlaces_concat, hvalue, Nat.mul_comm, Nat.div_add_mod]

theorem valueOf?_toDigits (hone : 1 < base) (hbase : base ≤ 16) (n : Nat) :
    valueOf? base (Nat.toDigits base n) = some n := by
  obtain ⟨ds, hds, hlt, hvalue⟩ := toDigits_eq_map hone n
  rw [hds, valueOf?_map hbase hlt, hvalue]

theorem mem_textOf (hbase : base ≤ 16) (hpos : 0 < base) {c : Char} (h : c ∈ textOf base width n) :
    c ∈ "0123456789abcdef".toList := by
  obtain ⟨d, hd, rfl⟩ := List.mem_map.mp h
  exact digitChar_mem d (Nat.lt_of_lt_of_le (mem_numeral_lt hpos hd) hbase)

theorem textOf_ne_nil : textOf base width n ≠ [] := by
  rw [textOf, Ne, List.map_eq_nil_iff]
  exact numeral_ne_nil

theorem length_textOf_le (hwidth : 0 < width) : (textOf base width n).length ≤ width := by
  rw [textOf, List.length_map]
  exact length_numeral_le hwidth

end Texts

/-! ## IPv4 -/

/-- An octet has at most three decimal digits and no leading zero. -/
def octet? (t : Text) : Option Nat :=
  if t = [] ∨ 3 < t.length ∨ (t ≠ ['0'] ∧ t.head? = some '0') then none
  else (valueOf? 10 t).filter (· ≤ 255)

def parse4 (t : Text) : Option (BitVec 32) :=
  let octets := t.splitOn '.'
  if octets.length = 4 then (octets.mapM octet?).map fun os => BitVec.ofNat 32 (ofPlaces 256 os)
  else none

def text4 (a : BitVec 32) : Text :=
  ['.'].intercalate ((places 256 4 a.toNat).map (textOf 10 3))

theorem octet?_textOf : ∀ n < 256, octet? (textOf 10 3 n) = some n := by decide +kernel

theorem not_mem_textOf {base width n : Nat} (hbase : base ≤ 16) (hpos : 0 < base) {c : Char}
    (hc : c ∉ "0123456789abcdef".toList) : c ∉ textOf base width n := fun h =>
  hc (mem_textOf hbase hpos h)

theorem parse4_text4 (a : BitVec 32) : parse4 (text4 a) = some a := by
  have hsplit : (text4 a).splitOn '.' = (places 256 4 a.toNat).map (textOf 10 3) := by
    refine List.splitOn_intercalate '.' (fun t ht => ?_) (by simp [places])
    obtain ⟨n, -, rfl⟩ := List.mem_map.mp ht
    exact not_mem_textOf (by decide) (by decide) (by decide)
  have hoctets : ((places 256 4 a.toNat).map (textOf 10 3)).mapM octet? =
      some (places 256 4 a.toNat) :=
    mapM_map fun n hn => octet?_textOf n (mem_places_lt (by decide) hn)
  unfold parse4
  dsimp only
  rw [hsplit, hoctets, if_pos (by simp), Option.map_some,
    ofPlaces_places (by simpa using a.isLt), BitVec.ofNat_toNat, BitVec.setWidth_eq]

/-! ## IPv6 -/

/-- A group has at most four hexadecimal digits. -/
def group? (t : Text) : Option Nat :=
  if t = [] ∨ 4 < t.length then none else valueOf? 16 t

/-- The groups around an omitted run. A text that starts or ends with the run has an empty part
there, and no other part on that side. -/
def sides? (first : Text) (before after : List Text) (last : Text) :
    Option (List Text × List Text) :=
  if (first = [] ∧ before ≠ []) ∨ (last = [] ∧ after ≠ []) then none
  else some (if first = [] then [] else first :: before, if last = [] then [] else after ++ [last])

/-- The eight groups of the parts between the colons. -/
def groups? (first : Text) (inner : List Text) (last : Text) : Option (List Nat) :=
  match inner.dropWhile (· ≠ []) with
  | [] =>
      if inner.length + 2 = 8 ∧ first ≠ [] ∧ last ≠ [] then
        (first :: inner ++ [last]).mapM group?
      else none
  | _ :: after =>
      if [] ∈ after then none
      else
        match sides? first (inner.takeWhile (· ≠ [])) after last with
        | none => none
        | some (high, low) =>
            if high.length + low.length < 8 then do
              let h ← high.mapM group?
              let l ← low.mapM group?
              return h ++ List.replicate (8 - (high.length + low.length)) 0 ++ l
            else none

/-- The last two groups may be written as an IPv4 address. -/
def withoutDotted (parts : List Text) : Option (List Text) :=
  match parts.getLast? with
  | none => some parts
  | some last =>
      if '.' ∈ last then
        (parse4 last).map fun a =>
          parts.dropLast ++ [textOf 16 4 (a.toNat / 65536), textOf 16 4 (a.toNat % 65536)]
      else some parts

def parse6 (t : Text) : Option (BitVec 128) :=
  let parts := t.splitOn ':'
  if parts.length < 3 then none
  else
    match withoutDotted parts with
    | none => none
    | some parts =>
        if 9 < parts.length then none
        else
          match parts with
          | [] => none
          | first :: rest =>
              (groups? first rest.dropLast (rest.getLast?.getD [])).map fun gs =>
                BitVec.ofNat 128 (ofPlaces 65536 gs)

/-- A scan for the longest run of zero groups. The current run ends before `index`. -/
structure Scan where
  index : Nat
  length : Nat
  bestStart : Nat
  bestLength : Nat

def Scan.step (s : Scan) (group : Nat) : Scan :=
  if group = 0 then
    if s.bestLength < s.length + 1 then
      ⟨s.index + 1, s.length + 1, s.index - s.length, s.length + 1⟩
    else ⟨s.index + 1, s.length + 1, s.bestStart, s.bestLength⟩
  else ⟨s.index + 1, 0, s.bestStart, s.bestLength⟩

def Scan.start : Scan := ⟨0, 0, 0, 0⟩

/-- The parts between the colons, with a run of at least two zero groups left out. -/
def parts6 (gs : List Nat) : List Text :=
  let s := gs.foldl Scan.step Scan.start
  if 1 < s.bestLength then
    (if s.bestStart = 0 then [[]] else []) ++ (gs.take s.bestStart).map (textOf 16 4) ++ [[]] ++
      (gs.drop (s.bestStart + s.bestLength)).map (textOf 16 4) ++
      if s.bestStart + s.bestLength = gs.length then [[]] else []
  else gs.map (textOf 16 4)

def text6 (a : BitVec 128) : Text := [':'].intercalate (parts6 (places 65536 8 a.toNat))

/-- The current run and the best one are runs of zeros. -/
structure Scan.Sound (s : Scan) (gs : List Nat) : Prop where
  index : s.index = gs.length
  current : s.length ≤ s.index
  best : s.bestStart + s.bestLength ≤ s.index
  zeros : ∀ i, s.index - s.length ≤ i → i < s.index → gs[i]? = some 0
  bestZeros : ∀ i, s.bestStart ≤ i → i < s.bestStart + s.bestLength → gs[i]? = some 0

theorem Scan.Sound.step {s : Scan} {gs : List Nat} (h : s.Sound gs) (g : Nat) :
    (s.step g).Sound (gs ++ [g]) := by
  have hindex := h.index
  have hbest := h.best
  have hold : ∀ i, i < s.index → (gs ++ [g])[i]? = gs[i]? := fun i hi =>
    List.getElem?_append_left (hindex ▸ hi)
  have hlast : (gs ++ [g])[s.index]? = some g := by
    rw [hindex]
    exact List.getElem?_concat_length
  have hkept : ∀ i, s.bestStart ≤ i → i < s.bestStart + s.bestLength → (gs ++ [g])[i]? = some 0 :=
    fun i hle hlt => (hold i (by omega)).trans (h.bestZeros i hle hlt)
  unfold Scan.step
  by_cases hg : g = 0
  · subst hg
    have hrun : ∀ i, s.index - s.length ≤ i → i < s.index + 1 → (gs ++ [0])[i]? = some 0 := by
      intro i hle hlt
      rcases Nat.lt_succ_iff_lt_or_eq.mp hlt with hlt | rfl
      · exact (hold i hlt).trans (h.zeros i hle hlt)
      · exact hlast
    have hcurrent := h.current
    rw [if_pos rfl]
    split
    · refine ⟨by simp [hindex], by dsimp only; omega, by dsimp only; omega, fun i hle hlt => ?_,
        fun i hle hlt => ?_⟩
      · dsimp only at hle hlt
        exact hrun i (by omega) hlt
      · dsimp only at hle hlt
        exact hrun i (by omega) (by omega)
    · refine ⟨by simp [hindex], by dsimp only; omega, by dsimp only; omega, fun i hle hlt => ?_, hkept⟩
      dsimp only at hle hlt
      exact hrun i (by omega) hlt
  · rw [if_neg hg]
    refine ⟨by simp [hindex], Nat.zero_le _, by dsimp only; omega, fun i hle hlt => ?_, hkept⟩
    dsimp only at hle hlt
    omega

theorem Scan.sound_foldl (gs : List Nat) : (gs.foldl Scan.step Scan.start).Sound gs := by
  induction gs using List.reverseRecOn with
  | nil =>
      exact ⟨rfl, Nat.le_refl 0, Nat.le_refl 0, fun _ _ hlt => absurd hlt (Nat.not_lt_zero _),
        fun _ _ hlt => absurd hlt (Nat.not_lt_zero _)⟩
  | append_singleton gs g ih =>
      rw [List.foldl_append]
      exact ih.step g

/-- The groups are those before the best run, its zeros, and those after it. -/
theorem Scan.Sound.split {s : Scan} {gs : List Nat} (h : s.Sound gs) :
    gs = gs.take s.bestStart ++ List.replicate s.bestLength 0 ++
      gs.drop (s.bestStart + s.bestLength) := by
  have hle : s.bestStart + s.bestLength ≤ gs.length := h.index ▸ h.best
  have hrun : (gs.drop s.bestStart).take s.bestLength = List.replicate s.bestLength 0 := by
    refine List.ext_getElem? fun i => ?_
    by_cases hi : i < s.bestLength
    · rw [List.getElem?_take_of_lt hi, List.getElem?_drop, List.getElem?_replicate, if_pos hi]
      exact h.bestZeros _ (by omega) (by omega)
    · rw [List.getElem?_eq_none (by simp; omega), List.getElem?_eq_none (by simp; omega)]
  rw [← hrun, List.append_assoc, ← List.drop_drop, List.take_append_drop, List.take_append_drop]

theorem group?_textOf {n : Nat} (h : n < 65536) : group? (textOf 16 4 n) = some n := by
  have hlength : ¬ 4 < (textOf 16 4 n).length := Nat.not_lt.mpr (length_textOf_le (by decide))
  rw [group?, if_neg (not_or.mpr ⟨textOf_ne_nil, hlength⟩)]
  exact valueOf?_textOf (by decide) (by decide) h

theorem mapM_group? {gs : List Nat} (h : ∀ g ∈ gs, g < 65536) :
    (gs.map (textOf 16 4)).mapM group? = some gs :=
  mapM_map fun g hg => group?_textOf (h g hg)

theorem texts_ne_nil {gs : List Nat} {t : Text} (h : t ∈ gs.map (textOf 16 4)) : t ≠ [] := by
  obtain ⟨g, -, rfl⟩ := List.mem_map.mp h
  exact textOf_ne_nil

theorem dropWhile_skip {before : List Text} (h : ∀ t ∈ before, t ≠ []) (rest : List Text) :
    (before ++ [] :: rest).dropWhile (· ≠ []) = [] :: rest ∧
      (before ++ [] :: rest).takeWhile (· ≠ []) = before := by
  have hall : ∀ t ∈ before, decide (t ≠ []) = true := fun t ht => decide_eq_true (h t ht)
  constructor
  · rw [List.dropWhile_append_of_pos hall]
    rfl
  · rw [List.takeWhile_append_of_pos hall]
    simp

/-- The parts on one side of an omitted run, from the groups there. -/
def sideParts (high : List Nat) : List Text := if high = [] then [[]] else high.map (textOf 16 4)

theorem groups?_skip {high low : List Nat} (hh : ∀ g ∈ high, g < 65536) (hl : ∀ g ∈ low, g < 65536)
    (hlt : high.length + low.length < 8) {first last : Text} {before after : List Text}
    (hfirst : first :: before = sideParts high) (hlast : after ++ [last] = sideParts low) :
    groups? first (before ++ [] :: after) last =
      some (high ++ List.replicate (8 - (high.length + low.length)) 0 ++ low) := by
  have hhigh : (∀ t ∈ before, t ≠ []) ∧ ¬ (first = [] ∧ before ≠ []) ∧
      (if first = [] then [] else first :: before) = high.map (textOf 16 4) := by
    unfold sideParts at hfirst
    split at hfirst
    · rename_i hnil
      cases hfirst
      simp [hnil]
    · have hne : first ≠ [] := texts_ne_nil (hfirst ▸ List.mem_cons_self)
      refine ⟨fun t ht => texts_ne_nil (hfirst ▸ List.mem_cons_of_mem _ ht), fun h => hne h.1, ?_⟩
      rw [if_neg hne, hfirst]
  have hlow : (∀ t ∈ after, t ≠ []) ∧ ¬ (last = [] ∧ after ≠ []) ∧
      (if last = [] then [] else after ++ [last]) = low.map (textOf 16 4) := by
    unfold sideParts at hlast
    split at hlast
    · rename_i hnil
      have hends : after ++ [last] = [] ++ [[]] := hlast
      obtain ⟨rfl, hsame⟩ := List.append_inj' hends rfl
      cases hsame
      simp [hnil]
    · have hne : last ≠ [] := texts_ne_nil (hlast ▸ List.mem_concat_self)
      refine ⟨fun t ht => texts_ne_nil (hlast ▸ List.mem_append_left _ ht), fun h => hne h.1, ?_⟩
      rw [if_neg hne, hlast]
  obtain ⟨hbefore, hstart, hhigh⟩ := hhigh
  obtain ⟨hafter, hend, hlow⟩ := hlow
  have hsides : sides? first before after last =
      some (high.map (textOf 16 4), low.map (textOf 16 4)) := by
    rw [sides?, if_neg (not_or.mpr ⟨hstart, hend⟩), hhigh, hlow]
  obtain ⟨hdrop, htake⟩ := dropWhile_skip hbefore after
  unfold groups?
  rw [hdrop]
  dsimp only
  rw [if_neg fun hmem => hafter [] hmem rfl, htake, hsides]
  dsimp only
  rw [if_pos (by simpa using hlt), mapM_group? hh, mapM_group? hl]
  simp

theorem groups?_full {gs : List Nat} (h : ∀ g ∈ gs, g < 65536) (hlength : gs.length = 8)
    {first last : Text} {inner : List Text} (hparts : first :: inner ++ [last] = gs.map (textOf 16 4)) :
    groups? first inner last = some gs := by
  have hne : ∀ t ∈ first :: inner ++ [last], t ≠ [] := fun t ht => texts_ne_nil (hparts ▸ ht)
  have hinner : inner.dropWhile (· ≠ []) = [] := by
    rw [List.dropWhile_eq_nil_iff]
    exact fun t ht => decide_eq_true (hne t (List.mem_append_left _ (List.mem_cons_of_mem first ht)))
  have hcount : inner.length + 2 = 8 := by
    have := congrArg List.length hparts
    simpa [hlength] using this
  unfold groups?
  rw [hinner]
  dsimp only
  rw [if_pos ⟨hcount, hne first (by simp), hne last (by simp)⟩, hparts, mapM_group? h]

theorem length_sideParts (gs : List Nat) :
    1 ≤ (sideParts gs).length ∧ (sideParts gs).length ≤ gs.length + 1 := by
  unfold sideParts
  split
  · simp
  · rename_i hne
    rw [List.length_map]
    exact ⟨List.length_pos_iff.mpr hne, Nat.le_succ _⟩

/-- The parts of eight groups give the groups back. -/
theorem parts6_groups {gs : List Nat} (h : ∀ g ∈ gs, g < 65536) (hlength : gs.length = 8) :
    ∃ first inner last, parts6 gs = first :: inner ++ [last] ∧ 1 ≤ inner.length ∧ inner.length ≤ 7 ∧
      groups? first inner last = some gs := by
  have hscan := Scan.sound_foldl gs
  unfold parts6
  dsimp only
  generalize gs.foldl Scan.step Scan.start = s at hscan
  split
  · rename_i hrun
    have hbest : s.bestStart + s.bestLength ≤ gs.length := hscan.index ▸ hscan.best
    have hgroups := hscan.split
    have hhigh : (if s.bestStart = 0 then [[]] else []) ++ (gs.take s.bestStart).map (textOf 16 4) =
        sideParts (gs.take s.bestStart) := by
      unfold sideParts
      by_cases hstart : s.bestStart = 0
      · simp [hstart]
      · have hne : gs.take s.bestStart ≠ [] := by
          rw [Ne, List.take_eq_nil_iff]
          rintro (hzero | rfl)
          · exact hstart hzero
          · cases hlength
        rw [if_neg hstart, if_neg hne, List.nil_append]
    have hlow : (gs.drop (s.bestStart + s.bestLength)).map (textOf 16 4) ++
        (if s.bestStart + s.bestLength = gs.length then [[]] else []) =
          sideParts (gs.drop (s.bestStart + s.bestLength)) := by
      unfold sideParts
      by_cases hend : s.bestStart + s.bestLength = gs.length
      · simp [hend]
      · have hne : gs.drop (s.bestStart + s.bestLength) ≠ [] := by
          rw [Ne, List.drop_eq_nil_iff]
          omega
        rw [if_neg hend, if_neg hne, List.append_nil]
    have hcount : (gs.take s.bestStart).length = s.bestStart ∧
        (gs.drop (s.bestStart + s.bestLength)).length = 8 - (s.bestStart + s.bestLength) := by
      rw [List.length_take, List.length_drop]
      omega
    generalize gs.take s.bestStart = high at hhigh hgroups hcount
    generalize gs.drop (s.bestStart + s.bestLength) = low at hlow hgroups hcount
    obtain ⟨first, before, hfirst⟩ := List.exists_cons_of_ne_nil
      (List.length_pos_iff.mp (length_sideParts high).1)
    obtain ⟨after, last, hlast⟩ := (List.eq_nil_or_concat (sideParts low)).resolve_left
      (List.length_pos_iff.mp (length_sideParts low).1)
    have hbefore := congrArg List.length hfirst
    have hafter := congrArg List.length hlast
    have hsizes := length_sideParts high
    have hsizes' := length_sideParts low
    rw [List.concat_eq_append] at hlast hafter
    rw [List.length_append, List.length_singleton] at hafter
    rw [List.length_cons] at hbefore
    refine ⟨first, before ++ [] :: after, last, ?_, ?_, ?_, ?_⟩
    · rw [hhigh, List.append_assoc, List.append_assoc, hlow, hfirst, hlast]
      simp
    · rw [List.length_append, List.length_cons]
      omega
    · rw [List.length_append, List.length_cons]
      omega
    · have hfill : s.bestLength = 8 - (high.length + low.length) := by omega
      rw [groups?_skip (fun g hg => h g (by rw [hgroups]; simp [hg]))
        (fun g hg => h g (by rw [hgroups]; simp [hg])) (by omega) hfirst.symm hlast.symm, ← hfill,
        ← hgroups]
  · have hparts : (gs.map (textOf 16 4)).length = 8 := (List.length_map _).trans hlength
    obtain ⟨first, rest, hfirst⟩ := List.exists_cons_of_ne_nil
      (List.length_pos_iff.mp (hparts ▸ (by decide : 0 < 8)))
    rw [hfirst, List.length_cons] at hparts
    obtain ⟨inner, last, hlast⟩ := (List.eq_nil_or_concat rest).resolve_left
      (List.length_pos_iff.mp (by omega))
    rw [List.concat_eq_append] at hlast
    have hsplit : gs.map (textOf 16 4) = first :: inner ++ [last] := by
      rw [hfirst, hlast, List.cons_append]
    rw [hlast, List.length_append, List.length_singleton] at hparts
    exact ⟨first, inner, last, hsplit, by omega, by omega, groups?_full h hlength hsplit.symm⟩

/-- Every character of a part is a hexadecimal digit. -/
theorem mem_parts6 {gs : List Nat} {t : Text} (ht : t ∈ parts6 gs) {c : Char} (hc : c ∈ t) :
    c ∈ "0123456789abcdef".toList := by
  have htexts : ∀ hs : List Nat, t ∈ hs.map (textOf 16 4) → c ∈ "0123456789abcdef".toList := by
    intro hs hmem
    obtain ⟨g, -, rfl⟩ := List.mem_map.mp hmem
    exact mem_textOf (by decide) (by decide) hc
  have hempty : ∀ {p : Prop} [Decidable p], t ∈ (if p then [[]] else []) → False := by
    intro p _ hmem
    split at hmem
    · rw [List.mem_singleton.mp hmem] at hc
      cases hc
    · cases hmem
  unfold parts6 at ht
  dsimp only at ht
  split at ht
  · simp only [List.mem_append] at ht
    rcases ht with (((ht | ht) | ht) | ht) | ht
    · exact (hempty ht).elim
    · exact htexts _ ht
    · rw [List.mem_singleton.mp ht] at hc
      cases hc
    · exact htexts _ ht
    · exact (hempty ht).elim
  · exact htexts _ ht

theorem parse6_text6 (a : BitVec 128) : parse6 (text6 a) = some a := by
  have hgroups : ∀ g ∈ places 65536 8 a.toNat, g < 65536 := fun g hg => mem_places_lt (by decide) hg
  obtain ⟨first, inner, last, hparts, hlow, hhigh, hread⟩ :=
    parts6_groups hgroups (length_places 65536 8 a.toNat)
  have hmem : ∀ t ∈ first :: inner ++ [last], ∀ c ∈ t, c ∈ "0123456789abcdef".toList :=
    fun t ht c hc => mem_parts6 (hparts ▸ ht) hc
  have hsplit : (text6 a).splitOn ':' = first :: inner ++ [last] := by
    rw [text6, hparts]
    refine List.splitOn_intercalate ':' (fun t ht hc => ?_) (by simp)
    exact absurd (hmem t ht ':' hc) (by decide)
  have hdotted : withoutDotted (first :: inner ++ [last]) = some (first :: inner ++ [last]) := by
    have hdot : '.' ∉ last := fun hc => absurd (hmem last (by simp) '.' hc) (by decide)
    rw [withoutDotted, List.getLast?_concat]
    exact if_neg hdot
  unfold parse6
  dsimp only
  rw [hsplit, if_neg (by simp; omega), hdotted]
  dsimp only
  rw [if_neg (by simp; omega)]
  dsimp only [List.cons_append]
  rw [List.dropLast_concat, List.getLast?_concat, Option.getD_some, hread, Option.map_some,
    ofPlaces_places (by simpa using a.isLt), BitVec.ofNat_toNat, BitVec.setWidth_eq]

/-! ## Addresses -/

inductive Address where
  | v4 (value : BitVec 32)
  | v6 (value : BitVec 128)
  deriving DecidableEq, Repr

/-- The address of a text without a zone. -/
def parse (t : Text) : Option Address :=
  match parse4 t with
  | some a => some (.v4 a)
  | none => (parse6 t).map Address.v6

def Address.text : Address → Text
  | .v4 a => text4 a
  | .v6 a => text6 a

/-- The address is in the network of this value and prefix length. -/
def inNetwork {width : Nat} (value : BitVec width) (prefixLength : Nat) (a : BitVec width) : Bool :=
  a >>> (width - prefixLength) == value >>> (width - prefixLength)

theorem mem_intercalate {sep c : Char} {parts : List Text} (h : c ∈ [sep].intercalate parts) :
    c = sep ∨ ∃ t ∈ parts, c ∈ t := by
  induction parts with
  | nil => cases h
  | cons t rest ih =>
      cases rest with
      | nil => exact .inr ⟨t, List.mem_cons_self, by simpa using h⟩
      | cons u rest =>
          rw [List.intercalate_cons_cons, List.mem_append, List.mem_append] at h
          rcases h with (h | h) | h
          · exact .inr ⟨t, List.mem_cons_self, h⟩
          · exact .inl (List.mem_singleton.mp h)
          · exact (ih h).imp_right fun ⟨v, hv, hc⟩ => ⟨v, List.mem_cons_of_mem t hv, hc⟩

theorem mem_text4 {c : Char} {a : BitVec 32} (h : c ∈ text4 a) :
    c ∈ '.' :: "0123456789abcdef".toList := by
  rcases mem_intercalate h with rfl | ⟨t, ht, hc⟩
  · exact List.mem_cons_self
  · obtain ⟨n, -, rfl⟩ := List.mem_map.mp ht
    exact List.mem_cons_of_mem _ (mem_textOf (by decide) (by decide) hc)

theorem mem_text6 {c : Char} {a : BitVec 128} (h : c ∈ text6 a) :
    c ∈ ':' :: "0123456789abcdef".toList := by
  rcases mem_intercalate h with rfl | ⟨t, ht, hc⟩
  · exact List.mem_cons_self
  · exact List.mem_cons_of_mem _ (mem_parts6 ht hc)

theorem parse_text (a : Address) : parse a.text = some a := by
  cases a with
  | v4 a => rw [parse, Address.text, parse4_text4]
  | v6 a =>
      have hdot : '.' ∉ text6 a := fun h => absurd (mem_text6 h) (by decide)
      have hsplit : (text6 a).splitOn '.' = [text6 a] := by
        have hone : (['.'].intercalate [text6 a]).splitOn '.' = [text6 a] :=
          List.splitOn_intercalate '.' (fun t ht => List.mem_singleton.mp ht ▸ hdot) (by simp)
        simpa using hone
      have hnot : parse4 (text6 a) = none := by
        rw [parse4, hsplit]
        rfl
      rw [parse, Address.text, hnot, parse6_text6, Option.map_some]

end Ip
