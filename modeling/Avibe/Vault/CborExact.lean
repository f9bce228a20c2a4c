import Avibe.Vault.Cbor
import Mathlib.Algebra.Group.Int.Defs

/-!
# What the CBOR reader accepts and raises

`decode` returns a value exactly when the bytes start with an item of it, and then leaves
what follows the item. It raises something else than its own error exactly when the bytes
are `Faulty`. The canonical encoding of a value is one of its items, so the value is read
back from it.
-/

namespace Avibe.Vault

open Bytes Checked

/-! ## Exactness -/

theorem read_ok {n : Nat} {data s rest : List UInt8} :
    read n data = .ok (s, rest) ↔ data = s ++ rest ∧ s.length = n := by
  unfold read
  split
  · rename_i hlt
    refine ⟨fun h => (by cases h), fun ⟨hdata, hlen⟩ => ?_⟩
    rw [hdata, List.length_append] at hlt
    omega
  · rename_i hle
    constructor
    · intro h
      cases h
      refine ⟨(List.take_append_drop n data).symm, ?_⟩
      rw [List.length_take]
      omega
    · rintro ⟨rfl, rfl⟩
      simp

theorem readByte_ok {data rest : List UInt8} {b : UInt8} :
    readByte data = .ok (b, rest) ↔ data = b :: rest := by
  cases data with
  | nil => simp [readByte]
  | cons a tail => simp [readByte]

theorem read_big {n m : Nat} {data rest : List UInt8} :
    (do
      let (bytes, rest) ← read n data
      .ok (ofBig bytes, rest) : Except Exn (Nat × List UInt8)) = .ok (m, rest) ↔
      ∃ arg, data = arg ++ rest ∧ arg.length = n ∧ m = ofBig arg := by
  constructor
  · intro h
    obtain ⟨⟨arg, tail⟩, hread, hok⟩ := bind_ok h
    obtain ⟨hdata, hlen⟩ := read_ok.mp hread
    cases hok
    exact ⟨arg, hdata, hlen, rfl⟩
  · rintro ⟨arg, hdata, hlen, rfl⟩
    rw [read_ok.mpr ⟨hdata, hlen⟩]
    rfl

theorem readUint_ok {add n : Nat} {data rest : List UInt8} :
    readUint add data = .ok (n, rest) ↔ ∃ arg, data = arg ++ rest ∧ Argument add arg n := by
  unfold readUint Argument
  split
  · rename_i h
    constructor
    · intro hok
      cases hok
      exact ⟨[], rfl, .inl ⟨h, rfl, rfl⟩⟩
    · rintro ⟨arg, rfl, ⟨-, rfl, rfl⟩ | ⟨h24, -⟩⟩
      · rfl
      · omega
  · rename_i hsmall
    have hwide : ∀ arg, ((add < 24 ∧ arg = [] ∧ n = add) ∨
        (24 ≤ add ∧ add ≤ 27 ∧ arg.length = 2 ^ (add - 24) ∧ n = ofBig arg)) ↔
        add ≤ 27 ∧ arg.length = 2 ^ (add - 24) ∧ n = ofBig arg := by
      intro arg
      constructor
      · rintro (⟨h, -⟩ | ⟨-, h⟩)
        · exact absurd h hsmall
        · exact h
      · exact fun h => .inr ⟨by omega, h⟩
    simp only [hwide]
    split
    · rename_i h
      subst h
      constructor
      · intro hok
        obtain ⟨⟨byte, tail⟩, hread, hret⟩ := bind_ok hok
        cases hret
        exact ⟨[byte], readByte_ok.mp hread, by omega, rfl, rfl⟩
      · rintro ⟨arg, rfl, -, hlen, rfl⟩
        obtain ⟨byte, rfl⟩ := List.length_eq_one_iff.mp hlen
        rfl
    · split
      · rename_i h
        subst h
        simpa using read_big
      · split
        · rename_i h
          subst h
          simpa using read_big
        · split
          · rename_i h
            subst h
            simpa using read_big
          · refine ⟨fun hok => (by cases hok), fun ⟨_, _, hle, _⟩ => ?_⟩
            omega

section Item

variable {item : List UInt8 → Except Exn (Cbor × List UInt8)} {R : List UInt8 → Cbor → Prop}

/-- The reader returns what the bytes in front are. -/
def Exact (item : List UInt8 → Except Exn (Cbor × List UInt8)) (R : List UInt8 → Cbor → Prop) :
    Prop :=
  ∀ data value rest, item data = .ok (value, rest) ↔ ∃ bytes, data = bytes ++ rest ∧ R bytes value

theorem readItems_ok (h : Exact item R) {n : Nat} {data rest : List UInt8} {items : List Cbor} :
    readItems item n data = .ok (items, rest) ↔
      ∃ parts, data = parts.flatten ++ rest ∧ parts.length = n ∧ Series R parts items := by
  induction n generalizing data items with
  | zero =>
      constructor
      · intro hok
        cases hok
        exact ⟨[], rfl, rfl, .nil⟩
      · rintro ⟨parts, rfl, hlen, hseries⟩
        obtain rfl := List.length_eq_zero_iff.mp hlen
        cases hseries
        rfl
  | succ n ih =>
      constructor
      · intro hok
        obtain ⟨⟨value, tail⟩, hitem, hmore⟩ := bind_ok hok
        obtain ⟨⟨values, last⟩, hvalues, hret⟩ := bind_ok hmore
        cases hret
        obtain ⟨bytes, rfl, hbytes⟩ := (h data value tail).mp hitem
        obtain ⟨parts, rfl, hlen, hseries⟩ := ih.mp hvalues
        exact ⟨bytes :: parts, by simp, by simp [hlen], .cons hbytes hseries⟩
      · rintro ⟨parts, rfl, hlen, hseries⟩
        cases hseries with
        | nil => cases hlen
        | @cons bytes value parts values hbytes hseries =>
            have hitem : item (bytes ++ (parts.flatten ++ rest)) =
                .ok (value, parts.flatten ++ rest) := (h _ _ _).mpr ⟨bytes, rfl, hbytes⟩
            have hvalues := ih.mpr ⟨parts, rfl, Nat.succ.inj hlen, hseries⟩
            simp only [readItems, List.flatten_cons, List.append_assoc, hitem, bind_eq_ok rfl,
              hvalues]

theorem readEntries_ok (h : Exact item R) {n : Nat} {data rest : List UInt8}
    {dict result : List (Scalar × Cbor)} :
    readEntries item n dict data = .ok (result, rest) ↔
      ∃ parts entries, data = joined parts ++ rest ∧ parts.length = n ∧ Pairs R parts entries ∧
        result = entries.foldl (fun dict e => dictSet dict e.1 e.2) dict := by
  induction n generalizing data dict with
  | zero =>
      constructor
      · intro hok
        cases hok
        exact ⟨[], [], rfl, rfl, .nil, rfl⟩
      · rintro ⟨parts, entries, rfl, hlen, hpairs, rfl⟩
        obtain rfl := List.length_eq_zero_iff.mp hlen
        cases hpairs
        rfl
  | succ n ih =>
      constructor
      · intro hok
        obtain ⟨⟨key, tail⟩, hkey, hmore⟩ := bind_ok hok
        obtain ⟨⟨value, tail'⟩, hvalue, hrest⟩ := bind_ok hmore
        obtain ⟨kbytes, rfl, hk⟩ := (h data key tail).mp hkey
        obtain ⟨vbytes, rfl, hv⟩ := (h tail value tail').mp hvalue
        cases key with
        | scalar k =>
            obtain ⟨parts, entries, rfl, hlen, hpairs, rfl⟩ := ih.mp hrest
            exact ⟨(kbytes, vbytes) :: parts, (k, value) :: entries, by simp [joined],
              by simp [hlen], .cons ⟨hk, hv⟩ hpairs, rfl⟩
        | array items => cases hrest
        | map entries => cases hrest
      · rintro ⟨parts, entries, rfl, hlen, hpairs, rfl⟩
        cases hpairs with
        | nil => cases hlen
        | @cons part e parts entries hpart hpairs =>
            have hkey : item (part.1 ++ (part.2 ++ (joined parts ++ rest))) =
                .ok (.scalar e.1, part.2 ++ (joined parts ++ rest)) :=
              (h _ _ _).mpr ⟨part.1, rfl, hpart.1⟩
            have hvalue : item (part.2 ++ (joined parts ++ rest)) =
                .ok (e.2, joined parts ++ rest) := (h _ _ _).mpr ⟨part.2, rfl, hpart.2⟩
            have hrest := ih.mpr ⟨parts, entries, rfl, Nat.succ.inj hlen, hpairs, rfl⟩
            have hdata : joined (part :: parts) ++ rest =
                part.1 ++ (part.2 ++ (joined parts ++ rest)) := by simp [joined]
            simp only [readEntries, hdata, hkey, hvalue, bind_eq_ok rfl, Cbor.key?]
            exact hrest

theorem readContent_ok (h : Exact item R) {major n : Nat} {data rest : List UInt8} {value : Cbor} :
    readContent item major n data = .ok (value, rest) ↔
      ∃ body, data = body ++ rest ∧ Content R major n body value := by
  unfold readContent Content
  split
  · constructor
    · intro hok
      cases hok
      exact ⟨[], rfl, rfl, rfl⟩
    · rintro ⟨body, rfl, rfl, rfl⟩
      rfl
  · constructor
    · intro hok
      cases hok
      exact ⟨[], rfl, rfl, rfl⟩
    · rintro ⟨body, rfl, rfl, rfl⟩
      rfl
  · constructor
    · intro hok
      obtain ⟨⟨bytes, tail⟩, hread, hret⟩ := bind_ok hok
      cases hret
      obtain ⟨hdata, hlen⟩ := read_ok.mp hread
      exact ⟨bytes, hdata, hlen, rfl⟩
    · rintro ⟨body, hdata, hlen, rfl⟩
      rw [read_ok.mpr ⟨hdata, hlen⟩]
      rfl
  · constructor
    · intro hok
      obtain ⟨⟨bytes, tail⟩, hread, hret⟩ := bind_ok hok
      obtain ⟨hdata, hlen⟩ := read_ok.mp hread
      dsimp only at hret
      cases htext : decodeText bytes with
      | none =>
          rw [htext] at hret
          cases hret
      | some text =>
          rw [htext] at hret
          cases hret
          exact ⟨bytes, hdata, hlen, text, htext, rfl⟩
    · rintro ⟨body, hdata, hlen, text, htext, rfl⟩
      rw [read_ok.mpr ⟨hdata, hlen⟩]
      simp only [bind_eq_ok rfl, htext]
  · constructor
    · intro hok
      obtain ⟨⟨items, tail⟩, hread, hret⟩ := bind_ok hok
      cases hret
      obtain ⟨parts, hdata, hlen, hseries⟩ := (readItems_ok h).mp hread
      exact ⟨parts.flatten, hdata, parts, items, rfl, hlen, hseries, rfl⟩
    · rintro ⟨body, hdata, parts, items, rfl, hlen, hseries, rfl⟩
      rw [(readItems_ok h).mpr ⟨parts, hdata, hlen, hseries⟩]
      rfl
  · constructor
    · intro hok
      obtain ⟨⟨entries, tail⟩, hread, hret⟩ := bind_ok hok
      cases hret
      obtain ⟨parts, entries, hdata, hlen, hpairs, rfl⟩ := (readEntries_ok h).mp hread
      exact ⟨joined parts, hdata, parts, entries, rfl, hlen, hpairs, rfl⟩
    · rintro ⟨body, hdata, parts, entries, rfl, hlen, hpairs, rfl⟩
      rw [(readEntries_ok h).mpr ⟨parts, entries, hdata, hlen, hpairs, rfl⟩]
      rfl
  · exact h data value rest

end Item

/-- The initial byte and the argument, read in turn. -/
theorem decode_head {major n : Nat} {head : List UInt8} (h : Head major head n) (hmajor : major < 7)
    (room : Nat) (tail : List UInt8) :
    decode (room + 1) (head ++ tail) = readContent (decode room) major n tail := by
  obtain ⟨initial, arg, rfl, rfl, harg⟩ := h
  have hne : ¬ initial.toNat / 32 = 7 := by omega
  have huint : readUint (initial.toNat % 32) (arg ++ tail) = .ok (n, tail) :=
    readUint_ok.mpr ⟨arg, rfl, harg⟩
  simp only [decode, List.cons_append, readByte, bind_eq_ok rfl, if_neg hne, huint]

theorem simpleValue_ok {initial : UInt8} (h : initial.toNat / 32 = 7) {value : Cbor} :
    simpleValue (initial.toNat % 32) = .ok value ↔
      (initial = 0xF4 ∧ value = .scalar (.bool false)) ∨
      (initial = 0xF5 ∧ value = .scalar (.bool true)) ∨
      (initial = 0xF6 ∧ value = .scalar .null) := by
  have hbyte : ∀ k : Nat, k < 32 → (initial.toNat % 32 = k ↔ initial = UInt8.ofNat (224 + k)) := by
    intro k hk
    rw [← UInt8.toNat_inj, UInt8.toNat_ofNat']
    omega
  have h20 := hbyte 20 (by omega)
  have h21 := hbyte 21 (by omega)
  have h22 := hbyte 22 (by omega)
  unfold simpleValue
  simp only [h20, h21, h22]
  change (if initial = 0xF4 then _ else if initial = 0xF5 then _ else if initial = 0xF6 then _ else _) =
    Except.ok value ↔ _
  split
  · rename_i hb
    subst hb
    simp [eq_comm]
  · split
    · rename_i hb
      subst hb
      simp [eq_comm]
    · split
      · rename_i hb
        subst hb
        simp [eq_comm]
      · simp_all

/-- The reader returns exactly the item that the bytes start with, and leaves what follows it. -/
theorem decode_ok (room : Nat) : Exact (decode room) (Encodes room) := by
  induction room with
  | zero =>
      intro data value rest
      exact ⟨fun h => (by cases h), fun ⟨_, _, h⟩ => h.elim⟩
  | succ room ih =>
      intro data value rest
      constructor
      · intro hok
        unfold decode at hok
        obtain ⟨⟨initial, tail⟩, hbyte, hmore⟩ := bind_ok hok
        obtain rfl := readByte_ok.mp hbyte
        dsimp only at hmore
        split at hmore
        · rename_i hseven
          obtain ⟨v, hsimple, hret⟩ := bind_ok hmore
          cases hret
          refine ⟨[initial], rfl, .inr ?_⟩
          rcases (simpleValue_ok hseven).mp hsimple with ⟨rfl, rfl⟩ | ⟨rfl, rfl⟩ | ⟨rfl, rfl⟩
          · exact .inl ⟨rfl, rfl⟩
          · exact .inr (.inl ⟨rfl, rfl⟩)
          · exact .inr (.inr ⟨rfl, rfl⟩)
        · rename_i hseven
          obtain ⟨⟨n, tail'⟩, huint, hcontent⟩ := bind_ok hmore
          obtain ⟨arg, rfl, harg⟩ := readUint_ok.mp huint
          obtain ⟨body, rfl, hbody⟩ := (readContent_ok ih).mp hcontent
          have hlt := initial.toNat_lt
          refine ⟨initial :: (arg ++ body), by simp, .inl ⟨initial.toNat / 32, initial :: arg, n, body,
            by omega, rfl, ⟨initial, arg, rfl, rfl, harg⟩, hbody⟩⟩
      · rintro ⟨bytes, rfl, ⟨major, head, n, body, hmajor, rfl, hhead, hbody⟩ | hsimple⟩
        · rw [List.append_assoc, decode_head hhead hmajor]
          exact (readContent_ok ih).mpr ⟨body, rfl, hbody⟩
        · rcases hsimple with ⟨rfl, rfl⟩ | ⟨rfl, rfl⟩ | ⟨rfl, rfl⟩ <;> rfl

/-! ## Errors -/

section Faults

variable {item : List UInt8 → Except Exn (Cbor × List UInt8)} {R : List UInt8 → Cbor → Prop}
variable {F : List UInt8 → Prop}

/-- The reader raises something else than its own error on these bytes. -/
def Fails (item : List UInt8 → Except Exn (Cbor × List UInt8)) (F : List UInt8 → Prop) : Prop :=
  ∀ data, Only Exn.Own (item data) ↔ ¬ F data

theorem read_own (n : Nat) (data : List UInt8) : Only Exn.Own (read n data) := by
  unfold read
  split
  · exact only_error.mpr trivial
  · exact only_ok

theorem readByte_own (data : List UInt8) : Only Exn.Own (readByte data) := by
  cases data with
  | nil => exact only_error.mpr trivial
  | cons b rest => exact only_ok

theorem readUint_own (add : Nat) (data : List UInt8) : Only Exn.Own (readUint add data) := by
  unfold readUint
  split
  · exact only_ok
  · split
    · exact only_bind.mpr ⟨readByte_own data, fun _ _ => only_ok⟩
    · split
      · exact only_bind.mpr ⟨read_own 2 data, fun _ _ => only_ok⟩
      · split
        · exact only_bind.mpr ⟨read_own 4 data, fun _ _ => only_ok⟩
        · split
          · exact only_bind.mpr ⟨read_own 8 data, fun _ _ => only_ok⟩
          · exact only_error.mpr trivial

theorem simpleValue_own (add : Nat) : Only Exn.Own (simpleValue add) := by
  unfold simpleValue
  repeat' split
  · exact only_ok
  · exact only_ok
  · exact only_ok
  · exact only_error.mpr trivial

theorem readItems_own (hexact : Exact item R) (hfails : Fails item F) {n : Nat}
    {data : List UInt8} :
    Only Exn.Own (readItems item n data) ↔
      ¬ ∃ parts items rest, data = parts.flatten ++ rest ∧ parts.length < n ∧
        Series R parts items ∧ F rest := by
  induction n generalizing data with
  | zero =>
      refine ⟨fun _ ⟨_, _, _, _, hlt, _⟩ => ?_, fun _ => only_ok⟩
      omega
  | succ n ih =>
      rw [readItems, only_bind, hfails]
      constructor
      · rintro ⟨hfirst, hmore⟩ ⟨parts, items, rest, rfl, hlt, hseries, hrest⟩
        cases hseries with
        | nil => exact hfirst hrest
        | @cons bytes value parts values hbytes hseries =>
            have hitem := (hexact _ _ (parts.flatten ++ rest)).mpr ⟨bytes, rfl, hbytes⟩
            rw [← List.append_assoc, ← List.flatten_cons] at hitem
            have hafter := (only_bind.mp (hmore _ hitem)).1
            exact ih.mp hafter ⟨parts, values, rest, rfl, Nat.lt_of_succ_lt_succ hlt, hseries, hrest⟩
      · intro hnone
        refine ⟨fun hdata => hnone ⟨[], [], data, rfl, Nat.succ_pos n, .nil, hdata⟩, ?_⟩
        rintro ⟨value, tail⟩ hitem
        obtain ⟨bytes, rfl, hbytes⟩ := (hexact data value tail).mp hitem
        refine only_bind.mpr ⟨ih.mpr ?_, fun _ _ => only_ok⟩
        rintro ⟨parts, items, rest, rfl, hlt, hseries, hrest⟩
        exact hnone ⟨bytes :: parts, value :: items, rest, by simp, Nat.succ_lt_succ hlt,
          .cons hbytes hseries, hrest⟩

/-- What goes wrong in one entry of a map. -/
def FaultyEntry (R : List UInt8 → Cbor → Prop) (F : List UInt8 → Prop) (data : List UInt8) : Prop :=
  F data ∨ ∃ key k rest, data = key ++ rest ∧ R key k ∧
    (F rest ∨ k.key? = none ∧ ∃ value v rest', rest = value ++ rest' ∧ R value v)

theorem readEntries_own (hexact : Exact item R) (hfails : Fails item F) {n : Nat}
    {dict : List (Scalar × Cbor)} {data : List UInt8} :
    Only Exn.Own (readEntries item n dict data) ↔
      ¬ ∃ parts entries rest, data = joined parts ++ rest ∧ parts.length < n ∧
        Pairs R parts entries ∧ FaultyEntry R F rest := by
  induction n generalizing data dict with
  | zero =>
      refine ⟨fun _ ⟨_, _, _, _, hlt, _⟩ => ?_, fun _ => only_ok⟩
      omega
  | succ n ih =>
      rw [readEntries, only_bind, hfails]
      constructor
      · rintro ⟨hkey, hmore⟩ ⟨parts, entries, rest, rfl, hlt, hpairs, hrest⟩
        cases hpairs with
        | nil =>
            rcases hrest with hrest | ⟨key, k, tail, rfl, hk, hrest⟩
            · exact hkey hrest
            · have hitem := (hexact _ _ tail).mpr ⟨key, rfl, hk⟩
              obtain ⟨hvalue, hafter⟩ := only_bind.mp (hmore _ hitem)
              rcases hrest with hrest | ⟨hnone, value, v, tail', rfl, hv⟩
              · exact (hfails tail).mp hvalue hrest
              · have hitem' := (hexact _ _ tail').mpr ⟨value, rfl, hv⟩
                have hlast := hafter _ hitem'
                simp only [hnone] at hlast
                exact only_error.mp hlast
        | @cons part e parts entries hpart hpairs =>
            have hdata : joined (part :: parts) ++ rest =
                part.1 ++ (part.2 ++ (joined parts ++ rest)) := by simp [joined]
            have hkey' := (hexact _ _ (part.2 ++ (joined parts ++ rest))).mpr ⟨part.1, rfl, hpart.1⟩
            have hvalue' := (hexact _ _ (joined parts ++ rest)).mpr ⟨part.2, rfl, hpart.2⟩
            rw [← hdata] at hkey'
            have hafter := (only_bind.mp (hmore _ hkey')).2 _ hvalue'
            simp only [Cbor.key?] at hafter
            exact ih.mp hafter ⟨parts, entries, rest, rfl, Nat.lt_of_succ_lt_succ hlt, hpairs, hrest⟩
      · intro hnone
        have hfirst : ∀ {tail}, FaultyEntry R F tail → data = tail → False := by
          rintro tail htail rfl
          exact hnone ⟨[], [], data, rfl, Nat.succ_pos n, .nil, htail⟩
        refine ⟨fun hdata => hfirst (.inl hdata) rfl, ?_⟩
        rintro ⟨key, tail⟩ hkey
        obtain ⟨kbytes, hdata, hk⟩ := (hexact data key tail).mp hkey
        refine only_bind.mpr ⟨(hfails tail).mpr fun htail => hfirst (.inr ⟨kbytes, key, tail, rfl, hk,
          .inl htail⟩) hdata, ?_⟩
        rintro ⟨value, tail'⟩ hvalue
        obtain ⟨vbytes, rfl, hv⟩ := (hexact tail value tail').mp hvalue
        cases key with
        | scalar k =>
            refine ih.mpr ?_
            rintro ⟨parts, entries, rest, rfl, hlt, hpairs, hrest⟩
            exact hnone ⟨(kbytes, vbytes) :: parts, (k, value) :: entries, rest,
              by simp [hdata, joined], Nat.succ_lt_succ hlt, .cons ⟨hk, hv⟩ hpairs, hrest⟩
        | array items =>
            exact (hfirst (.inr ⟨kbytes, _, _, rfl, hk, .inr ⟨rfl, vbytes, value, tail', rfl, hv⟩⟩)
              hdata).elim
        | map entries =>
            exact (hfirst (.inr ⟨kbytes, _, _, rfl, hk, .inr ⟨rfl, vbytes, value, tail', rfl, hv⟩⟩)
              hdata).elim

theorem readContent_own (hexact : Exact item R) (hfails : Fails item F) {major n : Nat}
    {data : List UInt8} :
    Only Exn.Own (readContent item major n data) ↔ ¬ FaultyContent R F major n data := by
  unfold readContent FaultyContent
  split
  · simp
  · simp
  · simp only [not_false_eq_true, iff_true]
    exact only_bind.mpr ⟨read_own n data, fun _ _ => only_ok⟩
  · rw [only_bind]
    constructor
    · rintro ⟨-, hmore⟩ ⟨s, rest, hdata, hlen, htext⟩
      have hlast := hmore (s, rest) (read_ok.mpr ⟨hdata, hlen⟩)
      simp only [htext] at hlast
      exact only_error.mp hlast
    · intro hnone
      refine ⟨read_own n data, ?_⟩
      rintro ⟨s, rest⟩ hread
      obtain ⟨hdata, hlen⟩ := read_ok.mp hread
      cases htext : decodeText s with
      | none => exact (hnone ⟨s, rest, hdata, hlen, htext⟩).elim
      | some text =>
          simp only [htext]
          exact only_ok
  · rw [only_bind, readItems_own hexact hfails]
    exact ⟨fun h => h.1, fun h => ⟨h, fun _ _ => only_ok⟩⟩
  · rw [only_bind, readEntries_own hexact hfails]
    exact ⟨fun h => h.1, fun h => ⟨h, fun _ _ => only_ok⟩⟩
  · exact hfails data

end Faults

/-- The reader raises something else than its own error exactly on faulty bytes. -/
theorem decode_fails (room : Nat) : Fails (decode room) (Faulty room) := by
  induction room with
  | zero =>
      intro data
      exact ⟨fun h => (only_error.mp h).elim, fun h => (h trivial).elim⟩
  | succ room ih =>
      intro data
      constructor
      · rintro hown ⟨major, head, n, rest, hmajor, rfl, hhead, hfault⟩
        rw [decode_head hhead hmajor, readContent_own (decode_ok room) ih] at hown
        exact hown hfault
      · intro hnone
        unfold decode
        refine only_bind.mpr ⟨readByte_own data, ?_⟩
        rintro ⟨initial, tail⟩ hbyte
        obtain rfl := readByte_ok.mp hbyte
        dsimp only
        split
        · exact only_bind.mpr ⟨simpleValue_own _, fun _ _ => only_ok⟩
        · rename_i hseven
          have hlt := initial.toNat_lt
          refine only_bind.mpr ⟨readUint_own _ _, ?_⟩
          rintro ⟨n, rest⟩ huint
          obtain ⟨arg, rfl, harg⟩ := readUint_ok.mp huint
          rw [readContent_own (decode_ok room) ih]
          exact fun hfault => hnone ⟨initial.toNat / 32, initial :: arg, n, rest, by omega, rfl,
            ⟨initial, arg, rfl, rfl, harg⟩, hfault⟩

/-! ## Canonical encoding -/

/-- The bytes of an argument, in as few as it needs. -/
def head (major n : Nat) : List UInt8 :=
  if n < 24 then [UInt8.ofNat (major * 32 + n)]
  else
    let width := if n < 2 ^ 8 then 0 else if n < 2 ^ 16 then 1 else if n < 2 ^ 32 then 2 else 3
    UInt8.ofNat (major * 32 + 24 + width) :: (toLittle (2 ^ width) n).reverse

/-- `str.encode("utf-8")` -/
def encodeText (text : List Char) : List UInt8 := text.flatMap String.utf8EncodeChar

def Scalar.encode : Scalar → List UInt8
  | .int n => if 0 ≤ n then head 0 n.toNat else head 1 (-1 - n).toNat
  | .bytes s => head 2 s.length ++ s
  | .text t => head 3 (encodeText t).length ++ encodeText t
  | .bool b => [if b then 0xF5 else 0xF4]
  | .null => [0xF6]

mutual

/-- The canonical encoding of a value; the entries of a map stand in their order. -/
def Cbor.encode : Cbor → List UInt8
  | .scalar s => s.encode
  | .array items => head 4 items.length ++ encodeItems items
  | .map entries => head 5 entries.length ++ encodeEntries entries

def encodeItems : List Cbor → List UInt8
  | [] => []
  | value :: rest => value.encode ++ encodeItems rest

def encodeEntries : List (Scalar × Cbor) → List UInt8
  | [] => []
  | (key, value) :: rest => key.encode ++ value.encode ++ encodeEntries rest

end

/-- The scalars that have a canonical encoding. -/
def Scalar.Fits : Scalar → Prop
  | .int n => -2 ^ 64 ≤ n ∧ n < 2 ^ 64
  | .bytes s => s.length < 2 ^ 64
  | .text t => (encodeText t).length < 2 ^ 64
  | _ => True

/-- An integer or a string. -/
def Scalar.isKey : Scalar → Bool
  | .int _ | .bytes _ | .text _ => true
  | _ => false

/-- A value built from the scalars that fit, from arrays, and from maps whose keys are distinct
integers and strings, with at most `room` of them inside one another. -/
def Cbor.Fits : Nat → Cbor → Prop
  | 0, _ => False
  | _ + 1, .scalar s => s.Fits
  | room + 1, .array items => items.length < 2 ^ 64 ∧ ∀ value ∈ items, Fits room value
  | room + 1, .map entries => entries.length < 2 ^ 64 ∧ (entries.map Prod.fst).Nodup ∧
      ∀ e ∈ entries, e.1.isKey = true ∧ e.1.Fits ∧ Fits room e.2

theorem decodeText_encodeText (text : List Char) : decodeText (encodeText text) = some text := by
  have hbytes : (encodeText text).toByteArray = text.utf8Encode := rfl
  rw [decodeText, hbytes, List.utf8Decode?_utf8Encode]
  rfl

theorem head_head {major n : Nat} (hmajor : major < 8) (hn : n < 2 ^ 64) :
    Head major (head major n) n := by
  unfold head
  split
  · rename_i hsmall
    have hbyte : (UInt8.ofNat (major * 32 + n)).toNat = major * 32 + n := by
      rw [UInt8.toNat_ofNat']
      omega
    refine ⟨_, [], rfl, ?_, .inl ?_⟩
    · rw [hbyte]
      omega
    · rw [hbyte]
      exact ⟨by omega, rfl, by omega⟩
  · rename_i hlarge
    have hwidth : ∀ width : Nat, width < 4 → n < 256 ^ (2 ^ width) →
        Head major (UInt8.ofNat (major * 32 + 24 + width) :: (toLittle (2 ^ width) n).reverse) n := by
      intro width hw hfit
      have hbyte : (UInt8.ofNat (major * 32 + 24 + width)).toNat = major * 32 + 24 + width := by
        rw [UInt8.toNat_ofNat']
        omega
      have hadd : (major * 32 + 24 + width) % 32 = 24 + width := by omega
      refine ⟨_, _, rfl, ?_, .inr ?_⟩
      · rw [hbyte]
        omega
      · rw [hbyte, hadd]
        refine ⟨by omega, by omega, ?_, ?_⟩
        · rw [List.length_reverse, length_toLittle, Nat.add_sub_cancel_left]
        · rw [ofBig, List.reverse_reverse, ofLittle_toLittle hfit]
    dsimp only
    split
    · exact hwidth 0 (by omega) (by simpa using ‹n < 2 ^ 8›)
    · split
      · exact hwidth 1 (by omega) (by simpa using ‹n < 2 ^ 16›)
      · split
        · exact hwidth 2 (by omega) (by simpa using ‹n < 2 ^ 32›)
        · exact hwidth 3 (by omega) (by simpa using hn)

theorem encodes_scalar {s : Scalar} (h : s.Fits) (room : Nat) :
    Encodes (room + 1) s.encode (.scalar s) := by
  cases s with
  | int n =>
      simp only [Scalar.Fits] at h
      simp only [Scalar.encode]
      split
      · rename_i hpos
        refine .inl ⟨0, head 0 n.toNat, n.toNat, [], by omega, by simp,
          head_head (by omega) (by omega), rfl, ?_⟩
        rw [Int.toNat_of_nonneg hpos]
      · rename_i hneg
        refine .inl ⟨1, head 1 (-1 - n).toNat, (-1 - n).toNat, [], by omega, by simp,
          head_head (by omega) (by omega), rfl, ?_⟩
        rw [Int.toNat_of_nonneg (by omega)]
        congr 2
        omega
  | bytes s => exact .inl ⟨2, _, s.length, s, by omega, rfl, head_head (by omega) h, rfl, rfl⟩
  | text t =>
      exact .inl ⟨3, _, (encodeText t).length, encodeText t, by omega, rfl, head_head (by omega) h,
        rfl, t, decodeText_encodeText t, rfl⟩
  | bool b =>
      cases b
      · exact .inr (.inl ⟨rfl, rfl⟩)
      · exact .inr (.inr (.inl ⟨rfl, rfl⟩))
  | null => exact .inr (.inr (.inr ⟨rfl, rfl⟩))

theorem encodeItems_eq (items : List Cbor) : encodeItems items = (items.map Cbor.encode).flatten := by
  induction items with
  | nil => simp [encodeItems]
  | cons value rest ih => simp [encodeItems, ih]

theorem encodeEntries_eq (entries : List (Scalar × Cbor)) :
    encodeEntries entries = joined (entries.map fun e => (e.1.encode, e.2.encode)) := by
  induction entries with
  | nil => simp [encodeEntries, joined]
  | cons e rest ih => simp [encodeEntries, ih, joined]

theorem dictSet_fresh {dict : List (Scalar × Cbor)} {key : Scalar} {value : Cbor}
    (h : ∀ e ∈ dict, e.1.same key = false) : dictSet dict key value = dict ++ [(key, value)] := by
  induction dict with
  | nil => rfl
  | cons e rest ih =>
      simp [dictSet, h e (by simp), ih fun x hx => h x (by simp [hx])]

theorem same_of_isKey {a b : Scalar} (ha : a.isKey = true) (hb : b.isKey = true) (h : a ≠ b) :
    a.same b = false := by
  cases a <;> cases b <;> simp_all [Scalar.isKey, Scalar.same]

/-- Setting distinct integers and strings one after another keeps them all, in their order. -/
theorem foldl_dictSet {entries dict : List (Scalar × Cbor)}
    (hnodup : ((dict ++ entries).map Prod.fst).Nodup)
    (hkeys : ∀ e ∈ dict ++ entries, e.1.isKey = true) :
    entries.foldl (fun dict e => dictSet dict e.1 e.2) dict = dict ++ entries := by
  induction entries generalizing dict with
  | nil => simp
  | cons e rest ih =>
      have hfresh : ∀ x ∈ dict, x.1.same e.1 = false := by
        intro x hx
        refine same_of_isKey (hkeys x (by simp [hx])) (hkeys e (by simp)) fun heq => ?_
        rw [List.map_append, List.nodup_append] at hnodup
        exact hnodup.2.2 x.1 (List.mem_map_of_mem hx) e.1 (by simp) heq
      have hlist : dict ++ [(e.1, e.2)] ++ rest = dict ++ e :: rest := by simp
      rw [List.foldl_cons, dictSet_fresh hfresh, ih, hlist]
      · rw [hlist]
        exact hnodup
      · rw [hlist]
        exact hkeys

/-- The canonical encoding of a value is an item of it. -/
theorem encodes_encode {room : Nat} {value : Cbor} (h : value.Fits room) :
    Encodes room value.encode value := by
  induction room generalizing value with
  | zero => exact h.elim
  | succ room ih =>
      cases value with
      | scalar s =>
          rw [Cbor.encode]
          exact encodes_scalar h room
      | array items =>
          obtain ⟨hlen, hitems⟩ := h
          rw [Cbor.encode, encodeItems_eq]
          refine .inl ⟨4, _, items.length, _, by omega, rfl, head_head (by omega) hlen,
            items.map Cbor.encode, items, rfl, by simp, ?_, rfl⟩
          rw [Series, List.forall₂_map_left_iff, List.forall₂_same]
          exact fun v hv => ih (hitems v hv)
      | map entries =>
          obtain ⟨hlen, hnodup, hentries⟩ := h
          rw [Cbor.encode, encodeEntries_eq]
          refine .inl ⟨5, _, entries.length, _, by omega, rfl, head_head (by omega) hlen,
            _, entries, rfl, by simp, ?_, ?_⟩
          · rw [Pairs, List.forall₂_map_left_iff, List.forall₂_same]
            intro e he
            obtain ⟨-, hkey, hvalue⟩ := hentries e he
            have hroom : room ≠ 0 := by
              rintro rfl
              exact hvalue.elim
            obtain ⟨r, rfl⟩ := Nat.exists_eq_succ_of_ne_zero hroom
            exact ⟨encodes_scalar hkey r, ih hvalue⟩
          · rw [dictOf, foldl_dictSet (by simpa using hnodup) (by simpa using fun a b h => (hentries (a, b) h).1)]
            rfl

/-- A value is read back from its canonical encoding, whatever follows it. -/
theorem decode_encode {room : Nat} {value : Cbor} (h : value.Fits room) (rest : List UInt8) :
    decode room (value.encode ++ rest) = .ok (value, rest) :=
  (decode_ok room _ _ _).mpr ⟨value.encode, rfl, encodes_encode h⟩

end Avibe.Vault
