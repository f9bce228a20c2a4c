import Mathlib.Tactic.Cases
import Avibe.Citations.Hosts

/-!
# IPv6 literals

The texts of the URL standard's grammar for an IPv6 host, and that `parseIpv6` reads exactly
these. A round of the main loop takes one part off the front of the text (`Parse.step_cases`) and
each part of the grammar is one round (`Parse.step_piece`, `step_last`, `step_quad`,
`step_elide`), so the loop and the grammar agree by induction on either side.

The pieces read so far are the list `w`: the address is `w` and zeros after it, and the index is
the length of `w`. An elision is one zero piece, at whose place the missing zeros are put in the
end.
-/

namespace Avibe.Citations

open Checked Ip Places

/-! ## The grammar -/

/-- A piece: one to four hexadecimal digits. -/
def Piece (t : Text) (v : Nat) : Prop := t ≠ [] ∧ t.length ≤ 4 ∧ valueOf? 16 t = some v

/-- A number of a dotted tail: a decimal number up to 255 without leading zeros. -/
def Octet (t : Text) (v : Nat) : Prop :=
  t ≠ [] ∧ valueOf? 10 t = some v ∧ v ≤ 255 ∧ (t.head? = some '0' → t = ['0'])

/-- A dotted tail and its two pieces. -/
inductive Quad : Text → Nat → Nat → Prop
  | mk {ta tb tc td : Text} {a b c d : Nat} (ha : Octet ta a) (hb : Octet tb b) (hc : Octet tc c)
      (hd : Octet td d) :
      Quad (ta ++ '.' :: (tb ++ '.' :: (tc ++ '.' :: td))) (a * 0x100 + b) (c * 0x100 + d)

/-- Pieces with a colon between them; a dotted tail may stand for the last two. -/
inductive Pieces : Text → List Nat → Prop
  | last {t : Text} {v : Nat} (h : Piece t v) : Pieces t [v]
  | quad {t : Text} {high low : Nat} (h : Quad t high low) : Pieces t [high, low]
  | cons {t rest : Text} {v : Nat} {vs : List Nat} (h : Piece t v) (hrest : Pieces rest vs) :
      Pieces (t ++ ':' :: rest) (v :: vs)

/-- Pieces with a colon after each of them. -/
inductive Led : Text → List Nat → Prop
  | nil : Led [] []
  | cons {t rest : Text} {v : Nat} {vs : List Nat} (h : Piece t v) (hrest : Led rest vs) :
      Led (t ++ ':' :: rest) (v :: vs)

/-- What may follow an elision. -/
def Trailing (t : Text) (vs : List Nat) : Prop := (t = [] ∧ vs = []) ∨ Pieces t vs

/-- What may precede the second colon of an elision. -/
def Leading (t : Text) (vs : List Nat) : Prop := (t = [':'] ∧ vs = []) ∨ (Led t vs ∧ vs ≠ [])

/-- The texts of IPv6 addresses: eight pieces, or fewer around one elision. -/
inductive Ipv6 : Text → List Nat → Prop
  | full {t : Text} {vs : List Nat} (h : Pieces t vs) (hlength : vs.length = 8) : Ipv6 t vs
  | elided {l r : Text} {ls rs : List Nat} (hl : Leading l ls) (hr : Trailing r rs)
      (hlength : ls.length + rs.length ≤ 7) :
      Ipv6 (l ++ ':' :: r) (ls ++ List.replicate (8 - (ls.length + rs.length)) 0 ++ rs)

/-! ## Digits -/

/-- The rest of a text does not go on with a digit. -/
def Stops (radix : Nat) (rest : Text) : Prop := rest.head?.bind (digit? radix) = none

theorem valueOf?_eq_some {radix v : Nat} {t : Text} :
    valueOf? radix t = some v ↔ ∃ ds, t.mapM (digit? radix) = some ds ∧ ofPlaces radix ds = v :=
  Option.map_eq_some_iff

theorem mapM_digit_cons {radix : Nat} {c : Char} {t : Text} {ds : List Nat}
    (h : (c :: t).mapM (digit? radix) = some ds) :
    ∃ d es, digit? radix c = some d ∧ t.mapM (digit? radix) = some es ∧ ds = d :: es := by
  rw [List.mapM_cons] at h
  obtain ⟨d, hd, h⟩ := Option.bind_eq_some_iff.mp h
  obtain ⟨es, hes, h⟩ := Option.bind_eq_some_iff.mp h
  exact ⟨d, es, hd, hes, (Option.some.inj h).symm⟩

theorem mapM_digit_of_cons {radix d : Nat} {c : Char} {t : Text} {es : List Nat}
    (hd : digit? radix c = some d) (hes : t.mapM (digit? radix) = some es) :
    (c :: t).mapM (digit? radix) = some (d :: es) := by
  rw [List.mapM_cons, hd, hes]
  rfl

theorem readPiece_stop {value length : Nat} {rest : Text} (h : 4 ≤ length ∨ Stops 16 rest) :
    readPiece value length rest = (value, length, rest) := by
  cases rest with
  | nil => rfl
  | cons c rest =>
      rw [readPiece]
      split
      · rename_i hlt
        have hc : digit? 16 c = none := h.resolve_left (Nat.not_le.mpr hlt)
        rw [hc]
      · rfl

theorem readPiece_append {value length : Nat} {t rest : Text} {ds : List Nat}
    (h : t.mapM (digit? 16) = some ds) (hlength : length + t.length ≤ 4) (hstop : Stops 16 rest) :
    readPiece value length (t ++ rest) =
      (ds.foldl (fun acc d => acc * 16 + d) value, length + t.length, rest) := by
  induction t generalizing value length ds with
  | nil =>
      cases h
      exact readPiece_stop (.inr hstop)
  | cons c t ih =>
      obtain ⟨d, es, hd, hes, rfl⟩ := mapM_digit_cons h
      rw [List.length_cons] at hlength ⊢
      rw [List.cons_append, readPiece, if_pos (by omega), hd]
      dsimp only
      rw [ih hes (by omega), List.foldl_cons, Nat.add_assoc, Nat.add_comm 1]

theorem readPiece_split (value length : Nat) (t : Text) :
    ∃ p ds, t = p ++ (readPiece value length t).2.2 ∧ p.mapM (digit? 16) = some ds ∧
      (readPiece value length t).1 = ds.foldl (fun acc d => acc * 16 + d) value ∧
      (readPiece value length t).2.1 = length + p.length ∧
      (length ≤ 4 → length + p.length ≤ 4) := by
  induction t generalizing value length with
  | nil => exact ⟨[], [], rfl, rfl, rfl, rfl, fun h => h⟩
  | cons c t ih =>
      rw [readPiece]
      split
      · split
        · rename_i d hd
          obtain ⟨p, ds, ht, hds, hvalue, hcount, hle⟩ := ih (value * 0x10 + d) (length + 1)
          refine ⟨c :: p, d :: ds, ?_, mapM_digit_of_cons hd hds, hvalue, ?_, ?_⟩
          · rw [List.cons_append, ← ht]
          · rw [hcount, List.length_cons]
            omega
          · rw [List.length_cons]
            omega
        · exact ⟨[], [], rfl, rfl, rfl, rfl, fun h => h⟩
      · exact ⟨[], [], rfl, rfl, rfl, rfl, fun h => h⟩

theorem readPiece_piece {t rest : Text} {v : Nat} (h : Piece t v) (hstop : Stops 16 rest) :
    readPiece 0 0 (t ++ rest) = (v, t.length, rest) := by
  obtain ⟨-, hle, hv⟩ := h
  obtain ⟨ds, hds, rfl⟩ := valueOf?_eq_some.mp hv
  rw [readPiece_append hds (by omega) hstop, Nat.zero_add]
  rfl

/-- What `readPiece` read is a piece when it read something. -/
theorem piece_of_readPiece {t rest : Text} {v n : Nat} (h : readPiece 0 0 t = (v, n, rest))
    (hn : n ≠ 0) : ∃ p, t = p ++ rest ∧ Piece p v := by
  obtain ⟨p, ds, ht, hds, hvalue, hcount, hle⟩ := readPiece_split 0 0 t
  rw [h] at ht hvalue hcount
  dsimp only at ht hvalue hcount
  rw [Nat.zero_add] at hcount
  refine ⟨p, ht, ?_, by omega, valueOf?_eq_some.mpr ⟨ds, hds, hvalue.symm⟩⟩
  rintro rfl
  exact hn hcount

theorem Piece.head {t : Text} {v : Nat} (h : Piece t v) :
    ∃ c rest, t = c :: rest ∧ (digit? 16 c).isSome = true := by
  obtain ⟨hne, -, hv⟩ := h
  cases t with
  | nil => exact (hne rfl).elim
  | cons c rest =>
      obtain ⟨ds, hds, -⟩ := valueOf?_eq_some.mp hv
      obtain ⟨d, es, hd, -, -⟩ := mapM_digit_cons hds
      exact ⟨c, rest, rfl, by rw [hd]; rfl⟩

theorem digit?_zero {c : Char} (h : digit? 10 c = some 0) : c = '0' := by
  have hvalue : digitValue? c = some 0 := (Option.filter_eq_some_iff.mp h).1
  unfold digitValue? at hvalue
  split at hvalue
  · rename_i hc
    have hle : '0'.toNat ≤ c.toNat := hc.1
    have hzero : c.toNat - '0'.toNat = 0 := Option.some.inj hvalue
    have heq : c.toNat = '0'.toNat := by omega
    exact Char.toNat_inj.mp heq
  · split at hvalue
    · simp at hvalue
    · split at hvalue
      · simp at hvalue
      · cases hvalue

theorem digit?_le {radix d : Nat} {c : Char} (h : digit? radix c = some d) : d < radix := by
  simpa using (Option.filter_eq_some_iff.mp h).2

/-! ## The numbers of a dotted tail -/

theorem readOctet_stop {piece : Option Nat} {rest : Text} (h : Stops 10 rest) :
    readOctet piece rest = .ok (piece, rest) := by
  cases rest with
  | nil => rfl
  | cons c rest =>
      have hc : digit? 10 c = none := h
      rw [readOctet, hc]

theorem le_foldl_digits (ds : List Nat) (p : Nat) :
    p ≤ ds.foldl (fun acc d => acc * 10 + d) p := by
  induction ds generalizing p with
  | nil => exact Nat.le_refl p
  | cons d ds ih =>
      exact le_trans (by omega : p ≤ p * 10 + d) (ih _)

theorem readOctet_append {p : Nat} {t rest : Text} {ds : List Nat}
    (h : t.mapM (digit? 10) = some ds) (hp : 0 < p ∨ t = [])
    (hle : ds.foldl (fun acc d => acc * 10 + d) p ≤ 255) (hstop : Stops 10 rest) :
    readOctet (some p) (t ++ rest) =
      .ok (some (ds.foldl (fun acc d => acc * 10 + d) p), rest) := by
  induction t generalizing p ds with
  | nil =>
      cases h
      exact readOctet_stop hstop
  | cons c t ih =>
      obtain ⟨d, es, hd, hes, rfl⟩ := mapM_digit_cons h
      have hpos : 0 < p := hp.resolve_right (List.cons_ne_nil c t)
      have hnext : p * 10 + d ≤ 255 := le_trans (le_foldl_digits es _) hle
      have hread : readOctet (some p) (c :: (t ++ rest)) =
          readOctet (some (p * 10 + d)) (t ++ rest) := by
        rw [readOctet, hd]
        cases p with
        | zero => exact (Nat.lt_irrefl 0 hpos).elim
        | succ q => exact if_neg (by omega)
      rw [List.cons_append, hread]
      exact ih hes (.inl (by omega)) hle

theorem readOctet_octet {t rest : Text} {v : Nat} (h : Octet t v) (hstop : Stops 10 rest) :
    readOctet none (t ++ rest) = .ok (some v, rest) := by
  obtain ⟨hne, hv, hle, hzero⟩ := h
  obtain ⟨ds, hds, rfl⟩ := valueOf?_eq_some.mp hv
  cases t with
  | nil => exact (hne rfl).elim
  | cons c t =>
      obtain ⟨d, es, hd, hes, rfl⟩ := mapM_digit_cons hds
      have hvalue : ofPlaces 10 (d :: es) = es.foldl (fun acc d => acc * 10 + d) d := by
        simp [ofPlaces]
      have hlt := digit?_le hd
      have hfirst : 0 < d ∨ t = [] := by
        rcases Nat.eq_zero_or_pos d with rfl | hpos
        · have hc : c = '0' := digit?_zero hd
          rw [hc] at hzero
          exact .inr (List.cons.inj (hzero rfl)).2
        · exact .inl hpos
      rw [hvalue] at hle ⊢
      rw [List.cons_append, readOctet, hd]
      dsimp only
      rw [if_neg (by omega)]
      exact readOctet_append hes hfirst hle hstop

/-- What the loop reads after a first digit. -/
theorem readOctet_split {p : Nat} {q : Option Nat} {t rest : Text}
    (h : readOctet (some p) t = .ok (q, rest)) (hp : p ≤ 255) :
    ∃ t' ds, t = t' ++ rest ∧ t'.mapM (digit? 10) = some ds ∧
      q = some (ds.foldl (fun acc d => acc * 10 + d) p) ∧ (p = 0 → t' = []) ∧
      ds.foldl (fun acc d => acc * 10 + d) p ≤ 255 ∧ Stops 10 rest := by
  induction t generalizing p with
  | nil =>
      cases h
      exact ⟨[], [], rfl, rfl, rfl, fun _ => rfl, hp, rfl⟩
  | cons c t ih =>
      rw [readOctet] at h
      split at h
      · rename_i hc
        cases h
        exact ⟨[], [], rfl, rfl, rfl, fun _ => rfl, hp, hc⟩
      · rename_i d hd
        split at h
        · rename_i hpiece
          cases hpiece
        · cases h
        · rename_i value hne hpiece
          cases hpiece
          split at h
          · cases h
          · obtain ⟨t', ds, ht, hds, hq, -, hle, hstop⟩ := ih h (by omega)
            refine ⟨c :: t', d :: ds, ?_, mapM_digit_of_cons hd hds, hq, ?_, hle, hstop⟩
            · rw [ht, List.cons_append]
            · rintro rfl
              exact (hne rfl).elim

theorem octet_of_readOctet {t rest : Text} {q : Option Nat}
    (hdigit : (t.head?.bind (digit? 10)).isSome = true) (h : readOctet none t = .ok (q, rest)) :
    ∃ t' v, t = t' ++ rest ∧ q = some v ∧ Octet t' v ∧ Stops 10 rest := by
  cases t with
  | nil => cases hdigit
  | cons c t =>
      obtain ⟨d, hd⟩ := Option.isSome_iff_exists.mp hdigit
      change digit? 10 c = some d at hd
      rw [readOctet, hd] at h
      dsimp only at h
      split at h
      · cases h
      · obtain ⟨t', ds, ht, hds, hq, hzero, hle, hstop⟩ := readOctet_split h (by omega)
        refine ⟨c :: t', ds.foldl (fun acc d => acc * 10 + d) d, ?_, hq, ⟨List.cons_ne_nil c t', ?_,
          hle, ?_⟩, hstop⟩
        · rw [ht, List.cons_append]
        · refine valueOf?_eq_some.mpr ⟨d :: ds, mapM_digit_of_cons hd hds, ?_⟩
          simp [ofPlaces]
        · intro hhead
          have hc : c = '0' := Option.some.inj hhead
          have hd0 : d = 0 := by
            rw [hc] at hd
            exact (Option.some.inj hd).symm
          rw [hzero hd0, hc]

theorem Octet.head {t : Text} {v : Nat} (h : Octet t v) (rest : Text) :
    ((t ++ rest).head?.bind (digit? 10)).isSome = true := by
  obtain ⟨hne, hv, -, -⟩ := h
  cases t with
  | nil => exact (hne rfl).elim
  | cons c t =>
      obtain ⟨ds, hds, -⟩ := valueOf?_eq_some.mp hv
      obtain ⟨d, es, hd, -, -⟩ := mapM_digit_cons hds
      change (digit? 10 c).isSome = true
      rw [hd]
      rfl

/-! ## The pieces read so far -/

/-- Eight pieces: those read so far and zeros. -/
def pad (w : List Nat) : List Nat := w ++ List.replicate (8 - w.length) 0

theorem length_pad {w : List Nat} (h : w.length ≤ 8) : (pad w).length = 8 := by
  rw [pad, List.length_append, List.length_replicate]
  omega

theorem pad_zero {w : List Nat} (h : w.length < 8) : pad (w ++ [0]) = pad w := by
  obtain ⟨k, hk⟩ := Nat.exists_eq_add_of_lt h
  have hleft : 8 - (w ++ [0]).length = k := by
    rw [List.length_append, List.length_singleton]
    omega
  have hright : 8 - w.length = k + 1 := by omega
  rw [pad, pad, hleft, hright, List.replicate_succ, List.append_assoc, List.singleton_append]

theorem load_pad {w : List Nat} {x : Nat} : load (pad (w ++ [x])) w.length = .ok x := by
  unfold load pad
  rw [List.append_assoc, List.getElem?_append_right (Nat.le_refl _), Nat.sub_self]
  rfl

theorem store_pad {w : List Nat} {x v : Nat} (h : w.length < 8) :
    store (pad (w ++ [x])) w.length v = .ok (pad (w ++ [v])) := by
  have hlength : w.length < (pad (w ++ [x])).length := by
    rw [length_pad (by rw [List.length_append, List.length_singleton]; omega)]
    exact h
  have hset : (pad (w ++ [x])).set w.length v = pad (w ++ [v]) := by
    unfold pad
    rw [List.append_assoc, List.append_assoc, List.set_append_right _ _ (Nat.le_refl _),
      Nat.sub_self, List.length_append, List.length_append]
    rfl
  rw [store, bind_eq_ok (require_eq_ok hlength), hset]
  rfl

theorem store_next {w : List Nat} {v : Nat} (h : w.length < 8) :
    store (pad w) w.length v = .ok (pad (w ++ [v])) := by
  rw [← pad_zero h, store_pad h]

/-! ## A dotted tail -/

/-- The separator before the number after `seen` numbers. -/
def Separator (seen : Nat) (sep : Text) : Prop :=
  (seen = 0 ∧ sep = []) ∨ (0 < seen ∧ seen < 4 ∧ sep = ['.'])

theorem Dotted.skipDot_eq {seen : Nat} {sep : Text} (hsep : Separator seen sep) (rest : Text)
    (address : List Nat) (index : Nat) :
    Dotted.skipDot ⟨sep ++ rest, address, index, seen⟩ = .ok rest := by
  unfold Dotted.skipDot
  rcases hsep with ⟨rfl, rfl⟩ | ⟨hpos, hlt, rfl⟩
  · rfl
  · dsimp only
    rw [if_pos hpos]
    exact if_pos hlt

theorem Dotted.skipDot_ok {s : Dotted} {rest : Text} (h : s.skipDot = .ok rest) :
    ∃ sep, Separator s.seen sep ∧ s.rest = sep ++ rest := by
  unfold Dotted.skipDot at h
  split at h
  · rename_i hpos
    split at h
    · rename_i r hr
      split at h
      · rename_i hlt
        cases h
        exact ⟨['.'], .inr ⟨hpos, hlt, rfl⟩, hr⟩
      · cases h
    · cases h
  · rename_i hzero
    cases h
    exact ⟨[], .inl ⟨by omega, rfl⟩, rfl⟩

theorem Dotted.step_ok {s s' : Dotted} (h : s.step = .ok s') :
    ∃ sep t v rest, Separator s.seen sep ∧ s.rest = sep ++ (t ++ rest) ∧ Octet t v ∧
      Stops 10 rest ∧ s.put rest v = .ok s' := by
  obtain ⟨text, hskip, h⟩ := bind_ok h
  obtain ⟨hdigit, h⟩ := require_bind_ok h
  obtain ⟨⟨piece, rest⟩, hread, h⟩ := bind_ok h
  obtain ⟨sep, hsep, hrest⟩ := Dotted.skipDot_ok hskip
  obtain ⟨t, v, ht, rfl, hoctet, hstop⟩ := octet_of_readOctet hdigit hread
  exact ⟨sep, t, v, rest, hsep, by rw [hrest, ht], hoctet, hstop, h⟩

/-- The index after a number is written. -/
def nextIndex (index seen : Nat) : Nat := if seen = 2 ∨ seen = 4 then index + 1 else index

theorem Dotted.put_eq {w : List Nat} (hw : w.length < 8) (x seen : Nat) (text rest : Text) (v : Nat) :
    Dotted.put ⟨text, pad (w ++ [x]), w.length, seen⟩ rest v =
      .ok ⟨rest, pad (w ++ [x * 0x100 + v]), nextIndex w.length (seen + 1), seen + 1⟩ := by
  unfold Dotted.put
  dsimp only
  rw [bind_eq_ok load_pad, bind_eq_ok (store_pad hw)]
  rfl

theorem Dotted.step_octet {seen v : Nat} {sep t rest : Text} (hsep : Separator seen sep)
    (ht : Octet t v) (hstop : Stops 10 rest) {w : List Nat} (hw : w.length < 8) (x : Nat) :
    Dotted.step ⟨sep ++ (t ++ rest), pad (w ++ [x]), w.length, seen⟩ =
      .ok ⟨rest, pad (w ++ [x * 0x100 + v]), nextIndex w.length (seen + 1), seen + 1⟩ := by
  unfold Dotted.step
  rw [bind_eq_ok (Dotted.skipDot_eq hsep _ _ _), bind_eq_ok (require_eq_ok (ht.head rest)),
    bind_eq_ok (readOctet_octet ht hstop)]
  exact Dotted.put_eq hw x seen _ rest v

theorem Dotted.loop_step {s t : Dotted} (hrest : s.rest ≠ []) (h : s.step = .ok t) :
    s.loop = t.loop := by
  rw [Dotted.loop, if_neg hrest]
  split
  · rename_i e he
    rw [h] at he
    cases he
  · rename_i t' ht
    rw [h] at ht
    cases ht
    rfl

theorem Dotted.loop_cases {s t : Dotted} (h : s.loop = .ok t) :
    (s.rest = [] ∧ s = t) ∨ ∃ m, s.step = .ok m ∧ m.loop = .ok t := by
  rw [Dotted.loop] at h
  split at h
  · rename_i hrest
    exact .inl ⟨hrest, Except.ok.inj h⟩
  · split at h
    · cases h
    · rename_i m hm
      exact .inr ⟨m, hm, h⟩

theorem Octet.append_ne_nil {t : Text} {v : Nat} (h : Octet t v) (sep rest : Text) :
    sep ++ (t ++ rest) ≠ [] := by
  simp [h.1]

theorem stops_dot (rest : Text) : Stops 10 ('.' :: rest) := rfl

theorem stops_nil (radix : Nat) : Stops radix [] := rfl

theorem separator_dot {seen : Nat} (hpos : 0 < seen) (hlt : seen < 4) : Separator seen ['.'] :=
  .inr ⟨hpos, hlt, rfl⟩

/-- Two numbers fill one piece. -/
theorem Dotted.loop_pair {seen a b : Nat} {sep ta tb rest : Text} (hsep : Separator seen sep)
    (hseen : seen = 0 ∨ seen = 2) (ha : Octet ta a) (hb : Octet tb b) (hstop : Stops 10 rest)
    {w : List Nat} (hw : w.length < 8) :
    Dotted.loop ⟨sep ++ (ta ++ '.' :: (tb ++ rest)), pad w, w.length, seen⟩ =
      Dotted.loop ⟨rest, pad (w ++ [a * 0x100 + b]), (w ++ [a * 0x100 + b]).length, seen + 2⟩ := by
  have hdot : Separator (seen + 1) ['.'] := separator_dot (by omega) (by omega)
  have hfirst : nextIndex w.length (seen + 1) = w.length := if_neg (by omega)
  have hsecond : nextIndex w.length (seen + 2) = w.length + 1 := if_pos (by omega)
  have hstep := Dotted.step_octet hsep ha (stops_dot (tb ++ rest)) hw 0
  have hstep' := Dotted.step_octet hdot hb hstop hw a
  rw [pad_zero hw, hfirst, Nat.zero_mul, Nat.zero_add] at hstep
  rw [hsecond] at hstep'
  rw [Dotted.loop_step (ha.append_ne_nil sep _) hstep, List.length_append, List.length_singleton]
  exact Dotted.loop_step (hb.append_ne_nil ['.'] rest) hstep'

theorem Dotted.loop_quad {t : Text} {high low : Nat} (h : Quad t high low) {w : List Nat}
    (hw : w.length ≤ 6) :
    Dotted.loop ⟨t, pad w, w.length, 0⟩ =
      .ok ⟨[], pad (w ++ [high, low]), w.length + 2, 4⟩ := by
  obtain @⟨ta, tb, tc, td, a, b, c, d, ha, hb, hc, hd⟩ := h
  have hlow : (w ++ [a * 0x100 + b]).length < 8 := by
    rw [List.length_append, List.length_singleton]
    omega
  have hfirst := Dotted.loop_pair (.inl ⟨rfl, rfl⟩) (.inl rfl) ha hb (stops_dot (tc ++ '.' :: td))
    (show w.length < 8 by omega)
  have hsecond := Dotted.loop_pair (separator_dot (by decide) (by decide)) (.inr rfl) hc hd
    (stops_nil 10) hlow
  rw [List.append_nil] at hsecond
  rw [List.nil_append] at hfirst
  rw [hfirst]
  refine hsecond.trans ?_
  rw [Dotted.loop, if_pos rfl, List.append_assoc, List.length_append]
  rfl

/-- A round of the loop that leads to the end of the loop. -/
theorem Dotted.loop_octet {text : Text} {seen x : Nat} {w : List Nat} {s' : Dotted}
    (h : Dotted.loop ⟨text, pad (w ++ [x]), w.length, seen⟩ = .ok s') (hw : w.length < 8)
    (hseen : s'.seen ≠ seen) :
    ∃ sep t v rest, Separator seen sep ∧ text = sep ++ (t ++ rest) ∧ Octet t v ∧
      Dotted.loop ⟨rest, pad (w ++ [x * 0x100 + v]), nextIndex w.length (seen + 1), seen + 1⟩ =
        .ok s' := by
  rcases Dotted.loop_cases h with ⟨-, rfl⟩ | ⟨m, hm, h⟩
  · exact (hseen rfl).elim
  · obtain ⟨sep, t, v, rest, hsep, htext, hoctet, -, hput⟩ := Dotted.step_ok hm
    rw [Dotted.put_eq hw] at hput
    cases hput
    exact ⟨sep, t, v, rest, hsep, htext, hoctet, h⟩

theorem quad_of_loop {text : Text} {w : List Nat} {s' : Dotted} (hw : w.length ≤ 6)
    (h : Dotted.loop ⟨text, pad w, w.length, 0⟩ = .ok s') (hseen : s'.seen = 4) :
    ∃ high low, Quad text high low ∧
      s' = ⟨[], pad (w ++ [high, low]), w.length + 2, 4⟩ := by
  rw [← pad_zero (show w.length < 8 by omega)] at h
  obtain ⟨sa, ta, a, ra, hsa, rfl, ha, h₁⟩ := Dotted.loop_octet h (by omega) (by omega)
  obtain ⟨sb, tb, b, rb, hsb, rfl, hb, h₂⟩ := Dotted.loop_octet h₁ (by omega) (by omega)
  rw [Nat.zero_mul, Nat.zero_add] at h₂
  have hindex : nextIndex w.length (0 + 1 + 1) = (w ++ [a * 0x100 + b]).length := by
    rw [List.length_append]
    rfl
  have hlow : (w ++ [a * 0x100 + b]).length < 8 := by
    rw [List.length_append, List.length_singleton]
    omega
  rw [hindex, ← pad_zero hlow] at h₂
  obtain ⟨sc, tc, c, rc, hsc, rfl, hc, h₃⟩ := Dotted.loop_octet h₂ hlow (by omega)
  obtain ⟨sd, td, d, rd, hsd, rfl, hd, h₄⟩ := Dotted.loop_octet h₃ hlow (by omega)
  obtain rfl : sa = [] := (hsa.resolve_right fun h => Nat.lt_irrefl 0 h.1).2
  obtain rfl : sb = ['.'] := (hsb.resolve_left fun h => by cases h.1).2.2
  obtain rfl : sc = ['.'] := (hsc.resolve_left fun h => by cases h.1).2.2
  obtain rfl : sd = ['.'] := (hsd.resolve_left fun h => by cases h.1).2.2
  rcases Dotted.loop_cases h₄ with ⟨hnil, rfl⟩ | ⟨m, hm, -⟩
  · obtain rfl : rd = [] := hnil
    refine ⟨a * 0x100 + b, c * 0x100 + d, ?_, ?_⟩
    · have hquad := Quad.mk ha hb hc hd
      simpa using hquad
    · rw [Nat.zero_mul, Nat.zero_add, List.append_assoc]
      congr 1
      rw [List.length_append]
      rfl
  · obtain ⟨sep, -, -, -, hsep, -⟩ := Dotted.step_ok hm
    rcases hsep with ⟨hzero, -⟩ | ⟨-, hlt, -⟩
    · cases hzero
    · exact (Nat.lt_irrefl 4 hlt).elim

/-! ## One round of the main loop -/

/-- The state after the pieces `w`. -/
def Parse.after (rest : Text) (w : List Nat) (compress : Option Nat) : Parse :=
  ⟨rest, pad w, w.length, compress⟩

section Rounds

variable {w : List Nat} {compress : Option Nat}

theorem Parse.step_elide (hw : w.length < 8) (rest : Text) :
    (Parse.after (':' :: rest) w none).step =
      .ok (Parse.after rest (w ++ [0]) (some (w.length + 1))) := by
  unfold Parse.step Parse.after
  dsimp only
  rw [bind_eq_ok (require_eq_ok (by omega)), if_pos List.head?_cons,
    bind_eq_ok (require_eq_ok rfl), pad_zero hw, List.length_append]
  rfl

theorem Piece.head_ne_colon {t : Text} {v : Nat} (h : Piece t v) (rest : Text) :
    (t ++ rest).head? ≠ some ':' := by
  obtain ⟨c, t', rfl, hc⟩ := h.head
  intro hcolon
  obtain rfl : c = ':' := Option.some.inj hcolon
  cases hc

/-- A round that reads a piece and the separator after it. -/
theorem Parse.step_skip {t left rest : Text} {v : Nat} (h : Piece t v) (hstop : Stops 16 left)
    (hdot : left.head? ≠ some '.') (hskip : skipColon left = .ok rest) (hw : w.length < 8) :
    (Parse.after (t ++ left) w compress).step = .ok (Parse.after rest (w ++ [v]) compress) := by
  unfold Parse.step Parse.after
  dsimp only
  rw [bind_eq_ok (require_eq_ok (by omega)), if_neg (h.head_ne_colon left), readPiece_piece h hstop]
  dsimp only
  rw [if_neg hdot, bind_eq_ok hskip, bind_eq_ok (store_next hw), List.length_append]
  rfl

theorem Parse.step_piece {t rest : Text} {v : Nat} (h : Piece t v) (hrest : rest ≠ [])
    (hw : w.length < 8) :
    (Parse.after (t ++ ':' :: rest) w compress).step =
      .ok (Parse.after rest (w ++ [v]) compress) :=
  Parse.step_skip h rfl (by simp) (if_neg hrest) hw

theorem Parse.step_last {t : Text} {v : Nat} (h : Piece t v) (hw : w.length < 8) :
    (Parse.after t w compress).step = .ok (Parse.after [] (w ++ [v]) compress) := by
  have hstep : (Parse.after (t ++ []) w compress).step =
      .ok (Parse.after [] (w ++ [v]) compress) :=
    Parse.step_skip h (stops_nil 16) (by simp) rfl hw
  rwa [List.append_nil] at hstep

theorem length_mapM_digit {radix : Nat} {t : Text} {ds : List Nat}
    (h : t.mapM (digit? radix) = some ds) : t.length = ds.length := by
  induction t generalizing ds with
  | nil =>
      cases h
      rfl
  | cons c t ih =>
      obtain ⟨d, es, -, hes, rfl⟩ := mapM_digit_cons h
      rw [List.length_cons, List.length_cons, ih hes]

theorem Octet.length_le {t : Text} {v : Nat} (h : Octet t v) : t.length ≤ 3 := by
  obtain ⟨hne, hv, hle, hzero⟩ := h
  obtain ⟨ds, hds, rfl⟩ := valueOf?_eq_some.mp hv
  cases t with
  | nil => exact (hne rfl).elim
  | cons c t =>
      obtain ⟨d, es, hd, hes, rfl⟩ := mapM_digit_cons hds
      rw [List.length_cons, length_mapM_digit hes]
      rcases Nat.eq_zero_or_pos d with rfl | hpos
      · obtain rfl : c = '0' := digit?_zero hd
        obtain rfl : t = [] := (List.cons.inj (hzero rfl)).2
        cases hes
        decide
      · have hlower : 10 ^ es.length ≤ ofPlaces 10 (d :: es) := pow_le_ofPlaces hpos es
        by_contra hlong
        have hpow : 10 ^ 3 ≤ 10 ^ es.length := Nat.pow_le_pow_right (by decide) (by omega)
        omega

theorem digit?_mono {a b d : Nat} {c : Char} (hab : a ≤ b) (h : digit? a c = some d) :
    digit? b c = some d := by
  obtain ⟨hvalue, hlt⟩ := Option.filter_eq_some_iff.mp h
  refine Option.filter_eq_some_iff.mpr ⟨hvalue, ?_⟩
  simp only [decide_eq_true_eq] at hlt ⊢
  omega

theorem mapM_digit_mono {a b : Nat} (hab : a ≤ b) {t : Text} {ds : List Nat}
    (h : t.mapM (digit? a) = some ds) : t.mapM (digit? b) = some ds := by
  induction t generalizing ds with
  | nil => exact h
  | cons c t ih =>
      obtain ⟨d, es, hd, hes, rfl⟩ := mapM_digit_cons h
      exact mapM_digit_of_cons (digit?_mono hab hd) (ih hes)

/-- The digits of the first number of a dotted tail are also those of a piece. -/
theorem Octet.hex {t : Text} {v : Nat} (h : Octet t v) : ∃ u, Piece t u := by
  obtain ⟨ds, hds, -⟩ := valueOf?_eq_some.mp h.2.1
  exact ⟨ofPlaces 16 ds, h.1, by have := h.length_le; omega,
    valueOf?_eq_some.mpr ⟨ds, mapM_digit_mono (by decide) hds, rfl⟩⟩

theorem Parse.step_quad {t : Text} {high low : Nat} (h : Quad t high low) (hw : w.length ≤ 6) :
    (Parse.after t w compress).step = .ok (Parse.after [] (w ++ [high, low]) compress) := by
  have hloop := Dotted.loop_quad h hw
  obtain @⟨ta, tb, tc, td, a, b, c, d, ha, hb, hc, hd⟩ := h
  obtain ⟨u, hpiece⟩ := ha.hex
  have hlength : ¬ (ta.length = 0 ∨ 6 < w.length) := by
    have hpos := List.length_pos_iff.mpr ha.1
    omega
  unfold Parse.step Parse.after
  dsimp only
  rw [bind_eq_ok (require_eq_ok (by omega)), if_neg (hpiece.head_ne_colon _),
    readPiece_piece hpiece (show Stops 16 ('.' :: _) from rfl)]
  dsimp only
  rw [if_pos List.head?_cons, bind_eq_ok (require_eq_ok hlength), bind_eq_ok hloop,
    bind_eq_ok (require_eq_ok rfl), List.length_append]
  rfl

/-- A round takes an elision, a piece or a dotted tail off the front of the text. -/
theorem Parse.step_cases {rest : Text} {s' : Parse} (hrest : rest ≠ []) (hw : w.length ≤ 8)
    (h : (Parse.after rest w compress).step = .ok s') :
    (∃ r, rest = ':' :: r ∧ compress = none ∧ w.length < 8 ∧
      s' = Parse.after r (w ++ [0]) (some (w.length + 1))) ∨
    (∃ t v r, rest = t ++ ':' :: r ∧ r ≠ [] ∧ Piece t v ∧ w.length < 8 ∧
      s' = Parse.after r (w ++ [v]) compress) ∨
    (∃ v, Piece rest v ∧ w.length < 8 ∧ s' = Parse.after [] (w ++ [v]) compress) ∨
    (∃ high low, Quad rest high low ∧ w.length ≤ 6 ∧
      s' = Parse.after [] (w ++ [high, low]) compress) := by
  unfold Parse.step Parse.after at h
  dsimp only at h
  obtain ⟨hindex, h⟩ := require_bind_ok h
  have hlt : w.length < 8 := by omega
  split at h
  · rename_i hcolon
    obtain ⟨hnone, h⟩ := require_bind_ok h
    obtain rfl := pure_ok h
    obtain ⟨c, r, rfl⟩ := List.exists_cons_of_ne_nil hrest
    obtain rfl : c = ':' := Option.some.inj hcolon
    refine .inl ⟨r, rfl, hnone, hlt, ?_⟩
    rw [Parse.after, pad_zero hlt, List.length_append]
    rfl
  · rename_i hcolon
    cases hread : readPiece 0 0 rest with
    | mk v p =>
        obtain ⟨n, left⟩ := p
        rw [hread] at h
        dsimp only at h
        split at h
        · obtain ⟨hn, h⟩ := require_bind_ok h
          obtain ⟨tail, htail, h⟩ := bind_ok h
          obtain ⟨hseen, h⟩ := require_bind_ok h
          obtain rfl := pure_ok h
          obtain ⟨high, low, hquad, rfl⟩ := quad_of_loop (by omega) htail hseen
          refine .inr (.inr (.inr ⟨high, low, hquad, by omega, ?_⟩))
          rw [Parse.after, List.length_append]
          rfl
        · obtain ⟨next, hskip, h⟩ := bind_ok h
          obtain ⟨address, haddress, h⟩ := bind_ok h
          obtain rfl := pure_ok h
          rw [store_next hlt] at haddress
          obtain rfl := Except.ok.inj haddress
          have hn : n ≠ 0 := by
            rintro rfl
            obtain ⟨p, ds, hp, -, -, hcount, -⟩ := readPiece_split 0 0 rest
            rw [hread] at hp hcount
            obtain rfl : p = [] := List.length_eq_zero_iff.mp (by simpa using hcount.symm)
            rw [List.nil_append] at hp
            dsimp only at hp
            rw [← hp] at hskip
            rcases skipColon_ok hskip with ⟨rfl, -⟩ | ⟨rfl, -⟩
            · exact hcolon rfl
            · exact hrest rfl
          obtain ⟨t, rfl, hpiece⟩ := piece_of_readPiece hread hn
          rcases skipColon_ok hskip with ⟨rfl, hne⟩ | ⟨rfl, rfl⟩
          · refine .inr (.inl ⟨t, v, next, rfl, hne, hpiece, hlt, ?_⟩)
            rw [Parse.after, List.length_append]
            rfl
          · refine .inr (.inr (.inl ⟨v, by rwa [List.append_nil], hlt, ?_⟩))
            rw [Parse.after, List.length_append]
            rfl

end Rounds

end Avibe.Citations
