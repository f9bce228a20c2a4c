import Avibe.Citations.HostNumbers

/-!
# Exactly the IPv6 literals are read

Whole runs of `parseIpv6`: every text of the grammar is read to its address
(`parseIpv6_of_ipv6`), what is read is such a text (`ipv6_of_parseIpv6`), every other text is
refused without an index outside the eight pieces (`parseIpv6_only`), and what `serializeIpv6`
writes is read back (`ipv6_serialize`).
-/

namespace Avibe.Citations

open Checked Ip Places

/-! ## The pieces after an elision -/

theorem load_append {x y : List Nat} {v : Nat} : load (x ++ v :: y) x.length = .ok v := by
  unfold load
  rw [List.getElem?_append_right (Nat.le_refl _), Nat.sub_self]
  rfl

theorem store_append {x y : List Nat} {v u : Nat} :
    store (x ++ v :: y) x.length u = .ok (x ++ u :: y) := by
  have hlt : x.length < (x ++ v :: y).length := by simp
  rw [store, bind_eq_ok (require_eq_ok hlt), List.set_append_right _ _ (Nat.le_refl _),
    Nat.sub_self]
  rfl

/-- One exchange: the last piece of `u` goes behind the zeros. -/
theorem swapLoop_succ {x : List Nat} (v gap swaps : Nat) (y : List Nat) {compress : Nat}
    (hx : x.length = compress + swaps) (hpos : 0 < x.length + gap) :
    swapLoop compress (x ++ v :: (List.replicate gap 0 ++ y)) (x.length + gap) (swaps + 1) =
      swapLoop compress (x ++ (List.replicate gap 0 ++ v :: y)) (x.length + gap - 1) swaps := by
  rw [swapLoop, if_neg (by omega), ← hx, bind_eq_ok load_append]
  cases gap with
  | zero =>
      rw [Nat.add_zero, bind_eq_ok load_append, bind_eq_ok store_append, bind_eq_ok store_append]
      rfl
  | succ gap =>
      have hshape : ∀ z : Nat, x ++ v :: (List.replicate gap 0 ++ z :: y) =
          (x ++ v :: List.replicate gap 0) ++ z :: y := by simp
      have hlength : x.length + (gap + 1) = (x ++ v :: List.replicate gap 0).length := by
        rw [List.length_append, List.length_cons, List.length_replicate]
      have hzeros : List.replicate (gap + 1) 0 ++ y = List.replicate gap 0 ++ 0 :: y := by
        rw [List.replicate_succ', List.append_assoc, List.singleton_append]
      rw [hzeros, hshape 0, hlength, bind_eq_ok load_append, bind_eq_ok store_append, ← hshape v,
        bind_eq_ok store_append, ← hlength, List.replicate_succ, List.cons_append]

theorem swapLoop_eq {x : List Nat} (hx : 0 < x.length) (u : List Nat) (gap : Nat) (y : List Nat) :
    swapLoop x.length (x ++ u ++ (List.replicate gap 0 ++ y)) (x.length + u.length + gap - 1)
      u.length = .ok (x ++ (List.replicate gap 0 ++ (u ++ y))) := by
  induction u using List.reverseRecOn generalizing y with
  | nil => simp [swapLoop]
  | append_singleton u v ih =>
      have hswap := swapLoop_succ v gap u.length y
        (List.length_append : (x ++ u).length = x.length + u.length)
        (by rw [List.length_append]; omega)
      rw [List.length_append] at hswap
      have hindex : x.length + (u ++ [v]).length + gap - 1 = x.length + u.length + gap := by
        rw [List.length_append, List.length_singleton]
        omega
      have hshape : x ++ (u ++ [v]) ++ (List.replicate gap 0 ++ y) =
          x ++ u ++ v :: (List.replicate gap 0 ++ y) := by simp
      rw [hindex, hshape, List.length_append, List.length_singleton, hswap, ih (v :: y),
        List.append_assoc u, List.singleton_append]

theorem Parse.finish_elided {ls rs : List Nat} (h : ls.length + rs.length ≤ 7) :
    (Parse.after [] (ls ++ [0] ++ rs) (some (ls.length + 1))).finish =
      .ok (ls ++ List.replicate (8 - (ls.length + rs.length)) 0 ++ rs) := by
  have hswap := swapLoop_eq (show 0 < (ls ++ [0]).length by simp) rs (8 - (ls ++ [0] ++ rs).length) []
  have hgap : 8 - (ls.length + rs.length) = 8 - (ls ++ [0] ++ rs).length + 1 := by
    simp only [List.length_append, List.length_singleton]
    omega
  have hindex : (ls ++ [0]).length + rs.length + (8 - (ls ++ [0] ++ rs).length) - 1 = 7 := by
    simp only [List.length_append, List.length_singleton]
    omega
  have hswaps : (ls ++ [0] ++ rs).length - (ls.length + 1) = rs.length := by
    simp only [List.length_append, List.length_singleton]
    omega
  rw [hindex, List.append_nil, List.append_nil, List.length_append, List.length_singleton] at hswap
  rw [Parse.finish, Parse.after]
  dsimp only
  rw [hswaps, hgap, pad, hswap, List.replicate_succ]
  simp

theorem Parse.finish_leading {rs : List Nat} (h : 1 + rs.length ≤ 8) :
    (Parse.after [] ([0] ++ rs) (some 1)).finish =
      .ok (List.replicate (8 - rs.length) 0 ++ rs) := by
  have helided := @Parse.finish_elided [] rs (by rw [List.length_nil]; omega)
  rw [List.nil_append, List.nil_append, List.length_nil, Nat.zero_add, Nat.zero_add] at helided
  exact helided

/-! ## Runs of the main loop -/

theorem Parse.loop_nil (w : List Nat) (compress : Option Nat) :
    (Parse.after [] w compress).loop = .ok (Parse.after [] w compress) := by
  rw [Parse.loop]
  exact dif_pos rfl

theorem Parse.loop_step {s t : Parse} (hrest : s.rest ≠ []) (h : s.step = .ok t) :
    s.loop = t.loop := by
  rw [Parse.loop, dif_neg hrest]
  split
  · rename_i e he
    rw [h] at he
    cases he
  · rename_i t' ht
    rw [h] at ht
    cases ht
    rfl

theorem Parse.loop_cases {s t : Parse} (h : s.loop = .ok t) :
    (s.rest = [] ∧ s = t) ∨ (s.rest ≠ [] ∧ ∃ m, s.step = .ok m ∧ m.loop = .ok t) := by
  rw [Parse.loop] at h
  split at h
  · rename_i hrest
    exact .inl ⟨hrest, Except.ok.inj h⟩
  · rename_i hrest
    split at h
    · cases h
    · rename_i m hm
      exact .inr ⟨hrest, m, hm, h⟩

theorem Quad.ne_nil {t : Text} {high low : Nat} (h : Quad t high low) : t ≠ [] := by
  cases h
  simp

theorem Pieces.ne_nil {t : Text} {vs : List Nat} (h : Pieces t vs) : t ≠ [] := by
  cases h with
  | last h => exact h.1
  | quad h => exact h.ne_nil
  | cons h hrest => simp

section Runs

variable {compress : Option Nat}

theorem Parse.loop_pieces {t : Text} {vs : List Nat} (h : Pieces t vs) {w : List Nat}
    (hw : w.length + vs.length ≤ 8) :
    (Parse.after t w compress).loop = .ok (Parse.after [] (w ++ vs) compress) := by
  induction h generalizing w with
  | last h =>
      rw [List.length_singleton] at hw
      rw [Parse.loop_step h.1 (Parse.step_last h (by omega)), Parse.loop_nil]
  | quad h =>
      simp only [List.length_cons, List.length_nil] at hw
      rw [Parse.loop_step h.ne_nil (Parse.step_quad h (by omega)), Parse.loop_nil]
  | @cons t rest v vs h hrest ih =>
      rw [List.length_cons] at hw
      have hstep : (Parse.after (t ++ ':' :: rest) w compress).step =
          .ok (Parse.after rest (w ++ [v]) compress) := Parse.step_piece h hrest.ne_nil (by omega)
      rw [Parse.loop_step (by simp [Parse.after]) hstep,
        ih (by rw [List.length_append, List.length_singleton]; omega), List.append_assoc,
        List.singleton_append]

theorem Parse.loop_trailing {t : Text} {vs : List Nat} (h : Trailing t vs) {w : List Nat}
    (hw : w.length + vs.length ≤ 8) :
    (Parse.after t w compress).loop = .ok (Parse.after [] (w ++ vs) compress) := by
  rcases h with ⟨rfl, rfl⟩ | h
  · rw [Parse.loop_nil, List.append_nil]
  · exact Parse.loop_pieces h hw

theorem Parse.loop_led {t : Text} {vs : List Nat} (h : Led t vs) {w : List Nat} (rest : Text)
    (hw : w.length + vs.length ≤ 8) :
    (Parse.after (t ++ ':' :: rest) w compress).loop =
      (Parse.after (':' :: rest) (w ++ vs) compress).loop := by
  induction h generalizing w with
  | nil => rw [List.nil_append, List.append_nil]
  | @cons t left v vs h hleft ih =>
      rw [List.length_cons] at hw
      have hstep : (Parse.after (t ++ ':' :: (left ++ ':' :: rest)) w compress).step =
          .ok (Parse.after (left ++ ':' :: rest) (w ++ [v]) compress) :=
        Parse.step_piece h (by simp) (by omega)
      rw [List.append_assoc, List.cons_append,
        Parse.loop_step (by simp [Parse.after]) hstep,
        ih (by rw [List.length_append, List.length_singleton]; omega), List.append_assoc,
        List.singleton_append]

end Runs

theorem Quad.head {t : Text} {high low : Nat} (h : Quad t high low) : t.head? ≠ some ':' := by
  cases h with
  | mk ha hb hc hd =>
      obtain ⟨u, hpiece⟩ := ha.hex
      exact hpiece.head_ne_colon _

theorem Pieces.head {t : Text} {vs : List Nat} (h : Pieces t vs) : t.head? ≠ some ':' := by
  cases h with
  | last h =>
      have hhead := h.head_ne_colon []
      rwa [List.append_nil] at hhead
  | quad h => exact h.head
  | cons h hrest => exact h.head_ne_colon _

theorem Parse.start_eq {t : Text} (h : t.head? ≠ some ':') :
    Parse.start t = .ok (Parse.after t [] none) := by
  unfold Parse.start
  split
  · exact (h rfl).elim
  · exact (h rfl).elim
  · rfl

/-- Every text of the grammar is read to its address. -/
theorem parseIpv6_of_ipv6 {t : Text} {a : List Nat} (h : Ipv6 t a) : parseIpv6 t = .ok a := by
  cases h with
  | full h hlength =>
      have hloop : (Parse.after t [] none).loop = .ok (Parse.after [] a none) :=
        Parse.loop_pieces h (by rw [hlength]; rfl)
      unfold parseIpv6
      rw [bind_eq_ok (Parse.start_eq h.head), bind_eq_ok hloop, Parse.finish, Parse.after, pad]
      dsimp only
      rw [if_pos hlength, hlength, Nat.sub_self, List.replicate_zero, List.append_nil]
  | @elided l r ls rs hl hr hlength =>
      rw [parseIpv6]
      rcases hl with ⟨rfl, rfl⟩ | ⟨hled, hne⟩
      · have hloop : (Parse.after r [0] (some 1)).loop =
            .ok (Parse.after [] ([] ++ [0] ++ rs) (some 1)) :=
          Parse.loop_trailing hr (by rw [List.length_nil] at hlength; rw [List.length_singleton]; omega)
        have hstart : Parse.start ([':'] ++ ':' :: r) = .ok (Parse.after r [0] (some 1)) := rfl
        rw [bind_eq_ok hstart, bind_eq_ok hloop]
        exact Parse.finish_elided hlength
      · have hhead : (l ++ ':' :: r).head? ≠ some ':' := by
          cases hled with
          | nil => exact (hne rfl).elim
          | cons h hrest =>
              rw [List.append_assoc]
              exact h.head_ne_colon _
        have helide := Parse.step_elide (show ls.length < 8 by omega) r
        have hloop : (Parse.after r (ls ++ [0]) (some (ls.length + 1))).loop =
            .ok (Parse.after [] (ls ++ [0] ++ rs) (some (ls.length + 1))) :=
          Parse.loop_trailing hr (by rw [List.length_append, List.length_singleton]; omega)
        have hrun : (Parse.after (l ++ ':' :: r) [] none).loop =
            .ok (Parse.after [] (ls ++ [0] ++ rs) (some (ls.length + 1))) := by
          rw [Parse.loop_led hled r (by rw [List.length_nil]; omega), List.nil_append,
            Parse.loop_step (List.cons_ne_nil _ _) helide, hloop]
        rw [bind_eq_ok (Parse.start_eq hhead), bind_eq_ok hrun]
        exact Parse.finish_elided hlength

/-! ## What is read is a literal -/

/-- After an elision only pieces are read. -/
theorem trailing_of_loop {rest : Text} {w : List Nat} {c : Nat} {s' : Parse} (hw : w.length ≤ 8)
    (h : (Parse.after rest w (some c)).loop = .ok s') :
    ∃ vs, Trailing rest vs ∧ w.length + vs.length ≤ 8 ∧ s' = Parse.after [] (w ++ vs) (some c) := by
  induction hn : rest.length using Nat.strong_induction_on generalizing rest w with
  | _ n ih =>
      rcases Parse.loop_cases h with ⟨hrest, rfl⟩ | ⟨hrest, m, hm, h⟩
      · obtain rfl : rest = [] := hrest
        exact ⟨[], .inl ⟨rfl, rfl⟩, hw, by rw [List.append_nil]⟩
      · rcases Parse.step_cases hrest hw hm with ⟨r, -, hnone, -, -⟩ |
          ⟨t, v, r, rfl, hr, hpiece, hlt, rfl⟩ | ⟨v, hpiece, hlt, rfl⟩ | ⟨high, low, hquad, hle, rfl⟩
        · cases hnone
        · obtain ⟨vs, htrailing, hlength, rfl⟩ := ih r.length
            (by rw [← hn, List.length_append, List.length_cons]; omega)
            (by rw [List.length_append, List.length_singleton]; omega) h rfl
          rw [List.length_append, List.length_singleton] at hlength
          refine ⟨v :: vs, .inr (.cons hpiece (htrailing.resolve_left fun h => hr h.1)), ?_, ?_⟩
          · rw [List.length_cons]
            omega
          · rw [List.append_assoc, List.singleton_append]
        · rw [Parse.loop_nil] at h
          cases h
          refine ⟨[v], .inr (.last hpiece), ?_, rfl⟩
          rw [List.length_singleton]
          exact hlt
        · rw [Parse.loop_nil] at h
          cases h
          refine ⟨[high, low], .inr (.quad hquad), ?_, rfl⟩
          simp only [List.length_cons, List.length_nil]
          omega

/-- Without an elision so far: only pieces are read, or pieces and then one elision. -/
theorem pieces_of_loop {rest : Text} {w : List Nat} {s' : Parse} (hw : w.length ≤ 8)
    (h : (Parse.after rest w none).loop = .ok s') :
    (∃ vs, Trailing rest vs ∧ s' = Parse.after [] (w ++ vs) none) ∨
    ∃ l ls r rs, Led l ls ∧ Trailing r rs ∧ rest = l ++ ':' :: r ∧
      w.length + ls.length + rs.length ≤ 7 ∧
      s' = Parse.after [] (w ++ ls ++ [0] ++ rs) (some (w.length + ls.length + 1)) := by
  induction hn : rest.length using Nat.strong_induction_on generalizing rest w with
  | _ n ih =>
      rcases Parse.loop_cases h with ⟨hrest, rfl⟩ | ⟨hrest, m, hm, h⟩
      · obtain rfl : rest = [] := hrest
        exact .inl ⟨[], .inl ⟨rfl, rfl⟩, by rw [List.append_nil]⟩
      · rcases Parse.step_cases hrest hw hm with ⟨r, rfl, -, hlt, rfl⟩ |
          ⟨t, v, r, rfl, hr, hpiece, hlt, rfl⟩ | ⟨v, hpiece, hlt, rfl⟩ | ⟨high, low, hquad, hle, rfl⟩
        · obtain ⟨rs, htrailing, hlength, rfl⟩ := trailing_of_loop
            (by rw [List.length_append, List.length_singleton]; omega) h
          rw [List.length_append, List.length_singleton] at hlength
          refine .inr ⟨[], [], r, rs, .nil, htrailing, rfl, ?_, ?_⟩
          · rw [List.length_nil]
            omega
          · rw [List.append_nil, List.length_nil, Nat.add_zero]
        · rcases ih r.length (by rw [← hn, List.length_append, List.length_cons]; omega)
            (by rw [List.length_append, List.length_singleton]; omega) h rfl with
            ⟨vs, htrailing, rfl⟩ | ⟨l, ls, r', rs, hled, htrailing, rfl, hlength, rfl⟩
          · refine .inl ⟨v :: vs, .inr (.cons hpiece (htrailing.resolve_left fun h => hr h.1)), ?_⟩
            rw [List.append_assoc, List.singleton_append]
          · rw [List.length_append, List.length_singleton] at hlength
            refine .inr ⟨t ++ ':' :: l, v :: ls, r', rs, .cons hpiece hled, htrailing, ?_, ?_, ?_⟩
            · rw [List.append_assoc, List.cons_append]
            · rw [List.length_cons]
              omega
            · have hcount : (w ++ [v]).length + ls.length + 1 =
                  w.length + (v :: ls).length + 1 := by
                rw [List.length_append, List.length_singleton, List.length_cons]
                omega
              rw [hcount, List.append_assoc w [v], List.singleton_append]
        · rw [Parse.loop_nil] at h
          cases h
          exact .inl ⟨[v], .inr (.last hpiece), rfl⟩
        · rw [Parse.loop_nil] at h
          cases h
          exact .inl ⟨[high, low], .inr (.quad hquad), rfl⟩

theorem ipv6_of_parseIpv6 {t : Text} {a : List Nat} (h : parseIpv6 t = .ok a) : Ipv6 t a := by
  obtain ⟨s, hstart, h⟩ := bind_ok h
  obtain ⟨s', hloop, hfinish⟩ := bind_ok h
  by_cases hcolon : t.head? = some ':'
  · unfold Parse.start at hstart
    split at hstart
    · rename_i rest
      obtain rfl := Except.ok.inj hstart
      obtain ⟨rs, htrailing, hlength, rfl⟩ :=
        trailing_of_loop (w := [0]) (by decide) (show (Parse.after rest [0] (some 1)).loop = _ from hloop)
      rw [Parse.finish_leading hlength] at hfinish
      obtain rfl := Except.ok.inj hfinish
      rw [List.length_singleton] at hlength
      have hsum : ([] : List Nat).length + rs.length ≤ 7 := by
        rw [List.length_nil]
        omega
      have helided := Ipv6.elided (.inl ⟨rfl, rfl⟩) htrailing hsum
      rw [List.length_nil, Nat.zero_add, List.nil_append] at helided
      exact helided
    · cases hstart
    · rename_i hshape
      cases t with
      | nil => cases hcolon
      | cons c rest => exact (hshape rest (by rw [Option.some.inj hcolon])).elim
  · rw [Parse.start_eq hcolon] at hstart
    obtain rfl := Except.ok.inj hstart
    rcases pieces_of_loop (by decide) hloop with ⟨vs, htrailing, rfl⟩ |
      ⟨l, ls, r, rs, hled, htrailing, rfl, hlength, rfl⟩
    · rw [List.nil_append] at hfinish
      unfold Parse.finish Parse.after at hfinish
      dsimp only at hfinish
      split at hfinish
      · rename_i hlength
        rw [pad, hlength, Nat.sub_self, List.replicate_zero, List.append_nil] at hfinish
        cases hfinish
        rcases htrailing with ⟨-, rfl⟩ | hpieces
        · cases hlength
        · exact .full hpieces hlength
      · cases hfinish
    · rw [List.length_nil, Nat.zero_add] at hlength hfinish
      rw [List.nil_append, Parse.finish_elided hlength] at hfinish
      obtain rfl := Except.ok.inj hfinish
      refine .elided (.inr ⟨hled, ?_⟩) htrailing hlength
      rintro rfl
      cases hled
      exact hcolon rfl

/-! ## No index outside the eight pieces -/

/-- The computation stops only by refusing its text. -/
abbrev OnlyRefuses {α : Type} (x : Except Stop α) : Prop := Only (· = .refused) x

theorem load_ok {address : List Nat} {index : Nat} (h : index < address.length) :
    ∃ v, load address index = .ok v := by
  unfold load
  rw [List.getElem?_eq_getElem h]
  exact ⟨_, rfl⟩

theorem store_ok {address : List Nat} {index : Nat} (h : index < address.length) (v : Nat) :
    ∃ address', store address index v = .ok address' ∧ address'.length = address.length := by
  refine ⟨address.set index v, ?_, List.length_set⟩
  rw [store, bind_eq_ok (require_eq_ok h)]
  rfl

theorem readOctet_only (piece : Option Nat) (t : Text) : OnlyRefuses (readOctet piece t) := by
  induction t generalizing piece with
  | nil => exact only_ok
  | cons c t ih =>
      rw [readOctet]
      repeat' split
      all_goals
        first
        | exact only_ok
        | exact only_error.mpr rfl
        | exact ih _

theorem Dotted.skipDot_only (s : Dotted) : OnlyRefuses s.skipDot := by
  unfold Dotted.skipDot
  repeat' split
  all_goals
    first
    | exact only_ok
    | exact only_error.mpr rfl

/-- The address has eight pieces, and the index is at most six before the first number. -/
structure Dotted.InRange (s : Dotted) : Prop where
  length : s.address.length = 8
  index : s.index ≤ 6 + s.seen / 2

theorem Dotted.put_inRange {s : Dotted} (h : s.InRange) (hseen : s.seen < 4) (rest : Text)
    (v : Nat) : ∃ t, s.put rest v = .ok t ∧ t.InRange := by
  have hindex : s.index < s.address.length := by
    have := h.index
    rw [h.length]
    omega
  obtain ⟨old, hold⟩ := load_ok hindex
  obtain ⟨address, hstore, hlength⟩ := store_ok hindex (old * 0x100 + v)
  refine ⟨⟨rest, address, nextIndex s.index (s.seen + 1), s.seen + 1⟩, ?_, ?_, ?_⟩
  · unfold Dotted.put
    rw [bind_eq_ok hold, bind_eq_ok hstore]
    rfl
  · rw [hlength, h.length]
  · have := h.index
    dsimp only [nextIndex]
    split <;> omega

theorem Separator.lt {seen : Nat} {sep : Text} (h : Separator seen sep) : seen < 4 := by
  rcases h with ⟨rfl, -⟩ | ⟨-, hlt, -⟩
  · decide
  · exact hlt

theorem Dotted.step_only {s : Dotted} (h : s.InRange) : OnlyRefuses s.step := by
  refine only_bind.mpr ⟨s.skipDot_only, fun rest hskip => ?_⟩
  obtain ⟨sep, hsep, -⟩ := Dotted.skipDot_ok hskip
  refine only_bind.mpr ⟨only_require rfl, fun _ _ => ?_⟩
  refine only_bind.mpr ⟨readOctet_only none rest, fun p _ => ?_⟩
  obtain ⟨t, hput, -⟩ := Dotted.put_inRange h hsep.lt p.2 (p.1.getD 0)
  change OnlyRefuses (s.put p.2 (p.1.getD 0))
  rw [hput]
  exact only_ok

theorem Dotted.step_inRange {s t : Dotted} (h : s.InRange) (hstep : s.step = .ok t) :
    t.InRange := by
  obtain ⟨sep, text, v, rest, hsep, -, -, -, hput⟩ := Dotted.step_ok hstep
  obtain ⟨t', hput', ht⟩ := Dotted.put_inRange h hsep.lt rest v
  rw [hput'] at hput
  cases hput
  exact ht

theorem Dotted.loop_only {s : Dotted} (h : s.InRange) : OnlyRefuses s.loop := by
  fun_induction Dotted.loop s with
  | case1 s hrest => exact only_ok
  | case2 s hrest e hstep =>
      have honly := Dotted.step_only h
      rw [hstep] at honly
      exact only_error.mpr (honly e rfl)
  | case3 s hrest t hstep ih => exact ih (Dotted.step_inRange h hstep)

theorem skipColon_only (t : Text) : OnlyRefuses (skipColon t) := by
  unfold skipColon
  repeat' split
  all_goals
    first
    | exact only_ok
    | exact only_error.mpr rfl

theorem Parse.step_only {rest : Text} {w : List Nat} {compress : Option Nat} (hw : w.length ≤ 8) :
    OnlyRefuses (Parse.after rest w compress).step := by
  refine only_bind.mpr ⟨only_require rfl, fun _ hindex => ?_⟩
  have hlt : w.length < 8 := by
    have hne : w.length ≠ 8 := require_ok hindex
    omega
  split
  · exact only_bind.mpr ⟨only_require rfl, fun _ _ => only_pure⟩
  · dsimp only
    split
    · refine only_bind.mpr ⟨only_require rfl, fun _ hn => ?_⟩
      have hle : w.length ≤ 6 := by
        have hsmall := require_ok hn
        exact Nat.le_of_not_lt fun hgt => hsmall (.inr hgt)
      refine only_bind.mpr ⟨Dotted.loop_only ⟨length_pad hw, Nat.le_add_right_of_le hle⟩, fun _ _ => ?_⟩
      exact only_bind.mpr ⟨only_require rfl, fun _ _ => only_pure⟩
    · refine only_bind.mpr ⟨skipColon_only _, fun _ _ => ?_⟩
      refine only_bind.mpr ⟨?_, fun _ _ => only_pure⟩
      change OnlyRefuses (store (pad w) w.length _)
      rw [store_next hlt]
      exact only_ok

theorem Parse.loop_only {rest : Text} {w : List Nat} {compress : Option Nat} (hw : w.length ≤ 8) :
    OnlyRefuses (Parse.after rest w compress).loop := by
  induction hn : rest.length using Nat.strong_induction_on generalizing rest w compress with
  | _ n ih =>
      intro e he
      rw [Parse.loop] at he
      split at he
      · cases he
      · rename_i hrest
        split at he
        · rename_i e' hstep
          cases he
          exact Parse.step_only hw e hstep
        · rename_i m hm
          rcases Parse.step_cases hrest hw hm with ⟨r, rfl, -, hlt, rfl⟩ |
            ⟨t, v, r, rfl, -, -, hlt, rfl⟩ | ⟨v, -, -, rfl⟩ | ⟨high, low, -, -, rfl⟩
          · refine ih r.length ?_ ?_ rfl e he
            · rw [← hn, List.length_cons]
              omega
            · rw [List.length_append, List.length_singleton]
              omega
          · refine ih r.length ?_ ?_ rfl e he
            · rw [← hn, List.length_append, List.length_cons]
              omega
            · rw [List.length_append, List.length_singleton]
              omega
          · rw [Parse.loop_nil] at he
            cases he
          · rw [Parse.loop_nil] at he
            cases he

/-- A text without an address is refused; no index is ever outside the eight pieces. -/
theorem parseIpv6_only (t : Text) : OnlyRefuses (parseIpv6 t) := by
  by_cases hcolon : t.head? = some ':'
  · refine only_bind.mpr ⟨?_, fun s hs => ?_⟩
    · unfold Parse.start
      repeat' split
      all_goals
        first
        | exact only_ok
        | exact only_error.mpr rfl
    · unfold Parse.start at hs
      split at hs
      · rename_i rest
        obtain rfl := Except.ok.inj hs
        refine only_bind.mpr ⟨?_, fun s' hs' => ?_⟩
        · exact Parse.loop_only (w := [0]) (by decide)
        · obtain ⟨rs, -, hlength, rfl⟩ := trailing_of_loop (w := [0]) (by decide)
            (show (Parse.after rest [0] (some 1)).loop = _ from hs')
          rw [Parse.finish_leading hlength]
          exact only_ok
      · cases hs
      · rename_i hshape
        cases t with
        | nil => cases hcolon
        | cons c rest => exact (hshape rest (by rw [Option.some.inj hcolon])).elim
  · unfold parseIpv6
    rw [bind_eq_ok (Parse.start_eq hcolon)]
    refine only_bind.mpr ⟨Parse.loop_only (by decide), fun s hs => ?_⟩
    rcases pieces_of_loop (by decide) hs with ⟨vs, -, rfl⟩ | ⟨l, ls, r, rs, -, -, -, hlength, rfl⟩
    · unfold Parse.finish Parse.after
      dsimp only
      split
      · exact only_ok
      · exact only_error.mpr rfl
    · rw [List.length_nil, Nat.zero_add] at hlength ⊢
      rw [List.nil_append, Parse.finish_elided hlength]
      exact only_ok

/-! ## What is written is read back -/

theorem piece_toDigits {v : Nat} (h : v < 65536) : Piece (Nat.toDigits 16 v) v :=
  ⟨Nat.toDigits_ne_nil, (Nat.length_toDigits_le_iff (by decide) (by decide)).mpr h,
    valueOf?_toDigits (by decide) (by decide) v⟩

/-- The runs that the search has seen start at a zero piece. -/
structure Run.Sound (s : Run) (seen : List Nat) : Prop where
  compress : ∀ c, s.compress = some c → seen[c]? = some 0
  runStart : ∀ r, s.runStart = some r → seen[r]? = some 0

theorem Run.Sound.step {s : Run} {seen : List Nat} (h : s.Sound seen) (piece : Nat) :
    (s.step piece seen.length).Sound (seen ++ [piece]) := by
  have hkeep : ∀ i : Nat, seen[i]? = some 0 → (seen ++ [piece])[i]? = some 0 := by
    intro i hi
    obtain ⟨hlt, -⟩ := List.getElem?_eq_some_iff.mp hi
    rw [List.getElem?_append_left hlt, hi]
  unfold Run.step
  split
  · exact ⟨fun c hc => hkeep c (h.compress c hc), fun r hr => (by cases hr)⟩
  · rename_i hpiece
    have hzero : piece = 0 := not_not.mp hpiece
    have hstart : (seen ++ [piece])[s.runStart.getD seen.length]? = some 0 := by
      cases hrun : s.runStart with
      | none =>
          rw [Option.getD_none, List.getElem?_append_right (Nat.le_refl _), Nat.sub_self, hzero]
          rfl
      | some r => exact hkeep r (h.runStart r hrun)
    have hstarts : ∀ r, some (s.runStart.getD seen.length) = some r →
        (seen ++ [piece])[r]? = some 0 := by
      rintro r hr
      cases hr
      exact hstart
    dsimp only
    split
    · exact ⟨hstarts, hstarts⟩
    · exact ⟨fun c hc => hkeep c (h.compress c hc), hstarts⟩

theorem Run.sound_foldl (seen : List Nat) :
    (seen.zipIdx.foldl (fun s p => s.step p.1 p.2) ({} : Run)).Sound seen := by
  induction seen using List.reverseRecOn with
  | nil => exact ⟨fun c hc => (by cases hc), fun r hr => (by cases hr)⟩
  | append_singleton seen piece ih =>
      rw [List.zipIdx_append, List.foldl_append]
      have hstep := ih.step piece
      simpa using hstep

theorem compressOf_split {address : List Nat} {c : Nat} (h : compressOf address = some c) :
    ∃ x y, address = x ++ 0 :: y ∧ x.length = c := by
  have hzero := (Run.sound_foldl address).compress c h
  obtain ⟨hlt, hget⟩ := List.getElem?_eq_some_iff.mp hzero
  refine ⟨address.take c, address.drop (c + 1), ?_, by rw [List.length_take]; omega⟩
  rw [← hget, ← List.drop_eq_getElem_cons hlt, List.take_append_drop]

section Writing

/-- The loop over the pieces from the index `k` on. -/
def Written.run (compress : Option Nat) (s : Written) (pieces : List Nat) (k : Nat) : Written :=
  (pieces.zipIdx k).foldl (fun s p => s.step compress p.1 p.2) s

variable (compress : Option Nat)

theorem Written.run_cons (s : Written) (v : Nat) (pieces : List Nat) (k : Nat) :
    s.run compress (v :: pieces) k = (s.step compress v k).run compress pieces (k + 1) := rfl

theorem Written.run_append (s : Written) (x y : List Nat) (k : Nat) :
    s.run compress (x ++ y) k = (s.run compress x k).run compress y (k + x.length) := by
  rw [Written.run, List.zipIdx_append, List.foldl_append]
  rfl

theorem Written.step_write {compress : Option Nat} {s : Written} {v k : Nat}
    (hignore : s.ignoreZero = false ∨ v ≠ 0)
    (hk : compress ≠ some k) :
    s.step compress v k =
      { out := s.out ++ (Nat.toDigits 16 v ++ if k ≠ 7 then [':'] else []), ignoreZero := false } := by
  have hzero : ¬ (s.ignoreZero = true ∧ v = 0) := by
    rintro ⟨htrue, hv⟩
    rcases hignore with hfalse | hne
    · rw [hfalse] at htrue
      cases htrue
    · exact hne hv
  rw [Written.step, if_neg hzero, if_neg hk, List.append_assoc]

/-- Before the elision each piece is written with a colon after it. -/
theorem Written.run_led {x : List Nat} (hx : ∀ v ∈ x, v < 65536) {s : Written} {k : Nat}
    (hk : k + x.length ≤ 7) (hignore : s.ignoreZero = false)
    (hcompress : ∀ i, k ≤ i → i < k + x.length → compress ≠ some i) :
    ∃ l, s.run compress x k = { out := s.out ++ l, ignoreZero := false } ∧ Led l x := by
  induction x generalizing s k with
  | nil =>
      refine ⟨[], ?_, .nil⟩
      rw [List.append_nil, ← hignore]
      rfl
  | cons v x ih =>
      obtain ⟨hv, hx⟩ := List.forall_mem_cons.mp hx
      rw [List.length_cons] at hk hcompress
      have hwrite := Written.step_write (s := s) (v := v) (.inl hignore)
        (hcompress k (Nat.le_refl k) (by omega))
      rw [if_pos (by omega)] at hwrite
      obtain ⟨l, hl, hled⟩ := ih hx (k := k + 1) (s := s.step compress v k) (by omega)
        (by rw [hwrite]) fun i hi hlt => hcompress i (by omega) (by omega)
      refine ⟨Nat.toDigits 16 v ++ ':' :: l, ?_, .cons (piece_toDigits hv) hled⟩
      rw [Written.run_cons, hl, hwrite]
      simp

/-- To the end of the address the pieces are written with colons between them. -/
theorem Written.run_trailing {y : List Nat} (hy : ∀ v ∈ y, v < 65536) {s : Written} {k : Nat}
    (hk : k + y.length = 8) (hignore : s.ignoreZero = false ∨ ∀ v, y.head? = some v → v ≠ 0)
    (hcompress : ∀ i, k ≤ i → compress ≠ some i) :
    ∃ r, (s.run compress y k).out = s.out ++ r ∧ Trailing r y := by
  induction y generalizing s k with
  | nil => exact ⟨[], (List.append_nil _).symm, .inl ⟨rfl, rfl⟩⟩
  | cons v y ih =>
      obtain ⟨hv, hy⟩ := List.forall_mem_cons.mp hy
      rw [List.length_cons] at hk
      have hwrite := Written.step_write (s := s) (v := v) (hignore.imp_right fun h => h v rfl)
        (hcompress k (Nat.le_refl k))
      obtain ⟨r, hr, htrailing⟩ := ih hy (k := k + 1) (s := s.step compress v k) (by omega)
        (.inl (by rw [hwrite])) fun i hi => hcompress i (by omega)
      rw [Written.run_cons, hr, hwrite]
      rcases htrailing with ⟨rfl, rfl⟩ | hpieces
      · rw [List.length_nil] at hk
        refine ⟨Nat.toDigits 16 v, ?_, .inr (.last (piece_toDigits hv))⟩
        rw [if_neg (by omega), List.append_nil, List.append_nil]
      · have hne : k ≠ 7 := by
          have hpos : y ≠ [] := by
            rintro rfl
            cases hpieces
          have := List.length_pos_iff.mpr hpos
          omega
        refine ⟨Nat.toDigits 16 v ++ ':' :: r, ?_, .inr (.cons (piece_toDigits hv) hpieces)⟩
        rw [if_pos hne]
        simp

/-- After the elision its zero pieces are skipped. -/
theorem Written.run_elided {y : List Nat} (hy : ∀ v ∈ y, v < 65536) {s : Written} {k : Nat}
    (hk : k + y.length = 8) (hignore : s.ignoreZero = true)
    (hcompress : ∀ i, k ≤ i → compress ≠ some i) :
    ∃ r z rest, (s.run compress y k).out = s.out ++ r ∧ y = List.replicate z 0 ++ rest ∧
      Trailing r rest := by
  induction y generalizing k with
  | nil => exact ⟨[], 0, [], (List.append_nil _).symm, rfl, .inl ⟨rfl, rfl⟩⟩
  | cons v y ih =>
      by_cases hv : v = 0
      · subst hv
        rw [List.length_cons] at hk
        have hskip : s.step compress 0 k = s := if_pos ⟨hignore, rfl⟩
        obtain ⟨r, z, rest, hr, hzeros, htrailing⟩ := ih (List.forall_mem_cons.mp hy).2
          (k := k + 1) (by omega) fun i hi => hcompress i (by omega)
        refine ⟨r, z + 1, rest, ?_, ?_, htrailing⟩
        · rw [Written.run_cons, hskip, hr]
        · rw [hzeros, List.replicate_succ, List.cons_append]
      · obtain ⟨r, hr, htrailing⟩ := Written.run_trailing compress hy hk
          (.inr fun u hu => by rw [← Option.some.inj hu]; exact hv) hcompress
        exact ⟨r, 0, v :: y, hr, rfl, htrailing⟩

end Writing

/-- What is written is a literal of the address. -/
theorem ipv6_serialize {address : List Nat} (hlength : address.length = 8)
    (hpieces : ∀ p ∈ address, p < 65536) : Ipv6 (serializeIpv6 address) address := by
  have hrun : serializeIpv6 address =
      (Written.run (compressOf address) ({} : Written) address 0).out := rfl
  rw [hrun]
  cases hcompress : compressOf address with
  | none =>
      obtain ⟨r, hr, htrailing⟩ := Written.run_trailing none (s := {}) hpieces
        (k := 0) (by omega) (.inl rfl) fun i _ h => by cases h
      rw [hr]
      rcases htrailing with ⟨-, rfl⟩ | h
      · cases hlength
      · exact .full h hlength
  | some c =>
      obtain ⟨x, y, rfl, rfl⟩ := compressOf_split hcompress
      rw [List.length_append, List.length_cons] at hlength
      have hx : ∀ v ∈ x, v < 65536 := fun v hv => hpieces v (List.mem_append_left _ hv)
      have hy : ∀ v ∈ y, v < 65536 := fun v hv =>
        hpieces v (List.mem_append_right _ (List.mem_cons_of_mem _ hv))
      obtain ⟨l, hl, hled⟩ := Written.run_led (some x.length) (s := {}) hx (k := 0)
        (by omega) rfl fun i _ hlt h => by
          have := Option.some.inj h
          omega
      have hcolons : Written.step (some x.length) ⟨l, false⟩ 0 x.length =
          ⟨l ++ if x.length = 0 then [':', ':'] else [':'], true⟩ := by
        rw [Written.step, if_neg (by simp), if_pos rfl]
      obtain ⟨r, z, rest, hr, rfl, htrailing⟩ := Written.run_elided (some x.length)
        (s := ⟨l ++ if x.length = 0 then [':', ':'] else [':'], true⟩) (k := x.length + 1) hy (by omega) rfl fun i hi h => by
          have := Option.some.inj h
          omega
      rw [List.length_append, List.length_replicate] at hlength
      have hsum : x.length + rest.length ≤ 7 := by omega
      have hzeros : 8 - (x.length + rest.length) = z + 1 := by omega
      have haddress : x ++ 0 :: (List.replicate z 0 ++ rest) =
          x ++ List.replicate (8 - (x.length + rest.length)) 0 ++ rest := by
        rw [hzeros, List.replicate_succ]
        simp
      rw [Written.run_append, hl, Written.run_cons, Nat.zero_add, List.nil_append, hcolons, hr,
        haddress]
      by_cases hnil : x = []
      · subst hnil
        cases hled
        exact .elided (.inl ⟨rfl, rfl⟩) htrailing hsum
      · rw [if_neg (by simpa using hnil), List.append_assoc]
        exact .elided (.inr ⟨hled, hnil⟩) htrailing hsum

theorem parseIpv6_serialize {address : List Nat} (hlength : address.length = 8)
    (hpieces : ∀ p ∈ address, p < 65536) : parseIpv6 (serializeIpv6 address) = .ok address :=
  parseIpv6_of_ipv6 (ipv6_serialize hlength hpieces)

end Avibe.Citations
