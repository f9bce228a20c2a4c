import Avibe.Reading.Whole

/-!
# What a scan keeps

`Follows` says what a scan knows of the lines it has read. Every piece of a line keeps it, unless the piece
only completes a break whose carriage return was kept as the byte past the cap (`SplitBreak`).
-/

namespace Avibe.Reading

open Texts Output
open Edits (shown)

/-! ## Carriage returns -/

section Returns

variable {α : Type} [BEq α] [LawfulBEq α] {r : α}

theorem oneReturn_iff (line : List α) :
    oneReturn r line = true ↔ ∃ front, line = front ++ [r] ∧ front.getLast? ≠ some r := by
  rw [oneReturn, Bool.and_eq_true, Bool.not_eq_true', ← Bool.not_eq_true, List.isSuffixOf_iff_suffix,
    List.isSuffixOf_iff_suffix]
  constructor
  · rintro ⟨⟨front, rfl⟩, hnot⟩
    refine ⟨front, rfl, fun hlast => hnot ?_⟩
    obtain ⟨rest, rfl⟩ := List.getLast?_eq_some_iff.mp hlast
    exact ⟨rest, by simp⟩
  · rintro ⟨front, rfl, hlast⟩
    refine ⟨List.suffix_append _ _, ?_⟩
    rintro ⟨rest, heq⟩
    have hfront : rest ++ [r] = front := by
      have hcancel : rest ++ [r] ++ [r] = front ++ [r] := by
        rw [← heq]
        simp
      exact List.append_cancel_right hcancel
    exact hlast (by rw [← hfront, List.getLast?_concat])

theorem dropReturn_concat {front : List α} (h : front.getLast? ≠ some r) : dropReturn r (front ++ [r]) = front := by
  rw [dropReturn, if_pos ((oneReturn_iff _).mpr ⟨front, rfl, h⟩), List.dropLast_concat]

theorem dropReturn_cases (line : List α) :
    dropReturn r line = line ∨ ∃ front, line = front ++ [r] ∧ front.getLast? ≠ some r ∧ dropReturn r line = front := by
  by_cases h : oneReturn r line = true
  · obtain ⟨front, rfl, hlast⟩ := (oneReturn_iff _).mp h
    exact .inr ⟨front, rfl, hlast, dropReturn_concat hlast⟩
  · exact .inl (if_neg h)

/-- A proper beginning of a line is one of the line without its return. -/
theorem prefix_dropReturn {part line : List α} (h : part <+: line) (hne : part ≠ line) : part <+: dropReturn r line := by
  cases dropReturn_cases (r := r) line with
  | inl hsame => rwa [hsame]
  | inr hdrop =>
      obtain ⟨front, rfl, -, hfront⟩ := hdrop
      rw [hfront]
      cases List.prefix_concat_iff.mp h with
      | inl heq => exact absurd heq hne
      | inr hpart => exact hpart

end Returns

/-! ## Sizes -/

/-- The bytes of some lines and of the line feeds between them. -/
def size (lines : List Bytes) : Nat := (lines.map List.length).sum + (lines.length - 1)

theorem size_concat (front : List Bytes) (line : Bytes) :
    size (front ++ [line]) = size front + (if front = [] then 0 else 1) + line.length := by
  rw [size, size, List.map_append, List.sum_append, List.length_append]
  cases front with
  | nil => simp
  | cons first front =>
      rw [if_neg (List.cons_ne_nil _ _)]
      simp only [List.length_cons, List.length_nil, List.map_cons, List.map_nil, List.sum_cons, List.sum_nil]
      omega

theorem size_concat_mono {front : List Bytes} {part line : Bytes} (h : part <+: line) :
    size (front ++ [part]) ≤ size (front ++ [line]) := by
  rw [size_concat, size_concat]
  exact Nat.add_le_add_left h.length_le _

/-! ## Pieces -/

namespace Scan

variable (caps : Caps) (start : Nat) (stop : Option Nat)

/-- A piece of a line, with the line feed after it or not. -/
def piece (s : Scan) (segment : Bytes) (endsLine : Bool) : Scan :=
  let s := if stop.any (· ≤ s.index) then { s with collecting := false } else s
  let s := s.measureFirst start segment endsLine
  let s := if s.collecting && start ≤ s.index then s.collect caps segment endsLine else s
  if endsLine then { s with index := s.index + 1 } else s

def pieces (s : Scan) : List Bytes → Scan
  | [] => s
  | segment :: rest =>
      if rest = [] then s.piece caps start stop segment false
      else pieces (s.piece caps start stop segment true) rest

variable {caps start stop}

@[simp] theorem measureFirst_index (s : Scan) (segment : Bytes) (e : Bool) :
    (s.measureFirst start segment e).index = s.index := by
  rw [measureFirst]
  split <;> rfl

@[simp] theorem measureFirst_collecting (s : Scan) (segment : Bytes) (e : Bool) :
    (s.measureFirst start segment e).collecting = s.collecting := by
  rw [measureFirst]
  split <;> rfl

theorem openLine_index (s : Scan) : s.openLine.index = s.index := by
  rw [openLine]
  split <;> rfl

theorem fill_index (s : Scan) (room : Nat) (segment : Bytes) (e : Bool) : (s.fill room segment e).index = s.index := by
  rw [fill]
  split <;> rfl

theorem checkCaps_index (s : Scan) : (s.checkCaps caps).index = s.index := by
  rw [checkCaps]
  split <;> rfl

theorem collect_index (s : Scan) (segment : Bytes) (e : Bool) : (s.collect caps segment e).index = s.index := by
  rw [collect, checkCaps_index]
  split
  · rw [fill_index, openLine_index]
  · exact openLine_index s

/-- A scan that has stopped only counts, and measures the first line. -/
theorem piece_stopped {s : Scan} (h : s.collecting = false) (segment : Bytes) (e : Bool) :
    s.piece caps start stop segment e =
      if e then { s.measureFirst start segment e with index := s.index + 1 } else s.measureFirst start segment e := by
  have hsame : (if stop.any (· ≤ s.index) then { s with collecting := false } else s) = s := by
    split
    · rw [← h]
    · rfl
  rw [piece, hsame]
  simp only [measureFirst_collecting, measureFirst_index, h, Bool.false_and, Bool.false_eq_true, if_false]

theorem countRest_eq {s : Scan} (hstop : s.collecting = false) (hstart : start ≤ s.index) {segments : List Bytes}
    (hne : segments ≠ []) : s.countRest start segments = s.pieces caps start stop segments := by
  induction segments generalizing s with
  | nil => exact absurd rfl hne
  | cons segment rest ih =>
      rw [pieces, countRest, piece_stopped hstop, piece_stopped hstop, if_pos rfl, if_neg Bool.false_ne_true]
      cases rest with
      | nil =>
          rw [if_pos rfl]
          rfl
      | cons next rest =>
          have hcollecting : (s.measureFirst start segment true).collecting = false := by
            rw [measureFirst_collecting, hstop]
          rw [if_neg (List.cons_ne_nil _ _),
            ← ih (s := { s.measureFirst start segment true with index := s.index + 1 }) hcollecting
              (Nat.le_succ_of_le hstart) (List.cons_ne_nil _ _)]
          have hnext : ∀ m : Scan, m.index = s.index →
              { m with index := s.index + 1 }.countRest start (next :: rest) =
                { m with index := m.index + (next :: rest).length } := by
            intro m hm
            rw [countRest, measureFirst, if_neg (Nat.ne_of_gt (Nat.lt_succ_of_le hstart)), hm]
            dsimp only
            rw [List.length_cons, Nat.add_assoc, Nat.add_comm 1]
          rw [hnext _ (measureFirst_index s segment true)]
          rfl

theorem piece_stop {s : Scan} (h : stop.any (· ≤ s.index) = true) (segment : Bytes) (e : Bool) :
    s.piece caps start stop segment e = { s with collecting := false }.piece caps start stop segment e := by
  rw [piece, piece, if_pos h]
  dsimp only
  rw [if_pos h]

/-- A piece of a line while lines are collected. -/
def take (caps : Caps) (start : Nat) (s : Scan) (segment : Bytes) (e : Bool) : Scan :=
  let s := s.measureFirst start segment e
  if start ≤ s.index then s.collect caps segment e else s

theorem take_index (s : Scan) (segment : Bytes) (e : Bool) : (s.take caps start segment e).index = s.index := by
  rw [take]
  split
  · rw [collect_index, measureFirst_index]
  · exact measureFirst_index s segment e

theorem piece_collecting {s : Scan} (h : s.collecting = true) (hend : ¬ stop.any (· ≤ s.index) = true) (segment : Bytes)
    (e : Bool) :
    s.piece caps start stop segment e =
      if e then { s.take caps start segment e with index := s.index + 1 } else s.take caps start segment e := by
  rw [← take_index s segment e, piece, if_neg hend, take]
  simp only [measureFirst_collecting, h, Bool.true_and, decide_eq_true_eq]

theorem scanSegments_eq {s : Scan} (hstart : s.collecting = false → start ≤ s.index)
    (hstop : stop.all (start < ·) = true) {segments : List Bytes} (hne : segments ≠ []) :
    s.scanSegments caps start stop segments = s.pieces caps start stop segments := by
  induction segments generalizing s with
  | nil => exact absurd rfl hne
  | cons segment rest ih =>
      rw [scanSegments]
      cases hcollecting : s.collecting with
      | false => exact countRest_eq hcollecting (hstart hcollecting) hne
      | true =>
          rw [Bool.not_true, if_neg Bool.false_ne_true]
          by_cases hend : stop.any (· ≤ s.index) = true
          · have hle : start ≤ s.index := by
              cases stop with
              | none => cases hend
              | some n =>
                  have hlt := of_decide_eq_true hstop
                  have hle := of_decide_eq_true hend
                  exact Nat.le_of_lt (Nat.lt_of_lt_of_le hlt hle)
            have hpieces : s.pieces caps start stop (segment :: rest) =
                { s with collecting := false }.pieces caps start stop (segment :: rest) := by
              rw [pieces, pieces, piece_stop hend, piece_stop hend]
            rw [if_pos hend, hpieces]
            exact countRest_eq (s := { s with collecting := false }) rfl hle hne
          · have hpast : (s.take caps start segment true).collecting = false → start ≤ s.index := by
              intro hstopped
              by_contra hbefore
              rw [take, measureFirst_index, if_neg hbefore, measureFirst_collecting, hcollecting] at hstopped
              cases hstopped
            rw [if_neg hend, pieces, piece_collecting hcollecting hend, piece_collecting hcollecting hend, if_pos rfl,
              if_neg Bool.false_ne_true]
            cases rest with
            | nil =>
                rw [if_pos rfl]
                rfl
            | cons next rest =>
                have hnext := ih (s := { s.take caps start segment true with index := s.index + 1 })
                  (fun hstopped => Nat.le_succ_of_le (hpast hstopped)) (List.cons_ne_nil _ _)
                rw [if_neg (List.cons_ne_nil _ _), if_neg (List.cons_ne_nil _ _), ← hnext, ← take_index s segment true]
                rfl

end Scan

/-! ## The first line -/

def shownSize (bytes : Bytes) : Nat := utf8Len (shown (decodeFile bytes))

/-- What is known of the first selected line after some lines and the beginning of another one. -/
structure Measured (start : Nat) (done : List Bytes) (cur : Bytes) (f : FirstLine) : Prop where
  before : done.length < start → f = .new
  inside : done.length = start → f.tail = FirstLine.lastTwo cur ∧
    ∀ more, shownSize (cur ++ more) = f.bytes + shownSize (f.pending ++ more)
  after : ∀ line, done[start]? = some line → f.bytes = shownSize (dropReturn returnByte line)

theorem measured_new (start : Nat) : Measured start [] [] .new where
  before _ := rfl
  inside _ := ⟨rfl, fun _ => (Nat.zero_add _).symm⟩
  after line hline := by cases hline

theorem shown_append (t u : Text) : shown (t ++ u) = shown t ++ shown u := List.map_append

theorem decodeFile_return (bytes : Bytes) :
    decodeFile (bytes ++ [returnByte]) = decodeFile bytes ++ [carriageReturn] := by
  rw [decodeFile, decode_append]
  · rfl
  · intro b hb
    obtain rfl : returnByte = b := Option.some.inj hb
    exact fun h => absurd h.1 (by decide)

theorem lastTwo_append (bytes segment : Bytes) :
    FirstLine.lastTwo (FirstLine.lastTwo bytes ++ segment) = FirstLine.lastTwo (bytes ++ segment) := by
  simp only [FirstLine.lastTwo, List.length_append, List.length_drop]
  rw [List.drop_append, List.drop_append, List.drop_drop, List.length_drop]
  congr 2
  · omega
  · omega

theorem oneReturn_lastTwo (bytes : Bytes) :
    oneReturn returnByte (FirstLine.lastTwo bytes) = oneReturn returnByte bytes := by
  rcases List.eq_nil_or_concat' bytes with rfl | ⟨front, b, rfl⟩
  · rfl
  · rcases List.eq_nil_or_concat' front with rfl | ⟨front, a, rfl⟩
    · rfl
    · have htwo : FirstLine.lastTwo (front ++ [a] ++ [b]) = [a] ++ [b] := by
        rw [FirstLine.lastTwo, List.append_assoc]
        exact List.drop_left' (by simp)
      have hlast : ∀ bytes : Bytes, (oneReturn returnByte (bytes ++ [a] ++ [b]) = true ↔
          b = returnByte ∧ a ≠ returnByte) := by
        intro bytes
        rw [oneReturn_iff]
        constructor
        · rintro ⟨before, heq, hnot⟩
          obtain ⟨rfl, hb⟩ := List.append_inj' heq rfl
          rw [List.getLast?_concat] at hnot
          exact ⟨(List.cons.inj hb).1, fun ha => hnot (ha ▸ rfl)⟩
        · rintro ⟨rfl, ha⟩
          refine ⟨bytes ++ [a], rfl, ?_⟩
          rw [List.getLast?_concat]
          exact fun h => ha (Option.some.inj h)
      rw [htwo, Bool.eq_iff_iff, hlast]
      exact hlast []

theorem shownSize_dropReturn (line : Bytes) :
    shownSize (dropReturn returnByte line) = shownSize line - if oneReturn returnByte line then 1 else 0 := by
  by_cases hone : oneReturn returnByte line = true
  · obtain ⟨front, rfl, hlast⟩ := (oneReturn_iff _).mp hone
    have hreturn : utf8Len (shown [carriageReturn]) = 1 := rfl
    rw [dropReturn_concat hlast, if_pos hone, shownSize, shownSize, decodeFile_return, shown_append, utf8Len_append,
      hreturn, Nat.add_sub_cancel]
  · rw [dropReturn, if_neg hone, if_neg hone, Nat.sub_zero]

/-- A piece of the first line, or of another one, as it is measured. -/
theorem Measured.piece {start : Nat} {done : List Bytes} {cur : Bytes} {s : Scan} (h : Measured start done cur s.first)
    (hindex : s.index = done.length) (segment : Bytes) :
    Measured start done (cur ++ segment) (s.measureFirst start segment false).first ∧
      Measured start (done ++ [cur ++ segment]) [] (s.measureFirst start segment true).first := by
  by_cases hfirst : s.index = start
  · have hdone : done.length = start := hindex ▸ hfirst
    obtain ⟨htail, hbytes⟩ := h.inside hdone
    have hnone : done[start]? = none := List.getElem?_eq_none (Nat.le_of_eq hdone)
    rw [Scan.measureFirst, Scan.measureFirst, if_pos hfirst, if_pos hfirst]
    constructor
    · refine ⟨fun hlt => absurd hdone (Nat.ne_of_lt hlt), fun _ => ⟨?_, ?_⟩, ?_⟩
      · dsimp only [FirstLine.measure]
        rw [htail, lastTwo_append]
      · intro more
        have hopen := @decodeOpen_append (fun b => [escape b]) (s.first.pending ++ segment) more
        rw [List.append_assoc, hbytes, shownSize, ← List.append_assoc, decodeFile, hopen, shown_append, utf8Len_append]
        simp only [FirstLine.measure, FirstLine.decodePiece, Bool.false_eq_true, if_false, Bool.false_and,
          Nat.sub_zero]
        rw [Nat.add_assoc]
        rfl
      · intro line hline
        rw [hnone] at hline
        cases hline
    · refine ⟨fun hlt => ?_, fun heq => ?_, fun line hline => ?_⟩
      · rw [List.length_append] at hlt
        omega
      · rw [List.length_append, List.length_singleton] at heq
        omega
      · rw [← hdone, List.getElem?_concat_length] at hline
        obtain rfl : cur ++ segment = line := Option.some.inj hline
        have hsize := hbytes segment
        simp only [FirstLine.measure, FirstLine.decodePiece, if_true, Bool.true_and]
        rw [htail, lastTwo_append, oneReturn_lastTwo, ← shownSize, ← hsize]
        exact (shownSize_dropReturn _).symm
  · rw [Scan.measureFirst, Scan.measureFirst, if_neg hfirst, if_neg hfirst]
    have hne : done.length ≠ start := hindex ▸ hfirst
    constructor
    · exact ⟨h.before, fun heq => absurd heq hne, h.after⟩
    · refine ⟨fun hlt => ?_, fun heq => ?_, fun line hline => ?_⟩
      · rw [List.length_append] at hlt
        exact h.before (Nat.lt_of_le_of_lt (Nat.le_add_right _ _) hlt)
      · rw [List.length_append, List.length_singleton] at heq
        rw [h.before (heq ▸ Nat.lt_succ_self _)]
        exact ⟨rfl, fun _ => (Nat.zero_add _).symm⟩
      · obtain ⟨hlt, -⟩ := List.getElem?_eq_some_iff.mp hline
        rw [List.length_append, List.length_singleton] at hlt
        rw [List.getElem?_append_left (Nat.lt_of_le_of_ne (Nat.le_of_lt_succ hlt) (Ne.symm hne))] at hline
        exact h.after line hline


end Avibe.Reading
