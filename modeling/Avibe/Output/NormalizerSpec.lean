import Avibe.Output.Normalizer

/-!
# How a line of command output reads

`plain` says how a line reads that is within the bound, without the passes of the code: the last segment that is
not empty once the escape sequences are out. No escape sequence spans a line break or a carriage return, so a line
may be stripped before or after it is cut into segments. The fast path over several whole lines then shows and
keeps what the path over single lines does (`consume_eq_each`).
-/

namespace Avibe.Normalizer

open Texts Matchers

/-! ## Escape sequences -/

/-- What no escape sequence spans. -/
def Breaks (sep : CodePoint) : Prop := sep = lineFeed ∨ sep = carriageReturn

theorem stops_ansi {sep : CodePoint} (h : Breaks sep) : Stops ansi sep := by
  have hclasses : isParameter sep = false ∧ isIntermediate sep = false ∧ isControlFinal sep = false ∧
      isEscapeFinal sep = false ∧ isStringChar sep = false ∧ sep ≠ esc ∧ sep ≠ bell ∧ sep ≠ 0x5c ∧ sep ≠ 0x5d ∧
      sep ≠ 0x5b ∧ sep ≠ 0x9b ∧ sep ≠ 0x50 ∧ sep ≠ 0x5e ∧ sep ≠ 0x5f := by
    rcases h with rfl | rfl <;> decide
  obtain ⟨hparam, hinter, hfinal, hescape, hstring, hesc, hbell, h5c, h5d, h5b, h9b, h50, h5e, h5f⟩ := hclasses
  have hbody : Stops controlBody sep :=
    Stops.many hparam (Stops.many hinter (Stops.one hfinal stops_done))
  have hend : Stops stringEnd sep :=
    Stops.one (beq_eq_false_iff_ne.mpr hesc) (Stops.one (beq_eq_false_iff_ne.mpr h5c) stops_done)
  refine Stops.orElse ?_ (Stops.orElse ?_ (Stops.orElse ?_ (Stops.orElse ?_ ?_)))
  · refine Stops.one (beq_eq_false_iff_ne.mpr hesc) (Stops.one (beq_eq_false_iff_ne.mpr h5d) (Stops.many ?_ ?_))
    · rw [hstring, Bool.and_false]
    · exact Stops.orElse (Stops.one (beq_eq_false_iff_ne.mpr hbell) stops_done) hend
  · refine Stops.one (beq_eq_false_iff_ne.mpr hesc) (Stops.one ?_ (Stops.many hstring hend))
    rw [beq_eq_false_iff_ne.mpr h50, beq_eq_false_iff_ne.mpr h5e, beq_eq_false_iff_ne.mpr h5f]
    rfl
  · exact Stops.one (beq_eq_false_iff_ne.mpr hesc) (Stops.one (beq_eq_false_iff_ne.mpr h5b) hbody)
  · exact Stops.one (beq_eq_false_iff_ne.mpr hesc) (Stops.many hinter (Stops.one hescape stops_done))
  · exact Stops.one (beq_eq_false_iff_ne.mpr h9b) hbody

theorem ansi_nil : ansi [] = none := rfl

@[simp] theorem stripAnsi_nil : stripAnsi [] = [] := rfl

theorem stripAnsi_subset (t : Text) : stripAnsi t ⊆ t := fun _ hc =>
  dropFrom_subset ansi 0 t (List.mem_of_mem_filter hc)

/-- Stripping whole lines or segments at once strips each of them. -/
theorem stripAnsi_append {sep : CodePoint} (h : Breaks sep) (a b : Text) :
    stripAnsi (a ++ sep :: b) = stripAnsi a ++ sep :: stripAnsi b := by
  have hsep : (sep != esc) = true := by
    rcases h with rfl | rfl <;> rfl
  rw [stripAnsi, dropMatches_append (stops_ansi h) ansi_nil, List.filter_append, List.filter_cons, if_pos hsep]
  rfl

theorem splitOn_stripAnsi {sep : CodePoint} (h : Breaks sep) (t : Text) :
    (stripAnsi t).splitOn sep = (t.splitOn sep).map stripAnsi :=
  splitOn_map_of_append (stripAnsi_append h) stripAnsi_subset t

/-! ## Whole lines -/

/-- The last part of a text is what is after its last separator. -/
theorem splitOn_getLast (sep : CodePoint) (t : Text) :
    ∃ front, t.splitOn sep = front ++ [t.rtakeWhile (· != sep)] := by
  induction t using List.reverseRecOn with
  | nil => exact ⟨[], rfl⟩
  | append_singleton t c ih =>
      obtain ⟨front, hfront⟩ := ih
      by_cases hc : c = sep
      · have hone : [c].splitOn sep = [] :: [[]] := by
          rw [hc]
          exact List.splitOn_append_cons_self [] []
        refine ⟨front ++ [t.rtakeWhile (· != sep)], ?_⟩
        rw [splitOn_append hfront hone, List.rtakeWhile_concat_neg _ _ _ (by simp [hc]), List.append_nil,
          List.append_assoc]
        rfl
      · have hone : [c].splitOn sep = [c] :: [] :=
          List.splitOn_eq_singleton (fun h => hc (List.mem_singleton.mp h).symm)
        refine ⟨front, ?_⟩
        rw [splitOn_append hfront hone, List.rtakeWhile_concat_pos _ _ _ (by simp [hc])]

theorem splitOn_concat_self (sep : CodePoint) (t : Text) : (t ++ [sep]).splitOn sep = t.splitOn sep ++ [[]] :=
  List.splitOn_append_cons_self t []

/-- The last of some texts that is not empty. -/
def lastFilled (parts : List Text) : Text := (parts.reverse.find? (· != [])).getD []

theorem lastFilled_concat_nil (parts : List Text) : lastFilled (parts ++ [[]]) = lastFilled parts := by
  rw [lastFilled, List.reverse_append]
  rfl

theorem lastFilled_concat (parts : List Text) {last : Text} (h : last ≠ []) : lastFilled (parts ++ [last]) = last := by
  rw [lastFilled, List.reverse_append, List.reverse_singleton, List.singleton_append,
    List.find?_cons_of_pos (by simp [h]), Option.getD_some]

theorem lastFilled_mem (parts : List Text) : lastFilled parts = [] ∨ lastFilled parts ∈ parts := by
  rw [lastFilled]
  cases hfind : parts.reverse.find? (· != []) with
  | none => exact .inl rfl
  | some part => exact .inr (List.mem_reverse.mp (List.mem_of_find?_eq_some hfind))

/-- What is after the last carriage return, those at the end aside, is the last segment that is not empty. -/
theorem collapse_line (line : Text) :
    (line.rdropWhile (· == carriageReturn)).rtakeWhile (· != carriageReturn) =
      lastFilled (line.splitOn carriageReturn) := by
  induction line using List.reverseRecOn with
  | nil => rfl
  | append_singleton line c ih =>
      by_cases hc : c = carriageReturn
      · rw [List.rdropWhile_concat_pos _ _ _ (by simp [hc]), ih, hc, splitOn_concat_self,
          lastFilled_concat_nil]
      · obtain ⟨front, hfront⟩ := splitOn_getLast carriageReturn (line ++ [c])
        have htake : (line ++ [c]).rtakeWhile (· != carriageReturn) ≠ [] := by
          rw [List.rtakeWhile_concat_pos _ _ _ (by simp [hc])]
          exact List.append_ne_nil_of_right_ne_nil _ (List.cons_ne_nil _ _)
        rw [List.rdropWhile_concat_neg _ _ _ (by simp [hc]), hfront, lastFilled_concat _ htake]

/-- How a line reads that is within the bound. -/
def plain (line : Text) : Text := lastFilled ((line.splitOn carriageReturn).map stripAnsi)

theorem plain_subset (line : Text) : plain line ⊆ line := by
  rcases lastFilled_mem ((line.splitOn carriageReturn).map stripAnsi) with h | h
  · rw [plain, h]
    exact List.nil_subset _
  · obtain ⟨segment, hsegment, heq⟩ := List.mem_map.mp h
    intro c hc
    rw [plain, ← heq] at hc
    exact (isInfix_of_mem_splitOn hsegment).subset (stripAnsi_subset segment hc)

theorem plain_dropReturn (line : Text) : plain (dropReturn line) = plain line := by
  rw [dropReturn]
  split
  · rename_i hlast
    obtain ⟨front, rfl⟩ := List.getLast?_eq_some_iff.mp hlast
    rw [List.dropLast_concat, plain, plain, splitOn_concat_self, List.map_append, List.map_singleton, stripAnsi_nil,
      lastFilled_concat_nil]
  · rfl

/-- Escape sequences taken out, the lines read as they do with them. -/
theorem collapse_stripAnsi (middle : Text) :
    collapse (stripAnsi middle) = joined ((middle.splitOn lineFeed).map plain) := by
  have hline : ∀ line, lastFilled ((stripAnsi line).splitOn carriageReturn) = plain line := fun line => by
    rw [splitOn_stripAnsi (.inr rfl), plain]
  rw [collapse]
  split
  · rw [splitOn_stripAnsi (.inl rfl), List.map_map]
    refine congrArg joined (List.map_congr_left fun line _ => ?_)
    exact (collapse_line _).trans (hline line)
  · rename_i hreturn
    have hplain : ∀ line ∈ middle.splitOn lineFeed, plain line = stripAnsi line := by
      intro line hmem
      have hnone : carriageReturn ∉ stripAnsi line := by
        intro hin
        refine hreturn ((isInfix_of_mem_splitOn (a := lineFeed) ?_).subset hin)
        rw [splitOn_stripAnsi (.inl rfl)]
        exact List.mem_map_of_mem hmem
      rw [← hline, List.splitOn_eq_singleton hnone]
      by_cases hnil : stripAnsi line = []
      · simp [hnil, lastFilled]
      · exact lastFilled_concat [] hnil
    rw [List.map_congr_left hplain, ← splitOn_stripAnsi (.inl rfl), joined, List.intercalate_splitOn]

/-! ## Within the bound -/

theorem bounded_of_le {segment : Kept} (h : segment.text.length ≤ maxOpenChars) : bounded segment = segment := if_pos h

theorem segments_empty (text : Text) :
    segments Kept.empty text = (text.splitOn carriageReturn).map fun segment => ⟨segment, 0⟩ := by
  rw [segments, Kept.empty, List.nil_append]
  split
  · rename_i h
    rw [h]
    rfl
  · rename_i h
    rw [h]
    rfl

theorem read_undropped (t : Text) :
    Kept.read ⟨t, 0⟩ = if stripAnsi t = [] then none else some (stripAnsi t, utf8Len (stripAnsi t)) := by
  rw [Kept.read]
  dsimp only
  rw [if_pos rfl, Nat.zero_add]

theorem lineAndSize_short {line : Text} (h : line.length ≤ maxOpenChars) :
    lineAndSize (openSegments OpenLine.empty line) = (plain line, utf8Len (plain line)) := by
  obtain ⟨front, hfront⟩ := splitOn_getLast carriageReturn line
  generalize hlast : line.rtakeWhile (· != carriageReturn) = last at hfront
  have hshort : ∀ segment ∈ line.splitOn carriageReturn, segment.length ≤ maxOpenChars := fun segment hmem =>
    (isInfix_of_mem_splitOn hmem).length_le.trans h
  rw [hfront] at hshort
  have hcur : (openSegments OpenLine.empty line).cur = ⟨last, 0⟩ := by
    rw [openSegments, OpenLine.empty]
    dsimp only
    rw [segments_empty, hfront, List.map_append, List.map_singleton, List.getLast?_concat, Option.getD_some]
    exact bounded_of_le (hshort last (List.mem_append_right _ List.mem_cons_self))
  have hprev : (openSegments OpenLine.empty line).prev = ⟨(front.reverse.find? shows).getD [], 0⟩ := by
    rw [openSegments, OpenLine.empty]
    dsimp only
    rw [segments_empty, hfront, List.map_append, List.map_singleton, List.dropLast_concat, ← List.map_reverse,
      List.find?_map, Option.map_map]
    cases hfind : front.reverse.find? ((fun piece : Kept => shows piece.text) ∘ fun segment => ⟨segment, 0⟩) with
    | none =>
        have hnone : front.reverse.find? shows = none := hfind
        rw [hnone]
        rfl
    | some segment =>
        have hsome : front.reverse.find? shows = some segment := hfind
        have hmem := List.mem_reverse.mp (List.mem_of_find?_eq_some hsome)
        rw [hsome, Option.map_some, Option.getD_some, Option.getD_some]
        exact bounded_of_le (hshort segment (List.mem_append_left _ hmem))
  rw [lineAndSize, hcur, hprev, read_undropped, read_undropped, plain, hfront, List.map_append, List.map_singleton]
  by_cases hnil : stripAnsi last = []
  · rw [if_pos hnil, hnil, lastFilled_concat_nil, lastFilled, ← List.map_reverse, List.find?_map]
    cases hfind : front.reverse.find? shows with
    | none =>
        have hnone : front.reverse.find? ((· != []) ∘ stripAnsi) = none := hfind
        rw [hnone]
        rfl
    | some segment =>
        have hsome : front.reverse.find? ((· != []) ∘ stripAnsi) = some segment := hfind
        have hshows : stripAnsi segment ≠ [] := bne_iff_ne.mp (List.find?_some hfind : shows segment = true)
        rw [hsome, Option.getD_some, if_neg hshows]
        rfl
  · rw [if_neg hnil, lastFilled_concat _ hnil]
    rfl

/-! ## The fast path -/

/-- A line that is read from nothing, within the bound. -/
theorem finishLine_short {s : OutputNormalizer} (hs : s.line = OpenLine.empty) {line : Text}
    (h : line.length ≤ maxOpenChars) :
    finishLine s line = ({ s with finishedLineBytes := utf8Len (plain line) }, plain line ++ [lineFeed]) := by
  have hle : (dropReturn line).length ≤ maxOpenChars := by
    rw [dropReturn]
    split
    · rw [List.length_dropLast]
      omega
    · exact h
  rw [finishLine, hs, lineAndSize_short hle, plain_dropReturn]

/-- Each line read as it is, the size of the last one kept. -/
theorem finishLines_short {s : OutputNormalizer} (hs : s.line = OpenLine.empty) {front : List Text} {last : Text}
    (h : ∀ line ∈ front ++ [last], line.length ≤ maxOpenChars) :
    finishLines s (front ++ [last]) =
      ({ s with finishedLineBytes := utf8Len (plain last) }, joined ((front ++ [last]).map plain) ++ [lineFeed]) := by
  induction front generalizing s with
  | nil =>
      rw [List.nil_append, finishLines, finishLines, finishLine_short hs (h last List.mem_cons_self)]
      dsimp only
      rw [List.append_nil, List.map_singleton, joined_singleton]
  | cons line front ih =>
      rw [List.cons_append, finishLines, finishLine_short hs (h line List.mem_cons_self)]
      dsimp only
      have hne : (front ++ [last]).map plain ≠ [] := by simp
      have hrest := ih (s := { s with finishedLineBytes := utf8Len (plain line) }) hs fun line hmem =>
        h line (List.mem_cons_of_mem _ hmem)
      rw [hrest, List.map_cons, joined_cons hne, List.append_assoc, List.append_assoc]
      rfl

/-- Whole lines within the bound are finished in a few passes as they are one by one. -/
theorem finishFast_eq {s : OutputNormalizer} (hs : s.line = OpenLine.empty) {middle : Text}
    (h : hasLongLine middle = false) : finishFast s middle = finishEach s middle := by
  obtain ⟨front, hfront⟩ := splitOn_getLast lineFeed middle
  generalize middle.rtakeWhile (· != lineFeed) = last at hfront
  have hshort : ∀ line ∈ front ++ [last], line.length ≤ maxOpenChars := by
    intro line hmem
    rw [hasLongLine, hfront, List.any_eq_false] at h
    exact Nat.le_of_not_lt (of_decide_eq_false (Bool.eq_false_iff.mpr (h line hmem)))
  have hlines : ∀ line ∈ (front ++ [last]).map plain, lineFeed ∉ line := by
    intro line hmem
    obtain ⟨source, hsource, rfl⟩ := List.mem_map.mp hmem
    rw [← hfront] at hsource
    exact fun hin => notMem_of_mem_splitOn hsource (plain_subset source hin)
  have hlast : (joined ((front ++ [last]).map plain)).rtakeWhile (· != lineFeed) = plain last := by
    obtain ⟨front', hsplit⟩ := splitOn_getLast lineFeed (joined ((front ++ [last]).map plain))
    rw [joined, List.splitOn_intercalate lineFeed hlines (by simp), List.map_append, List.map_singleton] at hsplit
    have hcancel := congrArg List.getLast? hsplit
    rw [List.getLast?_concat, List.getLast?_concat] at hcancel
    rw [joined, List.map_append, List.map_singleton]
    exact (Option.some.inj hcancel).symm
  rw [finishFast, finishEach, hfront, finishLines_short hs hshort, collapse_stripAnsi, hfront]
  rw [hlast]

theorem consumeLines_eq_each (s : OutputNormalizer) (text : Text) :
    consumeLines finishMiddle s text = consumeLines finishEach s text := by
  have hfinish : ∀ r : OutputNormalizer, r.line = OpenLine.empty → ∀ middle,
      finishMiddle r middle = finishEach r middle := by
    intro r hr middle
    rw [finishMiddle]
    split
    · rfl
    · rename_i h
      exact finishFast_eq hr (Bool.eq_false_iff.mpr h)
  rw [consumeLines, consumeLines]
  cases text.splitOn lineFeed with
  | nil => rfl
  | cons first rest =>
      cases rest with
      | nil => rfl
      | cons next rest =>
          dsimp only
          rw [hfinish _ rfl]

/-- The fast path gives the state and the output of the path over single lines, on every text. -/
theorem consume_eq_each (s : OutputNormalizer) (text : Text) : consume s text = consumeWith finishEach s text := by
  rw [consume, consumeWith, consumeWith, consumeLines_eq_each]

end Avibe.Normalizer
