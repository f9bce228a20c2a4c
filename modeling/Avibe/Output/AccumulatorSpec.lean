import Avibe.Output.Accumulator

/-!
# The snapshot of the accumulator

Whatever the chunks, a snapshot counts the lines and bytes of the whole output, and its text is the
truncation of the whole output, up to a trailing line feed, unless the kept tail has its only line feed at
its end: then the last line is lost (`snapshot_agrees_iff`).
-/

namespace Avibe.Output

open Texts

/-- The texts are the same but for one trailing line feed. -/
def SameUpToBreak (t u : Text) : Prop := t = u ∨ t = u ++ [lineFeed] ∨ u = t ++ [lineFeed]

/-- The snapshot says of an output what truncating it says. -/
structure Agrees (output : Text) (maxLines maxBytes : Nat) (r : TruncationResult) : Prop where
  totalLines : r.totalLines = (splitLines output).length
  totalBytes : r.totalBytes = utf8Len output
  content : SameUpToBreak r.content (truncateTail output maxLines maxBytes).content
  nonempty : ∀ last c, (splitLines output).getLast? = some last → last.getLast? = some c →
    utf8Size c ≤ maxBytes → r.content ≠ []

/-- The tail starts inside a line, which is the last one and ended, and whose end would fit. -/
def LosesLine (a : Accumulator) (openLine : Text) : Prop :=
  a.tailStartsAtLineBoundary = false ∧ ∃ line c, a.tail ++ openLine = line ++ [c] ++ [lineFeed] ∧
    lineFeed ∉ line ++ [c] ∧ utf8Size c ≤ a.maxBytes

/-! ## Truncated texts -/

section Tail

variable {maxLines maxBytes : Nat}

/-- Earlier lines play no role where the next of them would not fit. -/
theorem tailLoop_append {kept lines earlier : List Text} (hsome : kept ≠ [] ∨ lines ≠ [])
    (hover : ∀ line ∈ earlier.head?, maxBytes < utf8Len (joined (line :: (lines.reverse ++ kept)))) :
    (tailLoop maxLines maxBytes kept (utf8Len (joined kept)) (lines ++ earlier)).1.lines =
      (tailLoop maxLines maxBytes kept (utf8Len (joined kept)) lines).1.lines := by
  induction lines generalizing kept with
  | nil =>
      have hkept := hsome.resolve_right fun h => h rfl
      cases earlier with
      | nil => rfl
      | cons line earlier =>
          have hline := hover line rfl
          rw [List.reverse_nil, List.nil_append, utf8Len_joined_cons, if_neg hkept] at hline
          rw [List.nil_append, tailLoop, tailLoop]
          split
          · rfl
          · have hfull : maxBytes < utf8Len (joined kept) + (utf8Len line + 1) := by omega
            simp only [if_pos hfull]
  | cons line lines ih =>
      rw [List.cons_append, tailLoop, tailLoop]
      split
      · rfl
      · have hbytes : utf8Len (joined kept) + (utf8Len line + if kept ≠ [] then 1 else 0) =
            utf8Len (joined (line :: kept)) := by
          rw [utf8Len_joined_cons]
          simp only [ne_eq, ite_not]
          omega
        dsimp only
        rw [hbytes]
        split
        · split <;> rfl
        · apply ih (.inl (List.cons_ne_nil _ _))
          intro next hnext
          have hline := hover next hnext
          rwa [List.reverse_cons, List.append_assoc] at hline

/-- Lines that fit are all kept. -/
theorem tailLoop_all {kept lines : List Text} (hcount : lines.length + kept.length ≤ maxLines)
    (hbytes : utf8Len (joined (lines.reverse ++ kept)) ≤ maxBytes) :
    (tailLoop maxLines maxBytes kept (utf8Len (joined kept)) lines).1.lines = lines.reverse ++ kept := by
  induction lines generalizing kept with
  | nil => rfl
  | cons line lines ih =>
      have hsize : utf8Len (joined kept) + (utf8Len line + if kept ≠ [] then 1 else 0) =
          utf8Len (joined (line :: kept)) := by
        rw [utf8Len_joined_cons]
        simp only [ne_eq, ite_not]
        omega
      rw [List.length_cons] at hcount
      rw [List.reverse_cons, List.append_assoc, List.singleton_append] at hbytes ⊢
      have hfits : ¬ maxBytes < utf8Len (joined (line :: kept)) := by
        rw [not_lt]
        refine Nat.le_trans ?_ hbytes
        rw [← utf8Len_joined_reverse, ← utf8Len_joined_reverse (_ ++ _), List.reverse_append]
        exact utf8Len_joined_mono (List.prefix_append _ _)
      rw [tailLoop, if_neg (by omega)]
      dsimp only
      rw [hsize, if_neg hfits]
      apply ih _ hbytes
      rw [List.length_cons]
      omega

theorem truncateTail_within {content : Text} (hlines : (splitLines content).length ≤ maxLines)
    (hbytes : utf8Len content ≤ maxBytes) : (truncateTail content maxLines maxBytes).content = content := by
  rw [truncateTail, if_pos ⟨hlines, hbytes⟩]
  rfl

theorem truncateTail_over {content : Text}
    (h : ¬ ((splitLines content).length ≤ maxLines ∧ utf8Len content ≤ maxBytes)) :
    (truncateTail content maxLines maxBytes).content =
      joined (tailLoop maxLines maxBytes [] 0 (splitLines content).reverse).1.lines := by
  rw [truncateTail, if_neg h]

/-- An over-long last line is cut. -/
theorem truncateTail_cut {content last : Text} {before : List Text} (hl : 0 < maxLines)
    (hsplit : splitLines content = before ++ [last]) (hlast : maxBytes < utf8Len last)
    (hscalar : ∀ c ∈ last, isScalar c = true) :
    (truncateTail content maxLines maxBytes).content = endWithin maxBytes last := by
  have hover : ¬ ((splitLines content).length ≤ maxLines ∧ utf8Len content ≤ maxBytes) := by
    rintro ⟨-, hle⟩
    rw [joined_splitLines content, utf8Len_append, hsplit, ← utf8Len_joined_reverse, List.reverse_concat,
      utf8Len_joined_cons] at hle
    omega
  rw [truncateTail_over hover, hsplit, List.reverse_concat, tailLoop, List.length_nil, if_neg (not_le.mpr hl)]
  dsimp only
  rw [if_pos (by simpa using hlast), if_pos rfl]
  dsimp only
  rw [joined_singleton]
  exact truncateStringToBytesFromEnd_scalar fun c hc => hscalar c ((endWithin_suffix _ _).subset hc)

/-- A text truncates to what the lines after a place in it truncate to, where the line before them does not
fit. -/
theorem truncateTail_append {content rest : Text} {before : List Text} {line : Text}
    (hsplit : splitLines content = before ++ [line] ++ splitLines rest) (hne : rest ≠ [])
    (hover : maxBytes < utf8Len (joined (line :: splitLines rest))) :
    (truncateTail content maxLines maxBytes).content =
      joined (tailLoop maxLines maxBytes [] 0 (splitLines rest).reverse).1.lines := by
  have hlong : ¬ ((splitLines content).length ≤ maxLines ∧ utf8Len content ≤ maxBytes) := by
    rintro ⟨-, hle⟩
    rw [joined_splitLines content, utf8Len_append, hsplit, List.append_assoc, List.singleton_append,
      ← utf8Len_joined_reverse, List.reverse_append] at hle
    have hmono := utf8Len_joined_mono (List.prefix_append (line :: splitLines rest).reverse before.reverse)
    rw [utf8Len_joined_reverse] at hmono
    omega
  rw [truncateTail_over hlong, hsplit, List.reverse_append, List.reverse_concat]
  have hsome : (splitLines rest).reverse ≠ [] := by
    rw [ne_eq, List.reverse_eq_nil_iff, splitLines_eq_nil]
    exact hne
  have happend : (tailLoop maxLines maxBytes [] 0 ((splitLines rest).reverse ++ line :: before.reverse)).1.lines =
      (tailLoop maxLines maxBytes [] 0 (splitLines rest).reverse).1.lines := by
    apply tailLoop_append (.inr hsome)
    intro next hnext
    obtain rfl : line = next := Option.some.inj hnext
    rwa [List.reverse_reverse, List.append_nil]
  exact congrArg joined happend

/-- The same for the lines alone, up to their last line feed. -/
theorem sameUpToBreak_truncateTail (rest : Text) :
    SameUpToBreak (truncateTail rest maxLines maxBytes).content
      (joined (tailLoop maxLines maxBytes [] 0 (splitLines rest).reverse).1.lines) := by
  by_cases hwithin : (splitLines rest).length ≤ maxLines ∧ utf8Len rest ≤ maxBytes
  · have hbytes : utf8Len (joined (splitLines rest)) ≤ maxBytes := by
      have hle := hwithin.2
      rw [joined_splitLines rest, utf8Len_append] at hle
      omega
    have hall : (tailLoop maxLines maxBytes [] 0 (splitLines rest).reverse).1.lines = splitLines rest := by
      have hloop : (tailLoop maxLines maxBytes [] 0 (splitLines rest).reverse).1.lines =
          (splitLines rest).reverse.reverse ++ [] :=
        tailLoop_all (by simpa using hwithin.1) (by simpa using hbytes)
      rwa [List.reverse_reverse, List.append_nil] at hloop
    rw [truncateTail_within hwithin.1 hwithin.2, hall]
    have hrest := joined_splitLines rest
    by_cases hends : EndsLine rest
    · rw [if_pos hends] at hrest
      exact .inr (.inl hrest)
    · rw [if_neg hends, List.append_nil] at hrest
      exact .inl hrest
  · rw [truncateTail_over hwithin]
    exact .inl rfl

/-- The last character of the last line is kept if it fits. -/
theorem mem_truncateTail {content last : Text} {before : List Text} {c : CodePoint} (hl : 0 < maxLines)
    (hsplit : splitLines content = before ++ [last]) (hc : last.getLast? = some c) (hfits : utf8Size c ≤ maxBytes)
    (hscalar : ∀ d ∈ last, isScalar d = true) : c ∈ (truncateTail content maxLines maxBytes).content := by
  have hmem := List.mem_of_getLast? hc
  by_cases hcut : maxBytes < utf8Len last
  · rw [truncateTail_cut hl hsplit hcut hscalar]
    obtain ⟨line, rfl⟩ := List.getLast?_eq_some_iff.mp hc
    have hsuffix : [c] <:+ endWithin maxBytes (line ++ [c]) :=
      suffix_endWithin_of_le (List.suffix_append _ _) (by simpa using hfits)
    exact hsuffix.subset (List.mem_singleton_self c)
  · by_cases hwithin : (splitLines content).length ≤ maxLines ∧ utf8Len content ≤ maxBytes
    · rw [truncateTail_within hwithin.1 hwithin.2, joined_splitLines content]
      apply List.mem_append_left
      exact mem_joined (hsplit ▸ List.mem_append_right _ (List.mem_singleton_self last)) hmem
    · rw [truncateTail_over hwithin, hsplit, List.reverse_concat]
      have hloop := @tailLoop_spec maxLines maxBytes [] (last :: before.reverse) (Nat.zero_le maxBytes)
        (Nat.zero_le _)
      cases hloop with
      | inr hover =>
          obtain ⟨-, -, line, later, heq, hover, -⟩ := hover
          obtain ⟨rfl, -⟩ := List.cons.inj heq
          exact absurd hover hcut
      | inl hfit =>
          obtain ⟨fit, later, heq, hkept, hsome, -⟩ := hfit
          have hzero : utf8Len (joined []) = 0 := rfl
          rw [hzero] at hkept
          rw [hkept]
          cases fit with
          | nil =>
              cases hsome rfl rfl with
              | inl hlater =>
                  rw [hlater] at heq
                  exact absurd heq (List.cons_ne_nil _ _)
              | inr hnone => exact absurd hl (by rw [hnone]; exact Nat.lt_irrefl 0)
          | cons line fit =>
              obtain ⟨rfl, -⟩ := List.cons.inj heq
              exact mem_joined (by simp) hmem

end Tail

/-! ## The snapshot -/

/-- What a snapshot truncates, beside all that was kept. -/
theorem snapshotText_cases (a : Accumulator) {openLine : Text} (hopen : lineFeed ∉ openLine) :
    (a.tailStartsAtLineBoundary = true ∧ a.snapshotText ++ openLine = a.tail ++ openLine) ∨
    (a.tailStartsAtLineBoundary = false ∧ lineFeed ∉ a.tail ++ openLine ∧
      a.snapshotText ++ openLine = a.tail ++ openLine) ∨
    (a.tailStartsAtLineBoundary = false ∧ ∃ line, lineFeed ∉ line ∧
      a.tail ++ openLine = line ++ lineFeed :: (a.snapshotText ++ openLine)) := by
  rw [Accumulator.snapshotText]
  by_cases hboundary : a.tailStartsAtLineBoundary = true
  · exact .inl ⟨hboundary, by rw [if_pos hboundary]⟩
  · have hinside := Bool.eq_false_iff.mpr hboundary
    rw [if_neg hboundary]
    by_cases hfeed : lineFeed ∈ a.tail
    · right; right
      rw [if_pos hfeed]
      obtain ⟨line, rest, htail, hline⟩ := List.eq_append_cons_of_mem hfeed
      have hpast : ∀ d ∈ line, decide (d ≠ lineFeed) = true :=
        fun d hd => decide_eq_true fun heq => hline (heq ▸ hd)
      refine ⟨hinside, line, hline, ?_⟩
      rw [htail, List.dropWhile_append_of_pos hpast, List.dropWhile_cons_of_neg (by simp), List.drop_one,
        List.tail_cons, List.append_assoc]
      rfl
    · right; left
      rw [if_neg hfeed]
      exact ⟨hinside, by rw [List.mem_append, not_or]; exact ⟨hfeed, hopen⟩, rfl⟩

/-- A text without line feeds is cut at its start. -/
theorem truncateTail_line {text : Text} {maxLines maxBytes : Nat} (hl : 0 < maxLines) (hfeed : lineFeed ∉ text)
    (hscalar : ∀ c ∈ text, isScalar c = true) :
    (truncateTail text maxLines maxBytes).content = endWithin maxBytes text := by
  by_cases hover : maxBytes < utf8Len text
  · have hne : text ≠ [] := by
      rintro rfl
      exact absurd hover (Nat.not_lt_zero _)
    have hsplit : splitLines text = [] ++ [text] := splitLines_open hfeed hne
    exact truncateTail_cut hl hsplit hover hscalar
  · have hcount : (splitLines text).length ≤ maxLines := by
      rw [length_splitLines, List.count_eq_zero.mpr hfeed]
      split <;> omega
    rw [truncateTail_within hcount (not_lt.mp hover), endWithin_eq_self (not_lt.mp hover)]

theorem splitLines_concat_line {done line : Text} (hdone : done = [] ∨ EndsLine done) (hline : lineFeed ∉ line)
    (rest : Text) :
    splitLines (done ++ (line ++ lineFeed :: rest)) = splitLines done ++ [line] ++ splitLines rest := by
  have hends : EndsLine (done ++ (line ++ [lineFeed])) := by
    rw [EndsLine, ← List.append_assoc, List.getLast?_concat]
  have hassoc : done ++ (line ++ lineFeed :: rest) = done ++ (line ++ [lineFeed]) ++ rest := by simp
  rw [hassoc, splitLines_append hends, splitLines_append_of hdone, splitLines_line hline]

/-- A tail that starts at a line is truncated as the whole. -/
theorem content_agrees_whole {before tail : Text} {maxLines maxBytes : Nat} (hb : 0 < maxBytes)
    (hstart : before = [] ∨ EndsLine before)
    (hsize : ∀ c ∈ before.getLast?, maxBytes * 2 < utf8Size c + utf8Len tail) :
    SameUpToBreak (truncateTail tail maxLines maxBytes).content
      (truncateTail (before ++ tail) maxLines maxBytes).content := by
  cases hstart with
  | inl hnil =>
      rw [hnil]
      exact .inl rfl
  | inr hends =>
      have hsome : splitLines before ≠ [] := by
        intro hnil
        rw [splitLines_eq_nil.mp hnil] at hends
        cases hends
      have hlines := List.dropLast_concat_getLast hsome
      have hlong := hsize lineFeed hends
      have hone : utf8Size lineFeed = 1 := rfl
      have hne : tail ≠ [] := by
        intro hnil
        rw [hnil, utf8Len_nil] at hlong
        omega
      have hsplit : splitLines (before ++ tail) =
          (splitLines before).dropLast ++ [(splitLines before).getLast hsome] ++ splitLines tail := by
        rw [splitLines_append hends, hlines]
      have hjoined := congrArg utf8Len (joined_splitLines tail)
      have hbreak : utf8Len (if EndsLine tail then [lineFeed] else []) ≤ 1 := by
        split <;> decide
      rw [utf8Len_append (joined _)] at hjoined
      have hover : maxBytes < utf8Len (joined ((splitLines before).getLast hsome :: splitLines tail)) := by
        rw [utf8Len_joined_cons, if_neg (mt splitLines_eq_nil.mp hne)]
        omega
      rw [truncateTail_append hsplit hne hover]
      exact sameUpToBreak_truncateTail tail

/-- A tail inside one long line is the end of that line. -/
theorem content_agrees_inside {done line tail : Text} {c : CodePoint} {maxLines maxBytes : Nat} (hl : 0 < maxLines)
    (hdone : done = [] ∨ EndsLine done) (hline : lineFeed ∉ line ++ [c]) (htail : lineFeed ∉ tail)
    (hsize : maxBytes < utf8Size c + utf8Len tail) (hscalar : ∀ d ∈ line ++ c :: tail, isScalar d = true) :
    (truncateTail (done ++ (line ++ c :: tail)) maxLines maxBytes).content =
      (truncateTail tail maxLines maxBytes).content := by
  have hfeed : lineFeed ∉ line ++ c :: tail := by
    rw [List.mem_append, List.mem_singleton, not_or] at hline
    rw [List.mem_append, List.mem_cons, not_or, not_or]
    exact ⟨hline.1, hline.2, htail⟩
  have hne : line ++ c :: tail ≠ [] := List.append_ne_nil_of_right_ne_nil _ (List.cons_ne_nil _ _)
  have hsplit : splitLines (done ++ (line ++ c :: tail)) = splitLines done ++ [line ++ c :: tail] := by
    rw [splitLines_append_of hdone, splitLines_open hfeed hne]
  have hover : maxBytes < utf8Len (line ++ c :: tail) := by
    rw [utf8Len_append, utf8Len_cons]
    omega
  rw [truncateTail_cut hl hsplit hover hscalar, endWithin_append hsize]
  refine (truncateTail_line hl htail fun d hd => hscalar d ?_).symm
  exact List.mem_append_right _ (List.mem_cons_of_mem _ hd)

/-- A tail in which another line starts is truncated from there on. -/
theorem content_agrees_next {done line rest : Text} {maxLines maxBytes : Nat} (hdone : done = [] ∨ EndsLine done)
    (hline : lineFeed ∉ line) (hne : rest ≠ []) (hsize : maxBytes < utf8Len line + utf8Len rest) :
    SameUpToBreak (truncateTail rest maxLines maxBytes).content
      (truncateTail (done ++ (line ++ lineFeed :: rest)) maxLines maxBytes).content := by
  have hjoined := congrArg utf8Len (joined_splitLines rest)
  have hbreak : utf8Len (if EndsLine rest then [lineFeed] else []) ≤ 1 := by
    split <;> decide
  rw [utf8Len_append (joined _)] at hjoined
  have hover : maxBytes < utf8Len (joined (line :: splitLines rest)) := by
    rw [utf8Len_joined_cons, if_neg (mt splitLines_eq_nil.mp hne)]
    omega
  rw [truncateTail_append (splitLines_concat_line hdone hline rest) hne hover]
  exact sameUpToBreak_truncateTail rest

/-- A long line that has ended is kept by its end, which is empty if its last character does not fit. -/
theorem content_ended {done line : Text} {maxLines maxBytes : Nat} (hl : 0 < maxLines)
    (hdone : done = [] ∨ EndsLine done) (hline : lineFeed ∉ line) (hsize : maxBytes < utf8Len line)
    (hscalar : ∀ c ∈ line, isScalar c = true) :
    (truncateTail (done ++ (line ++ [lineFeed])) maxLines maxBytes).content = endWithin maxBytes line := by
  have hsplit := splitLines_concat_line hdone hline []
  rw [splitLines_eq_nil.mpr rfl, List.append_nil] at hsplit
  exact truncateTail_cut hl hsplit hsize hscalar

theorem endWithin_eq_nil {limit : Nat} {line : Text} {c : CodePoint} :
    endWithin limit (line ++ [c]) = [] ↔ limit < utf8Size c := by
  constructor
  · intro hnil
    by_contra hfits
    have hsuffix : [c] <:+ endWithin limit (line ++ [c]) :=
      suffix_endWithin_of_le (List.suffix_append _ _) (by simpa using not_lt.mp hfits)
    rw [hnil] at hsuffix
    exact absurd (List.suffix_nil.mp hsuffix) (List.cons_ne_nil _ _)
  · intro hlong
    rw [endWithin_append (by simpa using hlong)]
    rfl

theorem sameUpToBreak_nil {u : Text} (h : lineFeed ∉ u) : SameUpToBreak [] u ↔ u = [] := by
  constructor
  · rintro (hnil | hbreak | hbreak)
    · exact hnil.symm
    · exact absurd hbreak (List.append_ne_nil_of_right_ne_nil u (List.cons_ne_nil _ _)).symm
    · rw [hbreak] at h
      exact absurd (List.mem_singleton_self lineFeed) h
  · intro hnil
    exact .inl hnil.symm

/-- What is lost is exactly a last line of which only the end was kept. -/
theorem content_agrees_iff {output before : Text} {a : Accumulator} (h : TailOf output a before) {openLine : Text}
    (hopen : lineFeed ∉ openLine) (hl : 0 < a.maxLines) (hb : 0 < a.maxBytes)
    (hscalar : ∀ c ∈ output ++ openLine, isScalar c = true) :
    SameUpToBreak (truncateTail (a.snapshotText ++ openLine) a.maxLines a.maxBytes).content
      (truncateTail (output ++ openLine) a.maxLines a.maxBytes).content ↔ ¬ LosesLine a openLine := by
  have hsize : ∀ c ∈ before.getLast?, a.maxBytes * 2 < utf8Size c + utf8Len (a.tail ++ openLine) := by
    intro c hc
    have hlt := h.size c hc
    rw [utf8Len_append]
    omega
  have houtput : output ++ openLine = before ++ (a.tail ++ openLine) := by
    rw [h.output_eq, List.append_assoc]
  have hboundary := h.boundary
  rw [houtput] at hscalar ⊢
  by_cases hstart : a.tailStartsAtLineBoundary = true
  · have hkeeps : ¬ LosesLine a openLine := fun hloses => absurd hstart (by rw [hloses.1]; decide)
    refine iff_of_true ?_ hkeeps
    rw [Accumulator.snapshotText, if_pos hstart]
    exact content_agrees_whole hb (hboundary.mp hstart) hsize
  · obtain ⟨hsome, hbroken⟩ := not_or.mp (mt hboundary.mpr hstart)
    obtain ⟨done, line, hbefore, hline, hdone⟩ := exists_openLine before
    have hlast : ∃ front c, line = front ++ [c] := by
      cases List.eq_nil_or_concat' line with
      | inr hconcat => exact hconcat
      | inl hnil =>
          rw [hnil, List.append_nil] at hbefore
          rw [← hbefore] at hdone
          exact absurd hdone (not_or.mpr ⟨hsome, hbroken⟩)
    obtain ⟨front, c, rfl⟩ := hlast
    have hlong := hsize c (by rw [hbefore, ← List.append_assoc, List.getLast?_concat]; rfl)
    have hwhole : before ++ (a.tail ++ openLine) = done ++ (front ++ c :: (a.tail ++ openLine)) := by
      rw [hbefore]
      simp
    rw [hwhole] at hscalar ⊢
    have hscalar : ∀ d ∈ front ++ c :: (a.tail ++ openLine), isScalar d = true :=
      fun d hd => hscalar d (List.mem_append_right _ hd)
    have hlosesIff : ∀ p s, lineFeed ∉ p → a.tail ++ openLine = p ++ lineFeed :: s →
        (LosesLine a openLine ↔ s = [] ∧ ∃ q d, p = q ++ [d] ∧ utf8Size d ≤ a.maxBytes) := by
      intro p s hp htail
      constructor
      · rintro ⟨-, q, d, heq, hq, hfits⟩
        rw [htail] at heq
        have hsplit := congrArg (List.splitOn lineFeed) heq
        rw [List.splitOn_append_cons_self_of_not_mem hp, List.splitOn_append_cons_self_of_not_mem hq] at hsplit
        have hline := (List.cons.inj hsplit).1
        rw [hline] at heq
        exact ⟨(List.cons.inj (List.append_cancel_left heq)).2, q, d, hline, hfits⟩
      · rintro ⟨rfl, q, d, rfl, hfits⟩
        exact ⟨Bool.eq_false_iff.mpr hstart, q, d, htail, hp, hfits⟩
    cases snapshotText_cases a hopen with
    | inl hwrong => exact absurd hwrong.1 hstart
    | inr hcases =>
        cases hcases with
        | inl hopenTail =>
            obtain ⟨-, hfeed, hsame⟩ := hopenTail
            have hkeeps : ¬ LosesLine a openLine := by
              rintro ⟨-, q, d, heq, -⟩
              exact hfeed (heq ▸ List.mem_append_right _ (List.mem_singleton_self _))
            refine iff_of_true (.inl ?_) hkeeps
            rw [hsame]
            exact (content_agrees_inside hl hdone hline hfeed (by omega) hscalar).symm
        | inr hended =>
            obtain ⟨-, p, hp, htail⟩ := hended
            rw [hlosesIff p _ hp htail]
            rw [htail] at hscalar hlong ⊢
            rw [utf8Len_append, utf8Len_lineFeed] at hlong
            have hlinep : lineFeed ∉ front ++ c :: p := by
              rw [List.mem_append, List.mem_singleton, not_or] at hline
              rw [List.mem_append, List.mem_cons, not_or, not_or]
              exact ⟨hline.1, hline.2, hp⟩
            have hassoc : ∀ s, front ++ c :: (p ++ lineFeed :: s) = (front ++ c :: p) ++ lineFeed :: s := by simp
            rw [hassoc] at hscalar ⊢
            by_cases hrest : a.snapshotText ++ openLine = []
            · rw [hrest] at hscalar hlong ⊢
              have hlonger : a.maxBytes < utf8Len (front ++ c :: p) := by
                rw [utf8Len_nil] at hlong
                rw [utf8Len_append, utf8Len_cons]
                omega
              have hcontent : (truncateTail (done ++ (front ++ c :: p ++ [lineFeed])) a.maxLines a.maxBytes).content =
                  endWithin a.maxBytes (front ++ c :: p) :=
                content_ended hl hdone hlinep hlonger fun d hd => hscalar d (List.mem_append_left _ hd)
              have hnone : (truncateTail [] a.maxLines a.maxBytes).content = [] :=
                truncateTail_within (Nat.zero_le _) (Nat.zero_le _)
              rw [hcontent, hnone, sameUpToBreak_nil fun hfeed => hlinep ((endWithin_suffix _ _).subset hfeed)]
              cases List.eq_nil_or_concat' p with
              | inl hnil =>
                  rw [hnil, utf8Len_nil] at hlong
                  rw [hnil, endWithin_eq_nil]
                  refine iff_of_true (by omega) ?_
                  rintro ⟨-, q, d, heq, -⟩
                  exact List.append_ne_nil_of_right_ne_nil q (List.cons_ne_nil d []) heq.symm
              | inr hconcat =>
                  obtain ⟨q, d, rfl⟩ := hconcat
                  have hend : front ++ c :: (q ++ [d]) = (front ++ c :: q) ++ [d] := by simp
                  rw [hend, endWithin_eq_nil, ← not_le]
                  apply not_congr
                  constructor
                  · intro hfits
                    exact ⟨rfl, q, d, rfl, hfits⟩
                  · rintro ⟨-, q', d', heq, hfits⟩
                    obtain ⟨-, hd⟩ := List.append_inj' heq rfl
                    rwa [(List.cons.inj hd).1]
            · refine iff_of_true ?_ fun hloses => hrest hloses.1
              apply content_agrees_next hdone hlinep hrest
              rw [utf8Len_append, utf8Len_cons]
              omega

/-- After any chunks, the snapshot says what truncating all of the output says, exactly unless the last line
ended and only its end was kept. -/
theorem snapshot_agrees_iff {maxLines maxBytes : Nat} (hl : 0 < maxLines) (hb : 0 < maxBytes) {chunks : List Text}
    {openLine : Text} (hopen : lineFeed ∉ openLine) (hscalar : ∀ c ∈ chunks.flatten ++ openLine, isScalar c = true) :
    Agrees (chunks.flatten ++ openLine) maxLines maxBytes
        (((Accumulator.new maxLines maxBytes).run chunks).snapshot openLine) ↔
      ¬ LosesLine ((Accumulator.new maxLines maxBytes).run chunks) openLine := by
  have hsound := run_sound (sound_new maxLines maxBytes) chunks fun c hc => hscalar c (List.mem_append_left _ hc)
  rw [List.nil_append] at hsound
  obtain ⟨hlines, hbytes⟩ := run_limits (.new maxLines maxBytes) chunks
  generalize (Accumulator.new maxLines maxBytes).run chunks = a at hsound hlines hbytes ⊢
  generalize chunks.flatten = output at hsound hscalar ⊢
  obtain rfl : a.maxLines = maxLines := hlines
  obtain rfl : a.maxBytes = maxBytes := hbytes
  obtain ⟨before, htail⟩ := hsound.tail
  rw [← content_agrees_iff htail hopen hl hb hscalar]
  constructor
  · intro h
    exact h.content
  · intro hcontent
    refine ⟨?_, ?_, hcontent, ?_⟩
    · have hcount : (output ++ openLine).count lineFeed = a.completedLines := by
        rw [List.count_append, List.count_eq_zero.mpr hopen, hsound.completedLines]
        rfl
      have hlast : output ++ openLine ≠ [] ∧ ¬ EndsLine (output ++ openLine) ↔
          a.hasOpenLine = true ∨ openLine ≠ [] := by
        rw [hsound.hasOpenLine]
        by_cases hnil : openLine = []
        · rw [hnil, List.append_nil, ne_eq, or_iff_left (not_not_intro rfl)]
        · rw [endsLine_append hnil]
          have hends : ¬ EndsLine openLine := fun hends => hopen (List.mem_of_getLast? hends)
          exact iff_of_true ⟨List.append_ne_nil_of_right_ne_nil _ hnil, hends⟩ (.inr hnil)
      rw [length_splitLines, hcount, Accumulator.snapshot]
      simp only [hlast]
    · rw [utf8Len_append, ← hsound.totalBytes]
      rfl
    · intro last c hlast hc hfits hnil
      obtain ⟨lines, hsplit⟩ := List.getLast?_eq_some_iff.mp hlast
      have hline : last ∈ splitLines (output ++ openLine) := List.mem_of_getLast? hlast
      have hchars : ∀ d ∈ last, d ∈ output ++ openLine := by
        intro d hd
        rw [joined_splitLines (output ++ openLine)]
        exact List.mem_append_left _ (mem_joined hline hd)
      have hkept := mem_truncateTail hl hsplit hc hfits fun d hd => hscalar d (hchars d hd)
      have hcontent : SameUpToBreak [] (truncateTail (output ++ openLine) a.maxLines a.maxBytes).content :=
        hnil ▸ hcontent
      rcases hcontent with hsame | hbreak | hbreak
      · rw [← hsame] at hkept
        cases hkept
      · exact absurd hbreak (List.append_ne_nil_of_right_ne_nil _ (List.cons_ne_nil _ _)).symm
      · rw [hbreak] at hkept
        obtain rfl : c = lineFeed := List.mem_singleton.mp hkept
        exact lineFeed_notMem_splitLines hline (List.mem_of_getLast? hc)

/-- The tail was cut and its last line is open. -/
theorem snapshot_agrees_iff_cut :
    Agrees ([[0x78, 0x78, 0x78, 0x78, 0x78], [0x78, lineFeed, 0x79]].flatten ++ [0x7a]) 2 1
      (((Accumulator.new 2 1).run [[0x78, 0x78, 0x78, 0x78, 0x78], [0x78, lineFeed, 0x79]]).snapshot [0x7a]) := by
  apply (snapshot_agrees_iff (by decide) (by decide) (by decide) (by simp [isScalar, lineFeed])).mpr
  rintro ⟨-, line, c, htail, -⟩
  have hlast := congrArg List.getLast? htail
  rw [List.getLast?_concat, List.getLast?_concat] at hlast
  exact absurd hlast (by decide)

/-- A line longer than the kept tail, when it ends. -/
theorem snapshot_empties_line :
    (((Accumulator.new 10 2).run [List.replicate 9 0x78 ++ [lineFeed]]).snapshot []).content = [] ∧
      (truncateTail (List.replicate 9 0x78 ++ [lineFeed]) 10 2).content = List.replicate 2 0x78 ∧
      ¬ Agrees (List.replicate 9 0x78 ++ [lineFeed]) 10 2
        (((Accumulator.new 10 2).run [List.replicate 9 0x78 ++ [lineFeed]]).snapshot []) := by
  have hempty : (((Accumulator.new 10 2).run [List.replicate 9 0x78 ++ [lineFeed]]).snapshot []).content = [] := by
    decide
  have hlast : (splitLines (List.replicate 9 0x78 ++ [lineFeed])).getLast? = some (List.replicate 9 0x78) := by
    rw [splitLines_line (by decide)]
    rfl
  refine ⟨hempty, by decide, ?_⟩
  intro h
  exact h.nonempty (List.replicate 9 0x78) 0x78 hlast (by decide) (by decide) hempty

end Avibe.Output
