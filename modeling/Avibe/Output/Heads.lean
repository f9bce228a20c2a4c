import Avibe.Output.Truncate

/-!
# Heads of texts with the same first lines

Two texts that begin with the same lines, after which neither fits the caps, are truncated to the same head.
-/

namespace Avibe.Output

open Texts

variable {maxLines maxBytes : Nat}

/-- Lines after one that does not fit play no role, but for the limit that is named. -/
theorem headLoop_cut {kept front : List Text} {line : Text} (rest : List Text)
    (hover : maxBytes < utf8Len (joined (kept ++ front ++ [line]))) :
    headLoop maxBytes kept.length kept (utf8Len (joined kept)) (front ++ line :: rest) =
      { headLoop maxBytes kept.length kept (utf8Len (joined kept)) front with truncatedBy := .bytes } := by
  have hbytes : ∀ (kept : List Text) (line : Text),
      utf8Len (joined kept) + (utf8Len line + if 0 < kept.length then 1 else 0) =
        utf8Len (joined (kept ++ [line])) := by
    intro kept line
    rw [utf8Len_joined, utf8Len_joined]
    simp only [List.map_append, List.sum_append, List.length_append, List.map_singleton, List.sum_singleton,
      List.length_singleton]
    split <;> omega
  induction front generalizing kept with
  | nil =>
      rw [List.append_nil] at hover
      rw [List.nil_append, headLoop, headLoop, hbytes, if_pos hover]
  | cons first front ih =>
      rw [List.cons_append, headLoop, headLoop, hbytes]
      by_cases hfirst : maxBytes < utf8Len (joined (kept ++ [first]))
      · rw [if_pos hfirst, if_pos hfirst]
      · rw [if_neg hfirst, if_neg hfirst]
        have hnext := @ih (kept ++ [first]) (by simpa using hover)
        rw [List.length_append, List.length_singleton] at hnext
        exact hnext

/-- What is shown of a truncated text, beside its totals and the limit that it names. -/
structure SameHead (r r' : TruncationResult) : Prop where
  content : r.content = r'.content
  truncated : r.truncated = r'.truncated
  firstLineExceedsLimit : r.firstLineExceedsLimit = r'.firstLineExceedsLimit
  outputLines : r.outputLines = r'.outputLines

/-- Two texts with the same first lines, after which neither fits. -/
theorem sameHead_of_lines {content content' : Text}
    (hover : ¬ ((splitLines content).length ≤ maxLines ∧ utf8Len content ≤ maxBytes))
    (hover' : ¬ ((splitLines content').length ≤ maxLines ∧ utf8Len content' ≤ maxBytes))
    (hhead : (maxBytes < utf8Len ((splitLines content).headD []) ↔ maxBytes < utf8Len ((splitLines content').headD [])))
    (hlines : (headLoop maxBytes 0 [] 0 ((splitLines content).take maxLines)).lines =
      (headLoop maxBytes 0 [] 0 ((splitLines content').take maxLines)).lines) :
    SameHead (truncateHead content maxLines maxBytes) (truncateHead content' maxLines maxBytes) := by
  rw [truncateHead, truncateHead]
  rw [if_neg hover, if_neg hover']
  by_cases hexceeds : maxBytes < utf8Len ((splitLines content).headD [])
  · rw [if_pos hexceeds, if_pos (hhead.mp hexceeds)]
    exact ⟨rfl, rfl, rfl, rfl⟩
  · rw [if_neg hexceeds, if_neg (mt hhead.mpr hexceeds)]
    exact ⟨congrArg joined hlines, rfl, rfl, congrArg List.length hlines⟩

theorem truncatedBy_of_lines {content content' : Text}
    (hover : ¬ ((splitLines content).length ≤ maxLines ∧ utf8Len content ≤ maxBytes))
    (hover' : ¬ ((splitLines content').length ≤ maxLines ∧ utf8Len content' ≤ maxBytes))
    (hhead : (maxBytes < utf8Len ((splitLines content).headD []) ↔ maxBytes < utf8Len ((splitLines content').headD [])))
    (hloop : headLoop maxBytes 0 [] 0 ((splitLines content).take maxLines) =
      headLoop maxBytes 0 [] 0 ((splitLines content').take maxLines)) :
    (truncateHead content maxLines maxBytes).truncatedBy = (truncateHead content' maxLines maxBytes).truncatedBy := by
  rw [truncateHead, truncateHead]
  rw [if_neg hover, if_neg hover']
  by_cases hexceeds : maxBytes < utf8Len ((splitLines content).headD [])
  · rw [if_pos hexceeds, if_pos (hhead.mp hexceeds)]
  · rw [if_neg hexceeds, if_neg (mt hhead.mpr hexceeds), hloop]

/-- The lines of joined lines, from one of them on. -/
theorem splitLines_joined {front rest : List Text} (hfront : ∀ line ∈ front, lineFeed ∉ line) (hrest : rest ≠ []) :
    splitLines (joined (front ++ rest)) = front ++ splitLines (joined rest) := by
  induction front with
  | nil => rfl
  | cons line front ih =>
      have hne : front ++ rest ≠ [] := List.append_ne_nil_of_right_ne_nil _ hrest
      have hline := hfront line List.mem_cons_self
      have hends : EndsLine (line ++ [lineFeed]) := List.getLast?_concat
      have hassoc : line ++ lineFeed :: joined (front ++ rest) = line ++ [lineFeed] ++ joined (front ++ rest) := by simp
      rw [List.cons_append, joined_cons hne, hassoc, splitLines_append hends, splitLines_line hline,
        ih fun next hnext => hfront next (List.mem_cons_of_mem _ hnext)]
      rfl

/-- The first of joined lines is the first line of the text, which is empty if there is only an empty line. -/
theorem splitLines_joined_cons {line : Text} (lines : List Text) (hline : lineFeed ∉ line) :
    (∃ rest, splitLines (joined (line :: lines)) = line :: rest) ∨
      line = [] ∧ lines = [] ∧ splitLines (joined (line :: lines)) = [] := by
  cases lines with
  | nil =>
      rw [joined_singleton]
      by_cases hnil : line = []
      · exact .inr ⟨hnil, rfl, splitLines_eq_nil.mpr hnil⟩
      · exact .inl ⟨[], splitLines_open hline hnil⟩
  | cons next lines =>
      have hsplit : splitLines (joined ([line] ++ next :: lines)) = [line] ++ splitLines (joined (next :: lines)) :=
        splitLines_joined (fun l hl => List.mem_singleton.mp hl ▸ hline) (List.cons_ne_nil _ _)
      exact .inl ⟨_, hsplit⟩

theorem headD_splitLines_joined {line : Text} (lines : List Text) (hline : lineFeed ∉ line) :
    (splitLines (joined (line :: lines))).headD [] = line := by
  cases splitLines_joined_cons lines hline with
  | inl hfirst =>
      obtain ⟨rest, hrest⟩ := hfirst
      rw [hrest]
      rfl
  | inr hnone =>
      rw [hnone.2.2, hnone.1]
      rfl

theorem isPrefix_splitLines_joined {lines : List Text} (hlines : ∀ line ∈ lines, lineFeed ∉ line) :
    splitLines (joined lines) <+: lines := by
  rcases List.eq_nil_or_concat' lines with rfl | ⟨front, last, rfl⟩
  · exact List.nil_prefix
  · have hfront : ∀ line ∈ front, lineFeed ∉ line := fun line hline => hlines line (List.mem_append_left _ hline)
    have hlast := hlines last (List.mem_append_right _ (List.mem_singleton_self _))
    rw [splitLines_joined hfront (List.cons_ne_nil _ _), joined_singleton]
    apply (List.prefix_append_right_inj _).mpr
    by_cases hnil : last = []
    · rw [splitLines_eq_nil.mpr hnil]
      exact List.nil_prefix
    · exact (splitLines_open hlast hnil).symm ▸ List.prefix_refl [last]

/-- What is shown of joined lines: nothing if the first is too long, some first lines, or all. -/
theorem truncateHead_joined (hl : 0 < maxLines) {first : Text} {lines : List Text}
    (hlines : ∀ line ∈ first :: lines, lineFeed ∉ line) {r : TruncationResult}
    (hr : r = truncateHead (joined (first :: lines)) maxLines maxBytes) :
    (r.firstLineExceedsLimit = true ∧ maxBytes < utf8Len first) ∨
    (r.firstLineExceedsLimit = false ∧ r.truncated = true ∧ 0 < r.outputLines ∧
      r.outputLines < (first :: lines).length ∧ r.content = joined ((first :: lines).take r.outputLines)) ∨
    (r.firstLineExceedsLimit = false ∧ r.truncated = false ∧ r.content = joined (first :: lines)) := by
  have hprefix := isPrefix_splitLines_joined hlines
  have hhead := headD_splitLines_joined lines (hlines first List.mem_cons_self)
  by_cases hwithin : (splitLines (joined (first :: lines))).length ≤ maxLines ∧
      utf8Len (joined (first :: lines)) ≤ maxBytes
  · right; right
    rw [truncateHead, if_pos hwithin] at hr
    rw [hr]
    exact ⟨rfl, rfl, rfl⟩
  · by_cases hexceeds : maxBytes < utf8Len ((splitLines (joined (first :: lines))).headD [])
    · left
      rw [truncateHead, if_neg hwithin, if_pos hexceeds] at hr
      rw [hr]
      exact ⟨rfl, hhead ▸ hexceeds⟩
    · right; left
      rw [truncateHead, if_neg hwithin, if_neg hexceeds] at hr
      obtain ⟨fit, later, hsplit, hloop, hfits, hover⟩ :=
        headLoop_spec [] ((splitLines (joined (first :: lines))).take maxLines) (Nat.zero_le maxBytes)
      rw [List.nil_append] at hloop hfits
      have hzero : headLoop maxBytes 0 [] 0 ((splitLines (joined (first :: lines))).take maxLines) =
          ⟨fit, utf8Len (joined fit), if later = [] then .lines else .bytes⟩ := hloop
      dsimp only at hr
      rw [hzero] at hr
      have hfit : fit <+: first :: lines := by
        have htake := (List.take_prefix maxLines (splitLines (joined (first :: lines)))).trans hprefix
        rw [hsplit] at htake
        exact (List.prefix_append _ _).trans htake
      have hcount : fit.length ≤ maxLines := by
        have hle := congrArg List.length hsplit
        rw [List.length_take, List.length_append] at hle
        omega
      rw [hr]
      refine ⟨rfl, rfl, ?_, ?_, ?_⟩
      · apply List.length_pos_of_ne_nil
        rintro rfl
        rw [List.nil_append] at hsplit
        cases hparts : splitLines (joined (first :: lines)) with
        | nil =>
            refine hwithin ⟨hparts ▸ Nat.zero_le _, ?_⟩
            rw [splitLines_eq_nil.mp hparts]
            exact Nat.zero_le _
        | cons line rest =>
            rw [hparts] at hsplit hexceeds
            obtain ⟨count, rfl⟩ := Nat.exists_eq_succ_of_ne_zero (Nat.ne_of_gt hl)
            rw [List.take_succ_cons] at hsplit
            have hlong := hover line (by rw [← hsplit]; rfl)
            exact hexceeds (by simpa using hlong)
      · apply lt_of_le_of_ne hfit.length_le
        intro hall
        have hwhole : fit = first :: lines := hfit.eq_of_length hall
        exact hwithin ⟨le_trans hprefix.length_le (hwhole ▸ hcount), hwhole ▸ hfits⟩
      · exact congrArg joined (List.prefix_iff_eq_take.mp hfit)

end Avibe.Output
