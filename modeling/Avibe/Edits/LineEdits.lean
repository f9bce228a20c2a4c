import Avibe.Edits.Groups
import Avibe.Edits.Spans

/-!
# Edits of lines

An edit that matches in the normalized view rewrites the lines it touches. What accepted edits leave of the
other lines, and of the lines they rewrite (`applyEdits_lines`).
-/

namespace Avibe.Edits

open Texts Splice SortOn

/-! ## Rows of the file -/

def Row.text (row : Row) : Text := row.content ++ row.brk

/-- A line with a line feed for its break. -/
def Row.lf (row : Row) : Text := row.content ++ if row.brk = [] then [] else [lineFeed]

theorem flatMap_text_splitRows (t : Text) : (splitRows t).flatMap Row.text = t := by
  induction t with
  | nil => rfl
  | cons c t ih =>
      obtain ⟨row, rows, hrows⟩ := List.exists_cons_of_ne_nil (splitRows_ne_nil t)
      rw [splitRows]
      split
      · split
        · rename_i hlf
          cases t with
          | nil => cases hlf
          | cons d t =>
              obtain rfl : d = lineFeed := Option.some.inj hlf
              have hbreak : splitRows (lineFeed :: t) = ⟨[], [lineFeed]⟩ :: splitRows t := by
                rw [splitRows, if_neg (by decide), if_pos rfl]
              rw [hbreak] at ih ⊢
              exact congrArg (c :: ·) ih
        · exact congrArg (c :: ·) ih
      · split
        · exact congrArg (c :: ·) ih
        · rw [hrows] at ih ⊢
          exact congrArg (c :: ·) ih

theorem splitRows_spec (t : Text) :
    (∀ row ∈ splitRows t, lineFeed ∉ row.content) ∧ ∀ row ∈ (splitRows t).dropLast, row.brk ≠ [] := by
  induction t with
  | nil =>
      constructor
      · intro row hrow
        obtain rfl := List.mem_singleton.mp hrow
        exact List.not_mem_nil
      · exact fun row hrow => absurd hrow List.not_mem_nil
  | cons c t ih =>
      obtain ⟨hcontent, hbreaks⟩ := ih
      obtain ⟨row, rows, hrows⟩ := List.exists_cons_of_ne_nil (splitRows_ne_nil t)
      have hpush : (∀ row ∈ (⟨[], [c]⟩ :: splitRows t : List Row), lineFeed ∉ row.content) ∧
          ∀ row ∈ (⟨[], [c]⟩ :: splitRows t : List Row).dropLast, row.brk ≠ [] := by
        rw [hrows] at hcontent hbreaks ⊢
        constructor
        · intro r hr
          cases List.mem_cons.mp hr with
          | inl hfirst => exact hfirst ▸ List.not_mem_nil
          | inr hlater => exact hcontent r hlater
        · intro r hr
          rw [List.dropLast_cons_cons] at hr
          cases List.mem_cons.mp hr with
          | inl hfirst => exact hfirst ▸ List.cons_ne_nil _ _
          | inr hlater => exact hbreaks r hlater
      rw [splitRows]
      split
      · split
        · rw [hrows] at hcontent hbreaks ⊢
          constructor
          · intro r hr
            cases List.mem_cons.mp hr with
            | inl hfirst => exact hfirst ▸ hcontent row List.mem_cons_self
            | inr hlater => exact hcontent r (List.mem_cons_of_mem _ hlater)
          · intro r hr
            cases rows with
            | nil => cases hr
            | cons next rows =>
                rw [onFirstRow, List.dropLast_cons_cons] at hr
                cases List.mem_cons.mp hr with
                | inl hfirst => exact hfirst ▸ List.cons_ne_nil _ _
                | inr hlater => exact hbreaks r (List.mem_cons_of_mem _ hlater)
        · exact hpush
      · split
        · exact hpush
        · rename_i hlf
          rw [hrows] at hcontent hbreaks ⊢
          constructor
          · intro r hr
            cases List.mem_cons.mp hr with
            | inl hfirst =>
                rw [hfirst]
                exact List.not_mem_cons_of_ne_of_not_mem (Ne.symm hlf) (hcontent row List.mem_cons_self)
            | inr hlater => exact hcontent r (List.mem_cons_of_mem _ hlater)
          · intro r hr
            cases rows with
            | nil => cases hr
            | cons next rows =>
                rw [onFirstRow, List.dropLast_cons_cons] at hr
                cases List.mem_cons.mp hr with
                | inl hfirst =>
                    rw [hfirst]
                    exact hbreaks row List.mem_cons_self
                | inr hlater => exact hbreaks r (List.mem_cons_of_mem _ hlater)

/-- Where a line of the file starts; past the last one, where the file ends. -/
def fileAt (text : Text) (line : Nat) : Nat :=
  bomLength text + (((rows text).take line).flatMap Row.text).length

theorem offsets_getElem? (rows : List Row) (pos line : Nat) :
    (offsets fileSize pos rows)[line]? =
      if line < rows.length then some (pos + ((rows.take line).flatMap Row.text).length) else none := by
  induction rows generalizing pos line with
  | nil => rfl
  | cons row rows ih =>
      cases line with
      | zero => rfl
      | succ line =>
          rw [offsets, List.getElem?_cons_succ, ih]
          simp only [List.length_cons, Nat.add_lt_add_iff_right, List.take_succ_cons, List.flatMap_cons,
            List.length_append, Row.text, fileSize, Nat.add_assoc]

theorem length_starts (text : Text) : (starts text).length = (rows text).length := by
  have hlength : ∀ (rows : List Row) (pos : Nat), (offsets fileSize pos rows).length = rows.length := by
    intro rows
    induction rows with
    | nil => exact fun _ => rfl
    | cons row rows ih => exact fun pos => congrArg (· + 1) (ih _)
  exact hlength _ _

theorem starts_getElem {text : Text} {line : Nat} (h : line < (starts text).length) :
    (starts text)[line] = fileAt text line := by
  have hget := offsets_getElem? (rows text) (bomLength text) line
  rw [if_pos (length_starts text ▸ h)] at hget
  exact Option.some.inj ((List.getElem?_eq_getElem h).symm.trans hget)

theorem take_bom_append_rows (text : Text) :
    text.take (bomLength text) ++ (rows text).flatMap Row.text = text := by
  rw [rows, flatMap_text_splitRows, List.take_append_drop]

theorem fileAt_length (text : Text) : fileAt text (rows text).length = text.length := by
  rw [fileAt, List.take_length]
  conv_rhs => rw [← take_bom_append_rows text, List.length_append, List.length_take,
    Nat.min_eq_left (bomLength_le text)]

theorem lineEnd_eq {text : Text} {line : Nat} (h : line < (rows text).length) :
    lineEnd text line = fileAt text (line + 1) := by
  rw [lineEnd, List.getD_eq_getElem?_getD]
  by_cases hnext : line + 1 < (starts text).length
  · rw [List.getElem?_eq_getElem hnext, starts_getElem]
    rfl
  · rw [List.getElem?_eq_none (not_lt.mp hnext)]
    rw [length_starts] at hnext
    obtain hlast : line + 1 = (rows text).length := by omega
    rw [hlast, fileAt_length]
    rfl

theorem starts_getD {text : Text} {line : Nat} (h : line < (rows text).length) (d : Nat) :
    (starts text).getD line d = fileAt text line := by
  rw [← length_starts] at h
  rw [List.getD_eq_getElem?_getD, List.getElem?_eq_getElem h, starts_getElem]
  rfl

theorem fileAt_mono (text : Text) {a b : Nat} (h : a ≤ b) : fileAt text a ≤ fileAt text b := by
  apply Nat.add_le_add_left
  obtain ⟨rest, hrest⟩ : (rows text).take a <+: (rows text).take b := List.take_prefix_take_left h
  rw [← hrest, List.flatMap_append, List.length_append]
  exact Nat.le_add_right _ _

theorem fileAt_le (text : Text) (line : Nat) : fileAt text line ≤ text.length := by
  rw [← fileAt_length]
  cases Nat.le_total line (rows text).length with
  | inl hle => exact fileAt_mono text hle
  | inr hge =>
      rw [fileAt, List.take_of_length_le hge, fileAt, List.take_length]

/-- Some lines of the file are the text from where they start to where they end. -/
theorem slice_fileAt (text : Text) {a b : Nat} (h : a ≤ b) :
    slice text (fileAt text a) (fileAt text b) = (slice (rows text) a b).flatMap Row.text := by
  have htake : ∀ line, text.take (fileAt text line) =
      text.take (bomLength text) ++ ((rows text).take line).flatMap Row.text := by
    intro line
    have hsplit : text.take (bomLength text) ++ ((rows text).take line).flatMap Row.text ++
        ((rows text).drop line).flatMap Row.text = text := by
      rw [List.append_assoc, ← List.flatMap_append, List.take_append_drop, take_bom_append_rows]
    have hlength : (text.take (bomLength text) ++ ((rows text).take line).flatMap Row.text).length =
        fileAt text line := by
      rw [List.length_append, List.length_take, Nat.min_eq_left (bomLength_le text), fileAt]
    exact (congrArg (List.take _) hsplit.symm).trans (List.take_left' hlength)
  have hrows : (rows text).take b = (rows text).take a ++ slice (rows text) a b := by
    conv_lhs => rw [← List.take_append_drop a ((rows text).take b)]
    rw [List.take_take, Nat.min_eq_left h]
    rfl
  rw [slice, htake, hrows, List.flatMap_append, ← List.append_assoc]
  apply List.drop_left'
  rw [List.length_append, List.length_take, Nat.min_eq_left (bomLength_le text), fileAt]

theorem starts_pairwise (text : Text) : (starts text).Pairwise (· < ·) := by
  have hoffsets : ∀ (rows : List Row) (pos : Nat), (∀ row ∈ rows.dropLast, row.brk ≠ []) →
      (offsets fileSize pos rows).Pairwise (· < ·) ∧ ∀ a ∈ (offsets fileSize pos rows).tail, pos < a := by
    intro rows
    induction rows with
    | nil => exact fun _ _ => ⟨List.Pairwise.nil, fun a ha => absurd ha List.not_mem_nil⟩
    | cons row rows ih =>
        intro pos hbreaks
        cases rows with
        | nil => exact ⟨List.pairwise_singleton _ _, fun a ha => absurd ha List.not_mem_nil⟩
        | cons next rows =>
            rw [List.dropLast_cons_cons] at hbreaks
            obtain ⟨hlater, htail⟩ := ih (pos + fileSize row) fun r hr =>
              hbreaks r (List.mem_cons_of_mem _ hr)
            have hsize : pos < pos + fileSize row := by
              have hbrk := List.length_pos_iff.mpr (hbreaks row List.mem_cons_self)
              rw [fileSize]
              omega
            have hall : ∀ a ∈ offsets fileSize (pos + fileSize row) (next :: rows), pos < a := by
              intro a ha
              cases List.mem_cons.mp ha with
              | inl heq => exact heq ▸ hsize
              | inr hmore => exact Nat.lt_trans hsize (htail a hmore)
            exact ⟨List.Pairwise.cons hall hlater, hall⟩
  exact (hoffsets _ _ (splitRows_spec _).2).1

/-! ## Breaks of rewritten lines -/

theorem substBreaks_append (fallback : Text) (own : List Text) (t u : Text) :
    substBreaks fallback own (t ++ u) =
      substBreaks fallback own t ++ substBreaks fallback (own.drop (t.count lineFeed)) u := by
  induction t generalizing own with
  | nil =>
      cases own with
      | nil => rfl
      | cons brk own => rfl
  | cons c t ih =>
      cases own with
      | nil => rw [List.cons_append, substBreaks, substBreaks, ih, List.drop_nil, List.drop_nil, List.append_assoc]
      | cons brk own =>
          rw [List.cons_append, substBreaks, substBreaks]
          by_cases hc : c = lineFeed
          · rw [if_pos hc, if_pos hc, ih, hc, List.count_cons_self, List.drop_succ_cons, List.append_assoc]
          · rw [if_neg hc, if_neg hc, ih, List.count_cons_of_ne hc]
            rfl

theorem substBreaks_inline (fallback : Text) (own : List Text) {t : Text} (h : lineFeed ∉ t) :
    substBreaks fallback own t = t := by
  induction t with
  | nil =>
      cases own with
      | nil => rfl
      | cons brk own => rfl
  | cons c t ih =>
      have hc : c ≠ lineFeed := fun heq => h (heq ▸ List.mem_cons_self)
      have hrest := ih fun hmem => h (List.mem_cons_of_mem _ hmem)
      cases own with
      | nil => rw [substBreaks, if_neg hc, hrest, List.singleton_append]
      | cons brk own => rw [substBreaks, if_neg hc, hrest]

/-- Lines with line feeds and their own breaks put back are the lines of the file. -/
theorem substBreaks_rows (fallback : Text) {rows : List Row} (hcontent : ∀ row ∈ rows, lineFeed ∉ row.content)
    (hbreaks : ∀ row ∈ rows.dropLast, row.brk ≠ []) :
    substBreaks fallback (rows.map Row.brk) (rows.flatMap Row.lf) = rows.flatMap Row.text := by
  induction rows with
  | nil => rfl
  | cons row rows ih =>
      have hrow := hcontent row List.mem_cons_self
      have hcount : row.content.count lineFeed = 0 := List.count_eq_zero.mpr hrow
      rw [List.flatMap_cons, List.flatMap_cons, Row.lf, List.append_assoc, substBreaks_append,
        substBreaks_inline _ _ hrow, hcount, List.drop_zero, Row.text, List.append_assoc, List.map_cons]
      congr 1
      cases rows with
      | nil =>
          by_cases hbrk : row.brk = []
          · rw [if_pos hbrk, hbrk]
            rfl
          · rw [if_neg hbrk, List.flatMap_nil, List.append_nil, substBreaks, if_pos rfl, if_neg hbrk]
            rfl
      | cons next rows =>
          rw [List.dropLast_cons_cons] at hbreaks
          have hbrk := hbreaks row List.mem_cons_self
          have hrest := ih (fun r hr => hcontent r (List.mem_cons_of_mem _ hr))
            fun r hr => hbreaks r (List.mem_cons_of_mem _ hr)
          rw [if_neg hbrk, List.singleton_append, substBreaks, if_pos rfl, if_neg hbrk, hrest]

end Avibe.Edits
