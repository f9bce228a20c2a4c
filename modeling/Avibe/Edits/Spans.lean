import Avibe.Edits.Exact

/-!
# The spans that exact edits replace

Every exact match of the view is a span of the file that starts and ends at a cut, so its view is the old
text of the edit, what comes in looks like its new text, and an edit makes as many replacements as it is
counted with (`applyEdits_splice`).
-/

namespace Avibe.Edits

open Texts Splice SortOn

/-- What the model sees of a part of the file. -/
def seen (t : Text) : Text := shown (normalizeToLf t)

/-! ## Places of the view in the file -/

theorem length_view (text : Text) :
    (view text).length = (normalizeToLf (text.drop (bomLength text))).length := by
  rw [view_eq_lfView, lfView, shown, List.length_map]

theorem bomLength_le (text : Text) : bomLength text ≤ text.length := by
  cases text with
  | nil => exact Nat.le_refl _
  | cons c text =>
      rw [bomLength]
      split <;> simp

theorem cut_toOriginal {text : Text} {offset : Nat} (h : offset ≤ (view text).length) :
    Cut (text.drop (bomLength text)) (toOriginal text offset - bomLength text) offset := by
  rw [toOriginal_eq, Nat.add_sub_cancel_left]
  exact cut_posIn (length_view text ▸ h)

theorem bomLength_le_toOriginal (text : Text) (offset : Nat) : bomLength text ≤ toOriginal text offset := by
  rw [toOriginal_eq]
  exact Nat.le_add_right _ _

theorem toOriginal_le {text : Text} {offset : Nat} (h : offset ≤ (view text).length) :
    toOriginal text offset ≤ text.length := by
  have hle := (cut_toOriginal h).le
  have hbom := bomLength_le text
  rw [List.length_drop] at hle
  omega

theorem toOriginal_le_iff {text : Text} {v w : Nat} (hv : v ≤ (view text).length)
    (hw : w ≤ (view text).length) : toOriginal text v ≤ toOriginal text w ↔ v ≤ w := by
  rw [← (cut_toOriginal hv).le_iff (cut_toOriginal hw)]
  have := bomLength_le_toOriginal text v
  have := bomLength_le_toOriginal text w
  omega

theorem toOriginal_lt {text : Text} {v w : Nat} (hw : w ≤ (view text).length) (h : v < w) :
    toOriginal text v < toOriginal text w := by
  apply not_le.mp
  rw [toOriginal_le_iff hw (Nat.le_trans (Nat.le_of_lt h) hw)]
  exact not_le.mpr h

/-- A span of the view and the span of the file for it look the same. -/
theorem seen_slice {text : Text} {v w : Nat} (h : v ≤ w) (hw : w ≤ (view text).length) :
    seen (slice text (toOriginal text v) (toOriginal text w)) = slice (view text) v w := by
  have hv := Nat.le_trans h hw
  have hle := (toOriginal_le_iff hv hw).mpr h
  have hbase := bomLength_le_toOriginal text v
  have hslice : slice text (toOriginal text v) (toOriginal text w) =
      slice (text.drop (bomLength text)) (toOriginal text v - bomLength text)
        (toOriginal text w - bomLength text) :=
    (slice_drop hbase (Nat.le_trans hbase hle)).symm
  rw [seen, hslice, (cut_toOriginal hv).slice (cut_toOriginal hw) (Nat.sub_le_sub_right hle _),
    view_eq_lfView, lfView, slice, slice, shown, shown, List.map_drop, List.map_take]

/-! ## Counting -/

/-- The matches of each element of a list, counted by its position. -/
theorem countP_flatMap_zipIdx {α : Type} (f : α × Nat → List Replacement)
    (hf : ∀ e, ∀ r ∈ f e, r.editIndex = e.2) (l : List α) (start i : Nat) :
    ((l.zipIdx start).flatMap f).countP (fun r => r.editIndex = start + i) =
      (l[i]?.map fun a => (f (a, start + i)).length).getD 0 := by
  induction l generalizing start i with
  | nil => rfl
  | cons a l ih =>
      rw [List.zipIdx_cons, List.flatMap_cons, List.countP_append]
      cases i with
      | zero =>
          have hfirst : (f (a, start)).countP (fun r => r.editIndex = start + 0) = (f (a, start)).length := by
            apply List.countP_eq_length.mpr
            intro r hr
            exact decide_eq_true (hf _ r hr)
          have hlater : ((l.zipIdx (start + 1)).flatMap f).countP (fun r => r.editIndex = start + 0) = 0 := by
            apply List.countP_eq_zero.mpr
            intro r hr hindex
            obtain ⟨e, he, hr⟩ := List.mem_flatMap.mp hr
            have hlow := List.le_snd_of_mem_zipIdx he
            have hsame := (hf e r hr).symm.trans (of_decide_eq_true hindex)
            omega
          rw [hfirst, hlater]
          rfl
      | succ i =>
          have hfirst : (f (a, start)).countP (fun r => r.editIndex = start + (i + 1)) = 0 := by
            apply List.countP_eq_zero.mpr
            intro r hr hindex
            have hsame := (hf _ r hr).symm.trans (of_decide_eq_true hindex)
            dsimp only at hsame
            omega
          have hnext : start + (i + 1) = start + 1 + i := by omega
          rw [hfirst, hnext, ih, Nat.zero_add]
          rfl

/-! ## Breaks -/

/-- A line break, or none as after the last line. -/
def IsBreak (brk : Text) : Prop :=
  brk = [] ∨ brk = [lineFeed] ∨ brk = [carriageReturn] ∨ brk = [carriageReturn, lineFeed]

theorem isBreak_splitRows {t : Text} : ∀ row ∈ splitRows t, IsBreak row.brk := by
  induction t with
  | nil =>
      intro row hrow
      obtain rfl := List.mem_singleton.mp hrow
      exact .inl rfl
  | cons c t ih =>
      intro row hrow
      rw [splitRows] at hrow
      by_cases hcr : c = carriageReturn
      · rw [if_pos hcr] at hrow
        by_cases hlf : t.head? = some lineFeed
        · rw [if_pos hlf] at hrow
          cases t with
          | nil => cases hlf
          | cons d t =>
              obtain rfl : d = lineFeed := Option.some.inj hlf
              have hrows : splitRows (lineFeed :: t) = ⟨[], [lineFeed]⟩ :: splitRows t := by
                rw [splitRows, if_neg (by decide), if_pos rfl]
              rw [hrows] at hrow ih
              cases List.mem_cons.mp hrow with
              | inl hfirst =>
                  rw [hfirst, hcr]
                  exact .inr (.inr (.inr rfl))
              | inr hlater => exact ih row (List.mem_cons_of_mem _ hlater)
        · rw [if_neg hlf] at hrow
          cases List.mem_cons.mp hrow with
          | inl hfirst =>
              rw [hfirst, hcr]
              exact .inr (.inr (.inl rfl))
          | inr hlater => exact ih row hlater
      · rw [if_neg hcr] at hrow
        by_cases hlf : c = lineFeed
        · rw [if_pos hlf] at hrow
          cases List.mem_cons.mp hrow with
          | inl hfirst =>
              rw [hfirst, hlf]
              exact .inr (.inl rfl)
          | inr hlater => exact ih row hlater
        · rw [if_neg hlf] at hrow
          obtain ⟨first, rest, hrows⟩ := List.exists_cons_of_ne_nil (splitRows_ne_nil t)
          rw [hrows] at hrow ih
          cases List.mem_cons.mp hrow with
          | inl hfirst =>
              rw [hfirst]
              exact ih first List.mem_cons_self
          | inr hlater => exact ih row (List.mem_cons_of_mem _ hlater)

theorem isBreak_firstBreak (text : Text) : IsBreak (firstBreak text) := by
  rw [firstBreak]
  cases h : ((rows text).map Row.brk).find? fun brk => brk ≠ [] with
  | none => exact .inr (.inl rfl)
  | some brk =>
      obtain ⟨row, hrow, rfl⟩ := List.mem_map.mp (List.mem_of_find?_eq_some h)
      exact isBreak_splitRows row hrow

theorem firstBreak_ne_nil (text : Text) : firstBreak text ≠ [] := by
  rw [firstBreak]
  cases h : ((rows text).map Row.brk).find? fun brk => brk ≠ [] with
  | none => exact List.cons_ne_nil _ _
  | some brk =>
      have hsome := List.find?_some h
      exact of_decide_eq_true hsome

/-- The break for new text is a break. -/
theorem breakFor_spec (text : Text) (lo : Nat) : IsBreak (breakFor text lo) ∧ breakFor text lo ≠ [] := by
  rw [breakFor]
  split
  · exact ⟨isBreak_firstBreak text, firstBreak_ne_nil text⟩
  · rename_i hsome
    refine ⟨?_, hsome⟩
    cases hget : ((rows text).map Row.brk)[lineAt (starts text) lo]? with
    | none =>
        rw [List.getD_eq_getElem?_getD, hget] at hsome
        exact absurd rfl hsome
    | some brk =>
        rw [List.getD_eq_getElem?_getD, hget]
        obtain ⟨row, hrow, rfl⟩ := List.mem_map.mp (List.mem_of_getElem? hget)
        exact isBreak_splitRows row hrow

/-- A text with its line feeds turned into another break has the same view. -/
theorem normalizeToLf_substBreaks {brk t : Text} (hbrk : IsBreak brk ∧ brk ≠ []) (ht : carriageReturn ∉ t) :
    normalizeToLf (substBreaks brk [] t) = t := by
  induction t with
  | nil => rfl
  | cons c t ih =>
      have hrest := ih fun hmem => ht (List.mem_cons_of_mem _ hmem)
      have hc : c ≠ carriageReturn := fun heq => ht (heq ▸ List.mem_cons_self)
      rw [substBreaks]
      by_cases hlf : c = lineFeed
      · rw [if_pos hlf]
        rcases hbrk with ⟨rfl | rfl | rfl | rfl, hne⟩
        · exact absurd rfl hne
        · rw [List.singleton_append, normalizeToLf_lf, hrest, hlf]
        · have hhead : (substBreaks [carriageReturn] [] t).head? ≠ some lineFeed := by
            cases t with
            | nil => simp [substBreaks]
            | cons d t =>
                rw [substBreaks]
                by_cases hd : d = lineFeed
                · rw [if_pos hd]
                  intro hhead
                  cases hhead
                · rw [if_neg hd]
                  intro hhead
                  exact hd (Option.some.inj hhead)
          rw [List.singleton_append, normalizeToLf, if_pos rfl, if_neg hhead, hrest, hlf]
        · rw [List.cons_append, List.singleton_append, normalizeToLf_crlf, hrest, hlf]
      · rw [if_neg hlf, List.singleton_append, normalizeToLf, if_neg hc, hrest]

theorem normalizeToLf_withBreaks (text newText : Text) (lo : Nat) :
    normalizeToLf (withBreaks text (normalizeToLf newText) lo []) = normalizeToLf newText :=
  normalizeToLf_substBreaks (breakFor_spec text lo) (not_mem_normalizeToLf newText)

/-! ## The matches -/

section Matches

variable {text : Text} {edits : List Edit}

theorem exactMatch_spec (hne : ∀ edit ∈ edits, normalizeToLf edit.oldText ≠ []) {m : Replacement}
    (h : m ∈ exactMatches text edits) :
    ∃ edit, edits[m.editIndex]? = some edit ∧ 0 < m.length ∧
      m.index + m.length ≤ (view text).length ∧
      slice (view text) m.index (m.index + m.length) = normalizeToLf edit.oldText ∧
      m.newText = normalizeToLf edit.newText := by
  obtain ⟨⟨normal, index⟩, he, hm⟩ := List.mem_flatMap.mp h
  obtain ⟨pos, hpos, rfl⟩ := List.mem_map.mp hm
  have hget := List.mem_zipIdx_iff_getElem?.mp he
  rw [List.getElem?_map] at hget
  obtain ⟨edit, hedit, rfl⟩ := Option.map_eq_some_iff.mp hget
  have hold := hne edit (List.mem_of_getElem? hedit)
  exact ⟨edit, hedit, List.length_pos_iff.mpr hold, findAll_le hold hpos, slice_findAll hpos, rfl⟩

/-- A match of the view and its span of the file. -/
theorem spanOf_exactReplacement {m : Replacement} (h : m.index + m.length ≤ (view text).length) :
    spanOf (exactReplacement text m) = ⟨toOriginal text m.index, toOriginal text (m.index + m.length)⟩ := by
  have hle := (toOriginal_le_iff (Nat.le_of_add_right_le h) h).mpr (Nat.le_add_right _ _)
  rw [spanOf, exactReplacement, Nat.add_sub_cancel' hle]

/-- A replaced span of the file: it is not empty, the model sees the old text of its edit there, and the
new text of the edit comes in with the line break of the place. -/
theorem exactReplacement_spec (hne : ∀ edit ∈ edits, normalizeToLf edit.oldText ≠ []) {x : Replacement}
    (h : x ∈ exactReplacements text edits) :
    x.index + x.length ≤ text.length ∧ 0 < x.length ∧
      ∃ edit, edits[x.editIndex]? = some edit ∧
        seen (slice text x.index (x.index + x.length)) = normalizeToLf edit.oldText ∧
        x.newText = withBreaks text (normalizeToLf edit.newText) x.index [] ∧
        normalizeToLf x.newText = normalizeToLf edit.newText := by
  obtain ⟨m, hm, rfl⟩ := List.mem_map.mp (mem_sortOn.mp h)
  obtain ⟨edit, hedit, hpos, hle, hslice, hnew⟩ := exactMatch_spec hne hm
  have hlt := toOriginal_lt hle (Nat.lt_add_of_pos_right hpos)
  have hend : toOriginal text m.index + (toOriginal text (m.index + m.length) - toOriginal text m.index) =
      toOriginal text (m.index + m.length) := Nat.add_sub_cancel' (Nat.le_of_lt hlt)
  refine ⟨?_, Nat.sub_pos_of_lt hlt, edit, hedit, ?_, ?_, ?_⟩
  · rw [exactReplacement, hend]
    exact toOriginal_le hle
  · rw [exactReplacement, hend, seen_slice (Nat.le_add_right _ _) hle, hslice]
  · rw [exactReplacement, hnew]
  · rw [exactReplacement, hnew, normalizeToLf_withBreaks]

theorem countP_exactReplacements (i : Nat) :
    (exactReplacements text edits).countP (fun x => x.editIndex = i) =
      (edits[i]?.map fun edit => (findAll (view text) (normalizeToLf edit.oldText)).length).getD 0 := by
  rw [exactReplacements, (sortOn_perm _ _).countP_eq, List.countP_map]
  have hcount := countP_flatMap_zipIdx
    (fun e : Edit × Nat =>
      (findAll (view text) e.1.oldText).map fun pos =>
        (⟨e.2, pos, e.1.oldText.length, e.1.newText⟩ : Replacement))
    (fun e r hr => by
      obtain ⟨pos, -, rfl⟩ := List.mem_map.mp hr
      rfl)
    (edits.map normalizeEdit) 0 i
  rw [Nat.zero_add, List.getElem?_map] at hcount
  refine Eq.trans hcount ?_
  cases edits[i]? with
  | none => rfl
  | some edit => exact List.length_map _

end Matches

/-- Edits that are accepted and found exactly are a splice: disjoint spans of the file, as many for each
edit as it is counted with, each of which the model sees as the old text, are replaced by the new text with
the line breaks of the place, and the rest of the file stays as it is. Bytes survive the way to the text and
back. -/
theorem applyEdits_splice {nfkc : Text → Text} {text : Text} {edits : List Edit}
    {maxResultChars : Option Nat} {r : Edited} (h : applyEdits nfkc text edits maxResultChars = .ok r)
    (hexact : AllExact text edits) :
    (∃ replaced : List Replacement,
      Ordered text.length 0 (replaced.map spanOf) ∧
      r.counts = (List.range edits.length).map (fun i => replaced.countP fun x => x.editIndex = i) ∧
      (∀ x ∈ replaced, 0 < x.length ∧ ∃ edit, edits[x.editIndex]? = some edit ∧
        seen (slice text x.index (x.index + x.length)) = normalizeToLf edit.oldText ∧
        x.newText = withBreaks text (normalizeToLf edit.newText) x.index [] ∧
        normalizeToLf x.newText = normalizeToLf edit.newText) ∧
      text = weave (gaps text 0 (replaced.map spanOf))
        ((replaced.map spanOf).map fun s => slice text s.lo s.hi) ∧
      r.newText = weave (gaps text 0 (replaced.map spanOf)) (replaced.map Replacement.newText)) ∧
      ∀ bytes, encodeFile (decodeFile bytes) = some bytes := by
  obtain ⟨hne, hdisjoint, hnew, -, hcounts⟩ := applyEdits_exact h hexact
  have hordered : Ordered text.length 0 ((exactReplacements text edits).map spanOf) :=
    ordered_of_firstOverlap hdisjoint (fun x hx => (exactReplacement_spec hne hx).1)
      (fun _ _ => Nat.zero_le _) (Nat.zero_le _)
  refine ⟨⟨exactReplacements text edits, hordered, ?_, ?_, (weave_gaps hordered).symm, ?_⟩,
    encodeFile_decodeFile⟩
  · rw [hcounts]
    apply List.ext_getElem
    · rw [List.length_map, List.length_map, List.length_range]
    · intro i hi hi'
      rw [List.length_map] at hi
      rw [List.getElem_map, List.getElem_map, List.getElem_range, countP_exactReplacements,
        List.getElem?_eq_getElem hi]
      rfl
  · intro x hx
    exact (exactReplacement_spec hne hx).2
  · rw [hnew]
    exact applyFrom_eq_weave text 0 (exactReplacements text edits)

/-- A file with three kinds of line breaks and two edits of it, one of which is made twice. -/
theorem applyEdits_splice_mixed :
    let text : Text := [0x78, 0x0d, 0x0a, 0x79, 0x0d, 0x78, 0x0a]
    let edits : List Edit := [⟨lit "x", lit "z\n", true⟩, ⟨lit "y", [], false⟩]
    ∃ r, applyEdits id text edits none = .ok r ∧ r.counts = [2, 1] ∧
      r.newText = [0x7a, 0x0d, 0x0a, 0x0d, 0x0a, 0x0d, 0x7a, 0x0a, 0x0a] ∧
      ∃ replaced : List Replacement, Ordered text.length 0 (replaced.map spanOf) ∧
        r.counts = (List.range edits.length).map (fun i => replaced.countP fun x => x.editIndex = i) ∧
        (∀ x ∈ replaced, ∃ edit, edits[x.editIndex]? = some edit ∧
          normalizeToLf x.newText = normalizeToLf edit.newText) ∧
        r.newText = weave (gaps text 0 (replaced.map spanOf)) (replaced.map Replacement.newText) := by
  intro text edits
  have haccepted : applyEdits id text edits none = .ok ⟨[0x7a, 0x0d, 0x0a, 0x0d, 0x0a, 0x0d, 0x7a, 0x0a, 0x0a],
      lit "x\ny\nx\n", lit "z\n\n\nz\n\n", [2, 1], [(1, 1), (3, 3)]⟩ := by decide +kernel
  have hexact : AllExact text edits := by
    rw [AllExact]
    decide +kernel
  obtain ⟨⟨replaced, hordered, hcounts, hspans, -, hnew⟩, -⟩ := applyEdits_splice haccepted hexact
  refine ⟨_, haccepted, rfl, rfl, replaced, hordered, hcounts, fun x hx => ?_, hnew⟩
  obtain ⟨-, edit, hedit, -, -, hsame⟩ := hspans x hx
  exact ⟨edit, hedit, hsame⟩

end Avibe.Edits
