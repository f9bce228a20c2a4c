import Avibe.Lib.Splice
import Avibe.Lib.Texts

/-!
# The lines of a file and its view

An edit is matched in a view of the file, in which every line break is a line feed, every undecodable
byte is a replacement character and a leading byte order mark is left out. `toOriginal` maps an offset of
the view back to the file; it never falls inside a line break (`cut_toOriginal`).
-/

namespace Avibe.Edits

open Texts Splice

def bom : CodePoint := 0xfeff

/-- A text as the model sees it: one replacement character for an undecodable byte. -/
def shown (t : Text) : Text := t.map fun c => if 0xdc80 ≤ c.val ∧ c.val < 0xdd00 then 0xfffd else c

/-- A line and its break, which is empty for the last one. -/
structure Row where
  content : Text
  brk : Text
deriving DecidableEq

/-- The first row with more before its content or its break. -/
def onFirstRow (f : Row → Row) : List Row → List Row
  | [] => []
  | row :: rows => f row :: rows

def splitRows : Text → List Row
  | [] => [⟨[], []⟩]
  | c :: rest =>
      if c = carriageReturn then
        if rest.head? = some lineFeed then
          onFirstRow (fun row => { row with brk := c :: row.brk }) (splitRows rest)
        else ⟨[], [c]⟩ :: splitRows rest
      else if c = lineFeed then ⟨[], [c]⟩ :: splitRows rest
      else onFirstRow (fun row => { row with content := c :: row.content }) (splitRows rest)

/-- The length of the byte order mark. -/
def bomLength (text : Text) : Nat := if text.head? = some bom then 1 else 0

def rows (text : Text) : List Row := splitRows (text.drop (bomLength text))

/-- What the file looks like to the model. -/
def view (text : Text) : Text := shown ([lineFeed].intercalate ((rows text).map Row.content))

/-- The view of a text without its lines. -/
def lfView (text : Text) : Text := shown (normalizeToLf (text.drop (bomLength text)))

/-- Where each row starts, for a measure of rows. -/
def offsets (measure : Row → Nat) : Nat → List Row → List Nat
  | _, [] => []
  | pos, row :: rows => pos :: offsets measure (pos + measure row) rows

def viewSize (row : Row) : Nat := row.content.length + 1

def fileSize (row : Row) : Nat := row.content.length + row.brk.length

def viewStarts (text : Text) : List Nat := offsets viewSize 0 (rows text)

def starts (text : Text) : List Nat := offsets fileSize (bomLength text) (rows text)

/-- The line of an offset, by a search in where the lines start. -/
def lineAt (starts : List Nat) (offset : Nat) : Nat := starts.countP (· ≤ offset) - 1

def toOriginal (text : Text) (offset : Nat) : Nat :=
  let line := lineAt (viewStarts text) offset
  (starts text).getD line 0 + (offset - (viewStarts text).getD line 0)

/-- The offset past a line and its break. -/
def lineEnd (text : Text) (line : Nat) : Nat := (starts text).getD (line + 1) text.length

def firstBreak (text : Text) : Text :=
  (((rows text).map Row.brk).find? fun brk => brk ≠ []).getD [lineFeed]

/-- The break that new text uses for a span that starts at an offset. -/
def breakFor (text : Text) (lo : Nat) : Text :=
  let brk := ((rows text).map Row.brk).getD (lineAt (starts text) lo) []
  if brk = [] then firstBreak text else brk

/-- A text with its line feeds turned into the breaks of some lines, then into one break. -/
def substBreaks (fallback : Text) : List Text → Text → Text
  | _, [] => []
  | [], c :: rest =>
      (if c = lineFeed then fallback else [c]) ++ substBreaks fallback [] rest
  | brk :: own, c :: rest =>
      if c = lineFeed then
        (if brk = [] then fallback else brk) ++ substBreaks fallback own rest
      else c :: substBreaks fallback (brk :: own) rest

def withBreaks (text lfText : Text) (lo : Nat) (own : List Text) : Text :=
  substBreaks (breakFor text lo) own lfText

/-! ## Rows -/

theorem splitRows_ne_nil (t : Text) : splitRows t ≠ [] := by
  induction t with
  | nil => exact List.cons_ne_nil _ _
  | cons c t ih =>
      obtain ⟨row, rows, hrows⟩ := List.exists_cons_of_ne_nil ih
      rw [splitRows, hrows]
      split
      · split <;> exact List.cons_ne_nil _ _
      · split <;> exact List.cons_ne_nil _ _

/-- The contents of the rows joined by line feeds. -/
def joinContents (rows : List Row) : Text := [lineFeed].intercalate (rows.map Row.content)

theorem joinContents_cons {row : Row} {rows : List Row} (h : rows ≠ []) :
    joinContents (row :: rows) = row.content ++ lineFeed :: joinContents rows := by
  obtain ⟨next, rows, rfl⟩ := List.exists_cons_of_ne_nil h
  rfl

theorem joinContents_splitRows (t : Text) : joinContents (splitRows t) = normalizeToLf t := by
  induction t with
  | nil => rfl
  | cons c t ih =>
      rw [splitRows, normalizeToLf, ← ih]
      obtain ⟨row, rows, hrows⟩ := List.exists_cons_of_ne_nil (splitRows_ne_nil t)
      have hcontent : ∀ d, joinContents (onFirstRow (fun row => { row with content := d :: row.content })
          (splitRows t)) = d :: joinContents (splitRows t) := by
        intro d
        rw [hrows]
        cases rows <;> rfl
      split
      · split
        · rw [hrows]
          cases rows <;> rfl
        · rw [joinContents_cons (splitRows_ne_nil t)]
          rfl
      · split
        · rename_i hlf
          rw [joinContents_cons (splitRows_ne_nil t), hlf]
          rfl
        · exact hcontent c

theorem view_eq_lfView (text : Text) : view text = lfView text := by
  rw [view, lfView, ← joinContents_splitRows]
  rfl

/-! ## Offsets -/

/-- An offset of the view in the text of some rows. -/
def posIn : List Row → Nat → Nat
  | [], offset => offset
  | [_], offset => offset
  | row :: rows, offset =>
      if offset ≤ row.content.length then offset
      else fileSize row + posIn rows (offset - viewSize row)

theorem posIn_cons {row : Row} {rows : List Row} (h : rows ≠ []) (offset : Nat) :
    posIn (row :: rows) offset = if offset ≤ row.content.length then offset
      else fileSize row + posIn rows (offset - viewSize row) := by
  obtain ⟨next, rows, rfl⟩ := List.exists_cons_of_ne_nil h
  rfl

theorem countP_offsets {measure : Row → Nat} {pos offset : Nat} (rows : List Row) (h : offset < pos) :
    (offsets measure pos rows).countP (· ≤ offset) = 0 := by
  induction rows generalizing pos with
  | nil => rfl
  | cons row rows ih =>
      rw [offsets, List.countP_cons_of_neg (by simpa using h), ih (by omega)]

/-- The search in the starts of the lines finds the offset in the rows. -/
theorem lookup_eq_posIn (rows : List Row) (base pos offset : Nat) (hne : rows ≠ []) :
    let line := lineAt (offsets viewSize base rows) (base + offset)
    (offsets fileSize pos rows).getD line 0 + (base + offset - (offsets viewSize base rows).getD line 0) =
      pos + posIn rows offset := by
  induction rows generalizing base pos offset with
  | nil => exact absurd rfl hne
  | cons row rows ih =>
      have hcount : (offsets viewSize base (row :: rows)).countP (· ≤ base + offset) =
          (offsets viewSize (base + viewSize row) rows).countP (· ≤ base + offset) + 1 := by
        rw [offsets, List.countP_cons_of_pos (by simp)]
      simp only [lineAt, hcount, Nat.add_sub_cancel]
      cases rows with
      | nil => simp [offsets, posIn]
      | cons next rows =>
          by_cases hin : offset ≤ row.content.length
          · rw [countP_offsets _ (by rw [viewSize]; omega), posIn_cons (List.cons_ne_nil _ _), if_pos hin]
            simp [offsets]
          · have hlater : base + offset = base + viewSize row + (offset - viewSize row) := by
              rw [viewSize]
              omega
            have hsome : 0 < (offsets viewSize (base + viewSize row) (next :: rows)).countP
                (· ≤ base + offset) := by
              rw [offsets, List.countP_cons_of_pos (by rw [viewSize]; simp; omega)]
              exact Nat.succ_pos _
            have hih := ih (base + viewSize row) (pos + fileSize row) (offset - viewSize row)
              (List.cons_ne_nil _ _)
            rw [posIn_cons (List.cons_ne_nil _ _), if_neg hin]
            obtain ⟨line, hline⟩ := Nat.exists_eq_succ_of_ne_zero hsome.ne'
            simp only [lineAt, ← hlater, hline, Nat.succ_sub_one] at hih
            rw [hline, ← Nat.add_assoc, ← hih]
            rfl

theorem toOriginal_eq (text : Text) (offset : Nat) :
    toOriginal text offset = bomLength text + posIn (rows text) offset := by
  have h := lookup_eq_posIn (rows text) 0 (bomLength text) offset (splitRows_ne_nil _)
  rw [Nat.zero_add] at h
  exact h

/-! ## Cuts -/

/-- A place in a text that is not inside a line break, and its offset in the normalized text. -/
structure Cut (t : Text) (pos offset : Nat) : Prop where
  le : pos ≤ t.length
  length : (normalizeToLf (t.take pos)).length = offset
  clean : ¬ Seam (t.take pos) (t.drop pos)

theorem Cut.normalize {t : Text} {pos offset : Nat} (h : Cut t pos offset) :
    normalizeToLf t = normalizeToLf (t.take pos) ++ normalizeToLf (t.drop pos) := by
  rw [← normalizeToLf_append h.clean, List.take_append_drop]

theorem Cut.drop {t : Text} {pos offset : Nat} (h : Cut t pos offset) :
    normalizeToLf (t.drop pos) = (normalizeToLf t).drop offset := by
  rw [h.normalize, ← h.length, List.drop_left]

theorem Cut.take {t : Text} {pos offset : Nat} (h : Cut t pos offset) :
    normalizeToLf (t.take pos) = (normalizeToLf t).take offset := by
  rw [h.normalize, ← h.length, List.take_left]

/-- A cut of a text is a cut of a head of it. -/
theorem Cut.inside {t : Text} {p q v : Nat} (h : Cut t p v) (hpq : p ≤ q) : Cut (t.take q) p v := by
  have htake : (t.take q).take p = t.take p := by rw [List.take_take, Nat.min_eq_left hpq]
  refine ⟨?_, htake ▸ h.length, fun hseam => h.clean ⟨htake ▸ hseam.1, ?_⟩⟩
  · rw [List.length_take]
    exact Nat.le_min.mpr ⟨hpq, h.le⟩
  · have hhead := hseam.2
    rw [List.drop_take] at hhead
    rw [← List.take_append_drop (q - p) (t.drop p), List.head?_append, hhead]
    rfl

theorem Cut.slice {t : Text} {p q v w : Nat} (h : Cut t p v) (h' : Cut t q w) (hpq : p ≤ q) :
    normalizeToLf (slice t p q) = slice (normalizeToLf t) v w := by
  rw [Splice.slice, (h.inside hpq).drop, h'.take, Splice.slice]

theorem Cut.lt {t : Text} {p q v w : Nat} (h : Cut t p v) (h' : Cut t q w) (hpq : p < q) : v < w := by
  have hlength := congrArg List.length (h.slice h' (Nat.le_of_lt hpq))
  have hpos : normalizeToLf (Splice.slice t p q) ≠ [] := by
    intro hnil
    have hslice := congrArg List.length (normalizeToLf_eq_nil.mp hnil)
    rw [length_slice h'.le, List.length_nil] at hslice
    omega
  have := List.length_pos_iff.mpr hpos
  rw [hlength, Splice.slice, List.length_drop, List.length_take] at this
  omega

theorem Cut.le_iff {t : Text} {p q v w : Nat} (h : Cut t p v) (h' : Cut t q w) : p ≤ q ↔ v ≤ w := by
  constructor
  · intro hle
    cases Nat.lt_or_eq_of_le hle with
    | inl hlt => exact Nat.le_of_lt (h.lt h' hlt)
    | inr heq =>
        subst heq
        exact Nat.le_of_eq (h.length.symm.trans h'.length)
  · intro hle
    by_contra hgt
    exact absurd (h'.lt h (not_le.mp hgt)) (not_lt.mpr hle)

theorem cut_zero (t : Text) : Cut t 0 0 := ⟨Nat.zero_le _, rfl, fun hseam => by cases hseam.1⟩

theorem cut_cons {c : CodePoint} {t : Text} {pos offset : Nat} (h : Cut t pos offset)
    (hc : c ≠ carriageReturn ∨ t.head? ≠ some lineFeed) : Cut (c :: t) (pos + 1) (offset + 1) := by
  have hseam : ¬ Seam [c] (t.take pos) := by
    intro hseam
    have hlast : c = carriageReturn := Option.some.inj hseam.1
    apply (hc.resolve_left (not_not.mpr hlast))
    rw [← List.take_append_drop pos t, List.head?_append, hseam.2]
    rfl
  have hlength : (normalizeToLf [c]).length = 1 := by
    rw [normalizeToLf]
    split <;> rfl
  refine ⟨Nat.succ_le_succ h.le, ?_, fun hbad => ?_⟩
  · rw [List.take_succ_cons, ← List.singleton_append, normalizeToLf_append hseam, List.length_append,
      h.length, hlength, Nat.add_comm]
  · rw [List.take_succ_cons, List.drop_succ_cons] at hbad
    cases htake : t.take pos with
    | nil =>
        rw [htake] at hbad
        have hlast : c = carriageReturn := Option.some.inj hbad.1
        apply (hc.resolve_left (not_not.mpr hlast))
        rw [← List.take_append_drop pos t, htake]
        exact hbad.2
    | cons d u =>
        rw [htake, Seam, List.getLast?_cons_cons] at hbad
        exact h.clean (htake ▸ hbad)

/-- With a carriage return before its first line feed a text has its cuts one further. -/
theorem cut_crlf {t : Text} {pos offset : Nat} (h : Cut t pos (offset + 1))
    (hlf : t.head? = some lineFeed) : Cut (carriageReturn :: t) (pos + 1) (offset + 1) := by
  cases pos with
  | zero => cases h.length
  | succ pos =>
      cases t with
      | nil => cases hlf
      | cons d t =>
          have hhead : ((d :: t).take (pos + 1)).head? = some lineFeed := hlf
          refine ⟨Nat.succ_le_succ h.le, ?_, fun hbad => h.clean ?_⟩
          · rw [List.take_succ_cons, normalizeToLf, if_pos rfl, if_pos hhead, h.length]
          · rw [List.take_succ_cons, List.drop_succ_cons] at hbad
            exact ⟨by rw [← hbad.1]; rfl, hbad.2⟩

theorem posIn_zero {rows : List Row} (h : rows ≠ []) : posIn rows 0 = 0 := by
  obtain ⟨row, rows, rfl⟩ := List.exists_cons_of_ne_nil h
  cases rows with
  | nil => rfl
  | cons next rows => exact if_pos (Nat.zero_le _)

theorem posIn_break {brk : Text} {rows : List Row} (h : rows ≠ []) (offset : Nat) :
    posIn (⟨[], brk⟩ :: rows) (offset + 1) = brk.length + posIn rows offset := by
  rw [posIn_cons h]
  simp [fileSize, viewSize]

theorem posIn_content {c : CodePoint} {rows : List Row} (h : rows ≠ []) (offset : Nat) :
    posIn (onFirstRow (fun row => { row with content := c :: row.content }) rows) (offset + 1) =
      posIn rows offset + 1 := by
  obtain ⟨row, rows, rfl⟩ := List.exists_cons_of_ne_nil h
  cases rows with
  | nil => rfl
  | cons next rows =>
      rw [onFirstRow, posIn_cons (List.cons_ne_nil _ _), posIn_cons (List.cons_ne_nil _ _)]
      simp only [fileSize, viewSize, List.length_cons, Nat.add_le_add_iff_right, Nat.add_sub_add_right]
      split
      · rfl
      · omega

/-- The offset found for one of the view is a cut with that offset. -/
theorem cut_posIn {t : Text} {offset : Nat} (h : offset ≤ (normalizeToLf t).length) :
    Cut t (posIn (splitRows t) offset) offset := by
  induction t generalizing offset with
  | nil =>
      obtain rfl : offset = 0 := Nat.le_zero.mp h
      exact cut_zero []
  | cons c t ih =>
      cases offset with
      | zero =>
          rw [posIn_zero (splitRows_ne_nil _)]
          exact cut_zero _
      | succ offset =>
          have hrows := splitRows_ne_nil t
          rw [normalizeToLf] at h
          rw [splitRows]
          by_cases hcr : c = carriageReturn
          · rw [if_pos hcr] at h ⊢
            by_cases hlf : t.head? = some lineFeed
            · rw [if_pos hlf] at h ⊢
              have hcut := cut_crlf (ih h) hlf
              have hrest : ∃ rest, splitRows t = ⟨[], [lineFeed]⟩ :: splitRows rest := by
                cases t with
                | nil => cases hlf
                | cons d t =>
                    obtain rfl : d = lineFeed := Option.some.inj hlf
                    exact ⟨t, by rw [splitRows, if_neg (by decide), if_pos rfl]⟩
              obtain ⟨rest, hrest⟩ := hrest
              rw [hrest, posIn_break (splitRows_ne_nil rest), hcr.symm] at hcut
              rw [hrest, onFirstRow, posIn_break (splitRows_ne_nil rest)]
              have hlength : [c, lineFeed].length + posIn (splitRows rest) offset =
                  [lineFeed].length + posIn (splitRows rest) offset + 1 := by
                simp only [List.length_cons, List.length_nil]
                omega
              rw [hlength]
              exact hcut
            · rw [if_neg hlf] at h ⊢
              rw [posIn_break hrows, List.length_singleton, Nat.add_comm]
              exact cut_cons (ih (Nat.le_of_succ_le_succ h)) (.inr hlf)
          · rw [if_neg hcr] at h ⊢
            have hcut := cut_cons (ih (Nat.le_of_succ_le_succ h)) (.inl hcr)
            by_cases hlf : c = lineFeed
            · rw [if_pos hlf, posIn_break hrows, List.length_singleton, Nat.add_comm]
              exact hcut
            · rw [if_neg hlf, posIn_content hrows]
              exact hcut

end Avibe.Edits
