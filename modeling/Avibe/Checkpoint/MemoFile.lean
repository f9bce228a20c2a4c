import Avibe.Lib.Texts
import Mathlib.Data.Finset.Basic

/-!
# The memo file

The list of a checkpoint's memo as the model gets it to edit: one line for each message, its checkbox,
its number and a preview. Only the checkboxes may change. The reader strips trailing blanks from the
lines of the file and compares them with the lines of the list, so a line of the list that ends with
a blank is never read back; `read_iff` is what it reads otherwise.
-/

namespace Avibe.Checkpoint

open Texts

structure MemoItem where
  seq : Nat
  text : Text
  truncated : Bool
deriving DecidableEq

def memoPreview : Nat := 40

def memoExcerpt : Nat := 200

/-- One line of a text, cut to a number of characters. -/
def preview (text : Text) (chars : Nat) : Text :=
  let one := collapse text
  if one.length ≤ chars then one else rstrip (one.take chars) ++ lit "…"

structure MemoList where
  items : List MemoItem
  checked : Finset Nat
  hidden : Finset Nat

/-- The line of an item up to its preview. -/
def box (item : MemoItem) (checked : Bool) : Text :=
  lit "- [" ++ lit (if checked then "x" else " ") ++ lit "] (#" ++ lit (toString item.seq) ++ lit ") "

def MemoList.line (list : MemoList) (item : MemoItem) (checked : Bool) : Text :=
  box item checked ++
    preview item.text (if item.seq ∈ list.hidden then memoExcerpt else memoPreview)

def MemoList.lines (list : MemoList) : List Text :=
  list.items.map fun item => list.line item (item.seq ∈ list.checked)

/-- The numbers checked, when each line is one of the two its item has. -/
def MemoList.readLines (list : MemoList) : List MemoItem → List Text → Option (Finset Nat)
  | [], [] => some ∅
  | item :: items, line :: lines =>
      if line = list.line item true then
        (list.readLines items lines).map fun checked => insert item.seq checked
      else if line = list.line item false then list.readLines items lines
      else none
  | _, _ => none

/-- The lines of a file that are not blank, without trailing blanks. -/
def shownLines (content : Text) : List Text :=
  ((Texts.lines content).filter fun line => !isBlank line).map rstrip

/-- The numbers checked in a file, when there is one. -/
def MemoList.read (list : MemoList) (content : Option Text) : Option (Finset Nat) :=
  content.bind fun content => list.readLines list.items (shownLines content)

/-! ## Lines -/

/-- A preview is one line without trailing blanks, and empty only for a blank message. -/
theorem preview_spec (text : Text) (chars : Nat) :
    Inline (preview text chars) ∧ rstrip (preview text chars) = preview text chars ∧
      (preview text chars = [] ↔ isBlank text = true) := by
  obtain ⟨hspaces, hstrip, hnil⟩ := collapse_spec text
  rw [preview]
  split
  · exact ⟨inline_of_spaces hspaces, hstrip, hnil⟩
  · rename_i hlong
    have hcut : ∀ c ∈ rstrip ((collapse text).take chars), c = space ∨ isSpace c = false :=
      fun c hc => hspaces c (List.mem_of_mem_take ((List.rdropWhile_prefix _ _).subset hc))
    have hne : collapse text ≠ [] := fun h => hlong (by simp [h])
    refine ⟨inline_append.mpr ⟨inline_of_spaces hcut, by decide⟩, ?_, ?_⟩
    · exact rstrip_append (by decide) (by decide)
    · rw [← hnil]
      exact ⟨fun h => absurd (List.append_eq_nil_iff.mp h).2 (by decide), fun h => absurd h hne⟩

theorem inline_box (item : MemoItem) (checked : Bool) : Inline (box item checked) := by
  have hnumber : Inline (lit (toString item.seq)) := by
    have hdigits : ∀ c ∈ lit (toString item.seq), 48 ≤ c := by
      intro c hc
      obtain ⟨d, hd, rfl⟩ := List.mem_map.mp hc
      rw [Nat.toString_eq_repr, Nat.toList_repr] at hd
      have h := Nat.isDigit_of_mem_toDigits (by decide) (by decide) hd
      rw [Char.isDigit, Bool.and_eq_true, decide_eq_true_eq] at h
      exact h.1
    exact ⟨fun h => absurd (hdigits _ h) (by decide), fun h => absurd (hdigits _ h) (by decide)⟩
  have hmark : Inline (lit (if checked then "x" else " ")) := by cases checked <;> decide
  simp only [box, inline_append]
  exact ⟨⟨⟨⟨by decide, hmark⟩, by decide⟩, hnumber⟩, by decide⟩

theorem inline_line (list : MemoList) (item : MemoItem) (checked : Bool) :
    Inline (list.line item checked) :=
  inline_append.mpr ⟨inline_box item checked, (preview_spec _ _).1⟩

theorem line_not_blank (list : MemoList) (item : MemoItem) (checked : Bool) :
    isBlank (list.line item checked) = false := by
  rw [MemoList.line, box]
  rfl

/-- The two lines of an item differ in their boxes. -/
theorem line_true_ne_false (list : MemoList) (item : MemoItem) :
    list.line item true ≠ list.line item false := by
  intro h
  have htrue : (list.line item true)[3]? = some (ofChar 'x') := rfl
  have hfalse : (list.line item false)[3]? = some (ofChar ' ') := rfl
  rw [h, hfalse] at htrue
  exact absurd htrue (by decide)

/-- Trailing blanks aside, a line is itself exactly when its message is not blank. -/
theorem rstrip_line (list : MemoList) (item : MemoItem) (checked : Bool) :
    rstrip (list.line item checked) = list.line item checked ↔ isBlank item.text = false := by
  obtain ⟨-, hstrip, hnil⟩ :=
    preview_spec item.text (if item.seq ∈ list.hidden then memoExcerpt else memoPreview)
  rw [MemoList.line]
  generalize preview item.text (if item.seq ∈ list.hidden then memoExcerpt else memoPreview) = shown
    at hstrip hnil ⊢
  rw [← Bool.not_eq_true, ← hnil]
  constructor
  · rintro h rfl
    -- The blank after the number is stripped.
    rw [List.append_nil, rstrip, List.rdropWhile_eq_self_iff] at h
    have hlast : (box item checked).getLast (by simp [box, lit]) = space := by
      simp [box, lit]
      rfl
    exact absurd (h (by simp [box, lit])) (by rw [hlast]; decide)
  · exact fun hne => rstrip_append hne hstrip

/-! ## Reading back -/

/-- The lines with exactly these numbers checked. -/
def MemoList.linesWith (list : MemoList) (checked : Finset Nat) : List Text :=
  list.items.map fun item => list.line item (item.seq ∈ checked)

/-- The numbers of the list. -/
def MemoList.seqs (list : MemoList) : Finset Nat := (list.items.map MemoItem.seq).toFinset

theorem readLines_eq_some (list : MemoList) {items : List MemoItem}
    (hdistinct : (items.map MemoItem.seq).Nodup) {lines : List Text} {checked : Finset Nat} :
    list.readLines items lines = some checked ↔
      checked ⊆ (items.map MemoItem.seq).toFinset ∧
        lines = items.map fun item => list.line item (item.seq ∈ checked) := by
  induction items generalizing lines checked with
  | nil =>
      cases lines with
      | nil => simp [MemoList.readLines, eq_comm]
      | cons line lines => simp [MemoList.readLines]
  | cons item items ih =>
      cases lines with
      | nil => simp [MemoList.readLines]
      | cons line lines =>
          obtain ⟨hnew, hdistinct⟩ := List.nodup_cons.mp hdistinct
          have ih := fun {checked} => @ih hdistinct lines checked
          -- The other items do not see whether this one is checked.
          have hothers : ∀ S : Finset Nat, (items.map fun i => list.line i (i.seq ∈ insert item.seq S)) =
              items.map fun i => list.line i (i.seq ∈ S) := by
            intro S
            refine List.map_congr_left fun i hi => ?_
            have hne : i.seq ≠ item.seq := fun h => hnew (h ▸ List.mem_map_of_mem hi)
            simp [hne]
          rw [MemoList.readLines, List.map_cons, List.map_cons, List.toFinset_cons, List.cons.injEq]
          by_cases htrue : line = list.line item true
          · rw [if_pos htrue, Option.map_eq_some_iff]
            constructor
            · rintro ⟨S, hS, rfl⟩
              obtain ⟨hsub, hlines⟩ := ih.mp hS
              refine ⟨Finset.insert_subset_insert _ hsub, by simpa using htrue, ?_⟩
              rw [hothers]
              exact hlines
            · rintro ⟨hsub, hline, hlines⟩
              have hmem : item.seq ∈ checked := by
                by_contra hnot
                rw [htrue] at hline
                exact line_true_ne_false list item (by simpa [hnot] using hline)
              refine ⟨checked.erase item.seq, ih.mpr ⟨Finset.subset_insert_iff.mp hsub, ?_⟩,
                Finset.insert_erase hmem⟩
              rw [← hothers, Finset.insert_erase hmem]
              exact hlines
          · rw [if_neg htrue]
            by_cases hfalse : line = list.line item false
            · rw [if_pos hfalse, ih]
              constructor
              · rintro ⟨hsub, hlines⟩
                have hnot : item.seq ∉ checked := fun hmem =>
                  hnew (List.mem_toFinset.mp (hsub hmem))
                exact ⟨hsub.trans (Finset.subset_insert _ _), by simpa [hnot] using hfalse, hlines⟩
              · rintro ⟨hsub, hline, hlines⟩
                have hnot : item.seq ∉ checked := fun hmem =>
                  htrue (by simpa [hmem] using hline)
                exact ⟨(Finset.subset_insert_iff_of_notMem hnot).mp hsub, hlines⟩
            · rw [if_neg hfalse]
              refine ⟨fun h => (by cases h), ?_⟩
              rintro ⟨-, hline, -⟩
              by_cases hmem : item.seq ∈ checked
              · exact absurd (by simpa [hmem] using hline) htrue
              · exact absurd (by simpa [hmem] using hline) hfalse

/-- The rows that are not blank are these lines, trailing blanks aside. -/
def Shows (rows : List Text) (lines : List Text) : Prop :=
  (rows.filter fun row => !isBlank row).map rstrip = lines.map rstrip

/-- The memo file is read back, and nothing else is, exactly when no message is blank: the line of a
blank one ends with a blank, which the reader strips from the file and not from the line. -/
theorem memo_file_read_back_iff (list : MemoList) (hdistinct : (list.items.map MemoItem.seq).Nodup) :
    ((∀ checked ⊆ list.seqs, ∀ (rows : List (Text × Bool)) (last : Text),
        (∀ r ∈ rows, Inline r.1) → Inline last →
        Shows (rows.map Prod.fst ++ [last]) (list.linesWith checked) →
        list.read (some (joinRows rows last)) = some checked) ∧
      ∀ content, (∀ checked ⊆ list.seqs, ¬ Shows (Texts.lines content) (list.linesWith checked)) →
        list.read (some content) = none) ↔
      ∀ item ∈ list.items, isBlank item.text = false := by
  have hread : ∀ content checked, list.read (some content) = some checked ↔
      checked ⊆ list.seqs ∧ shownLines content = list.linesWith checked :=
    fun content checked => readLines_eq_some list hdistinct
  constructor
  · rintro ⟨hback, -⟩ item hitem
    -- The lines themselves are a file, with nothing checked.
    have hne : list.linesWith ∅ ≠ [] := by
      intro h
      rw [List.map_eq_nil_iff.mp h] at hitem
      cases hitem
    have hrows : (((list.linesWith ∅).dropLast.map fun row => (row, false)).map Prod.fst) ++
        [(list.linesWith ∅).getLast hne] = list.linesWith ∅ := by
      rw [List.map_map]
      exact (congrArg (· ++ _) (List.map_id _)).trans (List.dropLast_append_getLast hne)
    have hinline : ∀ row ∈ list.linesWith ∅, Inline row := by
      intro row hrow
      obtain ⟨i, -, rfl⟩ := List.mem_map.mp hrow
      exact inline_line list i _
    have hfilter : (list.linesWith ∅).filter (fun row => !isBlank row) = list.linesWith ∅ := by
      refine List.filter_eq_self.mpr fun row hrow => ?_
      obtain ⟨i, -, rfl⟩ := List.mem_map.mp hrow
      rw [line_not_blank]
      rfl
    have hjoined : ∀ r ∈ (list.linesWith ∅).dropLast.map fun row => (row, false), Inline r.1 := by
      intro r hr
      obtain ⟨row, hrow, rfl⟩ := List.mem_map.mp hr
      exact hinline row (List.dropLast_subset _ hrow)
    have hlast := hinline _ (List.getLast_mem hne)
    have hsome := hback ∅ (Finset.empty_subset _) _ _ hjoined hlast
      (by rw [Shows, hrows, hfilter])
    have hlines := ((hread _ _).mp hsome).2
    rw [shownLines, lines_joinRows hjoined hlast, hrows, hfilter] at hlines
    have hsame := List.map_eq_map_iff.mp (hlines.trans (List.map_id _).symm)
      (list.line item (decide (item.seq ∈ (∅ : Finset Nat)))) (List.mem_map_of_mem hitem)
    exact (rstrip_line list item _).mp hsame
  · intro hblank
    have hstrip : ∀ checked, (list.linesWith checked).map rstrip = list.linesWith checked := by
      intro checked
      refine (List.map_congr_left fun row hrow => ?_).trans (List.map_id _)
      obtain ⟨item, hitem, rfl⟩ := List.mem_map.mp hrow
      exact (rstrip_line list item _).mpr (hblank item hitem)
    constructor
    · intro checked hsub rows last hrows hlast hshows
      refine (hread _ _).mpr ⟨hsub, ?_⟩
      rw [shownLines, lines_joinRows hrows hlast, ← hstrip checked]
      exact hshows
    · intro content hnone
      cases hcontent : list.read (some content) with
      | none => rfl
      | some checked =>
          obtain ⟨hsub, hlines⟩ := (hread _ _).mp hcontent
          refine absurd ?_ (hnone checked hsub)
          rw [Shows, hstrip checked]
          exact hlines

/-- A list without a blank message. -/
theorem memo_file_read_back_iff_words :
    (MemoList.mk [⟨4, lit "keep  it", false⟩, ⟨7, lit "and this", false⟩] {4} ∅).read
      (some (lit "\n- [ ] (#4) keep it\r\n- [x] (#7) and this  \n")) = some {7} := by
  have h := (memo_file_read_back_iff
    (MemoList.mk [⟨4, lit "keep  it", false⟩, ⟨7, lit "and this", false⟩] {4} ∅)
    (by decide)).mpr (by decide)
  exact h.1 {7} (by decide) [([], false), (lit "- [ ] (#4) keep it", true),
    (lit "- [x] (#7) and this  ", false)] [] (by decide) (by decide) (by unfold Shows; decide)

/-- A message without words, as one with nothing but an attachment has. -/
theorem blank_message_not_read_back :
    (MemoList.mk [⟨4, [], false⟩] ∅ ∅).lines = [lit "- [ ] (#4) "] ∧
      (MemoList.mk [⟨4, [], false⟩] ∅ ∅).read (some (lit "- [ ] (#4) ")) = none := by
  decide

end Avibe.Checkpoint
