import Avibe.Output.Heads
import Avibe.Reading.Decoded

/-!
# Reading a file as a whole

The lines that a scan keeps are truncated as all selected lines are (`sameTruncation_of_keptOf`); the limit that is
named can differ only where the first lines fill the cap exactly (`FillsCap`). So a file reads as its reference
(`readText_shown`).
-/

namespace Avibe.Reading

open Texts Output
variable {caps : Caps}

/-- Some of the selected lines, fewer than the cap of lines, have exactly as many bytes as the other cap, and a
selected line follows. -/
def FillsCap (caps : Caps) (selected : List Bytes) : Prop :=
  ∃ k, 0 < k ∧ k < caps.maxLines ∧ k < selected.length ∧ size (selected.take k) = caps.maxBytes

/-- The texts of two beginnings of a selection, of which both pass the cap of bytes after the same lines. -/
theorem decoded_eq_nil {line : Bytes} : decoded line = [] ↔ line = [] := by
  constructor
  · intro h
    have hle := length_le_shownSize line
    rw [shownSize, ← decoded, h, utf8Len_nil] at hle
    exact List.eq_nil_of_length_eq_zero (Nat.le_zero.mp hle)
  · rintro rfl
    rfl

theorem size_le_of_beginning {front : List Bytes} {part line : Bytes} (h : part <+: line) :
    size (front ++ [part]) ≤ utf8Len (joined (front.map decoded ++ [decoded line])) := by
  have hsize := size_le_decoded (front ++ [line])
  rw [List.map_append, List.map_singleton] at hsize
  exact Nat.le_trans (size_concat_mono h) hsize

/-- A loop over lines that end with one that does not fit, or over those before it. -/
theorem headLoop_past {front : List Text} {line : Text} {lines lines' : List Text}
    (hover : caps.maxBytes < utf8Len (joined (front ++ [line]))) (hlines : lines = [] ∨ ∃ rest, lines = line :: rest)
    (hlines' : lines' = [] ∨ ∃ line' rest, lines' = line' :: rest ∧
      caps.maxBytes < utf8Len (joined (front ++ [line']))) :
    (headLoop caps.maxBytes 0 [] 0 (front ++ lines)).lines = (headLoop caps.maxBytes 0 [] 0 (front ++ lines')).lines ∧
      (lines ≠ [] → lines' ≠ [] →
        headLoop caps.maxBytes 0 [] 0 (front ++ lines) = headLoop caps.maxBytes 0 [] 0 (front ++ lines')) := by
  have hcut : ∀ {line : Text} (rest : List Text), caps.maxBytes < utf8Len (joined (front ++ [line])) →
      headLoop caps.maxBytes 0 [] 0 (front ++ line :: rest) =
        { headLoop caps.maxBytes 0 [] 0 front with truncatedBy := .bytes } :=
    fun rest h => @headLoop_cut caps.maxBytes [] front _ rest h
  rcases hlines with rfl | ⟨rest, rfl⟩
  · rcases hlines' with rfl | ⟨line', rest', rfl, hover'⟩
    · exact ⟨rfl, fun _ _ => rfl⟩
    · rw [List.append_nil, hcut rest' hover']
      exact ⟨rfl, fun h => absurd rfl h⟩
  · rcases hlines' with rfl | ⟨line', rest', rfl, hover'⟩
    · rw [List.append_nil, hcut rest hover]
      exact ⟨rfl, fun _ h => absurd rfl h⟩
    · rw [hcut rest hover, hcut rest' hover']
      exact ⟨rfl, fun _ _ => rfl⟩

/-- Kept lines and selected lines are truncated to the same head; they can differ in the limit that is named. -/
def SameTruncation (caps : Caps) (selected kept : List Bytes) : Prop :=
  SameHead (truncateHead (joined (kept.map decoded)) caps.maxLines caps.maxBytes)
      (truncateHead (joined (selected.map decoded)) caps.maxLines caps.maxBytes) ∧
    (¬ FillsCap caps selected →
      (truncateHead (joined (kept.map decoded)) caps.maxLines caps.maxBytes).truncatedBy =
        (truncateHead (joined (selected.map decoded)) caps.maxLines caps.maxBytes).truncatedBy)

theorem splitLines_decoded {front rest : List Bytes} (hfront : ∀ line ∈ front, newline ∉ line) (hrest : rest ≠ []) :
    splitLines (joined ((front ++ rest).map decoded)) = front.map decoded ++ splitLines (joined (rest.map decoded)) := by
  have hfeed : ∀ l ∈ front.map decoded, lineFeed ∉ l := by
    intro l hl
    obtain ⟨raw, hraw, rfl⟩ := List.mem_map.mp hl
    exact lineFeed_notMem_decoded (hfront raw hraw)
  rw [List.map_append, splitLines_joined hfeed (mt List.map_eq_nil_iff.mp hrest)]

section Cut

variable {front rest : List Bytes} {line part : Bytes}

theorem sameTruncation_count (hlines : ∀ l ∈ front, newline ∉ l) (hcount : front.length = caps.maxLines + 1) :
    SameTruncation caps (front ++ line :: rest) (front ++ [part]) := by
  have hkeptLines := splitLines_decoded hlines (List.cons_ne_nil part [])
  have hselectedLines := splitLines_decoded hlines (List.cons_ne_nil line rest)
  have hlength : (front.map decoded).length = caps.maxLines + 1 := by rwa [List.length_map]
  have hover : ∀ lines : List Text, ¬ (front.map decoded ++ lines).length ≤ caps.maxLines := by
    intro lines
    rw [List.length_append, hlength]
    omega
  obtain ⟨first, front, rfl⟩ : ∃ first rest, front = first :: rest := by
    cases front with
    | nil => exact absurd hcount (Nat.succ_ne_zero _).symm
    | cons first rest => exact ⟨first, rest, rfl⟩
  have htake : ∀ lines : List Text, (((first :: front).map decoded) ++ lines).take caps.maxLines =
      ((first :: front).map decoded).take caps.maxLines :=
    fun lines => List.take_append_of_le_length (hlength ▸ Nat.le_succ _)
  have hk := hover (splitLines (joined ([part].map decoded)))
  have hs := hover (splitLines (joined ((line :: rest).map decoded)))
  rw [← hkeptLines] at hk
  rw [← hselectedLines] at hs
  have hloop : headLoop caps.maxBytes 0 [] 0
        ((splitLines (joined ((first :: front ++ [part]).map decoded))).take caps.maxLines) =
      headLoop caps.maxBytes 0 [] 0
        ((splitLines (joined ((first :: front ++ line :: rest).map decoded))).take caps.maxLines) := by
    rw [hkeptLines, hselectedLines, htake, htake]
  have hhead : ∀ lines : List Text,
      (((first :: front).map decoded) ++ lines).headD [] = decoded first := fun _ => rfl
  have hheads : caps.maxBytes < utf8Len ((splitLines (joined ((first :: front ++ [part]).map decoded))).headD []) ↔
      caps.maxBytes <
        utf8Len ((splitLines (joined ((first :: front ++ line :: rest).map decoded))).headD []) := by
    rw [hkeptLines, hselectedLines, hhead, hhead]
  exact ⟨sameHead_of_lines (fun h => hk h.1) (fun h => hs h.1) hheads (congrArg Kept.lines hloop),
    fun _ => truncatedBy_of_lines (fun h => hk h.1) (fun h => hs h.1) hheads hloop⟩

theorem sameTruncation_bytes (hlines : ∀ l ∈ front ++ [line], newline ∉ l) (hcount : front.length ≤ caps.maxLines)
    (hsize : size front ≤ caps.maxBytes) (hpart : part <+: line) (hpast : caps.maxBytes < size (front ++ [part])) :
    SameTruncation caps (front ++ line :: rest) (front ++ [part]) := by
  have hfront : ∀ l ∈ front, newline ∉ l := fun l hl => hlines l (List.mem_append_left _ hl)
  have hkeptLines : splitLines (joined ((front ++ [part]).map decoded)) =
      front.map decoded ++ splitLines (decoded part) := by
    rw [splitLines_decoded hfront (List.cons_ne_nil part []), List.map_singleton, joined_singleton]
  have hselectedLines := splitLines_decoded hfront (List.cons_ne_nil line rest)
  have hline : lineFeed ∉ decoded line :=
    lineFeed_notMem_decoded (hlines line (List.mem_append_right _ (List.mem_singleton_self _)))
  have hpartFeed : lineFeed ∉ decoded part := by
    apply lineFeed_notMem_decoded
    exact fun hmem => hlines line (List.mem_append_right _ (List.mem_singleton_self _)) (hpart.subset hmem)
  have hoverPart : caps.maxBytes < utf8Len (joined (front.map decoded ++ [decoded part])) :=
    Nat.lt_of_lt_of_le hpast (size_le_of_beginning (List.prefix_refl part))
  have hoverLine : caps.maxBytes < utf8Len (joined (front.map decoded ++ [decoded line])) :=
    Nat.lt_of_lt_of_le hpast (size_le_of_beginning hpart)
  have hk : ¬ ((splitLines (joined ((front ++ [part]).map decoded))).length ≤ caps.maxLines ∧
      utf8Len (joined ((front ++ [part]).map decoded)) ≤ caps.maxBytes) := by
    rw [List.map_append, List.map_singleton]
    exact fun h => absurd hoverPart (not_lt.mpr h.2)
  have hs : ¬ ((splitLines (joined ((front ++ line :: rest).map decoded))).length ≤ caps.maxLines ∧
      utf8Len (joined ((front ++ line :: rest).map decoded)) ≤ caps.maxBytes) := by
    rintro ⟨-, hle⟩
    have hprefix : front.map decoded ++ [decoded line] <+: (front ++ line :: rest).map decoded :=
      ⟨rest.map decoded, by simp⟩
    exact absurd (Nat.lt_of_lt_of_le hoverLine (utf8Len_joined_mono hprefix)) (not_lt.mpr hle)
  have hheads : caps.maxBytes < utf8Len ((splitLines (joined ((front ++ [part]).map decoded))).headD []) ↔
      caps.maxBytes < utf8Len ((splitLines (joined ((front ++ line :: rest).map decoded))).headD []) := by
    cases front with
    | nil =>
        rw [List.nil_append, List.nil_append, List.map_cons, List.map_cons, headD_splitLines_joined _ hpartFeed,
          headD_splitLines_joined _ hline]
        rw [List.map_nil, List.nil_append, joined_singleton] at hoverPart hoverLine
        exact iff_of_true hoverPart hoverLine
    | cons first front =>
        rw [hkeptLines, hselectedLines]
        exact Iff.rfl
  have hpartLines : splitLines (decoded part) = [] ∨ ∃ rest, splitLines (decoded part) = decoded part :: rest := by
    by_cases hnil : decoded part = []
    · exact .inl (splitLines_eq_nil.mpr hnil)
    · exact .inr ⟨[], splitLines_open hpartFeed hnil⟩
  have hlineLines := splitLines_joined_cons (rest.map decoded) hline
  rw [← List.map_cons] at hlineLines
  have htake : ∀ lines : List Text, (front.map decoded ++ lines).take caps.maxLines =
      front.map decoded ++ lines.take (caps.maxLines - front.length) := by
    intro lines
    rw [List.take_append, List.length_map, List.take_of_length_le (by rwa [List.length_map])]
  generalize hroom : caps.maxLines - front.length = room at htake
  have hpartTake : (splitLines (decoded part)).take room = [] ∨
      ∃ rest, (splitLines (decoded part)).take room = decoded part :: rest := by
    cases room with
    | zero => exact .inl List.take_zero
    | succ room =>
        rcases hpartLines with hnil | ⟨later, hlater⟩
        · rw [hnil]
          exact .inl rfl
        · rw [hlater, List.take_succ_cons]
          exact .inr ⟨_, rfl⟩
  have hlineTake : (splitLines (joined ((line :: rest).map decoded))).take room = [] ∨
      ∃ line' later, (splitLines (joined ((line :: rest).map decoded))).take room = line' :: later ∧
        caps.maxBytes < utf8Len (joined (front.map decoded ++ [line'])) := by
    cases room with
    | zero => exact .inl List.take_zero
    | succ room =>
        rcases hlineLines with ⟨later, hlater⟩ | ⟨-, -, hnil⟩
        · rw [hlater, List.take_succ_cons]
          exact .inr ⟨_, _, rfl, hoverLine⟩
        · rw [hnil]
          exact .inl rfl
  obtain ⟨hloopLines, hloop⟩ := headLoop_past hoverPart hpartTake hlineTake
  constructor
  · apply sameHead_of_lines hk hs hheads
    rw [hkeptLines, hselectedLines, htake, htake]
    exact hloopLines
  · intro hfills
    apply truncatedBy_of_lines hk hs hheads
    rw [hkeptLines, hselectedLines, htake, htake]
    cases room with
    | zero => rfl
    | succ room =>
        have hsome : part ≠ [] := by
          rintro rfl
          rw [size_concat] at hpast
          have hfront : front ≠ [] := by
            rintro rfl
            exact absurd hpast (Nat.not_lt_zero _)
          rw [if_neg hfront, List.length_nil] at hpast
          refine hfills ⟨front.length, List.length_pos_of_ne_nil hfront, by omega, ?_, ?_⟩
          · rw [List.length_append, List.length_cons]
            omega
          · rw [List.take_left']
            · omega
            · rfl
        have hpartSome : splitLines (decoded part) ≠ [] :=
          fun hnil => hsome (decoded_eq_nil.mp (splitLines_eq_nil.mp hnil))
        have hlineSome : line ≠ [] := by
          rintro rfl
          exact hsome (List.prefix_nil.mp hpart)
        apply hloop
        · exact fun hnil => hpartSome ((List.take_eq_nil_iff.mp hnil).resolve_left (Nat.succ_ne_zero _))
        · intro hnil
          rcases hlineLines with ⟨later, hlater⟩ | ⟨hempty, -, -⟩
          · rw [hlater] at hnil
            exact absurd hnil (List.cons_ne_nil _ _)
          · exact hlineSome (decoded_eq_nil.mp hempty)

end Cut

theorem sameTruncation_of_keptOf {selected kept : List Bytes} (h : KeptOf True caps selected kept)
    (hlines : ∀ line ∈ selected, newline ∉ line) : SameTruncation caps selected kept := by
  cases h with
  | all => exact ⟨⟨rfl, rfl, rfl, rfl⟩, fun _ => rfl⟩
  | cut front line rest part heq hcaps =>
      subst heq
      cases hcaps with
      | inl hcount => exact sameTruncation_count (fun l hl => hlines l (List.mem_append_left _ hl)) hcount
      | inr hbytes =>
          obtain ⟨hcount, hsize, hpart, hpast⟩ := hbytes
          refine sameTruncation_bytes (fun l hl => hlines l ?_) hcount hsize (hpart.resolve_right fun h => h.1 trivial) hpast
          rw [List.mem_append, List.mem_singleton] at hl
          rw [List.mem_append, List.mem_cons]
          exact hl.imp id Or.inl

/-! ## Reading -/

theorem flatten_reads {size : Nat} (hsize : 0 < size) {fuel : Nat} {data : Bytes} (hfuel : data.length ≤ fuel) :
    (reads size fuel data).flatten = data := by
  induction fuel generalizing data with
  | zero => exact (List.eq_nil_of_length_eq_zero (Nat.le_zero.mp hfuel)).symm
  | succ fuel ih =>
      rw [reads]
      by_cases hnil : data = []
      · rw [if_pos hnil, hnil]
        rfl
      · have hpos := List.length_pos_of_ne_nil hnil
        rw [if_neg hnil, List.flatten_cons, ih]
        · exact List.take_append_drop size data
        · rw [List.length_drop]
          omega

theorem flatten_fileChunks {size : Nat} (hsize : 0 < size) (data : Bytes) :
    (fileChunks size data).flatten = withoutBom data := flatten_reads hsize (Nat.le_refl _)

/-- The selected lines of a file, in bytes. -/
def selectedBytes (data : Bytes) (start : Nat) (stop : Option Nat) : List Bytes :=
  select start stop (endedLines returnByte ((withoutBom data).splitOn newline))

theorem select_map {α β : Type} (f : α → β) (start : Nat) (stop : Option Nat) (lines : List α) :
    select start stop (lines.map f) = (select start stop lines).map f := by
  cases stop with
  | none => exact List.map_drop.symm
  | some n => rw [select, select, ← List.map_take, List.map_drop]

theorem newline_notMem_dropReturn {line : Bytes} (h : newline ∉ line) : newline ∉ dropReturn returnByte line := by
  cases dropReturn_cases (r := returnByte) line with
  | inl hsame => rwa [hsame]
  | inr hdrop =>
      obtain ⟨front, rfl, -, hfront⟩ := hdrop
      rw [hfront]
      exact fun hmem => h (List.mem_append_left _ hmem)

theorem newline_notMem_selectedBytes {data : Bytes} {start : Nat} {stop : Option Nat} {line : Bytes}
    (h : line ∈ selectedBytes data start stop) : newline ∉ line := by
  have hended : line ∈ endedLines returnByte ((withoutBom data).splitOn newline) := by
    rw [selectedBytes] at h
    cases stop with
    | none => exact List.mem_of_mem_drop h
    | some n => exact List.mem_of_mem_take (List.mem_of_mem_drop h)
  rw [endedLines, List.mem_append] at hended
  cases hended with
  | inl hdropped =>
      obtain ⟨raw, hraw, rfl⟩ := List.mem_map.mp hdropped
      exact newline_notMem_dropReturn (notMem_of_mem_splitOn (List.dropLast_subset _ hraw))
  | inr hlast => exact notMem_of_mem_splitOn (List.mem_of_getLast? (Option.mem_toList.mp hlast))

/-- What is scanned of a file, beside its reference. -/
theorem scanLines_file {clean : Prop} {size : Nat} (hsize : 0 < size) (data : Bytes) {start : Nat} {stop : Option Nat}
    (hstop : stop.all (start < ·) = true) (hsplit : clean → ¬ SplitBreak caps start stop (fileChunks size data)) :
    ∃ kept firstLineBytes,
      scanLines caps start stop (fileChunks size data) =
        (kept.map decoded, (fileLines (withoutBom data)).length, firstLineBytes) ∧
      (start < (fileLines (withoutBom data)).length →
        firstLineBytes = utf8Len ((fileLines (withoutBom data)).getD start []) ∧
        KeptOf clean caps (selectedBytes data start stop) kept) := by
  obtain ⟨kept, firstLineBytes, hscan, hfirst, hkept⟩ := scanLines_spec hstop _ hsplit rfl
  rw [flatten_fileChunks hsize] at hscan hfirst hkept
  have hlength : (fileLines (withoutBom data)).length =
      (endedLines returnByte ((withoutBom data).splitOn newline)).length := by
    rw [fileLines_eq, List.length_map]
  refine ⟨kept, firstLineBytes, hlength ▸ hscan, fun hlt => ?_⟩
  rw [hlength] at hlt
  refine ⟨?_, hkept hlt⟩
  have hline := List.getElem?_eq_getElem hlt
  rw [hfirst _ hline, fileLines_eq, List.getD_eq_getElem?_getD, List.getElem?_map, hline]
  rfl

theorem present_shown {start : Nat} {stop : Option Nat} {collected collected' : List Text} {total size size' : Nat}
    (hhead : SameHead (truncateHead (joined collected) caps.maxLines caps.maxBytes)
      (truncateHead (joined collected') caps.maxLines caps.maxBytes))
    (hnamed : (truncateHead (joined collected) caps.maxLines caps.maxBytes).truncatedBy =
      (truncateHead (joined collected') caps.maxLines caps.maxBytes).truncatedBy)
    (hsize : start < total → size = size') :
    (present caps start stop collected total size).map ReadText.shown =
      (present caps start stop collected' total size').map ReadText.shown := by
  rw [present, present]
  by_cases hend : total ≤ start
  · rw [if_pos hend, if_pos hend]
  · rw [if_neg hend, if_neg hend, hsize (not_le.mp hend)]
    obtain ⟨hcontent, htruncated, hexceeds, hlines⟩ := hhead
    dsimp only
    rw [hexceeds, htruncated, hlines, hnamed]
    split
    · simp only [Except.map, ReadText.shown, hcontent]
    · split
      · simp only [Except.map, ReadText.shown, hcontent]
      · cases stop with
        | none => simp only [Except.map, ReadText.shown, hcontent]
        | some n =>
            dsimp only
            split
            · simp only [Except.map, ReadText.shown, hcontent]
            · simp only [Except.map, ReadText.shown, hcontent]

/-- A notice without the limit that it names. -/
def Notice.unlimited : Notice → Notice
  | lineExceeds line size => lineExceeds line size
  | showing first last total next _ => showing first last total next false
  | moreLines count next => moreLines count next

/-- What a text shows of the file, and its notice but for the limit that it names. -/
def ReadText.lines (r : ReadText) : Text × Option Notice := (r.content, r.notice.map Notice.unlimited)

theorem present_lines {start : Nat} {stop : Option Nat} {collected collected' : List Text} {total size size' : Nat}
    (hhead : SameHead (truncateHead (joined collected) caps.maxLines caps.maxBytes)
      (truncateHead (joined collected') caps.maxLines caps.maxBytes))
    (hsize : start < total → size = size') :
    (present caps start stop collected total size).map ReadText.lines =
      (present caps start stop collected' total size').map ReadText.lines := by
  rw [present, present]
  by_cases hend : total ≤ start
  · rw [if_pos hend, if_pos hend]
  · rw [if_neg hend, if_neg hend, hsize (not_le.mp hend)]
    obtain ⟨hcontent, htruncated, hexceeds, hlines⟩ := hhead
    dsimp only
    rw [hexceeds, htruncated, hlines]
    split
    · simp only [Except.map, ReadText.lines, hcontent]
    · split
      · simp only [Except.map, ReadText.lines, hcontent, Option.map_some, Notice.unlimited]
      · cases stop with
        | none => simp only [Except.map, ReadText.lines, hcontent]
        | some n =>
            dsimp only
            split
            · simp only [Except.map, ReadText.lines, hcontent]
            · simp only [Except.map, ReadText.lines, hcontent]

theorem selection_stop {offset limit : Option Nat} (hlimit : ∀ n, limit = some n → 0 < n) :
    (selection offset limit).2.all ((selection offset limit).1 < ·) = true := by
  cases limit with
  | none => rfl
  | some n =>
      have hpos := hlimit n rfl
      exact decide_eq_true (Nat.lt_add_of_pos_right hpos)

theorem readText_eq (size : Nat) (data : Bytes) (offset limit : Option Nat) :
    readText caps size data offset limit =
      present caps (selection offset limit).1 (selection offset limit).2
        (scanLines caps (selection offset limit).1 (selection offset limit).2 (fileChunks size data)).1
        (scanLines caps (selection offset limit).1 (selection offset limit).2 (fileChunks size data)).2.1
        (scanLines caps (selection offset limit).1 (selection offset limit).2 (fileChunks size data)).2.2 := rfl

theorem readWhole_eq (data : Bytes) (offset limit : Option Nat) :
    readWhole caps data offset limit =
      present caps (selection offset limit).1 (selection offset limit).2
        (select (selection offset limit).1 (selection offset limit).2 (fileLines (withoutBom data)))
        (fileLines (withoutBom data)).length
        (utf8Len ((fileLines (withoutBom data)).getD (selection offset limit).1 [])) := rfl

/-- What is scanned for a read, beside what the reference selects. -/
theorem scan_reference {size : Nat} (hsize : 0 < size) (data : Bytes) {offset limit : Option Nat}
    (hlimit : ∀ n, limit = some n → 0 < n)
    (hsplit : ¬ SplitBreak caps (selection offset limit).1 (selection offset limit).2 (fileChunks size data))
    (hlt : (selection offset limit).1 < (fileLines (withoutBom data)).length) :
    ∃ kept,
      readText caps size data offset limit =
        present caps (selection offset limit).1 (selection offset limit).2 (kept.map decoded)
          (fileLines (withoutBom data)).length
          (utf8Len ((fileLines (withoutBom data)).getD (selection offset limit).1 [])) ∧
      readWhole caps data offset limit =
        present caps (selection offset limit).1 (selection offset limit).2
          ((selectedBytes data (selection offset limit).1 (selection offset limit).2).map decoded)
          (fileLines (withoutBom data)).length
          (utf8Len ((fileLines (withoutBom data)).getD (selection offset limit).1 [])) ∧
      SameTruncation caps (selectedBytes data (selection offset limit).1 (selection offset limit).2) kept := by
  have hstop : (selection offset limit).2.all ((selection offset limit).1 < ·) = true := selection_stop hlimit
  obtain ⟨kept, firstLineBytes, hscan, hkept⟩ := scanLines_file hsize data hstop fun _ : True => hsplit
  obtain ⟨rfl, hkeptOf⟩ := hkept hlt
  refine ⟨kept, ?_, ?_, sameTruncation_of_keptOf hkeptOf fun line hline => newline_notMem_selectedBytes hline⟩
  · rw [readText_eq, hscan]
  · rw [readWhole_eq, fileLines_eq, select_map]
    rfl

theorem read_beyond {size : Nat} (hsize : 0 < size) (data : Bytes) {offset limit : Option Nat}
    (hlimit : ∀ n, limit = some n → 0 < n)
    (hsplit : ¬ SplitBreak caps (selection offset limit).1 (selection offset limit).2 (fileChunks size data))
    (hend : (fileLines (withoutBom data)).length ≤ (selection offset limit).1) :
    readText caps size data offset limit = readWhole caps data offset limit := by
  have hstop : (selection offset limit).2.all ((selection offset limit).1 < ·) = true := selection_stop hlimit
  obtain ⟨kept, firstLineBytes, hscan, -⟩ := scanLines_file hsize data hstop fun _ : True => hsplit
  rw [readText_eq, hscan, readWhole_eq, present, present, if_pos hend, if_pos hend]

/-- Reading in chunks shows the text and the lines that reading the whole file shows. -/
theorem readText_lines {size : Nat} (hsize : 0 < size) (data : Bytes) {offset limit : Option Nat}
    (hlimit : ∀ n, limit = some n → 0 < n)
    (hsplit : ¬ SplitBreak caps (selection offset limit).1 (selection offset limit).2 (fileChunks size data)) :
    (readText caps size data offset limit).map ReadText.lines =
      (readWhole caps data offset limit).map ReadText.lines := by
  by_cases hlt : (selection offset limit).1 < (fileLines (withoutBom data)).length
  · obtain ⟨kept, hread, hwhole, hsame⟩ := scan_reference hsize data hlimit hsplit hlt
    rw [hread, hwhole]
    exact present_lines hsame.1 fun _ => rfl
  · rw [read_beyond hsize data hlimit hsplit (not_lt.mp hlt)]

/-- Unless the lines fill the cap, the notice names the same limit too. -/
theorem readText_shown {size : Nat} (hsize : 0 < size) (data : Bytes) {offset limit : Option Nat}
    (hlimit : ∀ n, limit = some n → 0 < n)
    (hsplit : ¬ SplitBreak caps (selection offset limit).1 (selection offset limit).2 (fileChunks size data))
    (hfills : ¬ FillsCap caps (selectedBytes data (selection offset limit).1 (selection offset limit).2)) :
    (readText caps size data offset limit).map ReadText.shown =
      (readWhole caps data offset limit).map ReadText.shown := by
  by_cases hlt : (selection offset limit).1 < (fileLines (withoutBom data)).length
  · obtain ⟨kept, hread, hwhole, hsame⟩ := scan_reference hsize data hlimit hsplit hlt
    rw [hread, hwhole]
    exact present_shown hsame.1 (hsame.2 hfills) fun _ => rfl
  · rw [read_beyond hsize data hlimit hsplit (not_lt.mp hlt)]

end Avibe.Reading
