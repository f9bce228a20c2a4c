import Avibe.Reading.Kept

/-!
# The scan of a whole file

However a file is cut into chunks, the scan counts its lines and measures the first selected one, and it keeps
the selected lines or a beginning of them that passes a cap (`scanLines_spec`). Where a chunk ends inside the
break of a line that fills the cap (`SplitBreak`), the carriage return of the break is kept on that line; what is
`clean` is free of such chunks.
-/

namespace Avibe.Reading

open Texts
open Edits (shown)

variable {clean : Prop} {caps : Caps} {start : Nat} {stop : Option Nat} {done : List Bytes} {cur : Bytes}

/-- A chunk ends between the carriage return and the line feed of a selected line that fills the cap. -/
def SplitBreak (caps : Caps) (start : Nat) (stop : Option Nat) (chunks : List Bytes) : Prop :=
  ∃ past chunk later done cur, chunks = past ++ chunk :: later ∧ chunk.head? = some newline ∧
    past.flatten.splitOn newline = done ++ [cur] ∧ SplitAt caps start stop done cur

theorem Follows.pieces {s : Scan} (h : Follows clean caps start stop done cur s) (hstop : stop.all (start < ·) = true)
    {segment : Bytes} {rest : List Bytes} (hsplit : clean → rest ≠ [] → segment = [] → ¬ SplitAt caps start stop done cur) :
    ∃ done' cur', done' ++ [cur'] = done ++ (cur ++ segment) :: rest ∧
      Follows clean caps start stop done' cur' (s.pieces caps start stop (segment :: rest)) ∧
      ((s.pieces caps start stop (segment :: rest)).collecting = true → stop.all (done'.length < ·) = true) := by
  induction rest generalizing s done cur segment with
  | nil =>
      have hpiece := (h.piece hstop segment).1
      refine ⟨done, cur ++ segment, rfl, hpiece, ?_⟩
      rw [Scan.pieces, if_pos rfl]
      intro hcollecting
      by_contra hend
      have hpast : stop.any (· ≤ s.index) = true := by
        rw [h.index]
        cases stop with
        | none => exact absurd rfl hend
        | some n => exact decide_eq_true (not_lt.mp fun hlt => hend (decide_eq_true hlt))
      rw [Scan.piece_stop hpast, Scan.piece_stopped rfl, if_neg Bool.false_ne_true, Scan.measureFirst_collecting]
        at hcollecting
      cases hcollecting
  | cons next rest ih =>
      have hpiece := (h.piece hstop segment).2 fun hclean => hsplit hclean (List.cons_ne_nil _ _)
      have hnone : clean → rest ≠ [] → next = [] → ¬ SplitAt caps start stop (done ++ [cur ++ segment]) [] := by
        rintro - - - ⟨front, hcur, -⟩
        exact absurd hcur (List.append_ne_nil_of_right_ne_nil _ (List.cons_ne_nil _ _)).symm
      obtain ⟨done', cur', hlines, hfollows, hsettled⟩ := ih hpiece hnone
      rw [Scan.pieces, if_neg (List.cons_ne_nil _ _)]
      refine ⟨done', cur', ?_, hfollows, hsettled⟩
      rw [hlines]
      simp

theorem Follows.chunk {s : Scan} (h : Follows clean caps start stop done cur s) (hstop : stop.all (start < ·) = true)
    {chunk : Bytes} (hsplit : clean → chunk.head? = some newline → ¬ SplitAt caps start stop done cur) {before : Bytes}
    (hbefore : before.splitOn newline = done ++ [cur]) :
    ∃ done' cur', (before ++ chunk).splitOn newline = done' ++ [cur'] ∧
      Follows clean caps start stop done' cur' (s.scanChunk caps start stop chunk) ∧
      ((s.scanChunk caps start stop chunk).collecting = true → stop.all (done'.length < ·) = true) := by
  obtain ⟨segment, rest, hchunk⟩ := List.exists_cons_of_ne_nil (List.splitOn_ne_nil newline chunk)
  have hstart : s.collecting = false → start ≤ s.index := by
    intro hstopped
    cases h.kept with
    | inl hcollected =>
        rw [hcollected.collecting] at hstopped
        cases hstopped
    | inr hs => exact h.index ▸ hs.past
  have hhead : clean → rest ≠ [] → segment = [] → ¬ SplitAt caps start stop done cur := by
    intro hclean hrest hnil
    apply hsplit hclean
    obtain ⟨next, rest, rfl⟩ := List.exists_cons_of_ne_nil hrest
    have hjoined : [newline].intercalate (chunk.splitOn newline) = chunk := List.intercalate_splitOn newline
    rw [hchunk, hnil] at hjoined
    rw [← hjoined]
    rfl
  obtain ⟨done', cur', hlines, hfollows, hsettled⟩ := h.pieces hstop hhead
  rw [Scan.scanChunk, hchunk, Scan.scanSegments_eq hstart hstop (List.cons_ne_nil _ _)]
  exact ⟨done', cur', (splitOn_append hbefore hchunk).trans hlines.symm, hfollows, hsettled⟩

theorem follows_new (hstop : stop.all (start < ·) = true) : Follows clean caps start stop [] [] (.new start stop) where
  index := rfl
  measured := measured_new start
  kept := by
    left
    refine ⟨hstop, ?_, ?_, fun _ _ => rfl, fun j hj => (by cases hj), rfl, Nat.zero_le _, Nat.zero_le _⟩
    · cases stop with
      | none => rfl
      | some n => exact decide_eq_true (Nat.zero_le n)
    · simp [ended, Scan.new]

/-- After every sequence of chunks. -/
theorem follows_run (hstop : stop.all (start < ·) = true) (chunks : List Bytes)
    (hsplit : clean → ¬ SplitBreak caps start stop chunks) :
    ∃ done cur, chunks.flatten.splitOn newline = done ++ [cur] ∧
      Follows clean caps start stop done cur (chunks.foldl (Scan.scanChunk caps start stop) (.new start stop)) ∧
      ((chunks.foldl (Scan.scanChunk caps start stop) (.new start stop)).collecting = true →
        stop.all (done.length < ·) = true) := by
  induction chunks using List.reverseRecOn with
  | nil =>
      refine ⟨[], [], rfl, follows_new hstop, fun _ => ?_⟩
      cases stop with
      | none => rfl
      | some n => exact decide_eq_true (Nat.zero_lt_of_lt (of_decide_eq_true hstop))
  | append_singleton chunks chunk ih =>
      obtain ⟨done, cur, hlines, hfollows, -⟩ := ih (by
        rintro hclean ⟨past, first, later, done, cur, rfl, hrest⟩
        exact hsplit hclean ⟨past, first, later ++ [chunk], done, cur, by simp, hrest⟩)
      have hat : clean → chunk.head? = some newline → ¬ SplitAt caps start stop done cur :=
        fun hclean hhead hat => hsplit hclean ⟨chunks, chunk, [], done, cur, rfl, hhead, hlines, hat⟩
      rw [List.foldl_append, List.flatten_append, List.flatten_singleton]
      exact hfollows.chunk hstop hat hlines

/-! ## The result -/

/-- The kept lines are the selected ones, or the first of them up to a beginning of one that passes a cap; it may have
the carriage return of its break where the chunks are not clean. -/
inductive KeptOf (clean : Prop) (caps : Caps) (selected : List Bytes) : List Bytes → Prop where
  | all : KeptOf clean caps selected selected
  | cut (front : List Bytes) (line : Bytes) (rest : List Bytes) (part : Bytes)
      (heq : selected = front ++ line :: rest)
      (hcaps : front.length = caps.maxLines + 1 ∨ front.length ≤ caps.maxLines ∧ size front ≤ caps.maxBytes ∧
        (part <+: line ∨ ¬ clean ∧ part = line ++ [returnByte]) ∧ caps.maxBytes < size (front ++ [part])) :
      KeptOf clean caps selected (front ++ [part])

theorem endedLines_concat (done : List Bytes) (cur : Bytes) :
    endedLines returnByte (done ++ [cur]) = done.map (dropReturn returnByte) ++ [cur] := by
  rw [endedLines, List.dropLast_concat, List.getLast?_concat]
  rfl

theorem select_ended (hstart : start ≤ done.length) (hend : stop.all (done.length < ·) = true) :
    select start stop (endedLines returnByte (done ++ [cur])) = ended start done ++ [cur] := by
  have hdrop : (done.map (dropReturn returnByte) ++ [cur]).drop start = ended start done ++ [cur] := by
    rw [List.drop_append_of_le_length (by rwa [List.length_map]), ended, List.map_drop]
  rw [endedLines_concat]
  cases stop with
  | none => exact hdrop
  | some n =>
      rw [select, List.take_of_length_le]
      · exact hdrop
      · rw [List.length_append, List.length_map]
        exact of_decide_eq_true hend

theorem select_done {n : Nat} (hn : n ≤ done.length) :
    select start (some n) (endedLines returnByte (done ++ [cur])) = ended start (done.take n) := by
  rw [endedLines_concat, select, List.take_append_of_le_length (by rwa [List.length_map]), ended, List.map_drop,
    List.map_take]

/-- A place in the selection. -/
theorem select_at {j : Nat} {line : Bytes} (hstart : start ≤ done.length) (hstop : stop.all (start + j < ·) = true)
    (hj : (ended start done ++ [cur])[j]? = some line) :
    ∃ rest, select start stop (endedLines returnByte (done ++ [cur])) =
      (ended start done ++ [cur]).take j ++ line :: rest := by
  have hall : select start none (endedLines returnByte (done ++ [cur])) = ended start done ++ [cur] :=
    select_ended hstart rfl
  have hselect : select start stop (endedLines returnByte (done ++ [cur])) =
      match stop with
      | some n => (ended start done ++ [cur]).take (n - start)
      | none => ended start done ++ [cur] := by
    rw [← hall]
    cases stop with
    | none => rfl
    | some n => exact List.drop_take
  obtain ⟨hlt, hline⟩ := List.getElem?_eq_some_iff.mp hj
  have hsplit := List.take_append_drop j (ended start done ++ [cur])
  rw [List.drop_eq_getElem_cons hlt, hline] at hsplit
  rw [hselect]
  cases stop with
  | none => exact ⟨_, hsplit.symm⟩
  | some n =>
      have hn : j < n - start := by
        have := of_decide_eq_true hstop
        omega
      obtain ⟨m, hm⟩ : ∃ m, n - start = j + (m + 1) := ⟨n - start - (j + 1), by omega⟩
      refine ⟨((ended start done ++ [cur]).drop (j + 1)).take m, ?_⟩
      dsimp only
      rw [hm, List.take_add, List.drop_eq_getElem_cons hlt, hline, List.take_succ_cons]

/-- What was cut off is a beginning of the selection. -/
theorem CutOff.keptOf {lines : List Bytes} (h : CutOff clean caps start stop done cur lines) :
    KeptOf clean caps (select start stop (endedLines returnByte (done ++ [cur]))) lines := by
  obtain ⟨front, part, rfl, hfront, hlength, hstop, hcaps⟩ := h
  have hstart : start ≤ done.length := Nat.le_of_add_right_le hlength
  have hlt : front.length < (ended start done ++ [cur]).length := by
    rw [List.length_append, length_ended, List.length_singleton]
    omega
  have htake : (ended start done ++ [cur]).take front.length = front := by
    rw [List.take_append_of_le_length]
    · exact hfront.symm
    · rw [length_ended]
      omega
  obtain ⟨rest, hselect⟩ := select_at hstart hstop (List.getElem?_eq_getElem hlt)
  rw [htake] at hselect
  refine .cut front _ rest part hselect ?_
  cases hcaps with
  | inl hcount => exact .inl hcount
  | inr hbytes =>
      obtain ⟨hcount, hsize, hpasses⟩ := hbytes
      right
      refine ⟨hcount, hsize, ?_⟩
      cases hpasses with
      | inl hopen =>
          obtain ⟨hplace, hpart, hover⟩ := hopen
          have hcur : (ended start done ++ [cur])[front.length] = cur := by
            rw [List.getElem_append_right]
            · simp
            · rw [length_ended]
              omega
          rw [hcur]
          exact ⟨.inl hpart, hover ▸ Nat.lt_succ_self _⟩
      | inr hclosed =>
          obtain ⟨line, hline, hpart, hover⟩ := hclosed
          have hended : (ended start done)[front.length]? = some (dropReturn returnByte line) := by
            rw [ended, List.getElem?_map, List.getElem?_drop, hline]
            rfl
          have hwhole : (ended start done ++ [cur])[front.length] = dropReturn returnByte line := by
            rw [List.getElem_append_left (List.getElem?_eq_some_iff.mp hended).1]
            exact (List.getElem?_eq_some_iff.mp hended).2
          rw [hwhole]
          exact ⟨hpart, hover⟩

def decoded (line : Bytes) : Text := shown (decodeFile line)

/-- The scan of a file, however it is cut into chunks. -/
theorem scanLines_spec (hstop : stop.all (start < ·) = true) (chunks : List Bytes)
    (hsplit : clean → ¬ SplitBreak caps start stop chunks) {lines : List Bytes}
    (hlines : lines = endedLines returnByte (chunks.flatten.splitOn newline)) :
    ∃ kept firstLineBytes, scanLines caps start stop chunks = (kept.map decoded, lines.length, firstLineBytes) ∧
      (∀ line, lines[start]? = some line → firstLineBytes = shownSize line) ∧
      (start < lines.length → KeptOf clean caps (select start stop lines) kept) := by
  obtain ⟨done, cur, hraw, hfollows, hsettled⟩ := follows_run hstop chunks hsplit
  rw [scanLines]
  generalize chunks.foldl (Scan.scanChunk caps start stop) (.new start stop) = s at hfollows hsettled
  have hindex := hfollows.index
  rw [hraw] at hlines
  have hlength : lines.length = done.length + 1 := by
    rw [hlines, endedLines_concat, List.length_append, List.length_map, List.length_singleton]
  refine ⟨if s.collecting && s.opened ≠ some s.index && start ≤ s.index then s.lines ++ [[]] else s.lines,
    if s.index = start then s.first.bytes + utf8Len (shown (decodeFile s.first.pending)) else s.first.bytes,
    ?_, ?_, ?_⟩
  · rw [hlength, ← hindex]
    rfl
  · intro line hline
    have hlt := (List.getElem?_eq_some_iff.mp hline).1
    rw [hlines, endedLines_concat] at hline
    by_cases hfirst : s.index = start
    · rw [if_pos hfirst]
      have hplace : done.length = start := hindex ▸ hfirst
      have hmap : (done.map (dropReturn returnByte)).length = start := by rwa [List.length_map]
      rw [← hmap, List.getElem?_concat_length] at hline
      obtain rfl : cur = line := Option.some.inj hline
      have hsize := (hfollows.measured.inside hplace).2 []
      rw [List.append_nil, List.append_nil] at hsize
      exact hsize.symm
    · rw [if_neg hfirst]
      have hbefore : start < done.length := by omega
      rw [List.getElem?_append_left (by rwa [List.length_map]), List.getElem?_map] at hline
      obtain ⟨raw, hat, rfl⟩ := Option.map_eq_some_iff.mp hline
      exact hfollows.measured.after raw hat
  · intro hlt
    have hstart : start ≤ done.length := by omega
    rw [hlines]
    cases hfollows.kept with
    | inl hcollected =>
        rw [select_ended hstart (hsettled hcollected.collecting), hcollected.collecting, hindex]
        have hkept := hcollected.lines
        by_cases hopened : s.opened = some done.length
        · rw [if_pos hopened] at hkept
          simp only [hopened, ne_eq, not_true_eq_false, decide_false, Bool.and_false, Bool.false_and,
            Bool.false_eq_true, if_false]
          rw [hkept]
          exact .all
        · rw [if_neg hopened, List.append_nil] at hkept
          simp only [ne_eq, hopened, not_false_eq_true, decide_true, Bool.true_and, hstart, if_true]
          rw [hcollected.unopened hopened hstart, hkept]
          exact .all
    | inr hstopped =>
        rw [hstopped.collecting, Bool.false_and, Bool.false_and, if_neg Bool.false_ne_true]
        cases hstopped.lines with
        | inl hall =>
            obtain ⟨n, rfl, hle, hkept⟩ := hall
            rw [hkept, select_done hle]
            exact .all
        | inr hcut => exact hcut.keptOf

end Avibe.Reading
