import Avibe.Reading.ScanSpec

/-!
# What is kept of the selected lines

While lines are collected, the kept lines are the selected ones (`Collected`). When a cap is passed the last
kept line is a beginning of the line of the file, and it passes the cap already (`CutOff`): unless all that
follows is a line feed, and the byte past the cap is the carriage return before it (`SplitAt`).
-/

namespace Avibe.Reading

section Kept

variable (clean : Prop) (caps : Caps) (start : Nat) (stop : Option Nat) (done : List Bytes) (cur : Bytes)

/-- The selected lines that have ended. -/
def ended : List Bytes := (done.drop start).map (dropReturn returnByte)

/-- A selected line is read up to the carriage return of its break, and fills the cap. -/
def SplitAt : Prop :=
  ∃ front, cur = front ++ [returnByte] ∧ front.getLast? ≠ some returnByte ∧ start ≤ done.length ∧
    stop.all (done.length < ·) = true ∧ done.length - start ≤ caps.maxLines ∧
    size (ended start done ++ [front]) = caps.maxBytes

structure Collected (s : Scan) : Prop where
  collecting : s.collecting = true
  within : stop.all (done.length ≤ ·) = true
  lines : s.lines = ended start done ++ if s.opened = some done.length then [cur] else []
  unopened : s.opened ≠ some done.length → start ≤ done.length → cur = []
  opened : ∀ j ∈ s.opened, start ≤ j ∧ j ≤ done.length ∧ stop.all (j < ·) = true
  kept : s.kept = size s.lines
  bytes : s.kept ≤ caps.maxBytes
  count : s.lines.length ≤ caps.maxLines + 1

/-- A beginning of a selected line that passes the cap of bytes; the carriage return of its break may be on it where
the chunks are not `clean`. -/
def Passes (front : List Bytes) (part : Bytes) : Prop :=
  (start + front.length = done.length ∧ part <+: cur ∧ size (front ++ [part]) = caps.maxBytes + 1) ∨
    ∃ line, done[start + front.length]? = some line ∧
      (part <+: dropReturn returnByte line ∨ ¬ clean ∧ part = dropReturn returnByte line ++ [returnByte]) ∧
      caps.maxBytes < size (front ++ [part])

/-- The selected lines up to one that passes a cap. -/
def CutOff (lines : List Bytes) : Prop :=
  ∃ front part, lines = front ++ [part] ∧ front = (ended start done).take front.length ∧
    start + front.length ≤ done.length ∧ stop.all (start + front.length < ·) = true ∧
    (front.length = caps.maxLines + 1 ∨
      front.length ≤ caps.maxLines ∧ size front ≤ caps.maxBytes ∧ Passes clean caps start done cur front part)

structure Stopped (s : Scan) : Prop where
  collecting : s.collecting = false
  past : start ≤ done.length
  lines : (∃ n, stop = some n ∧ n ≤ done.length ∧ s.lines = ended start (done.take n)) ∨
    CutOff clean caps start stop done cur s.lines

end Kept

variable {clean : Prop} {caps : Caps} {start : Nat} {stop : Option Nat} {done : List Bytes} {cur : Bytes}

theorem ended_append (h : start ≤ done.length) (line : Bytes) :
    ended start (done ++ [line]) = ended start done ++ [dropReturn returnByte line] := by
  rw [ended, List.drop_append_of_le_length h, List.map_append]
  rfl

theorem length_ended : (ended start done).length = done.length - start := by
  rw [ended, List.length_map, List.length_drop]

/-! ## After the cap -/

theorem Passes.grow {front : List Bytes} {part : Bytes} (h : Passes clean caps start done cur front part) (segment : Bytes) :
    Passes clean caps start done (cur ++ segment) front part := by
  cases h with
  | inl hopen => exact .inl ⟨hopen.1, hopen.2.1.trans (List.prefix_append _ _), hopen.2.2⟩
  | inr hclosed => exact .inr hclosed

/-- The line that passes the cap ends. -/
theorem Passes.close {front : List Bytes} {part : Bytes} (h : Passes clean caps start done cur front part)
    (hfront : front = (ended start done).take front.length) (hstop : stop.all (start + front.length < ·) = true)
    (hcount : front.length ≤ caps.maxLines) (segment : Bytes)
    (hsplit : clean → segment = [] → ¬ SplitAt caps start stop done cur) :
    Passes clean caps start (done ++ [cur ++ segment]) [] front part := by
  right
  cases h with
  | inr hclosed =>
      obtain ⟨line, hline, hpart⟩ := hclosed
      refine ⟨line, ?_, hpart⟩
      rw [List.getElem?_append_left (List.getElem?_eq_some_iff.mp hline).1]
      exact hline
  | inl hopen =>
      obtain ⟨hlength, hpart, hsize⟩ := hopen
      refine ⟨cur ++ segment, ?_, ?_, ?_⟩
      · rw [hlength, List.getElem?_concat_length]
      · by_cases hwhole : part = cur ++ segment
        · have hnil : segment = [] := by
            have hle := hpart.length_le
            rw [hwhole, List.length_append] at hle
            exact List.eq_nil_of_length_eq_zero (by omega)
          rw [hnil, List.append_nil] at hwhole ⊢
          rw [hwhole] at hsize ⊢
          cases dropReturn_cases (r := returnByte) cur with
          | inl hsame => exact .inl (hsame.symm ▸ List.prefix_refl cur)
          | inr hdrop =>
              obtain ⟨before, hcur, hlast, hbefore⟩ := hdrop
              have hall : front = ended start done := by
                rw [hfront, List.take_of_length_le]
                rw [length_ended]
                omega
              refine .inr ⟨fun hclean => hsplit hclean hnil ⟨before, hcur, hlast, ?_, ?_, ?_, ?_⟩, ?_⟩
              · omega
              · rwa [hlength] at hstop
              · omega
              · rw [hcur, size_concat, List.length_append, List.length_singleton] at hsize
                rw [← hall, size_concat]
                omega
              · rw [hbefore]
                exact hcur
        · exact .inl <| prefix_dropReturn (hpart.trans (List.prefix_append _ _)) hwhole
      · rw [hsize]
        exact Nat.lt_succ_self _

theorem Stopped.grow {s : Scan} (h : Stopped clean caps start stop done cur s) (segment : Bytes) {s' : Scan}
    (hlines : s'.lines = s.lines) (hcollecting : s'.collecting = false) :
    Stopped clean caps start stop done (cur ++ segment) s' where
  collecting := hcollecting
  past := h.past
  lines := by
    rw [hlines]
    cases h.lines with
    | inl hall => exact .inl hall
    | inr hcut =>
        obtain ⟨front, part, heq, hfront, hlength, hstop, hcaps⟩ := hcut
        exact .inr ⟨front, part, heq, hfront, hlength, hstop,
          hcaps.imp id fun hbytes => ⟨hbytes.1, hbytes.2.1, hbytes.2.2.grow segment⟩⟩

theorem Stopped.close {s : Scan} (h : Stopped clean caps start stop done cur s) (segment : Bytes)
    (hsplit : clean → segment = [] → ¬ SplitAt caps start stop done cur) {s' : Scan} (hlines : s'.lines = s.lines)
    (hcollecting : s'.collecting = false) : Stopped clean caps start stop (done ++ [cur ++ segment]) [] s' where
  collecting := hcollecting
  past := by
    rw [List.length_append]
    exact Nat.le_add_right_of_le h.past
  lines := by
    rw [hlines]
    cases h.lines with
    | inl hall =>
        obtain ⟨n, hn, hle, heq⟩ := hall
        refine .inl ⟨n, hn, ?_, ?_⟩
        · rw [List.length_append]
          exact Nat.le_add_right_of_le hle
        · rw [List.take_append_of_le_length hle, heq]
    | inr hcut =>
        obtain ⟨front, part, heq, hfront, hlength, hstop, hcaps⟩ := hcut
        refine .inr ⟨front, part, heq, ?_, ?_, hstop, ?_⟩
        · rw [ended_append h.past, List.take_append_of_le_length]
          · exact hfront
          · rw [length_ended]
            omega
        · rw [List.length_append]
          exact Nat.le_add_right_of_le hlength
        · exact hcaps.imp id fun hbytes =>
            ⟨hbytes.1, hbytes.2.1, hbytes.2.2.close hfront hstop hbytes.1 segment hsplit⟩

/-! ## Collecting -/

/-- The last line is open, and the separator before it is counted. -/
structure Opened (caps : Caps) (front : List Bytes) (cur : Bytes) (s : Scan) : Prop where
  lines : s.lines = front ++ [cur]
  kept : s.kept = size (front ++ [cur])
  bytes : s.kept ≤ caps.maxBytes + 1
  frontBytes : size front ≤ caps.maxBytes
  count : front.length ≤ caps.maxLines + 1

theorem Collected.openLine {s : Scan} (h : Collected caps start stop done cur s) (hindex : s.index = done.length)
    (hstart : start ≤ done.length) : Opened caps (ended start done) cur s.openLine := by
  have hlines := h.lines
  have hkept := h.kept
  have hbytes := h.bytes
  have hcount := h.count
  rw [Scan.openLine, hindex]
  by_cases hopened : s.opened = some done.length
  · rw [if_pos hopened] at hlines ⊢
    rw [hlines] at hkept hcount
    rw [List.length_append, List.length_singleton] at hcount
    refine ⟨hlines, hkept, Nat.le_succ_of_le hbytes, ?_, by omega⟩
    rw [hkept, size_concat] at hbytes
    omega
  · rw [if_neg hopened, List.append_nil] at hlines
    rw [if_neg hopened]
    have hcur := h.unopened hopened hstart
    rw [hlines] at hkept hcount
    have hsize : s.kept + (if s.lines = [] then 0 else 1) = size (ended start done ++ [cur]) := by
      rw [hcur, size_concat, hkept, hlines]
      rfl
    refine ⟨by rw [hcur, hlines], ?_, ?_, by omega, hcount⟩
    · exact hsize
    · dsimp only
      split <;> omega

/-- The last line with a piece at its end. -/
def filled (cur : Bytes) (room : Nat) (segment : Bytes) (e : Bool) : Bytes :=
  let line := cur ++ segment.take room
  if e && segment.length ≤ room && oneReturn returnByte line then line.dropLast else line

theorem fill_spec {s : Scan} {front : List Bytes} (hlines : s.lines = front ++ [cur]) (hkept : s.kept = size s.lines)
    (room : Nat) (segment : Bytes) (e : Bool) :
    (s.fill room segment e).lines = front ++ [filled cur room segment e] ∧
      (s.fill room segment e).kept = size (front ++ [filled cur room segment e]) := by
  have hlast : s.lines.getLastD [] = cur := by
    rw [hlines, List.getLastD_concat]
  have hfront : s.lines.dropLast = front := by
    rw [hlines, List.dropLast_concat]
  have hsize : s.kept + min segment.length room = size (front ++ [cur ++ segment.take room]) := by
    rw [hkept, hlines, size_concat, size_concat, List.length_append, List.length_take]
    omega
  rw [Scan.fill, filled]
  rw [hlast, hfront, hsize]
  split
  · rename_i hdrop
    rw [Bool.and_eq_true] at hdrop
    obtain ⟨before, hline, -⟩ := (oneReturn_iff _).mp hdrop.2
    refine ⟨rfl, ?_⟩
    dsimp only
    rw [hline, List.dropLast_concat, size_concat, size_concat, List.length_append, List.length_singleton]
    omega
  · exact ⟨rfl, rfl⟩

/-- An open line with a piece at its end: all of it, or a beginning that passes the cap. -/
theorem Opened.fill {s : Scan} {front : List Bytes} (h : Opened caps front cur s) (segment : Bytes) (e : Bool) {s' : Scan}
    (hs' : s' = if 0 < s.room caps e then s.fill (s.room caps e) segment e else s) :
    ∃ part, s'.lines = front ++ [part] ∧ s'.kept = size (front ++ [part]) ∧
      (e = false → part <+: cur ++ segment ∧ s'.kept ≤ caps.maxBytes + 1 ∧
        (s'.kept ≤ caps.maxBytes → part = cur ++ segment)) ∧
      (e = true → part <+: dropReturn returnByte (cur ++ segment) ∧
        (s'.kept ≤ caps.maxBytes → part = dropReturn returnByte (cur ++ segment))) := by
  have hkept : s.kept = size s.lines := h.lines ▸ h.kept
  have hbytes := h.bytes
  obtain ⟨hfillLines, hfillKept⟩ := fill_spec h.lines hkept (s.room caps e) segment e
  have hroom : s.room caps e = caps.maxBytes + 1 + (if e then 1 else 0) - s.kept := rfl
  have hcurSize : s.kept = size front + (if front = [] then 0 else 1) + cur.length := by
    rw [h.kept, size_concat]
  cases e with
  | false =>
      have hfilled : filled cur (s.room caps false) segment false = cur ++ segment.take (s.room caps false) := rfl
      rw [hfilled] at hfillLines hfillKept
      have hbegins : cur ++ segment.take (s.room caps false) <+: cur ++ segment :=
        (List.prefix_append_right_inj _).mpr (List.take_prefix _ _)
      have hboth : s'.lines = front ++ [cur ++ segment.take (s.room caps false)] ∧
          s'.kept = size (front ++ [cur ++ segment.take (s.room caps false)]) := by
        rw [hs']
        split
        · exact ⟨hfillLines, hfillKept⟩
        · rename_i hnone
          rw [Nat.eq_zero_of_not_pos hnone, List.take_zero, List.append_nil]
          exact ⟨h.lines, h.kept⟩
      refine ⟨_, hboth.1, hboth.2, fun _ => ⟨hbegins, ?_, fun hwithin => ?_⟩, fun hfalse => by cases hfalse⟩
      · rw [hboth.2, size_concat, List.length_append, List.length_take]
        simp only [Bool.false_eq_true, if_false] at hroom
        omega
      · rw [hboth.2, size_concat, List.length_append, List.length_take] at hwithin
        simp only [Bool.false_eq_true, if_false] at hroom
        rw [List.take_of_length_le (by omega)]
  | true =>
      simp only [if_true] at hroom
      have hpos : 0 < s.room caps true := by omega
      rw [if_pos hpos] at hs'
      rw [← hs'] at hfillLines hfillKept
      refine ⟨_, hfillLines, hfillKept, fun hfalse => (by cases hfalse), fun _ => ?_⟩
      by_cases hshort : segment.length ≤ s.room caps true
      · have hfilled : filled cur (s.room caps true) segment true = dropReturn returnByte (cur ++ segment) := by
          rw [filled, List.take_of_length_le hshort, dropReturn]
          simp [hshort]
        rw [hfilled]
        exact ⟨List.prefix_refl _, fun _ => rfl⟩
      · have hfilled : filled cur (s.room caps true) segment true = cur ++ segment.take (s.room caps true) := by
          rw [filled]
          simp [hshort]
        rw [hfilled] at hfillKept ⊢
        have hlength : (segment.take (s.room caps true)).length = s.room caps true := by
          rw [List.length_take]
          omega
        have hpart : cur ++ segment.take (s.room caps true) <+: cur ++ segment :=
          (List.prefix_append_right_inj _).mpr (List.take_prefix _ _)
        constructor
        · apply prefix_dropReturn hpart
          intro heq
          have hlengths := congrArg List.length heq
          rw [List.length_append, List.length_append, hlength] at hlengths
          omega
        · intro hwithin
          rw [hfillKept, size_concat, List.length_append, hlength] at hwithin
          omega

theorem all_le_of_lt {n : Nat} (h : stop.all (n < ·) = true) : stop.all (n ≤ ·) = true := by
  cases stop with
  | none => rfl
  | some m => exact decide_eq_true (Nat.le_of_lt (of_decide_eq_true h))

theorem checkCaps_cases (s : Scan) :
    (s.checkCaps caps = s ∧ s.kept ≤ caps.maxBytes ∧ s.lines.length ≤ caps.maxLines + 1) ∨
      (s.checkCaps caps = { s with collecting := false } ∧
        (caps.maxBytes < s.kept ∨ caps.maxLines + 1 < s.lines.length)) := by
  rw [Scan.checkCaps]
  by_cases h : caps.maxBytes < s.kept ∨ caps.maxLines + 1 < s.lines.length
  · exact .inr ⟨if_pos h, h⟩
  · obtain ⟨hbytes, hlines⟩ := not_or.mp h
    exact .inl ⟨if_neg h, not_lt.mp hbytes, not_lt.mp hlines⟩

/-- A selected line goes on or ends. -/
theorem Collected.collect {s : Scan} (h : Collected caps start stop done cur s) (hindex : s.index = done.length)
    (hstart : start ≤ done.length) (hend : stop.all (done.length < ·) = true) (segment : Bytes) :
    (Collected caps start stop done (cur ++ segment) (s.collect caps segment false) ∨
      Stopped clean caps start stop done (cur ++ segment) (s.collect caps segment false)) ∧
    (Collected caps start stop (done ++ [cur ++ segment]) [] (s.collect caps segment true) ∨
      Stopped clean caps start stop (done ++ [cur ++ segment]) [] (s.collect caps segment true)) := by
  have hopen := h.openLine hindex hstart
  have hopened : s.openLine.opened = some done.length := by
    rw [Scan.openLine, hindex]
    split
    · assumption
    · rfl
  have hcollecting : s.openLine.collecting = true := by
    rw [Scan.openLine]
    split
    · exact h.collecting
    · exact h.collecting
  have hfields : ∀ e, (if 0 < s.openLine.room caps e then s.openLine.fill (s.openLine.room caps e) segment e
      else s.openLine).opened = some done.length ∧
      (if 0 < s.openLine.room caps e then s.openLine.fill (s.openLine.room caps e) segment e
        else s.openLine).collecting = true := by
    intro e
    split
    · rw [Scan.fill]
      split
      · exact ⟨hopened, hcollecting⟩
      · exact ⟨hopened, hcollecting⟩
    · exact ⟨hopened, hcollecting⟩
  have hlength : (ended start done).length = done.length - start := length_ended
  have htake : ended start done = (ended start done).take (ended start done).length := List.take_length.symm
  have hplace : start + (ended start done).length = done.length := by omega
  constructor
  · rw [Scan.collect]
    obtain ⟨part, hlines, hkept, hpart, -⟩ := hopen.fill segment false rfl
    obtain ⟨hopened, hcollecting⟩ := hfields false
    obtain ⟨hbegins, hover, hwhole⟩ := hpart rfl
    generalize (if 0 < s.openLine.room caps false then s.openLine.fill (s.openLine.room caps false) segment false
      else s.openLine) = next at hlines hkept hbegins hover hwhole hopened hcollecting ⊢
    cases @checkCaps_cases caps next with
    | inl hwithin =>
        obtain ⟨hsame, hbytes, hcount⟩ := hwithin
        left
        rw [hsame]
        refine ⟨hcollecting, all_le_of_lt hend, ?_, fun hnone => absurd hopened hnone, ?_, ?_, hbytes, hcount⟩
        · rw [hlines, hwhole hbytes, if_pos hopened]
        · intro j hj
          rw [hopened] at hj
          obtain rfl : done.length = j := Option.some.inj hj
          exact ⟨hstart, Nat.le_refl _, hend⟩
        · rw [hkept, hlines]
    | inr hpast =>
        obtain ⟨hstopped, hcap⟩ := hpast
        right
        rw [hstopped]
        refine ⟨rfl, hstart, .inr ⟨ended start done, part, hlines, htake, Nat.le_of_eq hplace, ?_, ?_⟩⟩
        · rwa [hplace]
        · rw [hlines, List.length_append, List.length_singleton] at hcap
          have hcount := hopen.count
          by_cases hfull : (ended start done).length = caps.maxLines + 1
          · exact .inl hfull
          · refine .inr ⟨by omega, hopen.frontBytes, .inl ⟨hplace, hbegins, ?_⟩⟩
            omega
  · rw [Scan.collect]
    obtain ⟨part, hlines, hkept, -, hpart⟩ := hopen.fill segment true rfl
    obtain ⟨hopened, hcollecting⟩ := hfields true
    obtain ⟨hbegins, hwhole⟩ := hpart rfl
    generalize (if 0 < s.openLine.room caps true then s.openLine.fill (s.openLine.room caps true) segment true
      else s.openLine) = next at hlines hkept hbegins hwhole hopened hcollecting ⊢
    have hnext : (done ++ [cur ++ segment]).length = done.length + 1 := List.length_append
    cases @checkCaps_cases caps next with
    | inl hwithin =>
        obtain ⟨hsame, hbytes, hcount⟩ := hwithin
        left
        rw [hsame]
        have hother : next.opened ≠ some (done ++ [cur ++ segment]).length := by
          rw [hopened, hnext]
          exact fun heq => Nat.succ_ne_self _ (Option.some.inj heq).symm
        refine ⟨hcollecting, ?_, ?_, fun _ _ => rfl, ?_, ?_, hbytes, hcount⟩
        · rw [hnext]
          exact hend
        · rw [hlines, hwhole hbytes, if_neg hother, List.append_nil, ended_append hstart]
        · intro j hj
          rw [hopened] at hj
          obtain rfl : done.length = j := Option.some.inj hj
          exact ⟨hstart, hnext ▸ Nat.le_succ _, hend⟩
        · rw [hkept, hlines]
    | inr hpast =>
        obtain ⟨hstopped, hcap⟩ := hpast
        right
        rw [hstopped]
        refine ⟨rfl, hnext ▸ Nat.le_succ_of_le hstart, .inr ⟨ended start done, part, hlines, ?_, ?_, ?_, ?_⟩⟩
        · rw [ended_append hstart, List.take_left']
          rfl
        · rw [hplace, hnext]
          exact Nat.le_succ _
        · rwa [hplace]
        · rw [hlines, List.length_append, List.length_singleton] at hcap
          have hcount := hopen.count
          by_cases hfull : (ended start done).length = caps.maxLines + 1
          · exact .inl hfull
          · refine .inr ⟨by omega, hopen.frontBytes, .inr ⟨cur ++ segment, ?_, .inl hbegins, ?_⟩⟩
            · rw [hplace, List.getElem?_concat_length]
            · omega

/-- A line before the selection goes on or ends. -/
theorem Collected.skip {s : Scan} (h : Collected caps start stop done cur s) (hstart : done.length < start)
    (hend : stop.all (done.length < ·) = true) (segment : Bytes) :
    Collected caps start stop done (cur ++ segment) s ∧ Collected caps start stop (done ++ [cur ++ segment]) [] s := by
  have hnone : s.opened = none := by
    cases hopened : s.opened with
    | none => rfl
    | some j =>
        obtain ⟨hfirst, hlast, -⟩ := h.opened j hopened
        omega
  have hlines : s.lines = [] := by
    have hempty : ended start done = [] := List.eq_nil_of_length_eq_zero (by rw [length_ended]; omega)
    rw [h.lines, hnone, if_neg nofun, hempty]
    rfl
  have hlength : (done ++ [cur ++ segment]).length = done.length + 1 := List.length_append
  constructor
  · refine ⟨h.collecting, h.within, ?_, fun _ hle => absurd hstart (not_lt.mpr hle), h.opened, h.kept, h.bytes, h.count⟩
    rw [h.lines, hnone, if_neg nofun, if_neg nofun]
  · refine ⟨h.collecting, ?_, ?_, fun _ _ => rfl, ?_, h.kept, h.bytes, h.count⟩
    · rw [hlength]
      exact hend
    · have hempty : ended start (done ++ [cur ++ segment]) = [] :=
        List.eq_nil_of_length_eq_zero (by rw [length_ended, hlength]; omega)
      rw [hlines, hnone, if_neg nofun, hempty]
      rfl
    · intro j hj
      rw [hnone] at hj
      cases hj

/-- At the end of the selection. -/
theorem Collected.finish {s : Scan} (h : Collected caps start stop done cur s) (hstop : stop.all (start < ·) = true)
    (hend : stop.any (· ≤ done.length) = true) :
    Stopped clean caps start stop done cur { s with collecting := false } := by
  cases stop with
  | none => cases hend
  | some n =>
      have hlt : start < n := of_decide_eq_true hstop
      have hle : n ≤ done.length := of_decide_eq_true hend
      refine ⟨rfl, Nat.le_of_lt (Nat.lt_of_lt_of_le hlt hle), .inl ⟨n, rfl, hle, ?_⟩⟩
      have hother : s.opened ≠ some done.length := by
        intro hopened
        have hbefore : done.length < n := of_decide_eq_true (h.opened _ hopened).2.2
        omega
      have hall : done.take n = done := List.take_of_length_le (of_decide_eq_true h.within)
      rw [hall]
      have hlines := h.lines
      rw [if_neg hother, List.append_nil] at hlines
      exact hlines

/-! ## Every piece -/

/-- What a scan knows after some lines and the beginning of another one. -/
structure Follows (clean : Prop) (caps : Caps) (start : Nat) (stop : Option Nat) (done : List Bytes) (cur : Bytes) (s : Scan) :
    Prop where
  index : s.index = done.length
  measured : Measured start done cur s.first
  kept : Collected caps start stop done cur s ∨ Stopped clean caps start stop done cur s

theorem collect_first (s : Scan) (segment : Bytes) (e : Bool) : (s.collect caps segment e).first = s.first := by
  have hopen : s.openLine.first = s.first := by
    rw [Scan.openLine]
    split <;> rfl
  have hcheck : ∀ s : Scan, (s.checkCaps caps).first = s.first := by
    intro s
    rw [Scan.checkCaps]
    split <;> rfl
  rw [Scan.collect, hcheck, ← hopen]
  split
  · rw [Scan.fill]
    split <;> rfl
  · rfl

theorem Stopped.piece {s : Scan} (h : Stopped clean caps start stop done cur s) (hindex : s.index = done.length)
    (hmeasured : Measured start done cur s.first) (segment : Bytes) :
    Follows clean caps start stop done (cur ++ segment) (s.piece caps start stop segment false) ∧
      ((clean → segment = [] → ¬ SplitAt caps start stop done cur) →
        Follows clean caps start stop (done ++ [cur ++ segment]) [] (s.piece caps start stop segment true)) := by
  have hlines : ∀ e, (s.measureFirst start segment e).lines = s.lines := by
    intro e
    rw [Scan.measureFirst]
    split <;> rfl
  have hstopped : ∀ e, (s.measureFirst start segment e).collecting = false := by
    intro e
    rw [Scan.measureFirst_collecting, h.collecting]
  obtain ⟨hopen, hclosed⟩ := hmeasured.piece hindex segment
  rw [Scan.piece_stopped h.collecting, Scan.piece_stopped h.collecting, if_neg Bool.false_ne_true, if_pos rfl]
  constructor
  · refine ⟨?_, hopen, .inr (h.grow segment (hlines false) (hstopped false))⟩
    rw [Scan.measureFirst_index, hindex]
  · intro hsplit
    refine ⟨?_, hclosed, .inr (h.close segment hsplit (hlines true) (hstopped true))⟩
    rw [List.length_append, hindex]
    rfl

/-- Every piece of a line keeps what is known, unless it only completes a break past the cap. -/
theorem Follows.piece {s : Scan} (h : Follows clean caps start stop done cur s) (hstop : stop.all (start < ·) = true)
    (segment : Bytes) :
    Follows clean caps start stop done (cur ++ segment) (s.piece caps start stop segment false) ∧
      ((clean → segment = [] → ¬ SplitAt caps start stop done cur) →
        Follows clean caps start stop (done ++ [cur ++ segment]) [] (s.piece caps start stop segment true)) := by
  cases h.kept with
  | inr hstopped => exact hstopped.piece h.index h.measured segment
  | inl hcollected =>
      by_cases hend : stop.any (· ≤ s.index) = true
      · rw [Scan.piece_stop hend, Scan.piece_stop hend]
        have hfinish : Stopped clean caps start stop done cur { s with collecting := false } :=
          hcollected.finish hstop (h.index ▸ hend)
        exact hfinish.piece (s := { s with collecting := false }) h.index h.measured segment
      · have hopen : stop.all (done.length < ·) = true := by
          rw [h.index] at hend
          cases stop with
          | none => rfl
          | some n => exact decide_eq_true (not_le.mp fun hle => hend (decide_eq_true hle))
        obtain ⟨hmeasuredOpen, hmeasuredClosed⟩ := h.measured.piece h.index segment
        rw [Scan.piece_collecting hcollected.collecting hend, Scan.piece_collecting hcollected.collecting hend,
          if_neg Bool.false_ne_true, if_pos rfl]
        have hcollected' : ∀ e, Collected caps start stop done cur (s.measureFirst start segment e) := by
          intro e
          rw [Scan.measureFirst]
          split
          · exact ⟨hcollected.collecting, hcollected.within, hcollected.lines, hcollected.unopened,
              hcollected.opened, hcollected.kept, hcollected.bytes, hcollected.count⟩
          · exact hcollected
        have hindex : ∀ e, (s.measureFirst start segment e).index = done.length := by
          intro e
          rw [Scan.measureFirst_index, h.index]
        have hlength : (done ++ [cur ++ segment]).length = done.length + 1 := List.length_append
        rw [Scan.take, Scan.take, hindex, hindex]
        by_cases hstart : start ≤ done.length
        · rw [if_pos hstart, if_pos hstart]
          constructor
          · refine ⟨?_, ?_, ((hcollected' false).collect (hindex false) hstart hopen segment).1⟩
            · rw [Scan.collect_index, hindex]
            · rw [collect_first]
              exact hmeasuredOpen
          · refine fun _ => ⟨?_, ?_, ?_⟩
            · rw [hlength, ← h.index]
            · dsimp only
              rw [collect_first]
              exact hmeasuredClosed
            · have hnext : Collected caps start stop (done ++ [cur ++ segment]) []
                    ((s.measureFirst start segment true).collect caps segment true) ∨
                  Stopped clean caps start stop (done ++ [cur ++ segment]) []
                    ((s.measureFirst start segment true).collect caps segment true) :=
                ((hcollected' true).collect (hindex true) hstart hopen segment).2
              exact hnext.imp
                (fun hc => ⟨hc.collecting, hc.within, hc.lines, hc.unopened, hc.opened, hc.kept, hc.bytes, hc.count⟩)
                (fun hs => ⟨hs.collecting, hs.past, hs.lines⟩)
        · rw [if_neg hstart, if_neg hstart]
          have hbefore := not_le.mp hstart
          constructor
          · refine ⟨hindex false, hmeasuredOpen, .inl ((hcollected' false).skip hbefore hopen segment).1⟩
          · intro _
            have hskip := ((hcollected' true).skip hbefore hopen segment).2
            refine ⟨?_, hmeasuredClosed, .inl ⟨hskip.collecting, hskip.within, hskip.lines, hskip.unopened,
              hskip.opened, hskip.kept, hskip.bytes, hskip.count⟩⟩
            rw [hlength, ← h.index]

end Avibe.Reading
