import Avibe.Reading.WholeSpec

/-!
# Following the notices

Reading on where each notice says, from the first line on, shows the lines of the file group by group, each line
once and in order, and ends with the last line, or at the first line that is longer than the cap of bytes.
-/

namespace Avibe.Reading

open Texts Output

variable {caps : Caps}

/-- The reads from an offset on, each one at the offset that the notice before it names. -/
def follow (read : Nat → Except ReadError ReadText) : Nat → Nat → Option (List ReadText)
  | 0, _ => none
  | fuel + 1, offset =>
      match read offset with
      | .error _ => none
      | .ok r =>
          match r.notice.bind Notice.next? with
          | none => some [r]
          | some next => (follow read fuel next).map (r :: ·)

/-- The offsets of those reads. -/
def followed (read : Nat → Except ReadError ReadText) : Nat → Nat → List Nat
  | 0, _ => []
  | fuel + 1, offset =>
      offset ::
        match read offset with
        | .error _ => []
        | .ok r =>
            match r.notice.bind Notice.next? with
            | none => []
            | some next => followed read fuel next

/-- The lines from a place on are shown group by group, up to one that is too long. -/
def Visited (caps : Caps) (start : Nat) (lines : List Text) (reads : List ReadText) (groups : List (List Text)) : Prop :=
  (lines = groups.flatten ∧ reads.map ReadText.content = groups.map joined) ∨
    ∃ line later earlier last, lines = groups.flatten ++ line :: later ∧ caps.maxBytes < utf8Len line ∧
      reads = earlier ++ [last] ∧ earlier.map ReadText.content = groups.map joined ∧
      last.notice = some (.lineExceeds (start + groups.flatten.length + 1) (utf8Len line))

/-- What one read shows of the lines from a place on. -/
inductive Shows (caps : Caps) (start : Nat) (r : ReadText) : List Text → Prop where
  | long {line : Text} {later : List Text} (hlong : caps.maxBytes < utf8Len line)
      (hnotice : r.notice = some (.lineExceeds (start + 1) (utf8Len line))) : Shows caps start r (line :: later)
  | some {group later : List Text} (hgroup : group ≠ []) (hlater : later ≠ []) (hcontent : r.content = joined group)
      (hnotice : r.notice.bind Notice.next? = some (start + group.length + 1)) : Shows caps start r (group ++ later)
  | all {lines : List Text} (hcontent : r.content = joined lines) (hnotice : r.notice = none) : Shows caps start r lines

/-- The selected lines are the first of those from a place on, and others are left exactly if the selection
stops before the end. -/
theorem select_drop {start : Nat} {limit : Option Nat} (hlimit : ∀ n, limit = some n → 0 < n) {lines : List Text}
    (hstart : start < lines.length) :
    ∃ first more later, select start (limit.map (start + ·)) lines = first :: more ∧
      lines.drop start = first :: more ++ later ∧
      (later = [] → ∀ n ∈ limit.map (start + ·), lines.length ≤ n) ∧
      (later ≠ [] → limit.map (start + ·) = some (start + (first :: more).length)) := by
  cases limit with
  | none =>
      refine ⟨lines[start], lines.drop (start + 1), [], List.drop_eq_getElem_cons hstart, ?_, ?_, ?_⟩
      · rw [List.append_nil]
        exact List.drop_eq_getElem_cons hstart
      · exact fun _ n hn => by cases hn
      · exact fun h => absurd rfl h
  | some n =>
      have hn := hlimit n rfl
      have hselect : select start ((Option.some n).map (start + ·)) lines = (lines.drop start).take n := by
        rw [Option.map_some, select, List.drop_take, Nat.add_sub_cancel_left]
      have hsplit := List.take_append_drop n (lines.drop start)
      obtain ⟨m, rfl⟩ := Nat.exists_eq_succ_of_ne_zero (Nat.ne_of_gt hn)
      have hcons : (lines.drop start).take (m + 1) = lines[start] :: (lines.drop (start + 1)).take m := by
        rw [List.drop_eq_getElem_cons hstart, List.take_succ_cons]
      refine ⟨_, _, (lines.drop start).drop (m + 1), hselect.trans hcons, ?_, ?_, ?_⟩
      · rw [← hcons]
        exact hsplit.symm
      · intro hnil k hk
        obtain rfl : start + (m + 1) = k := Option.some.inj hk
        rw [List.drop_drop, List.drop_eq_nil_iff] at hnil
        exact hnil
      · intro hsome
        have hlength : m + 1 ≤ (lines.drop start).length := by
          by_contra hshort
          exact hsome (List.drop_eq_nil_of_le (Nat.le_of_lt (not_le.mp hshort)))
        rw [← hcons, List.length_take, Nat.min_eq_left hlength]
        rfl

/-- One read of a line of the file. -/
theorem readText_shows {size : Nat} (hsize : 0 < size) (hl : 0 < caps.maxLines) (data : Bytes) {start : Nat}
    {limit : Option Nat} (hlimit : ∀ n, limit = some n → 0 < n)
    (hsplit : ¬ SplitBreak caps start (limit.map (start + ·)) (fileChunks size data))
    (hstart : start < (fileLines (withoutBom data)).length) :
    ∃ r, readText caps size data (some (start + 1)) limit = .ok r ∧
      Shows caps start r ((fileLines (withoutBom data)).drop start) := by
  have hstop : (limit.map (start + ·)).all (start < ·) = true := @selection_stop (some (start + 1)) limit hlimit
  obtain ⟨kept, firstLineBytes, hscan, hkept⟩ := scanLines_file hsize data hstop fun _ : True => hsplit
  obtain ⟨hfirst, hkept⟩ := hkept hstart
  obtain ⟨first, more, later, hselect, hdrop, hlast, hnext⟩ := select_drop hlimit hstart
  have hselected : (selectedBytes data start (limit.map (start + ·))).map decoded = first :: more := by
    rw [← hselect, fileLines_eq, select_map]
    rfl
  have hfeed : ∀ line ∈ first :: more, lineFeed ∉ line := by
    intro line hline
    rw [← hselected] at hline
    obtain ⟨raw, hraw, rfl⟩ := List.mem_map.mp hline
    exact lineFeed_notMem_decoded (newline_notMem_selectedBytes hraw)
  obtain ⟨hhead, -⟩ := sameTruncation_of_keptOf hkept fun line hline => newline_notMem_selectedBytes hline
  rw [hselected] at hhead
  have hread : readText caps size data (some (start + 1)) limit =
      present caps start (limit.map (start + ·)) (kept.map decoded) (fileLines (withoutBom data)).length
        firstLineBytes := by
    rw [readText_eq]
    have hselection : selection (some (start + 1)) limit = (start, limit.map (start + ·)) := rfl
    rw [hselection, hscan]
  obtain ⟨hcontent, htruncated, hexceeds, houtput⟩ := hhead
  rw [hread, present, if_neg (not_le.mpr hstart)]
  dsimp only
  rw [hexceeds, htruncated, hcontent, houtput]
  rcases truncateHead_joined hl hfeed rfl with ⟨hlong, hover⟩ | ⟨hfits, hcut, hpos, hlt, htext⟩ | ⟨hfits, hwhole, htext⟩
  · rw [if_pos hlong]
    refine ⟨_, rfl, ?_⟩
    have hline : (fileLines (withoutBom data)).getD start [] = first := by
      rw [List.getD_eq_getElem?_getD, ← List.head?_drop, hdrop]
      rfl
    rw [hdrop, hfirst, hline]
    exact .long hover rfl
  · rw [if_neg (hfits ▸ Bool.false_ne_true), if_pos hcut]
    refine ⟨_, rfl, ?_⟩
    generalize (truncateHead (joined (first :: more)) caps.maxLines caps.maxBytes).outputLines = n at hpos hlt htext ⊢
    have hparts : (fileLines (withoutBom data)).drop start =
        (first :: more).take n ++ ((first :: more).drop n ++ later) := by
      rw [hdrop, ← List.append_assoc, List.take_append_drop]
    rw [hparts]
    refine .some ?_ ?_ htext ?_
    · intro hnil
      rw [List.take_eq_nil_iff] at hnil
      exact hnil.elim (fun hzero => absurd hzero (Nat.ne_of_gt hpos)) (List.cons_ne_nil _ _)
    · intro hnil
      rw [List.append_eq_nil_iff, List.drop_eq_nil_iff] at hnil
      exact absurd hlt (not_lt.mpr hnil.1)
    · rw [List.length_take, Nat.min_eq_left (Nat.le_of_lt hlt)]
      dsimp only [Option.bind, Notice.next?]
      congr 1
      omega
  · rw [if_neg (hfits ▸ Bool.false_ne_true), if_neg (hwhole ▸ Bool.false_ne_true)]
    by_cases hend : later = []
    · have hnone : ∀ n ∈ limit.map (start + ·), ¬ n < (fileLines (withoutBom data)).length :=
        fun n hn => not_lt.mpr (hlast hend n hn)
      rw [hdrop, hend, List.append_nil]
      cases hlim : limit.map (start + ·) with
      | none => exact ⟨_, rfl, .all htext rfl⟩
      | some n =>
          dsimp only
          rw [if_neg (hnone n hlim)]
          exact ⟨_, rfl, .all htext rfl⟩
    · rw [hnext hend]
      have hlength : start + (first :: more).length < (fileLines (withoutBom data)).length := by
        have hpos := List.length_pos_of_ne_nil hend
        have hsum := congrArg List.length hdrop
        rw [List.length_drop, List.length_append] at hsum
        omega
      dsimp only
      rw [if_pos hlength, hdrop]
      exact ⟨_, rfl, .some (List.cons_ne_nil _ _) hend htext rfl⟩

/-- Following the notices from a line on. -/
theorem follow_from {size : Nat} (hsize : 0 < size) (hl : 0 < caps.maxLines) (data : Bytes)
    {limit : Nat → Option Nat} (hlimit : ∀ offset n, limit offset = some n → 0 < n) {fuel start : Nat}
    (hsplit : ∀ offset ∈ followed (fun offset => readText caps size data (some offset) (limit offset)) fuel (start + 1),
      ¬ SplitBreak caps (selection (some offset) (limit offset)).1 (selection (some offset) (limit offset)).2
        (fileChunks size data))
    (hstart : start < (fileLines (withoutBom data)).length)
    (hfuel : (fileLines (withoutBom data)).length ≤ start + fuel) :
    ∃ reads groups,
      follow (fun offset => readText caps size data (some offset) (limit offset)) fuel (start + 1) = some reads ∧
        (∀ group ∈ groups, group ≠ []) ∧
        Visited caps start ((fileLines (withoutBom data)).drop start) reads groups := by
  induction fuel generalizing start with
  | zero => exact absurd hstart (not_lt.mpr hfuel)
  | succ fuel ih =>
      rw [followed, List.forall_mem_cons] at hsplit
      obtain ⟨hnow, hsplit⟩ := hsplit
      have hselection : selection (some (start + 1)) (limit (start + 1)) =
          (start, (limit (start + 1)).map (start + ·)) := rfl
      rw [hselection] at hnow
      obtain ⟨r, hread, hshows⟩ := readText_shows hsize hl data (hlimit (start + 1)) hnow hstart
      rw [follow, hread]
      rw [hread] at hsplit
      dsimp only at hsplit ⊢
      have hpos : 0 < ((fileLines (withoutBom data)).drop start).length := by
        rw [List.length_drop]
        omega
      generalize hlines : (fileLines (withoutBom data)).drop start = lines at hshows hpos ⊢
      cases hshows with
      | @long line later hlong hnotice =>
          rw [hnotice]
          refine ⟨[r], [], rfl, fun group hgroup => (by cases hgroup), .inr ⟨line, later, [], r, rfl, hlong, rfl, rfl, ?_⟩⟩
          exact hnotice
      | @some group later hgroup hlater hcontent hnotice =>
          rw [hnotice]
          have hnext : (fileLines (withoutBom data)).drop (start + group.length) = later := by
            rw [← List.drop_drop, hlines, List.drop_left]
          have hlength := congrArg List.length hnext
          have hsome := List.length_pos_of_ne_nil hlater
          have hsomeGroup := List.length_pos_of_ne_nil hgroup
          rw [List.length_drop] at hlength
          rw [hnotice] at hsplit
          obtain ⟨reads, groups, hfollow, hgroups, hvisited⟩ := @ih (start + group.length) hsplit (by omega) (by omega)
          rw [hnext] at hvisited
          refine ⟨r :: reads, group :: groups, ?_, ?_, ?_⟩
          · dsimp only
            rw [hfollow]
            rfl
          · intro g hg
            cases List.mem_cons.mp hg with
            | inl heq => exact heq ▸ hgroup
            | inr hg => exact hgroups g hg
          · rcases hvisited with ⟨hall, hcontents⟩ | ⟨line, rest, earlier, last, hall, hlong, hreads, hcontents, hlast⟩
            · left
              rw [List.flatten_cons, ← hall, List.map_cons, List.map_cons, hcontents, hcontent]
              exact ⟨rfl, rfl⟩
            · right
              refine ⟨line, rest, r :: earlier, last, ?_, hlong, ?_, ?_, ?_⟩
              · rw [hall, List.flatten_cons, List.append_assoc]
              · rw [hreads]
                rfl
              · rw [List.map_cons, List.map_cons, hcontents, hcontent]
              · rw [hlast, List.flatten_cons, List.length_append, Nat.add_assoc start]
      | all hcontent hnotice =>
          rw [hnotice]
          refine ⟨[r], [lines], rfl, ?_, .inl ⟨?_, ?_⟩⟩
          · intro group hgroup
            rw [List.mem_singleton.mp hgroup]
            exact List.ne_nil_of_length_pos hpos
          · rw [List.flatten_singleton]
          · rw [List.map_singleton, List.map_singleton, hcontent]

theorem fileLines_pos (data : Bytes) : 0 < (fileLines data).length := by
  rw [fileLines_eq, List.length_map]
  obtain ⟨done, cur, hraw⟩ : ∃ done cur, data.splitOn newline = done ++ [cur] :=
    ⟨_, _, (List.dropLast_concat_getLast (List.splitOn_ne_nil newline data)).symm⟩
  rw [hraw, endedLines_concat, List.length_append]
  exact Nat.succ_pos _

theorem map_text_eq {a b : Except ReadError ReadText} (h : a.map ReadText.shown = b.map ReadText.shown)
    (formatSize : Nat → Text) (readLineAdvice : Nat → Nat → Text) :
    a.map (ReadText.text caps formatSize readLineAdvice) = b.map (ReadText.text caps formatSize readLineAdvice) := by
  cases a with
  | error e =>
      cases b with
      | error e' => exact congrArg Except.error (Except.error.inj h)
      | ok r' => cases h
  | ok r =>
      cases b with
      | error e' => cases h
      | ok r' =>
          obtain ⟨hcontent, hnotice⟩ := Prod.mk.inj (Except.ok.inj h)
          apply congrArg Except.ok
          rw [ReadText.text, ReadText.text, hcontent, hnotice]

/-- A file reads as its reference, but for the limit that the notice names where its lines fill the cap
exactly; and following the notices shows every line once, in order, up to one that is too long, unless a chunk
ends inside a break in one of the reads. -/
theorem readText_reference {size : Nat} (hsize : 0 < size) (hl : 0 < caps.maxLines) (data : Bytes) :
    (∀ offset limit, (∀ n, limit = some n → 0 < n) →
      ¬ SplitBreak caps (selection offset limit).1 (selection offset limit).2 (fileChunks size data) →
      (readText caps size data offset limit).map ReadText.lines =
          (readWhole caps data offset limit).map ReadText.lines ∧
        (¬ FillsCap caps (selectedBytes data (selection offset limit).1 (selection offset limit).2) →
          (readText caps size data offset limit).map ReadText.shown =
              (readWhole caps data offset limit).map ReadText.shown ∧
            ∀ formatSize readLineAdvice,
              (readText caps size data offset limit).map (ReadText.text caps formatSize readLineAdvice) =
                (readWhole caps data offset limit).map (ReadText.text caps formatSize readLineAdvice))) ∧
      ∀ limit : Nat → Option Nat, (∀ offset n, limit offset = some n → 0 < n) →
        let read := fun offset => readText caps size data (some offset) (limit offset)
        (∀ offset ∈ followed read (fileLines (withoutBom data)).length 1,
          ¬ SplitBreak caps (selection (some offset) (limit offset)).1 (selection (some offset) (limit offset)).2
            (fileChunks size data)) →
        ∃ reads groups, follow read (fileLines (withoutBom data)).length 1 = some reads ∧
          (∀ group ∈ groups, group ≠ []) ∧ Visited caps 0 (fileLines (withoutBom data)) reads groups := by
  constructor
  · intro offset limit hlimit hsplit
    refine ⟨readText_lines hsize data hlimit hsplit, fun hfills => ?_⟩
    have hshown := readText_shown hsize data hlimit hsplit hfills
    exact ⟨hshown, map_text_eq hshown⟩
  · intro limit hlimit read hsplit
    exact follow_from hsize hl data hlimit hsplit (fileLines_pos _) (Nat.le_add_left _ _)

/-- Two lines, of which the first is not decodable and ends in CRLF, in chunks that cut a character; and two
lines of which the first fills the cap. -/
theorem readText_reference_chunks :
    (readText ⟨5, 2⟩ 8 [0x61, 0x62, 0x0a, 0x63] none none).map ReadText.lines =
        (readWhole ⟨5, 2⟩ [0x61, 0x62, 0x0a, 0x63] none none).map ReadText.lines ∧
    (readText ⟨5, 20⟩ 5 [0xff, 0x61, 0x0d, 0x0a, 0xc3, 0xa9] (some 1) (some 1)).map ReadText.shown =
        (readWhole ⟨5, 20⟩ [0xff, 0x61, 0x0d, 0x0a, 0xc3, 0xa9] (some 1) (some 1)).map ReadText.shown ∧
      ∃ reads groups,
        follow (fun offset => readText ⟨5, 20⟩ 5 [0xff, 0x61, 0x0d, 0x0a, 0xc3, 0xa9] (some offset) (some 1))
          (fileLines (withoutBom [0xff, 0x61, 0x0d, 0x0a, 0xc3, 0xa9])).length 1 = some reads ∧
        (∀ group ∈ groups, group ≠ []) ∧
          Visited ⟨5, 20⟩ 0 (fileLines (withoutBom [0xff, 0x61, 0x0d, 0x0a, 0xc3, 0xa9])) reads groups := by
  have hheads : ∀ chunk ∈ fileChunks 5 [0xff, 0x61, 0x0d, 0x0a, 0xc3, 0xa9], chunk.head? ≠ some newline := by
    decide
  have hsplit : ∀ start stop,
      ¬ SplitBreak ⟨5, 20⟩ start stop (fileChunks 5 [0xff, 0x61, 0x0d, 0x0a, 0xc3, 0xa9]) := by
    rintro start stop ⟨past, chunk, later, done, cur, heq, hhead, -⟩
    exact hheads chunk (heq ▸ List.mem_append_right _ List.mem_cons_self) hhead
  have hpositive : ∀ n, some 1 = some n → 0 < n := by
    intro n hn
    obtain rfl : 1 = n := Option.some.inj hn
    exact Nat.one_pos
  have hselected : (selectedBytes [0xff, 0x61, 0x0d, 0x0a, 0xc3, 0xa9] 0 (some 1)).length = 1 := by decide
  obtain ⟨hread, hfollow⟩ := @readText_reference ⟨5, 20⟩ 5 (by decide) (by decide)
    [0xff, 0x61, 0x0d, 0x0a, 0xc3, 0xa9]
  have hwhole : ∀ start stop, ¬ SplitBreak ⟨5, 2⟩ start stop (fileChunks 8 [0x61, 0x62, 0x0a, 0x63]) := by
    rintro start stop ⟨past, chunk, later, done, cur, heq, hhead, -⟩
    have hall : ∀ chunk ∈ fileChunks 8 [0x61, 0x62, 0x0a, 0x63], chunk.head? ≠ some newline := by decide
    exact hall chunk (heq ▸ List.mem_append_right _ List.mem_cons_self) hhead
  have hfull := (@readText_reference ⟨5, 2⟩ 8 (by decide) (by decide) [0x61, 0x62, 0x0a, 0x63]).1 none none
    (fun n hn => by cases hn) (hwhole _ _)
  refine ⟨hfull.1, ((hread (some 1) (some 1) hpositive (hsplit _ _)).2 ?_).1,
    hfollow (fun _ => some 1) (fun _ => hpositive) fun _ _ => hsplit _ _⟩
  rintro ⟨k, hpos, -, hk, -⟩
  have hlt : k < 1 := hselected ▸ hk
  omega

/-- A carriage return alone ends no line, and a line that is too long ends the reading. -/
theorem readText_deviates :
    ((readText .standard 1048576 [0x61, 0x0d, 0x62] none none).toOption.map ReadText.content =
        some [0x61, carriageReturn, 0x62] ∧
      joined (lines (Edits.shown (decodeFile [0x61, 0x0d, 0x62]))) = [0x61, lineFeed, 0x62]) ∧
    (readText ⟨5, 2⟩ 8 [0x61, 0x61, 0x61, 0x0a, 0x62] none none).toOption.map ReadText.shown =
      some ([], some (.lineExceeds 1 3)) := by
  decide

end Avibe.Reading
