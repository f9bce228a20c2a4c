import Avibe.Edits.Exact
import Avibe.Reading.Follow

/-!
# What is read can be edited

Reading and editing make two views of a file, one of its bytes line by line and one of its decoded text. They
agree up to the line breaks that reading keeps (`normalizeToLf_fileLines`), so an edit finds every text that some
read of the file has shown (`edits_of_shown`).
-/

namespace Avibe.Reading

open Texts Output
open Edits (shown lfView bomLength bom findFrom findAll view tier AllExact)

/-! ## One view -/

theorem normalizeToLf_shown (t : Text) : normalizeToLf (shown t) = shown (normalizeToLf t) := by
  have hkeeps : ∀ {c d : CodePoint}, d.val < 0x80 →
      ((if 0xdc80 ≤ c.val ∧ c.val < 0xdd00 then 0xfffd else c) = d ↔ c = d) := by
    intro c d hd
    split
    · constructor
      · intro heq
        rw [← heq] at hd
        exact absurd hd (by decide)
      · rintro rfl
        omega
    · exact Iff.rfl
  induction t with
  | nil => rfl
  | cons c t ih =>
      have hhead : (shown t).head? = some lineFeed ↔ t.head? = some lineFeed := by
        cases t with
        | nil => exact Iff.rfl
        | cons d t =>
            rw [shown, List.map_cons, List.head?_cons, List.head?_cons, Option.some_inj, Option.some_inj]
            exact hkeeps (by decide)
      rw [shown, List.map_cons, ← shown, normalizeToLf, normalizeToLf, ih]
      simp only [hkeeps (d := carriageReturn) (by decide), hhead]
      split
      · split
        · rfl
        · rfl
      · rfl

theorem normalizeToLf_ended {line : Text} (t : Text) :
    normalizeToLf (dropReturn carriageReturn line ++ lineFeed :: t) = normalizeToLf (line ++ lineFeed :: t) := by
  cases dropReturn_cases (r := carriageReturn) line with
  | inl hsame => rw [hsame]
  | inr hdrop =>
      obtain ⟨front, rfl, hlast, hfront⟩ := hdrop
      have hseam : ∀ u, ¬ Seam front u := fun u hseam => hlast hseam.1
      rw [hfront, List.append_assoc, List.singleton_append, normalizeToLf_append (hseam _),
        normalizeToLf_append (hseam _), normalizeToLf_crlf, normalizeToLf_lf]

/-- The break of a line that is kept whole is the one line feed that its carriage return is dropped for. -/
theorem normalizeToLf_joined_ended (lines : List Text) :
    normalizeToLf (joined (endedLines carriageReturn lines)) = normalizeToLf (joined lines) := by
  induction lines with
  | nil => rfl
  | cons line lines ih =>
      cases lines with
      | nil => rfl
      | cons next lines =>
          have hended : endedLines carriageReturn (line :: next :: lines) =
              dropReturn carriageReturn line :: endedLines carriageReturn (next :: lines) := by
            rw [endedLines, List.dropLast_cons_cons, List.map_cons, List.getLast?_cons_cons]
            rfl
          have hne : endedLines carriageReturn (next :: lines) ≠ [] := by
            rw [endedLines, List.getLast?_eq_some_getLast (List.cons_ne_nil _ _)]
            exact List.append_ne_nil_of_right_ne_nil _ (List.cons_ne_nil _ _)
          rw [hended, joined_cons hne, joined_cons (List.cons_ne_nil _ _), normalizeToLf_ended, normalizeToLf_line, ih,
            ← normalizeToLf_line]

theorem decodeFile_withoutBom (data : Bytes) :
    decodeFile (withoutBom data) = (decodeFile data).drop (bomLength (decodeFile data)) := by
  have hmark : encodePoint bom = [0xef, 0xbb, 0xbf] := by decide
  have hscalar : isScalar bom = true := by decide
  rw [withoutBom, bomLength]
  by_cases hdata : data.take 3 = [0xef, 0xbb, 0xbf]
  · have hdecode : decodeFile data = bom :: decodeFile (data.drop 3) := by
      apply decode_sequence hscalar
      rw [hmark, ← hdata, List.take_append_drop]
    rw [if_pos hdata, hdecode, List.head?_cons, if_pos rfl, List.drop_succ_cons, List.drop_zero]
  · have hhead : (decodeFile data).head? ≠ some bom := by
      intro hhead
      obtain ⟨rest, hrest⟩ := List.head?_eq_some_iff.mp hhead
      have hencode := encodeFile_decodeFile data
      rw [hrest, encodeFile, if_pos hscalar] at hencode
      obtain ⟨more, -, rfl⟩ := Option.map_eq_some_iff.mp hencode
      rw [hmark] at hdata
      exact hdata rfl
    rw [if_neg hdata, if_neg hhead, List.drop_zero]

/-- The lines that reading shows are those of the view that editing matches in. -/
theorem normalizeToLf_fileLines (data : Bytes) :
    normalizeToLf (joined (fileLines (withoutBom data))) = lfView (decodeFile data) := by
  have hjoined : joined ((shown (decodeFile (withoutBom data))).splitOn lineFeed) = shown (decodeFile (withoutBom data)) :=
    List.intercalate_splitOn lineFeed
  rw [fileLines, normalizeToLf_joined_ended, hjoined, normalizeToLf_shown, decodeFile_withoutBom, lfView]

/-! ## What is shown -/

theorem isInfix_joined {group lines : List Text} (h : group <:+: lines) : joined group <:+: joined lines := by
  obtain ⟨front, later, rfl⟩ := h
  rw [List.append_assoc]
  by_cases hgroup : group = []
  · rw [hgroup]
    exact List.nil_infix
  · have hrest : joined group <:+: joined (group ++ later) := by
      by_cases hlater : later = []
      · simp [hlater]
      · rw [joined_append hgroup hlater]
        exact (List.prefix_append _ _).isInfix
    by_cases hfront : front = []
    · rw [hfront]
      exact hrest
    · rw [joined_append hfront (List.append_ne_nil_of_left_ne_nil hgroup _)]
      exact hrest.trans ((List.suffix_cons _ _).isInfix.trans (List.suffix_append _ _).isInfix)

theorem isInfix_select {α : Type} (start : Nat) (stop : Option Nat) (lines : List α) :
    select start stop lines <:+: lines := by
  cases stop with
  | none => exact (List.drop_suffix _ _).isInfix
  | some n => exact (List.drop_suffix _ _).isInfix.trans (List.take_prefix _ _).isInfix

theorem truncateHead_exceeds {content : Text} {maxLines maxBytes : Nat}
    (h : (truncateHead content maxLines maxBytes).firstLineExceedsLimit = true) :
    (truncateHead content maxLines maxBytes).content = [] := by
  rw [truncateHead] at h ⊢
  dsimp only at h ⊢
  by_cases hfits : (splitLines content).length ≤ maxLines ∧ utf8Len content ≤ maxBytes
  · rw [if_pos hfits] at h
    cases h
  · rw [if_neg hfits] at h ⊢
    by_cases hlong : maxBytes < utf8Len ((splitLines content).headD [])
    · rw [if_pos hlong]
    · rw [if_neg hlong] at h
      cases h

theorem truncateHead_le (content : Text) (maxLines maxBytes : Nat) :
    utf8Len (truncateHead content maxLines maxBytes).content ≤ maxBytes := by
  rw [truncateHead]
  dsimp only
  split
  · rename_i hfits
    exact hfits.2
  · split
    · exact Nat.zero_le _
    · obtain ⟨fit, later, -, hloop, hle, -⟩ :=
        @headLoop_spec maxBytes [] ((splitLines content).take maxLines) (Nat.zero_le _)
      have hkept : (headLoop maxBytes 0 [] 0 ((splitLines content).take maxLines)).lines = fit :=
        congrArg Kept.lines hloop
      rw [hkept]
      exact hle

section Shown

variable {caps : Caps} {size : Nat} {data : Bytes}

/-- Of selected lines a read shows the first ones. -/
theorem content_selected (hl : 0 < caps.maxLines) {selected : List Bytes}
    (hlines : ∀ line ∈ selected, newline ∉ line) :
    ∃ k, (truncateHead (joined (selected.map decoded)) caps.maxLines caps.maxBytes).content =
      joined ((selected.map decoded).take k) := by
  have hfeed : ∀ line ∈ selected.map decoded, lineFeed ∉ line := by
    intro line hline
    obtain ⟨raw, hraw, rfl⟩ := List.mem_map.mp hline
    exact lineFeed_notMem_decoded (hlines raw hraw)
  cases hselected : selected.map decoded with
  | nil =>
      refine ⟨0, List.length_eq_zero_iff.mp (Nat.le_zero.mp ?_)⟩
      rw [truncateHead, if_pos ⟨Nat.zero_le _, Nat.zero_le _⟩]
      exact Nat.le_refl 0
  | cons first lines =>
      rw [hselected] at hfeed
      rcases truncateHead_joined hl hfeed rfl with ⟨hlong, -⟩ | ⟨-, -, -, -, hcontent⟩ | ⟨-, -, hcontent⟩
      · exact ⟨0, truncateHead_exceeds hlong⟩
      · exact ⟨_, hcontent⟩
      · exact ⟨(first :: lines).length, by rw [List.take_length, hcontent]⟩

/-- And so it does of the lines that a scan keeps, however the chunks cut them. -/
theorem KeptOf.content (hl : 0 < caps.maxLines) {clean : Prop} {selected kept : List Bytes}
    (h : KeptOf clean caps selected kept) (hlines : ∀ line ∈ selected, newline ∉ line) :
    ∃ k, (truncateHead (joined (kept.map decoded)) caps.maxLines caps.maxBytes).content =
      joined ((selected.map decoded).take k) := by
  cases h with
  | all => exact content_selected hl hlines
  | cut front line rest part heq hcaps =>
      by_cases hwhole : KeptOf True caps selected (front ++ [part])
      · rw [(sameTruncation_of_keptOf hwhole hlines).1.content]
        exact content_selected hl hlines
      · -- the carriage return of a break is kept, so the line before it is left out
        obtain ⟨hcount, hsize, hpart, hpast⟩ := hcaps.resolve_left fun hcount =>
          hwhole (.cut front line rest part heq (.inl hcount))
        obtain ⟨-, rfl⟩ := hpart.resolve_left fun hpart =>
          hwhole (.cut front line rest part heq (.inr ⟨hcount, hsize, .inl hpart, hpast⟩))
        subst heq
        have hfront : ∀ l ∈ front ++ [line ++ [returnByte]], newline ∉ l := by
          intro l hl
          rcases List.mem_append.mp hl with hl | hl
          · exact hlines l (List.mem_append_left _ hl)
          · rw [List.mem_singleton.mp hl, List.mem_append, List.mem_singleton]
            have hline := hlines line (List.mem_append_right _ List.mem_cons_self)
            exact fun hmem => hmem.elim hline (by decide)
        obtain ⟨k, hcontent⟩ := content_selected hl hfront
        have hk : k ≤ front.length := by
          by_contra hgt
          have hle := truncateHead_le (joined ((front ++ [line ++ [returnByte]]).map decoded)) caps.maxLines
            caps.maxBytes
          rw [hcontent, List.take_of_length_le] at hle
          · have hover := size_le_decoded (front ++ [line ++ [returnByte]])
            omega
          · rw [List.length_map, List.length_append, List.length_singleton]
            omega
        refine ⟨k, hcontent.trans ?_⟩
        rw [List.map_append, List.map_append, List.take_append_of_le_length, List.take_append_of_le_length]
        · rwa [List.length_map]
        · rwa [List.length_map]

theorem present_ok {start : Nat} {stop : Option Nat} {collected : List Text} {total firstBytes : Nat}
    {r : ReadText} (h : present caps start stop collected total firstBytes = .ok r) :
    start < total ∧ r.content = (truncateHead (joined collected) caps.maxLines caps.maxBytes).content := by
  rw [present] at h
  split at h
  · cases h
  · rename_i hend
    refine ⟨not_le.mp hend, ?_⟩
    dsimp only at h
    split at h
    · rw [← Except.ok.inj h]
    · split at h
      · rw [← Except.ok.inj h]
      · split at h
        · split at h
          · rw [← Except.ok.inj h]
          · rw [← Except.ok.inj h]
        · rw [← Except.ok.inj h]

/-- The text of a read is a stretch of the view. -/
theorem content_isInfix (hsize : 0 < size) (hl : 0 < caps.maxLines) {offset limit : Option Nat}
    (hlimit : ∀ n, limit = some n → 0 < n) {r : ReadText} (hread : readText caps size data offset limit = .ok r) :
    normalizeToLf r.content <:+: view (decodeFile data) := by
  obtain ⟨kept, firstLineBytes, hscan, hkept⟩ :=
    scanLines_file hsize data (selection_stop hlimit) fun h : False => h.elim
  rw [readText_eq, hscan] at hread
  obtain ⟨hstart, hcontent⟩ := present_ok hread
  obtain ⟨k, hshown⟩ := (hkept hstart).2.content hl fun line hline => newline_notMem_selectedBytes hline
  have hselected : (selectedBytes data (selection offset limit).1 (selection offset limit).2).map decoded =
      select (selection offset limit).1 (selection offset limit).2 (fileLines (withoutBom data)) := by
    rw [fileLines_eq, select_map]
    rfl
  rw [Edits.view_eq_lfView, ← normalizeToLf_fileLines, hcontent, hshown, hselected]
  exact isInfix_normalizeToLf
    (isInfix_joined ((List.take_prefix _ _).isInfix.trans (isInfix_select _ _ _)))

end Shown

/-! ## Finding it -/

theorem findFrom_ne_nil {needle content : Text} (hne : needle ≠ []) (h : needle <:+: content) (pos : Nat) :
    findFrom needle 0 pos content ≠ [] := by
  induction content generalizing pos with
  | nil => exact absurd (List.infix_nil.mp h) hne
  | cons c rest ih =>
      rw [findFrom]
      by_cases hhere : needle.isPrefixOf (c :: rest) = true
      · rw [if_pos hhere]
        exact List.cons_ne_nil _ _
      · rw [if_neg hhere]
        cases List.infix_cons_iff.mp h with
        | inl hbegins => exact absurd (List.isPrefixOf_iff_prefix.mpr hbegins) hhere
        | inr hlater => exact ih hlater (pos + 1)

/-- The edits take their old texts from what some reads of the file have shown. -/
def ShownBefore (caps : Caps) (size : Nat) (data : Bytes) (edits : List Edits.Edit) : Prop :=
  ∀ edit ∈ edits, edit.oldText ≠ [] ∧
    ∃ offset limit r, (∀ n, limit = some n → 0 < n) ∧
      readText caps size data offset limit = .ok r ∧ edit.oldText <:+: r.content

theorem ShownBefore.allExact {caps : Caps} {size : Nat} (hsize : 0 < size) (hl : 0 < caps.maxLines) {data : Bytes}
    {edits : List Edits.Edit} (h : ShownBefore caps size data edits) : AllExact (decodeFile data) edits := by
  intro edit hedit
  obtain ⟨hne, offset, limit, r, hlimit, hread, hshown⟩ := h edit hedit
  have hview := content_isInfix hsize hl hlimit hread
  exact findFrom_ne_nil (mt normalizeToLf_eq_nil.mp hne) ((isInfix_normalizeToLf hshown).trans hview) 0

/-! ## Applying what was found -/

section Applied

variable {nfkc : Text → Text} {text : Text} {maxResultChars : Option Nat}

/-- The edit is refused because there is nothing to replace. -/
def Missing : Edits.EditError → Prop
  | .empty _ => True
  | .notFound _ _ => True
  | .lineCount => True
  | _ => False

theorem checkDisjoint_error {replacements : List Edits.Replacement} {e : Edits.EditError}
    (h : Edits.checkDisjoint replacements = some e) : ¬ Missing e := by
  rw [Edits.checkDisjoint] at h
  generalize SortOn.sortOn Edits.Replacement.index replacements = sorted at h
  induction sorted with
  | nil => cases h
  | cons previous rest ih =>
      cases rest with
      | nil => cases h
      | cons current rest =>
          rw [Edits.firstOverlap] at h
          split at h
          · obtain rfl := Option.some.inj h
            exact id
          · exact ih h

theorem collect_error {index : Nat} {edits : List Edits.Edit} {found : Edits.Found} {e : Edits.EditError}
    (hexact : ∀ edit ∈ edits, findAll (view text) edit.oldText ≠ [])
    (h : Edits.collect nfkc text maxResultChars index edits found = .error e) : ¬ Missing e := by
  induction edits generalizing index found with
  | nil => cases h
  | cons edit edits ih =>
      rw [Edits.collect] at h
      split at h
      · rename_i hedit
        obtain rfl := Except.error.inj h
        have hcount : (findAll (view text) edit.oldText).length ≠ 0 :=
          mt List.length_eq_zero_iff.mp (hexact edit List.mem_cons_self)
        rw [Edits.collectEdit, Edits.tier_exact (hexact edit List.mem_cons_self)] at hedit
        dsimp only at hedit
        rw [if_neg hcount] at hedit
        split at hedit
        · obtain rfl := Except.error.inj hedit
          exact id
        · split at hedit
          · obtain rfl := Except.error.inj hedit
            exact id
          · split at hedit
            · obtain rfl := Except.error.inj hedit
              exact id
            · cases hedit
      · exact ih (fun edit hedit => hexact edit (List.mem_cons_of_mem _ hedit)) h

theorem replacementsOf_error {edits : List Edits.Edit} {e : Edits.EditError}
    (hne : ∀ edit ∈ edits, edit.oldText ≠ []) (hexact : AllExact text edits)
    (h : Edits.replacementsOf nfkc text edits maxResultChars = .error e) : ¬ Missing e := by
  have hnormal : ∀ edit ∈ edits.map Edits.normalizeEdit,
      edit.oldText ≠ [] ∧ findAll (view text) edit.oldText ≠ [] := by
    intro edit hedit
    obtain ⟨edit, hmem, rfl⟩ := List.mem_map.mp hedit
    exact ⟨mt normalizeToLf_eq_nil.mp (hne edit hmem), hexact edit hmem⟩
  have hnone : ((edits.map Edits.normalizeEdit).findIdx? fun edit => edit.oldText = []) = none := by
    rw [List.findIdx?_eq_none_iff]
    exact fun edit hedit => decide_eq_false (hnormal edit hedit).1
  rw [Edits.replacementsOf, hnone] at h
  dsimp only at h
  split at h
  · obtain rfl := Except.error.inj h
    exact id
  · split at h
    · rename_i hcollect
      obtain rfl := Except.error.inj h
      exact collect_error (fun edit hedit => (hnormal edit hedit).2) hcollect
    · rename_i found hcollect
      have hfuzzy : found.fuzzy = [] := by
        rw [(Edits.collect_ok hcollect).2.1, (Edits.placed_exact hexact).2]
        rfl
      rw [hfuzzy] at h
      cases h

theorem applyEdits_error {edits : List Edits.Edit} {e : Edits.EditError}
    (hne : ∀ edit ∈ edits, edit.oldText ≠ []) (hexact : AllExact text edits)
    (h : Edits.applyEdits nfkc text edits maxResultChars = .error e) : ¬ Missing e := by
  rw [Edits.applyEdits] at h
  split at h
  · rename_i hreplacements
    obtain rfl := Except.error.inj h
    exact replacementsOf_error hne hexact hreplacements
  · split at h
    · rename_i hdisjoint
      obtain rfl := Except.error.inj h
      exact checkDisjoint_error hdisjoint
    · dsimp only at h
      split at h
      · obtain rfl := Except.error.inj h
        exact id
      · cases h

end Applied

/-- Edits whose old texts were shown by reads of the file are all found exactly, so none is refused for something
that is not there, and an accepted list replaces what it found and nothing else. -/
theorem edits_of_shown {caps : Caps} {size : Nat} (hsize : 0 < size) (hl : 0 < caps.maxLines) (data : Bytes)
    {edits : List Edits.Edit} (hshown : ShownBefore caps size data edits) (nfkc : Text → Text)
    (maxResultChars : Option Nat) :
    AllExact (decodeFile data) edits ∧
      (∀ e, Edits.applyEdits nfkc (decodeFile data) edits maxResultChars = .error e → ¬ Missing e) ∧
      ∀ r, Edits.applyEdits nfkc (decodeFile data) edits maxResultChars = .ok r →
        r.newText = Edits.applyFrom (decodeFile data) 0 0 (Edits.exactReplacements (decodeFile data) edits) := by
  have hexact := hshown.allExact hsize hl
  exact ⟨hexact, fun e => applyEdits_error (fun edit hedit => (hshown edit hedit).1) hexact,
    fun r hr => (Edits.applyEdits_exact hr hexact).2.2.1⟩

/-- A byte order mark, a line that ends in CRLF, and one with an undecodable byte. -/
def markedFile : Bytes := [0xef, 0xbb, 0xbf, 0x61, 0x0d, 0x0a, 0xff, 0x62]

/-- The second line replaced, as it is shown. -/
def shownEdits : List Edits.Edit := [⟨[0xfffd, 0x62], [0x63], false⟩]

/-- The edit is accepted, and the mark, the first line and its break stay. -/
theorem edits_of_shown_escape :
    AllExact (decodeFile markedFile) shownEdits ∧
      ∃ r, Edits.applyEdits id (decodeFile markedFile) shownEdits none = .ok r ∧
        r.newText = Edits.applyFrom (decodeFile markedFile) 0 0
          (Edits.exactReplacements (decodeFile markedFile) shownEdits) ∧
        r.newText = [bom, 0x61, carriageReturn, lineFeed, 0x63] := by
  have hshown : ShownBefore ⟨5, 20⟩ 5 markedFile shownEdits := by
    intro edit hedit
    obtain rfl := List.mem_singleton.mp hedit
    exact ⟨List.cons_ne_nil _ _, none, none, ⟨[0x61, lineFeed, 0xfffd, 0x62], none, none⟩, fun n hn => (by cases hn),
      rfl, [0x61, lineFeed], [], rfl⟩
  obtain ⟨hexact, -, happlied⟩ := edits_of_shown (by decide) (by decide) _ hshown id none
  have hresult : (Edits.applyEdits id (decodeFile markedFile) shownEdits none).toOption.map (·.newText) =
      some [bom, 0x61, carriageReturn, lineFeed, 0x63] := by decide +kernel
  refine ⟨hexact, ?_⟩
  cases hedits : Edits.applyEdits id (decodeFile markedFile) shownEdits none with
  | error e =>
      rw [hedits] at hresult
      cases hresult
  | ok r =>
      rw [hedits] at hresult
      exact ⟨r, rfl, happlied r hedits, Option.some.inj hresult⟩

end Avibe.Reading
