import Avibe.Lib.LineSplit

/-!
# Output caps

Two independent limits, on lines and on UTF-8 bytes: `truncateHead` keeps the first lines that fit,
`truncateTail` the last ones, and the end of the last line alone when it is over the byte limit.
-/

namespace Avibe.Output

open Texts

inductive TruncatedBy
  | lines
  | bytes
deriving DecidableEq

structure TruncationResult where
  content : Text
  truncated : Bool
  truncatedBy : Option TruncatedBy
  totalLines : Nat
  totalBytes : Nat
  outputLines : Nat
  outputBytes : Nat
  lastLinePartial : Bool
  firstLineExceedsLimit : Bool
  maxLines : Nat
  maxBytes : Nat
deriving DecidableEq

def untruncated (content : Text) (totalLines totalBytes maxLines maxBytes : Nat) : TruncationResult :=
  ⟨content, false, none, totalLines, totalBytes, totalLines, totalBytes, false, false, maxLines, maxBytes⟩

/-- What the loop over the lines has kept, with its bytes, and the limit it stopped at. -/
structure Kept where
  lines : List Text
  bytes : Nat
  truncatedBy : TruncatedBy

def headLoop (maxBytes : Nat) : Nat → List Text → Nat → List Text → Kept
  | _, kept, keptBytes, [] => ⟨kept, keptBytes, .lines⟩
  | index, kept, keptBytes, line :: rest =>
      let lineBytes := utf8Len line + if 0 < index then 1 else 0
      if maxBytes < keptBytes + lineBytes then ⟨kept, keptBytes, .bytes⟩
      else headLoop maxBytes (index + 1) (kept ++ [line]) (keptBytes + lineBytes) rest

/-- A full number of lines names the line limit. -/
def namedLimit (maxLines maxBytes : Nat) (kept : Kept) : TruncatedBy :=
  if maxLines ≤ kept.lines.length ∧ kept.bytes ≤ maxBytes then .lines else kept.truncatedBy

/-- Keep the first lines that fit. -/
def truncateHead (content : Text) (maxLines maxBytes : Nat) : TruncationResult :=
  let totalBytes := utf8Len content
  let lines := splitLines content
  let totalLines := lines.length
  if totalLines ≤ maxLines ∧ totalBytes ≤ maxBytes then
    untruncated content totalLines totalBytes maxLines maxBytes
  else if maxBytes < utf8Len (lines.headD []) then
    ⟨[], true, some .bytes, totalLines, totalBytes, 0, 0, false, true, maxLines, maxBytes⟩
  else
    let kept := headLoop maxBytes 0 [] 0 (lines.take maxLines)
    let output := joined kept.lines
    ⟨output, true, some (namedLimit maxLines maxBytes kept), totalLines, totalBytes, kept.lines.length,
      utf8Len output, false, false, maxLines, maxBytes⟩

/-- The longest end of a text within a number of bytes, cut at a character. -/
def truncateStringToBytesFromEnd (value : Text) (maxBytes : Nat) : Text :=
  let data := encode value
  if data.length ≤ maxBytes then value
  else decode (fun _ => [0xfffd]) (skipTails (data.drop (data.length - maxBytes)))

/-- The loop over the lines from the last one on, and whether it kept a part of a line. -/
def tailLoop (maxLines maxBytes : Nat) : List Text → Nat → List Text → Kept × Bool
  | kept, keptBytes, [] => (⟨kept, keptBytes, .lines⟩, false)
  | kept, keptBytes, line :: rest =>
      if maxLines ≤ kept.length then (⟨kept, keptBytes, .lines⟩, false)
      else
        let lineBytes := utf8Len line + if kept ≠ [] then 1 else 0
        if maxBytes < keptBytes + lineBytes then
          if kept = [] then
            let cut := truncateStringToBytesFromEnd line maxBytes
            (⟨[cut], utf8Len cut, .bytes⟩, true)
          else (⟨kept, keptBytes, .bytes⟩, false)
        else tailLoop maxLines maxBytes (line :: kept) (keptBytes + lineBytes) rest

/-- Keep the last lines that fit. -/
def truncateTail (content : Text) (maxLines maxBytes : Nat) : TruncationResult :=
  let totalBytes := utf8Len content
  let lines := splitLines content
  let totalLines := lines.length
  if totalLines ≤ maxLines ∧ totalBytes ≤ maxBytes then
    untruncated content totalLines totalBytes maxLines maxBytes
  else
    let (kept, lastLinePartial) := tailLoop maxLines maxBytes [] 0 lines.reverse
    let output := joined kept.lines
    ⟨output, true, some (namedLimit maxLines maxBytes kept), totalLines, totalBytes, kept.lines.length,
      utf8Len output, lastLinePartial, false, maxLines, maxBytes⟩

/-! ## The loops -/

/-- As many leading lines as fit: the first loop keeps these, and it stops at the bytes if a line is left. -/
theorem headLoop_spec {maxBytes : Nat} (kept rest : List Text) (h : utf8Len (joined kept) ≤ maxBytes) :
    ∃ fit later, rest = fit ++ later ∧
      headLoop maxBytes kept.length kept (utf8Len (joined kept)) rest =
        ⟨kept ++ fit, utf8Len (joined (kept ++ fit)), if later = [] then .lines else .bytes⟩ ∧
      utf8Len (joined (kept ++ fit)) ≤ maxBytes ∧
      ∀ line ∈ later.head?, maxBytes < utf8Len (joined (kept ++ fit ++ [line])) := by
  induction rest generalizing kept with
  | nil => exact ⟨[], [], rfl, by simp [headLoop], by simpa using h, by simp⟩
  | cons line rest ih =>
      have hbytes : utf8Len (joined kept) + (utf8Len line + if 0 < kept.length then 1 else 0) =
          utf8Len (joined (kept ++ [line])) := by
        rw [utf8Len_joined, utf8Len_joined]
        simp only [List.map_append, List.sum_append, List.length_append, List.map_singleton, List.sum_singleton,
          List.length_singleton]
        split <;> omega
      rw [headLoop, hbytes]
      by_cases hover : maxBytes < utf8Len (joined (kept ++ [line]))
      · refine ⟨[], line :: rest, rfl, ?_, by simpa using h, ?_⟩
        · rw [if_pos hover]
          simp
        · intro next hnext
          obtain rfl : line = next := Option.some.inj hnext
          rwa [List.append_nil]
      · rw [if_neg hover]
        obtain ⟨fit, later, hrest, hloop, hfit, hlater⟩ := ih (kept ++ [line]) (not_lt.mp hover)
        rw [List.length_append, List.length_singleton] at hloop
        refine ⟨line :: fit, later, congrArg (line :: ·) hrest, ?_, ?_, ?_⟩
        · rw [hloop, List.append_assoc]
          rfl
        · rwa [List.append_assoc] at hfit
        · rwa [List.append_assoc, List.singleton_append] at hlater

/-- The second loop keeps as many last lines as fit both limits, or the end of the last line. -/
theorem tailLoop_spec {maxLines maxBytes : Nat} (kept rest : List Text) (h : utf8Len (joined kept) ≤ maxBytes)
    (hlines : kept.length ≤ maxLines) :
    (∃ fit later, rest = fit ++ later ∧
      tailLoop maxLines maxBytes kept (utf8Len (joined kept)) rest =
        (⟨fit.reverse ++ kept, utf8Len (joined (fit.reverse ++ kept)),
          if later = [] ∨ maxLines ≤ fit.length + kept.length then .lines else .bytes⟩, false) ∧
      (kept = [] → fit = [] → later = [] ∨ maxLines = 0) ∧
      fit.length + kept.length ≤ maxLines ∧ utf8Len (joined (fit.reverse ++ kept)) ≤ maxBytes ∧
      (fit.length + kept.length < maxLines → ∀ line ∈ later.head?,
        maxBytes < utf8Len (joined (line :: (fit.reverse ++ kept))))) ∨
      (kept = [] ∧ 0 < maxLines ∧ ∃ line later, rest = line :: later ∧ maxBytes < utf8Len line ∧
        tailLoop maxLines maxBytes kept (utf8Len (joined kept)) rest =
          (⟨[truncateStringToBytesFromEnd line maxBytes],
            utf8Len (truncateStringToBytesFromEnd line maxBytes), .bytes⟩, true)) := by
  induction rest generalizing kept with
  | nil =>
      left
      exact ⟨[], [], rfl, by simp [tailLoop], by simp, by simpa using hlines, by simpa using h, by simp⟩
  | cons line rest ih =>
      have hbytes : utf8Len (joined kept) + (utf8Len line + if kept ≠ [] then 1 else 0) =
          utf8Len (joined (line :: kept)) := by
        rw [utf8Len_joined_cons]
        simp only [ne_eq, ite_not]
        omega
      rw [tailLoop]
      by_cases hfull : maxLines ≤ kept.length
      · left
        refine ⟨[], line :: rest, rfl, ?_, ?_, ?_, by simpa using h, ?_⟩
        · rw [if_pos hfull]
          simp [hfull]
        · rintro rfl -
          exact .inr (Nat.le_zero.mp hfull)
        · simpa using hlines
        · intro hlt
          rw [List.length_nil, Nat.zero_add] at hlt
          exact absurd hlt (not_lt.mpr hfull)
      · rw [if_neg hfull]
        dsimp only
        rw [hbytes]
        by_cases hover : maxBytes < utf8Len (joined (line :: kept))
        · rw [if_pos hover]
          by_cases hnil : kept = []
          · right
            subst hnil
            rw [joined_singleton] at hover
            exact ⟨rfl, Nat.pos_of_ne_zero fun hzero => hfull (hzero ▸ Nat.zero_le _), line, rest, rfl, hover,
              if_pos rfl⟩
          · left
            refine ⟨[], line :: rest, rfl, ?_, ?_, ?_, by simpa using h, ?_⟩
            · rw [if_neg hnil]
              simp [hfull]
            · exact fun hkept => absurd hkept hnil
            · simpa using hlines
            · intro _ next hnext
              obtain rfl : line = next := Option.some.inj hnext
              exact hover
        · rw [if_neg hover]
          have hnext := ih (line :: kept) (not_lt.mp hover) (Nat.lt_of_not_le hfull)
          cases hnext with
          | inr hcut => exact absurd hcut.1 (List.cons_ne_nil _ _)
          | inl hfit =>
              left
              obtain ⟨fit, later, hrest, hloop, -, hcount, hsize, hlater⟩ := hfit
              have hlines' : fit.length + (line :: kept).length = (line :: fit).length + kept.length := by
                rw [List.length_cons, List.length_cons]
                omega
              have hkept : fit.reverse ++ line :: kept = (line :: fit).reverse ++ kept := by simp
              rw [hlines', hkept] at hloop hlater
              rw [hlines'] at hcount
              rw [hkept] at hsize
              exact ⟨line :: fit, later, congrArg (line :: ·) hrest, hloop,
                fun _ hfit => absurd hfit (List.cons_ne_nil _ _), hcount, hsize, hlater⟩

/-- The end of a text, in which the bytes of a lone surrogate are read back as replacement characters. -/
theorem truncateStringToBytesFromEnd_eq {value : Text} {maxBytes : Nat} (h : maxBytes < utf8Len value) :
    truncateStringToBytesFromEnd value maxBytes = (endWithin maxBytes value).flatMap fun c =>
      if isScalar c then [c] else (encodePoint c).flatMap fun _ => [0xfffd] := by
  have hover : ¬ (encode value).length ≤ maxBytes := not_le.mpr h
  rw [truncateStringToBytesFromEnd, if_neg hover, skipTails_drop, decode_encode_onError]

theorem truncateStringToBytesFromEnd_scalar {value : Text} {maxBytes : Nat}
    (hscalar : ∀ c ∈ endWithin maxBytes value, isScalar c = true) :
    truncateStringToBytesFromEnd value maxBytes = endWithin maxBytes value := by
  by_cases h : maxBytes < utf8Len value
  · rw [truncateStringToBytesFromEnd_eq h]
    have hone : ∀ c ∈ endWithin maxBytes value,
        (if isScalar c then [c] else (encodePoint c).flatMap fun _ => [0xfffd]) = [c] :=
      fun c hc => if_pos (hscalar c hc)
    rw [List.flatMap_congr hone]
    exact List.flatMap_singleton' _
  · rw [endWithin_eq_self (not_lt.mp h), truncateStringToBytesFromEnd]
    exact if_pos (not_lt.mp h)

/-- With a lone surrogate the text that is read back is longer than the end. -/
theorem length_truncateStringToBytesFromEnd_lt {value : Text} {maxBytes : Nat} (h : maxBytes < utf8Len value)
    {c : CodePoint} (hc : c ∈ endWithin maxBytes value) (hscalar : isScalar c = false) :
    (endWithin maxBytes value).length < (truncateStringToBytesFromEnd value maxBytes).length := by
  rw [truncateStringToBytesFromEnd_eq h]
  generalize endWithin maxBytes value = last at hc ⊢
  have hlength : ∀ d : CodePoint,
      1 ≤ (if isScalar d then [d] else (encodePoint d).flatMap fun _ => [0xfffd]).length := by
    intro d
    split
    · exact Nat.le_refl _
    · rw [← List.map_eq_flatMap, List.length_map, length_encodePoint]
      exact utf8Size_pos d
  have hone : 1 < (if isScalar c then [c] else (encodePoint c).flatMap fun _ => [0xfffd]).length := by
    have hbool : ¬ isScalar c = true := by
      rw [hscalar]
      decide
    rw [if_neg hbool, ← List.map_eq_flatMap, List.length_map, length_encodePoint]
    exact surrogate_size hscalar
  have hall : ∀ t : Text, t.length ≤ (t.flatMap fun c =>
      if isScalar c then [c] else (encodePoint c).flatMap fun _ => [0xfffd]).length := by
    intro t
    induction t with
    | nil => exact Nat.le_refl _
    | cons d t ih =>
        rw [List.flatMap_cons, List.length_append, List.length_cons, Nat.add_comm]
        exact Nat.add_le_add (hlength d) ih
  obtain ⟨before, after, rfl⟩ := List.append_of_mem hc
  rw [List.flatMap_append, List.flatMap_cons, List.length_append, List.length_append, List.length_append,
    List.length_cons]
  have hbefore := hall before
  have hafter := hall after
  omega

end Avibe.Output
