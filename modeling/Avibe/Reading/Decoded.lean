import Avibe.Reading.Chunks

/-!
# The lines as they are shown

Lines can be decoded one by one: the lines of the decoded file are the decoded lines of its bytes
(`fileLines_eq`), and a line is shown with at least as many bytes as it has.
-/

namespace Avibe.Reading

open Texts
open Edits (shown)

/-! ## Ends of decoded lines -/

theorem encodeFile_append {t u : Text} {bytes : Bytes} (h : encodeFile (t ++ u) = some bytes) :
    ∃ a b, bytes = a ++ b ∧ encodeFile t = some a ∧ encodeFile u = some b := by
  induction t generalizing bytes with
  | nil => exact ⟨[], bytes, rfl, rfl, h⟩
  | cons c t ih =>
      rw [List.cons_append, encodeFile] at h
      rw [encodeFile]
      by_cases hscalar : isScalar c = true
      · rw [if_pos hscalar] at h ⊢
        obtain ⟨rest, hrest, rfl⟩ := Option.map_eq_some_iff.mp h
        obtain ⟨a, b, rfl, ha, hb⟩ := ih hrest
        refine ⟨encodePoint c ++ a, b, (List.append_assoc _ _ _).symm, ?_, hb⟩
        rw [ha]
        rfl
      · rw [if_neg hscalar] at h ⊢
        by_cases hescape : 0xdc80 ≤ c.val ∧ c.val < 0xdd00
        · rw [if_pos hescape] at h ⊢
          obtain ⟨rest, hrest, rfl⟩ := Option.map_eq_some_iff.mp h
          obtain ⟨a, b, rfl, ha, hb⟩ := ih hrest
          refine ⟨_ :: a, b, rfl, ?_, hb⟩
          rw [ha]
          rfl
        · rw [if_neg hescape] at h
          cases h

/-- An ASCII character of a decoded line is a byte of the line. -/
theorem decodeFile_eq_append {line : Bytes} {t u : Text} {c : CodePoint} (hc : c.val < 0x80)
    (h : decodeFile line = t ++ c :: u) : ∃ a b, line = a ++ UInt8.ofNat c.val :: b ∧ encodeFile u = some b := by
  have hline := encodeFile_decodeFile line
  rw [h] at hline
  obtain ⟨a, rest, rfl, -, hrest⟩ := encodeFile_append hline
  have hscalar : isScalar c = true := by
    simp [isScalar, Fin.lt_def]
    omega
  rw [encodeFile, if_pos hscalar, encodePoint, if_pos hc] at hrest
  obtain ⟨b, hb, rfl⟩ := Option.map_eq_some_iff.mp hrest
  exact ⟨a, b, rfl, hb⟩

/-- The same for a line as it is shown. -/
theorem decoded_eq_append {line : Bytes} {t u : Text} {c : CodePoint} (hc : c.val < 0x80)
    (h : decoded line = t ++ c :: u) :
    ∃ a b, line = a ++ UInt8.ofNat c.val :: b ∧ (u = [] → b = []) := by
  obtain ⟨t', u', hline, -, hu⟩ := List.map_eq_append_iff.mp h
  obtain ⟨d, u'', rfl, hd, hu⟩ := List.map_eq_cons_iff.mp hu
  have hsame : d = c := by
    split at hd
    · rw [← hd] at hc
      exact absurd hc (by decide)
    · exact hd
  rw [hsame] at hline
  obtain ⟨a, b, heq, hb⟩ := decodeFile_eq_append hc hline
  refine ⟨a, b, heq, fun hnil => ?_⟩
  rw [hnil, List.map_eq_nil_iff] at hu
  rw [hu] at hb
  exact (Option.some.inj hb).symm

theorem decoded_ascii (bytes rest : Bytes) {b : UInt8} (hb : b.toNat < 0x80) :
    decoded (bytes ++ b :: rest) = decoded bytes ++ ⟨b.toNat, toNat_lt_of_ascii hb⟩ :: decoded rest := by
  have hfirst : ¬ IsTail b := fun htail => absurd hb (not_lt.mpr htail.1)
  have hone : decodeFile (b :: rest) = ⟨b.toNat, toNat_lt_of_ascii hb⟩ :: decodeFile rest := by
    have hscalar : isScalar ⟨b.toNat, toNat_lt_of_ascii hb⟩ = true := by
      simp [isScalar, Fin.lt_def]
      omega
    apply decode_sequence hscalar
    rw [encodePoint, if_pos hb, UInt8.ofNat_toNat]
    rfl
  have hshown : shown (⟨b.toNat, toNat_lt_of_ascii hb⟩ :: decodeFile rest) = ⟨b.toNat, toNat_lt_of_ascii hb⟩ :: shown (decodeFile rest) := by
    rw [shown, List.map_cons, if_neg (by dsimp only; omega)]
    rfl
  rw [decoded, decodeFile, decode_append (by simpa using hfirst), shown_append, ← decodeFile, ← decodeFile, hone,
    hshown]
  rfl

theorem decoded_newline (bytes rest : Bytes) :
    decoded (bytes ++ newline :: rest) = decoded bytes ++ lineFeed :: decoded rest :=
  decoded_ascii bytes rest (by decide)

theorem getLast?_decoded (line : Bytes) :
    (decoded line).getLast? = some carriageReturn ↔ line.getLast? = some returnByte := by
  constructor
  · intro h
    obtain ⟨front, hfront⟩ := List.getLast?_eq_some_iff.mp h
    obtain ⟨a, b, rfl, hnil⟩ := decoded_eq_append (by decide) hfront
    rw [hnil rfl]
    exact List.getLast?_concat
  · intro h
    obtain ⟨front, rfl⟩ := List.getLast?_eq_some_iff.mp h
    have happend := decoded_ascii front [] (b := returnByte) (by decide)
    rw [happend]
    exact List.getLast?_concat

theorem decoded_dropReturn (line : Bytes) :
    decoded (dropReturn returnByte line) = dropReturn carriageReturn (decoded line) := by
  cases dropReturn_cases (r := returnByte) line with
  | inr hdrop =>
      obtain ⟨front, rfl, hlast, hfront⟩ := hdrop
      have happend : decoded (front ++ [returnByte]) = decoded front ++ [carriageReturn] :=
        decoded_ascii front [] (by decide)
      rw [hfront, happend, dropReturn_concat (mt (getLast?_decoded front).mp hlast)]
  | inl hsame =>
      rw [hsame]
      cases dropReturn_cases (r := carriageReturn) (decoded line) with
      | inl hkept => exact hkept.symm
      | inr hdrop =>
          obtain ⟨front, heq, hlast, -⟩ := hdrop
          obtain ⟨a, b, rfl, hnil⟩ := decoded_eq_append (by decide) heq
          rw [hnil rfl] at hsame heq
          have hreturn : UInt8.ofNat carriageReturn.val = returnByte := rfl
          rw [hreturn] at hsame heq
          have happend : decoded (a ++ [returnByte]) = decoded a ++ [carriageReturn] :=
            decoded_ascii a [] (by decide)
          rw [happend] at heq
          have hfront := List.append_cancel_right heq
          rw [← hfront] at hlast
          rw [dropReturn_concat (mt (getLast?_decoded a).mpr hlast)] at hsame
          exact absurd (List.self_eq_append_right.mp hsame) (List.cons_ne_nil _ _)

/-! ## All lines -/

theorem lineFeed_notMem_decoded {line : Bytes} (h : newline ∉ line) : lineFeed ∉ decoded line := by
  intro hmem
  obtain ⟨t, u, heq⟩ := List.append_of_mem hmem
  obtain ⟨a, b, rfl, -⟩ := decoded_eq_append (by decide) heq
  exact h (List.mem_append_right _ List.mem_cons_self)

theorem decoded_intercalate {lines : List Bytes} (hne : lines ≠ []) :
    decoded ([newline].intercalate lines) = joined (lines.map decoded) := by
  induction lines with
  | nil => exact absurd rfl hne
  | cons line lines ih =>
      cases lines with
      | nil =>
          rw [List.map_singleton, joined_singleton]
          exact congrArg decoded (List.append_nil line)
      | cons next lines =>
          have hparts : [newline].intercalate (line :: next :: lines) =
              line ++ newline :: [newline].intercalate (next :: lines) := rfl
          have hjoined : joined ((line :: next :: lines).map decoded) =
              decoded line ++ lineFeed :: joined ((next :: lines).map decoded) := joined_cons (List.cons_ne_nil _ _)
          rw [hparts, decoded_newline, ih (List.cons_ne_nil _ _), hjoined]

/-- The lines of the decoded file are the decoded lines of its bytes. -/
theorem fileLines_eq (data : Bytes) : fileLines data = (endedLines returnByte (data.splitOn newline)).map decoded := by
  have hsplit : (decoded data).splitOn lineFeed = (data.splitOn newline).map decoded := by
    have hne := List.splitOn_ne_nil newline data
    have hdata : [newline].intercalate (data.splitOn newline) = data := List.intercalate_splitOn newline
    conv_lhs => rw [← hdata]
    rw [decoded_intercalate hne, joined, List.splitOn_intercalate]
    · intro line hline
      obtain ⟨raw, hraw, rfl⟩ := List.mem_map.mp hline
      exact lineFeed_notMem_decoded (notMem_of_mem_splitOn hraw)
    · exact fun hnil => hne (List.map_eq_nil_iff.mp hnil)
  obtain ⟨done, cur, hraw⟩ : ∃ done cur, data.splitOn newline = done ++ [cur] :=
    ⟨_, _, (List.dropLast_concat_getLast (List.splitOn_ne_nil newline data)).symm⟩
  rw [fileLines, ← decoded, hsplit, hraw, endedLines_concat, endedLines, List.map_append, List.map_singleton,
    List.dropLast_concat, List.getLast?_concat, List.map_append, List.map_map, List.map_map]
  have hdrop : decoded ∘ dropReturn returnByte = dropReturn carriageReturn ∘ decoded := by
    funext line
    exact decoded_dropReturn line
  rw [hdrop]
  rfl

/-! ## Sizes -/

theorem length_le_shownSize (bytes : Bytes) : bytes.length ≤ shownSize bytes := by
  have hfrom : ∀ skip, bytes.length ≤ skip + utf8Len (shown (decodeFrom (fun b => [escape b]) skip bytes)) := by
    induction bytes with
    | nil => exact fun skip => Nat.zero_le _
    | cons b bytes ih =>
        intro skip
        cases skip with
        | succ skip =>
            have hrest := ih skip
            rw [decodeFrom, List.length_cons]
            omega
        | zero =>
            rw [decodeFrom, List.length_cons]
            cases hsequence : sequence? (b :: bytes) with
            | none =>
                have hrest := ih 0
                have hpos := utf8Size_pos (if 0xdc80 ≤ (escape b).val ∧ (escape b).val < 0xdd00 then 0xfffd else escape b)
                dsimp only
                rw [List.singleton_append, shown, List.map_cons, utf8Len_cons, ← shown]
                omega
            | some c =>
                have hrest := ih ((encodePoint c).length - 1)
                obtain ⟨hscalar, -⟩ := sequence?_eq_some.mp hsequence
                have hkept : ¬ (0xdc80 ≤ c.val ∧ c.val < 0xdd00) := by
                  simp [isScalar, Fin.lt_def] at hscalar
                  omega
                have hpos := utf8Size_pos c
                rw [length_encodePoint] at hrest
                dsimp only
                rw [length_encodePoint, shown, List.map_cons, if_neg hkept, utf8Len_cons, ← shown]
                omega
  have hzero := hfrom 0
  rwa [Nat.zero_add] at hzero

theorem size_le_decoded (lines : List Bytes) : size lines ≤ utf8Len (joined (lines.map decoded)) := by
  rw [size, utf8Len_joined, List.map_map, List.length_map]
  apply Nat.add_le_add_right
  induction lines with
  | nil => exact Nat.le_refl _
  | cons line lines ih =>
      rw [List.map_cons, List.map_cons, List.sum_cons, List.sum_cons]
      exact Nat.add_le_add (length_le_shownSize line) ih

end Avibe.Reading
