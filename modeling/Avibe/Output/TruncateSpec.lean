import Avibe.Output.Truncate

/-!
# Truncation is maximal and truthful

Except where the final line feed alone is over the byte limit, and for an over-long last line when one line
is allowed or when its kept end has a lone surrogate, a truncation keeps as many whole lines as fit, counts
them, and names a limit that the next whole line would exceed (`truncate_truthful_iff`).
-/

namespace Avibe.Output

open Texts

/-- Some lines exceed the limit that is named. -/
def Exceeds (maxLines maxBytes : Nat) (lines : List Text) : TruncatedBy → Prop
  | .lines => maxLines < lines.length
  | .bytes => maxBytes < utf8Len (joined lines)

/-- A truncation that counts what it returns and what it was given. -/
structure Counted (content : Text) (maxLines maxBytes : Nat) (r : TruncationResult) : Prop where
  truncated : r.truncated = true ↔ maxLines < (splitLines content).length ∨ maxBytes < utf8Len content
  totals : r.totalLines = (splitLines content).length ∧ r.totalBytes = utf8Len content
  bytes : r.outputBytes = utf8Len r.content
  limits : r.outputLines ≤ maxLines ∧ utf8Len r.content ≤ maxBytes
  whole : r.truncated = false → r.content = content ∧ r.outputLines = (splitLines content).length ∧
    r.truncatedBy = none

/-- The first lines as they should be truncated. -/
structure HeadTruthful (content : Text) (maxLines maxBytes : Nat) (r : TruncationResult) : Prop extends
    Counted content maxLines maxBytes r where
  kept : r.truncated = true → r.content = joined ((splitLines content).take r.outputLines) ∧
    r.outputLines ≤ (splitLines content).length
  maximal : ∀ n, r.outputLines < n → n ≤ (splitLines content).length →
    maxLines < n ∨ maxBytes < utf8Len (joined ((splitLines content).take n))
  named : ∀ limit, r.truncatedBy = some limit → r.outputLines < (splitLines content).length ∧
    Exceeds maxLines maxBytes ((splitLines content).take (r.outputLines + 1)) limit

/-- The last lines of a text. -/
def lastLines (content : Text) (n : Nat) : List Text :=
  (splitLines content).drop ((splitLines content).length - n)

/-- How many whole lines a result has. -/
def TruncationResult.wholeLines (r : TruncationResult) : Nat :=
  if r.lastLinePartial then 0 else r.outputLines

/-- The last lines as they should be truncated. -/
structure TailTruthful (content : Text) (maxLines maxBytes : Nat) (r : TruncationResult) : Prop extends
    Counted content maxLines maxBytes r where
  kept : r.truncated = true → r.lastLinePartial = false →
    r.content = joined (lastLines content r.outputLines) ∧ r.outputLines ≤ (splitLines content).length
  cut : r.lastLinePartial = true → r.outputLines = 1 ∧ ∃ last, (splitLines content).getLast? = some last ∧
    maxBytes < utf8Len last ∧ r.content <:+ last ∧ ∀ c ∈ r.content, isScalar c = true
  maximal : ∀ n, r.wholeLines < n → n ≤ (splitLines content).length →
    maxLines < n ∨ maxBytes < utf8Len (joined (lastLines content n))
  named : ∀ limit, r.truncatedBy = some limit → r.wholeLines < (splitLines content).length ∧
    Exceeds maxLines maxBytes (lastLines content (r.wholeLines + 1)) limit

/-- All lines fit, and with the final line feed the text is over the byte limit. -/
def BreakOver (content : Text) (maxLines maxBytes : Nat) : Prop :=
  (splitLines content).length ≤ maxLines ∧ EndsLine content ∧ utf8Len content = maxBytes + 1

/-- An over-long last line is not the one line that is allowed, and the end that fits is valid UTF-8. -/
def CutsWell (content : Text) (maxLines maxBytes : Nat) : Prop :=
  ∀ last, (splitLines content).getLast? = some last → maxBytes < utf8Len last →
    maxLines ≠ 1 ∧ ∀ c ∈ endWithin maxBytes last, isScalar c = true

section Truncation

variable {content : Text} {maxLines maxBytes : Nat}

theorem utf8Len_content (content : Text) :
    utf8Len content = utf8Len (joined (splitLines content)) + if EndsLine content then 1 else 0 := by
  conv_lhs => rw [joined_splitLines content, utf8Len_append]
  split <;> rfl

/-- With all lines within the limits, only the final line feed can be over. -/
theorem breakOver_iff (hlines : (splitLines content).length ≤ maxLines)
    (hjoined : utf8Len (joined (splitLines content)) ≤ maxBytes) :
    BreakOver content maxLines maxBytes ↔ maxBytes < utf8Len content := by
  have hcontent := utf8Len_content content
  constructor
  · rintro ⟨-, -, hbytes⟩
    omega
  · intro hover
    by_cases hends : EndsLine content
    · rw [if_pos hends] at hcontent
      exact ⟨hlines, hends, by omega⟩
    · rw [if_neg hends] at hcontent
      omega

theorem not_breakOver (h : maxBytes < utf8Len (joined (splitLines content))) :
    ¬ BreakOver content maxLines maxBytes := by
  rintro ⟨-, hends, hbytes⟩
  have hcontent := utf8Len_content content
  rw [if_pos hends] at hcontent
  omega

theorem counted_untruncated (hlines : (splitLines content).length ≤ maxLines)
    (hbytes : utf8Len content ≤ maxBytes) :
    Counted content maxLines maxBytes
      (untruncated content (splitLines content).length (utf8Len content) maxLines maxBytes) where
  truncated := by
    simp only [untruncated, Bool.false_eq_true, false_iff, not_or, not_lt]
    exact ⟨hlines, hbytes⟩
  totals := ⟨rfl, rfl⟩
  bytes := rfl
  limits := ⟨hlines, hbytes⟩
  whole := fun _ => ⟨rfl, rfl, rfl⟩

theorem truncated_of_not (h : ¬ ((splitLines content).length ≤ maxLines ∧ utf8Len content ≤ maxBytes)) :
    maxLines < (splitLines content).length ∨ maxBytes < utf8Len content := by
  rw [not_and_or, not_le, not_le] at h
  exact h

/-! ## The first lines -/

theorem headTruthful_untruncated (hlines : (splitLines content).length ≤ maxLines)
    (hbytes : utf8Len content ≤ maxBytes) :
    HeadTruthful content maxLines maxBytes
      (untruncated content (splitLines content).length (utf8Len content) maxLines maxBytes) where
  toCounted := counted_untruncated hlines hbytes
  kept := fun h => by cases h
  maximal := fun n hlt hle => absurd hle (not_le.mpr hlt)
  named := fun limit h => by cases h

/-- A kept head is truthful when its next line exceeds the limit that is named. -/
theorem headTruthful_of_fit {fit later : List Text} {limit : TruncatedBy}
    (hsplit : splitLines content = fit ++ later)
    (hover : maxLines < (splitLines content).length ∨ maxBytes < utf8Len content)
    (hlines : fit.length ≤ maxLines) (hfit : utf8Len (joined fit) ≤ maxBytes) (hlater : later ≠ [])
    (hnext : ∀ line ∈ later.head?, Exceeds maxLines maxBytes (fit ++ [line]) limit)
    {firstLineExceedsLimit : Bool} :
    HeadTruthful content maxLines maxBytes
      ⟨joined fit, true, some limit, (splitLines content).length, utf8Len content, fit.length,
        utf8Len (joined fit), false, firstLineExceedsLimit, maxLines, maxBytes⟩ := by
  obtain ⟨line, rest, rfl⟩ := List.exists_cons_of_ne_nil hlater
  have hexceeds := hnext line rfl
  have htake : (splitLines content).take (fit.length + 1) = fit ++ [line] := by
    rw [hsplit, List.take_append, List.take_of_length_le (Nat.le_succ _), Nat.add_sub_cancel_left]
    rfl
  have hlt : fit.length < (splitLines content).length := by
    rw [hsplit, List.length_append, List.length_cons]
    omega
  refine ⟨⟨⟨fun _ => hover, fun _ => rfl⟩, ⟨rfl, rfl⟩, rfl, ⟨hlines, hfit⟩, fun h => by cases h⟩, ?_, ?_, ?_⟩
  · intro _
    exact ⟨by rw [hsplit, List.take_left], Nat.le_of_lt hlt⟩
  · intro n hmore hle
    have hprefix : fit ++ [line] <+: (splitLines content).take n := by
      rw [← htake]
      exact List.take_prefix_take_left hmore
    cases limit with
    | lines =>
        left
        have hlength := hexceeds
        rw [Exceeds, List.length_append, List.length_singleton] at hlength
        exact Nat.lt_of_lt_of_le hlength hmore
    | bytes => exact .inr (Nat.lt_of_lt_of_le hexceeds (utf8Len_joined_mono hprefix))
  · intro named hnamed
    obtain rfl : limit = named := Option.some.inj hnamed
    exact ⟨hlt, htake ▸ hexceeds⟩

theorem truncateHead_truthful_iff :
    HeadTruthful content maxLines maxBytes (truncateHead content maxLines maxBytes) ↔
      ¬ BreakOver content maxLines maxBytes := by
  rw [truncateHead]
  by_cases hwithin : (splitLines content).length ≤ maxLines ∧ utf8Len content ≤ maxBytes
  · rw [if_pos hwithin]
    refine ⟨fun _ hbreak => ?_, fun _ => headTruthful_untruncated hwithin.1 hwithin.2⟩
    have hbytes := hbreak.2.2
    have hle := hwithin.2
    omega
  · have hover := truncated_of_not hwithin
    rw [if_neg hwithin]
    by_cases hfirst : maxBytes < utf8Len ((splitLines content).headD [])
    · rw [if_pos hfirst]
      have hne : splitLines content ≠ [] := by
        intro hnil
        rw [hnil] at hfirst
        exact absurd hfirst (Nat.not_lt_zero _)
      obtain ⟨line, rest, hlines⟩ := List.exists_cons_of_ne_nil hne
      rw [hlines, List.headD_cons] at hfirst
      have hjoined : maxBytes < utf8Len (joined (splitLines content)) := by
        rw [hlines, utf8Len_joined_cons]
        omega
      refine ⟨fun _ => not_breakOver hjoined, fun _ => ?_⟩
      have hnext : ∀ next ∈ (line :: rest).head?, Exceeds maxLines maxBytes ([] ++ [next]) .bytes := by
        intro next hnext
        obtain rfl : line = next := Option.some.inj hnext
        rw [List.nil_append, Exceeds, joined_singleton]
        exact hfirst
      exact headTruthful_of_fit hlines hover (Nat.zero_le _) (Nat.zero_le _) (List.cons_ne_nil _ _) hnext
    · rw [if_neg hfirst]
      obtain ⟨fit, later, htake, hloop, hfit, hnext⟩ :=
        headLoop_spec [] ((splitLines content).take maxLines) (Nat.zero_le maxBytes)
      have hloop' : headLoop maxBytes 0 [] 0 ((splitLines content).take maxLines) =
          ⟨fit, utf8Len (joined fit), if later = [] then .lines else .bytes⟩ := hloop
      dsimp only
      rw [hloop']
      dsimp only
      rw [List.nil_append] at hfit hnext
      have hsplit : splitLines content = fit ++ (later ++ (splitLines content).drop maxLines) := by
        rw [← List.append_assoc, ← htake, List.take_append_drop]
      have hcount : fit.length + later.length = min maxLines (splitLines content).length := by
        rw [← List.length_append, ← htake, List.length_take]
      by_cases hlater : later = []
      · subst hlater
        rw [if_pos rfl, namedLimit]
        rw [List.length_nil, Nat.add_zero] at hcount
        by_cases hmore : maxLines < (splitLines content).length
        · have hfull : fit.length = maxLines := by omega
          rw [if_pos ⟨Nat.le_of_eq hfull.symm, hfit⟩]
          refine ⟨fun _ hbreak => absurd hbreak.1 (not_le.mpr hmore), fun _ => ?_⟩
          apply headTruthful_of_fit hsplit hover (Nat.le_of_eq hfull) hfit
          · rw [List.nil_append]
            exact List.drop_eq_nil_iff.not.mpr (not_le.mpr hmore)
          · intro line _
            rw [Exceeds, List.length_append, List.length_singleton, hfull]
            exact Nat.lt_succ_self _
        · have hall : splitLines content = fit := by
            rw [List.drop_of_length_le (not_lt.mp hmore), List.append_nil, List.append_nil] at hsplit
            exact hsplit
          have hbreak : BreakOver content maxLines maxBytes :=
            (breakOver_iff (not_lt.mp hmore) (hall ▸ hfit)).mpr (hover.resolve_left hmore)
          refine ⟨fun htruthful => ?_, fun hnot => absurd hbreak hnot⟩
          have hlt := (htruthful.named _ rfl).1
          rw [hall] at hlt
          exact absurd hlt (Nat.lt_irrefl _)
      · have hless : fit.length < maxLines := by
          have := List.length_pos_iff.mpr hlater
          omega
        obtain ⟨line, rest, hcons⟩ := List.exists_cons_of_ne_nil hlater
        have hexceeds := hnext line (by rw [hcons]; rfl)
        have hjoined : maxBytes < utf8Len (joined (splitLines content)) := by
          apply Nat.lt_of_lt_of_le hexceeds
          apply utf8Len_joined_mono
          rw [hsplit, hcons]
          exact ⟨rest ++ (splitLines content).drop maxLines, by simp⟩
        rw [if_neg hlater, namedLimit, if_neg fun hfull => absurd hfull.1 (not_le.mpr hless)]
        refine ⟨fun _ => not_breakOver hjoined, fun _ => ?_⟩
        apply headTruthful_of_fit hsplit hover (Nat.le_of_lt hless) hfit
        · exact List.append_ne_nil_of_left_ne_nil hlater _
        · intro next hhead
          apply hnext
          rw [hcons] at hhead ⊢
          exact hhead

/-! ## The last lines -/

theorem lastLines_eq {before after : List Text} (h : splitLines content = before ++ after) :
    lastLines content after.length = after := by
  rw [lastLines, h, List.length_append, Nat.add_sub_cancel, List.drop_left]

/-- The last lines are a part of more last lines. -/
theorem utf8Len_lastLines_mono {m n : Nat} (h : m ≤ n) :
    utf8Len (joined (lastLines content m)) ≤ utf8Len (joined (lastLines content n)) := by
  rw [lastLines, lastLines, ← utf8Len_joined_reverse, ← utf8Len_joined_reverse (List.drop _ _),
    List.reverse_drop, List.reverse_drop]
  apply utf8Len_joined_mono
  apply List.take_prefix_take_left
  omega

theorem tailTruthful_untruncated (hlines : (splitLines content).length ≤ maxLines)
    (hbytes : utf8Len content ≤ maxBytes) :
    TailTruthful content maxLines maxBytes
      (untruncated content (splitLines content).length (utf8Len content) maxLines maxBytes) where
  toCounted := counted_untruncated hlines hbytes
  kept := fun h => by cases h
  cut := fun h => by cases h
  maximal := fun n hlt hle => absurd hle (not_le.mpr hlt)
  named := fun limit h => by cases h

/-- A kept tail is truthful when the line before it exceeds the limit that is named. -/
theorem tailTruthful_of_fit {before fit : List Text} {line : Text} {limit : TruncatedBy}
    (hsplit : splitLines content = before ++ line :: fit)
    (hover : maxLines < (splitLines content).length ∨ maxBytes < utf8Len content)
    (hlines : fit.length ≤ maxLines) (hfit : utf8Len (joined fit) ≤ maxBytes)
    (hexceeds : Exceeds maxLines maxBytes (line :: fit) limit) :
    TailTruthful content maxLines maxBytes
      ⟨joined fit, true, some limit, (splitLines content).length, utf8Len content, fit.length,
        utf8Len (joined fit), false, false, maxLines, maxBytes⟩ := by
  have hnext : lastLines content (fit.length + 1) = line :: fit := lastLines_eq hsplit
  have hkept : lastLines content fit.length = fit := by
    have hsplit' : splitLines content = (before ++ [line]) ++ fit := by
      rw [hsplit, List.append_assoc]
      rfl
    exact lastLines_eq hsplit'
  have hlt : fit.length < (splitLines content).length := by
    rw [hsplit, List.length_append, List.length_cons]
    omega
  refine ⟨⟨⟨fun _ => hover, fun _ => rfl⟩, ⟨rfl, rfl⟩, rfl, ⟨hlines, hfit⟩, fun h => by cases h⟩,
    fun _ _ => ⟨by rw [hkept], Nat.le_of_lt hlt⟩, (fun h => by cases h), ?_, ?_⟩
  · intro n hmore hle
    cases limit with
    | lines => exact .inl (Nat.lt_of_lt_of_le hexceeds hmore)
    | bytes =>
        right
        have hbytes : maxBytes < utf8Len (joined (lastLines content (fit.length + 1))) := by
          rw [hnext]
          exact hexceeds
        exact Nat.lt_of_lt_of_le hbytes (utf8Len_lastLines_mono hmore)
  · intro named hnamed
    obtain rfl : limit = named := Option.some.inj hnamed
    refine ⟨hlt, ?_⟩
    change Exceeds maxLines maxBytes (lastLines content (fit.length + 1)) limit
    rw [hnext]
    exact hexceeds

/-- The end of an over-long last line is truthful when it is valid UTF-8 and more lines are allowed. -/
theorem tailTruthful_cut_iff {before : List Text} {last : Text} (hl : 0 < maxLines)
    (hsplit : splitLines content = before ++ [last]) (hlast : maxBytes < utf8Len last) :
    let cut := truncateStringToBytesFromEnd last maxBytes
    TailTruthful content maxLines maxBytes
        ⟨joined [cut], true, some (namedLimit maxLines maxBytes ⟨[cut], utf8Len cut, .bytes⟩),
          (splitLines content).length, utf8Len content, 1, utf8Len (joined [cut]), true, false, maxLines,
          maxBytes⟩ ↔
      maxLines ≠ 1 ∧ ∀ c ∈ endWithin maxBytes last, isScalar c = true := by
  intro cut
  have hget : (splitLines content).getLast? = some last := by rw [hsplit, List.getLast?_concat]
  have hone : lastLines content 1 = [last] := lastLines_eq hsplit
  have hover : maxBytes < utf8Len content := by
    rw [utf8Len_content, hsplit, ← utf8Len_joined_reverse, List.reverse_concat, utf8Len_joined_cons]
    omega
  constructor
  · intro h
    constructor
    · rintro rfl
      have hcut : utf8Len cut ≤ maxBytes := by
        have hlimit := h.limits.2
        rwa [joined_singleton] at hlimit
      have hnamed := (h.named .lines (congrArg some (if_pos ⟨Nat.le_refl _, hcut⟩))).2
      have hlength : 1 < (lastLines content 1).length := hnamed
      rw [hone] at hlength
      exact absurd hlength (Nat.lt_irrefl _)
    · by_contra hbad
      push Not at hbad
      obtain ⟨c, hc, hscalar⟩ := hbad
      obtain ⟨-, last', hlast', -, hsuffix, -⟩ := h.cut rfl
      obtain rfl : last = last' := Option.some.inj (hget.symm.trans hlast')
      rw [joined_singleton] at hsuffix
      have hlimit := h.limits.2
      rw [joined_singleton] at hlimit
      have hle := (suffix_endWithin_of_le hsuffix hlimit).length_le
      have hlt := length_truncateStringToBytesFromEnd_lt hlast hc (Bool.not_eq_true _ ▸ hscalar)
      exact absurd hle (not_le.mpr hlt)
  · rintro ⟨hmany, hscalar⟩
    have hcut : cut = endWithin maxBytes last := truncateStringToBytesFromEnd_scalar hscalar
    have hbytes : utf8Len cut ≤ maxBytes := hcut ▸ utf8Len_endWithin_le maxBytes last
    have hnamed : namedLimit maxLines maxBytes ⟨[cut], utf8Len cut, .bytes⟩ = .bytes := by
      apply if_neg
      rintro ⟨hfull, -⟩
      have hfull : maxLines ≤ 1 := hfull
      omega
    have hlength : 0 < (splitLines content).length := by
      rw [hsplit, List.length_append, List.length_singleton]
      exact Nat.succ_pos _
    rw [hnamed, joined_singleton]
    refine ⟨⟨⟨fun _ => .inr hover, fun _ => rfl⟩, ⟨rfl, rfl⟩, rfl, ⟨hl, hbytes⟩, fun h => by cases h⟩,
      (fun _ h => by cases h), fun _ => ⟨rfl, last, hget, hlast, ?_, ?_⟩, ?_, ?_⟩
    · exact hcut ▸ endWithin_suffix maxBytes last
    · exact fun c hc => hscalar c (hcut ▸ hc)
    · intro n hmore _
      right
      have hle : utf8Len (joined (lastLines content 1)) ≤ utf8Len (joined (lastLines content n)) :=
        utf8Len_lastLines_mono hmore
      rw [hone, joined_singleton] at hle
      exact Nat.lt_of_lt_of_le hlast hle
    · intro limit hlimit
      obtain rfl : TruncatedBy.bytes = limit := Option.some.inj hlimit
      refine ⟨hlength, ?_⟩
      change maxBytes < utf8Len (joined (lastLines content 1))
      rwa [hone, joined_singleton]

theorem truncateTail_truthful_iff (hl : 0 < maxLines) :
    TailTruthful content maxLines maxBytes (truncateTail content maxLines maxBytes) ↔
      ¬ BreakOver content maxLines maxBytes ∧ CutsWell content maxLines maxBytes := by
  rw [truncateTail]
  by_cases hwithin : (splitLines content).length ≤ maxLines ∧ utf8Len content ≤ maxBytes
  · rw [if_pos hwithin]
    refine ⟨fun _ => ⟨fun hbreak => ?_, ?_⟩, fun _ => tailTruthful_untruncated hwithin.1 hwithin.2⟩
    · have hbytes := hbreak.2.2
      have hle := hwithin.2
      omega
    · intro last hlast hlong
      obtain ⟨before, hsplit⟩ := List.getLast?_eq_some_iff.mp hlast
      have hcontent := utf8Len_content content
      rw [hsplit, ← utf8Len_joined_reverse, List.reverse_concat, utf8Len_joined_cons] at hcontent
      have hle := hwithin.2
      omega
  · have hover := truncated_of_not hwithin
    rw [if_neg hwithin]
    have hzero : utf8Len (joined []) ≤ maxBytes := Nat.zero_le _
    cases tailLoop_spec [] (splitLines content).reverse hzero (Nat.zero_le maxLines) with
    | inr hcut =>
        obtain ⟨-, -, last, before, hreverse, hlast, hloop⟩ := hcut
        have hsplit : splitLines content = before.reverse ++ [last] := by
          rw [← List.reverse_reverse (splitLines content), hreverse, List.reverse_cons]
        have hget : (splitLines content).getLast? = some last := by rw [hsplit, List.getLast?_concat]
        have hjoined : maxBytes < utf8Len (joined (splitLines content)) := by
          rw [hsplit, ← utf8Len_joined_reverse, List.reverse_concat, utf8Len_joined_cons]
          omega
        have hloop' : tailLoop maxLines maxBytes [] 0 (splitLines content).reverse =
            (⟨[truncateStringToBytesFromEnd last maxBytes],
              utf8Len (truncateStringToBytesFromEnd last maxBytes), .bytes⟩, true) := hloop
        dsimp only
        rw [hloop']
        refine (tailTruthful_cut_iff hl hsplit hlast).trans ⟨fun hwell => ⟨not_breakOver hjoined, ?_⟩, ?_⟩
        · intro last' hlast' _
          obtain rfl : last = last' := Option.some.inj (hget.symm.trans hlast')
          exact hwell
        · rintro ⟨-, hwell⟩
          exact hwell last hget hlast
    | inl hfit =>
        obtain ⟨fit, later, hreverse, hloop, hsome, hlines, hfit, hnext⟩ := hfit
        have hloop' : tailLoop maxLines maxBytes [] 0 (splitLines content).reverse =
            (⟨fit.reverse, utf8Len (joined fit.reverse),
              if later = [] ∨ maxLines ≤ fit.length then .lines else .bytes⟩, false) := by
          rw [List.append_nil] at hloop
          exact hloop
        rw [List.append_nil] at hfit hnext
        rw [List.length_nil, Nat.add_zero] at hlines hnext
        have hsplit : splitLines content = later.reverse ++ fit.reverse := by
          rw [← List.reverse_reverse (splitLines content), hreverse, List.reverse_append]
        dsimp only
        rw [hloop']
        dsimp only
        have hwell : later ≠ [] → CutsWell content maxLines maxBytes := by
          intro hlater last hlast hlong
          have hne : fit ≠ [] := by
            intro hnil
            cases hsome rfl hnil with
            | inl hnone => exact hlater hnone
            | inr hzero => exact absurd hl (hzero ▸ Nat.lt_irrefl _)
          obtain ⟨first, rest, rfl⟩ := List.exists_cons_of_ne_nil hne
          rw [hsplit, List.reverse_cons, ← List.append_assoc, List.getLast?_concat] at hlast
          obtain rfl : first = last := Option.some.inj hlast
          rw [utf8Len_joined_reverse, utf8Len_joined_cons] at hfit
          omega
        by_cases hlater : later = []
        · have hall : splitLines content = fit.reverse := by rw [hsplit, hlater]; rfl
          have hcount : (splitLines content).length ≤ maxLines := by rwa [hall, List.length_reverse]
          have hbreak : BreakOver content maxLines maxBytes :=
            (breakOver_iff hcount (hall ▸ hfit)).mpr (hover.resolve_left (not_lt.mpr hcount))
          refine ⟨fun htruthful => ?_, fun hnot => absurd hbreak hnot.1⟩
          have hlt := (htruthful.named _ rfl).1
          rw [hall] at hlt
          exact absurd hlt (Nat.lt_irrefl _)
        · obtain ⟨line, rest, rfl⟩ := List.exists_cons_of_ne_nil hlater
          rw [List.reverse_cons, List.append_assoc, List.singleton_append] at hsplit
          have hlength : fit.reverse.length = fit.length := List.length_reverse
          by_cases hfull : maxLines ≤ fit.length
          · have hnamed : namedLimit maxLines maxBytes ⟨fit.reverse, utf8Len (joined fit.reverse),
                if line :: rest = [] ∨ maxLines ≤ fit.length then .lines else .bytes⟩ = .lines :=
              if_pos ⟨hlength.symm ▸ hfull, hfit⟩
            rw [hnamed]
            have hexceeds : Exceeds maxLines maxBytes (line :: fit.reverse) .lines := by
              rw [Exceeds, List.length_cons, hlength]
              exact Nat.lt_succ_of_le hfull
            have hmore : maxLines < (splitLines content).length := by
              rw [hsplit, List.length_append, List.length_cons, hlength]
              omega
            exact ⟨fun _ => ⟨fun hbreak => absurd hbreak.1 (not_le.mpr hmore), hwell hlater⟩,
              fun _ => tailTruthful_of_fit hsplit hover (hlength.symm ▸ hlines) hfit hexceeds⟩
          · have hnamed : namedLimit maxLines maxBytes ⟨fit.reverse, utf8Len (joined fit.reverse),
                if line :: rest = [] ∨ maxLines ≤ fit.length then .lines else .bytes⟩ = .bytes := by
              rw [namedLimit, if_neg fun h => hfull (hlength ▸ h.1),
                if_neg fun h => hfull (h.resolve_left (List.cons_ne_nil _ _))]
            rw [hnamed]
            have hexceeds : Exceeds maxLines maxBytes (line :: fit.reverse) .bytes :=
              hnext (not_le.mp hfull) line rfl
            have hjoined : maxBytes < utf8Len (joined (splitLines content)) := by
              apply Nat.lt_of_lt_of_le hexceeds
              rw [hsplit, ← utf8Len_joined_reverse, ← utf8Len_joined_reverse (_ ++ _), List.reverse_append]
              exact utf8Len_joined_mono (List.prefix_append _ _)
            exact ⟨fun _ => ⟨not_breakOver hjoined, hwell hlater⟩,
              fun _ => tailTruthful_of_fit hsplit hover (hlength.symm ▸ hlines) hfit hexceeds⟩

/-- Both truncations are maximal and truthful if and only if the final line feed is not alone over the byte
limit, and an over-long last line is cut where more than one line is allowed and its end is valid UTF-8. -/
theorem truncate_truthful_iff (hl : 0 < maxLines) :
    (HeadTruthful content maxLines maxBytes (truncateHead content maxLines maxBytes) ∧
        TailTruthful content maxLines maxBytes (truncateTail content maxLines maxBytes)) ↔
      ¬ BreakOver content maxLines maxBytes ∧ CutsWell content maxLines maxBytes := by
  rw [truncateHead_truthful_iff, truncateTail_truthful_iff hl]
  exact ⟨And.right, fun h => ⟨h.1, h⟩⟩

end Truncation

/-- Two lines of which the limits leave one. -/
theorem truncate_truthful_iff_two_lines :
    HeadTruthful (lit "a\nbb") 1 5 (truncateHead (lit "a\nbb") 1 5) ∧
      TailTruthful (lit "a\nbb") 1 5 (truncateTail (lit "a\nbb") 1 5) := by
  apply (truncate_truthful_iff (by decide)).mpr
  constructor
  · rintro ⟨hlines, -⟩
    revert hlines
    decide
  · intro last hlast hlong
    obtain rfl : lit "bb" = last := Option.some.inj hlast
    revert hlong
    decide

/-- A line of as many bytes as are allowed, with its line feed: the truncation names the line limit, though
there is no other line. -/
theorem truncation_names_wrong_limit :
    ¬ ∀ (content : Text) (maxLines maxBytes : Nat), 0 < maxLines → 0 < maxBytes →
      HeadTruthful content maxLines maxBytes (truncateHead content maxLines maxBytes) ∧
        TailTruthful content maxLines maxBytes (truncateTail content maxLines maxBytes) := by
  intro h
  have hnamed : (truncateHead (lit "a\n") 2 1).truncatedBy = some .lines := by decide
  have hlt := ((h (lit "a\n") 2 1 (by decide) (by decide)).1.named _ hnamed).1
  revert hlt
  decide

end Avibe.Output
