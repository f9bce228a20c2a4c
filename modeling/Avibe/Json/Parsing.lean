import Avibe.Json.Parser
import Avibe.Json.Visited

/-!
# What the parser accepts

Every byte takes the parser where it takes the scanner. A lexeme that was kept whole is
one that `json.loads` takes, so that a kept token never makes the text invalid.
-/

namespace Avibe.Json

namespace Parser

/-- The lexical fields of the parser stand for the mode of the scanner. -/
def InMode (p : Parser) : Mode → Prop
  | .normal => p.mode = .normal
  | .string s =>
      p.mode = .string ∧ s = ⟨p.escaped, p.unicodeEscapeDigits, p.stringDecoder⟩ ∧
        (p.stringTooLong = false → p.string.foldlM StringState.step .clean = some s)
  | .number s =>
      p.mode = .number ∧ p.numberState = s ∧
        (p.numberTooLong = false → ∃ b rest first, p.number = b :: rest ∧
          NumberState.start b = some first ∧ rest.foldlM NumberState.advance first = some s)
  | .literal bytes => p.mode = .literal ∧ p.literal = bytes

/-- The parser stands for a state of the scanner. -/
structure Reads (p : Parser) (s : Scan) : Prop where
  started : p.rootStarted = true
  valid : p.invalid = false
  visits : p.toVisits.At s.config
  mode : p.InMode s.mode

/-- The outcome of a byte: a state of the scanner, or the text is invalid. -/
def After (p : Parser) : Option Scan → Prop
  | none => p.invalid = true
  | some s => p.Reads s

theorem after_failed (p : Parser) : p.failed.After none := rfl

/-! ## Between two lexemes -/

theorem after_accepted {p : Parser} {c : Config} (hs : p.rootStarted = true)
    (hv : p.invalid = false) (hc : p.toVisits.At c) (hm : p.mode = .normal) (token : Lexed)
    (value : PyValue) :
    (p.accepted token value).After ((c.step token.token).map fun c' => ⟨.normal, c'⟩) := by
  have h := Visits.next_accept hv hc token value
  cases hstep : c.step token.token with
  | none =>
      rw [hstep] at h
      exact h
  | some c' =>
      rw [hstep] at h
      exact ⟨hs, h.1, h.2, hm⟩

theorem punctuationToken_token (b : UInt8) :
    (punctuationToken b).map Lexed.token = punctuation b := by
  unfold punctuationToken punctuation
  repeat' split
  all_goals rfl

theorem start_eq (b : UInt8) :
    NumberState.start b =
      if b = 0x2D ∨ isDigit b then
        some (if b = 0x2D then .sign else if b = 0x30 then .zero else .int)
      else none := by
  unfold NumberState.start
  by_cases hm : b = 0x2D
  · simp [hm]
  · by_cases hz : b = 0x30
    · subst hz
      rfl
    · cases hd : isDigit b <;> simp [hm, hz]

theorem after_feedNormalByte {p : Parser} {c : Config} (hs : p.rootStarted = true)
    (hv : p.invalid = false) (hc : p.toVisits.At c) (hm : p.mode = .normal) (b : UInt8) :
    (p.feedNormalByte b).After (Scan.between c b) := by
  unfold feedNormalByte Scan.between
  rw [start_eq]
  by_cases hspace : isSpace b = true
  · simp only [hspace, if_true]
    exact ⟨hs, hv, hc, hm⟩
  simp only [hspace, Bool.false_eq_true, if_false]
  by_cases hquote : b = 0x22
  · simp only [hquote, if_true]
    exact ⟨hs, hv, hc, rfl, rfl, fun _ => rfl⟩
  simp only [hquote, if_false]
  by_cases hnumber : b = 0x2D ∨ isDigit b = true
  · simp only [hnumber, if_true]
    refine ⟨hs, hv, hc, rfl, rfl, fun _ => ⟨b, [], _, rfl, ?_, rfl⟩⟩
    rw [start_eq, if_pos hnumber]
  simp only [hnumber, if_false]
  by_cases hletter : b ∈ [0x74, 0x66, 0x6E]
  · simp only [hletter, if_true]
    exact ⟨hs, hv, hc, rfl, rfl⟩
  simp only [hletter, if_false]
  rw [← punctuationToken_token]
  cases punctuationToken b with
  | none => exact after_failed p
  | some token => exact after_accepted hs hv hc hm token .none

/-! ## Strings -/

/-- What was kept so far is all that was read, unless it was too long. -/
theorem retainStringBytes_kept {p : Parser} {payload : List UInt8}
    (h : (p.retainStringBytes payload).stringTooLong = false) :
    p.stringTooLong = false ∧ (p.retainStringBytes payload).string = p.string ++ payload := by
  unfold retainStringBytes at h ⊢
  split
  · rename_i hl
    rw [if_pos hl] at h
    exact ⟨h, rfl⟩
  · rename_i hl
    rw [if_neg hl] at h
    dsimp only at h ⊢
    split at h
    · cases h
    · rename_i hlen
      exact ⟨h, by rw [List.take_of_length_le (Nat.not_lt.mp hlen)]⟩

/-- The fields that keeping bytes of a string does not touch. -/
theorem retainStringBytes_frame (p : Parser) (payload : List UInt8) :
    (p.retainStringBytes payload).toVisits = p.toVisits ∧
      (p.retainStringBytes payload).rootStarted = p.rootStarted ∧
      (p.retainStringBytes payload).mode = p.mode ∧
      (p.retainStringBytes payload).escaped = p.escaped ∧
      (p.retainStringBytes payload).unicodeEscapeDigits = p.unicodeEscapeDigits ∧
      (p.retainStringBytes payload).stringDecoder = p.stringDecoder := by
  unfold retainStringBytes
  split <;> exact ⟨rfl, rfl, rfl, rfl, rfl, rfl⟩

/-- A byte that the string state takes is decoded and kept. -/
theorem after_decodeStringByte {p : Parser} {c : Config} {s : StringState} {b : UInt8}
    (hs : p.rootStarted = true) (hv : p.invalid = false) (hc : p.toVisits.At c)
    (hm : p.mode = .string)
    (hstep : s.step b = StringState.decode ⟨p.escaped, p.unicodeEscapeDigits, p.stringDecoder⟩ b)
    (hkept : p.stringTooLong = false → p.string.foldlM StringState.step .clean = some s) :
    (p.decodeStringByte b).After ((s.step b).map fun s' => ⟨.string s', c⟩) := by
  rw [hstep, StringState.decode, decodeStringByte]
  cases hfeed : Utf8.feed p.stringDecoder b with
  | none => exact after_failed p
  | some pending =>
      obtain ⟨hvis, hstart, hmode, hesc, hdig, hdec⟩ :=
        retainStringBytes_frame { p with stringDecoder := pending } [b]
      refine ⟨hstart.trans hs, ?_, ?_, hmode.trans hm, ?_, fun hlong => ?_⟩
      · rw [hvis]
        exact hv
      · rw [hvis]
        exact hc
      · rw [hesc, hdig, hdec]
      · obtain ⟨hlong', hstring⟩ := retainStringBytes_kept hlong
        rw [hstring, List.foldlM_append, hkept hlong']
        simp [hstep, StringState.decode, hfeed]

theorem after_finishString {p : Parser} {c : Config} (hs : p.rootStarted = true)
    (hv : p.invalid = false) (hc : p.toVisits.At c) (hd : p.stringDecoder = [])
    (hkept : p.stringTooLong = false → p.string.foldlM StringState.step .clean = some .clean) :
    p.finishString.After ((c.step .string).map fun c' => ⟨.normal, c'⟩) := by
  have haccepted := after_accepted (p := { p with mode := .normal, string := [] }) hs hv hc rfl
  unfold finishString
  rw [if_neg (not_not_intro hd)]
  by_cases hlong : p.stringTooLong = true
  · simp only [hlong, if_true] at haccepted ⊢
    exact haccepted .stringElided .none
  · rw [Bool.not_eq_true] at hlong
    obtain ⟨value, hvalue⟩ := (chars_iff.mpr (hkept hlong)).loads
    simp only [hvalue, hlong, Bool.false_eq_true, if_false] at haccepted ⊢
    exact haccepted .string (.str value)

/-- The state of the string that is read. -/
def stringState (p : Parser) : StringState :=
  ⟨p.escaped, p.unicodeEscapeDigits, p.stringDecoder⟩

/-- A byte that does not close the string fails, or changes the escapes and is decoded. -/
theorem feedString_cases (p : Parser) (b : UInt8)
    (hq : ¬ (p.unicodeEscapeDigits = 0 ∧ p.escaped = false ∧ b = 0x22)) :
    (p.feedString b = p.failed ∧ p.stringState.step b = none) ∨
      ∃ escaped digits,
        p.feedString b =
          decodeStringByte { p with escaped := escaped, unicodeEscapeDigits := digits } b ∧
        p.stringState.step b = StringState.decode ⟨escaped, digits, p.stringDecoder⟩ b := by
  unfold feedString StringState.step stringState
  by_cases hdig : p.unicodeEscapeDigits ≠ 0
  · simp only [if_pos hdig]
    by_cases hhex : isHexDigit b = true
    · simp only [hhex, Bool.not_true, Bool.false_eq_true, if_false, if_true]
      exact .inr ⟨p.escaped, p.unicodeEscapeDigits - 1, rfl, rfl⟩
    · simp [hhex]
  simp only [if_neg hdig]
  rw [ne_eq, Decidable.not_not] at hdig
  by_cases hesc : p.escaped = true
  · simp only [if_pos hesc]
    by_cases hescape : isEscape b = true
    · have hne : b ≠ 0x75 := (isEscape_lt hescape).2
      simp only [hescape, hne, Bool.true_or, Bool.not_true, Bool.false_eq_true, if_false, if_true]
      exact .inr ⟨false, p.unicodeEscapeDigits, rfl, rfl⟩
    · by_cases hu : b = 0x75
      · subst hu
        exact .inr ⟨false, 4, rfl, rfl⟩
      · simp [hescape, hu]
  simp only [if_neg hesc]
  rw [Bool.not_eq_true] at hesc
  by_cases hslash : b = 0x5C
  · simp only [if_pos hslash]
    exact .inr ⟨true, p.unicodeEscapeDigits, rfl, rfl⟩
  simp only [if_neg hslash]
  have hquote : b ≠ 0x22 := fun h => hq ⟨hdig, hesc, h⟩
  by_cases hlow : b < 0x20
  · simp [hquote, hlow]
  · simp only [hquote, hlow, or_self, if_false]
    exact .inr ⟨p.escaped, p.unicodeEscapeDigits, rfl, rfl⟩

theorem feedString_quote {p : Parser} (hdig : p.unicodeEscapeDigits = 0)
    (hesc : p.escaped = false) : p.feedString 0x22 = p.finishString := by
  simp [feedString, hdig, hesc]

theorem after_feedString {p : Parser} {s : StringState} {c : Config}
    (h : p.Reads ⟨.string s, c⟩) (b : UInt8) :
    (p.feedString b).After (Scan.step ⟨.string s, c⟩ b) := by
  obtain ⟨hs, hv, hc, hm, rfl, hkept⟩ := h
  simp only [Scan.step]
  by_cases hq : p.unicodeEscapeDigits = 0 ∧ p.escaped = false ∧ b = 0x22
  · obtain ⟨hdig, hesc, rfl⟩ := hq
    rw [feedString_quote hdig hesc]
    by_cases hd : p.stringDecoder = []
    · have hclean : StringState.mk p.escaped p.unicodeEscapeDigits p.stringDecoder = .clean := by
        rw [hesc, hdig, hd]
        rfl
      rw [hclean] at hkept ⊢
      exact after_finishString hs hv hc hd hkept
    · have hnot : StringState.mk p.escaped p.unicodeEscapeDigits p.stringDecoder ≠ .clean :=
        fun hend => hd (congrArg StringState.pending hend)
      have hnone : StringState.step ⟨p.escaped, p.unicodeEscapeDigits, p.stringDecoder⟩ 0x22 =
          none := by
        simp [StringState.step, hdig, hesc]
      simp only [hnot, and_false, if_false, hnone, finishString, if_pos hd]
      exact after_failed p
  · have hnot : ¬ (b = 0x22 ∧
        StringState.mk p.escaped p.unicodeEscapeDigits p.stringDecoder = .clean) := by
      rintro ⟨hb, hend⟩
      exact hq ⟨congrArg StringState.digits hend, congrArg StringState.escaped hend, hb⟩
    rw [if_neg hnot]
    rcases feedString_cases p b hq with ⟨hfeed, hstep⟩ | ⟨escaped, digits, hfeed, hstep⟩
    · rw [stringState] at hstep
      rw [hfeed, hstep]
      exact after_failed p
    · rw [hfeed]
      exact after_decodeStringByte
        (p := { p with escaped := escaped, unicodeEscapeDigits := digits }) hs hv hc hm hstep hkept

/-! ## Numbers and literals -/

theorem after_finishNumber {p : Parser} {s : NumberState} {c : Config}
    (h : p.Reads ⟨.number s, c⟩) :
    p.finishNumber.After
      (if s.final then (c.step .scalar).map fun c' => ⟨.normal, c'⟩ else none) := by
  obtain ⟨hs, hv, hc, hm, rfl, hkept⟩ := h
  have haccepted := after_accepted (p := { p with mode := .normal, number := [] }) hs hv hc rfl
  unfold finishNumber
  cases hfinal : p.numberState.final with
  | false => exact after_failed _
  | true =>
      by_cases hlong : p.numberTooLong = true
      · simp only [hlong, Bool.not_true, Bool.false_eq_true, if_false, if_true] at haccepted ⊢
        exact haccepted .scalar .none
      · rw [Bool.not_eq_true] at hlong
        obtain ⟨b, rest, first, hnumber, hfirst, hrest⟩ := hkept hlong
        have hraw : Number p.number :=
          number_iff.mpr ⟨b, rest, first, hnumber, hfirst, p.numberState, hrest, hfinal⟩
        obtain ⟨value, hvalue⟩ := hraw.loads
        simp only [hvalue, hlong, Bool.not_true, Bool.false_eq_true, if_false, if_true]
          at haccepted ⊢
        exact haccepted .scalar value

theorem after_finishLiteral {p : Parser} {bytes : List UInt8} {c : Config}
    (h : p.Reads ⟨.literal bytes, c⟩) :
    p.finishLiteral.After
      (if bytes ∈ words then (c.step .scalar).map fun c' => ⟨.normal, c'⟩ else none) := by
  obtain ⟨hs, hv, hc, hm, rfl⟩ := h
  have haccepted := after_accepted (p := { p with mode := .normal, literal := [] }) hs hv hc rfl
  unfold finishLiteral
  dsimp only
  by_cases ht : p.literal = trueBytes
  · rw [if_pos ht, if_pos (by simp [ht, words])]
    exact haccepted .scalar (.bool true)
  rw [if_neg ht]
  by_cases hf : p.literal = falseBytes
  · rw [if_pos hf, if_pos (by simp [hf, words])]
    exact haccepted .scalar (.bool false)
  rw [if_neg hf]
  by_cases hn : p.literal = nullBytes
  · rw [if_pos hn, if_pos (by simp [hn, words])]
    exact haccepted .scalar .none
  rw [if_neg hn, if_neg (by simp [words, ht, hf, hn])]
  exact after_failed _

/-- The byte after a scalar is read between two lexemes. -/
theorem after_scalar {p : Parser} {o : Option Config}
    (h : p.After (o.map fun c' => ⟨.normal, c'⟩)) (b : UInt8) :
    (if p.invalid then p else p.feedNormalByte b).After (o.bind fun c' => Scan.between c' b) := by
  cases o with
  | none =>
      have hv : p.invalid = true := h
      rw [if_pos hv]
      exact hv
  | some c' =>
      have hv : ¬ p.invalid = true := by
        rw [h.valid]
        decide
      rw [if_neg hv]
      exact after_feedNormalByte h.started h.valid h.visits h.mode b

theorem after_feedNumber {p : Parser} {s : NumberState} {c : Config}
    (h : p.Reads ⟨.number s, c⟩) (b : UInt8) :
    (p.feedStartedByte b).After (Scan.step ⟨.number s, c⟩ b) := by
  have hfinish := after_finishNumber h
  obtain ⟨hs, hv, hc, hm, rfl, hkept⟩ := h
  unfold feedStartedByte
  simp only [hv, hm, Scan.step, Bool.false_eq_true, if_false]
  by_cases hb : isNumberByte b = true
  · simp only [hb, if_true]
    cases hadv : p.numberState.advance b with
    | none => exact after_failed p
    | some next =>
        by_cases hlen : p.number.length < numberTokenBytes
        · simp only [hlen, if_true, Option.map_some]
          refine ⟨hs, hv, hc, rfl, rfl, fun hlong => ?_⟩
          obtain ⟨first, rest, start, hnumber, hstart, hrest⟩ := hkept hlong
          refine ⟨first, rest ++ [b], start, by rw [hnumber]; rfl, hstart, ?_⟩
          rw [List.foldlM_append, hrest]
          simpa using hadv
        · simp only [hlen, if_false, Option.map_some]
          exact ⟨hs, hv, hc, rfl, rfl, fun hlong => by cases hlong⟩
  · simp only [hb, Bool.false_eq_true, if_false]
    cases hfinal : p.numberState.final with
    | false =>
        rw [hfinal] at hfinish
        exact after_scalar (o := none) hfinish b
    | true =>
        rw [hfinal] at hfinish
        exact after_scalar hfinish b

theorem after_feedLiteral {p : Parser} {bytes : List UInt8} {c : Config}
    (h : p.Reads ⟨.literal bytes, c⟩) (b : UInt8) :
    (p.feedStartedByte b).After (Scan.step ⟨.literal bytes, c⟩ b) := by
  have hfinish := after_finishLiteral h
  obtain ⟨hs, hv, hc, hm, rfl⟩ := h
  unfold feedStartedByte
  simp only [hv, hm, Scan.step, Bool.false_eq_true, if_false]
  by_cases hb : isLower b = true
  · simp only [hb, if_true]
    by_cases hlen : p.literal.length < 5
    · have hlen' : p.literal.length < falseBytes.length := hlen
      simp only [hlen, hlen', if_true]
      exact ⟨hs, hv, hc, rfl, rfl⟩
    · have hlen' : ¬ p.literal.length < falseBytes.length := hlen
      simp only [hlen, hlen', if_false]
      exact after_failed p
  · simp only [hb, Bool.false_eq_true, if_false]
    by_cases hword : p.literal ∈ words
    · rw [if_pos hword] at hfinish ⊢
      exact after_scalar hfinish b
    · rw [if_neg hword] at hfinish ⊢
      exact after_scalar (o := none) hfinish b

/-- Every byte takes the parser where it takes the scanner. -/
theorem after_feedStartedByte {p : Parser} {s : Scan} (h : p.Reads s) (b : UInt8) :
    (p.feedStartedByte b).After (s.step b) := by
  obtain ⟨mode, c⟩ := s
  cases mode with
  | normal =>
      have hmode : p.mode = .normal := h.mode
      simp only [feedStartedByte, h.valid, hmode, Bool.false_eq_true, if_false]
      exact after_feedNormalByte h.started h.valid h.visits hmode b
  | string st =>
      have hmode : p.mode = .string := h.mode.1
      simp only [feedStartedByte, h.valid, hmode, Bool.false_eq_true, if_false]
      exact after_feedString h b
  | number st => exact after_feedNumber h b
  | literal bytes => exact after_feedLiteral h b

end Parser

end Avibe.Json
