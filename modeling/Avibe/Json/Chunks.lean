import Avibe.Json.Parsing
import Mathlib.Data.List.TakeWhile

/-!
# Chunks

A chunk is its bytes, one after the other: the runs of plain ASCII that are kept at once
are what the bytes would have kept. With the scanner this gives what the parser answers,
for every cut of the bytes.
-/

namespace Avibe.Json

namespace Parser

/-! ## The prefix of the text was read -/

theorem feedString_rootStarted (p : Parser) (b : UInt8) :
    (p.feedString b).rootStarted = p.rootStarted := by
  have hdecode : ∀ q : Parser, (q.decodeStringByte b).rootStarted = q.rootStarted := by
    intro q
    unfold decodeStringByte
    split
    · exact (retainStringBytes_frame _ _).2.1
    · rfl
  by_cases hq : p.unicodeEscapeDigits = 0 ∧ p.escaped = false ∧ b = 0x22
  · obtain ⟨hdig, hesc, rfl⟩ := hq
    rw [feedString_quote hdig hesc]
    unfold finishString
    dsimp only
    repeat' split
    all_goals rfl
  · rcases feedString_cases p b hq with ⟨hfeed, -⟩ | ⟨escaped, digits, hfeed, -⟩
    · rw [hfeed]
      rfl
    · rw [hfeed]
      exact hdecode _

theorem feedNormalByte_rootStarted (p : Parser) (b : UInt8) :
    (p.feedNormalByte b).rootStarted = p.rootStarted := by
  unfold feedNormalByte
  repeat' split
  all_goals rfl

theorem finishNumber_rootStarted (p : Parser) : p.finishNumber.rootStarted = p.rootStarted := by
  unfold finishNumber
  dsimp only
  repeat' split
  all_goals rfl

theorem finishLiteral_rootStarted (p : Parser) : p.finishLiteral.rootStarted = p.rootStarted := by
  unfold finishLiteral
  dsimp only
  repeat' split
  all_goals rfl

theorem feedStartedByte_rootStarted (p : Parser) (b : UInt8) :
    (p.feedStartedByte b).rootStarted = p.rootStarted := by
  have hnext : ∀ q : Parser, q.rootStarted = p.rootStarted →
      (if q.invalid then q else q.feedNormalByte b).rootStarted = p.rootStarted := by
    intro q hq
    split
    · exact hq
    · exact (feedNormalByte_rootStarted q b).trans hq
  unfold feedStartedByte
  split
  · rfl
  · split
    · exact feedString_rootStarted p b
    · split
      · split
        · rfl
        · dsimp only
          split <;> rfl
      · exact hnext _ (finishNumber_rootStarted p)
    · split
      · split <;> rfl
      · exact hnext _ (finishLiteral_rootStarted p)
    · exact feedNormalByte_rootStarted p b

/-- Behind the byte order mark every byte is a started byte. -/
theorem feedByte_started {p : Parser} (h : p.rootStarted = true) (b : UInt8) :
    p.feedByte b = p.feedStartedByte b := by
  unfold feedByte
  split
  · rename_i hv
    rw [feedStartedByte, if_pos hv]
  · simp [h]

theorem foldl_feedByte_started {p : Parser} (h : p.rootStarted = true) (bytes : List UInt8) :
    bytes.foldl feedByte p = bytes.foldl feedStartedByte p := by
  induction bytes generalizing p with
  | nil => rfl
  | cons b bytes ih =>
      rw [List.foldl_cons, List.foldl_cons, feedByte_started h]
      exact ih ((feedStartedByte_rootStarted p b).trans h)

theorem foldl_feedByte_invalid {p : Parser} (h : p.invalid = true) (bytes : List UInt8) :
    bytes.foldl feedByte p = p := by
  induction bytes with
  | nil => rfl
  | cons b bytes ih =>
      have hb : p.feedByte b = p := if_pos h
      rw [List.foldl_cons, hb, ih]

/-! ## A run of plain bytes -/

theorem retainStringBytes_append (p : Parser) (b : UInt8) (run : List UInt8) :
    (p.retainStringBytes [b]).retainStringBytes run = p.retainStringBytes (b :: run) := by
  unfold retainStringBytes
  by_cases hl : p.stringLossless = true
  · simp [hl]
  · rcases hr : stringTokenBytes - p.string.length with _ | r
    · simp [hl, hr]
    · have hnext : stringTokenBytes - (p.string.length + 1) = r := by omega
      simp [hl, hnext]

/-- The parser is inside a string and between two characters. -/
structure InString (p : Parser) : Prop where
  started : p.rootStarted = true
  valid : p.invalid = false
  mode : p.mode = .string
  escaped : p.escaped = false
  digits : p.unicodeEscapeDigits = 0
  decoder : p.stringDecoder = []

theorem feedByte_string {p : Parser} (hs : p.rootStarted = true) (hv : p.invalid = false)
    (hm : p.mode = .string) (b : UInt8) : p.feedByte b = p.feedString b := by
  rw [feedByte_started hs]
  simp [feedStartedByte, hv, hm]

theorem InString.retain {p : Parser} (h : p.InString) (payload : List UInt8) :
    (p.retainStringBytes payload).InString := by
  obtain ⟨hvis, hstart, hmode, hesc, hdig, hdec⟩ := retainStringBytes_frame p payload
  refine ⟨hstart.trans h.started, ?_, hmode.trans h.mode, hesc.trans h.escaped, hdig.trans h.digits,
    hdec.trans h.decoder⟩
  rw [hvis]
  exact h.valid

theorem InString.feedByte_plain {p : Parser} (h : p.InString) {b : UInt8}
    (hb : isStringSpecial b = false) : p.feedByte b = p.retainStringBytes [b] := by
  simp only [isStringSpecial, Bool.or_eq_false_iff, decide_eq_false_iff_not] at hb
  obtain ⟨⟨⟨hquote, hslash⟩, hlow⟩, hhigh⟩ := hb
  have hfeed : Utf8.feed [] b = some [] := Utf8.feed_nil_ascii (UInt8.not_le.mp hhigh)
  have hstring : p.feedString b = p.decodeStringByte b := by
    simp [feedString, h.digits, h.escaped, hslash, hquote, hlow]
  have hsame : { p with stringDecoder := [] } = p := by rw [← h.decoder]
  rw [feedByte_string h.started h.valid h.mode, hstring, decodeStringByte, h.decoder, hfeed]
  simp only [hsame]

theorem InString.foldl_plain {p : Parser} (h : p.InString) {run : List UInt8}
    (hrun : ∀ b ∈ run, isStringSpecial b = false) :
    run.foldl feedByte p = if run ≠ [] then p.retainStringBytes run else p := by
  induction run generalizing p with
  | nil => rfl
  | cons b run ih =>
      obtain ⟨hb, hrun⟩ := List.forall_mem_cons.mp hrun
      have hcons : b :: run ≠ [] := List.cons_ne_nil b run
      rw [List.foldl_cons, h.feedByte_plain hb, ih (h.retain [b]) hrun, if_pos hcons]
      cases run with
      | nil => rfl
      | cons c run => exact retainStringBytes_append p b (c :: run)

theorem takeWhile_plain (chunk : List UInt8) :
    ∀ b ∈ chunk.takeWhile fun b => !isStringSpecial b, isStringSpecial b = false := by
  intro b hb
  have := List.mem_takeWhile_imp hb
  simpa using this

/-- `_feed_string_chunk` reads what the bytes would. -/
theorem foldl_feedStringChunk (p : Parser) (chunk : List UInt8) (hs : p.rootStarted = true) :
    (p.feedStringChunk chunk).2.foldl feedByte (p.feedStringChunk chunk).1 =
      chunk.foldl feedByte p := by
  induction p, chunk using feedStringChunk.induct with
  | case1 p => simp [feedStringChunk]
  | case2 p byte rest h => rw [feedStringChunk, if_pos h]
  | case3 p byte rest h h' ih =>
      simp only [not_or, ne_eq, Decidable.not_not, Bool.not_eq_true] at h
      rw [feedStringChunk, if_neg (by simp [h]), if_pos h', List.foldl_cons,
        feedByte_string hs h.2 h.1]
      exact ih ((feedString_rootStarted p byte).trans hs)
  | case4 p byte rest h h' hnil =>
      simp only [not_or, ne_eq, Decidable.not_not, Bool.not_eq_true] at h h'
      have hin : p.InString := ⟨hs, h.2, h.1, h'.1, h'.2.1, h'.2.2⟩
      have hrun := hin.foldl_plain (takeWhile_plain (byte :: rest))
      have hall : (byte :: rest).takeWhile (fun b => !isStringSpecial b) = byte :: rest := by
        have := List.takeWhile_append_dropWhile (p := fun b => !isStringSpecial b)
          (l := byte :: rest)
        rwa [hnil, List.append_nil] at this
      rw [feedStringChunk, if_neg (by simp [h]), if_neg (by simp [h'])]
      split
      · rw [hall] at hrun ⊢
        rw [hrun]
        rfl
      · rename_i hcons
        cases hnil.symm.trans hcons
  | case5 p byte rest h h' run p' special rest' hcons ih =>
      simp only [not_or, ne_eq, Decidable.not_not, Bool.not_eq_true] at h h'
      have hin : p.InString := ⟨hs, h.2, h.1, h'.1, h'.2.1, h'.2.2⟩
      have hrun : run.foldl feedByte p = p' := hin.foldl_plain (takeWhile_plain (byte :: rest))
      have hin' : p'.InString := by
        unfold p'
        split
        · exact hin.retain run
        · exact hin
      have hall : byte :: rest = run ++ special :: rest' := by
        rw [← hcons]
        exact List.takeWhile_append_dropWhile.symm
      have hrest := ih ((feedString_rootStarted p' special).trans hin'.started)
      rw [feedStringChunk, if_neg (by simp [h]), if_neg (by simp [h'])]
      split
      · rename_i hnil
        cases hnil.symm.trans hcons
      · rename_i hcons'
        cases hcons.symm.trans hcons'
        have hbytes : (byte :: rest).foldl feedByte p =
            rest'.foldl feedByte (p'.feedString special) := by
          rw [hall, List.foldl_append, hrun, List.foldl_cons,
            feedByte_string hin'.started hin'.valid hin'.mode]
        exact hrest.trans hbytes.symm

/-- A chunk is read byte by byte. -/
theorem feed_eq_foldl (p : Parser) (chunk : List UInt8) : p.feed chunk = chunk.foldl feedByte p := by
  induction p, chunk using feed.induct with
  | case1 p => simp [feed]
  | case2 p byte rest hv =>
      rw [feed, dif_pos hv, foldl_feedByte_invalid hv]
  | case3 p byte rest hv hs ih =>
      rw [feed, dif_neg hv, if_pos hs, ih]
      rfl
  | case4 p byte rest hv hs hm ih =>
      rw [feed, dif_neg hv, if_neg hs, dif_pos hm, ih]
      exact foldl_feedStringChunk p (byte :: rest) (by simpa using hs)
  | case5 p byte rest hv hs hm ih =>
      rw [feed, dif_neg hv, if_neg hs, dif_neg hm, ih, List.foldl_cons,
        feedByte_started (by simpa using hs)]

/-- The chunks are read as their bytes. -/
theorem feedAll_eq_foldl (p : Parser) (chunks : List (List UInt8)) :
    p.feedAll chunks = chunks.flatten.foldl feedByte p := by
  induction chunks generalizing p with
  | nil => rfl
  | cons chunk chunks ih =>
      rw [List.flatten_cons, List.foldl_append]
      exact (ih (p.feed chunk)).trans (by rw [feed_eq_foldl])

end Parser

end Avibe.Json
