import Avibe.Sse.Chunking

/-!
# Chunking and the line limit

A stream is read the same under every chunking exactly when it is over a size
limit in itself or none of its lines stands at the line limit before a carriage
return. One direction is `run_agrees`. For the other the stream is fed byte by
byte: then a carriage return is always the last character of its chunk, so the
parser counts it before it can know that it ends the line.
-/

namespace Avibe.Sse

section Rules

variable (R : Rules)

theorem crAtLimit_eq_false (f : Fields) {ls : List (Text × LineEnd)}
    (h : ∀ l ∈ ls, l.2 = .lf ∨ l.1.length < R.maxLineSize) : crAtLimit R f ls = false := by
  induction ls generalizing f with
  | nil => rfl
  | cons l ls ih =>
      have hl := h l (by simp)
      have hrest : ∀ f, crAtLimit R f ls = false :=
        fun f => ih f fun l' h' => h l' (by simp [h'])
      simp only [crAtLimit, Bool.or_eq_false_iff, Bool.and_eq_false_iff]
      constructor
      · rcases hl with hl | hl
        · exact .inr (by simp [hl])
        · exact .inl (by simp; omega)
      · cases applyLine R f l.1 <;> simp [hrest]

/-- Every line of a text whose only line end is its last character ends in a
line feed. -/
theorem splitLines_concat_lf {s : Text} (hs : ∀ c ∈ s, isLineEnd c = false) (c : Char) :
    ∀ l ∈ (splitLines false (s ++ [c])).1, l.2 = .lf := by
  by_cases hc : isLineEnd c = true
  · by_cases hlf : c = '\n'
    · subst hlf
      rw [splitLines_line false hs _ (splitLines_lf false [])]
      simp
    · have hcr : c = '\r' := by simpa [isLineEnd, hlf] using hc
      subst hcr
      have h := stuck_cr hs
      rw [Stuck] at h
      simp [h]
  · have hno : ∀ d ∈ s ++ [c], isLineEnd d = false := by
      intro d hd
      rcases List.mem_append.mp hd with hd | hd
      · exact hs d hd
      · simpa [List.mem_singleton.mp hd] using hc
    simp [splitLines_of_no_end false hno]

/-- A text that has a line end at most as its last character. -/
def EndsAtMost (t : Text) : Prop :=
  t = [] ∨ ∃ s c, t = s ++ [c] ∧ ∀ d ∈ s, isLineEnd d = false

theorem EndsAtMost.lf {t : Text} (h : EndsAtMost t) :
    ∀ l ∈ (splitLines false t).1, l.2 = .lf := by
  rcases h with rfl | ⟨s, c, rfl, hs⟩
  · simp
  · exact splitLines_concat_lf hs c

theorem EndsAtMost.append {s t : Text} (hs : ∀ c ∈ s, isLineEnd c = false)
    (h : EndsAtMost t) : ∀ l ∈ (splitLines false (s ++ t)).1, l.2 = .lf := by
  rcases h with rfl | ⟨s', c, rfl, hs'⟩
  · simp [splitLines_of_no_end false hs]
  · rw [← List.append_assoc]
    refine splitLines_concat_lf ?_ c
    intro d hd
    exact (List.mem_append.mp hd).elim (hs d) (hs' d)

/-- The lines that such a text completes in a settled buffer: a line before a
carriage return has waited there, and so it is below the limit. -/
theorem splitLines_settled {buffer t : Text} (hb : Stuck buffer)
    (hsmall : buffer.length ≤ R.maxLineSize) (ht : EndsAtMost t) :
    ∀ l ∈ (splitLines false (buffer ++ t)).1,
      l.2 = .lf ∨ l.1.length < R.maxLineSize := by
  rcases (stuck_iff buffer).mp hb with hno | ⟨line, hline, rfl⟩
  · exact fun l hl => .inl (ht.append hno l hl)
  · simp only [List.length_append, List.length_singleton] at hsmall
    cases t with
    | nil =>
        rw [List.append_nil]
        have h := stuck_cr hline
        rw [Stuck] at h
        simp [h]
    | cons d t =>
        rw [List.append_assoc, List.singleton_append]
        by_cases hd : d = '\n'
        · subst hd
          have htnil : t = [] := by
            rcases ht with h | ⟨s, c, h, hs⟩
            · simp at h
            · cases s with
              | nil => simpa using congrArg List.tail h
              | cons e s =>
                  have he := hs e (by simp)
                  obtain rfl : '\n' = e := by simpa using congrArg List.head? h
                  simp [isLineEnd] at he
          subst htnil
          rw [splitLines_line false hline _ (splitLines_crlf false [])]
          simp only [splitLines_nil, List.mem_singleton]
          rintro l rfl
          exact .inr (by simp only; omega)
        · rw [splitLines_line false hline _ (splitLines_cr false hd t)]
          intro l hl
          rcases List.mem_cons.mp hl with rfl | hl
          · exact .inr (by simp only; omega)
          · exact .inl (ht.lf l hl)

/-- One byte decodes to a text that has a line end at most as its last
character. -/
theorem decodeChunk_endsAtMost {p : SSEParser} (hp : Settled R p) (b : UInt8) :
    EndsAtMost (decodeChunk p (.bytes [b])).2 := by
  have hraw : EndsAtMost (Utf8.decode false (p.undecoded ++ [b])).1 := by
    rcases hp.cut.decode_concat b with h | ⟨s, c, h, hs⟩
    · exact .inl h
    · refine .inr ⟨s, c, h, ?_⟩
      intro d hd
      rw [hs d hd]
      decide
  unfold decodeChunk decodeRaw
  dsimp only
  split
  · rcases hraw with h | ⟨s, c, h, hs⟩
    · exact .inl (by simp [h, stripBom])
    · rw [h, stripBom]
      split
      · cases s with
        | nil => exact .inl (by simp)
        | cons d s => exact .inr ⟨s, c, by simp, fun e he => hs e (by simp [he])⟩
      · exact .inr ⟨s, c, rfl, hs⟩
  · exact hraw

/-- A settled parser at the end of its input has no line at the limit. -/
theorem crAtLimit_remaining_nil {p : SSEParser} (hp : Settled R p) (f : Fields) :
    crAtLimit R f (splitLines true (remaining p [])).1 = false := by
  refine crAtLimit_eq_false R f ?_
  rw [remaining_nil R hp]
  have hsmall := hp.small
  have htail : ∀ c ∈ (Utf8.decode true p.undecoded).1, isLineEnd c = false := by
    rcases hp.cut.decode_true with h | h
    · simp [h]
    · rw [h]
      intro c hc
      rw [List.mem_singleton.mp hc]
      decide
  rcases (stuck_iff p.buffer).mp hp.stuck with hno | ⟨line, hline, hbuf⟩
  · have h : ∀ c ∈ p.buffer ++ (Utf8.decode true p.undecoded).1, isLineEnd c = false :=
      fun c hc => (List.mem_append.mp hc).elim (hno c) (htail c)
    simp [splitLines_of_no_end true h]
  · rw [hbuf, List.append_assoc, List.singleton_append]
    rw [hbuf] at hsmall
    simp only [List.length_append, List.length_singleton] at hsmall
    rcases hp.cut.decode_true with h | h
    · rw [h, splitLines_line true hline _ (r := ([], [])) (splitLines_cr_end true)]
      simp only [List.mem_singleton]
      rintro l rfl
      exact .inr (by simp only; omega)
    · rw [h, splitLines_line true hline _ (splitLines_cr true (by decide) [])]
      have hrep : splitLines true [Utf8.replacement] = ([], [Utf8.replacement]) := by decide
      rw [hrep]
      simp only [List.mem_singleton]
      rintro l rfl
      exact .inr (by simp only; omega)

/-- Fed byte by byte, the parser rejects a line at the limit before a carriage
return. -/
theorem run_bytes {p : SSEParser} (hp : Settled R p) (bytes : List UInt8)
    (hlimit : crAtLimit R p.fields (splitLines true (remaining p bytes)).1 = true) :
    run R p (bytes.map fun b => [b]) = .error .pendingLine := by
  induction bytes generalizing p with
  | nil => simp [crAtLimit_remaining_nil R hp] at hlimit
  | cons b bytes ih =>
      have hfeed := feed_eq R hp (.bytes [b])
      have hno := crAtLimit_eq_false R p.fields
        (splitLines_settled R hp.stuck hp.small (decodeChunk_endsAtMost R hp b))
      rw [List.map_cons, run_cons]
      rw [← List.singleton_append] at hlimit
      cases ha : applyLines R p.fields
          (splitLines false (p.buffer ++ (decodeChunk p (.bytes [b])).2)).1 with
      | error e =>
          obtain ⟨y, hy, -⟩ :=
            remaining_append p [b] bytes (decodeChunk p (.bytes [b])).1 rfl rfl
          rw [hy, splitLines_append, after, crAtLimit_append, hno, ha] at hlimit
          simp at hlimit
      | ok r =>
          rw [ha] at hfeed
          simp only at hfeed
          split at hfeed
          · rw [hfeed]
            rfl
          · obtain ⟨p', hok, hp', hf, hbuf, hu, hs⟩ := hfeed
            obtain ⟨y, hy, hy'⟩ := remaining_append p [b] bytes p' hu hs
            rw [hy, splitLines_append, after, crAtLimit_append, hno, ha] at hlimit
            simp only [Bool.false_or] at hlimit
            have h := ih hp' (by rw [hy', hbuf, hf]; exact hlimit)
            rw [hok]
            simp [Except.bind, h, Except.map]

theorem parseSse_eq_run (chunks : List (List UInt8)) :
    parseSse R (chunks.map .bytes) = (run R SSEParser.init chunks).map observe := by
  simp only [parseSse, run, bind, Except.bind, pure, Except.pure]
  cases feedAll R SSEParser.init (chunks.map .bytes) with
  | error e => rfl
  | ok r =>
      simp only
      cases finish R r.1 <;> rfl

theorem remaining_init (bytes : List UInt8) :
    remaining SSEParser.init bytes = stripBom (Utf8.decode true bytes).1 := rfl

theorem SameOutcome.refl {α : Type} (x : Except SSEError α) : SameOutcome x x := by
  cases x <;> rfl

/-- The stream is over a size limit in itself, or no line of it stands at the
line limit before a carriage return. -/
def LimitClear (bytes : List UInt8) : Prop :=
  rejected (reference R bytes) = true ∨
    crAtLimit R Fields.init (splitLines true (stripBom (Utf8.decode true bytes).1)).1 = false

instance (bytes : List UInt8) : Decidable (LimitClear R bytes) :=
  inferInstanceAs (Decidable (_ ∨ _))

/-- A stream is read as the reference reads it, under every chunking, exactly
when it is clear of the line limit. -/
theorem parseSse_chunking (bytes : List UInt8) :
    (∀ chunks : List (List UInt8), chunks.flatten = bytes →
      SameOutcome (parseSse R (chunks.map .bytes)) (reference R bytes)) ↔
      LimitClear R bytes := by
  constructor
  · intro h
    by_contra hclear
    simp only [LimitClear, not_or, Bool.not_eq_true, Bool.not_eq_false] at hclear
    obtain ⟨hrej, hlimit⟩ := hclear
    have hrun := run_bytes R (settled_init R) bytes hlimit
    have hsame := h (bytes.map fun b => [b]) (by
      rw [← List.flatMap_def, List.flatMap_singleton'])
    rw [parseSse_eq_run, hrun] at hsame
    cases href : reference R bytes with
    | ok r => simp [href, SameOutcome, Except.map] at hsame
    | error e =>
        rw [href] at hsame hrej
        exact absurd (hsame.trans hrej) (by decide)
  · rintro hclear chunks rfl
    rw [parseSse_eq_run]
    rcases run_agrees R (settled_init R) chunks with h | ⟨h, hor⟩
    · rw [h, remaining_init]
      exact SameOutcome.refl _
    · have hrej : rejected (reference R chunks.flatten) = true := by
        rcases hclear with hrej | hfree
        · exact hrej
        · rcases hor with hrej | hlimit
          · rw [reference, rejected_map]
            exact hrej
          · rw [remaining_init] at hlimit
            simp [SSEParser.init, hfree] at hlimit
      rw [h]
      cases href : reference R chunks.flatten with
      | ok r => simp [href, rejected] at hrej
      | error e =>
          rw [href] at hrej
          exact hrej.symm

end Rules

/-- Limits of six characters for a line and for an event. -/
def sixCharacters : Rules where
  maxLineSize := 6
  maxEventSize := 6
  maxLineSize_pos := by decide
  maxEventSize_pos := by decide
  isDigit t := t ≠ [] ∧ t.all Char.isDigit
  int t := some (t.foldl (fun n c => n * 10 + (c.toNat - 48)) 0)

/-- The stream `data:x\r\n\r\n`. -/
def dataAtLimit : List UInt8 := [100, 97, 116, 97, 58, 120, 13, 10, 13, 10]

/-- In one chunk the stream is read, cut after its first carriage return it is
rejected. -/
theorem parseSse_cut_after_cr :
    ¬ ∀ (R : Rules) (bytes : List UInt8) (chunks : List (List UInt8)),
      chunks.flatten = bytes →
        SameOutcome (parseSse R (chunks.map .bytes)) (reference R bytes) := by
  intro h
  have hcut := h sixCharacters dataAtLimit [dataAtLimit.take 7, dataAtLimit.drop 7] rfl
  have hrun : parseSse sixCharacters
      ([dataAtLimit.take 7, dataAtLimit.drop 7].map .bytes) = .error .pendingLine := by
    decide
  have href : reference sixCharacters dataAtLimit =
      .ok ([⟨['x'], none, none, none⟩], none, none) := by
    decide
  rw [hrun, href] at hcut
  exact hcut

end Avibe.Sse
