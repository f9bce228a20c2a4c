import Avibe.Sse.Lines

/-!
# Chunking of an event stream

`reference` decodes the whole stream, cuts it into lines and applies them one
after the other. A parser that has been fed some chunks is compared with the
reference on the text that is still to come: `remaining` is its buffer followed
by the decoding of the bytes to come.

The two differ in one place. A carriage return at the end of a chunk waits in
the buffer and is counted by `checkPendingLineSize`, although it is no part of
its line. A line of exactly `maxLineSize` characters is then rejected, or not,
depending on where the chunk ends.
-/

namespace Avibe.Sse

section Rules

variable (R : Rules)

/-- The reference on a text, from a pending event. -/
def referenceText (f : Fields) (t : Text) : Except SSEError (Fields × List SSEEvent) := do
  let (f, events) ← applyLines R f (splitLines true t).1
  let rest := (splitLines true t).2
  let f ←
    if rest = [] then pure f
    else do
      checkLineSize R rest
      parseLine R f rest
  let (f, event) := dispatch f
  return (f, events ++ event.toList)

/-- What a caller observes of the final state. -/
def observe (r : Fields × List SSEEvent) : List SSEEvent × Option Text × Option Nat :=
  (r.2, r.1.eventId, r.1.retry)

/-- The whole stream, decoded, cut into lines and read line by line. -/
def reference (bytes : List UInt8) :
    Except SSEError (List SSEEvent × Option Text × Option Nat) :=
  (referenceText R Fields.init (stripBom (Utf8.decode true bytes).1)).map observe

/-- Two readings of a stream agree: the same events, event id and retry value,
or both rejected for a size limit, or neither. -/
def SameOutcome {α : Type} : Except SSEError α → Except SSEError α → Prop
  | .ok x, .ok y => x = y
  | .error e, .error e' => e.isLimit = e'.isLimit
  | _, _ => False

/-- A reading rejects the stream for a size limit. -/
def rejected {α : Type} : Except SSEError α → Bool
  | .error e => e.isLimit
  | .ok _ => false

/-- One of the lines that are read, up to the first that raises, ends in a
carriage return and has exactly the largest allowed size. -/
def crAtLimit : Fields → List (Text × LineEnd) → Bool
  | _, [] => false
  | f, (line, ending) :: lines =>
      (line.length = R.maxLineSize && ending ≠ .lf) ||
        match applyLine R f line with
        | .ok (f', _) => crAtLimit f' lines
        | .error _ => false

/-! ## The parser between two chunks -/

/-- A parser between two chunks: it has cut off every complete line. -/
structure Settled (p : SSEParser) : Prop where
  ready : Ready p
  start : p.lineStart = 0
  stuck : Stuck p.buffer
  small : p.buffer.length ≤ R.maxLineSize
  cut : Utf8.Cut p.undecoded

theorem settled_init : Settled R SSEParser.init :=
  ⟨⟨Nat.le_refl _, Nat.le_refl _, by simp [SSEParser.init]⟩, rfl, stuck_nil, by
    simp [SSEParser.init], Utf8.cut_nil⟩

/-- More text at the end of the buffer keeps the positions right. -/
theorem Settled.append {p : SSEParser} (hp : Settled R p) (t : Text)
    (u : List UInt8) (s : Bool) :
    Ready { p with buffer := p.buffer ++ t, undecoded := u, atStreamStart := s } := by
  refine ⟨hp.ready.start_le, ?_, ?_⟩
  · have := hp.ready.scan_le
    simp only [List.length_append]
    omega
  · simpa only [List.take_append_of_le_length hp.ready.scan_le] using hp.ready.scanned

theorem compactBuffer_eq {p : SSEParser} (hp : Ready p) :
    Ready (compactBuffer p) ∧ (compactBuffer p).lineStart = 0 ∧
      (compactBuffer p).buffer = p.pending ∧ (compactBuffer p).fields = p.fields ∧
      (compactBuffer p).undecoded = p.undecoded ∧
      (compactBuffer p).atStreamStart = p.atStreamStart := by
  unfold compactBuffer
  split
  · exact ⟨⟨Nat.le_refl _, by simp, by simp⟩, rfl, rfl, rfl, rfl, rfl⟩
  · rename_i h
    have h0 : p.lineStart = 0 := by simpa using h
    exact ⟨hp, h0, by simp [SSEParser.pending, h0], rfl, rfl, rfl⟩

theorem splitLines_snd_stuck (t : Text) : Stuck (splitLines false t).2 := by
  have h := splitLines_append false t []
  have hl := congrArg (fun r => r.1.length) h
  have h2 := congrArg Prod.snd h
  simp only [List.append_nil, after, List.length_append] at hl h2
  have h1 : (splitLines false (splitLines false t).2).1 = [] :=
    List.eq_nil_of_length_eq_zero (by omega)
  exact Prod.ext h1 h2.symm

/-- Decoding changes the decoder state only. -/
theorem decodeChunk_fst (p : SSEParser) (chunk : Chunk) :
    (decodeChunk p chunk).1 =
      { p with
        undecoded := (decodeChunk p chunk).1.undecoded
        atStreamStart := (decodeChunk p chunk).1.atStreamStart } := by
  unfold decodeChunk
  dsimp only
  split <;> rfl

theorem decodeChunk_cut (p : SSEParser) (chunk : Chunk) :
    Utf8.Cut (decodeChunk p chunk).1.undecoded := by
  have h : Utf8.Cut (decodeRaw p.undecoded chunk).1 := by
    cases chunk with
    | bytes b => exact Utf8.decode_snd_cut _
    | text t =>
        simp only [decodeRaw]
        split <;> exact Utf8.cut_nil
  unfold decodeChunk
  dsimp only
  split <;> exact h

/-- `feed` applies the lines that the chunk completes and keeps the rest, or
raises when the rest is too long. -/
theorem feed_eq {p : SSEParser} (hp : Settled R p) (chunk : Chunk) :
    match applyLines R p.fields
      (splitLines false (p.buffer ++ (decodeChunk p chunk).2)).1 with
    | .error e => feed R p chunk = .error e
    | .ok (f, events) =>
        if (splitLines false (p.buffer ++ (decodeChunk p chunk).2)).2.length >
            R.maxLineSize then
          feed R p chunk = .error .pendingLine
        else ∃ p', feed R p chunk = .ok (p', events) ∧ Settled R p' ∧ p'.fields = f ∧
          p'.buffer = (splitLines false (p.buffer ++ (decodeChunk p chunk).2)).2 ∧
          p'.undecoded = (decodeChunk p chunk).1.undecoded ∧
          p'.atStreamStart = (decodeChunk p chunk).1.atStreamStart := by
  have hfst := decodeChunk_fst p chunk
  have hcut := decodeChunk_cut p chunk
  cases hd : decodeChunk p chunk with
  | mk p₁ text =>
      rw [hd] at hfst hcut
      simp only at hfst hcut ⊢
      unfold feed
      rw [hd]
      by_cases ht : text = []
      · subst ht
        have hstuck := hp.stuck
        rw [Stuck] at hstuck
        rw [List.append_nil, hstuck]
        have hsmall : ¬ p.buffer.length > R.maxLineSize := by
          have := hp.small
          omega
        simp only [applyLines, hsmall, if_false]
        refine ⟨p₁, by simp [pure, Except.pure], ?_, ?_, ?_, rfl, rfl⟩
        · rw [hfst]
          exact ⟨⟨hp.ready.1, hp.ready.2, hp.ready.3⟩, hp.start, hp.stuck, hp.small, hcut⟩
        · rw [hfst]
        · rw [hfst]
      · have hready : Ready { p₁ with buffer := p₁.buffer ++ text } := by
          rw [hfst]
          exact hp.append R text _ _
        have hpend : ({ p₁ with buffer := p₁.buffer ++ text } : SSEParser).pending =
            p.buffer ++ text := by
          rw [hfst]
          simp [SSEParser.pending, hp.start]
        have hfields : p₁.fields = p.fields := by rw [hfst]
        have hdrain := drain_eq R hready ((p₁.buffer ++ text).length + 1) (by
          simp only [SSEParser.pending, List.length_drop]
          omega)
        rw [hpend] at hdrain
        simp only [hfields] at hdrain
        simp only [ht, if_false, bind, Except.bind, hfields]
        cases ha : applyLines R p.fields (splitLines false (p.buffer ++ text)).1 with
        | error e =>
            rw [ha] at hdrain
            simp only at hdrain ⊢
            rw [hdrain]
        | ok r =>
            rw [ha] at hdrain
            obtain ⟨p₂, hok, hr₂, hsame, hf₂, hpe₂⟩ := hdrain
            obtain ⟨hcr, hcs, hcb, hcf, hcu, hca⟩ := compactBuffer_eq hr₂
            simp only
            rw [hok]
            simp only [checkPendingLineSize, hcb, hcs, hpe₂, Nat.sub_zero]
            split
            · rfl
            · rename_i hsmall
              refine ⟨compactBuffer p₂, rfl, ⟨hcr, hcs, ?_, ?_, ?_⟩, hcf.trans hf₂,
                hcb.trans hpe₂, hcu.trans hsame.2.1, hca.trans hsame.2.2⟩
              · rw [hcb, hpe₂]
                exact splitLines_snd_stuck _
              · rw [hcb, hpe₂]
                omega
              · rw [hcu.trans hsame.2.1]
                exact hcut

/-! ## The text to come -/

/-- The text a parser has not read yet, when `bytes` are still to come. -/
def remaining (p : SSEParser) (bytes : List UInt8) : Text :=
  let t := (Utf8.decode true (p.undecoded ++ bytes)).1
  p.buffer ++ if p.atStreamStart then stripBom t else t

theorem stripBom_append {a : Text} (ha : a ≠ []) (b : Text) :
    stripBom (a ++ b) = stripBom a ++ b := by
  cases a with
  | nil => exact absurd rfl ha
  | cons c a =>
      by_cases hc : c = '\uFEFF'
      · simp [stripBom, hc]
      · simp [stripBom, hc]

/-- A chunk moves its text from the bytes to come to the decoded text. -/
theorem remaining_append (p : SSEParser) (b rest : List UInt8) (p' : SSEParser)
    (hu : p'.undecoded = (decodeChunk p (.bytes b)).1.undecoded)
    (hs : p'.atStreamStart = (decodeChunk p (.bytes b)).1.atStreamStart) :
    ∃ y, remaining p (b ++ rest) = p.buffer ++ (decodeChunk p (.bytes b)).2 ++ y ∧
      remaining p' rest = p'.buffer ++ y := by
  refine ⟨_, ?_, rfl⟩
  have happ := Utf8.decode_append true (p.undecoded ++ b) rest
  rw [List.append_assoc] at happ
  rw [hu, hs, remaining, happ, List.append_assoc]
  unfold decodeChunk decodeRaw
  simp only
  cases p.atStreamStart with
  | false => simp
  | true =>
      by_cases ht : (Utf8.decode false (p.undecoded ++ b)).1 = []
      · simp [ht]
      · simp [ht, stripBom_append ht]

theorem referenceText_append (f : Fields) (x y : Text) :
    referenceText R f (x ++ y) =
      (applyLines R f (splitLines false x).1).bind fun r =>
        (referenceText R r.1 ((splitLines false x).2 ++ y)).map fun r' =>
          (r'.1, r.2 ++ r'.2) := by
  unfold referenceText
  rw [splitLines_append true x y]
  simp only [after, applyLines_append, bind, Except.bind, pure, Except.pure]
  cases applyLines R f (splitLines false x).1 with
  | error e => rfl
  | ok r =>
      simp only [Except.map]
      cases applyLines R r.1 (splitLines true ((splitLines false x).2 ++ y)).1 with
      | error e => rfl
      | ok r₁ =>
          by_cases hrest : (splitLines true ((splitLines false x).2 ++ y)).2 = []
          · simp [hrest]
          · simp only [hrest, if_false]
            cases checkLineSize R (splitLines true ((splitLines false x).2 ++ y)).2 with
            | error e => rfl
            | ok _ =>
                simp only
                cases parseLine R r₁.1 (splitLines true ((splitLines false x).2 ++ y)).2 with
                | error e => rfl
                | ok f' => simp

/-! ## Too long a pending line -/

theorem applyLine_too_long (f : Fields) {line : Text} (h : line.length > R.maxLineSize) :
    applyLine R f line = .error .pendingLine := by
  have hne : line ≠ [] := by
    rintro rfl
    simp at h
  simp [applyLine, hne, checkLineSize, h, bind, Except.bind]

/-- A first line that is too long rejects the stream. -/
theorem rejected_of_first {f : Fields} {t line : Text} {e : LineEnd}
    {ls : List (Text × LineEnd)} (hs : (splitLines true t).1 = (line, e) :: ls)
    (h : line.length > R.maxLineSize) : rejected (referenceText R f t) = true := by
  simp [referenceText, hs, applyLines, applyLine_too_long R f h, bind, Except.bind,
    rejected, SSEError.isLimit]

/-- Where the parser gives up on a pending line, the reference rejects the
stream too, unless the line is at the limit and the carriage return too many. -/
theorem rejected_or_crAtLimit (f : Fields) {r : Text} (hr : Stuck r)
    (hlen : r.length > R.maxLineSize) (y : Text) :
    rejected (referenceText R f (r ++ y)) = true ∨
      crAtLimit R f (splitLines true (r ++ y)).1 = true := by
  rcases (stuck_iff r).mp hr with hno | ⟨line, hline, rfl⟩
  · left
    have hs := splitLines_no_end_append true hno y
    cases hy : splitLines true y with
    | mk ls rest =>
        rw [hy] at hs
        cases ls with
        | nil =>
            have hlong : R.maxLineSize < r.length + rest.length := by omega
            have hne : r ++ rest ≠ [] := by
              intro h
              have := congrArg List.length h
              simp only [List.length_append, List.length_nil] at this
              omega
            simp [referenceText, hs, applyLines, bind, Except.bind, hne, checkLineSize, hlong,
              rejected, SSEError.isLimit]
        | cons l ls =>
            refine rejected_of_first R (congrArg Prod.fst hs) ?_
            simp only [List.length_append]
            omega
  · obtain ⟨e, rest, he, hs⟩ := splitLines_line_cr hline y
    rw [List.append_assoc, List.singleton_append]
    simp only [List.length_append, List.length_singleton] at hlen
    by_cases hmax : line.length = R.maxLineSize
    · right
      simp [hs, crAtLimit, hmax, he]
    · left
      exact rejected_of_first R (congrArg Prod.fst hs) (by omega)

/-! ## Every chunking against the reference -/

/-- Feed byte chunks and finish. -/
def run (p : SSEParser) (chunks : List (List UInt8)) :
    Except SSEError (Fields × List SSEEvent) := do
  let (p, events) ← feedAll R p (chunks.map .bytes)
  let (p, last) ← finish R p
  return (p.fields, events ++ last)

/-- The parser reads a text as the reference does, or rejects it where the
reference does or a line stands at the limit before a carriage return. -/
def Agrees (f : Fields) (t : Text) (out : Except SSEError (Fields × List SSEEvent)) : Prop :=
  out = referenceText R f t ∨
    out = .error .pendingLine ∧
      (rejected (referenceText R f t) = true ∨ crAtLimit R f (splitLines true t).1 = true)

theorem crAtLimit_append (f : Fields) (a b : List (Text × LineEnd)) :
    crAtLimit R f (a ++ b) =
      (crAtLimit R f a ||
        match applyLines R f a with
        | .ok r => crAtLimit R r.1 b
        | .error _ => false) := by
  induction a generalizing f with
  | nil => simp [crAtLimit, applyLines]
  | cons l a ih =>
      simp only [List.cons_append, crAtLimit, applyLines, bind, Except.bind, pure,
        Except.pure]
      cases applyLine R f l.1 with
      | error e => simp
      | ok r =>
          simp only [ih, Bool.or_assoc]
          cases applyLines R r.1 a <;> rfl

theorem rejected_map {α β : Type} (g : α → β) (x : Except SSEError α) :
    rejected (x.map g) = rejected x := by
  cases x <;> rfl

/-- Lines that are read first only put their events before the others. -/
theorem Agrees.append {f f' : Fields} {events : List SSEEvent} {x : Text} (y : Text)
    (ha : applyLines R f (splitLines false x).1 = .ok (f', events))
    {out : Except SSEError (Fields × List SSEEvent)}
    (h : Agrees R f' ((splitLines false x).2 ++ y) out) :
    Agrees R f (x ++ y) (out.map fun r => (r.1, events ++ r.2)) := by
  have href := referenceText_append R f x y
  rw [ha] at href
  simp only [Except.bind] at href
  rcases h with rfl | ⟨rfl, h⟩
  · exact .inl href.symm
  · refine .inr ⟨rfl, ?_⟩
    rcases h with h | h
    · left
      rw [href, rejected_map]
      exact h
    · right
      rw [splitLines_append true x y, after, crAtLimit_append, ha]
      simp [h]

theorem dispatch_dispatch (f : Fields) : dispatch (dispatch f).1 = ((dispatch f).1, none) := by
  by_cases h : f.data = [] <;> simp [dispatch, h]

/-- The last, unterminated line, read as `finish` reads it. -/
def finishRest (f : Fields) (rest : Text) : Except SSEError (Fields × List SSEEvent) := do
  let f ←
    if rest = [] then pure f
    else do
      checkLineSize R rest
      parseLine R f (if rest.getLast? = some '\r' then rest.dropLast else rest)
  let (f, event) := dispatch f
  return (f, event.toList)

theorem parseLine_nil (f : Fields) : parseLine R f [] = .ok f := by
  simp [parseLine, splitField]

theorem finishRest_agrees (f : Fields) {rest : Text} (h : Stuck rest) :
    Agrees R f rest (finishRest R f rest) := by
  by_cases hlen : rest.length > R.maxLineSize
  · right
    have hne : rest ≠ [] := by
      rintro rfl
      simp at hlen
    refine ⟨?_, by simpa using rejected_or_crAtLimit R f h hlen []⟩
    simp [finishRest, hne, checkLineSize, hlen, bind, Except.bind]
  · left
    have hcheck : checkLineSize R rest = .ok () := by simp [checkLineSize, hlen]
    rcases (stuck_iff rest).mp h with hno | ⟨line, hline, rfl⟩
    · have hlast : rest.getLast? ≠ some '\r' := by
        intro hl
        have := hno _ (List.mem_of_getLast? hl)
        simp [isLineEnd] at this
      simp [finishRest, referenceText, splitLines_of_no_end true hno, applyLines, hlast,
        hcheck, bind, Except.bind, pure, Except.pure]
    · have hs : splitLines true (line ++ ['\r']) = ([(line, .cr)], []) :=
        splitLines_line true hline _ (r := ([], [])) (splitLines_cr_end true)
      have hcheck' : checkLineSize R line = .ok () := by
        simp only [List.length_append, List.length_singleton] at hlen
        have : ¬ line.length > R.maxLineSize := by omega
        simp [checkLineSize, this]
      by_cases hline0 : line = []
      · subst hline0
        simp only [List.nil_append] at hcheck hs ⊢
        simp [finishRest, referenceText, hs, applyLines, applyLine, hcheck, parseLine_nil,
          dispatch_dispatch, bind, Except.bind, pure, Except.pure]
      · simp only [finishRest, referenceText, hs, applyLines, applyLine, hcheck, hcheck',
          hline0, bind, Except.bind, pure, Except.pure]
        cases hp : parseLine R f line <;> simp [hp]

/-- The decoder's last character is no byte order mark. -/
theorem remaining_nil {p : SSEParser} (hp : Settled R p) :
    remaining p [] = p.buffer ++ (Utf8.decode true p.undecoded).1 := by
  have hbom : stripBom (Utf8.decode true p.undecoded).1 = (Utf8.decode true p.undecoded).1 := by
    rcases hp.cut.decode_true with h | h
    · rw [h]
      rfl
    · rw [h]
      decide
  simp [remaining, hbom]

/-- `finish` applies the lines that are left, then the unterminated one. -/
theorem finish_eq {p : SSEParser} (hp : Settled R p) :
    run R p [] =
      (applyLines R p.fields (splitLines false (remaining p [])).1).bind fun r =>
        (finishRest R r.1 (splitLines false (remaining p [])).2).map fun r' =>
          (r'.1, r.2 ++ r'.2) := by
  rw [remaining_nil R hp]
  have hready : Ready { p with
      buffer := p.buffer ++ (Utf8.decode true p.undecoded).1, undecoded := [] } :=
    hp.append R _ _ _
  have hpend : ({ p with
      buffer := p.buffer ++ (Utf8.decode true p.undecoded).1, undecoded := [] } :
        SSEParser).pending = p.buffer ++ (Utf8.decode true p.undecoded).1 := by
    simp [SSEParser.pending, hp.start]
  have hdrain := drain_eq R hready
    ((p.buffer ++ (Utf8.decode true p.undecoded).1).length + 1) (by
      simp only [SSEParser.pending, List.length_drop]
      omega)
  rw [hpend] at hdrain
  simp only [run, List.map_nil, feedAll, finish, bind, Except.bind, pure, Except.pure]
  simp only at hdrain
  cases ha : applyLines R p.fields
      (splitLines false (p.buffer ++ (Utf8.decode true p.undecoded).1)).1 with
  | error e =>
      rw [ha] at hdrain
      rw [hdrain]
  | ok r =>
      rw [ha] at hdrain
      obtain ⟨p₂, hok, hr₂, -, hf₂, hpe₂⟩ := hdrain
      obtain ⟨-, hcs, hcb, hcf, -, -⟩ := compactBuffer_eq hr₂
      rw [hok]
      simp only [hcb, hpe₂, hcf, hf₂, checkPendingLineSize, hcs, Nat.sub_zero, finishRest,
        checkLineSize, bind, Except.bind, pure, Except.pure]
      generalize (splitLines false (p.buffer ++ (Utf8.decode true p.undecoded).1)).2 = rest
      by_cases hnil : rest = []
      · simp [hnil, Except.map]
      · by_cases hlong : rest.length > R.maxLineSize
        · simp [hnil, hlong, Except.map]
        · simp only [hnil, hlong, if_false]
          cases parseLine R r.1 _ <;> simp [Except.map]

theorem finish_agrees {p : SSEParser} (hp : Settled R p) :
    Agrees R p.fields (remaining p []) (run R p []) := by
  rw [finish_eq R hp]
  cases ha : applyLines R p.fields (splitLines false (remaining p [])).1 with
  | error e =>
      left
      have href := referenceText_append R p.fields (remaining p []) []
      rw [ha, List.append_nil] at href
      exact href.symm
  | ok r =>
      have h := finishRest_agrees R r.1 (splitLines_snd_stuck (remaining p []))
      rw [← List.append_nil (splitLines false (remaining p [])).2] at h
      have := Agrees.append R [] ha h
      simpa [Except.bind] using this

theorem run_cons (p : SSEParser) (b : List UInt8) (chunks : List (List UInt8)) :
    run R p (b :: chunks) =
      (feed R p (.bytes b)).bind fun r =>
        (run R r.1 chunks).map fun r' => (r'.1, r.2 ++ r'.2) := by
  simp only [run, List.map_cons, feedAll, bind, Except.bind, pure, Except.pure]
  cases feed R p (.bytes b) with
  | error e => rfl
  | ok r =>
      simp only [Except.map]
      cases feedAll R r.1 (chunks.map .bytes) with
      | error e => rfl
      | ok r₁ =>
          simp only
          cases finish R r₁.1 <;> simp

/-- Every chunking agrees with the reference on the text to come. -/
theorem run_agrees {p : SSEParser} (hp : Settled R p) (chunks : List (List UInt8)) :
    Agrees R p.fields (remaining p chunks.flatten) (run R p chunks) := by
  induction chunks generalizing p with
  | nil => exact finish_agrees R hp
  | cons b chunks ih =>
      have hfeed := feed_eq R hp (.bytes b)
      rw [run_cons, List.flatten_cons]
      cases ha : applyLines R p.fields
          (splitLines false (p.buffer ++ (decodeChunk p (.bytes b)).2)).1 with
      | error e =>
          rw [ha] at hfeed
          obtain ⟨y, hy, -⟩ :=
            remaining_append p b chunks.flatten (decodeChunk p (.bytes b)).1 rfl rfl
          left
          rw [hy, referenceText_append, ha, hfeed]
          rfl
      | ok r =>
          rw [ha] at hfeed
          simp only at hfeed
          split at hfeed
          · rename_i hlong
            obtain ⟨y, hy, -⟩ :=
              remaining_append p b chunks.flatten (decodeChunk p (.bytes b)).1 rfl rfl
            rw [hfeed, hy]
            have hag : Agrees R r.1 ((splitLines false (p.buffer ++ (decodeChunk p (.bytes b)).2)).2 ++ y)
                (.error .pendingLine) :=
              .inr ⟨rfl, rejected_or_crAtLimit R r.1 (splitLines_snd_stuck _) hlong y⟩
            exact Agrees.append R y ha hag
          · obtain ⟨p', hok, hp', hf, hbuf, hu, hs⟩ := hfeed
            obtain ⟨y, hy, hy'⟩ := remaining_append p b chunks.flatten p' hu hs
            have h := ih hp'
            rw [hy', hbuf, hf] at h
            rw [hok, hy]
            exact Agrees.append R y ha h

end Rules

end Avibe.Sse
