import Avibe.Sse.Parser

/-!
# Lines of an event stream

`splitLines final t` cuts a text at CRLF, LF or CR into its lines, each with
the end it has, and the unterminated rest. With `final` unset a carriage return
at the end of the text is held back in the rest, as `takeLine` does.

The parser works on a buffer with two positions. `drain_eq` reads its loop as
`applyLines` over the lines of the pending text, so that the positions do not
appear any more above this module.
-/

namespace Avibe.Sse

/-- How a line ends. -/
inductive LineEnd where
  | lf
  | cr
  | crlf
  deriving DecidableEq, Repr

/-- Put a character before the first line, or before the rest when there is
none. -/
def pushChar (c : Char) (r : List (Text × LineEnd) × Text) :
    List (Text × LineEnd) × Text :=
  match r with
  | ([], rest) => ([], c :: rest)
  | ((line, ending) :: lines, rest) => ((c :: line, ending) :: lines, rest)

/-- Put an empty line before the lines. -/
def pushLine (ending : LineEnd) (r : List (Text × LineEnd) × Text) :
    List (Text × LineEnd) × Text :=
  (([], ending) :: r.1, r.2)

def splitLines (final : Bool) : Text → List (Text × LineEnd) × Text
  | [] => ([], [])
  | c :: t =>
      if c = '\n' then pushLine .lf (splitLines final t)
      else if c = '\r' then
        match t with
        | [] => if final then pushLine .cr ([], []) else ([], ['\r'])
        | d :: t' =>
            if d = '\n' then pushLine .crlf (splitLines final t')
            else pushLine .cr (splitLines final (d :: t'))
      else pushChar c (splitLines final t)

@[simp] theorem splitLines_nil (final : Bool) : splitLines final [] = ([], []) := by
  simp [splitLines]

theorem splitLines_lf (final : Bool) (t : Text) :
    splitLines final ('\n' :: t) = pushLine .lf (splitLines final t) := by
  rw [splitLines.eq_def]
  simp

theorem splitLines_crlf (final : Bool) (t : Text) :
    splitLines final ('\r' :: '\n' :: t) = pushLine .crlf (splitLines final t) := by
  rw [splitLines.eq_def]
  simp

theorem splitLines_cr (final : Bool) {d : Char} (hd : d ≠ '\n') (t : Text) :
    splitLines final ('\r' :: d :: t) = pushLine .cr (splitLines final (d :: t)) := by
  rw [splitLines.eq_def]
  simp [hd]

theorem splitLines_cr_end (final : Bool) :
    splitLines final ['\r'] = if final then ([([], .cr)], []) else ([], ['\r']) := by
  simp [splitLines, pushLine]

theorem splitLines_char (final : Bool) {c : Char} (hc : isLineEnd c = false) (t : Text) :
    splitLines final (c :: t) = pushChar c (splitLines final t) := by
  simp only [isLineEnd, Bool.or_eq_false_iff, decide_eq_false_iff_not] at hc
  rw [splitLines.eq_def]
  simp [hc]

/-- The lines `r` after the lines `ls`. -/
def after (ls : List (Text × LineEnd)) (r : List (Text × LineEnd) × Text) :
    List (Text × LineEnd) × Text :=
  (ls ++ r.1, r.2)

@[simp] theorem after_nil (r : List (Text × LineEnd) × Text) : after [] r = r := rfl

theorem pushLine_after (e : LineEnd) (ls : List (Text × LineEnd))
    (r : List (Text × LineEnd) × Text) :
    pushLine e (after ls r) = after (([], e) :: ls) r := rfl

theorem pushChar_after_cons (c : Char) (l : Text × LineEnd) (ls : List (Text × LineEnd))
    (r : List (Text × LineEnd) × Text) :
    pushChar c (after (l :: ls) r) = after ((c :: l.1, l.2) :: ls) r := rfl

/-- Cutting splits an appended text: what the first part holds back goes
before the second part. -/
theorem splitLines_append (final : Bool) (x y : Text) :
    splitLines final (x ++ y) =
      after (splitLines false x).1 (splitLines final ((splitLines false x).2 ++ y)) := by
  induction hn : x.length using Nat.strongRecOn generalizing x with
  | ind n ih =>
      cases x with
      | nil => simp
      | cons c t =>
          simp only [List.length_cons] at hn
          by_cases hlf : c = '\n'
          · subst hlf
            have ht := ih t.length (by omega) t rfl
            rw [List.cons_append, splitLines_lf, splitLines_lf, ht, pushLine_after]
            rfl
          · by_cases hcr : c = '\r'
            · subst hcr
              cases t with
              | nil => simp [splitLines_cr_end]
              | cons d t' =>
                  simp only [List.length_cons] at hn
                  by_cases hd : d = '\n'
                  · subst hd
                    have ht := ih t'.length (by omega) t' rfl
                    rw [List.cons_append, List.cons_append, splitLines_crlf,
                      splitLines_crlf, ht, pushLine_after]
                    rfl
                  · have ht := ih (d :: t').length (by simp; omega) (d :: t') rfl
                    rw [List.cons_append] at ht
                    rw [List.cons_append, List.cons_append, splitLines_cr final hd,
                      splitLines_cr false hd, ht, pushLine_after]
                    rfl
            · have hc : isLineEnd c = false := by simp [isLineEnd, hlf, hcr]
              have ht := ih t.length (by omega) t rfl
              rw [List.cons_append, splitLines_char final hc, splitLines_char false hc, ht]
              cases hs : splitLines false t with
              | mk ls rest =>
                  cases ls with
                  | nil => simp [pushChar, splitLines_char final hc]
                  | cons l ls => rw [pushChar_after_cons]; rfl

/-- No complete line: the whole text is held back. -/
def Stuck (t : Text) : Prop := splitLines false t = ([], t)

theorem stuck_nil : Stuck [] := by simp [Stuck]

/-- A text without line ends before a text belongs to its first line, or to its
rest. -/
theorem splitLines_no_end_append (final : Bool) {line : Text}
    (h : ∀ c ∈ line, isLineEnd c = false) (t : Text) :
    splitLines final (line ++ t) =
      match splitLines final t with
      | ([], rest) => ([], line ++ rest)
      | ((l, e) :: ls, rest) => ((line ++ l, e) :: ls, rest) := by
  induction line with
  | nil => cases hs : splitLines final t with
    | mk ls rest => cases ls <;> simp [hs]
  | cons c line ih =>
      have hc := h c (by simp)
      rw [List.cons_append, splitLines_char final hc,
        ih (fun d hd => h d (by simp [hd]))]
      cases splitLines final t with
      | mk ls rest => cases ls <;> rfl

/-- A text without line ends is held back, also when no more text comes. -/
theorem splitLines_of_no_end (final : Bool) {t : Text}
    (ht : ∀ c ∈ t, isLineEnd c = false) : splitLines final t = ([], t) := by
  simpa using splitLines_no_end_append final ht []

/-- A line followed by its end. -/
theorem splitLines_line (final : Bool) {line : Text}
    (h : ∀ c ∈ line, isLineEnd c = false) (t : Text) {e : LineEnd}
    {r : List (Text × LineEnd) × Text} (hu : splitLines final t = pushLine e r) :
    splitLines final (line ++ t) = ((line, e) :: r.1, r.2) := by
  rw [splitLines_no_end_append final h, hu]
  simp [pushLine]

/-- A line followed by a carriage return, when no more text comes after `t`. -/
theorem splitLines_line_cr {line : Text} (h : ∀ c ∈ line, isLineEnd c = false) (t : Text) :
    ∃ (e : LineEnd) (r : List (Text × LineEnd) × Text), e ≠ .lf ∧
      splitLines true (line ++ '\r' :: t) = ((line, e) :: r.1, r.2) := by
  cases t with
  | nil => exact ⟨.cr, ([], []), by simp, splitLines_line true h _ (splitLines_cr_end true)⟩
  | cons d t =>
      by_cases hd : d = '\n'
      · subst hd
        exact ⟨.crlf, _, by simp, splitLines_line true h _ (splitLines_crlf true t)⟩
      · exact ⟨.cr, _, by simp, splitLines_line true h _ (splitLines_cr true hd t)⟩

/-- The carriage return that ends a text is held back with its line. -/
theorem stuck_cr {line : Text} (h : ∀ c ∈ line, isLineEnd c = false) :
    Stuck (line ++ ['\r']) := by
  rw [Stuck, splitLines_no_end_append false h, splitLines_cr_end]
  rfl

/-- A text that is held back has no line end, or only a carriage return at its
end. -/
theorem stuck_iff (t : Text) :
    Stuck t ↔ (∀ c ∈ t, isLineEnd c = false) ∨
      ∃ line : Text, (∀ c ∈ line, isLineEnd c = false) ∧ t = line ++ ['\r'] := by
  constructor
  · intro h
    induction t with
    | nil => exact .inl (by simp)
    | cons c t ih =>
        unfold Stuck at h ih
        by_cases hlf : c = '\n'
        · subst hlf
          simp [splitLines_lf, pushLine] at h
        · by_cases hcr : c = '\r'
          · subst hcr
            cases t with
            | nil => exact .inr ⟨[], by simp, rfl⟩
            | cons d t =>
                by_cases hd : d = '\n'
                · subst hd
                  simp [splitLines_crlf, pushLine] at h
                · simp [splitLines_cr false hd, pushLine] at h
          · have hc : isLineEnd c = false := by simp [isLineEnd, hlf, hcr]
            rw [splitLines_char false hc] at h
            have ht : splitLines false t = ([], t) := by
              cases hs : splitLines false t with
              | mk ls rest =>
                  cases ls with
                  | nil => simpa [hs, pushChar] using h
                  | cons l ls => simp [hs, pushChar] at h
            rcases ih ht with hno | ⟨line, hline, rfl⟩
            · exact .inl (by simpa [hc] using hno)
            · exact .inr ⟨c :: line, by simpa [hc] using hline, rfl⟩
  · rintro (h | ⟨line, hline, rfl⟩)
    · exact splitLines_of_no_end false h
    · exact stuck_cr hline

/-! ## The buffer loop -/

/-- The text of the buffer that is not cut into lines yet. -/
def SSEParser.pending (p : SSEParser) : Text := p.buffer.drop p.lineStart

/-- What `takeLine` keeps true of the two positions: the text between them
holds no line end. -/
structure Ready (p : SSEParser) : Prop where
  start_le : p.lineStart ≤ p.scanPosition
  scan_le : p.scanPosition ≤ p.buffer.length
  scanned : ∀ c ∈ (p.buffer.take p.scanPosition).drop p.lineStart, isLineEnd c = false

theorem searchLineEnd_none {buffer : Text} {position : Nat}
    (h : searchLineEnd buffer position = none) :
    ∀ c ∈ buffer.drop position, isLineEnd c = false := by
  simpa [searchLineEnd] using h

theorem searchLineEnd_some {buffer : Text} {position index : Nat}
    (h : searchLineEnd buffer position = some index) :
    ∃ c, position ≤ index ∧ buffer[index]? = some c ∧ isLineEnd c = true ∧
      ∀ d ∈ (buffer.take index).drop position, isLineEnd d = false := by
  obtain ⟨i, hi, rfl⟩ := Option.map_eq_some_iff.mp h
  obtain ⟨hlt, hc, hbefore⟩ := List.findIdx?_eq_some_iff_getElem.mp hi
  simp only [List.length_drop] at hlt
  refine ⟨(buffer.drop position)[i], by omega, ?_, hc, ?_⟩
  · rw [← List.getElem?_eq_getElem, List.getElem?_drop, Nat.add_comm]
  · intro d hd
    rw [List.drop_take, Nat.add_sub_cancel] at hd
    obtain ⟨j, hj, rfl⟩ := List.mem_iff_getElem.mp hd
    simp only [List.length_take, List.length_drop] at hj
    have := hbefore j (by omega)
    rw [List.getElem_take]
    simpa using this

/-- The text from the line start to `index` is one line's text. -/
theorem Ready.line_no_end {p : SSEParser} (hp : Ready p) (index : Nat)
    (hi : p.scanPosition ≤ index)
    (h : ∀ d ∈ (p.buffer.take index).drop p.scanPosition, isLineEnd d = false) :
    ∀ d ∈ (p.buffer.take index).drop p.lineStart, isLineEnd d = false := by
  intro d hd
  have hsplit : (p.buffer.take index).drop p.lineStart =
      (p.buffer.take p.scanPosition).drop p.lineStart ++
        (p.buffer.take index).drop p.scanPosition := by
    have h1 : p.buffer.take p.scanPosition =
        (p.buffer.take index).take p.scanPosition := by
      rw [List.take_take, Nat.min_eq_left hi]
    have hlen : p.lineStart ≤ ((p.buffer.take index).take p.scanPosition).length := by
      have := hp.start_le
      have := hp.scan_le
      simp only [List.length_take]
      omega
    rw [h1, ← List.drop_append_of_le_length hlen, List.take_append_drop]
  rw [hsplit, List.mem_append] at hd
  exact hd.elim (hp.scanned d) (h d)

/-- The fields `takeLine` and `drain` leave alone. -/
def SameSource (p q : SSEParser) : Prop :=
  q.buffer = p.buffer ∧ q.undecoded = p.undecoded ∧ q.atStreamStart = p.atStreamStart

theorem takeLine_none {p p' : SSEParser} (hp : Ready p) (h : takeLine p = (p', none)) :
    Ready p' ∧ SameSource p p' ∧ p'.fields = p.fields ∧ p'.pending = p.pending ∧
      Stuck p.pending := by
  unfold takeLine at h
  split at h
  · rename_i hs
    obtain rfl := (Prod.mk.inj h).1
    have hno : ∀ c ∈ p.pending, isLineEnd c = false := by
      have := hp.line_no_end p.buffer.length hp.scan_le
        (by simpa using searchLineEnd_none hs)
      simpa [SSEParser.pending] using this
    refine ⟨⟨?_, Nat.le_refl _, ?_⟩, ⟨rfl, rfl, rfl⟩, rfl, rfl, (stuck_iff _).mpr (.inl hno)⟩
    · have := hp.start_le
      have := hp.scan_le
      simp only
      omega
    · simpa [SSEParser.pending] using hno
  · rename_i index hs
    obtain ⟨c, hle, hget, -, hbefore⟩ := searchLineEnd_some hs
    split at h
    · rename_i hcr
      obtain ⟨hcr, hend⟩ := hcr
      obtain rfl := (Prod.mk.inj h).1
      have hno := hp.line_no_end index hle hbefore
      refine ⟨⟨?_, by simp only; omega, hno⟩, ⟨rfl, rfl, rfl⟩, rfl, rfl, ?_⟩
      · have := hp.start_le
        simp only
        omega
      · refine (stuck_iff _).mpr (.inr ⟨_, hno, ?_⟩)
        have hlt : index < p.buffer.length := by omega
        have hsplit : p.buffer = p.buffer.take index ++ ['\r'] := by
          conv_lhs => rw [← List.take_append_drop index p.buffer]
          rw [List.drop_eq_getElem_cons hlt, List.drop_eq_nil_of_le (by omega)]
          rw [List.getElem?_eq_getElem hlt, Option.some.injEq] at hcr
          rw [hcr]
        have hstart : p.lineStart ≤ (p.buffer.take index).length := by
          have := hp.start_le
          simp only [List.length_take]
          omega
        rw [SSEParser.pending]
        conv_lhs => rw [hsplit]
        rw [List.drop_append_of_le_length hstart]
    · simp at h

theorem takeLine_some {p p' : SSEParser} {line : Text} (hp : Ready p)
    (h : takeLine p = (p', some line)) :
    Ready p' ∧ SameSource p p' ∧ p'.fields = p.fields ∧
      p'.pending.length < p.pending.length ∧
      ∃ e, splitLines false p.pending =
        ((line, e) :: (splitLines false p'.pending).1, (splitLines false p'.pending).2) := by
  unfold takeLine at h
  split at h
  · simp at h
  · rename_i index hs
    obtain ⟨c, hle, hget, hc, hbefore⟩ := searchLineEnd_some hs
    split at h
    · simp at h
    · rename_i hcr
      simp only [Prod.mk.injEq, Option.some.injEq] at h
      obtain ⟨rfl, rfl⟩ := h
      have hno := hp.line_no_end index hle hbefore
      have hlt : index < p.buffer.length := (List.getElem?_eq_some_iff.mp hget).1
      have hstart : p.lineStart ≤ (p.buffer.take index).length := by
        have := hp.start_le
        simp only [List.length_take]
        omega
      have hpend : p.pending =
          (p.buffer.take index).drop p.lineStart ++ p.buffer.drop index := by
        rw [SSEParser.pending, ← List.drop_append_of_le_length hstart,
          List.take_append_drop]
      have hdrop : p.buffer.drop index = c :: p.buffer.drop (index + 1) := by
        rw [List.drop_eq_getElem_cons hlt]
        rw [List.getElem?_eq_getElem hlt, Option.some.injEq] at hget
        rw [hget]
      -- The position after the line end, and the text from there on.
      suffices hnext : ∃ next e, index < next ∧ next ≤ p.buffer.length ∧
          (if p.buffer[index]? = some '\r' ∧ p.buffer[index + 1]? = some '\n' then
            index + 2 else index + 1) = next ∧
          splitLines false (p.buffer.drop index) =
            pushLine e (splitLines false (p.buffer.drop next)) by
        obtain ⟨next, e, hlo, hhi, hif, hsplit⟩ := hnext
        rw [hif]
        refine ⟨⟨Nat.le_refl _, hhi, by simp⟩, ⟨rfl, rfl, rfl⟩, rfl, ?_, e, ?_⟩
        · have := hp.start_le
          simp only [SSEParser.pending, List.length_drop]
          omega
        · rw [hpend, splitLines_line false hno _ hsplit]
          rfl
      rw [hdrop]
      by_cases hcc : c = '\r'
      · subst hcc
        have hlt' : index + 1 < p.buffer.length := by
          have : ¬ index + 1 = p.buffer.length := fun he => hcr ⟨hget, he⟩
          omega
        have hdrop' := List.drop_eq_getElem_cons hlt'
        by_cases hd : p.buffer[index + 1] = '\n'
        · refine ⟨index + 2, .crlf, by omega, by omega, ?_, ?_⟩
          · simp [hget, List.getElem?_eq_getElem hlt', hd]
          · rw [hdrop', hd, splitLines_crlf]
        · refine ⟨index + 1, .cr, by omega, by omega, ?_, ?_⟩
          · simp [hget, List.getElem?_eq_getElem hlt', hd]
          · rw [hdrop', splitLines_cr false hd]
      · have hlf : c = '\n' := by simpa [isLineEnd, hcc] using hc
        subst hlf
        exact ⟨index + 1, .lf, by omega, by omega, by simp [hget], splitLines_lf _ _⟩

section Rules

variable (R : Rules)

/-- Apply the lines of a stream in turn. -/
def applyLines : Fields → List (Text × LineEnd) → Except SSEError (Fields × List SSEEvent)
  | f, [] => .ok (f, [])
  | f, (line, _) :: lines => do
      let (f', events) ← applyLine R f line
      let (f'', later) ← applyLines f' lines
      return (f'', events ++ later)

theorem applyLines_append (f : Fields) (a b : List (Text × LineEnd)) :
    applyLines R f (a ++ b) =
      (applyLines R f a).bind fun r =>
        (applyLines R r.1 b).map fun r' => (r'.1, r.2 ++ r'.2) := by
  induction a generalizing f with
  | nil =>
      cases h : applyLines R f b <;> simp [applyLines, Except.bind, Except.map, h]
  | cons l a ih =>
      simp only [List.cons_append, applyLines, bind, Except.bind, pure, Except.pure, ih]
      cases applyLine R f l.1 with
      | error e => rfl
      | ok r =>
          simp only [Except.map]
          cases applyLines R r.1 a with
          | error e => rfl
          | ok r₁ =>
              simp only
              cases applyLines R r₁.1 b <;> simp

/-- The loop over the buffer applies the lines of the pending text and leaves
the rest of it pending. -/
theorem drain_eq {p : SSEParser} (hp : Ready p) (fuel : Nat)
    (hf : p.pending.length < fuel) :
    match applyLines R p.fields (splitLines false p.pending).1 with
    | .error e => drain R fuel p = .error e
    | .ok (f, events) => ∃ p', drain R fuel p = .ok (p', events) ∧ Ready p' ∧
        SameSource p p' ∧ p'.fields = f ∧ p'.pending = (splitLines false p.pending).2 := by
  induction fuel generalizing p with
  | zero => omega
  | succ fuel ih =>
      cases ht : takeLine p with
      | mk p₁ line? =>
          cases line? with
          | none =>
              obtain ⟨hr, hs, hfields, hpend, hstuck⟩ := takeLine_none hp ht
              rw [Stuck] at hstuck
              rw [hstuck]
              exact ⟨p₁, by simp [drain, ht], hr, hs, hfields, hpend⟩
          | some line =>
              obtain ⟨hr, hs, hfields, hlen, e, hsplit⟩ := takeLine_some hp ht
              rw [hsplit]
              simp only [applyLines, drain, ht, ← hfields]
              cases ha : applyLine R p₁.fields line with
              | error err => rfl
              | ok r =>
                  obtain ⟨f', events⟩ := r
                  have hr' : Ready { p₁ with fields := f' } := ⟨hr.1, hr.2, hr.3⟩
                  have hih := ih hr' (by simp only [SSEParser.pending] at hlen hf ⊢; omega)
                  have hpend : ({ p₁ with fields := f' } : SSEParser).pending = p₁.pending := rfl
                  rw [hpend] at hih
                  simp only [bind, Except.bind, pure, Except.pure] at hih ⊢
                  cases hl : applyLines R f' (splitLines false p₁.pending).1 with
                  | error err =>
                      rw [hl] at hih
                      simp only [hih]
                  | ok r =>
                      rw [hl] at hih
                      obtain ⟨p', hd, hready, hsame, hfl, hpe⟩ := hih
                      simp only [hd]
                      refine ⟨p', rfl, hready, ?_, hfl, hpe⟩
                      exact ⟨hsame.1.trans hs.1, hsame.2.1.trans hs.2.1,
                        hsame.2.2.trans hs.2.2⟩

end Rules

end Avibe.Sse
