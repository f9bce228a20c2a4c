import Avibe.Json.Lexemes
import Avibe.Json.Numbers
import Avibe.Json.Strings

/-!
# The scanner

A machine over bytes that reads lexemes in one of four modes and hands each token
to the grammar automaton. It accepts exactly the texts of the grammar.
-/

namespace Avibe.Json

inductive Mode where
  | normal
  | string (state : StringState)
  | number (state : NumberState)
  | literal (bytes : List UInt8)
  deriving DecidableEq, Repr

structure Scan where
  mode : Mode
  config : Config
  deriving DecidableEq, Repr

def punctuation (b : UInt8) : Option Token :=
  if b = 0x7B then some .startMap
  else if b = 0x7D then some .endMap
  else if b = 0x5B then some .startArray
  else if b = 0x5D then some .endArray
  else if b = 0x3A then some .colon
  else if b = 0x2C then some .comma
  else none

def isNumberByte (b : UInt8) : Bool :=
  isDigit b || b ∈ [0x2B, 0x2D, 0x2E, 0x65, 0x45]

def isLower (b : UInt8) : Bool := 0x61 ≤ b && b ≤ 0x7A

namespace Scan

/-- A byte between two lexemes. -/
def between (c : Config) (b : UInt8) : Option Scan :=
  if isSpace b then some ⟨.normal, c⟩
  else if b = 0x22 then some ⟨.string .clean, c⟩
  else
    match NumberState.start b with
    | some s => some ⟨.number s, c⟩
    | none =>
        if b ∈ [0x74, 0x66, 0x6E] then some ⟨.literal [b], c⟩
        else (punctuation b).bind fun t => (c.step t).map fun c' => ⟨.normal, c'⟩

def step : Scan → UInt8 → Option Scan
  | ⟨.normal, c⟩, b => between c b
  | ⟨.string s, c⟩, b =>
      if b = 0x22 ∧ s = .clean then (c.step .string).map fun c' => ⟨.normal, c'⟩
      else (s.step b).map fun s' => ⟨.string s', c⟩
  | ⟨.number s, c⟩, b =>
      if isNumberByte b then (s.advance b).map fun s' => ⟨.number s', c⟩
      else if s.final then (c.step .scalar).bind fun c' => between c' b
      else none
  | ⟨.literal bytes, c⟩, b =>
      if isLower b then
        if bytes.length < 5 then some ⟨.literal (bytes ++ [b]), c⟩ else none
      else if bytes ∈ words then (c.step .scalar).bind fun c' => between c' b
      else none

/-- The scanner may stop here. -/
def finish : Scan → Bool
  | ⟨.normal, c⟩ => c = .done
  | ⟨.string _, _⟩ => false
  | ⟨.number s, c⟩ => s.final && c.step .scalar = some .done
  | ⟨.literal bytes, c⟩ => bytes ∈ words && c.step .scalar = some .done

/-- The bytes bring the scanner to an end. -/
def Accepts : Scan → List UInt8 → Prop
  | s, [] => s.finish = true
  | s, b :: bytes => ∃ s', s.step b = some s' ∧ s'.Accepts bytes

end Scan

open Scan

theorem scan_cons {s s' : Scan} {b : UInt8} {bytes : List UInt8} (h : s.step b = some s') :
    s.Accepts (b :: bytes) ↔ s'.Accepts bytes := by
  constructor
  · rintro ⟨d, hd, hbytes⟩
    cases hd.symm.trans h
    exact hbytes
  · exact fun hbytes => ⟨s', h, hbytes⟩

/-! ## Lexemes, one mode at a time -/

theorem accepts_string {s : StringState} {c : Config} {bytes : List UInt8} :
    Scan.Accepts ⟨.string s, c⟩ bytes ↔ ∃ chars rest c', bytes = chars ++ 0x22 :: rest ∧
      chars.foldlM StringState.step s = some .clean ∧ c.step .string = some c' ∧
      Scan.Accepts ⟨.normal, c'⟩ rest := by
  induction bytes generalizing s with
  | nil =>
      refine iff_of_false (fun h => ?_) ?_
      · cases h
      · rintro ⟨chars, rest, c', h, -⟩
        simp at h
  | cons b bytes ih =>
      by_cases hend : b = 0x22 ∧ s = .clean
      · obtain ⟨rfl, rfl⟩ := hend
        constructor
        · rintro ⟨s', hs', hrest⟩
          obtain ⟨c', hc', rfl⟩ := Option.map_eq_some_iff.mp hs'
          exact ⟨[], bytes, c', rfl, rfl, hc', hrest⟩
        · rintro ⟨chars, rest, c', h, hchars, hc', hrest⟩
          cases chars with
          | nil =>
              cases h
              exact ⟨⟨.normal, c'⟩, by simp [Scan.step, hc'], hrest⟩
          | cons d chars =>
              cases h
              cases hchars
      · have hstep : Scan.step ⟨.string s, c⟩ b = (s.step b).map fun s' => ⟨.string s', c⟩ :=
          if_neg hend
        constructor
        · rintro ⟨t, ht, hrest⟩
          rw [hstep] at ht
          obtain ⟨s', hs', rfl⟩ := Option.map_eq_some_iff.mp ht
          obtain ⟨chars, rest, c', rfl, hchars, hc', hrest⟩ := ih.mp hrest
          refine ⟨b :: chars, rest, c', rfl, ?_, hc', hrest⟩
          rw [List.foldlM_cons, hs']
          exact hchars
        · rintro ⟨chars, rest, c', h, hchars, hc', hrest⟩
          cases chars with
          | nil =>
              cases h
              cases hchars
              exact absurd ⟨rfl, rfl⟩ hend
          | cons d chars =>
              cases h
              rw [List.foldlM_cons] at hchars
              obtain ⟨s', hs', hchars⟩ := Option.bind_eq_some_iff.mp hchars
              refine ⟨⟨.string s', c⟩, ?_, ih.mpr ⟨chars, rest, c', rfl, hchars, hc', hrest⟩⟩
              rw [hstep, hs']
              rfl

/-- The lexeme before these bytes does not go on. -/
def Stops (goes : UInt8 → Bool) (bytes : List UInt8) : Prop :=
  ∀ b, bytes.head? = some b → goes b = false

/-- A scalar is complete and the scanner goes on with these bytes. -/
def AfterScalar (goes : UInt8 → Bool) (c : Config) (rest : List UInt8) : Prop :=
  Stops goes rest ∧ ∃ c', c.step .scalar = some c' ∧ Scan.Accepts ⟨.normal, c'⟩ rest

theorem afterScalar_nil (goes : UInt8 → Bool) {c : Config} :
    AfterScalar goes c [] ↔ c.step .scalar = some .done := by
  constructor
  · rintro ⟨-, c', hc', hrest⟩
    obtain rfl : c' = .done := of_decide_eq_true hrest
    exact hc'
  · exact fun h => ⟨by simp [Stops], .done, h, rfl⟩

theorem afterScalar_cons {goes : UInt8 → Bool} {c : Config} {b : UInt8} {bytes : List UInt8}
    (hb : goes b = false) :
    AfterScalar goes c (b :: bytes) ↔ ∃ s, ((c.step .scalar).bind fun c' => between c' b) = some s ∧
      s.Accepts bytes := by
  constructor
  · rintro ⟨-, c', hc', s, hs, hrest⟩
    refine ⟨s, ?_, hrest⟩
    rw [hc']
    exact hs
  · rintro ⟨s, hs, hrest⟩
    obtain ⟨c', hc', hs⟩ := Option.bind_eq_some_iff.mp hs
    refine ⟨fun d hd => ?_, c', hc', s, hs, hrest⟩
    cases hd
    exact hb

theorem isNumberByte_of_advance {s s' : NumberState} {b : UInt8} (h : s.advance b = some s') :
    isNumberByte b = true := by
  by_contra hb
  simp only [isNumberByte, Bool.or_eq_true, decide_eq_true_eq, List.mem_cons, List.not_mem_nil,
    or_false, not_or] at hb
  obtain ⟨hd, hplus, hminus, hdot, he, hE⟩ := hb
  have hz : b ≠ 0x30 := by
    rintro rfl
    exact hd rfl
  cases s <;> simp [NumberState.advance, hd, hplus, hminus, hdot, he, hE, hz] at h

theorem accepts_number {s : NumberState} {c : Config} {bytes : List UInt8} :
    Scan.Accepts ⟨.number s, c⟩ bytes ↔ ∃ more rest, bytes = more ++ rest ∧ s.Ends more ∧
      AfterScalar isNumberByte c rest := by
  induction bytes generalizing s with
  | nil =>
      have hnil : Scan.Accepts ⟨.number s, c⟩ [] ↔ s.final = true ∧ c.step .scalar = some .done := by
        simp [Scan.Accepts, Scan.finish]
      rw [hnil, ← ends_nil, ← afterScalar_nil isNumberByte]
      constructor
      · rintro ⟨hends, hrest⟩
        exact ⟨[], [], rfl, hends, hrest⟩
      · rintro ⟨more, rest, h, hends, hrest⟩
        obtain ⟨rfl, rfl⟩ := List.append_eq_nil_iff.mp h.symm
        exact ⟨hends, hrest⟩
  | cons b bytes ih =>
      by_cases hb : isNumberByte b = true
      · have hstep : Scan.step ⟨.number s, c⟩ b = (s.advance b).map fun s' => ⟨.number s', c⟩ :=
          if_pos hb
        constructor
        · rintro ⟨t, ht, hrest⟩
          rw [hstep] at ht
          obtain ⟨s', hs', rfl⟩ := Option.map_eq_some_iff.mp ht
          obtain ⟨more, rest, rfl, hends, hrest⟩ := ih.mp hrest
          exact ⟨b :: more, rest, rfl, ends_cons.mpr ⟨s', hs', hends⟩, hrest⟩
        · rintro ⟨more, rest, h, hends, hrest⟩
          cases more with
          | nil =>
              cases h
              rw [hrest.1 b rfl] at hb
              cases hb
          | cons d more =>
              cases h
              obtain ⟨s', hs', hends⟩ := ends_cons.mp hends
              refine ⟨⟨.number s', c⟩, ?_, ih.mpr ⟨more, rest, rfl, hends, hrest⟩⟩
              rw [hstep, hs']
              rfl
      · rw [Bool.not_eq_true] at hb
        constructor
        · rintro ⟨t, ht, hrest⟩
          simp only [Scan.step, hb, Bool.false_eq_true, if_false] at ht
          split at ht
          · rename_i hf
            exact ⟨[], b :: bytes, rfl, ends_nil.mpr hf, (afterScalar_cons hb).mpr ⟨t, ht, hrest⟩⟩
          · cases ht
        · rintro ⟨more, rest, h, hends, hrest⟩
          cases more with
          | nil =>
              cases h
              obtain ⟨t, ht, hrest⟩ := (afterScalar_cons hb).mp hrest
              refine ⟨t, ?_, hrest⟩
              simpa only [Scan.step, hb, Bool.false_eq_true, if_false, ends_nil.mp hends, if_true]
          | cons d more =>
              cases h
              obtain ⟨s', hs', -⟩ := ends_cons.mp hends
              rw [isNumberByte_of_advance hs'] at hb
              cases hb

theorem words_lower {word : List UInt8} (h : word ∈ words) :
    word.length ≤ 5 ∧ ∀ b ∈ word, isLower b = true := by
  simp only [words, List.mem_cons, List.not_mem_nil, or_false] at h
  rcases h with rfl | rfl | rfl <;> exact ⟨by decide, List.all_eq_true.mp rfl⟩

theorem accepts_literal {letters : List UInt8} {c : Config} {bytes : List UInt8} :
    Scan.Accepts ⟨.literal letters, c⟩ bytes ↔ ∃ more rest, bytes = more ++ rest ∧
      letters ++ more ∈ words ∧ AfterScalar isLower c rest := by
  induction bytes generalizing letters with
  | nil =>
      have hnil : Scan.Accepts ⟨.literal letters, c⟩ [] ↔
          letters ∈ words ∧ c.step .scalar = some .done := by
        simp [Scan.Accepts, Scan.finish]
      rw [hnil, ← afterScalar_nil isLower]
      constructor
      · rintro ⟨hword, hrest⟩
        exact ⟨[], [], rfl, by rwa [List.append_nil], hrest⟩
      · rintro ⟨more, rest, h, hword, hrest⟩
        obtain ⟨rfl, rfl⟩ := List.append_eq_nil_iff.mp h.symm
        rw [List.append_nil] at hword
        exact ⟨hword, hrest⟩
  | cons b bytes ih =>
      by_cases hb : isLower b = true
      · constructor
        · rintro ⟨t, ht, hrest⟩
          simp only [Scan.step, hb, if_true] at ht
          split at ht
          · cases ht
            obtain ⟨more, rest, rfl, hword, hrest⟩ := ih.mp hrest
            exact ⟨b :: more, rest, rfl, by rwa [List.append_cons], hrest⟩
          · cases ht
        · rintro ⟨more, rest, h, hword, hrest⟩
          cases more with
          | nil =>
              cases h
              rw [hrest.1 b rfl] at hb
              cases hb
          | cons d more =>
              cases h
              have hlen := (words_lower hword).1
              rw [List.length_append, List.length_cons] at hlen
              rw [List.append_cons] at hword
              refine ⟨⟨.literal (letters ++ [b]), c⟩, ?_, ih.mpr ⟨more, rest, rfl, hword, hrest⟩⟩
              simp only [Scan.step, hb, if_true]
              exact if_pos (by omega)
      · rw [Bool.not_eq_true] at hb
        constructor
        · rintro ⟨t, ht, hrest⟩
          simp only [Scan.step, hb, Bool.false_eq_true, if_false] at ht
          split at ht
          · rename_i hword
            refine ⟨[], b :: bytes, rfl, ?_, (afterScalar_cons hb).mpr ⟨t, ht, hrest⟩⟩
            rwa [List.append_nil]
          · cases ht
        · rintro ⟨more, rest, h, hword, hrest⟩
          cases more with
          | nil =>
              cases h
              obtain ⟨t, ht, hrest⟩ := (afterScalar_cons hb).mp hrest
              rw [List.append_nil] at hword
              refine ⟨t, ?_, hrest⟩
              simpa only [Scan.step, hb, Bool.false_eq_true, if_false, hword, if_true]
          | cons d more =>
              cases h
              rw [(words_lower hword).2 b (by simp)] at hb
              cases hb

/-! ## Texts -/

theorem between_space {c : Config} {b : UInt8} (h : isSpace b = true) :
    between c b = some ⟨.normal, c⟩ := if_pos h

theorem scan_space {c : Config} {b : UInt8} {bytes : List UInt8} (h : isSpace b = true) :
    Scan.Accepts ⟨.normal, c⟩ (b :: bytes) ↔ Scan.Accepts ⟨.normal, c⟩ bytes :=
  scan_cons (s := ⟨.normal, c⟩) (between_space h)

theorem between_quote {c : Config} : between c 0x22 = some ⟨.string .clean, c⟩ := rfl

theorem start_space {b : UInt8} (h : isSpace b = true) : NumberState.start b = none := by
  simp only [isSpace, Bool.or_eq_true, decide_eq_true_eq] at h
  rcases h with ((rfl | rfl) | rfl) | rfl <;> decide

theorem between_number {c : Config} {b : UInt8} {s : NumberState}
    (h : NumberState.start b = some s) : between c b = some ⟨.number s, c⟩ := by
  have hspace : isSpace b ≠ true := by
    intro hs
    rw [start_space hs] at h
    cases h
  have hquote : b ≠ 0x22 := by
    rintro rfl
    cases h
  rw [between, if_neg hspace, if_neg hquote, h]

theorem between_letter {c : Config} {b : UInt8} (h : b ∈ [0x74, 0x66, 0x6E]) :
    between c b = some ⟨.literal [b], c⟩ := by
  simp only [List.mem_cons, List.not_mem_nil, or_false] at h
  rcases h with rfl | rfl | rfl <;> rfl

theorem between_punctuation {c : Config} {b : UInt8} {t : Token} (h : punctuation b = some t) :
    between c b = (c.step t).map fun c' => ⟨.normal, c'⟩ := by
  unfold punctuation at h
  repeat' split at h
  all_goals cases h
  all_goals
    subst b
    rfl

/-- The bytes of a punctuation mark are its lexeme. -/
theorem punctuation_lexeme {b : UInt8} {t : Token} (h : punctuation b = some t) :
    Lexeme t [b] := by
  unfold punctuation at h
  repeat' split at h
  all_goals cases h
  all_goals
    subst b
    rfl

/-- A scalar is followed by the end of its container, a comma or the end of the text. -/
theorem stops_after_scalar {c c' : Config} {bytes : List UInt8} {ts : List Token}
    (hc : c.step .scalar = some c') (h : Lexes bytes ts) (hts : c'.Accepts ts) :
    Stops isNumberByte bytes ∧ Stops isLower bytes := by
  obtain ⟨outer, rfl⟩ : ∃ outer, c' = .complete outer := by
    cases c with
    | done => cases hc
    | «at» p below => cases p <;> cases hc <;> exact ⟨_, rfl⟩
  cases h with
  | nil => exact ⟨by simp [Stops], by simp [Stops]⟩
  | space hb _ =>
      simp only [isSpace, Bool.or_eq_true, decide_eq_true_eq] at hb
      simp only [Stops, List.head?_cons, Option.some.injEq, forall_eq']
      rcases hb with ((rfl | rfl) | rfl) | rfl <;> decide
  | token ht _ =>
      obtain ⟨c', hstep, -⟩ := hts
      have hhead : ∀ {d : UInt8} {rest : List UInt8}, (isNumberByte d = false ∧ isLower d = false) →
          Stops isNumberByte ([d] ++ rest) ∧ Stops isLower ([d] ++ rest) := by
        rintro d rest ⟨hn, hl⟩
        simp [Stops, hn, hl]
      rcases step_complete hstep with rfl | rfl | rfl <;> obtain rfl := ht <;>
        exact hhead (by decide)

theorem between_cases {c : Config} {b : UInt8} {s : Scan} (h : between c b = some s) :
    (isSpace b = true ∧ s = ⟨.normal, c⟩) ∨ (b = 0x22 ∧ s = ⟨.string .clean, c⟩) ∨
      (∃ n, NumberState.start b = some n ∧ s = ⟨.number n, c⟩) ∨ s = ⟨.literal [b], c⟩ ∨
      ∃ t c', punctuation b = some t ∧ c.step t = some c' ∧ s = ⟨.normal, c'⟩ := by
  unfold between at h
  split at h
  · rename_i hb
    cases h
    exact .inl ⟨hb, rfl⟩
  · split at h
    · rename_i hb
      cases h
      exact .inr (.inl ⟨hb, rfl⟩)
    · split at h
      · rename_i n hn
        cases h
        exact .inr (.inr (.inl ⟨n, hn, rfl⟩))
      · split at h
        · cases h
          exact .inr (.inr (.inr (.inl rfl)))
        · obtain ⟨t, ht, h⟩ := Option.bind_eq_some_iff.mp h
          obtain ⟨c', hc', rfl⟩ := Option.map_eq_some_iff.mp h
          exact .inr (.inr (.inr (.inr ⟨t, c', ht, hc', rfl⟩)))

/-- A byte and its successors are a lexeme of a token that the automaton takes, with what follows. -/
theorem lexeme_of_scan {b : UInt8} {bytes : List UInt8} {c : Config} (hb : isSpace b ≠ true)
    (h : Scan.Accepts ⟨.normal, c⟩ (b :: bytes)) :
    ∃ t more rest c', bytes = more ++ rest ∧ Lexeme t (b :: more) ∧ c.step t = some c' ∧
      Scan.Accepts ⟨.normal, c'⟩ rest := by
  obtain ⟨s, hs, hrest⟩ := h
  rcases between_cases hs with ⟨hspace, -⟩ | ⟨rfl, rfl⟩ | ⟨n, hn, rfl⟩ | rfl | ⟨t, c', ht, hc', rfl⟩
  · exact absurd hspace hb
  · obtain ⟨chars, rest, c', rfl, hchars, hc', hrest⟩ := accepts_string.mp hrest
    refine ⟨.string, chars ++ [0x22], rest, c', by simp, ?_, hc', hrest⟩
    exact ⟨chars, chars_iff.mpr hchars, rfl⟩
  · obtain ⟨more, rest, rfl, hends, -, c', hc', hrest⟩ := accepts_number.mp hrest
    exact ⟨.scalar, more, rest, c', rfl, .inl (number_iff.mpr ⟨b, more, n, rfl, hn, hends⟩), hc',
      hrest⟩
  · obtain ⟨more, rest, rfl, hword, -, c', hc', hrest⟩ := accepts_literal.mp hrest
    exact ⟨.scalar, more, rest, c', rfl, .inr hword, hc', hrest⟩
  · exact ⟨t, [], bytes, c', rfl, punctuation_lexeme ht, hc', hrest⟩

theorem lexes_of_scan (n : Nat) {bytes : List UInt8} (hn : bytes.length ≤ n) {c : Config}
    (h : Scan.Accepts ⟨.normal, c⟩ bytes) : ∃ ts, Lexes bytes ts ∧ c.Accepts ts := by
  induction n generalizing bytes c with
  | zero =>
      obtain rfl := List.length_eq_zero_iff.mp (Nat.le_zero.mp hn)
      obtain rfl : c = .done := of_decide_eq_true h
      exact ⟨[], .nil, rfl⟩
  | succ n ih =>
      cases bytes with
      | nil =>
          obtain rfl : c = .done := of_decide_eq_true h
          exact ⟨[], .nil, rfl⟩
      | cons b bytes =>
          have hshort : bytes.length ≤ n := Nat.le_of_succ_le_succ hn
          by_cases hb : isSpace b = true
          · obtain ⟨ts, hts, hacc⟩ := ih hshort ((scan_space hb).mp h)
            exact ⟨ts, .space hb hts, hacc⟩
          · obtain ⟨t, more, rest, c', rfl, ht, hc', hrest⟩ := lexeme_of_scan hb h
            rw [List.length_append] at hshort
            obtain ⟨ts, hts, hacc⟩ := ih (by omega) hrest
            exact ⟨t :: ts, .token ht hts, c', hc', hacc⟩

theorem scan_of_lexes {bytes : List UInt8} {ts : List Token} (h : Lexes bytes ts) {c : Config}
    (hc : c.Accepts ts) : Scan.Accepts ⟨.normal, c⟩ bytes := by
  induction h generalizing c with
  | nil =>
      cases hc
      rfl
  | space hb _ ih => exact (scan_space hb).mpr (ih hc)
  | @token t lexeme bytes ts ht hrest ih =>
      obtain ⟨c', hc', hts⟩ := hc
      have haccepts := ih hts
      have hmark : ∀ {d : UInt8}, punctuation d = some t →
          Scan.Accepts ⟨.normal, c⟩ ([d] ++ bytes) := by
        intro d hd
        refine ⟨⟨.normal, c'⟩, ?_, haccepts⟩
        exact (between_punctuation hd).trans (by rw [hc']; rfl)
      cases t with
      | string =>
          obtain ⟨chars, hchars, rfl⟩ := ht
          refine ⟨_, between_quote, accepts_string.mpr ?_⟩
          exact ⟨chars, bytes, c', by simp, chars_iff.mp hchars, hc', haccepts⟩
      | scalar =>
          obtain ⟨hnumber, hlower⟩ := stops_after_scalar hc' hrest hts
          rcases ht with hnum | hword
          · obtain ⟨b, more, n, rfl, hn, hends⟩ := number_iff.mp hnum
            refine ⟨_, between_number hn, accepts_number.mpr ?_⟩
            exact ⟨more, bytes, rfl, hends, hnumber, c', hc', haccepts⟩
          · have hfirst : ∃ b more, lexeme = b :: more ∧ b ∈ [0x74, 0x66, 0x6E] := by
              simp only [words, List.mem_cons, List.not_mem_nil, or_false] at hword
              rcases hword with rfl | rfl | rfl <;> exact ⟨_, _, rfl, by decide⟩
            obtain ⟨b, more, rfl, hb⟩ := hfirst
            refine ⟨_, between_letter hb, accepts_literal.mpr ?_⟩
            exact ⟨more, bytes, rfl, hword, hlower, c', hc', haccepts⟩
      | startMap => obtain rfl := ht; exact hmark rfl
      | endMap => obtain rfl := ht; exact hmark rfl
      | startArray => obtain rfl := ht; exact hmark rfl
      | endArray => obtain rfl := ht; exact hmark rfl
      | colon => obtain rfl := ht; exact hmark rfl
      | comma => obtain rfl := ht; exact hmark rfl

/-- The scanner accepts exactly the texts of the grammar. -/
theorem scan_iff_text {bytes : List UInt8} :
    Scan.Accepts ⟨.normal, .at .root []⟩ bytes ↔ Text bytes := by
  rw [text_iff_lexes]
  constructor
  · intro h
    obtain ⟨ts, hts, hacc⟩ := lexes_of_scan bytes.length (Nat.le_refl _) h
    exact ⟨ts, hts, accepts_root_iff.mp hacc⟩
  · rintro ⟨ts, hts, hv⟩
    exact scan_of_lexes hts (accepts_root_iff.mpr hv)

end Avibe.Json
