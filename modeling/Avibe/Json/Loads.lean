import Avibe.Json.Numbers
import Avibe.Json.Strings

/-!
# `json.loads` on one lexeme

What the parser asks of `json.loads`: the value of a string or of a number whose
bytes it has kept. A text is a list of code points, since an escape may name half of
a surrogate pair.
-/

namespace Avibe.Json

/-- A Python string. -/
abbrev PyStr := List Nat

/-- The values a scalar can have; a number with a fraction or an exponent keeps its literal. -/
inductive PyValue where
  | none
  | bool (value : Bool)
  | int (value : Int)
  | float (literal : List UInt8)
  | str (value : PyStr)
  deriving DecidableEq, Repr

/-! ## Strings -/

def hexValue (b : UInt8) : Option Nat :=
  if isDigit b then some (b.toNat - 0x30)
  else if 0x61 ≤ b ∧ b ≤ 0x66 then some (b.toNat - 0x61 + 10)
  else if 0x41 ≤ b ∧ b ≤ 0x46 then some (b.toNat - 0x41 + 10)
  else none

/-- The value of the four digits of a `\u` escape. -/
def decodeUXXXX : List UInt8 → Option (Nat × List UInt8)
  | a :: b :: c :: d :: rest => do
      let a ← hexValue a
      let b ← hexValue b
      let c ← hexValue c
      let d ← hexValue d
      some (((a * 16 + b) * 16 + c) * 16 + d, rest)
  | _ => none

/-- The character that a letter after a backslash stands for. -/
def backslash (b : UInt8) : Option Nat :=
  if b = 0x22 ∨ b = 0x5C ∨ b = 0x2F then some b.toNat
  else if b = 0x62 then some 8
  else if b = 0x66 then some 12
  else if b = 0x6E then some 10
  else if b = 0x72 then some 13
  else if b = 0x74 then some 9
  else none

/-- A `\u` escape; two halves of a surrogate pair are one character. -/
def unicodeEscape (bytes : List UInt8) : Option (Nat × List UInt8) := do
  let (uni, rest) ← decodeUXXXX bytes
  if 0xD800 ≤ uni ∧ uni ≤ 0xDBFF then
    match rest with
    | 0x5C :: 0x75 :: more =>
        let (uni2, rest2) ← decodeUXXXX more
        if 0xDC00 ≤ uni2 ∧ uni2 ≤ 0xDFFF then
          some (0x10000 + (uni - 0xD800) * 0x400 + (uni2 - 0xDC00), rest2)
        else some (uni, rest)
    | _ => some (uni, rest)
  else some (uni, rest)

/-- The payload of a byte sequence that is decoded with `surrogatepass`. -/
def decodeUtf8 : List UInt8 → Option (Nat × List UInt8)
  | [] => none
  | a :: rest =>
      match Utf8.lead a, rest with
      | .ascii, rest => some (a.toNat, rest)
      | .two, b :: rest =>
          if Utf8.isContinuation b then some (a.toNat % 0x20 * 0x40 + Utf8.bits b, rest) else none
      | .three low high, b :: c :: rest =>
          if (Utf8.within low high b || (a = 0xED && Utf8.isContinuation b)) &&
              Utf8.isContinuation c then
            some ((a.toNat % 0x10 * 0x40 + Utf8.bits b) * 0x40 + Utf8.bits c, rest)
          else none
      | .four low high, b :: c :: d :: rest =>
          if Utf8.within low high b && Utf8.isContinuation c && Utf8.isContinuation d then
            some (((a.toNat % 0x08 * 0x40 + Utf8.bits b) * 0x40 + Utf8.bits c) * 0x40 +
              Utf8.bits d, rest)
          else none
      | _, _ => none

/-- The first character of a string. -/
def scanChar : List UInt8 → Option (Nat × List UInt8)
  | [] => none
  | a :: rest =>
      if a = 0x5C then
        match rest with
        | [] => none
        | b :: rest =>
            if b = 0x75 then unicodeEscape rest
            else (backslash b).map fun c => (c, rest)
      else if a = 0x22 ∨ a < 0x20 then none
      else decodeUtf8 (a :: rest)

/-- At most this many characters; every character takes a byte, so the length is enough. -/
def scanChars : Nat → List UInt8 → Option PyStr
  | _, [] => some []
  | 0, _ :: _ => none
  | n + 1, a :: rest => do
      let (c, rest') ← scanChar (a :: rest)
      let cs ← scanChars n rest'
      some (c :: cs)

/-- The string with these bytes between its quotes. -/
def loadsString (raw : List UInt8) : Option PyStr := scanChars raw.length raw

theorem hexValue_isSome {b : UInt8} (h : isHexDigit b = true) : ∃ v, hexValue b = some v := by
  simp only [isHexDigit, Bool.or_eq_true, Bool.and_eq_true, decide_eq_true_eq] at h
  unfold hexValue
  split
  · exact ⟨_, rfl⟩
  · split
    · exact ⟨_, rfl⟩
    · split
      · exact ⟨_, rfl⟩
      · rcases h with (h | h) | h <;> contradiction

theorem decodeUXXXX_isSome {digits : List UInt8} (hlen : digits.length = 4)
    (h : ∀ b ∈ digits, isHexDigit b = true) (rest : List UInt8) :
    ∃ v, decodeUXXXX (digits ++ rest) = some (v, rest) := by
  match digits, hlen with
  | [a, b, c, d], _ =>
      obtain ⟨va, ha⟩ := hexValue_isSome (h a (by simp))
      obtain ⟨vb, hb⟩ := hexValue_isSome (h b (by simp))
      obtain ⟨vc, hc⟩ := hexValue_isSome (h c (by simp))
      obtain ⟨vd, hd⟩ := hexValue_isSome (h d (by simp))
      exact ⟨_, by simp [decodeUXXXX, ha, hb, hc, hd]; rfl⟩

/-- A backslash starts an escape. -/
theorem Chars.backslash {bytes : List UInt8} (h : Chars (0x5C :: bytes)) :
    (∃ b rest, bytes = b :: rest ∧ isEscape b = true ∧ Chars rest) ∨
      ∃ digits rest, bytes = 0x75 :: (digits ++ rest) ∧ digits.length = 4 ∧
        (∀ b ∈ digits, isHexDigit b = true) ∧ Chars rest := by
  generalize hb : 0x5C :: bytes = all at h
  cases h with
  | nil => cases hb
  | unescaped hchar hrest =>
      have hfirst := hchar.1.eq_singleton hb.symm (by decide)
      exact absurd rfl (hchar.2 _ hfirst).2.2
  | escape hesc hrest =>
      cases hb
      exact .inl ⟨_, _, rfl, hesc, hrest⟩
  | unicode hlen hdigits hrest =>
      cases hb
      exact .inr ⟨_, _, rfl, hlen, hdigits, hrest⟩

theorem Chars.unicodeEscape {digits rest : List UInt8} (hlen : digits.length = 4)
    (hdigits : ∀ b ∈ digits, isHexDigit b = true) (hrest : Chars rest) :
    ∃ c rest', Json.unicodeEscape (digits ++ rest) = some (c, rest') ∧ Chars rest' ∧
      rest'.length ≤ rest.length := by
  obtain ⟨uni, huni⟩ := decodeUXXXX_isSome hlen hdigits rest
  have hself : ∃ c rest', some (uni, rest) = some (c, rest') ∧ Chars rest' ∧
      rest'.length ≤ rest.length := ⟨uni, rest, rfl, hrest, Nat.le_refl _⟩
  simp only [Json.unicodeEscape, huni, Option.bind_eq_bind, Option.bind_some]
  split
  · split
    · rename_i more _
      rcases hrest.backslash with ⟨b, rest', h, hesc, -⟩ | ⟨digits', rest', h, hlen', hdig, hchars⟩
      · cases h
        exact absurd rfl (isEscape_lt hesc).2
      · cases h
        obtain ⟨uni2, huni2⟩ := decodeUXXXX_isSome hlen' hdig rest'
        simp only [huni2, Option.bind_some]
        split
        · refine ⟨_, rest', rfl, hchars, ?_⟩
          simp only [List.length_cons, List.length_append]
          omega
        · exact hself
    · exact hself
  · exact hself

theorem backslash_isSome {b : UInt8} (h : isEscape b = true) :
    b ≠ 0x75 ∧ ∃ c, backslash b = some c := by
  refine ⟨(isEscape_lt h).2, ?_⟩
  simp only [isEscape, List.mem_cons, List.not_mem_nil, or_false, decide_eq_true_eq] at h
  rcases h with rfl | rfl | rfl | rfl | rfl | rfl | rfl | rfl <;> exact ⟨_, rfl⟩

theorem decodeUtf8_isSome {char : List UInt8} (h : Utf8.Sequence char) (rest : List UInt8) :
    ∃ c, decodeUtf8 (char ++ rest) = some (c, rest) := by
  cases h with
  | ascii ha => exact ⟨_, by simp [decodeUtf8, ha]; rfl⟩
  | two ha hb => exact ⟨_, by simp [decodeUtf8, ha, hb]; rfl⟩
  | three ha hb hc => exact ⟨_, by simp [decodeUtf8, ha, hb, hc]; rfl⟩
  | four ha hb hc hd => exact ⟨_, by simp [decodeUtf8, ha, hb, hc, hd]; rfl⟩

theorem Chars.scanChar {a : UInt8} {bytes : List UInt8} (h : Chars (a :: bytes)) :
    ∃ c rest, Json.scanChar (a :: bytes) = some (c, rest) ∧ Chars rest ∧
      rest.length ≤ bytes.length := by
  by_cases ha : a = 0x5C
  · subst ha
    rcases h.backslash with ⟨b, rest, rfl, hesc, hrest⟩ | ⟨digits, rest, rfl, hlen, hdig, hrest⟩
    · obtain ⟨hne, c, hc⟩ := backslash_isSome hesc
      exact ⟨c, rest, by simp [Json.scanChar, hne, hc], hrest, Nat.le_succ _⟩
    · obtain ⟨c, rest', hc, hrest', hle⟩ := Chars.unicodeEscape hlen hdig hrest
      refine ⟨c, rest', by simp [Json.scanChar, hc], hrest', ?_⟩
      simp only [List.length_cons, List.length_append]
      omega
  · generalize hb : a :: bytes = all at h
    cases h with
    | nil => cases hb
    | @unescaped char rest hchar hrest =>
        obtain ⟨c, hc⟩ := decodeUtf8_isSome hchar.1 rest
        have hplain : ¬ (a = 0x22 ∨ a < 0x20) := by
          intro hlow
          have hlt : a < 0x80 := by
            rcases hlow with rfl | hlow
            · decide
            · exact UInt8.lt_trans hlow (by decide)
          have hfirst := hchar.1.eq_singleton hb.symm hlt
          obtain ⟨hge, hne, -⟩ := hchar.2 a hfirst
          rcases hlow with hq | hlow
          · exact hne hq
          · exact absurd hge (UInt8.not_le.mpr hlow)
        refine ⟨c, rest, ?_, hrest, ?_⟩
        · rw [← hb] at hc ⊢
          simp only [Json.scanChar, if_neg ha, if_neg hplain]
          exact hc
        · have hpos : 0 < char.length := by
            cases hchar.1 <;> simp
          have hlen := congrArg List.length hb
          rw [List.length_append, List.length_cons] at hlen
          omega
    | escape =>
        cases hb
        exact absurd rfl ha
    | unicode =>
        cases hb
        exact absurd rfl ha

theorem Chars.scanChars {n : Nat} {bytes : List UInt8} (h : Chars bytes) (hn : bytes.length ≤ n) :
    ∃ cs, Json.scanChars n bytes = some cs := by
  induction n generalizing bytes with
  | zero =>
      obtain rfl := List.length_eq_zero_iff.mp (Nat.le_zero.mp hn)
      exact ⟨[], rfl⟩
  | succ n ih =>
      cases bytes with
      | nil => exact ⟨[], rfl⟩
      | cons a bytes =>
          obtain ⟨c, rest, hc, hrest, hle⟩ := h.scanChar
          obtain ⟨cs, hcs⟩ := ih hrest (Nat.le_trans hle (Nat.le_of_succ_le_succ hn))
          exact ⟨c :: cs, by simp [Json.scanChars, hc, hcs]⟩

/-- `json.loads` takes every string of the grammar. -/
theorem Chars.loads {raw : List UInt8} (h : Chars raw) : ∃ value, loadsString raw = some value :=
  h.scanChars (Nat.le_refl _)

/-! ## Numbers -/

/-- The digits at the front. -/
def spanDigits (bytes : List UInt8) : List UInt8 × List UInt8 := (bytes.takeWhile isDigit, bytes.dropWhile isDigit)

/-- The integer part. -/
def matchInt : List UInt8 → Option (List UInt8 × List UInt8)
  | [] => none
  | a :: rest =>
      if a = 0x30 then some ([0x30], rest)
      else if isDigit a then some (spanDigits (a :: rest))
      else none

/-- The bytes after a fraction; a point with no digit after it is left. -/
def matchFrac (bytes : List UInt8) : List UInt8 :=
  match bytes with
  | 0x2E :: d :: rest => if isDigit d then (spanDigits rest).2 else bytes
  | _ => bytes

/-- The bytes after an exponent; an `e` with no digits after it is left. -/
def matchExp (bytes : List UInt8) : List UInt8 :=
  match bytes with
  | [] => []
  | e :: rest =>
      if e = 0x65 ∨ e = 0x45 then
        let unsigned :=
          match rest with
          | 0x2B :: more => more
          | 0x2D :: more => more
          | _ => rest
        match unsigned with
        | d :: more => if isDigit d then (spanDigits more).2 else bytes
        | [] => bytes
      else bytes

def digitsValue (digits : List UInt8) : Nat :=
  digits.foldl (fun n b => n * 10 + (b.toNat - 0x30)) 0

def splitSign (raw : List UInt8) : Bool × List UInt8 :=
  match raw with
  | 0x2D :: rest => (true, rest)
  | _ => (false, raw)

/-- The number with these bytes; other bytes after it are an error. -/
def loadsNumber (raw : List UInt8) : Option PyValue := do
  let (negative, unsigned) := splitSign raw
  let (digits, rest) ← matchInt unsigned
  if matchExp (matchFrac rest) ≠ [] then none
  else if rest = [] then
    some (.int (if negative then -(digitsValue digits : Int) else digitsValue digits))
  else some (.float raw)

theorem spanDigits_append {digits rest : List UInt8} (h : AllDigits digits)
    (hrest : ∀ b, rest.head? = some b → isDigit b = false) :
    spanDigits (digits ++ rest) = (digits, rest) := by
  rw [spanDigits, List.takeWhile_append_of_pos h, List.dropWhile_append_of_pos h]
  cases rest with
  | nil => simp
  | cons b rest => simp [hrest b rfl]

theorem spanDigits_all {digits : List UInt8} (h : AllDigits digits) :
    (spanDigits digits).2 = [] := by
  have := @spanDigits_append digits [] h (by simp)
  rw [List.append_nil] at this
  rw [this]

theorem matchExp_optExp {bytes : List UInt8} (h : OptExp bytes) : matchExp bytes = [] := by
  rcases h with rfl | ⟨e, sign, digits, rfl, he, hsign, hdigits⟩
  · rfl
  · cases digits with
    | nil => exact absurd hdigits not_digits_nil
    | cons d digits =>
        obtain ⟨hd, hall⟩ := digits_cons.mp hdigits
        have hplus := isDigit_ne hd (c := 0x2B) (by decide)
        have hminus := isDigit_ne hd (c := 0x2D) (by decide)
        rcases hsign with rfl | rfl | rfl <;>
          simp [matchExp, he, hd, spanDigits_all hall, hplus, hminus]

theorem optExp_head {bytes : List UInt8} (h : OptExp bytes) (b : UInt8)
    (hb : bytes.head? = some b) : isDigit b = false ∧ b ≠ 0x2E := by
  rcases h with rfl | ⟨e, sign, digits, rfl, he, -⟩
  · cases hb
  · cases hb
    rcases he with rfl | rfl <;> decide

theorem matchFrac_optFrac {frac exp : List UInt8} (h : OptFrac frac) (he : OptExp exp) :
    matchFrac (frac ++ exp) = exp := by
  rcases h with rfl | ⟨digits, rfl, hdigits⟩
  · cases exp with
    | nil => rfl
    | cons b exp =>
        have hne := (optExp_head he b rfl).2
        unfold matchFrac
        split
        · rename_i hb
          cases hb
          exact absurd rfl hne
        · rfl
  · cases digits with
    | nil => exact absurd hdigits not_digits_nil
    | cons d digits =>
        obtain ⟨hd, hall⟩ := digits_cons.mp hdigits
        have hspan := spanDigits_append hall fun b hb => (optExp_head he b hb).1
        simp [matchFrac, hd, hspan]

theorem matchInt_int {int rest : List UInt8} (h : IntPart int)
    (hrest : ∀ b, rest.head? = some b → isDigit b = false) :
    matchInt (int ++ rest) = some (int, rest) := by
  rcases h with rfl | ⟨d, digits, rfl, hd, hne, hall⟩
  · rfl
  · have hspan := spanDigits_append (allDigits_cons.mpr ⟨hd, hall⟩) hrest
    simp only [List.cons_append] at hspan ⊢
    simp [matchInt, hne, hd, hspan]

/-- `json.loads` takes every number of the grammar. -/
theorem Number.loads {raw : List UInt8} (h : Number raw) :
    ∃ value, loadsNumber raw = some value := by
  obtain ⟨minus, int, frac, exp, rfl, hminus, hint, hfrac, hexp⟩ := h
  have hrest : ∀ b, (frac ++ exp).head? = some b → isDigit b = false := by
    intro b hb
    rcases hfrac with rfl | ⟨digits, rfl, -⟩
    · exact (optExp_head hexp b hb).1
    · cases hb
      decide
  have hmatch := matchInt_int hint hrest
  have hend : matchExp (matchFrac (frac ++ exp)) = [] := by
    rw [matchFrac_optFrac hfrac hexp, matchExp_optExp hexp]
  have hsign : splitSign (int ++ (frac ++ exp)) = (false, int ++ (frac ++ exp)) := by
    unfold splitSign
    split
    · rename_i more hmore
      rcases hint with rfl | ⟨d, digits, rfl, hd, -⟩
      · cases hmore
      · cases hmore
        cases hd
    · rfl
  rcases hminus with rfl | rfl
  · simp only [List.nil_append, loadsNumber, hsign, hmatch, Option.bind_eq_bind, Option.bind_some,
      hend, ne_eq, not_true_eq_false, if_false]
    split <;> exact ⟨_, rfl⟩
  · simp only [loadsNumber, List.singleton_append, splitSign, hmatch, Option.bind_eq_bind,
      Option.bind_some, hend, ne_eq, not_true_eq_false, if_false]
    split <;> exact ⟨_, rfl⟩

end Avibe.Json
