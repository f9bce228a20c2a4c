import Avibe.Lib.Checked
import Avibe.Lib.Ip

/-!
# Host literals of a citation

`citations.py` reads and writes the host of an untrusted link the way a browser does. This file
has its readers of IPv4 numbers and of IPv6 literals and its writers.

The pointer of the IPv6 reader is the text that is left after it: `char()` is the head of that
text. The eight pieces are a list that is read and written by index, and an index outside it is an
outcome of its own, `outOfRange`, beside `refused` for `return None`.
-/

namespace Avibe.Citations

open Checked Ip

abbrev Text := List Char

/-- The value of a digit of this radix. -/
def digit? (radix : Nat) (c : Char) : Option Nat := (digitValue? c).filter (· < radix)

/-! ## IPv4 numbers -/

/-- The radix that the start of a part announces, and its digits. -/
def radixOf : Text → Nat × Text
  | '0' :: c :: rest => if c ∈ ['x', 'X'] then (16, rest) else (8, c :: rest)
  | part => (10, part)

/-- `_IPV4_WIDEST` -/
def ipv4Widest (radix : Nat) : Nat := if radix = 10 then 10 else if radix = 16 then 8 else 11

def ipv4TooLarge : Nat := 2 ^ 32

/-- `_ipv4_number` -/
def ipv4Number (part : Text) : Option Nat :=
  if part = [] then none
  else
    let (radix, digits) := radixOf part
    if radix = 16 ∧ digits = [] then some 0
    else if digits.all fun c => (digit? radix c).isSome then
      if ipv4Widest radix < (digits.dropWhile (· == '0')).length then some ipv4TooLarge
      else valueOf? radix digits
    else none

/-- The labels of a host: a dot at its end starts no label. -/
def labels (host : Text) : List Text :=
  let parts := host.splitOn '.'
  if parts.getLast? = some [] ∧ 1 < parts.length then parts.dropLast else parts

/-- `_canonical_host`; the empty text names no host. -/
def canonicalHost (host : Text) : Text :=
  let parts := labels host
  let last := parts.getLast?.getD []
  let endsInNumber := last ≠ [] ∧ (last.all fun c => (digit? 10 c).isSome)
  if ¬ endsInNumber ∧ ipv4Number last = none then host
  else if 4 < parts.length then []
  else
    match parts.mapM ipv4Number with
    | none => []
    | some numbers =>
        let final := numbers.getLast?.getD 0
        if (numbers.dropLast.any fun number => 255 < number) then []
        else if 256 ^ (5 - numbers.length) ≤ final then []
        else
          let address := numbers.dropLast.zipIdx.foldl
            (fun address (number, offset) => address + number * 256 ^ (3 - offset)) final
          ['.'].intercalate
            ([24, 16, 8, 0].map fun shift => Nat.toDigits 10 ((address >>> shift) &&& 0xFF))

/-! ## Reading an IPv6 literal -/

/-- How the reader stops without an address: it refuses the text, or it indexes outside its eight
pieces. -/
inductive Stop
  | refused
  | outOfRange
  deriving DecidableEq, Repr

/-- `address[index]` -/
def load (address : List Nat) (index : Nat) : Except Stop Nat := found address[index]? .outOfRange

/-- `address[index] = value` -/
def store (address : List Nat) (index value : Nat) : Except Stop (List Nat) := do
  require (index < address.length) .outOfRange
  return address.set index value

/-- The loop over the hexadecimal digits of a piece: its value, its length and what is left. -/
def readPiece (value length : Nat) : Text → Nat × Nat × Text
  | [] => (value, length, [])
  | c :: rest =>
      if length < 4 then
        match digit? 16 c with
        | some d => readPiece (value * 0x10 + d) (length + 1) rest
        | none => (value, length, c :: rest)
      else (value, length, c :: rest)

/-- The loop over the digits of one number of a dotted tail. -/
def readOctet (piece : Option Nat) : Text → Except Stop (Option Nat × Text)
  | [] => .ok (piece, [])
  | c :: rest =>
      match digit? 10 c with
      | none => .ok (piece, c :: rest)
      | some number =>
          match piece with
          | none => if 255 < number then .error .refused else readOctet (some number) rest
          | some 0 => .error .refused
          | some value =>
              if 255 < value * 10 + number then .error .refused
              else readOctet (some (value * 10 + number)) rest

/-- The variables of the loop over a dotted tail. -/
structure Dotted where
  rest : Text
  address : List Nat
  index : Nat
  seen : Nat

/-- The separator before a number: none before the first. -/
def Dotted.skipDot (s : Dotted) : Except Stop Text :=
  if 0 < s.seen then
    match s.rest with
    | '.' :: rest => if s.seen < 4 then .ok rest else .error .refused
    | _ => .error .refused
  else .ok s.rest

def Dotted.put (s : Dotted) (rest : Text) (value : Nat) : Except Stop Dotted := do
  let old ← load s.address s.index
  let address ← store s.address s.index (old * 0x100 + value)
  let seen := s.seen + 1
  return { rest, address, seen, index := if seen = 2 ∨ seen = 4 then s.index + 1 else s.index }

/-- The body of the loop over a dotted tail. -/
def Dotted.step (s : Dotted) : Except Stop Dotted := do
  let rest ← s.skipDot
  require ((rest.head?.bind (digit? 10)).isSome) .refused
  let (piece, rest) ← readOctet none rest
  s.put rest (piece.getD 0)

theorem readOctet_length {piece p : Option Nat} {t rest : Text}
    (h : readOctet piece t = .ok (p, rest)) : rest.length ≤ t.length := by
  induction t generalizing piece with
  | nil =>
      cases h
      exact Nat.le_refl _
  | cons c t ih =>
      rw [readOctet] at h
      repeat' split at h
      all_goals
        first
        | (cases h; done)
        | (cases h; exact Nat.le_refl _)
        | exact Nat.le_succ_of_le (ih h)

theorem Dotted.skipDot_length {s : Dotted} {rest : Text} (h : s.skipDot = .ok rest) :
    rest.length ≤ s.rest.length := by
  unfold Dotted.skipDot at h
  split at h
  · split at h
    · rename_i r hr
      split at h
      · cases h
        rw [hr]
        exact Nat.le_succ _
      · cases h
    · cases h
  · cases h
    exact Nat.le_refl _

/-- A round of the loop reads at least one character. -/
theorem Dotted.step_length {s t : Dotted} (h : s.step = .ok t) : t.rest.length < s.rest.length := by
  obtain ⟨rest, hskip, h⟩ := bind_ok h
  obtain ⟨hdigit, h⟩ := require_bind_ok h
  obtain ⟨⟨piece, left⟩, hread, h⟩ := bind_ok h
  obtain ⟨old, -, h⟩ := bind_ok h
  obtain ⟨address, -, h⟩ := bind_ok h
  obtain rfl := pure_ok h
  have hle := Dotted.skipDot_length hskip
  cases rest with
  | nil => simp at hdigit
  | cons c rest =>
      refine Nat.lt_of_lt_of_le ?_ hle
      rw [readOctet] at hread
      obtain ⟨d, hd⟩ := Option.isSome_iff_exists.mp hdigit
      change digit? 10 c = some d at hd
      rw [hd] at hread
      dsimp only at hread
      split at hread
      · cases hread
      · exact Nat.lt_succ_of_le (readOctet_length hread)

/-- The loop over a dotted tail, to the end of the text. -/
def Dotted.loop (s : Dotted) : Except Stop Dotted :=
  if s.rest = [] then .ok s
  else
    match h : s.step with
    | .error e => .error e
    | .ok t => t.loop
termination_by s.rest.length
decreasing_by exact Dotted.step_length h

/-- The variables of `_parse_ipv6`. -/
structure Parse where
  rest : Text
  address : List Nat := List.replicate 8 0
  index : Nat := 0
  compress : Option Nat := none

/-- The separator after a piece: a colon with something after it, or the end of the text. -/
def skipColon : Text → Except Stop Text
  | ':' :: rest => if rest = [] then .error .refused else .ok rest
  | [] => .ok []
  | _ => .error .refused

/-- The body of the main loop. After a dotted tail nothing is left of the text, so the `break`
there and the loop's own condition agree. -/
def Parse.step (s : Parse) : Except Stop Parse := do
  require (s.index ≠ 8) .refused
  if s.rest.head? = some ':' then
    require (s.compress = none) .refused
    return { s with rest := s.rest.tail, index := s.index + 1, compress := some (s.index + 1) }
  else
    let (value, length, rest) := readPiece 0 0 s.rest
    if rest.head? = some '.' then
      require (¬ (length = 0 ∨ 6 < s.index)) .refused
      let tail ← Dotted.loop ⟨s.rest, s.address, s.index, 0⟩
      require (tail.seen = 4) .refused
      return { s with rest := tail.rest, address := tail.address, index := tail.index }
    else
      let rest ← skipColon rest
      let address ← store s.address s.index value
      return { s with rest, address, index := s.index + 1 }

theorem readPiece_length (value length : Nat) (t : Text) :
    (readPiece value length t).2.2.length ≤ t.length := by
  induction t generalizing value length with
  | nil => exact Nat.le_refl _
  | cons c t ih =>
      rw [readPiece]
      split
      · split
        · exact Nat.le_succ_of_le (ih _ _)
        · exact Nat.le_refl _
      · exact Nat.le_refl _

theorem Dotted.loop_rest {s t : Dotted} (h : s.loop = .ok t) : t.rest = [] := by
  fun_induction Dotted.loop s with
  | case1 s hrest =>
      cases h
      exact hrest
  | case2 s hrest e hstep => cases h
  | case3 s hrest t' hstep ih => exact ih h

theorem skipColon_ok {t rest : Text} (h : skipColon t = .ok rest) :
    (t = ':' :: rest ∧ rest ≠ []) ∨ (t = [] ∧ rest = []) := by
  unfold skipColon at h
  split at h
  · split at h
    · cases h
    · rename_i hne
      cases h
      exact .inl ⟨rfl, hne⟩
  · cases h
    exact .inr ⟨rfl, rfl⟩
  · cases h

/-- A round of the main loop reads at least one character. -/
theorem Parse.step_length {s t : Parse} (hrest : s.rest ≠ []) (h : s.step = .ok t) :
    t.rest.length < s.rest.length := by
  have hpos : 0 < s.rest.length := List.length_pos_iff.mpr hrest
  obtain ⟨-, h⟩ := require_bind_ok h
  split at h
  · obtain ⟨-, h⟩ := require_bind_ok h
    obtain rfl := pure_ok h
    rw [List.length_tail]
    omega
  · dsimp only at h
    split at h
    · obtain ⟨-, h⟩ := require_bind_ok h
      obtain ⟨tail, htail, h⟩ := bind_ok h
      obtain ⟨-, h⟩ := require_bind_ok h
      obtain rfl := pure_ok h
      rw [Dotted.loop_rest htail]
      exact hpos
    · obtain ⟨rest, hskip, h⟩ := bind_ok h
      obtain ⟨address, -, h⟩ := bind_ok h
      obtain rfl := pure_ok h
      have hle := readPiece_length 0 0 s.rest
      rcases skipColon_ok hskip with ⟨hcolon, -⟩ | ⟨-, hnil⟩
      · rw [hcolon] at hle
        exact hle
      · rw [hnil]
        exact hpos

/-- The main loop of `_parse_ipv6`, to the end of the text. -/
def Parse.loop (s : Parse) : Except Stop Parse :=
  if hrest : s.rest = [] then .ok s
  else
    match h : s.step with
    | .error e => .error e
    | .ok t => t.loop
termination_by s.rest.length
decreasing_by exact Parse.step_length hrest h

/-- The loop that moves the pieces after the elision to the end, the last one first. -/
def swapLoop (compress : Nat) (address : List Nat) (index : Nat) : Nat → Except Stop (List Nat)
  | 0 => .ok address
  | swaps + 1 =>
      if index = 0 then .ok address
      else do
        let low ← load address (compress + swaps)
        let high ← load address index
        let address ← store address index low
        let address ← store address (compress + swaps) high
        swapLoop compress address (index - 1) swaps

/-- What `_parse_ipv6` does after its main loop. -/
def Parse.finish (s : Parse) : Except Stop (List Nat) :=
  match s.compress with
  | some compress => swapLoop compress s.address 7 (s.index - compress)
  | none => if s.index = 8 then .ok s.address else .error .refused

/-- What `_parse_ipv6` does before its main loop. -/
def Parse.start : Text → Except Stop Parse
  | ':' :: ':' :: rest => .ok { rest, index := 1, compress := some 1 }
  | ':' :: _ => .error .refused
  | value => .ok { rest := value }

/-- `_parse_ipv6` -/
def parseIpv6 (value : Text) : Except Stop (List Nat) := do
  let s ← Parse.start value
  let s ← s.loop
  s.finish

/-! ## Writing an IPv6 literal -/

/-- The variables of the search for the longest run of zero pieces. -/
structure Run where
  compress : Option Nat := none
  bestLength : Nat := 1
  runStart : Option Nat := none
  runLength : Nat := 0

def Run.step (s : Run) (piece index : Nat) : Run :=
  if piece ≠ 0 then { s with runStart := none, runLength := 0 }
  else
    let start := s.runStart.getD index
    let length := s.runLength + 1
    if s.bestLength < length then
      { compress := some start, bestLength := length, runStart := some start, runLength := length }
    else { s with runStart := some start, runLength := length }

/-- The start of the first of the longest runs of at least two zero pieces. -/
def compressOf (address : List Nat) : Option Nat :=
  (address.zipIdx.foldl (fun s p => s.step p.1 p.2) ({} : Run)).compress

/-- The variables of the loop that writes the pieces. -/
structure Written where
  out : Text := []
  ignoreZero : Bool := false

def Written.step (compress : Option Nat) (s : Written) (piece index : Nat) : Written :=
  if s.ignoreZero ∧ piece = 0 then s
  else if compress = some index then
    { out := s.out ++ (if index = 0 then [':', ':'] else [':']), ignoreZero := true }
  else
    { out := s.out ++ Nat.toDigits 16 piece ++ (if index ≠ 7 then [':'] else [])
      ignoreZero := false }

/-- `_serialize_ipv6`, of a list of eight pieces. -/
def serializeIpv6 (address : List Nat) : Text :=
  (address.zipIdx.foldl (fun s p => s.step (compressOf address) p.1 p.2) ({} : Written)).out

end Avibe.Citations
