import Avibe.Json.Loads
import Mathlib.Algebra.Order.Ring.Rat
import Mathlib.Algebra.Order.Field.Rat
import Mathlib.Algebra.Order.Field.Power

/-!
# `json.loads` on a document

The bytes are decoded in the encoding that their first bytes show, and the text is scanned
as the C scanner of the interpreter does. A number with a fraction or an exponent keeps its
literal. `room` is how many containers inside one another the stack has room for, and
`digits` how many digits an integer may have, where zero means any number.
-/

namespace Avibe.Json

/-- What `json.loads` returns. -/
inductive PyJson where
  | null
  | bool (value : Bool)
  | int (value : Int)
  | float (literal : PyStr)
  | str (value : PyStr)
  | list (items : List PyJson)
  | dict (members : List (PyStr × PyJson))
  deriving Repr

inductive LoadsError where
  /-- `json.JSONDecodeError` -/
  | decodeError
  | unicodeDecodeError
  /-- The `ValueError` of an integer with too many digits. -/
  | tooManyDigits
  | recursionError
  deriving DecidableEq, Repr

/-- The code points of a text. -/
def py (s : String) : PyStr := s.toList.map Char.toNat

namespace Document

/-! ## Encodings -/

/-- Code points of at most this many bytes or units, each read by `next`. -/
def decodeAll (next : List UInt8 → Option (Nat × List UInt8)) : Nat → List UInt8 → Option PyStr
  | _, [] => some []
  | 0, _ :: _ => none
  | n + 1, bytes => do
      let (c, rest) ← next bytes
      let cs ← decodeAll next n rest
      some (c :: cs)

def unit16 (big : Bool) (a b : UInt8) : Nat :=
  if big then a.toNat * 0x100 + b.toNat else b.toNat * 0x100 + a.toNat

/-- A code point of UTF-16; half of a surrogate pair passes. -/
def next16 (big : Bool) : List UInt8 → Option (Nat × List UInt8)
  | a :: b :: c :: d :: rest =>
      let high := unit16 big a b
      let low := unit16 big c d
      if 0xD800 ≤ high ∧ high ≤ 0xDBFF ∧ 0xDC00 ≤ low ∧ low ≤ 0xDFFF then
        some (0x10000 + (high - 0xD800) * 0x400 + (low - 0xDC00), rest)
      else some (high, c :: d :: rest)
  | a :: b :: rest => some (unit16 big a b, rest)
  | _ => none

def next32 (big : Bool) : List UInt8 → Option (Nat × List UInt8)
  | a :: b :: c :: d :: rest =>
      let c := if big then unit16 true a b * 0x10000 + unit16 true c d
        else unit16 false c d * 0x10000 + unit16 false a b
      if c ≤ 0x10FFFF then some (c, rest) else none
  | _ => none

/-- `detect_encoding` and `bytes.decode` with the error handler `surrogatepass`. -/
def decodeBytes (bytes : List UInt8) : Option PyStr :=
  let all := fun next bytes => decodeAll next bytes.length bytes
  match bytes with
  | 0x00 :: 0x00 :: 0xFE :: 0xFF :: rest => all (next32 true) rest
  | 0xFF :: 0xFE :: 0x00 :: 0x00 :: rest => all (next32 false) rest
  | 0xFE :: 0xFF :: rest => all (next16 true) rest
  | 0xFF :: 0xFE :: rest => all (next16 false) rest
  | 0xEF :: 0xBB :: 0xBF :: rest => all decodeUtf8 rest
  | a :: b :: c :: d :: _ =>
      if a = 0 then all (if b = 0 then next32 true else next16 true) bytes
      else if b = 0 then all (if c = 0 ∧ d = 0 then next32 false else next16 false) bytes
      else all decodeUtf8 bytes
  | [a, b] =>
      if a = 0 then all (next16 true) bytes
      else if b = 0 then all (next16 false) bytes
      else all decodeUtf8 bytes
  | _ => all decodeUtf8 bytes

/-! ## Scanner -/

def isSpace (c : Nat) : Bool := c = 0x20 || c = 0x09 || c = 0x0A || c = 0x0D

def skipSpace (s : PyStr) : PyStr := s.dropWhile isSpace

def isDigit (c : Nat) : Bool := 0x30 ≤ c && c ≤ 0x39

def hexDigit (c : Nat) : Option Nat :=
  if isDigit c then some (c - 0x30)
  else if 0x61 ≤ c ∧ c ≤ 0x66 then some (c - 0x61 + 10)
  else if 0x41 ≤ c ∧ c ≤ 0x46 then some (c - 0x41 + 10)
  else none

def fourDigits : PyStr → Option (Nat × PyStr)
  | a :: b :: c :: d :: rest => do
      let a ← hexDigit a
      let b ← hexDigit b
      let c ← hexDigit c
      let d ← hexDigit d
      some (((a * 16 + b) * 16 + c) * 16 + d, rest)
  | _ => none

def escape (s : PyStr) : Option (Nat × PyStr) :=
  match s with
  | 0x75 :: rest => do
      let (uni, rest) ← fourDigits rest
      if 0xD800 ≤ uni ∧ uni ≤ 0xDBFF then
        match rest with
        | 0x5C :: 0x75 :: more =>
            let (low, after) ← fourDigits more
            if 0xDC00 ≤ low ∧ low ≤ 0xDFFF then
              some (0x10000 + (uni - 0xD800) * 0x400 + (low - 0xDC00), after)
            else some (uni, rest)
        | _ => some (uni, rest)
      else some (uni, rest)
  | c :: rest =>
      if c = 0x22 ∨ c = 0x5C ∨ c = 0x2F then some (c, rest)
      else if c = 0x62 then some (8, rest)
      else if c = 0x66 then some (12, rest)
      else if c = 0x6E then some (10, rest)
      else if c = 0x72 then some (13, rest)
      else if c = 0x74 then some (9, rest)
      else none
  | [] => none

/-- `scanstring` after the opening quote; a string is no longer than its text. -/
def scanString : Nat → PyStr → Except LoadsError (PyStr × PyStr)
  | 0, _ => .error .decodeError
  | _ + 1, [] => .error .decodeError
  | n + 1, c :: rest =>
      if c = 0x22 then .ok ([], rest)
      else if c = 0x5C then
        match escape rest with
        | none => .error .decodeError
        | some (c, rest) => do
            let (cs, rest) ← scanString n rest
            .ok (c :: cs, rest)
      else if c < 0x20 then .error .decodeError
      else do
        let (cs, rest) ← scanString n rest
        .ok (c :: cs, rest)

/-- The digits in front. -/
def spanDigits (s : PyStr) : PyStr × PyStr := (s.takeWhile isDigit, s.dropWhile isDigit)

def decimal (digits : PyStr) : Nat := digits.foldl (fun n c => n * 10 + (c - 0x30)) 0

/-- The fraction, where a digit follows the point. -/
def matchFraction (s : PyStr) : PyStr × PyStr :=
  match s with
  | 0x2E :: rest =>
      let (digits, after) := spanDigits rest
      if digits = [] then ([], s) else (0x2E :: digits, after)
  | _ => ([], s)

/-- The exponent, where it has a digit. -/
def matchExponent (s : PyStr) : PyStr × PyStr :=
  match s with
  | e :: rest =>
      if e = 0x65 ∨ e = 0x45 then
        let (sign, rest) :=
          match rest with
          | c :: more => if c = 0x2B ∨ c = 0x2D then ([c], more) else ([], rest)
          | [] => ([], rest)
        let (digits, after) := spanDigits rest
        if digits = [] then ([], s) else (e :: (sign ++ digits), after)
      else ([], s)
  | [] => ([], s)

/-- `_match_number_unicode` -/
def scanNumber (limit : Nat) (s : PyStr) : Except LoadsError (PyJson × PyStr) :=
  let (sign, rest) :=
    match s with
    | 0x2D :: rest => ([0x2D], rest)
    | _ => ([], s)
  let (digits, rest) :=
    match rest with
    | 0x30 :: after => ([0x30], after)
    | _ => spanDigits rest
  if digits = [] then .error .decodeError
  else
    let (fraction, rest) := matchFraction rest
    let (exponent, rest) := matchExponent rest
    if fraction ≠ [] ∨ exponent ≠ [] then
      .ok (.float (sign ++ digits ++ fraction ++ exponent), rest)
    else if limit ≠ 0 ∧ limit < digits.length then .error .tooManyDigits
    else .ok (.int (if sign = [] then decimal digits else -decimal digits), rest)

/-- `dict.__setitem__` -/
def setMember : List (PyStr × PyJson) → PyStr → PyJson → List (PyStr × PyJson)
  | [], key, value => [(key, value)]
  | (k, v) :: rest, key, value =>
      if k = key then (k, value) :: rest else (k, v) :: setMember rest key value

section Containers

variable (item : PyStr → Except LoadsError (PyJson × PyStr))

/-- `_parse_array_unicode` after the first bracket and the space behind it. -/
def scanArray : Nat → PyStr → Except LoadsError (List PyJson × PyStr)
  | 0, _ => .error .decodeError
  | n + 1, s => do
      let (value, rest) ← item s
      match skipSpace rest with
      | 0x5D :: rest => .ok ([value], rest)
      | 0x2C :: rest =>
          let (values, rest) ← scanArray n (skipSpace rest)
          .ok (value :: values, rest)
      | _ => .error .decodeError

/-- `_parse_object_unicode` after the first brace and the space behind it. -/
def scanObject : Nat → List (PyStr × PyJson) → PyStr →
    Except LoadsError (List (PyStr × PyJson) × PyStr)
  | 0, _, _ => .error .decodeError
  | n + 1, members, s =>
      match s with
      | 0x22 :: rest => do
          let (key, rest) ← scanString s.length rest
          match skipSpace rest with
          | 0x3A :: rest =>
              let (value, rest) ← item (skipSpace rest)
              let members := setMember members key value
              match skipSpace rest with
              | 0x7D :: rest => .ok (members, rest)
              | 0x2C :: rest => scanObject n members (skipSpace rest)
              | _ => .error .decodeError
          | _ => .error .decodeError
      | _ => .error .decodeError

end Containers

/-- The texts that stand for a value. -/
def literals : List (PyStr × PyJson) :=
  [(py "null", .null), (py "true", .bool true), (py "false", .bool false),
    (py "NaN", .float (py "NaN")), (py "Infinity", .float (py "Infinity")),
    (py "-Infinity", .float (py "-Infinity"))]

/-- `scan_once` -/
def scanOnce (digits : Nat) : Nat → PyStr → Except LoadsError (PyJson × PyStr)
  | room, s =>
      match s with
      | 0x22 :: rest => do
          let (value, rest) ← scanString s.length rest
          .ok (.str value, rest)
      | 0x5B :: rest =>
          match room with
          | 0 => .error .recursionError
          | room + 1 =>
              match skipSpace rest with
              | 0x5D :: rest => .ok (.list [], rest)
              | rest => do
                  let (values, rest) ← scanArray (scanOnce digits room) s.length rest
                  .ok (.list values, rest)
      | 0x7B :: rest =>
          match room with
          | 0 => .error .recursionError
          | room + 1 =>
              match skipSpace rest with
              | 0x7D :: rest => .ok (.dict [], rest)
              | rest => do
                  let (members, rest) ← scanObject (scanOnce digits room) s.length [] rest
                  .ok (.dict members, rest)
      | _ =>
          match literals.find? fun l => l.1.isPrefixOf s with
          | some (text, value) => .ok (value, s.drop text.length)
          | none => scanNumber digits s

end Document

/-- `json.loads` of bytes. -/
def loads (room digits : Nat) (bytes : List UInt8) : Except LoadsError PyJson :=
  match Document.decodeBytes bytes with
  | none => .error .unicodeDecodeError
  | some s => do
      let (value, rest) ← Document.scanOnce digits room (Document.skipSpace s)
      if Document.skipSpace rest = [] then .ok value else .error .decodeError

/-! ## Values -/

/-- The literal is rounded to zero: it is at most half of the least positive double. -/
def isZeroLiteral (literal : PyStr) : Bool :=
  let unsigned := match literal with
    | 0x2D :: rest => rest
    | _ => literal
  let (whole, rest) := Document.spanDigits unsigned
  let (fraction, rest) := Document.matchFraction rest
  let exponent : Int :=
    match rest with
    | _ :: 0x2D :: digits => -Document.decimal digits
    | _ :: 0x2B :: digits => Document.decimal digits
    | _ :: digits => Document.decimal digits
    | [] => 0
  let digits := whole ++ fraction.drop 1
  whole ≠ [] && (Document.decimal digits : ℚ) * 10 ^ (exponent - (fraction.drop 1).length) ≤
    2 ^ (-1075 : Int)

/-- `bool` of a value. -/
def PyJson.truthy : PyJson → Bool
  | .null => false
  | .bool b => b
  | .int n => n ≠ 0
  | .float literal => !isZeroLiteral literal
  | .str s => s ≠ []
  | .list items => !items.isEmpty
  | .dict members => !members.isEmpty

/-- `dict.get` -/
def getMember (members : List (PyStr × PyJson)) (key : String) : Option PyJson :=
  (members.find? fun m => m.1 = py key).map Prod.snd

end Avibe.Json
