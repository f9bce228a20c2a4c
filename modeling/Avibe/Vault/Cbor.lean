import Avibe.Lib.Bytes
import Avibe.Lib.Checked
import Mathlib.Data.List.Forall2

/-!
# The CBOR reader

`decode` reads one item from the front of the bytes that are left, as `_CborReader.decode`
does. It calls itself for what an item holds; `room` is how many such calls the stack of the
interpreter still has room for.

`Encodes` says which bytes are one item, and `Faulty` which bytes make the reader raise
something else than its own error: a text that is not UTF-8, a map with an array or a map as
a key, and items nested deeper than the stack has room for.
-/

namespace Avibe.Vault

open Bytes Checked

/-- What the verification can raise. -/
inductive Exn where
  /-- `WebAuthnVerificationError` -/
  | verification (message : String)
  | attributeError
  | typeError
  | unicodeDecodeError
  | valueError
  | recursionError
  deriving DecidableEq, Repr

/-- The error that the callers handle. -/
def Exn.Own : Exn → Prop
  | .verification _ => True
  | _ => False

/-- A decoded value that Python can hash. -/
inductive Scalar where
  | int (value : Int)
  | bytes (value : List UInt8)
  | text (value : List Char)
  | bool (value : Bool)
  | null
  deriving DecidableEq, Repr

inductive Cbor where
  | scalar (value : Scalar)
  | array (items : List Cbor)
  | map (entries : List (Scalar × Cbor))
  deriving Repr

/-- Equality of keys; `True` is `1` and `False` is `0`. -/
def Scalar.same : Scalar → Scalar → Bool
  | .int a, .bool b => a = b.toInt
  | .bool a, .int b => a.toInt = b
  | a, b => a = b

/-- A value that can be a key. -/
def Cbor.key? : Cbor → Option Scalar
  | .scalar s => some s
  | _ => none

/-- `dict.__setitem__`; a key that is there keeps its place. -/
def dictSet : List (Scalar × Cbor) → Scalar → Cbor → List (Scalar × Cbor)
  | [], key, value => [(key, value)]
  | (k, v) :: rest, key, value =>
      if k.same key then (k, value) :: rest else (k, v) :: dictSet rest key value

/-- `dict.get` -/
def dictGet (entries : List (Scalar × Cbor)) (key : Scalar) : Option Cbor :=
  (entries.find? fun e => e.1.same key).map Prod.snd

/-- `bytes.decode("utf-8")` -/
def decodeText (bytes : List UInt8) : Option (List Char) :=
  bytes.toByteArray.utf8Decode?.map Array.toList

/-- `int.from_bytes(_, "big")` -/
def ofBig (bytes : List UInt8) : Nat := ofLittle bytes.reverse

section Reader

/-- `_read` -/
def read (length : Nat) (data : List UInt8) : Except Exn (List UInt8 × List UInt8) :=
  if data.length < length then .error (.verification "truncated CBOR value")
  else .ok (data.take length, data.drop length)

/-- `_read_byte` -/
def readByte : List UInt8 → Except Exn (UInt8 × List UInt8)
  | [] => .error (.verification "truncated CBOR value")
  | byte :: rest => .ok (byte, rest)

/-- `_read_uint` -/
def readUint (add : Nat) (data : List UInt8) : Except Exn (Nat × List UInt8) :=
  if add < 24 then .ok (add, data)
  else if add = 24 then do
    let (byte, rest) ← readByte data
    .ok (byte.toNat, rest)
  else if add = 25 then do
    let (bytes, rest) ← read 2 data
    .ok (ofBig bytes, rest)
  else if add = 26 then do
    let (bytes, rest) ← read 4 data
    .ok (ofBig bytes, rest)
  else if add = 27 then do
    let (bytes, rest) ← read 8 data
    .ok (ofBig bytes, rest)
  else .error (.verification "indefinite CBOR values are not supported")

variable (item : List UInt8 → Except Exn (Cbor × List UInt8))

/-- The items of an array. -/
def readItems : Nat → List UInt8 → Except Exn (List Cbor × List UInt8)
  | 0, data => .ok ([], data)
  | n + 1, data => do
      let (value, rest) ← item data
      let (values, rest) ← readItems n rest
      .ok (value :: values, rest)

/-- The entries of a map; a key is hashed once its value is read. -/
def readEntries : Nat → List (Scalar × Cbor) → List UInt8 →
    Except Exn (List (Scalar × Cbor) × List UInt8)
  | 0, entries, data => .ok (entries, data)
  | n + 1, entries, data => do
      let (key, rest) ← item data
      let (value, rest) ← item rest
      match key.key? with
      | none => .error .typeError
      | some key => readEntries n (dictSet entries key value) rest

/-- What follows the argument `n` of an item; every major type but the last has one. -/
def readContent (major n : Nat) (data : List UInt8) : Except Exn (Cbor × List UInt8) :=
  match major with
  | 0 => .ok (.scalar (.int n), data)
  | 1 => .ok (.scalar (.int (-1 - n)), data)
  | 2 => do
      let (bytes, rest) ← read n data
      .ok (.scalar (.bytes bytes), rest)
  | 3 => do
      let (bytes, rest) ← read n data
      match decodeText bytes with
      | none => .error .unicodeDecodeError
      | some text => .ok (.scalar (.text text), rest)
  | 4 => do
      let (items, rest) ← readItems item n data
      .ok (.array items, rest)
  | 5 => do
      let (entries, rest) ← readEntries item n [] data
      .ok (.map entries, rest)
  | _ => item data

/-- The values of the last major type. -/
def simpleValue (add : Nat) : Except Exn Cbor :=
  if add = 20 then .ok (.scalar (.bool false))
  else if add = 21 then .ok (.scalar (.bool true))
  else if add = 22 then .ok (.scalar .null)
  else .error (.verification "unsupported CBOR simple value")

end Reader

/-- `_CborReader.decode`; the second part is what the reader has not read. -/
def decode : Nat → List UInt8 → Except Exn (Cbor × List UInt8)
  | 0, _ => .error .recursionError
  | room + 1, data => do
      let (initial, rest) ← readByte data
      let major := initial.toNat / 32
      let add := initial.toNat % 32
      if major = 7 then do
        let value ← simpleValue add
        .ok (value, rest)
      else do
        let (n, rest) ← readUint add rest
        readContent (decode room) major n rest

/-- `_cbor_decode` -/
def cborDecode (room : Nat) (data : List UInt8) : Except Exn Cbor := do
  let (value, rest) ← decode room data
  if rest ≠ [] then .error (.verification "trailing CBOR bytes") else .ok value

/-- `_cbor_decode_first` -/
def cborDecodeFirst (room : Nat) (data : List UInt8) : Except Exn Cbor := do
  let (value, _) ← decode room data
  .ok value

/-! ## What the bytes of an item are -/

/-- The bytes after the initial one that give the argument `n`. -/
def Argument (add : Nat) (arg : List UInt8) (n : Nat) : Prop :=
  (add < 24 ∧ arg = [] ∧ n = add) ∨
    (24 ≤ add ∧ add ≤ 27 ∧ arg.length = 2 ^ (add - 24) ∧ n = ofBig arg)

/-- The first bytes of an item of a major type, with its argument. -/
def Head (major : Nat) (head : List UInt8) (n : Nat) : Prop :=
  ∃ initial arg, head = initial :: arg ∧ initial.toNat / 32 = major ∧
    Argument (initial.toNat % 32) arg n

/-- The dictionary of these entries, set one after another. -/
def dictOf (entries : List (Scalar × Cbor)) : List (Scalar × Cbor) :=
  entries.foldl (fun dict e => dictSet dict e.1 e.2) []

/-- The bytes of the entries of a map. -/
def joined (parts : List (List UInt8 × List UInt8)) : List UInt8 :=
  (parts.map fun part => part.1 ++ part.2).flatten

section Series

/-- The parts are the items, given what the bytes of one item are. -/
abbrev Series (R : List UInt8 → Cbor → Prop) (parts : List (List UInt8)) (items : List Cbor) :
    Prop :=
  List.Forall₂ R parts items

/-- The parts are the keys and values. -/
abbrev Pairs (R : List UInt8 → Cbor → Prop) (parts : List (List UInt8 × List UInt8))
    (entries : List (Scalar × Cbor)) : Prop :=
  List.Forall₂ (fun part e => R part.1 (.scalar e.1) ∧ R part.2 e.2) parts entries

end Series

section Content

variable (R : List UInt8 → Cbor → Prop) (F : List UInt8 → Prop)

/-- The bytes after the head of an item. -/
def Content (major n : Nat) (body : List UInt8) (value : Cbor) : Prop :=
  match major with
  | 0 => body = [] ∧ value = .scalar (.int n)
  | 1 => body = [] ∧ value = .scalar (.int (-1 - n))
  | 2 => body.length = n ∧ value = .scalar (.bytes body)
  | 3 => body.length = n ∧ ∃ text, decodeText body = some text ∧ value = .scalar (.text text)
  | 4 => ∃ parts items, body = parts.flatten ∧ parts.length = n ∧ Series R parts items ∧
      value = .array items
  | 5 => ∃ parts entries, body = joined parts ∧ parts.length = n ∧ Pairs R parts entries ∧
      value = .map (dictOf entries)
  | _ => R body value

/-- Reading these bytes after a head comes to something the reader does not handle. -/
def FaultyContent (major n : Nat) (data : List UInt8) : Prop :=
  match major with
  | 0 | 1 | 2 => False
  | 3 => ∃ s rest, data = s ++ rest ∧ s.length = n ∧ decodeText s = none
  | 4 => ∃ parts items rest, data = parts.flatten ++ rest ∧ parts.length < n ∧
      Series R parts items ∧ F rest
  | 5 => ∃ parts entries rest, data = joined parts ++ rest ∧ parts.length < n ∧
      Pairs R parts entries ∧
      (F rest ∨ ∃ key k rest', rest = key ++ rest' ∧ R key k ∧
        (F rest' ∨ k.key? = none ∧ ∃ value v rest'', rest' = value ++ rest'' ∧ R value v))
  | _ => F data

end Content

/-- The bytes are one item, with at most `room` items inside one another. -/
def Encodes : Nat → List UInt8 → Cbor → Prop
  | 0, _, _ => False
  | room + 1, bytes, value =>
      (∃ major head n body, major < 7 ∧ bytes = head ++ body ∧ Head major head n ∧
        Content (Encodes room) major n body value) ∨
      (bytes = [0xF4] ∧ value = .scalar (.bool false)) ∨
      (bytes = [0xF5] ∧ value = .scalar (.bool true)) ∨
      (bytes = [0xF6] ∧ value = .scalar .null)

/-- Reading these bytes comes to a text that is not UTF-8, to an entry whose key is an array or a
map, or to an item that the stack has no room for. -/
def Faulty : Nat → List UInt8 → Prop
  | 0, _ => True
  | room + 1, data => ∃ major head n rest, major < 7 ∧ data = head ++ rest ∧ Head major head n ∧
      FaultyContent (Encodes room) (Faulty room) major n rest

end Avibe.Vault
