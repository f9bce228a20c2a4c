import Avibe.Json.Scanner
import Avibe.Json.Visits

/-!
# The selective parser

`SelectiveJSONParser`: bytes are read in one of four modes, at first behind an
optional byte order mark, and every lexeme is handed to `Visits.accept`. Strings and
numbers that are too long are not kept, unless the path of a string is lossless.
-/

namespace Avibe.Json

def stringTokenBytes : Nat := 16 * 1024

def numberTokenBytes : Nat := 128

def utf8Bom : List UInt8 := [0xEF, 0xBB, 0xBF]

inductive LexMode where
  | normal
  | string
  | number
  | literal
  deriving DecidableEq, Repr

/-- `SelectiveJSONParser` -/
structure Parser extends Visits where
  losslessStringPaths : List Path
  rootPrefix : List UInt8
  rootStarted : Bool
  mode : LexMode
  string : List UInt8
  stringTooLong : Bool
  stringLossless : Bool
  escaped : Bool
  unicodeEscapeDigits : Nat
  stringDecoder : List UInt8
  number : List UInt8
  numberTooLong : Bool
  numberState : NumberState
  literal : List UInt8

namespace Parser

/-- `__init__` -/
def new (paths losslessStringPaths : List Path) : Parser :=
  { root := pathTree paths, stack := [], rootState := .value, skip := .empty, invalid := false,
    events := [], losslessStringPaths := paths.filter fun path => path ∈ losslessStringPaths,
    rootPrefix := [], rootStarted := false, mode := .normal, string := [], stringTooLong := false,
    stringLossless := false, escaped := false, unicodeEscapeDigits := 0, stringDecoder := [],
    number := [], numberTooLong := false, numberState := .unset, literal := [] }

/-- `valid` -/
def valid (p : Parser) : Bool :=
  !p.invalid && p.rootState = .done && p.stack.isEmpty && p.skip.depth = 0 && p.mode = .normal

/-- `next_value_path` -/
def nextValuePath (p : Parser) : Option Path :=
  if p.invalid ∨ p.skip.depth ≠ 0 ∨ p.mode ≠ .normal then none
  else
    match p.stack with
    | [] => if p.rootState = .value then some [] else none
    | frame :: _ =>
        match frame.kind, frame.state, frame.key with
        | .map, .value, some key =>
            if (frame.node.child key).isSome then some (frame.path ++ [key]) else none
        | .array, .valueOrEnd, _ | .array, .value, _ =>
            if (frame.node.child star).isSome then some (frame.path ++ [star]) else none
        | _, _, _ => none

def failed (p : Parser) : Parser := { p with invalid := true }

/-- `_accept` -/
def accepted (p : Parser) (token : Lexed) (value : PyValue) : Parser :=
  { p with toVisits := p.toVisits.accept token value }

/-- `_retain_string_bytes` -/
def retainStringBytes (p : Parser) (payload : List UInt8) : Parser :=
  if p.stringLossless then { p with string := p.string ++ payload }
  else
    let remaining := stringTokenBytes - p.string.length
    { p with
      string := p.string ++ payload.take remaining
      stringTooLong := if remaining < payload.length then true else p.stringTooLong }

/-- The closing quote of a string. -/
def finishString (p : Parser) : Parser :=
  if p.stringDecoder ≠ [] then p.failed
  else
    let raw := p.string
    let q := { p with mode := .normal, string := [] }
    if p.stringTooLong then q.accepted .stringElided .none
    else
      match loadsString raw with
      | some value => q.accepted .string (.str value)
      | none => q.failed

/-- The decoder takes a byte of a string, which is kept. -/
def decodeStringByte (p : Parser) (byte : UInt8) : Parser :=
  match Utf8.feed p.stringDecoder byte with
  | some pending => retainStringBytes { p with stringDecoder := pending } [byte]
  | none => p.failed

/-- `_feed_string` -/
def feedString (p : Parser) (byte : UInt8) : Parser :=
  if p.unicodeEscapeDigits ≠ 0 then
    if !isHexDigit byte then p.failed
    else decodeStringByte { p with unicodeEscapeDigits := p.unicodeEscapeDigits - 1 } byte
  else if p.escaped then
    if !(isEscape byte || byte = 0x75) then p.failed
    else
      let p := { p with escaped := false }
      decodeStringByte (if byte = 0x75 then { p with unicodeEscapeDigits := 4 } else p) byte
  else if byte = 0x5C then decodeStringByte { p with escaped := true } byte
  else if byte = 0x22 then p.finishString
  else if byte < 0x20 then p.failed
  else p.decodeStringByte byte

/-- `_finish_number` -/
def finishNumber (p : Parser) : Parser :=
  let raw := p.number
  let q := { p with mode := .normal, number := [] }
  if !p.numberState.final then q.failed
  else if p.numberTooLong then q.accepted .scalar .none
  else
    match loadsNumber raw with
    | some value => q.accepted .scalar value
    | none => q.failed

/-- `_finish_literal` -/
def finishLiteral (p : Parser) : Parser :=
  let raw := p.literal
  let q := { p with mode := .normal, literal := [] }
  if raw = trueBytes then q.accepted .scalar (.bool true)
  else if raw = falseBytes then q.accepted .scalar (.bool false)
  else if raw = nullBytes then q.accepted .scalar .none
  else q.failed

/-- The token of a punctuation mark. -/
def punctuationToken (byte : UInt8) : Option Lexed :=
  if byte = 0x7B then some .startMap
  else if byte = 0x7D then some .endMap
  else if byte = 0x5B then some .startArray
  else if byte = 0x5D then some .endArray
  else if byte = 0x3A then some .colon
  else if byte = 0x2C then some .comma
  else none

/-- `_feed_started_byte` in the mode `normal`. -/
def feedNormalByte (p : Parser) (byte : UInt8) : Parser :=
  if isSpace byte then p
  else if byte = 0x22 then
    { p with
      stringLossless := p.nextValuePath.any fun path => path ∈ p.losslessStringPaths
      mode := .string
      string := []
      stringTooLong := false
      escaped := false
      unicodeEscapeDigits := 0
      stringDecoder := [] }
  else if byte = 0x2D ∨ isDigit byte then
    { p with
      mode := .number
      number := [byte]
      numberTooLong := false
      numberState := if byte = 0x2D then .sign else if byte = 0x30 then .zero else .int }
  else if byte ∈ [0x74, 0x66, 0x6E] then { p with mode := .literal, literal := [byte] }
  else
    match punctuationToken byte with
    | none => p.failed
    | some token => p.accepted token .none

/-- `_feed_started_byte`; the byte after a number or a literal is fed once more, in the mode
`normal`. -/
def feedStartedByte (p : Parser) (byte : UInt8) : Parser :=
  if p.invalid then p
  else
    match p.mode with
    | .string => p.feedString byte
    | .number =>
        if isNumberByte byte then
          match p.numberState.advance byte with
          | none => p.failed
          | some state =>
              let p := { p with numberState := state }
              if p.number.length < numberTokenBytes then { p with number := p.number ++ [byte] }
              else { p with numberTooLong := true }
        else
          let p := p.finishNumber
          if p.invalid then p else p.feedNormalByte byte
    | .literal =>
        if isLower byte then
          if p.literal.length < falseBytes.length then { p with literal := p.literal ++ [byte] }
          else p.failed
        else
          let p := p.finishLiteral
          if p.invalid then p else p.feedNormalByte byte
    | .normal => p.feedNormalByte byte

/-- `feed_byte` -/
def feedByte (p : Parser) (byte : UInt8) : Parser :=
  if p.invalid then p
  else if !p.rootStarted then
    let head := p.rootPrefix ++ [byte]
    if head.length < utf8Bom.length ∧ head <+: utf8Bom then { p with rootPrefix := head }
    else
      let p := { p with rootStarted := true, rootPrefix := [] }
      let head := if utf8Bom <+: head then head.drop utf8Bom.length else head
      head.foldl feedStartedByte p
  else p.feedStartedByte byte

/-- `_JSON_STRING_SPECIAL` -/
def isStringSpecial (byte : UInt8) : Bool :=
  byte = 0x22 || byte = 0x5C || byte < 0x20 || 0x80 ≤ byte

theorem length_dropWhile_special (chunk : List UInt8) :
    (chunk.dropWhile fun b => !isStringSpecial b).length ≤ chunk.length :=
  (List.dropWhile_sublist _).length_le

/-- `_feed_string_chunk`: the bytes of the chunk that are left. -/
def feedStringChunk (p : Parser) (chunk : List UInt8) : Parser × List UInt8 :=
  match chunk with
  | [] => (p, [])
  | byte :: rest =>
      if p.mode ≠ .string ∨ p.invalid then (p, byte :: rest)
      else if p.escaped ∨ p.unicodeEscapeDigits ≠ 0 ∨ p.stringDecoder ≠ [] then
        feedStringChunk (p.feedString byte) rest
      else
        let run := (byte :: rest).takeWhile fun b => !isStringSpecial b
        let p := if run ≠ [] then p.retainStringBytes run else p
        match h : (byte :: rest).dropWhile fun b => !isStringSpecial b with
        | [] => (p, [])
        | special :: rest' => feedStringChunk (p.feedString special) rest'
termination_by chunk.length
decreasing_by
  · simp
  · have hlen := length_dropWhile_special (byte :: rest)
    rw [h] at hlen
    simp only [List.length_cons] at hlen ⊢
    omega

theorem feedStringChunk_length (p : Parser) (chunk : List UInt8) :
    (p.feedStringChunk chunk).2.length ≤ chunk.length := by
  induction p, chunk using feedStringChunk.induct with
  | case1 p => simp [feedStringChunk]
  | case2 p byte rest h =>
      rw [feedStringChunk, if_pos h]
  | case3 p byte rest h h' ih =>
      rw [feedStringChunk, if_neg h, if_pos h']
      exact Nat.le_succ_of_le ih
  | case4 p byte rest h h' hnil =>
      rw [feedStringChunk, if_neg h, if_neg h']
      split
      · exact Nat.zero_le _
      · rename_i hcons
        cases hnil.symm.trans hcons
  | case5 p byte rest h h' run p' special rest' hcons ih =>
      rw [feedStringChunk, if_neg h, if_neg h']
      have hlen := length_dropWhile_special (byte :: rest)
      split
      · exact Nat.zero_le _
      · rename_i hcons'
        cases hcons.symm.trans hcons'
        rw [hcons] at hlen
        exact Nat.le_trans ih (Nat.le_of_succ_le hlen)

/-- In a string a chunk loses at least one byte. -/
theorem feedStringChunk_length_lt {p : Parser} {byte : UInt8} {rest : List UInt8}
    (hm : p.mode = .string) (hv : ¬ p.invalid = true) :
    (p.feedStringChunk (byte :: rest)).2.length < (byte :: rest).length := by
  have hgo : ¬ (p.mode ≠ .string ∨ p.invalid = true) := by simp [hm, hv]
  rw [feedStringChunk, if_neg hgo]
  split
  · exact Nat.lt_succ_of_le (feedStringChunk_length _ _)
  · have hlen := length_dropWhile_special (byte :: rest)
    split
    · exact Nat.zero_lt_succ _
    · rename_i hcons
      rw [hcons] at hlen
      exact Nat.lt_of_lt_of_le (Nat.lt_succ_of_le (feedStringChunk_length _ _)) hlen

/-- `feed` -/
def feed (p : Parser) (chunk : List UInt8) : Parser :=
  match chunk with
  | [] => p
  | byte :: rest =>
      if _ : p.invalid then p
      else if !p.rootStarted then feed (p.feedByte byte) rest
      else if _ : p.mode = .string then
        feed (p.feedStringChunk (byte :: rest)).1 (p.feedStringChunk (byte :: rest)).2
      else feed (p.feedStartedByte byte) rest
termination_by chunk.length
decreasing_by
  · simp
  · exact feedStringChunk_length_lt (by assumption) (by assumption)
  · simp

/-- `finish`: the answer, and the parser that it leaves. -/
def finish (p : Parser) : Bool × Parser :=
  let p :=
    match p.mode with
    | .number => p.finishNumber
    | .literal => p.finishLiteral
    | .string => p.failed
    | .normal => p
  (p.valid, p)

/-- The parser after the chunks, one call of `feed` for each. -/
def feedAll (p : Parser) (chunks : List (List UInt8)) : Parser := chunks.foldl feed p

end Parser

end Avibe.Json
