import Avibe.Lib.LineSplit
import Avibe.Lib.Matchers
import Avibe.Lib.Utf8

/-!
# Normalizing command output

The output of a command is decoded, its escape sequences are taken out, and of a line that carriage returns redraw
the last segment that shows something is kept. A line that is not over yet keeps at most the last `maxOpenChars`
characters of a segment, and the number of bytes dropped before them.

Several lines that one chunk completes take a shorter way (`finishFast`), unless one of them is longer than the
bound.
-/

namespace Avibe.Normalizer

open Texts Matchers

/-! ## Escape sequences -/

def esc : CodePoint := 0x1b

def bell : CodePoint := 0x07

/-- `[0-?]` -/
def isParameter (c : CodePoint) : Bool := 0x30 ≤ c && c ≤ 0x3f

/-- A space up to a solidus. -/
def isIntermediate (c : CodePoint) : Bool := 0x20 ≤ c && c ≤ 0x2f

/-- `[@-~]` -/
def isControlFinal (c : CodePoint) : Bool := 0x40 ≤ c && c ≤ 0x7e

/-- `[0-~]` -/
def isEscapeFinal (c : CodePoint) : Bool := 0x30 ≤ c && c ≤ 0x7e

/-- `[^\x1b\n\r]` -/
def isStringChar (c : CodePoint) : Bool := c != esc && c != lineFeed && c != carriageReturn

/-- `\x1b\\` -/
def stringEnd : Matcher CodePoint := one (· == esc) (one (· == 0x5c) done)

/-- An operating system command up to BEL or the end of the string. -/
def systemCommand : Matcher CodePoint :=
  one (· == esc) (one (· == 0x5d)
    (many (fun c => c != bell && isStringChar c) (orElse (one (· == bell) done) stringEnd)))

/-- A device control string, a privacy message or an application command. -/
def deviceString : Matcher CodePoint :=
  one (· == esc) (one (fun c => c == 0x50 || c == 0x5e || c == 0x5f) (many isStringChar stringEnd))

/-- The parameters, intermediates and final of a control sequence. -/
def controlBody : Matcher CodePoint := many isParameter (many isIntermediate (one isControlFinal done))

def controlSequence : Matcher CodePoint := one (· == esc) (one (· == 0x5b) controlBody)

def otherEscape : Matcher CodePoint := one (· == esc) (many isIntermediate (one isEscapeFinal done))

/-- A control sequence whose introducer is one character. -/
def controlSequence8 : Matcher CodePoint := one (· == 0x9b) controlBody

/-- The patterns, in the order they are tried. -/
def ansi : Matcher CodePoint :=
  orElse systemCommand (orElse deviceString (orElse controlSequence (orElse otherEscape controlSequence8)))

def stripAnsi (t : Text) : Text := (dropMatches ansi t).filter (· != esc)

/-! ## The open line -/

def maxOpenChars : Nat := 64 * 1024

/-- What is kept of a segment, and the bytes dropped from its start. -/
structure Kept where
  text : Text
  dropped : Nat
  deriving DecidableEq

def Kept.empty : Kept := ⟨[], 0⟩

def bounded (segment : Kept) : Kept :=
  if segment.text.length ≤ maxOpenChars then segment
  else
    let cut := segment.text.length - maxOpenChars
    ⟨segment.text.drop cut, segment.dropped + utf8Len (segment.text.take cut)⟩

/-- The last closed segment that shows something, and the segment after the last carriage return. -/
structure OpenLine where
  prev : Kept
  cur : Kept
  deriving DecidableEq

def OpenLine.empty : OpenLine := ⟨Kept.empty, Kept.empty⟩

/-- The segment shows something. -/
def shows (t : Text) : Bool := stripAnsi t != []

/-- How a segment reads, and its size; `none` when it shows nothing. -/
def Kept.read (segment : Kept) : Option (Text × Nat) :=
  let visible := stripAnsi segment.text
  if visible = [] then none
  else
    let text :=
      if segment.dropped = 0 then visible
      else lit "[... " ++ lit (toString segment.dropped) ++ lit " bytes omitted ...]" ++ visible
    some (text, segment.dropped + utf8Len visible)

def lineAndSize (line : OpenLine) : Text × Nat := (line.cur.read.or line.prev.read).getD ([], 0)

/-- The segments of the open line after more text. The first goes on with what is kept. -/
def segments (cur : Kept) (text : Text) : List Kept :=
  match (cur.text ++ text).splitOn carriageReturn with
  | [] => []
  | first :: rest => ⟨first, cur.dropped⟩ :: rest.map fun segment => ⟨segment, 0⟩

def openSegments (line : OpenLine) (text : Text) : OpenLine :=
  let pieces := segments line.cur text
  { prev := ((pieces.dropLast.reverse.find? fun piece => shows piece.text).map bounded).getD line.prev
    cur := bounded (pieces.getLast?.getD line.cur) }

/-! ## Lines -/

structure OutputNormalizer where
  /-- The bytes of a character that is not whole yet. -/
  held : List UInt8
  carryCr : Bool
  line : OpenLine
  finishedLineBytes : Nat
  deriving DecidableEq

def OutputNormalizer.init : OutputNormalizer := ⟨[], false, OpenLine.empty, 0⟩

/-- The line without one carriage return at its end. -/
def dropReturn (line : Text) : Text :=
  if line.getLast? = some carriageReturn then line.dropLast else line

def finishLine (s : OutputNormalizer) (line : Text) : OutputNormalizer × Text :=
  let r := lineAndSize (openSegments s.line (dropReturn line))
  ({ s with line := OpenLine.empty, finishedLineBytes := r.2 }, r.1 ++ [lineFeed])

def finishLines (s : OutputNormalizer) : List Text → OutputNormalizer × Text
  | [] => (s, [])
  | line :: lines =>
      let r := finishLine s line
      let r' := finishLines r.1 lines
      (r'.1, r.2 ++ r'.2)

/-- Of each line what is after its last carriage return, those at its end aside. -/
def collapse (visible : Text) : Text :=
  if carriageReturn ∈ visible then
    joined ((visible.splitOn lineFeed).map fun line =>
      (line.rdropWhile (· == carriageReturn)).rtakeWhile (· != carriageReturn))
  else visible

/-- Whole lines in a few passes over all of them. -/
def finishFast (s : OutputNormalizer) (middle : Text) : OutputNormalizer × Text :=
  let visible := collapse (stripAnsi middle)
  ({ s with finishedLineBytes := utf8Len (visible.rtakeWhile (· != lineFeed)) }, visible ++ [lineFeed])

/-- Whole lines one by one. -/
def finishEach (s : OutputNormalizer) (middle : Text) : OutputNormalizer × Text :=
  finishLines s (middle.splitOn lineFeed)

def hasLongLine (middle : Text) : Bool := (middle.splitOn lineFeed).any fun line => maxOpenChars < line.length

def finishMiddle (s : OutputNormalizer) (middle : Text) : OutputNormalizer × Text :=
  if hasLongLine middle then finishEach s middle else finishFast s middle

/-- Every CRLF as a line feed. -/
def replaceCrLf : Text → Text
  | [] => []
  | c :: rest =>
      if c = carriageReturn ∧ rest.head? = some lineFeed then replaceCrLf rest else c :: replaceCrLf rest

/-- Text that a chunk brings, over the way in which the whole lines after the first are finished. -/
def consumeLines (finish : OutputNormalizer → Text → OutputNormalizer × Text) (s : OutputNormalizer) (text : Text) :
    OutputNormalizer × Text :=
  match text.splitOn lineFeed with
  | [] => (s, [])
  | [tail] => ({ s with line := openSegments s.line tail }, [])
  | first :: rest =>
      let r := finishLine s first
      let middle := rest.dropLast
      let r' := if middle = [] then (r.1, []) else finish r.1 (replaceCrLf (joined middle))
      ({ r'.1 with line := openSegments r'.1.line (rest.getLast?.getD []) }, r.2 ++ r'.2)

/-- `_consume`, over the way in which whole lines are finished. -/
def consumeWith (finish : OutputNormalizer → Text → OutputNormalizer × Text) (s : OutputNormalizer) (text : Text) :
    OutputNormalizer × Text :=
  let text := if s.carryCr then carriageReturn :: text else text
  if text = [] then ({ s with carryCr := false }, [])
  else
    -- a carriage return at the end may be the first half of a CRLF, which the next chunk decides
    consumeLines finish { s with carryCr := text.getLast? == some carriageReturn } (dropReturn text)

def consume : OutputNormalizer → Text → OutputNormalizer × Text := consumeWith finishMiddle

/-! ## Chunks -/

def feed (s : OutputNormalizer) (data : List UInt8) : OutputNormalizer × Text :=
  let r := Utf8.decode false (s.held ++ data)
  consume { s with held := r.2 } (r.1.map ofChar)

def flush (s : OutputNormalizer) : OutputNormalizer × Text :=
  let decoded := Utf8.decode true s.held
  let r := consume { s with held := decoded.2 } (decoded.1.map ofChar)
  let s := if r.1.carryCr then { r.1 with carryCr := false, line := openSegments r.1.line [carriageReturn] } else r.1
  let tail := lineAndSize s.line
  ({ s with
      line := OpenLine.empty
      finishedLineBytes := if tail.1 = [] then s.finishedLineBytes else tail.2 }, r.2 ++ tail.1)

def feedAll (s : OutputNormalizer) : List (List UInt8) → OutputNormalizer × Text
  | [] => (s, [])
  | chunk :: chunks =>
      let r := feed s chunk
      let r' := feedAll r.1 chunks
      (r'.1, r.2 ++ r'.2)

/-- What is shown of chunks that are fed one by one, with what closing shows. -/
def normalizeChunks (chunks : List (List UInt8)) : Text :=
  let r := feedAll OutputNormalizer.init chunks
  r.2 ++ (flush r.1).2

def normalizeOutput (data : List UInt8) : Text :=
  let r := feed OutputNormalizer.init data
  r.2 ++ (flush r.1).2

end Avibe.Normalizer
