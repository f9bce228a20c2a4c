import Avibe.Lib.Utf8

/-!
# The incremental event-stream parser

`SSEParser` keeps the text it has not cut into lines yet in `buffer`. `feed`
decodes a chunk, cuts every complete line off the buffer and applies it to the
pending event; `finish` flushes the last, unterminated line. A carriage return
at the end of the buffer may be the first half of a CRLF pair, so `takeLine`
waits for the next chunk there.

Python's `str.isdigit` and `int` are parameters: a digit string that `int`
refuses raises `ValueError`, and nothing else about them matters here.
-/

namespace Avibe.Sse

/-- A Python string, as the sequence of its code points. -/
abbrev Text := List Char

/-- One dispatched event. -/
structure SSEEvent where
  data : Text
  event : Option Text
  eventId : Option Text
  retry : Option Nat
  deriving DecidableEq, Repr

/-- The exceptions a parser raises: the two forms of `SSEParseError`, and the
`ValueError` of `int`. -/
inductive SSEError where
  | pendingLine
  | pendingEvent
  | intValue
  deriving DecidableEq, Repr

/-- The stream is rejected for exceeding a size limit. -/
def SSEError.isLimit : SSEError → Bool
  | .pendingLine => true
  | .pendingEvent => true
  | .intValue => false

/-- The two size limits, which the constructor requires to be positive, and
the digit rules of the host language. -/
structure Rules where
  maxLineSize : Nat
  maxEventSize : Nat
  maxLineSize_pos : 0 < maxLineSize
  maxEventSize_pos : 0 < maxEventSize
  isDigit : Text → Bool
  int : Text → Option Nat

/-- The pending event: what the field lines since the last dispatch set. -/
structure Fields where
  data : List Text
  dataSize : Nat
  event : Option Text
  eventId : Option Text
  retry : Option Nat
  deriving DecidableEq, Repr

def Fields.init : Fields := ⟨[], 0, none, none, none⟩

structure SSEParser where
  buffer : Text
  /-- The bytes the incremental decoder has not decoded yet. -/
  undecoded : List UInt8
  fields : Fields
  atStreamStart : Bool
  lineStart : Nat
  scanPosition : Nat
  deriving DecidableEq, Repr

def SSEParser.init : SSEParser := ⟨[], [], Fields.init, true, 0, 0⟩

def isLineEnd (c : Char) : Bool := c = '\r' || c = '\n'

/-- The first line end at or after `position`. -/
def searchLineEnd (buffer : Text) (position : Nat) : Option Nat :=
  ((buffer.drop position).findIdx? isLineEnd).map (· + position)

/-- The next complete line, or `none` when the buffer holds none. -/
def takeLine (p : SSEParser) : SSEParser × Option Text :=
  match searchLineEnd p.buffer p.scanPosition with
  | none => ({ p with scanPosition := p.buffer.length }, none)
  | some index =>
      if p.buffer[index]? = some '\r' ∧ index + 1 = p.buffer.length then
        ({ p with scanPosition := index }, none)
      else
        let next :=
          if p.buffer[index]? = some '\r' ∧ p.buffer[index + 1]? = some '\n' then
            index + 2
          else index + 1
        ({ p with lineStart := next, scanPosition := next },
          some ((p.buffer.take index).drop p.lineStart))

def compactBuffer (p : SSEParser) : SSEParser :=
  if p.lineStart ≠ 0 then
    { p with buffer := p.buffer.drop p.lineStart, lineStart := 0, scanPosition := 0 }
  else p

section Rules

variable (R : Rules)

def checkLineSize (line : Text) : Except SSEError Unit :=
  if line.length > R.maxLineSize then .error .pendingLine else .ok ()

def checkPendingLineSize (p : SSEParser) : Except SSEError Unit :=
  if p.buffer.length - p.lineStart > R.maxLineSize then .error .pendingLine else .ok ()

/-- The field name and the value of a line. -/
def splitField (line : Text) : Text × Text :=
  if ':' ∈ line then
    let value := (line.dropWhile (· ≠ ':')).drop 1
    (line.takeWhile (· ≠ ':'), if value.head? = some ' ' then value.drop 1 else value)
  else (line, [])

def parseLine (f : Fields) (line : Text) : Except SSEError Fields :=
  if line.head? = some ':' then .ok f
  else
    let (field, value) := splitField line
    if field = "data".toList then
      let newSize := f.dataSize + value.length + (if f.data = [] then 0 else 1)
      if newSize > R.maxEventSize then .error .pendingEvent
      else .ok { f with data := f.data ++ [value], dataSize := newSize }
    else if field = "event".toList then .ok { f with event := some value }
    else if field = "id".toList ∧ '\x00' ∉ value then .ok { f with eventId := some value }
    else if field = "retry".toList ∧ R.isDigit value then
      match R.int value with
      | none => .error .intValue
      | some n => .ok { f with retry := some n }
    else .ok f

def dispatch (f : Fields) : Fields × Option SSEEvent :=
  if f.data = [] then ({ f with event := none, retry := none }, none)
  else
    ({ f with data := [], dataSize := 0, event := none, retry := none },
      some ⟨['\n'].intercalate f.data, f.event, f.eventId, f.retry⟩)

/-- One line of the stream: a blank line dispatches, any other is checked and
parsed. -/
def applyLine (f : Fields) (line : Text) : Except SSEError (Fields × List SSEEvent) :=
  if line = [] then
    let (f', event) := dispatch f
    .ok (f', event.toList)
  else do
    checkLineSize R line
    let f' ← parseLine R f line
    return (f', [])

/-- The loop that cuts lines off the buffer. `fuel` bounds the lines it takes. -/
def drain : Nat → SSEParser → Except SSEError (SSEParser × List SSEEvent)
  | 0, p => .ok (p, [])
  | fuel + 1, p =>
      match takeLine p with
      | (p', none) => .ok (p', [])
      | (p', some line) => do
          let (f', events) ← applyLine R p'.fields line
          let (p'', later) ← drain fuel { p' with fields := f' }
          return (p'', events ++ later)

/-- A byte or text chunk. -/
inductive Chunk where
  | bytes (b : List UInt8)
  | text (t : Text)

/-- The incremental decoder: the bytes it holds back and the text it returns. A
text chunk first flushes the bytes held back. -/
def decodeRaw (undecoded : List UInt8) : Chunk → List UInt8 × Text
  | .bytes b => ((Utf8.decode false (undecoded ++ b)).2, (Utf8.decode false (undecoded ++ b)).1)
  | .text t =>
      if undecoded = [] then ([], t) else ([], (Utf8.decode true undecoded).1 ++ t)

/-- The text less one byte order mark at its start. -/
def stripBom (t : Text) : Text :=
  if t.head? = some '\uFEFF' then t.drop 1 else t

/-- The text of a chunk, less a byte order mark at the start of the stream. -/
def decodeChunk (p : SSEParser) (chunk : Chunk) : SSEParser × Text :=
  let r := decodeRaw p.undecoded chunk
  if p.atStreamStart ∧ r.2 ≠ [] then
    ({ p with undecoded := r.1, atStreamStart := false }, stripBom r.2)
  else ({ p with undecoded := r.1 }, r.2)

/-- Consume a chunk and return the events it completes. -/
def feed (p : SSEParser) (chunk : Chunk) : Except SSEError (SSEParser × List SSEEvent) := do
  let (p, text) := decodeChunk p chunk
  if text = [] then return (p, [])
  let p := { p with buffer := p.buffer ++ text }
  let (p, events) ← drain R (p.buffer.length + 1) p
  let p := compactBuffer p
  checkPendingLineSize R p
  return (p, events)

/-- Flush the last, unterminated line and the pending event. -/
def finish (p : SSEParser) : Except SSEError (SSEParser × List SSEEvent) := do
  let tail := (Utf8.decode true p.undecoded).1
  let p := { p with buffer := p.buffer ++ tail, undecoded := [] }
  let (p, events) ← drain R (p.buffer.length + 1) p
  let p := compactBuffer p
  let p ←
    if p.buffer = [] then pure p
    else do
      checkPendingLineSize R p
      let line := if p.buffer.getLast? = some '\r' then p.buffer.dropLast else p.buffer
      let f ← parseLine R p.fields line
      pure { p with fields := f, buffer := [], lineStart := 0, scanPosition := 0 }
  let (f, event) := dispatch p.fields
  return ({ p with fields := f }, events ++ event.toList)

/-- Feed every chunk in turn. -/
def feedAll : SSEParser → List Chunk → Except SSEError (SSEParser × List SSEEvent)
  | p, [] => .ok (p, [])
  | p, chunk :: chunks => do
      let (p, events) ← feed R p chunk
      let (p, later) ← feedAll p chunks
      return (p, events ++ later)

/-- What a caller observes: the events, the last event id and the retry value. -/
def parseSse (chunks : List Chunk) :
    Except SSEError (List SSEEvent × Option Text × Option Nat) := do
  let (p, events) ← feedAll R SSEParser.init chunks
  let (p, last) ← finish R p
  return (events ++ last, p.fields.eventId, p.fields.retry)

end Rules

end Avibe.Sse
