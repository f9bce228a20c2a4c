import Avibe.Edits.Lines
import Avibe.Lib.CodecStream
import Avibe.Output.Truncate

/-!
# Reading a text file in chunks

The file is read in chunks. Only as much of the selected lines is kept as can be shown: collection stops once
the kept bytes pass one cap or the kept lines the other. Line breaks are line feeds; one carriage return
before a line feed belongs to the break.
-/

namespace Avibe.Reading

open Texts Output
open Edits (shown)

abbrev Bytes := List UInt8

def newline : UInt8 := 0x0a

def returnByte : UInt8 := 0x0d

structure Caps where
  maxLines : Nat
  maxBytes : Nat

def Caps.standard : Caps := ⟨2000, 50 * 1024⟩

/-- The line ends in a carriage return and not in two. -/
def oneReturn {α : Type} [BEq α] (r : α) (line : List α) : Bool :=
  [r].isSuffixOf line && !([r, r].isSuffixOf line)

/-- A line without the carriage return of its break. -/
def dropReturn {α : Type} [BEq α] (r : α) (line : List α) : List α :=
  if oneReturn r line then line.dropLast else line

/-! ## The scan -/

/-- The shown size of the first selected line so far, what its decoder holds, and its last two bytes. -/
structure FirstLine where
  bytes : Nat
  pending : Bytes
  tail : Bytes

namespace FirstLine

def new : FirstLine := ⟨0, [], []⟩

/-- `first_decoder.decode` -/
def decodePiece (pending segment : Bytes) (final : Bool) : Text × Bytes :=
  if final then (decodeFile (pending ++ segment), []) else decodeOpen (fun b => [escape b]) (pending ++ segment)

def lastTwo (bytes : Bytes) : Bytes := bytes.drop (bytes.length - 2)

/-- Add a piece of the line to its shown size. -/
def measure (f : FirstLine) (segment : Bytes) (endsLine : Bool) : FirstLine :=
  let piece := decodePiece f.pending segment endsLine
  let tail := lastTwo (f.tail ++ segment)
  { bytes := f.bytes + utf8Len (shown piece.1) - if endsLine && oneReturn returnByte tail then 1 else 0
    pending := piece.2
    tail := tail }

end FirstLine

structure Scan where
  lines : List Bytes
  kept : Nat
  opened : Option Nat
  index : Nat
  first : FirstLine
  collecting : Bool

namespace Scan

variable (caps : Caps) (start : Nat) (stop : Option Nat)

def new : Scan := ⟨[], 0, none, 0, .new, stop.all (start < ·)⟩

def measureFirst (s : Scan) (segment : Bytes) (endsLine : Bool) : Scan :=
  if s.index = start then { s with first := s.first.measure segment endsLine } else s

def openLine (s : Scan) : Scan :=
  if s.opened = some s.index then s
  else
    { s with
      kept := s.kept + if s.lines = [] then 0 else 1
      lines := s.lines ++ [[]]
      opened := some s.index }

/-- Put a piece at the end of the last line, as far as there is room. -/
def fill (s : Scan) (room : Nat) (segment : Bytes) (endsLine : Bool) : Scan :=
  let line := s.lines.getLastD [] ++ segment.take room
  let kept := s.kept + min segment.length room
  if endsLine && segment.length ≤ room && oneReturn returnByte line then
    { s with lines := s.lines.dropLast ++ [line.dropLast], kept := kept - 1 }
  else { s with lines := s.lines.dropLast ++ [line], kept := kept }

/-- One more byte at a line end, for a carriage return that is dropped. -/
def room (s : Scan) (endsLine : Bool) : Nat := caps.maxBytes + 1 + (if endsLine then 1 else 0) - s.kept

/-- One line beyond the cap: a final empty piece does not count as a line. -/
def checkCaps (s : Scan) : Scan :=
  if caps.maxBytes < s.kept ∨ caps.maxLines + 1 < s.lines.length then { s with collecting := false } else s

def collect (s : Scan) (segment : Bytes) (endsLine : Bool) : Scan :=
  let s := s.openLine
  let s := if 0 < s.room caps endsLine then s.fill (s.room caps endsLine) segment endsLine else s
  s.checkCaps caps

/-- The rest of a chunk, split at its line feeds, after the last line that is collected. -/
def countRest (s : Scan) : List Bytes → Scan
  | [] => s
  | segment :: rest =>
      let s := s.measureFirst start segment (rest ≠ [])
      { s with index := s.index + rest.length }

/-- A chunk, split at its line feeds. -/
def scanSegments (s : Scan) : List Bytes → Scan
  | [] => s
  | segment :: rest =>
      if !s.collecting then s.countRest start (segment :: rest)
      else if stop.any (· ≤ s.index) then { s with collecting := false }.countRest start (segment :: rest)
      else
        let s := s.measureFirst start segment (rest ≠ [])
        let s := if start ≤ s.index then s.collect caps segment (rest ≠ []) else s
        if rest = [] then s else scanSegments { s with index := s.index + 1 } rest

def scanChunk (s : Scan) (chunk : Bytes) : Scan := s.scanSegments caps start stop (chunk.splitOn newline)

end Scan

/-- The selected lines as far as they are kept, how many lines the file has, and the shown size of the first
selected line. -/
def scanLines (caps : Caps) (start : Nat) (stop : Option Nat) (chunks : List Bytes) : List Text × Nat × Nat :=
  let s := chunks.foldl (Scan.scanChunk caps start stop) (Scan.new start stop)
  let firstLineBytes :=
    if s.index = start then s.first.bytes + utf8Len (shown (decodeFile s.first.pending)) else s.first.bytes
  -- An empty file: its one line is empty.
  let lines := if s.collecting && s.opened ≠ some s.index && start ≤ s.index then s.lines ++ [[]] else s.lines
  (lines.map fun line => shown (decodeFile line), s.index + 1, firstLineBytes)

/-! ## What is shown -/

inductive Notice where
  | lineExceeds (line size : Nat)
  | showing (first last total next : Nat) (bytesLimit : Bool)
  | moreLines (count next : Nat)
deriving DecidableEq

/-- Where a notice says to go on. -/
def Notice.next? : Notice → Option Nat
  | lineExceeds _ _ => none
  | showing _ _ _ next _ => some next
  | moreLines _ next => some next

structure ReadText where
  content : Text
  notice : Option Notice
  truncation : Option TruncationResult

/-- What a text shows of the file, and its notice. -/
def ReadText.shown (r : ReadText) : Text × Option Notice := (r.content, r.notice)

inductive ReadError where
  | beyondEnd (offset total : Nat)
deriving DecidableEq

/-- The part of `_read_text` after the scan. -/
def present (caps : Caps) (start : Nat) (stop : Option Nat) (collected : List Text) (totalLines firstLineBytes : Nat) :
    Except ReadError ReadText :=
  if totalLines ≤ start then .error (.beyondEnd (start + 1) totalLines)
  else
    let truncation := truncateHead (joined collected) caps.maxLines caps.maxBytes
    let startDisplay := start + 1
    if truncation.firstLineExceedsLimit then
      .ok ⟨truncation.content, some (.lineExceeds startDisplay firstLineBytes), some truncation⟩
    else if truncation.truncated then
      let endDisplay := startDisplay + truncation.outputLines - 1
      let nextOffset := endDisplay + 1
      .ok ⟨truncation.content,
        some (.showing startDisplay endDisplay totalLines nextOffset (truncation.truncatedBy ≠ some .lines)),
        some truncation⟩
    else
      match stop with
      | some stop =>
          if stop < totalLines then .ok ⟨truncation.content, some (.moreLines (totalLines - stop) (stop + 1)), none⟩
          else .ok ⟨truncation.content, none, none⟩
      | none => .ok ⟨truncation.content, none, none⟩

/-- What successive reads of a number of bytes return. -/
def reads (size : Nat) : Nat → Bytes → List Bytes
  | 0, _ => []
  | fuel + 1, data => if data = [] then [] else data.take size :: reads size fuel (data.drop size)

/-- A byte order mark is not shown. -/
def withoutBom (data : Bytes) : Bytes := if data.take 3 = [0xef, 0xbb, 0xbf] then data.drop 3 else data

/-- The first selected line and the line after the last one. -/
def selection (offset limit : Option Nat) : Nat × Option Nat :=
  let start := match offset with
    | some offset => offset - 1
    | none => 0
  (start, limit.map (start + ·))

/-- The chunks that are read of a file. -/
def fileChunks (size : Nat) (data : Bytes) : List Bytes := reads size (withoutBom data).length (withoutBom data)

def readText (caps : Caps) (size : Nat) (data : Bytes) (offset limit : Option Nat) : Except ReadError ReadText :=
  let (start, stop) := selection offset limit
  let (collected, totalLines, firstLineBytes) := scanLines caps start stop (fileChunks size data)
  present caps start stop collected totalLines firstLineBytes

/-! ## The texts -/

section Render

variable (caps : Caps) (formatSize : Nat → Text) (readLineAdvice : Nat → Nat → Text)

def decimal (n : Nat) : Text := lit (toString n)

def Notice.text : Notice → Text
  | lineExceeds line size =>
      lit "[Line " ++ decimal line ++ lit " is " ++ formatSize size ++ lit ", exceeds " ++ formatSize caps.maxBytes ++
        lit " limit. " ++ readLineAdvice line caps.maxBytes ++ lit "]"
  | showing first last total next bytesLimit =>
      lit "[Showing lines " ++ decimal first ++ lit "-" ++ decimal last ++ lit " of " ++ decimal total ++
        (if bytesLimit then lit " (" ++ formatSize caps.maxBytes ++ lit " limit)" else []) ++
        lit ". Use offset=" ++ decimal next ++ lit " to continue.]"
  | moreLines count next =>
      lit "[" ++ decimal count ++ lit " more lines in file. Use offset=" ++ decimal next ++ lit " to continue.]"

def ReadText.text (r : ReadText) : Text :=
  match r.notice with
  | none => r.content
  | some (.lineExceeds line size) => Notice.text caps formatSize readLineAdvice (.lineExceeds line size)
  | some notice => r.content ++ lit "\n\n" ++ notice.text caps formatSize readLineAdvice

def ReadError.text : ReadError → Text
  | .beyondEnd offset total =>
      lit "Offset " ++ decimal offset ++ lit " is beyond end of file (" ++ decimal total ++ lit " lines total)"

end Render

end Avibe.Reading
