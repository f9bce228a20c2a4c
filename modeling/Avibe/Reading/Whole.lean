import Avibe.Reading.Scan

/-!
# The whole file as the reference
-/

namespace Avibe.Reading

open Texts Output
open Edits (shown)

/-- Ended lines without the carriage returns of their breaks, and the last line. -/
def endedLines {α : Type} [BEq α] (r : α) (lines : List (List α)) : List (List α) :=
  lines.dropLast.map (dropReturn r) ++ lines.getLast?.toList

/-- The lines of a file as it is shown. -/
def fileLines (data : Bytes) : List Text :=
  endedLines carriageReturn ((shown (decodeFile data)).splitOn lineFeed)

def select {α : Type} (start : Nat) (stop : Option Nat) (lines : List α) : List α :=
  (match stop with
    | some stop => lines.take stop
    | none => lines).drop start

/-- Reading the whole file, splitting it and selecting the lines. -/
def readWhole (caps : Caps) (data : Bytes) (offset limit : Option Nat) : Except ReadError ReadText :=
  let (start, stop) := selection offset limit
  let lines := fileLines (withoutBom data)
  present caps start stop (select start stop lines) lines.length (utf8Len (lines.getD start []))

end Avibe.Reading
