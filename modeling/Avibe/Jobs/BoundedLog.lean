import Avibe.Lib.Machine

/-!
# The bounded job log

The wrapper keeps the first `headCap` bytes of a command's output in
`output.log` and the last `tailCap` bytes after them in `tail.log`, which a
snapshot replaces as a whole. A host reads the output from an offset: it looks
at the size of `output.log` first, and goes on to `tail.log` when the offset is
not below it.

A write, a snapshot, the size check and the reading of one file are one step
each. Reads may overlap each other and the writer, and a read starts at zero or
at any offset that an earlier one returned. `written` is the whole stream.
-/

namespace Avibe.Jobs

open Machine

abbrev Bytes := List UInt8

/-- The byte budgets of the writer and of one read. -/
structure Caps where
  headCap : Nat
  tailCap : Nat
  chunkBytes : Nat
  chunkBytes_pos : 0 < chunkBytes

structure LogFiles where
  /-- `output.log`. -/
  output : Option Bytes
  /-- `tail.log`: the offset in its header, and the bytes after the header. -/
  tail : Option (Nat × Bytes)
  deriving DecidableEq, Repr

/-- The writer's memory. -/
structure BoundedLog where
  total : Nat
  tail : Bytes
  dirty : Bool
  deriving DecidableEq, Repr

/-- The last `n` bytes; as a slice with a negative start, all of them for
zero. -/
def lastBytes (n : Nat) (l : Bytes) : Bytes := if n = 0 then l else l.drop (l.length - n)

section Caps

variable (C : Caps)

/-- The part of a chunk that still fits into the head. -/
def headPart (log : BoundedLog) (data : Bytes) : Bytes :=
  if log.total < C.headCap then data.take (C.headCap - log.total) else []

/-- The tail in memory, cut down to the cap when it is over twice the cap. -/
def trimTail (tail : Bytes) : Bytes :=
  if tail.length > 2 * C.tailCap then tail.drop (tail.length - C.tailCap) else tail

def BoundedLog.write (log : BoundedLog) (data : Bytes) : BoundedLog :=
  let head := headPart C log data
  let rest := data.drop head.length
  if rest = [] then { log with total := log.total + head.length }
  else
    { total := log.total + head.length + rest.length
      tail := trimTail C (log.tail ++ rest)
      dirty := true }

/-- The content of `tail.log` for the current tail. -/
def BoundedLog.kept (log : BoundedLog) : Nat × Bytes :=
  (log.total - (lastBytes C.tailCap log.tail).length, lastBytes C.tailCap log.tail)

/-! ## Reading -/

/-- The bytes after `since` in `output.log`, whose size was `seen`. -/
def readHead (output : Bytes) (since seen : Nat) : Bytes × Nat :=
  let data := (output.drop since).take (min C.chunkBytes (seen - since))
  (data, since + data.length)

/-- The bytes after `since` in `tail.log`; a reader behind it jumps forward. -/
def readTail (tail : Option (Nat × Bytes)) (since : Nat) : Bytes × Nat :=
  match tail with
  | none => ([], since)
  | some (tailStart, bytes) =>
      let start := max since tailStart
      let data := (bytes.drop (start - tailStart)).take C.chunkBytes
      (data, start + data.length)

/-- `output` when nothing else happens during it. -/
def output (files : LogFiles) (since : Nat) : Bytes × Nat :=
  match files.output with
  | none => ([], since)
  | some head =>
      if since < head.length then readHead C head since head.length
      else readTail C files.tail since

/-- The offset after `n` reads, each from the offset of the one before. -/
def repeatRead (files : LogFiles) : Nat → Nat → Nat
  | 0, since => since
  | n + 1, since => repeatRead files n (output C files since).2

/-! ## Writer and readers -/

inductive ReadAt where
  | idle
  /-- The size check found `seen` bytes in `output.log`. -/
  | checked (since seen : Nat)
  deriving DecidableEq, Repr

/-- What a read returned, and the files and the stream when it read the data. -/
structure Reading where
  since : Nat
  data : Bytes
  offset : Nat
  files : LogFiles
  written : Bytes

structure LogState where
  written : Bytes
  files : LogFiles
  log : BoundedLog
  finished : Bool
  reads : Nat → ReadAt
  results : List Reading

def LogState.init : LogState :=
  ⟨[], ⟨none, none⟩, ⟨0, [], false⟩, false, fun _ => .idle, []⟩

inductive LogAction where
  | create
  | write (data : Bytes)
  | snapshot
  /-- The last snapshot, after the end of the output. -/
  | finish
  | checkSize (i since : Nat)
  | readHead (i : Nat)
  | readTail (i : Nat)
  deriving DecidableEq, Repr

def publish (s : LogState) : LogState :=
  if s.log.dirty then
    { s with
      files := { s.files with tail := some (s.log.kept C) }
      log := { s.log with dirty := false } }
  else s

/-- A read ends with its result. -/
def returned (s : LogState) (i since : Nat) (r : Bytes × Nat) : LogState :=
  { s with
    reads := fun j => if j = i then .idle else s.reads j
    results := s.results ++ [⟨since, r.1, r.2, s.files, s.written⟩] }

def logStep (s : LogState) : LogAction → Option LogState
  | .create =>
      match s.files.output with
      | none => some { s with files := { s.files with output := some [] } }
      | some _ => none
  | .write data =>
      match s.files.output, s.finished with
      | some out, false => some { s with
          written := s.written ++ data
          files := { s.files with output := some (out ++ headPart C s.log data) }
          log := s.log.write C data }
      | _, _ => none
  | .snapshot => if s.finished then none else some (publish C s)
  | .finish => if s.finished then none else some { publish C s with finished := true }
  | .checkSize i since =>
      if s.reads i = .idle ∧ (since = 0 ∨ since ∈ s.results.map Reading.offset) then
        match s.files.output with
        | none => some (returned s i since ([], since))
        | some out => some { s with
            reads := fun j => if j = i then .checked since out.length else s.reads j }
      else none
  | .readHead i =>
      match s.reads i, s.files.output with
      | .checked since seen, some out =>
          if since < seen then some (returned s i since (readHead C out since seen)) else none
      | _, _ => none
  | .readTail i =>
      match s.reads i with
      | .checked since seen =>
          if since < seen then none
          else some (returned s i since (readTail C s.files.tail since))
      | _ => none

/-- The log after a run of the writer and its readers. -/
def logAfter (run : List LogAction) : LogState := after (ofStep (logStep C)) LogState.init run

/-- Byte `k` of the stream is in one of the files. -/
def OnDisk (files : LogFiles) (k : Nat) : Prop :=
  (∃ out, files.output = some out ∧ k < out.length) ∨
    ∃ tailStart bytes, files.tail = some (tailStart, bytes) ∧ tailStart ≤ k ∧
      k < tailStart + bytes.length

/-- A read returned the bytes before its new offset, and skipped only bytes that
were not on disk any more. -/
def ReadOk (r : Reading) : Prop :=
  ∃ start, start + r.data.length = r.offset ∧ r.offset ≤ r.written.length ∧
    r.data = (r.written.drop start).take r.data.length ∧ r.since ≤ start ∧
    ∀ k, r.since ≤ k → k < start → ¬ OnDisk r.files k

/-- No read opens `tail.log` after `output.log` has grown behind its size
check. -/
def Undisturbed (s : LogState) : LogAction → Prop
  | .readTail i =>
      match s.reads i with
      | .checked since seen =>
          since < seen ∨ s.files.tail = none ∨ ∀ out ∈ s.files.output, out.length = seen
      | .idle => True
  | _ => True

/-- Every step of a run is undisturbed. -/
def Quiet (s : LogState) : List LogAction → Prop
  | [] => True
  | a :: run => Undisturbed s a ∧ Quiet (ofStep (logStep C) s a) run

/-- What is asked of a log and its readers after a run: every read is right, and
once the writer has finished, repeated reads reach the end of the stream. -/
def ReadsOk (s : LogState) : Prop :=
  (∀ r ∈ s.results, ReadOk r) ∧
    (s.finished = true → ∀ since, since = 0 ∨ since ∈ s.results.map Reading.offset →
      ∃ n, repeatRead C s.files n since = s.written.length)

end Caps

end Avibe.Jobs
