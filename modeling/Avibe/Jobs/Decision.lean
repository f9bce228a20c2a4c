import Avibe.Lib.Machine

/-!
# The start decision of a job

A job's command runs only after `decision` in the job's directory says `go`.
The starting host, any number of cancelling or recovering hosts and the wrapper
share no lock: the file is made by an exclusive `link`, and what it says is read
back. Every file operation is one step here, any party can stop between two of
them, and the order of the steps is arbitrary.

The timeouts (`PID_TIMEOUT_S`, `DECISION_TIMEOUT_S`, the job's deadline) are
choices: a step that a timeout triggers may come at any time.
-/

namespace Avibe.Jobs

open Machine

inductive Decision where
  | go
  | abandon
  deriving DecidableEq, Repr

/-- A process identity; `createTime` tells apart processes with one pid. -/
structure Identity where
  pid : Nat
  createTime : Nat
  deriving DecidableEq, Repr

/-- The job's directory. -/
structure Disk where
  /-- `meta.json`, with the identity under its key `process`. -/
  record : Option (Option Identity)
  pid : Option Nat
  decision : Option Decision
  deriving DecidableEq, Repr

/-- What the starting host does with the decision it made or found. -/
inductive Purpose where
  | decide
  | launchFailed
  | cancel
  deriving DecidableEq, Repr

/-- Where the starting host stands in `start`. -/
inductive Host where
  | idle
  | made
  | awaitPid (pid : Nat)
  | recording (identity : Identity)
  | creating (value : Decision) (purpose : Purpose)
  | readingBack (value : Decision) (purpose : Purpose)
  /-- `start` returns the job id on `go` and raises `JobStartError` otherwise. -/
  | returned (decision : Decision)
  /-- `start` raised `JobStartError` because the wrapper could not be launched. -/
  | launchFailed
  | cancelled
  | crashed
  deriving DecidableEq, Repr

def Purpose.done : Purpose → Decision → Host
  | .decide, d => .returned d
  | .launchFailed, _ => .launchFailed
  | .cancel, _ => .cancelled

inductive HostAction where
  | makeJob
  | launch (pid : Nat)
  | launchFails
  /-- A poll that finds the pid file. `heads` says whether the wrapper leads its
  process group, `captured` is the identity of the running process. -/
  | pollPid (heads : Option Bool) (captured : Option Nat)
  /-- The wrapper ended, or `PID_TIMEOUT_S` passed. -/
  | giveUp
  | cancelStart
  | recordIdentity
  | link
  | readBack
  | crash
  deriving DecidableEq, Repr

/-- The identity `_await_pid` returns for the pid file it reads. -/
def awaitedIdentity (pid text : Nat) (heads : Option Bool) (captured : Option Nat) :
    Option Identity :=
  match heads with
  | none => none
  | some heads =>
      if text ≠ pid ∨ heads = false then none
      else captured.map fun createTime => ⟨pid, createTime⟩

/-- `_record_and_decide` for an identity: record it first, or abandon. -/
def recordAndDecide : Option Identity → Host
  | some identity => .recording identity
  | none => .creating .abandon .decide

def hostStep (h : Host) (d : Disk) : HostAction → Option (Host × Disk)
  | .makeJob =>
      match h with
      | .idle => some (.made, { d with record := some none })
      | _ => none
  | .launch pid =>
      match h with
      | .made => some (.awaitPid pid, d)
      | _ => none
  | .launchFails =>
      match h with
      | .made => some (.creating .abandon .launchFailed, d)
      | _ => none
  | .pollPid heads captured =>
      match h, d.pid with
      | .awaitPid pid, some text =>
          some (recordAndDecide (awaitedIdentity pid text heads captured), d)
      | _, _ => none
  | .giveUp =>
      match h with
      | .awaitPid _ => some (recordAndDecide none, d)
      | _ => none
  | .cancelStart =>
      match h with
      | .awaitPid _ => some (.creating .abandon .cancel, d)
      | _ => none
  | .recordIdentity =>
      match h with
      | .recording identity =>
          some (.creating .go .decide, { d with record := some (some identity) })
      | _ => none
  | .link =>
      match h, d.decision with
      | .creating value purpose, none =>
          some (purpose.done value, { d with decision := some value })
      | .creating value purpose, some _ => some (.readingBack value purpose, d)
      | _, _ => none
  | .readBack =>
      match h with
      | .readingBack value purpose => some (purpose.done (d.decision.getD value), d)
      | _ => none
  | .crash => some (.crashed, d)

/-! ## The other hosts -/

/-- Another host, inside `_decision` or `_create_decision`. -/
inductive Reader where
  | idle
  | reading
  | checkingMeta
  | creating
  | readingBack
  | observed (decision : Decision)
  | unknownJob
  | crashed
  deriving DecidableEq, Repr

inductive ReaderAction where
  /-- `started`, `status` or `kill` after a restart. -/
  | recover
  | cancel
  | readDecision
  | readMeta
  | link
  | readBack
  | crash
  deriving DecidableEq, Repr

def readerStep (r : Reader) (d : Disk) : ReaderAction → Option (Reader × Disk)
  | .recover =>
      match r with
      | .idle => some (.reading, d)
      | _ => none
  | .cancel =>
      match r with
      | .idle => some (.creating, d)
      | _ => none
  | .readDecision =>
      match r, d.decision with
      | .reading, some decision => some (.observed decision, d)
      | .reading, none => some (.checkingMeta, d)
      | _, _ => none
  | .readMeta =>
      match r, d.record with
      | .checkingMeta, some _ => some (.creating, d)
      | .checkingMeta, none => some (.unknownJob, d)
      | _, _ => none
  | .link =>
      match r, d.decision with
      | .creating, none => some (.observed .abandon, { d with decision := some .abandon })
      | .creating, some _ => some (.readingBack, d)
      | _, _ => none
  | .readBack =>
      match r with
      | .readingBack => some (.observed (d.decision.getD .abandon), d)
      | _ => none
  | .crash => some (.crashed, d)

/-! ## The wrapper -/

/-- Where the wrapper stands in `main`. -/
inductive WrapperAt where
  | booting
  | waiting
  | timedOut
  | reading
  /-- It has read `go` and looks at the deadline next. -/
  | cleared
  | refused
  | running
  | ended
  deriving DecidableEq, Repr

structure Wrapper where
  pid : Nat
  pc : WrapperAt
  /-- The command has been run. -/
  ran : Bool
  deriving DecidableEq, Repr

inductive WrapperAction where
  | writePid
  | seeDecision
  | timeout
  | link
  | read
  | deadlinePassed
  | runCommand
  /-- The command ended, or the wrapper was killed. -/
  | ends
  deriving DecidableEq, Repr

def wrapperStep (w : Wrapper) (d : Disk) : WrapperAction → Option (Wrapper × Disk)
  | .writePid =>
      match w.pc with
      | .booting => some ({ w with pc := .waiting }, { d with pid := some w.pid })
      | _ => none
  | .seeDecision =>
      match w.pc, d.decision with
      | .waiting, some _ => some ({ w with pc := .reading }, d)
      | _, _ => none
  | .timeout =>
      match w.pc, d.decision with
      | .waiting, none => some ({ w with pc := .timedOut }, d)
      | _, _ => none
  | .link =>
      match w.pc, d.decision with
      | .timedOut, none =>
          some ({ w with pc := .reading }, { d with decision := some .abandon })
      | .timedOut, some _ => some ({ w with pc := .reading }, d)
      | _, _ => none
  | .read =>
      match w.pc, d.decision with
      | .reading, some .go => some ({ w with pc := .cleared }, d)
      | .reading, some .abandon => some ({ w with pc := .refused }, d)
      | .reading, none => some ({ w with pc := .ended }, d)
      | _, _ => none
  | .deadlinePassed =>
      match w.pc with
      | .cleared => some ({ w with pc := .ended }, d)
      | _ => none
  | .runCommand =>
      match w.pc with
      | .cleared => some ({ w with pc := .running, ran := true }, d)
      | _ => none
  | .ends => some ({ w with pc := .ended }, d)

/-! ## All parties -/

structure Job where
  disk : Disk
  host : Host
  readers : Nat → Reader
  wrapper : Option Wrapper

def Job.init : Job := ⟨⟨none, none, none⟩, .idle, fun _ => .idle, none⟩

inductive Action where
  | host (a : HostAction)
  | reader (i : Nat) (a : ReaderAction)
  | wrapper (a : WrapperAction)
  deriving DecidableEq, Repr

/-- The launched process. -/
def launched (w : Option Wrapper) : HostAction → Option Wrapper
  | .launch pid => some ⟨pid, .booting, false⟩
  | _ => w

def step (s : Job) : Action → Option Job
  | .host a =>
      (hostStep s.host s.disk a).map fun r =>
        { s with host := r.1, disk := r.2, wrapper := launched s.wrapper a }
  | .reader i a =>
      (readerStep (s.readers i) s.disk a).map fun r =>
        { s with readers := fun j => if j = i then r.1 else s.readers j, disk := r.2 }
  | .wrapper a =>
      match s.wrapper with
      | none => none
      | some w =>
          (wrapperStep w s.disk a).map fun r => { s with wrapper := some r.1, disk := r.2 }

/-- The job after a run of steps of all parties. -/
def jobAfter (run : List Action) : Job := after (ofStep step) Job.init run

/-- The command has been run. -/
def Job.ran (s : Job) : Prop := ∃ w, s.wrapper = some w ∧ w.ran = true

/-- A party has observed that the job did not start. -/
def ObservedNotStarted (s : Job) : Prop :=
  s.host = .returned .abandon ∨ s.host = .launchFailed ∨
    (∃ i, s.readers i = .observed .abandon) ∨
    ∃ w, s.wrapper = some w ∧ w.pc = .refused

end Avibe.Jobs
