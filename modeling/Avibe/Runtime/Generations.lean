import Avibe.Lib.Machine
import Avibe.Lib.SortOn

/-!
# The generations of a runtime unit

A unit serves new turns on its current generation. A generation that was replaced
retires: it keeps the work that is bound to it and stops once that work is released,
or when the oldest retiring generation has to give way at the cap. Every change is one
synchronous step; one reconciler task owns the stops and awaits them one at a time, so
that any call can come between the start of a stop and its end.

A generation is named by its serial, which `itertools.count` gives out once.
-/

namespace Avibe.Runtime

open SortOn

abbrev Digest := String

/-- `RuntimeGeneration`; the spec is its digest. -/
structure Generation where
  digest : Digest
  retiring : Bool
  stopped : Bool
  bindings : Nat
  closed : Bool
  deferred : Bool
  failed : Bool
  deriving DecidableEq, Repr

def Generation.new (digest : Digest) : Generation := ⟨digest, false, false, 0, false, false, false⟩

/-- `RuntimeBinding` -/
structure Binding where
  generation : Nat
  released : Bool
  deriving DecidableEq, Repr

/-- The reconciler task: not made, made and not started, awaiting a stop, returned, or cancelled.
A stop keeps the number of retry requests from before it. -/
inductive Reconciler where
  | none
  | ready
  | stopping (serial : Nat) (force : Bool) (requests : Nat)
  | done
  | cancelled
  deriving DecidableEq, Repr

/-- No task is made, or it is done. -/
def Reconciler.idle : Reconciler → Bool
  | .none | .done | .cancelled => true
  | .ready | .stopping _ _ _ => false

/-- `RuntimeGenerationSet`, with every generation and binding that was made. The acquisitions that
wait for the start lock and the start that holds it are the frames of `acquire`. -/
structure GenerationSet where
  cap : Nat
  generations : Nat → Generation
  nextSerial : Nat
  current : Option Nat
  retiring : List Nat
  stopping : Bool
  forceAll : Bool
  reconciler : Reconciler
  triedForced : List Nat
  triedGraceful : List Nat
  retryRequests : Nat
  waiting : List Digest
  starting : Option Digest
  bindings : List Binding

namespace GenerationSet

def new (cap : Nat) : GenerationSet :=
  { cap, generations := fun _ => .new "", nextSerial := 1, current := none, retiring := [],
    stopping := false, forceAll := false, reconciler := .none, triedForced := [],
    triedGraceful := [], retryRequests := 0, waiting := [], starting := none, bindings := [] }

/-- This serial was given out. -/
def made (s : GenerationSet) (serial : Nat) : Prop := 0 < serial ∧ serial < s.nextSerial

instance (s : GenerationSet) (serial : Nat) : Decidable (s.made serial) :=
  inferInstanceAs (Decidable (_ ∧ _))

/-- `generations`: every attached generation, oldest first. -/
def attached (s : GenerationSet) : List Nat := s.retiring ++ s.current.toList

/-- A generation, changed in place. -/
def update (s : GenerationSet) (serial : Nat) (f : Generation → Generation) : GenerationSet :=
  { s with
    generations := fun i => if i = serial then f (s.generations i) else s.generations i }

/-- `_kick` -/
def kick (s : GenerationSet) : GenerationSet :=
  if s.reconciler.idle then { s with reconciler := .ready } else s

/-- `_add_retiring` -/
def addRetiring (s : GenerationSet) (serial : Nat) : GenerationSet :=
  { s.update serial fun g => { g with retiring := true } with
    retiring := sortOn id (s.retiring ++ [serial]) }

/-- `_detach` -/
def detach (s : GenerationSet) (serial : Nat) : GenerationSet :=
  { s.update serial fun g => { g with retiring := false, stopped := true } with
    retiring := s.retiring.erase serial
    current := if s.current = some serial then none else s.current }

/-- `_install_current` -/
def installCurrent (s : GenerationSet) (serial : Nat) : GenerationSet :=
  let next := { s with current := some serial }
  match s.current with
  | some previous => if previous ≠ serial then (next.addRetiring previous).kick else next.kick
  | none => next.kick

/-- `_retire` -/
def retire (s : GenerationSet) (serial : Nat) : GenerationSet :=
  if (s.generations serial).stopped then s
  else
    let s := s.update serial fun g => { g with closed := true }
    let s := if s.current = some serial then { s with current := none } else s
    (if serial ∉ s.retiring then s.addRetiring serial else s).kick

/-- `_bind` -/
def makeBinding (s : GenerationSet) (serial : Nat) : GenerationSet :=
  { s.update serial fun g => { g with bindings := g.bindings + 1 } with
    bindings := s.bindings ++ [⟨serial, false⟩] }

/-- `_bind_serving` once the unit admits work. -/
def bindServing (s : GenerationSet) (digest : Digest) : Option GenerationSet :=
  match s.current.filter fun c => (s.generations c).digest = digest with
  | some current => some (s.makeBinding current)
  | none =>
      match s.retiring.reverse.find? fun g =>
        (s.generations g).digest = digest && !(s.generations g).closed with
      | none => none
      | some serial =>
          let s := { s with retiring := s.retiring.erase serial }
          let s := s.update serial fun g => { g with retiring := false, deferred := false }
          some ((s.installCurrent serial).makeBinding serial)

/-- A generation with the next serial, not attached yet. -/
def create (s : GenerationSet) (g : Generation) : GenerationSet :=
  { s with
    generations := fun i => if i = s.nextSerial then g else s.generations i
    nextSerial := s.nextSerial + 1 }

/-- `_release` -/
def release (s : GenerationSet) (index : Nat) : GenerationSet :=
  match s.bindings[index]? with
  | none => s
  | some binding =>
      if binding.released then s
      else
        let serial := binding.generation
        let s := { s with bindings := s.bindings.set index { binding with released := true } }
        let s := s.update serial fun g => { g with bindings := g.bindings - 1 }
        if (s.generations serial).retiring ∧ (s.generations serial).bindings = 0 then
          let s := s.update serial fun g => { g with deferred := false }
          kick { s with triedGraceful := s.triedGraceful.filter (· ≠ serial) }
        else s

/-- `_request_retry` -/
def requestRetry (s : GenerationSet) : GenerationSet :=
  { s with
    retryRequests := s.retryRequests + 1
    triedForced := []
    triedGraceful := []
    generations := fun i =>
      if i ∈ s.retiring then { s.generations i with deferred := false, failed := false }
      else s.generations i }

/-- `stop_all` up to its first wait. -/
def stopAll (s : GenerationSet) (force : Bool) : GenerationSet :=
  let s := { s with
    stopping := true
    forceAll := s.forceAll || force
    generations := fun i =>
      if i ∈ s.attached then { s.generations i with closed := true } else s.generations i }
  let s :=
    match s.current with
    | some current => addRetiring { s with current := none } current
    | none => s
  s.requestRetry.kick

/-- `_next_victim` -/
def nextVictim (s : GenerationSet) : Option (Nat × Bool) :=
  let unforced := s.retiring.filter (· ∉ s.triedForced)
  if s.forceAll ∧ unforced ≠ [] then unforced.head?.map fun g => (g, true)
  else if s.stopping = false ∧ s.cap < s.attached.length ∧ unforced ≠ [] then
    unforced.head?.map fun g => (g, true)
  else
    (unforced.find? fun g =>
      g ∉ s.triedGraceful && (s.generations g).bindings = 0 && !(s.generations g).deferred &&
        !(s.generations g).failed).map fun g => (g, false)

/-- The loop of `_reconcile` up to its next wait. -/
def advance (s : GenerationSet) : GenerationSet :=
  match s.nextVictim with
  | none => { s with reconciler := .done }
  | some (serial, force) =>
      let s :=
        if force then { s with triedForced := serial :: s.triedForced }
        else { s with triedGraceful := serial :: s.triedGraceful }
      { s.detach serial with reconciler := .stopping serial force s.retryRequests }

/-- `_reattach` -/
def reattach (s : GenerationSet) (serial : Nat) (failed retry : Bool) : GenerationSet :=
  let s := s.update serial fun g =>
    { g with
      stopped := false
      closed := if failed then true else g.closed
      failed := if !retry && failed then true else g.failed
      deferred := if !retry && !failed then true else g.deferred }
  if serial ∉ s.retiring then s.addRetiring serial else s

end GenerationSet

/-! ## Steps -/

/-- How an awaited stop ends. -/
inductive StopEnd where
  | returned (stopped : Bool)
  | raised
  | cancelled
  deriving DecidableEq, Repr

inductive Step where
  /-- `acquire` up to the start lock. -/
  | acquire (digest : Digest)
  /-- A waiting `acquire` gets the start lock. -/
  | locked (index : Nat)
  /-- A waiting `acquire` is cancelled. -/
  | abandoned (index : Nat)
  | started
  | startFailed
  | bind (serial : Nat)
  | release (index : Nat)
  | adopt (digest : Digest) (current : Bool)
  | retire (serial : Nat)
  | retireCurrent
  | discard (serial : Nat)
  | reap
  | stopAll (force : Bool)
  /-- The reconciler task takes its first step. -/
  | reconcile
  | stopEnds (how : StopEnd)
  /-- The reconciler task is cancelled before its first step. -/
  | cancelled
  deriving DecidableEq, Repr

namespace GenerationSet

/-- What a start that returned does with its runtime. -/
def started (s : GenerationSet) (digest : Digest) : GenerationSet :=
  let serial := s.nextSerial
  let s := { s with starting := none }
  if s.stopping then ((s.create { Generation.new digest with closed := true }).addRetiring serial).kick
  else ((s.create (.new digest)).installCurrent serial).makeBinding serial

def adopt (s : GenerationSet) (digest : Digest) (current : Bool) : GenerationSet :=
  let serial := s.nextSerial
  let s := s.create (.new digest)
  if current then s.installCurrent serial else (s.addRetiring serial).kick

/-- The reconciler goes on after a stop. -/
def stopEnds (s : GenerationSet) (serial : Nat) (force : Bool) (requests : Nat) :
    StopEnd → GenerationSet
  | .returned true => s.advance
  | .returned false => (s.reattach serial force (s.retryRequests ≠ requests)).advance
  | .raised => (s.reattach serial true (s.retryRequests ≠ requests)).advance
  | .cancelled => { s.reattach serial true false with reconciler := .cancelled }

/-- One step; a call that raises, or a step that cannot happen, changes nothing. -/
def step (s : GenerationSet) : Step → GenerationSet
  | .acquire digest =>
      if s.stopping then s
      else (s.bindServing digest).getD { s with waiting := s.waiting ++ [digest] }
  | .locked index =>
      match s.starting, s.waiting[index]? with
      | none, some digest =>
          let s := { s with waiting := s.waiting.eraseIdx index }
          if s.stopping then s
          else (s.bindServing digest).getD { s with starting := some digest }
      | _, _ => s
  | .abandoned index => { s with waiting := s.waiting.eraseIdx index }
  | .started =>
      match s.starting with
      | some digest => s.started digest
      | none => s
  | .startFailed => { s with starting := none }
  | .bind serial =>
      if s.stopping ∨ ¬ s.made serial ∨ (s.generations serial).stopped then s
      else s.makeBinding serial
  | .release index => s.release index
  | .adopt digest current => if s.stopping then s else s.adopt digest current
  | .retire serial => if s.made serial then s.retire serial else s
  | .retireCurrent =>
      match s.current with
      | some current => s.retire current
      | none => s
  | .discard serial => if s.made serial then s.detach serial else s
  | .reap => s.requestRetry.kick
  | .stopAll force => s.stopAll force
  | .reconcile =>
      if s.reconciler = .ready then advance { s with triedForced := [], triedGraceful := [] } else s
  | .stopEnds how =>
      match s.reconciler with
      | .stopping serial force requests => s.stopEnds serial force requests how
      | _ => s
  | .cancelled => if s.reconciler = .ready then { s with reconciler := .cancelled } else s

end GenerationSet

end Avibe.Runtime
