import Mathlib.Algebra.Order.Ring.Unbundled.Rat
import Mathlib.Data.Finset.Basic
import Mathlib.Data.List.AList
import Avibe.Lib.Machine
import Avibe.Lib.Texts

/-!
# Runtime work lanes

A lane of the supervisor scans its store for work, runs one task for each partition and lets live owners run under
the same lease. Between two awaits a coroutine runs alone, so a step of the lane is what one coroutine, or one
callback, does up to its next await. An ended task that has to be scanned again first waits in the backoff ledger.

Tasks are named by serials. A live owner that has ended stays among the tasks until its done callback has run. The
reports of overdue workers are left out.
-/

namespace Avibe.Work

open Texts

abbrev Key := Text

abbrev Instant := ℚ

/-- `RuntimeWorkItem` without its observation -/
structure WorkItem where
  partitionKey : Key
  cursorKey : Option Key
  rearmAfterProcess : Bool
  deferUntilPartitionRelease : Bool
  cursorOnly : Bool

def WorkItem.partition (item : WorkItem) : Key := strip item.partitionKey

/-- The cursor past an item. -/
def WorkItem.cursor (item : WorkItem) : Key :=
  match item.cursorKey with
  | some (c :: rest) => strip (c :: rest)
  | _ => strip item.partitionKey

/-- The settings of the supervisor. -/
structure Config where
  laneCapacity : Nat
  scanPageSize : Nat
  scanContinuationPages : Nat
  retryBackoff : Instant
  callsOnLeaseLost : Bool
  laneCapacity_pos : 0 < laneCapacity
  scanPageSize_pos : 0 < scanPageSize
  scanContinuationPages_pos : 0 < scanContinuationPages

def Config.backoffPartitionLimit (c : Config) : Nat := min c.laneCapacity c.scanPageSize * c.scanContinuationPages

inductive Role where
  | item (item : WorkItem)
  | live

inductive Phase where
  | created
  | running
  | finished
deriving DecidableEq

structure Task where
  id : Nat
  partition : Key
  role : Role
  phase : Phase

def Task.isItem (t : Task) : Bool :=
  match t.role with
  | .item _ => true
  | .live => false

/-- What a scan is asked for. -/
structure Request where
  limit : Nat
  occupied : Finset Key
  cursor : Option Key

inductive Coordinator where
  | waiting
  | scanning (request : Request) (pages : Nat)
  | retrying
  | ended

/-- A call of `run_in_partition` that waits for an owner. -/
structure Waiter where
  partition : Key
  owner : Nat
  caller : Option Nat
deriving DecidableEq

/-- `_Registration`, with the tasks of its lane and the flags of the supervisor. -/
structure Lane where
  registered : Bool
  live : Bool
  event : Bool
  coordinator : Coordinator
  workers : AList fun _ : Key => Nat
  backoffDeadlines : AList fun _ : Key => Instant
  backoffTask : Option Instant
  expiredBackoffRewindPending : Bool
  scanContinuationTask : Bool
  rewindAfterPartitions : Finset Key
  scanCursor : Option Key
  rewindRequested : Bool
  tasks : List Task
  waiters : List Waiter
  nextId : Nat
  /-- The error for a broken backoff reservation was raised. -/
  violated : Bool
  active : Bool
  quiescing : Bool
  stopRequested : Bool
  stopping : Bool

/-- A lane right after its registration on an active supervisor. -/
def Lane.new : Lane where
  registered := true
  live := true
  event := true
  coordinator := .waiting
  workers := ∅
  backoffDeadlines := ∅
  backoffTask := none
  expiredBackoffRewindPending := false
  scanContinuationTask := false
  rewindAfterPartitions := ∅
  scanCursor := none
  rewindRequested := false
  tasks := []
  waiters := []
  nextId := 0
  violated := false
  active := true
  quiescing := false
  stopRequested := false
  stopping := false

namespace Lane

section Parts

variable (c : Config) (s : Lane)

/-- The registration may arm the coordinator. -/
def arms : Bool := s.live && s.active && !s.stopping

def quiesce : Lane :=
  if s.quiescing || s.stopping then s else { s with quiescing := true, active := false, event := true }

def stopForLostLease : Lane :=
  if s.quiescing || s.stopping || s.stopRequested then s
  else { s.quiesce with stopRequested := !c.callsOnLeaseLost }

def rewindAfterPartitionRelease (partition : Key) : Lane :=
  if partition ∈ s.rewindAfterPartitions then
    { s with
      rewindAfterPartitions := s.rewindAfterPartitions.erase partition
      rewindRequested := s.rewindRequested || s.live
      event := s.event || s.live }
  else s

/-- The partition leaves its owner. -/
def release (partition : Key) : Lane :=
  { s with workers := s.workers.erase partition }.rewindAfterPartitionRelease partition

/-! ## Backoff -/

def startNextPartitionBackoff : Lane :=
  { s with backoffTask := (s.backoffDeadlines.entries.map Sigma.snd).min? }

/-- The deadlines after an instant. -/
def deadlinesAfter (deadline : Instant) : AList fun _ : Key => Instant :=
  ⟨s.backoffDeadlines.entries.filter fun e => deadline < e.2,
    List.NodupKeys.sublist List.filter_sublist s.backoffDeadlines.nodupKeys⟩

/-- No room is reserved for the partition in the backoff ledger. -/
def unreserved (partition : Key) : Bool :=
  partition ∉ s.backoffDeadlines && c.backoffPartitionLimit ≤ s.backoffDeadlines.keys.length

/-- The backoff of a partition for which room is reserved. -/
def startPartitionBackoff (partition : Key) (now : Instant) : Lane :=
  let s := { s with backoffDeadlines := s.backoffDeadlines.insert partition (now + c.retryBackoff) }
  if s.backoffTask.isSome then s else s.startNextPartitionBackoff

def finishPartitionBackoff (deadline : Instant) (completed : Bool) : Lane :=
  let s := { s with backoffTask := none }
  let s := if completed then
    { s with
      backoffDeadlines := s.deadlinesAfter deadline
      expiredBackoffRewindPending := true
      event := s.event || s.arms }
    else s
  if s.live && s.backoffDeadlines.keys ≠ [] then s.startNextPartitionBackoff else s

/-! ## Items -/

/-- The end of `_run_item`, which knows the partition by the item's own key. -/
def finishItem (t : Task) (item : WorkItem) (shouldBackoff : Bool) (now : Instant) : Lane :=
  let partition := item.partitionKey
  let s := { s with tasks := s.tasks.filter fun u => u.id ≠ t.id }
  let s :=
    if s.workers.lookup partition = some t.id then
      if shouldBackoff then
        { s with
          workers := s.workers.erase partition
          rewindAfterPartitions := s.rewindAfterPartitions.erase partition }
      else s.release partition
    else s
  let backsOff := shouldBackoff && s.live && !s.stopping
  -- The error leaves the coroutine before it arms the coordinator.
  if backsOff && s.unreserved c partition then { s with violated := true }
  else
    let s := if backsOff then s.startPartitionBackoff c partition now else s
    { s with event := s.event || s.arms && (shouldBackoff || item.rearmAfterProcess || s.rewindRequested) }

def admitItem (item : WorkItem) : Lane :=
  let partition := item.partition
  if item.cursorOnly then s
  else if partition = [] then s
  else if item.deferUntilPartitionRelease then
    if partition ∈ s.workers then
      { s with rewindAfterPartitions := insert partition s.rewindAfterPartitions }
    else { s with rewindRequested := true, event := true }
  else if partition ∈ s.workers then
    { s with rewindAfterPartitions := insert partition s.rewindAfterPartitions }
  else if partition ∈ s.backoffDeadlines then s
  else
    { s with
      workers := s.workers.insert partition s.nextId
      tasks := s.tasks ++ [⟨s.nextId, partition, .item item, .created⟩]
      nextId := s.nextId + 1 }

/-! ## The coordinator -/

/-- The coordinator waits for its event, unless the lane has ended. -/
def rest : Lane := { s with coordinator := if s.live && !s.stopping then .waiting else .ended }

/-- One round of the coordinator up to its scan. -/
def page (ownsLease : Bool) (pages : Nat) : Lane :=
  if !s.live || s.stopping || !s.active then s.rest
  else if !ownsLease then { s.stopForLostLease c with coordinator := .ended }
  else
    let capacity := min (c.laneCapacity - s.workers.keys.length)
      (c.backoffPartitionLimit - s.backoffDeadlines.keys.length - s.workers.keys.length)
    if capacity = 0 then s.rest
    else
      let request : Request :=
        ⟨min capacity c.scanPageSize, (s.workers.keys ++ s.backoffDeadlines.keys).toFinset,
          if s.rewindRequested then none else s.scanCursor⟩
      { s with rewindRequested := false, coordinator := .scanning request pages }

/-- The cursor moves past the page. -/
def advance (items : List WorkItem) (hasMore : Bool) : Lane :=
  match items.getLast? with
  | some item => if item.cursor = [] then s else { s with scanCursor := some item.cursor }
  | none => if hasMore then s else { s with scanCursor := none }

def pageAdvanced (request : Request) (items : List WorkItem) : Bool :=
  items.getLast?.any fun item => item.cursor ≠ [] && some item.cursor ≠ request.cursor

def rewindExpired (hasMore : Bool) : Lane :=
  if !hasMore && s.expiredBackoffRewindPending then
    { s with
      expiredBackoffRewindPending := false
      rewindRequested := true
      event := s.event || s.workers.keys.isEmpty }
  else s

/-- The coordinator after its scan has returned. -/
def scanned (request : Request) (pages : Nat) (items : List WorkItem) (hasMore ownsLease stillOwnsLease : Bool) : Lane :=
  if !s.live || s.stopping then s.rest
  else if !ownsLease then { s.stopForLostLease c with coordinator := .ended }
  else
    let s := (items.foldl admitItem (s.advance items hasMore)).rewindExpired hasMore
    if !hasMore || c.laneCapacity ≤ s.workers.keys.length then s.rest
    else if !pageAdvanced request items then s.rest
    else if pages ≤ 1 then { s with scanContinuationTask := true }.rest
    else s.page c stillOwnsLease (pages - 1)

/-! ## Live owners -/

/-- A round of the loop of `run_in_partition`. -/
def admitLive (partition : Key) (caller : Option Nat) (ownsLease : Bool) : Lane :=
  if !s.live || !s.active || s.quiescing || s.stopping then s
  else if !ownsLease then s.stopForLostLease c
  else
    match s.workers.lookup partition with
    | some owner =>
        if caller = some owner then s else { s with waiters := s.waiters ++ [⟨partition, owner, caller⟩] }
    | none =>
        { s with
          workers := s.workers.insert partition s.nextId
          tasks := s.tasks ++ [⟨s.nextId, partition, .live, .running⟩]
          nextId := s.nextId + 1 }

/-- The task with a serial has ended. -/
def done (id : Nat) : Bool := s.tasks.all fun t => t.id ≠ id || t.phase = .finished

def setPhase (id : Nat) (phase : Phase) : Lane :=
  { s with tasks := s.tasks.map fun t => if t.id = id then { t with phase } else t }

def task? (id : Nat) : Option Task := s.tasks.find? fun t => t.id = id

/-- The done callback of a live owner. -/
def releaseLivePartition (t : Task) : Lane :=
  let s := { s with tasks := s.tasks.filter fun u => u.id ≠ t.id }
  let s := if s.workers.lookup t.partition = some t.id then s.release t.partition else s
  { s with event := s.event || s.arms }

end Parts

end Lane

inductive Outcome where
  | processed
  | refused
  | raised
deriving DecidableEq

/-- What a coroutine, a callback or a caller does next. -/
inductive Step where
  | wakes (ownsLease : Bool)
  | scanned (items : List WorkItem) (hasMore ownsLease stillOwnsLease : Bool)
  | scanFailed
  | retried
  | itemStarts (id : Nat) (ownsLease : Bool) (now : Instant)
  | itemEnds (id : Nat) (outcome : Outcome) (now : Instant)
  | liveAsks (partitionKey : Key) (caller : Option Nat) (ownsLease : Bool)
  | waiterWakes (waiter : Waiter) (ownsLease : Bool)
  | liveEnds (id : Nat)
  | liveReleased (id : Nat)
  | backoffEnds (completed : Bool)
  | continuationEnds
  | notified (resetCursor : Bool)
  | delayedWake
  | reconciled (ownsLease : Bool)
  | unregister
  | unregisterFinishes
  | quiesce
  | stop
  | stopBegins

/-- One step of a lane, if it can be taken. -/
def step (c : Config) (s : Lane) : Step → Option Lane
  | .wakes ownsLease =>
      match s.coordinator with
      | .waiting => if s.event then some ({ s with event := false }.page c ownsLease c.scanContinuationPages) else none
      | _ => none
  | .scanned items hasMore ownsLease stillOwnsLease =>
      match s.coordinator with
      | .scanning request pages =>
          if items.length ≤ request.limit then
            some (s.scanned c request pages items hasMore ownsLease stillOwnsLease)
          else none
      | _ => none
  | .scanFailed =>
      match s.coordinator with
      | .scanning _ _ => some (if s.live && !s.stopping then { s with coordinator := .retrying } else s.rest)
      | _ => none
  | .retried =>
      match s.coordinator with
      | .retrying => some { s with event := s.event || s.arms }.rest
      | _ => none
  | .itemStarts id ownsLease now =>
      match s.task? id with
      | some ⟨_, partition, .item item, .created⟩ =>
          if s.live && ownsLease then some (s.setPhase id .running)
          else
            some ((if s.live then s.stopForLostLease c else s).finishItem c ⟨id, partition, .item item, .created⟩ item
              false now)
      | _ => none
  | .itemEnds id outcome now =>
      match s.task? id with
      | some ⟨_, partition, .item item, .running⟩ =>
          some (s.finishItem c ⟨id, partition, .item item, .running⟩ item (outcome ≠ .processed) now)
      | _ => none
  | .liveAsks partitionKey caller ownsLease =>
      if strip partitionKey = [] || s.quiescing || s.stopping || !s.registered then none
      else some (s.admitLive c (strip partitionKey) caller ownsLease)
  | .waiterWakes waiter ownsLease =>
      if waiter ∈ s.waiters ∧ s.done waiter.owner = true then
        let s := { s with waiters := s.waiters.erase waiter }
        let s := if s.workers.lookup waiter.partition = some waiter.owner then s.release waiter.partition else s
        some (s.admitLive c waiter.partition waiter.caller ownsLease)
      else none
  | .liveEnds id =>
      match s.task? id with
      | some ⟨_, _, .live, .running⟩ => some (s.setPhase id .finished)
      | _ => none
  | .liveReleased id =>
      match s.task? id with
      | some ⟨_, partition, .live, .finished⟩ => some (s.releaseLivePartition ⟨id, partition, .live, .finished⟩)
      | _ => none
  | .backoffEnds completed =>
      match s.backoffTask with
      | some deadline => some (s.finishPartitionBackoff deadline completed)
      | none => none
  | .continuationEnds =>
      if s.scanContinuationTask then some { s with scanContinuationTask := false, event := s.event || s.arms } else none
  | .notified resetCursor =>
      if s.registered && s.arms then some { s with rewindRequested := s.rewindRequested || resetCursor, event := true }
      else none
  | .delayedWake =>
      if s.registered && s.arms then some { s with rewindRequested := true, event := true } else none
  | .reconciled ownsLease =>
      if !s.active || s.stopping then none
      else if !ownsLease then some (s.stopForLostLease c)
      else if s.registered && s.live then some { s with rewindRequested := true, event := true }
      else none
  | .unregister => if s.registered && s.live then some { s with live := false, event := true } else none
  | .unregisterFinishes =>
      match s.coordinator with
      | .ended =>
          if s.registered && !s.live && (s.workers.entries.map Sigma.snd).all s.done then
            some { s with backoffTask := none, backoffDeadlines := ∅, scanContinuationTask := false, registered := false }
          else none
      | _ => none
  | .quiesce => some s.quiesce
  | .stop => some { s with stopRequested := true }
  | .stopBegins => if s.stopRequested && !s.stopping then some { s.quiesce with stopping := true } else none

/-- A lane after a run; a step that cannot be taken changes nothing. -/
def after (c : Config) : Lane → List Step → Lane := Machine.after (Machine.ofStep (step c))

end Avibe.Work
