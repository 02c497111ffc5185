import Ecopy.Lib.Runs
import Ecopy.Lib.Threads
import Ecopy.Workers.Config
import Ecopy.Workers.Heap
import Mathlib.Data.Fintype.Basic

/-!
# The copy scheduler

Producers (the traversal threads) hand batches of files to
`workers_enqueue_batch`; workers claim them through `dequeue_work`. Every
critical section under `g_queue_lock` is one step, from taking the lock, or
waking up with it, to releasing it or parking. `g_queue_cond` and
`g_space_cond` are the sets of parked workers and parked producers.

A worker holds at most one small slot. It takes it with its first stash, keeps
it across refills and across a large start, and gives it back when the small
queue is empty. The running pipelines of large files are only counted here.

No shutdown is requested in this model, and the recycling of task nodes is left
out: it happens under the same lock but nothing reads it.
-/
namespace Ecopy.Workers.Scheduler
open Lib.Runs Lib.Threads
open Config (RuntimeConfig)
open Heap (Entry heapPush heapPopMax)

/-- The fields of `file_task_t` the scheduler looks at. -/
structure Task where
  id : ℕ
  size : ℕ
  blocks : ℕ
  sparse : Bool
deriving DecidableEq, Repr

/-- A started pool: the runtime configuration after `workers_start`, whether the
target is remote, and the number of producer threads. -/
structure Pool where
  config : RuntimeConfig
  remote : Bool
  producers : ℕ

variable {P : Pool}

def Pool.workers (P : Pool) : ℕ := P.config.workerCount

def taskWeight (t : Task) : ℕ := min t.size (t.blocks * 512)

def taskUsesLargePipeline (P : Pool) (t : Task) : Bool :=
  if P.remote || decide (t.size ≤ P.config.largeThreshold) then false
  else if !t.sparse then true
  else decide (taskWeight t > P.config.largeThreshold)

/-- `dir_batch_t`; the tasks before `head` are already claimed. -/
structure DirBatch where
  head : ℕ
  tasks : List Task
deriving DecidableEq, Repr

def DirBatch.count (b : DirBatch) : ℕ := b.tasks.length

structure SmallQueue where
  batches : List DirBatch
  len : ℕ
deriving DecidableEq, Repr

def smallqPushBatch (q : SmallQueue) (b : DirBatch) : SmallQueue :=
  ⟨q.batches ++ [b], q.len + (b.count - b.head)⟩

def smallqPopBatch (q : SmallQueue) : Option (DirBatch × SmallQueue) :=
  match q.batches with
  | [] => none
  | b :: rest => some (b, ⟨rest, q.len - (b.count - b.head)⟩)

inductive Pc where
  | ready
  | copying (t : Task)
  | starting (t : Task)
  | parked
  | woken
  | exited
deriving DecidableEq, Repr

/-- Progress of one call of `workers_enqueue_batch`; the list is the part of the
batch that is not queued yet. -/
inductive Producer where
  | idle
  | pending (batch : List Task)
  | parked (batch : List Task)
  | woken (batch : List Task)
deriving DecidableEq, Repr

def Producer.isParked : Producer → Bool
  | .parked _ => true
  | _ => false

structure State (P : Pool) where
  smallQ : SmallQueue
  largeHeap : List (Entry Task)
  queueDone : Bool
  smallWorkersActive : ℕ
  largeWorkersActive : ℕ
  queueWaiters : ℕ
  spaceWaiters : ℕ
  enqueueSeq : ℕ
  pc : Fin P.workers → Pc
  smallSlot : Fin P.workers → Bool
  stash : Fin P.workers → List Task
  producer : Fin P.producers → Producer
  /-- Large files whose pipeline is running. -/
  pipelines : ℕ
  /-- Every task handed to a worker so far. -/
  handed : List Task

def State.start (P : Pool) : State P where
  smallQ := ⟨[], 0⟩
  largeHeap := []
  queueDone := false
  smallWorkersActive := 0
  largeWorkersActive := 0
  queueWaiters := 0
  spaceWaiters := 0
  enqueueSeq := 0
  pc := fun _ => .ready
  smallSlot := fun _ => false
  stash := fun _ => []
  producer := fun _ => .idle
  pipelines := 0
  handed := []

def smallClaimBatch : ℕ := 8
def spaceWakeMinSlots : ℕ := 1024

def State.slotsUsed (s : State P) : ℕ :=
  s.smallWorkersActive + s.largeWorkersActive * P.config.largeWorkerCount

def State.queued (s : State P) : ℕ := s.smallQ.len + s.largeHeap.length

def spaceWakeMin (P : Pool) : ℕ :=
  let m := P.config.maxQueuedFiles / 4
  let m := if m > spaceWakeMinSlots then spaceWakeMinSlots else m
  if m > 0 then m else 1

/-- A signal on `g_space_cond`: the chosen producer, if any, must be parked. -/
def signalSpace (s : State P) : Option (Fin P.producers) → Option (State P)
  | some k =>
    match s.producer k with
    | .parked batch => some { s with producer := Function.update s.producer k (.woken batch) }
    | _ => none
  | none => if ∀ k, (s.producer k).isParked = false then some s else none

def wakeProducerIfRoom (s : State P) (wake : Option (Fin P.producers)) : Option (State P) :=
  if s.spaceWaiters > 0 ∧ P.config.maxQueuedFiles - s.queued ≥ spaceWakeMin P then
    signalSpace s wake
  else if wake = none then some s else none

/-- The test of `dequeue_work` for starting a large file. -/
def State.largeClaimable (s : State P) : Prop :=
  0 < s.largeHeap.length ∧ s.largeWorkersActive < P.config.maxActiveLargeFiles ∧
    s.slotsUsed + P.config.largeWorkerCount ≤ P.workers

/-- A small task is queued and a thread without a slot may take one. -/
def State.smallClaimable (s : State P) : Prop :=
  0 < s.smallQ.len ∧ s.smallWorkersActive < P.config.smallWorkerLimit ∧ s.slotsUsed + 1 ≤ P.workers

/-- Nothing left to do and nothing to come. -/
def State.terminal (s : State P) : Prop :=
  s.queueDone = true ∧ s.smallQ.len = 0 ∧ s.largeHeap.length = 0 ∧
    s.smallWorkersActive = 0 ∧ s.largeWorkersActive = 0

instance (s : State P) : Decidable s.largeClaimable := by
  unfold State.largeClaimable
  infer_instance

instance (s : State P) : Decidable s.smallClaimable := by
  unfold State.smallClaimable
  infer_instance

instance (s : State P) : Decidable s.terminal := by
  unfold State.terminal
  infer_instance

def broadcastQueue (s : State P) : State P :=
  { s with pc := broadcast .parked .woken s.pc }

def claimLarge (s : State P) (i : Fin P.workers) (wake : Option (Fin P.producers)) :
    Option (State P) := do
  let (e, rest) ← heapPopMax s.largeHeap
  let s := { s with
    largeHeap := rest
    largeWorkersActive := s.largeWorkersActive + 1
    pc := Function.update s.pc i (.starting e.task)
    handed := s.handed ++ [e.task] }
  wakeProducerIfRoom s wake

/-- Claim a run of tasks from the head batch. The producers are woken before a
part-claimed batch goes back behind the other directories. -/
def claimSmall (s : State P) (i : Fin P.workers) (wake : Option (Fin P.producers)) :
    Option (State P) := do
  let (b, q) ← smallqPopBatch s.smallQ
  let run := (b.tasks.drop b.head).take smallClaimBatch
  let s := { s with
    smallQ := q
    smallWorkersActive := if s.smallSlot i then s.smallWorkersActive else s.smallWorkersActive + 1
    smallSlot := Function.update s.smallSlot i true }
  let s ← wakeProducerIfRoom s wake
  let b := { b with head := b.head + run.length }
  match run with
  | [] => none
  | t :: stash =>
    some { s with
      smallQ := if b.head < b.count then smallqPushBatch s.smallQ b else s.smallQ
      pc := Function.update s.pc i (.copying t)
      stash := Function.update s.stash i stash
      handed := s.handed ++ [t] }

/-- Give the slot back; the last one out of a finished queue tells everybody. -/
def releaseSlot (s : State P) (i : Fin P.workers) : State P :=
  if s.smallSlot i then
    let s := { s with
      smallSlot := Function.update s.smallSlot i false
      smallWorkersActive := s.smallWorkersActive - 1 }
    if s.terminal then broadcastQueue s else s
  else s

def leaveOrPark (s : State P) (i : Fin P.workers) : State P :=
  if s.terminal then { s with pc := Function.update s.pc i .exited }
  else
    { s with
      queueWaiters := s.queueWaiters + 1
      pc := Function.update s.pc i .parked }

/-- One round of the loop of `dequeue_work`. -/
def dequeueRound (s : State P) (i : Fin P.workers) (wake : Option (Fin P.producers)) :
    Option (State P) :=
  if s.largeClaimable then claimLarge s i wake
  else if 0 < s.smallQ.len ∧ (s.smallSlot i = true ∨ s.smallClaimable) then claimSmall s i wake
  else if wake = none then some (leaveOrPark (releaseSlot s i) i) else none

def dequeueWork (s : State P) (i : Fin P.workers) (wake : Option (Fin P.producers)) :
    Option (State P) :=
  match s.pc i with
  | .ready =>
    match s.stash i with
    | t :: rest =>
      if wake = none then
        some { s with
          pc := Function.update s.pc i (.copying t)
          stash := Function.update s.stash i rest
          handed := s.handed ++ [t] }
      else none
    | [] => dequeueRound s i wake
  | .woken => dequeueRound { s with queueWaiters := s.queueWaiters - 1 } i wake
  | _ => none

/-- The slice that fits goes to the heap and to one directory batch. -/
def distribute (P : Pool) : List Task → List (Entry Task) → ℕ → List (Entry Task) × ℕ × List Task
  | [], heap, seq => (heap, seq, [])
  | t :: ts, heap, seq =>
    if taskUsesLargePipeline P t then
      if P.config.sizePriority ≠ 0 then distribute P ts (heapPush heap ⟨taskWeight t, t⟩) seq
      else distribute P ts (heapPush heap ⟨2 ^ 64 - 1 - seq % 2 ^ 64, t⟩) (seq + 1)
    else
      let r := distribute P ts heap seq
      (r.1, r.2.1, t :: r.2.2)

/-- How many parked workers a freshly queued slice is worth. -/
def wakesFor (s : State P) : ℕ :=
  let freeSlots := P.workers - s.slotsUsed
  let largeWake :=
    if 0 < s.largeHeap.length ∧ s.largeWorkersActive < P.config.maxActiveLargeFiles ∧
        freeSlots ≥ P.config.largeWorkerCount then
      min (min (P.config.maxActiveLargeFiles - s.largeWorkersActive) s.largeHeap.length)
        (freeSlots / P.config.largeWorkerCount)
    else 0
  let freeSlots := freeSlots - largeWake * P.config.largeWorkerCount
  let smallWake :=
    if 0 < s.smallQ.len ∧ freeSlots > 0 then
      let stashes := (s.smallQ.len + smallClaimBatch - 1) / smallClaimBatch
      min (min (P.config.smallWorkerLimit - s.smallWorkersActive) stashes) freeSlots
    else 0
  min (largeWake + smallWake) s.queueWaiters

/-- Queue what fits of the remainder `batch` and send the wakes. -/
def enqueueSlice (s : State P) (k : Fin P.producers) (batch : List Task)
    (wakes : List (Option (Fin P.workers))) : Option (State P) :=
  let room := P.config.maxQueuedFiles - s.queued
  let take := min batch.length room
  let (heap, seq, small) := distribute P (batch.take take) s.largeHeap s.enqueueSeq
  let s := { s with largeHeap := heap, enqueueSeq := seq }
  let s := if small = [] then s else { s with smallQ := smallqPushBatch s.smallQ ⟨0, small⟩ }
  let rest := batch.drop take
  let s := { s with
    producer := Function.update s.producer k (if rest = [] then .idle else .pending rest) }
  if wakes.length = wakesFor s then
    (signals .parked .woken s.pc wakes).map fun pc => { s with pc := pc }
  else none

/-- One round of the wait for space and, when there is some, of the slice. -/
def enqueueRound (s : State P) (k : Fin P.producers) (batch : List Task)
    (wakes : List (Option (Fin P.workers))) : Option (State P) :=
  let need := if batch.length < spaceWakeMin P then batch.length else spaceWakeMin P
  if P.config.maxQueuedFiles - s.queued < need then
    if wakes = [] then
      some { s with
        spaceWaiters := s.spaceWaiters + 1
        producer := Function.update s.producer k (.parked batch) }
    else none
  else enqueueSlice s k batch wakes

/-- The failed `heap_reserve` of a producer that was woken and sees room. It is asked for more
than the heap holds only when the slice has a large file; the capacity is left open. The
producer leaves without a task and without passing its wake on. -/
def reserveFails (s : State P) (k : Fin P.producers) (batch : List Task) : Option (State P) :=
  let s := { s with spaceWaiters := s.spaceWaiters - 1 }
  let room := P.config.maxQueuedFiles - s.queued
  let need := if batch.length < spaceWakeMin P then batch.length else spaceWakeMin P
  if need ≤ room ∧ ∃ t ∈ batch.take (min batch.length room), taskUsesLargePipeline P t then
    some { s with producer := Function.update s.producer k .idle }
  else none

def enqueueBatch (s : State P) (k : Fin P.producers) (wakes : List (Option (Fin P.workers))) :
    Option (State P) :=
  match s.producer k with
  | .pending batch => enqueueRound s k batch wakes
  | .woken batch => enqueueRound { s with spaceWaiters := s.spaceWaiters - 1 } k batch wakes
  | _ => none

inductive Act (P : Pool) where
  | dequeue (i : Fin P.workers) (wake : Option (Fin P.producers))
  | copied (i : Fin P.workers)
  | started (i : Fin P.workers) (ok : Bool)
  | finishLarge
  | submit (k : Fin P.producers) (batch : List Task)
  | enqueue (k : Fin P.producers) (wakes : List (Option (Fin P.workers)))
  | abandon (k : Fin P.producers)
  | reserveFails (k : Fin P.producers)
  | workersStop
  | spuriousWorker (i : Fin P.workers)
  | spuriousProducer (k : Fin P.producers)
deriving DecidableEq

/-- `abandon` is the exit of `workers_enqueue_batch` on a failed allocation of a
producer that has not been woken, `reserveFails` that of one that has,
`started i false` the failed start of a large file and `finishLarge` the end of
`finish_large_file_ctx`. -/
def step (s : State P) : Act P → Option (State P)
  | .dequeue i wake => dequeueWork s i wake
  | .copied i =>
    match s.pc i with
    | .copying _ => some { s with pc := Function.update s.pc i .ready }
    | _ => none
  | .started i ok =>
    match s.pc i with
    | .starting _ =>
      if ok then
        some { s with pipelines := s.pipelines + 1, pc := Function.update s.pc i .ready }
      else
        some (broadcastQueue { s with
          largeWorkersActive := s.largeWorkersActive - 1
          pc := Function.update s.pc i .ready })
    | _ => none
  | .finishLarge =>
    if 0 < s.pipelines then
      some (broadcastQueue { s with
        pipelines := s.pipelines - 1
        largeWorkersActive := s.largeWorkersActive - 1 })
    else none
  | .submit k batch =>
    match s.producer k with
    | .idle =>
      if batch = [] then none
      else some { s with producer := Function.update s.producer k (.pending batch) }
    | _ => none
  | .enqueue k wakes => enqueueBatch s k wakes
  | .abandon k =>
    match s.producer k with
    | .pending _ => some { s with producer := Function.update s.producer k .idle }
    | _ => none
  | .reserveFails k =>
    match s.producer k with
    | .woken batch => reserveFails s k batch
    | _ => none
  | .workersStop => some (broadcastQueue { s with queueDone := true })
  | .spuriousWorker i =>
    if s.pc i = .parked then some { s with pc := Function.update s.pc i .woken } else none
  | .spuriousProducer k =>
    match s.producer k with
    | .parked batch => some { s with producer := Function.update s.producer k (.woken batch) }
    | _ => none

/-- No worker that has not exited is awake or about to wake, at least one is
parked, and yet there is a task to claim or nothing left to wait for. -/
def State.Stranded (s : State P) : Prop :=
  (∃ i, s.pc i = .parked) ∧ (∀ i, s.pc i = .parked ∨ s.pc i = .exited) ∧
    (s.largeClaimable ∨ s.smallClaimable ∨ s.terminal)

instance (s : State P) : Decidable s.Stranded := by
  unfold State.Stranded
  infer_instance

end Ecopy.Workers.Scheduler
