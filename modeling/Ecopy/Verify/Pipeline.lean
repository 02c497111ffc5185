import Ecopy.Lib.Runs
import Ecopy.Lib.Threads
import Ecopy.Protocol.Wire

/-!
# The copy/verify pipeline

While the copy runs, finished files are queued for verification. Producers put
them on a bounded intake list, a feeder thread takes the whole list at a time
and distributes it: durable items go to the pool queue at once, the others are
held back as a generation that is released behind a barrier. Pool workers take
items from the pool queue and verify them. Directories are held on a list of
their own until `verify_pipeline_finish`.

Every critical section is one step, and so is the distribution of one item.
Threads that wait are in a `parked` state and count as waiters until they have
the lock again. `pool->queued` is the length of the pool queue. The results of
the verifications, the barriers, the peaks and the statistics are left out, and
so are failed allocations.
-/
namespace Ecopy.Verify.Pipeline
open Protocol (Bytes)
open Lib.Threads

structure Item where
  src : Bytes
  dst : Bytes
  skipped : Bool
  isDir : Bool
  durable : Bool
deriving DecidableEq, Repr

/-- `includeDirs` is the argument of `verify_pipeline_finish`. -/
structure Config where
  metadata : Bool
  data : Bool
  includeSkipped : Bool
  includeDirs : Bool
  producers : ℕ
  workers : ℕ
  queueMax : ℕ
  pipelineOps : ℕ
  workers_pos : 0 < workers
  queueMax_pos : 0 < queueMax

variable {c : Config}

/-- `verify_enabled` -/
def Config.enabled (c : Config) : Bool := c.metadata || c.data

def Config.limit (c : Config) : ℕ := if c.workers * 4 < 16 then 16 else c.workers * 4

inductive ProducerPc where
  | idle
  | entering (x : Item)
  | parked (x : Item)
  | woken (x : Item)
deriving DecidableEq, Repr

/-- Where a thread is in `verify_pool_submit`. -/
inductive Sub where
  | fresh
  | parked
  | woken
deriving DecidableEq, Repr

/-- What the feeder does with its items: distribute a batch it took, or release a generation. -/
inductive Task where
  | distribute (stolen : ℕ) (timedOut stop : Bool)
  | flush (stop : Bool)
deriving DecidableEq, Repr

inductive FeederPc where
  | top
  | parked
  | woken
  | expired
  | busy (rest : List Item) (sub : Sub) (task : Task)
  | exited
deriving DecidableEq, Repr

inductive WorkerPc where
  | top
  | parked
  | woken
  | verifying (x : Item)
  | exited
deriving DecidableEq, Repr

/-- The thread that calls `verify_pipeline_finish`. -/
inductive MainPc where
  | running
  | joining
  | releasing (rest : List Item) (sub : Sub)
  | closing
  | clearing
  | returned
deriving DecidableEq, Repr

/-- `files` and `directories` are all items queued so far, `verified` those the verifier is done
with and `dropped` those freed without it. -/
structure State (c : Config) where
  shutdown : Bool
  intake : List Item
  dirs : List Item
  pending : ℕ
  feederStop : Bool
  queueCvWaiters : ℕ
  spaceWaiters : ℕ
  gen : List Item
  queue : List Item
  poolStop : Bool
  producer : Fin c.producers → ProducerPc
  feeder : FeederPc
  worker : Fin c.workers → WorkerPc
  main : MainPc
  files : List Item
  directories : List Item
  verified : List Item
  dropped : List Item

def State.start (c : Config) : State c where
  shutdown := false
  intake := []
  dirs := []
  pending := 0
  feederStop := false
  queueCvWaiters := 0
  spaceWaiters := 0
  gen := []
  queue := []
  poolStop := false
  producer := fun _ => .idle
  feeder := .top
  worker := fun _ => .top
  main := .running
  files := []
  directories := []
  verified := []
  dropped := []

/-- `g_feeder_started` -/
def State.feederStarted (s : State c) : Bool := s.main = .running || s.main = .joining

def ProducerPc.wake : ProducerPc → ProducerPc
  | .parked x => .woken x
  | p => p

/-- A broadcast on `g_space_cv`. -/
def broadcastSpace (s : State c) : State c := { s with producer := fun i => (s.producer i).wake }

def FeederPc.wake : FeederPc → FeederPc
  | .parked => .woken
  | f => f

/-- A signal on the pool's `space_cv`: only the feeder, and after it has left only the
finishing thread, submits. -/
def signalPoolSpace (s : State c) : State c :=
  match s.feeder, s.main with
  | .busy rest .parked task, _ => { s with feeder := .busy rest .woken task }
  | _, .releasing rest .parked => { s with main := .releasing rest .woken }
  | _, _ => s

/-- The call up to the lock. -/
def callFile (s : State c) (i : Fin c.producers) (x : Item) : Option (State c) :=
  if s.producer i = .idle ∧ x.isDir = false then
    if !c.enabled || (x.skipped && !c.includeSkipped) then some s
    else some { s with producer := Function.update s.producer i (.entering x) }
  else none

def fileBody (s : State c) (i : Fin c.producers) (x : Item) : State c :=
  if s.feederStarted && !s.feederStop && decide (s.pending ≥ c.queueMax) then
    { s with
      spaceWaiters := s.spaceWaiters + 1
      producer := Function.update s.producer i (.parked x) }
  else
    { s with
      intake := s.intake ++ [x]
      pending := s.pending + 1
      files := s.files ++ [x]
      producer := Function.update s.producer i .idle
      feeder := if s.queueCvWaiters > 0 then s.feeder.wake else s.feeder }

def lockFile (s : State c) (i : Fin c.producers) : Option (State c) :=
  match s.producer i with
  | .entering x => some (fileBody s i x)
  | .woken x => some (fileBody { s with spaceWaiters := s.spaceWaiters - 1 } i x)
  | _ => none

def queueDirectory (s : State c) (x : Item) : Option (State c) :=
  if x.isDir then
    if !c.metadata then some s
    else some { s with dirs := s.dirs ++ [x], directories := s.directories ++ [x] }
  else none

inductive Submitted (c : Config) where
  | waits
  | refused
  | accepted (worker : Fin c.workers → WorkerPc)

def submit (s : State c) (wake : Option (Fin c.workers)) : Option (Submitted c) :=
  if s.queue.length ≥ c.limit ∧ s.poolStop = false ∧ s.shutdown = false then some .waits
  else if s.poolStop || s.shutdown then some .refused
  else (signal .parked .woken s.worker wake).map .accepted

/-- `g_queue_lock` is taken and the list is detached. -/
def takeBatch (s : State c) (timedOut : Bool) : State c :=
  if s.shutdown then
    { s with
      intake := []
      gen := []
      dropped := s.dropped ++ s.intake ++ s.gen
      feeder := .busy [] .fresh (.distribute s.intake.length timedOut s.feederStop) }
  else
    { s with
      intake := []
      feeder := .busy s.intake .fresh (.distribute s.intake.length timedOut s.feederStop) }

def feederBody (s : State c) : State c :=
  if s.intake = [] ∧ s.feederStop = false then
    { s with queueCvWaiters := s.queueCvWaiters + 1, feeder := .parked }
  else takeBatch s false

def feederLock (s : State c) : Option (State c) :=
  match s.feeder with
  | .top => some (feederBody s)
  | .woken => some (feederBody { s with queueCvWaiters := s.queueCvWaiters - 1 })
  | .expired => some (takeBatch { s with queueCvWaiters := s.queueCvWaiters - 1 } true)
  | _ => none

/-- One item of the feeder's list. -/
def feederItem (s : State c) (wake : Option (Fin c.workers)) : Option (State c) :=
  match s.feeder with
  | .busy (x :: rest) sub task =>
    if sub = .parked then none
    else
      match task, x.durable with
      | .distribute _ _ _, false =>
        some { s with gen := s.gen ++ [x], feeder := .busy rest .fresh task }
      | _, _ =>
        (submit s wake).map fun
          | .waits => { s with feeder := .busy (x :: rest) .parked task }
          | .refused =>
            { s with dropped := s.dropped ++ [x], feeder := .busy rest .fresh task }
          | .accepted worker =>
            { s with
              queue := s.queue ++ [x], worker := worker, feeder := .busy rest .fresh task }
  | _ => none

/-- The item after it was offered to the pool. -/
def offered (s : State c) (x : Item) (rest : List Item) (task : Task) : Submitted c → State c
  | .waits => { s with feeder := .busy (x :: rest) .parked task }
  | .refused => { s with dropped := s.dropped ++ [x], feeder := .busy rest .fresh task }
  | .accepted worker =>
    { s with queue := s.queue ++ [x], worker := worker, feeder := .busy rest .fresh task }

/-- Where the feeder goes after its batch: to the generation when it is full or the copy is idle. -/
def nextTask (c : Config) (gen : List Item) (timedOut stop : Bool) : FeederPc × List Item :=
  if gen ≠ [] ∧ (gen.length ≥ c.pipelineOps ∨ timedOut = true ∨ stop = true) then
    (.busy gen .fresh (.flush stop), [])
  else (if stop then .exited else .top, gen)

/-- The list is done: the count is adjusted, or the generation is out. -/
def feederAccount (s : State c) : Option (State c) :=
  match s.feeder with
  | .busy [] _ (.distribute stolen timedOut stop) =>
    let s :=
      if stolen > 0 then
        let s := { s with pending := s.pending - stolen }
        if s.spaceWaiters > 0 then broadcastSpace s else s
      else s
    let next := nextTask c s.gen timedOut stop
    some { s with feeder := next.1, gen := next.2 }
  | .busy [] _ (.flush stop) => some { s with feeder := if stop then .exited else .top }
  | _ => none

def workerBody (s : State c) (j : Fin c.workers) : State c :=
  match s.queue with
  | [] =>
    if s.poolStop then { s with worker := Function.update s.worker j .exited }
    else { s with worker := Function.update s.worker j .parked }
  | x :: queue =>
    if s.shutdown then { s with worker := Function.update s.worker j .exited }
    else
      signalPoolSpace { s with
        queue := queue, worker := Function.update s.worker j (.verifying x) }

def workerLock (s : State c) (j : Fin c.workers) : Option (State c) :=
  match s.worker j with
  | .top => some (workerBody s j)
  | .woken => some (workerBody s j)
  | _ => none

/-- `verify_local_item` or `verify_remote_item` returns. -/
def workerDone (s : State c) (j : Fin c.workers) : Option (State c) :=
  match s.worker j with
  | .verifying x =>
    some { s with
      verified := s.verified ++ [x], worker := Function.update s.worker j .top }
  | _ => none

def finish (s : State c) : Option (State c) :=
  if s.main = .running then
    some { s with feederStop := true, feeder := s.feeder.wake, main := .joining }
  else none

def joinFeeder (s : State c) : Option (State c) :=
  if s.main = .joining ∧ s.feeder = .exited then
    some { s with dirs := [], main := .releasing s.dirs .fresh }
  else none

def release (s : State c) (wake : Option (Fin c.workers)) : Option (State c) :=
  match s.main with
  | .releasing (x :: rest) sub =>
    if sub = .parked then none
    else if c.includeDirs then
      (submit s wake).map fun
        | .waits => { s with main := .releasing (x :: rest) .parked }
        | .refused => { s with dropped := s.dropped ++ [x], main := .releasing rest .fresh }
        | .accepted worker =>
          { s with queue := s.queue ++ [x], worker := worker, main := .releasing rest .fresh }
    else some { s with dropped := s.dropped ++ [x], main := .releasing rest .fresh }
  | _ => none

/-- The first half of `verify_pool_finish`. -/
def closePool (s : State c) : Option (State c) :=
  match s.main with
  | .releasing [] _ =>
    some { s with
      poolStop := true, worker := broadcast .parked .woken s.worker, main := .closing }
  | _ => none

def joinWorkers (s : State c) : Option (State c) :=
  if s.main = .closing ∧ ∀ j, s.worker j = .exited then
    some { s with queue := [], dropped := s.dropped ++ s.queue, main := .clearing }
  else none

/-- Stragglers on the intake list are freed. -/
def clearIntake (s : State c) : Option (State c) :=
  if s.main = .clearing then
    let s := { s with
      intake := [], pending := 0, dropped := s.dropped ++ s.intake, main := .returned }
    some (if s.spaceWaiters > 0 then broadcastSpace s else s)
  else none

inductive Act (c : Config) where
  | callFile (i : Fin c.producers) (x : Item)
  | lockFile (i : Fin c.producers)
  | queueDirectory (x : Item)
  | feederLock
  | feederExpire
  | feederItem (wake : Option (Fin c.workers))
  | feederAccount
  | workerLock (j : Fin c.workers)
  | workerDone (j : Fin c.workers)
  | finish
  | joinFeeder
  | release (wake : Option (Fin c.workers))
  | closePool
  | joinWorkers
  | clearIntake
  | spuriousProducer (i : Fin c.producers)
  | spuriousFeeder
  | spuriousSubmitter
  | spuriousWorker (j : Fin c.workers)
  | shutdown
  | requestStopFeeder
  | requestStopPool
deriving DecidableEq

/-- `feederExpire` is the end of the timed wait; the last three are the shutdown flag and the two
halves of `verify_request_stop`. -/
def step (s : State c) : Act c → Option (State c)
  | .callFile i x => callFile s i x
  | .lockFile i => lockFile s i
  | .queueDirectory x => queueDirectory s x
  | .feederLock => feederLock s
  | .feederExpire => if s.feeder = .parked then some { s with feeder := .expired } else none
  | .feederItem wake => feederItem s wake
  | .feederAccount => feederAccount s
  | .workerLock j => workerLock s j
  | .workerDone j => workerDone s j
  | .finish => finish s
  | .joinFeeder => joinFeeder s
  | .release wake => release s wake
  | .closePool => closePool s
  | .joinWorkers => joinWorkers s
  | .clearIntake => clearIntake s
  | .spuriousProducer i =>
    some { s with producer := Function.update s.producer i (s.producer i).wake }
  | .spuriousFeeder => if s.feeder = .parked then some { s with feeder := .woken } else none
  | .spuriousSubmitter => some (signalPoolSpace s)
  | .spuriousWorker j =>
    if s.worker j = .parked then some { s with worker := Function.update s.worker j .woken }
    else none
  | .shutdown => some { s with shutdown := true }
  | .requestStopFeeder =>
    some (broadcastSpace { s with feederStop := true, feeder := s.feeder.wake })
  | .requestStopPool =>
    some (signalPoolSpace { s with
      poolStop := true, worker := broadcast .parked .woken s.worker })

/-- No shutdown, and every call that queues an item is over when `verify_pipeline_finish` is
called. -/
def InTime (s : State c) : Act c → Prop
  | .callFile _ _ => s.main = .running
  | .queueDirectory _ => s.main = .running
  | .finish => ∀ i, s.producer i = .idle
  | .shutdown => False
  | .requestStopFeeder => False
  | .requestStopPool => False
  | _ => True

instance (s : State c) (a : Act c) : Decidable (InTime s a) := by
  cases a <;> unfold InTime <;> infer_instance

end Ecopy.Verify.Pipeline
