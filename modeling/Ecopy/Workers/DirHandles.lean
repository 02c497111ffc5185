import Ecopy.Lib.Runs
import Ecopy.Workers.Heap
import Mathlib.Data.Fintype.Defs

/-!
# Directory handles and the tasks that hold them

A walker creates the `dir_handle_t` of a directory and owns its first reference.
`workers_enqueue_batch` takes one more for each task it builds, and
`start_large_file_copy` one for the context of a large file. The references of
finished small tasks are dropped in bulk, outside the queue lock.

Every retain and every release is a step of its own, and so is every critical
section without one. What the lock excludes is not used: a release that happens
under it may here be interleaved with the other threads. What `dequeue_work`
compares with its limits on active workers and the room in the queue are left to
the schedule too, and so are allocations, the kernel's choice of a descriptor and
the outcome of a copy. Each run of the program is one of the runs below.

Tasks live in nodes. A node is an address: a queue, a stash or the free list
holds the address, and the memory says which task is in the node. Each reference
is numbered when it is taken, and a node remembers the reference its task took.
-/
namespace Ecopy.Workers.DirHandles
open Heap (Entry heapPush heapPopMax)

/-- `dir_handle_t`; `closed` are the descriptors it gave to `close` so far. -/
structure Handle where
  srcFd : ℤ
  dstFd : ℤ
  refs : ℕ
  closed : List ℤ
deriving DecidableEq, Repr

def dirHandleCreate (srcFd dstFd : ℤ) : Handle := ⟨srcFd, dstFd, 1, []⟩

def dirHandleRetain (dir : Handle) : Handle := { dir with refs := dir.refs + 1 }

/-- A remote destination has no descriptor. -/
def Handle.descriptors (dir : Handle) : List ℤ := [dir.srcFd, dir.dstFd].filter fun fd => 0 ≤ fd

def dirHandleRelease (dir : Handle) : Handle :=
  let refs := if dir.refs > 0 then dir.refs - 1 else dir.refs
  if refs = 0 then { dir with refs := refs, closed := dir.closed ++ dir.descriptors }
  else { dir with refs := refs }

inductive Holder where
  | walker
  | task
  | largeFile
deriving DecidableEq, Repr

/-- One reference: its number, who took it, and the handle it is to. -/
structure Ref where
  serial : ℕ
  holder : Holder
  dir : ℕ
deriving DecidableEq, Repr

/-- The handles by their number, what the open descriptors of the process stand for, and the
references taken and dropped so far. -/
structure Ledger where
  handles : List Handle
  fds : ℤ → Option ℕ
  taken : List Ref
  dropped : List Ref

/-- The kernel hands out descriptors that are not in use. -/
def Ledger.Unused (l : Ledger) (srcFd dstFd : ℤ) : Prop :=
  0 ≤ srcFd ∧ l.fds srcFd = none ∧ (dstFd < 0 ∨ dstFd ≠ srcFd ∧ l.fds dstFd = none)

instance (l : Ledger) (srcFd dstFd : ℤ) : Decidable (l.Unused srcFd dstFd) := by
  unfold Ledger.Unused
  infer_instance

/-- The next reference. -/
def Ledger.ref (l : Ledger) (holder : Holder) (dir : ℕ) : Ref := ⟨l.taken.length, holder, dir⟩

def Ledger.create (l : Ledger) (srcFd dstFd : ℤ) : Ledger :=
  let dir := dirHandleCreate srcFd dstFd
  { l with
    handles := l.handles ++ [dir]
    fds := fun fd => if fd ∈ dir.descriptors then some l.handles.length else l.fds fd
    taken := l.taken ++ [l.ref .walker l.handles.length] }

def Ledger.retain (l : Ledger) (holder : Holder) (dir : ℕ) : Ledger :=
  { l with
    handles := l.handles.modify dir dirHandleRetain
    taken := l.taken ++ [l.ref holder dir] }

/-- What a release closes. -/
def Ledger.closing (l : Ledger) (dir : ℕ) : List ℤ :=
  match l.handles[dir]? with
  | none => []
  | some h => if (dirHandleRelease h).refs = 0 then h.descriptors else []

def Ledger.release (l : Ledger) (r : Ref) : Ledger :=
  { l with
    handles := l.handles.modify r.dir dirHandleRelease
    fds := fun fd => if fd ∈ l.closing r.dir then none else l.fds fd
    dropped := l.dropped ++ [r] }

/-- The content of a node: the reference of its task and the answer of
`task_uses_large_pipeline`. -/
structure Task where
  ref : Ref
  large : Bool
deriving DecidableEq, Repr

/-- `dir_batch_t`; the tasks before `head` are already claimed. A batch in the queue has some left. -/
structure DirBatch where
  head : ℕ
  tasks : List ℕ
  head_lt : head < tasks.length

def DirBatch.remaining (b : DirBatch) : List ℕ := b.tasks.drop b.head

/-- A batch goes to the end of the queue if it has tasks left. -/
def smallqPushBatch (q : List DirBatch) (head : ℕ) (tasks : List ℕ) : List DirBatch :=
  if h : head < tasks.length then q ++ [⟨head, tasks, h⟩] else q

/-- What the threads share. `running` are the contexts of the large files whose finalizer was
started, `ended` counts those that dropped their reference and still hold the slot. -/
structure Shared where
  ledger : Ledger
  node : ℕ → Task
  nodes : ℕ
  freelist : List ℕ
  shutdown : Bool
  queueDone : Bool
  smallQ : List DirBatch
  largeHeap : List (Entry ℕ)
  largeWorkersActive : ℕ
  running : List Ref
  ended : ℕ

/-- `dir_handle_release (node->dir)` -/
def Shared.releaseNode (sh : Shared) (t : ℕ) : Shared :=
  { sh with ledger := sh.ledger.release (sh.node t).ref }

def Shared.release (sh : Shared) (r : Ref) : Shared :=
  { sh with ledger := sh.ledger.release r }

/-- Nodes are pushed on the free list one by one. -/
def Shared.recycle (sh : Shared) (ts : List ℕ) : Shared :=
  { sh with freelist := ts.reverse ++ sh.freelist }

def smallClaimBatch : ℕ := 8

/-- A worker thread: in `worker_main`, in `dequeue_work` or in `start_large_file_copy`. The stash
and its head are those of `worker_main`; without one the stash is empty. -/
inductive Worker where
  | ready (stash : List ℕ) (head : ℕ)
  | copying (stash : List ℕ) (head : ℕ)
  /-- The loop over the finished tasks of the stash, outside the lock. -/
  | dropping (stash : List ℕ) (head k : ℕ)
  /-- A shutdown was seen under the lock: the remainder of the stash is dropped. -/
  | abandoning (stash : List ℕ) (head : ℕ)
  | looping
  | starting (t : ℕ)
  | opened (t : ℕ) (ctx : Ref)
  /-- A thread could not be created: `finish_large_file_ctx` runs here. -/
  | finishing (t : ℕ) (ctx : Ref)
  /-- The context is gone and the slot of the large file has to be given back. -/
  | givingSlot (t : ℕ)
  /-- `free_file_task`: first the reference, then the node. -/
  | freeing (t : ℕ)
  | recycling (t : ℕ)
  | exited
deriving DecidableEq, Repr

inductive WorkerAct where
  | dequeue
  | copied
  | drop
  | lock
  | claimLarge
  | claimSmall
  | leave
  | retain
  | fail
  | spawn
  | spawnFails
  | giveSlot
  | recycle
deriving DecidableEq, Repr

/-- `dequeue_work` before the lock: the next task of the stash, or the end of the stash. -/
def dequeueWork (sh : Shared) (stash : List ℕ) (head : ℕ) : Worker :=
  if head < stash.length ∧ sh.shutdown = false then .copying stash (head + 1)
  else .dropping stash head 0

/-- `dequeue_work` under the lock, up to its loop. -/
def lockStash (sh : Shared) (stash : List ℕ) (head : ℕ) : Shared × Worker :=
  if sh.shutdown then (sh, .abandoning stash head)
  else (sh.recycle (stash.take head), .looping)

def claimLarge (sh : Shared) : Option (Shared × Worker) :=
  if sh.shutdown then none
  else
    (heapPopMax sh.largeHeap).map fun top =>
      ({ sh with
          largeHeap := top.2
          largeWorkersActive := sh.largeWorkersActive + 1 }, .starting top.1.task)

/-- A run of tasks of the first batch; a part-claimed batch goes behind the others. -/
def claimSmall (sh : Shared) : Option (Shared × Worker) :=
  match sh.smallQ with
  | [] => none
  | b :: rest =>
    if sh.shutdown then none
    else
      let stash := b.remaining.take smallClaimBatch
      some ({ sh with smallQ := smallqPushBatch rest (b.head + stash.length) b.tasks },
        .copying stash 1)

def mayLeave (sh : Shared) : Bool :=
  sh.shutdown ||
    sh.queueDone && sh.smallQ.isEmpty && sh.largeHeap.isEmpty && decide (sh.largeWorkersActive = 0)

def workerNext (sh : Shared) : Worker → WorkerAct → Option (Shared × Worker)
  | .ready stash head, .dequeue => some (sh, dequeueWork sh stash head)
  | .copying stash head, .copied => some (sh, .ready stash head)
  | .dropping stash head k, .drop =>
    if k < head then
      stash[k]?.map fun t => (sh.releaseNode t, .dropping stash head (k + 1))
    else none
  | .dropping stash head k, .lock => if k < head then none else some (lockStash sh stash head)
  | .abandoning stash head, .drop =>
    stash[head]?.map fun t => (sh.releaseNode t, .abandoning stash (head + 1))
  | .abandoning stash head, .leave =>
    if head < stash.length then none else some (sh.recycle (stash.take head), .exited)
  | .looping, .claimLarge => claimLarge sh
  | .looping, .claimSmall => claimSmall sh
  | .looping, .leave => if mayLeave sh then some (sh, .exited) else none
  | .starting t, .fail => some (sh, .givingSlot t)
  | .starting t, .retain =>
    some ({ sh with ledger := sh.ledger.retain .largeFile (sh.node t).ref.dir },
      .opened t (sh.ledger.ref .largeFile (sh.node t).ref.dir))
  | .opened t ctx, .fail => some (sh.release ctx, .givingSlot t)
  | .opened t ctx, .spawn => some ({ sh with running := ctx :: sh.running }, .freeing t)
  | .opened t ctx, .spawnFails => some (sh, .finishing t ctx)
  | .finishing t ctx, .drop => some (sh.release ctx, .givingSlot t)
  | .givingSlot t, .giveSlot =>
    some ({ sh with largeWorkersActive := sh.largeWorkersActive - 1 }, .freeing t)
  | .freeing t, .drop => some (sh.releaseNode t, .recycling t)
  | .recycling t, .recycle => some (sh.recycle [t], .ready [] 0)
  | _, _ => none

/-- A walker, or the main thread with a single file: between two directories, with a directory, or
in a call of `workers_enqueue_batch` for it. `own` is the reference of `dir_handle_create`. -/
inductive Producer where
  | idle
  | holding (own : Ref)
  /-- `items` tasks of the call are still to be built. -/
  | building (own : Ref) (items : ℕ) (spares batch : List ℕ)
  | queueing (own : Ref) (batch : List ℕ)
  | failing (own : Ref) (spares batch : List ℕ)
  | exited
deriving DecidableEq, Repr

inductive ProducerAct where
  | create (srcFd dstFd : ℤ)
  | enqueue (count : ℕ)
  | build (reuse large : Bool)
  | reject
  | outOfMemory
  | giveBack
  | slice (room : ℕ) (key : ℕ → ℕ)
  | fail
  | drop
  | close
  | leave

/-- The node of the next task: a spare one that is large enough, or a new one. A spare one that is
too small is freed. -/
def buildNode (sh : Shared) (spares : List ℕ) : Bool → Option (Shared × ℕ × List ℕ)
  | true =>
    match spares with
    | [] => none
    | t :: spares => some (sh, t, spares)
  | false => some ({ sh with nodes := sh.nodes + 1 }, sh.nodes, spares.tail)

def buildTask (sh : Shared) (own : Ref) (t : ℕ) (large : Bool) : Shared :=
  { sh with
    ledger := sh.ledger.retain .task own.dir
    node := Function.update sh.node t ⟨sh.ledger.ref .task own.dir, large⟩ }

/-- The large files of a slice go to the heap, the others into one directory batch. -/
def distribute (node : ℕ → Task) (key : ℕ → ℕ) :
    List ℕ → List (Entry ℕ) → List ℕ → List (Entry ℕ) × List ℕ
  | [], heap, db => (heap, db)
  | t :: ts, heap, db =>
    if (node t).large then distribute node key ts (heapPush heap ⟨key t, t⟩) db
    else distribute node key ts heap (db ++ [t])

def pushSlice (sh : Shared) (key : ℕ → ℕ) (slice : List ℕ) : Shared :=
  let sorted := distribute sh.node key slice sh.largeHeap []
  { sh with largeHeap := sorted.1, smallQ := smallqPushBatch sh.smallQ 0 sorted.2 }

def producerNext (sh : Shared) : Producer → ProducerAct → Option (Shared × Producer)
  | .idle, .create srcFd dstFd =>
    if sh.ledger.Unused srcFd dstFd then
      some ({ sh with ledger := sh.ledger.create srcFd dstFd },
        .holding (sh.ledger.ref .walker sh.ledger.handles.length))
    else none
  | .idle, .leave => some (sh, .exited)
  | .holding own, .enqueue count =>
    if count = 0 then none
    else
      some ({ sh with freelist := sh.freelist.drop count },
        .building own count (sh.freelist.take count).reverse [])
  | .building own (items + 1) spares batch, .build reuse large =>
    (buildNode sh spares reuse).map fun got =>
      (buildTask got.1 own got.2.1 large,
        .building own items got.2.2 (batch ++ [got.2.1]))
  | .building own (_ + 1) spares batch, .reject => some (sh, .failing own spares batch)
  | .building own (_ + 1) spares batch, .outOfMemory => some (sh, .failing own spares.tail batch)
  | .building own 0 spares batch, .giveBack => some (sh.recycle spares, .queueing own batch)
  | .queueing own [], .giveBack => some (sh, .holding own)
  | .queueing own (t :: batch), .slice room key =>
    if sh.shutdown ∨ room = 0 then none
    else
      let take := min (batch.length + 1) room
      some (pushSlice sh key ((t :: batch).take take), .queueing own ((t :: batch).drop take))
  | .queueing own (t :: batch), .fail => some (sh, .failing own [] (t :: batch))
  | .failing own spares (t :: batch), .drop =>
    some (sh.releaseNode t, .failing own (t :: spares) batch)
  | .failing own spares [], .giveBack => some (sh.recycle spares, .holding own)
  | .holding own, .close => some (sh.release own, .idle)
  | _, _ => none

/-- The thread that calls `workers_stop`. -/
inductive Main where
  | running
  | joining
  | waiting
  /-- The tasks of one batch that are still to be freed. -/
  | freeing (batch : List ℕ)
  /-- The tasks of the heap that are still to be freed. -/
  | freeingHeap (items : List ℕ)
  | finished
deriving DecidableEq, Repr

inductive MainAct where
  | stop
  | join
  | wait
  | drop
  | next
deriving DecidableEq, Repr

/-- `workers_stop` is called when the walkers have been joined. Its loop over the heap takes the
whole array: nobody is left who could look at it. -/
def mainNext (sh : Shared) (producers workers : Bool) : Main → MainAct → Option (Shared × Main)
  | .running, .stop => if producers then some ({ sh with queueDone := true }, .joining) else none
  | .joining, .join => if workers then some (sh, .waiting) else none
  | .waiting, .wait => if sh.largeWorkersActive > 0 then none else some (sh, .freeing [])
  | .freeing (t :: batch), .drop => some (sh.releaseNode t, .freeing batch)
  | .freeing [], .next =>
    match sh.smallQ with
    | b :: rest => some ({ sh with smallQ := rest }, .freeing b.remaining)
    | [] => some ({ sh with largeHeap := [] }, .freeingHeap (sh.largeHeap.map Entry.task))
  | .freeingHeap (t :: items), .drop => some (sh.releaseNode t, .freeingHeap items)
  | .freeingHeap [], .next => some ({ sh with freelist := [] }, .finished)
  | _, _ => none

structure State (ι κ : Type*) where
  shared : Shared
  worker : ι → Worker
  producer : κ → Producer
  main : Main

/-- `interrupt` is the signal handler and `requestStop` the call of `workers_request_stop`. A
finalizer drops the reference of its context, then gives the slot back. -/
inductive Act (ι κ : Type*) where
  | worker (i : ι) (a : WorkerAct)
  | producer (k : κ) (a : ProducerAct)
  | main (a : MainAct)
  | finalize (ctx : Ref)
  | unregister
  | interrupt
  | requestStop

variable {ι κ : Type*}

def Shared.start : Shared where
  ledger := ⟨[], fun _ => none, [], []⟩
  node := fun _ => ⟨⟨0, .task, 0⟩, false⟩
  nodes := 0
  freelist := []
  shutdown := false
  queueDone := false
  smallQ := []
  largeHeap := []
  largeWorkersActive := 0
  running := []
  ended := 0

def State.start : State ι κ := ⟨.start, fun _ => .ready [] 0, fun _ => .idle, .running⟩

def sharedNext (sh : Shared) : Act ι κ → Option Shared
  | .finalize ctx =>
    if ctx ∈ sh.running then
      some { sh.release ctx with running := sh.running.erase ctx, ended := sh.ended + 1 }
    else none
  | .unregister =>
    if sh.ended > 0 then
      some { sh with ended := sh.ended - 1, largeWorkersActive := sh.largeWorkersActive - 1 }
    else none
  | .interrupt => some { sh with shutdown := true }
  | .requestStop => some { sh with queueDone := true }
  | _ => none

variable [DecidableEq ι] [DecidableEq κ] [Fintype ι] [Fintype κ]

def next (s : State ι κ) : Act ι κ → Option (State ι κ)
  | .worker i a =>
    (workerNext s.shared (s.worker i) a).map fun r =>
      { s with shared := r.1, worker := Function.update s.worker i r.2 }
  | .producer k a =>
    (producerNext s.shared (s.producer k) a).map fun r =>
      { s with shared := r.1, producer := Function.update s.producer k r.2 }
  | .main a =>
    (mainNext s.shared (∀ k, s.producer k = .exited) (∀ i, s.worker i = .exited) s.main a).map
      fun r => { s with shared := r.1, main := r.2 }
  | a => (sharedNext s.shared a).map fun sh => { s with shared := sh }

end Ecopy.Workers.DirHandles
