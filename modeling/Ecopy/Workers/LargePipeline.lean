import Ecopy.Lib.Runs
import Ecopy.Lib.Threads
import Ecopy.Workers.Config
import Mathlib.Data.Fintype.Basic
import Mathlib.Algebra.Order.Group.Int

/-!
# The large-file pipeline

One large file is copied by a set of readers and a set of writers that exchange
a fixed pool of buffers through a free list and a ready list. The model keeps
every critical section of `large_reader_main` and `large_writer_main` as one
step: taking the lock at the top of the loop, waking up inside the wait loop,
handing a finished batch over. Reading and writing a batch happens between two
steps, with the result chosen by the schedule.

`freeCond` and `readyCond` are the sets of threads in the `parked` state. A
thread that was signalled is `woken` until it takes the lock again, and it keeps
counting as a waiter until then, as the counters of the source do. Spurious
wakes are steps of their own.

Payload bytes are not modelled here; `written` records the ranges that were
written completely, in order. The queue depth statistics and the buffer counts
that only feed them are left out.
-/
namespace Ecopy.Workers.LargePipeline
open Lib.Runs Lib.Threads

def largePipeBatchMax : ℕ := 4

def largePipeBatch (inflight : ℕ) : ℕ :=
  let b := inflight / 4
  let b := if b < 1 then 1 else b
  if b > largePipeBatchMax then largePipeBatchMax else b

theorem largePipeBatch_pos (inflight : ℕ) : 0 < largePipeBatch inflight := by
  unfold largePipeBatch largePipeBatchMax
  dsimp only
  split_ifs <;> omega

/-- What a pipeline is started with: the thread counts and the pool of the
runtime configuration, and the bulk part of the file with its extent map. -/
structure Params where
  readers : ℕ
  writers : ℕ
  inflight : ℕ
  chunkSize : ℤ
  bulkEnd : ℤ
  extents : Option (List (ℤ × ℤ))
  readers_pos : 0 < readers
  writers_pos : 0 < writers
  inflight_pos : 0 < inflight

variable {p : Params}

structure Buffer where
  id : ℕ
  offset : ℤ
  len : ℤ
deriving DecidableEq, Repr

/-- `next_read_offset` and `ext_idx`. -/
structure Cursor where
  nextReadOffset : ℤ
  extIdx : ℕ
deriving DecidableEq, Repr

/-- How many extents at the front of the list end at or before `off`. -/
def passedExtents (off : ℤ) : List (ℤ × ℤ) → ℕ
  | [] => 0
  | e :: rest => if off ≥ e.2 then passedExtents off rest + 1 else 0

def readerSkipHoles (p : Params) (c : Cursor) : Cursor :=
  match p.extents with
  | none => c
  | some ext =>
    let idx := c.extIdx + passedExtents c.nextReadOffset (ext.drop c.extIdx)
    match ext[idx]? with
    | none => ⟨p.bulkEnd, idx⟩
    | some e => ⟨if c.nextReadOffset < e.1 then e.1 else c.nextReadOffset, idx⟩

def readerRunEnd (p : Params) (c : Cursor) : ℤ :=
  match p.extents with
  | none => p.bulkEnd
  | some ext =>
    match ext[c.extIdx]? with
    | none => p.bulkEnd
    | some e => e.2

def Cursor.exhausted (p : Params) (c : Cursor) : Bool := decide (c.nextReadOffset ≥ p.bulkEnd)

/-- Length of the next chunk. -/
def chunkLen (p : Params) (c : Cursor) : ℤ :=
  let remain := readerRunEnd p c - c.nextReadOffset
  if remain ≥ p.chunkSize then p.chunkSize else remain

/-- The cursor after one chunk was claimed. -/
def Cursor.advance (p : Params) (c : Cursor) : Cursor :=
  readerSkipHoles p { c with nextReadOffset := c.nextReadOffset + chunkLen p c }

def Cursor.start (p : Params) : Cursor := readerSkipHoles p ⟨0, 0⟩

inductive ReaderPc where
  | top
  | parked
  | woken
  | reading (batch : List Buffer)
  | exited
deriving DecidableEq, Repr

inductive WriterPc where
  | top
  | parked
  | woken
  | writing (batch : List Buffer)
  | exited
deriving DecidableEq, Repr

structure State (p : Params) where
  shutdown : Bool
  failed : Bool
  readDone : Bool
  activeReaders : ℕ
  activeWriters : ℕ
  cursor : Cursor
  free : List Buffer
  ready : List Buffer
  freeWaiters : ℕ
  readyWaiters : ℕ
  reader : Fin p.readers → ReaderPc
  writer : Fin p.writers → WriterPc
  written : List (ℤ × ℤ)

def State.start (p : Params) : State p where
  shutdown := false
  failed := false
  readDone := false
  activeReaders := p.readers
  activeWriters := p.writers
  cursor := Cursor.start p
  free := (List.range p.inflight).map fun i => ⟨i, 0, 0⟩
  ready := []
  freeWaiters := 0
  readyWaiters := 0
  reader := fun _ => .top
  writer := fun _ => .top
  written := []

def State.exhausted (s : State p) : Bool := s.cursor.exhausted p

def broadcastFree (s : State p) : State p :=
  { s with reader := broadcast .parked .woken s.reader }

def broadcastReady (s : State p) : State p :=
  { s with writer := broadcast .parked .woken s.writer }

/-- `mark_large_file_failed_locked`. -/
def markFailed (s : State p) : State p :=
  broadcastReady (broadcastFree { s with failed := true })

/-- Claim loop of a reader: up to `n` free buffers get the next ranges. -/
def claimLoop (p : Params) : ℕ → Cursor → List Buffer → List Buffer × Cursor × List Buffer
  | 0, c, free => ([], c, free)
  | _ + 1, c, [] => ([], c, [])
  | n + 1, c, b :: free =>
    if c.exhausted p then ([], c, b :: free)
    else
      let r := claimLoop p n (c.advance p) free
      ({ b with offset := c.nextReadOffset, len := chunkLen p c } :: r.1, r.2)

/-- A reader leaves its loop; the last one announces the end of input. -/
def readerExit (s : State p) (i : Fin p.readers) : State p :=
  let s := { s with activeReaders := s.activeReaders - 1, reader := Function.update s.reader i .exited }
  if s.activeReaders = 0 then broadcastReady { s with readDone := true } else s

/-- The wait loop of a reader and what follows it, under the lock. -/
def readerBody (s : State p) (i : Fin p.readers) : State p :=
  if !s.failed && s.free.isEmpty && !s.exhausted then
    { s with freeWaiters := s.freeWaiters + 1, reader := Function.update s.reader i .parked }
  else if s.failed || s.exhausted then readerExit s i
  else
    let r := claimLoop p (largePipeBatch p.inflight) s.cursor s.free
    { s with cursor := r.2.1, free := r.2.2, reader := Function.update s.reader i (.reading r.1) }

/-- A shutdown request is noticed at the top of both loops. -/
def noticeShutdown (s : State p) : State p :=
  if s.shutdown && !s.failed then markFailed s else s

def readerLock (s : State p) (i : Fin p.readers) : Option (State p) :=
  match s.reader i with
  | .top => some (readerBody (noticeShutdown s) i)
  | .woken => some (readerBody { s with freeWaiters := s.freeWaiters - 1 } i)
  | _ => none

/-- A reader of a failed file returns its batch to the free list and leaves. -/
def readerGiveUp (s : State p) (i : Fin p.readers) (batch : List Buffer) : State p :=
  let s := broadcastFree { s with free := s.free ++ batch }
  let s := { s with activeReaders := s.activeReaders - 1, reader := Function.update s.reader i .exited }
  if s.activeReaders = 0 then { s with readDone := true } else s

/-- The reads of a batch are over. -/
def readerDone (s : State p) (i : Fin p.readers) (ok : Bool) (wake : Option (Fin p.writers)) :
    Option (State p) :=
  match s.reader i with
  | .reading batch =>
    let s := if ok then s else markFailed s
    if s.failed then some (readerGiveUp s i batch)
    else
      let s := { s with ready := s.ready ++ batch, reader := Function.update s.reader i .top }
      if s.readyWaiters > 0 then
        (signal .parked .woken s.writer wake).map fun w => { s with writer := w }
      else if wake = none then some s else none
  | _ => none

def writerBody (s : State p) (j : Fin p.writers) : State p :=
  if !s.failed && s.ready.isEmpty && !s.readDone then
    { s with readyWaiters := s.readyWaiters + 1, writer := Function.update s.writer j .parked }
  else if s.shutdown || (s.failed && s.ready.isEmpty) || (s.ready.isEmpty && s.readDone) then
    { s with activeWriters := s.activeWriters - 1, writer := Function.update s.writer j .exited }
  else
    { s with
      ready := s.ready.drop (largePipeBatch p.inflight)
      writer := Function.update s.writer j (.writing (s.ready.take (largePipeBatch p.inflight))) }

def writerLock (s : State p) (j : Fin p.writers) : Option (State p) :=
  match s.writer j with
  | .top => some (writerBody (noticeShutdown s) j)
  | .woken => some (writerBody { s with readyWaiters := s.readyWaiters - 1 } j)
  | _ => none

/-- The writes of a batch are over; `failedAt` is the number of buffers written
completely before the first failing one. The batch goes back to the free list
either way, with one wake. -/
def writerDone (s : State p) (j : Fin p.writers) (failedAt : Option ℕ)
    (wake : Option (Fin p.readers)) : Option (State p) :=
  match s.writer j with
  | .writing batch =>
    let full := batch.take (failedAt.getD batch.length)
    let s := if failedAt.isSome then markFailed s else s
    let s := { s with
      free := s.free ++ batch
      written := s.written ++ full.map fun b => (b.offset, b.len)
      writer := Function.update s.writer j (if failedAt.isSome then .exited else .top) }
    if s.freeWaiters > 0 then
      (signal .parked .woken s.reader wake).map fun r => { s with reader := r }
    else if wake = none then some s else none
  | _ => none

/-- The shutdown request arrives between the two looks that a writer takes at the flag
in one critical section. -/
def writerInterrupted (s : State p) (j : Fin p.writers) : Option (State p) :=
  match s.writer j with
  | .top => if s.shutdown then none else some (writerBody { s with shutdown := true } j)
  | _ => none

inductive Act (p : Params) where
  | readerLock (i : Fin p.readers)
  | readerDone (i : Fin p.readers) (ok : Bool) (wake : Option (Fin p.writers))
  | writerLock (j : Fin p.writers)
  | writerInterrupted (j : Fin p.writers)
  | writerDone (j : Fin p.writers) (failedAt : Option ℕ) (wake : Option (Fin p.readers))
  | spuriousReader (i : Fin p.readers)
  | spuriousWriter (j : Fin p.writers)
  | requestShutdown
  | fail
deriving DecidableEq

/-- `fail` is `mark_large_file_failed_locked` called from outside the two
loops, by a failed thread creation or by `workers_request_stop`. -/
def step (s : State p) : Act p → Option (State p)
  | .readerLock i => readerLock s i
  | .readerDone i ok wake => readerDone s i ok wake
  | .writerLock j => writerLock s j
  | .writerInterrupted j => writerInterrupted s j
  | .writerDone j failedAt wake => writerDone s j failedAt wake
  | .spuriousReader i =>
    if s.reader i = .parked then some { s with reader := Function.update s.reader i .woken }
    else none
  | .spuriousWriter j =>
    if s.writer j = .parked then some { s with writer := Function.update s.writer j .woken }
    else none
  | .requestShutdown => some { s with shutdown := true }
  | .fail => some (markFailed s)

/-- Some thread has not exited, and every thread that has not is parked with no
wake on its way. -/
def State.Stuck (s : State p) : Prop :=
  ((∃ i, s.reader i ≠ .exited) ∨ ∃ j, s.writer j ≠ .exited) ∧
    (∀ i, s.reader i = .exited ∨ s.reader i = .parked) ∧
    ∀ j, s.writer j = .exited ∨ s.writer j = .parked

instance (s : State p) : Decidable s.Stuck := by
  unfold State.Stuck
  infer_instance

/-- Neither failed nor asked to shut down. -/
def State.Live (s : State p) : Prop := s.failed = false ∧ s.shutdown = false

instance (s : State p) : Decidable s.Live := by
  unfold State.Live
  infer_instance

end Ecopy.Workers.LargePipeline
