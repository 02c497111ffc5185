import Ecopy.Lib.Runs
import Ecopy.Lib.Threads
import Ecopy.Server.Handlers

/-!
# The parallel directory walker

A single FIFO of directory nodes feeds the walker threads. The model keeps each
critical section of `worker_main` and each callback of `process_node` as one
step, so that other threads run between any two callbacks and between the
`entry` callback that returns `DIRWALK_DESCEND` and the push it leads to.

A tree is given by the listings of its directories, with the result of every
call on an entry. What `dir_begin` and `entry` return is chosen by the schedule.
A node also carries a number, its place in the order in which the nodes were
made; the program has no such numbers, they tell apart nodes with one path. The
log lists the callbacks in the order of their calls.

`g_cond` is the set of threads in the `parked` state; a signalled thread is
`woken` until it takes the lock again. Spurious wakes are steps of their own.
-/
namespace Ecopy.DirWalk
open Protocol (Bytes)
open Ecopy.Path (pathMax dot dotdot)
open Server (pathJoinFast)
open Lib.Threads

inductive DType where
  | unknown
  | directory
  | other
deriving DecidableEq, Repr

/-- What `fstatat` finds. -/
inductive Stat where
  | failed
  | directory
  | other
deriving DecidableEq, Repr

/-- `opens` tells whether `open_verified_dir` will accept the entry as a directory and
`streams` whether its stream can be opened. -/
structure Entry where
  name : Bytes
  dtype : DType
  stat : Stat
  opens : Bool
  streams : Bool
deriving DecidableEq, Repr

/-- The stream of a directory. `inside` is the stream of the entry itself and
means nothing unless the entry is a directory. -/
inductive Listing where
  | eof (error : Bool)
  | entry (e : Entry) (inside rest : Listing)
deriving DecidableEq, Repr

structure Node where
  id : ℕ
  path : Bytes
  depth : ℕ
  opens : Bool
  streams : Bool
  inside : Listing
deriving DecidableEq, Repr

/-- `rawReads` is set when the streams are read with `getdents64`. -/
structure Config where
  threads : ℕ
  threads_pos : 0 < threads
  rawReads : Bool
  lazyStat : Bool
  root : Bytes
  opens : Bool
  streams : Bool
  inside : Listing

def Config.rootNode (c : Config) : Node := ⟨0, c.root, 0, c.opens, c.streams, c.inside⟩

/-- The callbacks. `withStat` tells whether `entry` got a stat, `descend` what it returned, and
`child` is the node that is queued for it. -/
inductive Event where
  | openFailed (n : Node)
  | begun (n : Node) (ok : Bool)
  | entry (n : Node) (e : Entry) (withStat descend : Bool) (child : Option Node)
  | ended (n : Node) (ok : Bool)
  | error (path : Bytes)
deriving DecidableEq, Repr

inductive Pc where
  | top
  | parked
  | woken
  | opening (n : Node)
  | reading (n : Node) (rest : Listing)
  | descending (n child : Node) (rest : Listing)
  | leaving
  | exited
deriving DecidableEq, Repr

structure State (c : Config) where
  queue : List Node
  active : ℕ
  done : Bool
  stop : Bool
  issued : ℕ
  pc : Fin c.threads → Pc
  log : List Event

variable {c : Config}

def State.start (c : Config) : State c where
  queue := [c.rootNode]
  active := 0
  done := false
  stop := false
  issued := 1
  pc := fun _ => .top
  log := []

/-- The loop of `worker_main` up to the unlock, entered at the top or after a wait. -/
def lockBody (s : State c) (i : Fin c.threads) : State c :=
  if s.stop then { s with pc := Function.update s.pc i .exited }
  else
    match s.queue with
    | n :: queue =>
      { s with queue := queue, active := s.active + 1, pc := Function.update s.pc i (.opening n) }
    | [] =>
      if s.done then { s with pc := Function.update s.pc i .exited }
      else { s with pc := Function.update s.pc i .parked }

def lock (s : State c) (i : Fin c.threads) : Option (State c) :=
  match s.pc i with
  | .top => some (lockBody s i)
  | .woken => some (lockBody s i)
  | _ => none

/-- `process_node` up to its loop: the next state of the thread and the callbacks made. -/
def openNode (n : Node) (begins : Bool) : Pc × List Event :=
  if !n.opens then (.leaving, [.openFailed n])
  else if !begins then (.leaving, [.begun n false])
  else if !n.streams then (.leaving, [.begun n true, .error n.path, .ended n false])
  else (.reading n n.inside, [.begun n true])

/-- `dirreader_next` at the end of a stream: `readdir` does not tell an error
from the end. -/
def readFails (c : Config) (error : Bool) : Bool := error && c.rawReads

def skipStat (c : Config) (e : Entry) : Bool :=
  c.lazyStat && e.dtype != .unknown && e.dtype != .directory

/-- The node for a directory entry. -/
def Node.child (n : Node) (id : ℕ) (path : Bytes) (e : Entry) (inside : Listing) : Node :=
  ⟨id, path, n.depth + 1, e.opens, e.streams, inside⟩

/-- One round of the loop of `process_node`. The last component counts the nodes made. -/
def readNode (c : Config) (stop : Bool) (issued : ℕ) (n : Node) (descend : Bool) :
    Listing → Pc × List Event × ℕ
  | .eof error =>
    if readFails c error then (.leaving, [.error n.path, .ended n false], 0)
    else (.leaving, [.ended n true], 0)
  | .entry e inside rest =>
    if stop then (.leaving, [.ended n true], 0)
    else if e.name = dot ∨ e.name = dotdot then (.reading n rest, [], 0)
    else if skipStat c e then (.reading n rest, [.entry n e false descend none], 0)
    else
      match e.stat with
      | .failed => (.reading n rest, [.error n.path], 0)
      | .other => (.reading n rest, [.entry n e true descend none], 0)
      | .directory =>
        if !descend then (.reading n rest, [.entry n e true descend none], 0)
        else
          match pathJoinFast n.path e.name pathMax with
          | none => (.reading n rest, [.entry n e true descend none, .error n.path], 0)
          | some path =>
            let child := n.child issued path e inside
            (.descending n child rest, [.entry n e true descend (some child)], 1)

def openDir (s : State c) (i : Fin c.threads) (begins : Bool) : Option (State c) :=
  match s.pc i with
  | .opening n =>
    let r := openNode n begins
    some { s with pc := Function.update s.pc i r.1, log := s.log ++ r.2 }
  | _ => none

def readEntry (s : State c) (i : Fin c.threads) (descend : Bool) : Option (State c) :=
  match s.pc i with
  | .reading n l =>
    let r := readNode c s.stop s.issued n descend l
    some { s with
      issued := s.issued + r.2.2
      pc := Function.update s.pc i r.1
      log := s.log ++ r.2.1 }
  | _ => none

/-- `push_locked`, which fails only for want of memory. -/
def push (s : State c) (i : Fin c.threads) (ok : Bool) (wake : Option (Fin c.threads)) :
    Option (State c) :=
  match s.pc i with
  | .descending n child rest =>
    if ok then
      (signal .parked .woken (Function.update s.pc i (.reading n rest)) wake).map fun pc =>
        { s with queue := s.queue ++ [child], pc := pc }
    else
      some { s with
        pc := Function.update s.pc i (.reading n rest)
        log := s.log ++ [.error child.path] }
  | _ => none

/-- `g_active--` and what follows it in the critical section after `process_node`. -/
def finish (s : State c) (i : Fin c.threads) : Option (State c) :=
  match s.pc i with
  | .leaving =>
    let s := { s with active := s.active - 1, pc := Function.update s.pc i .top }
    if s.queue.isEmpty ∧ s.active = 0 then
      some { s with done := true, pc := broadcast .parked .woken s.pc }
    else some s
  | _ => none

inductive Act (c : Config) where
  | lock (i : Fin c.threads)
  | openDir (i : Fin c.threads) (begins : Bool)
  | readEntry (i : Fin c.threads) (descend : Bool)
  | push (i : Fin c.threads) (ok : Bool) (wake : Option (Fin c.threads))
  | finish (i : Fin c.threads)
  | spurious (i : Fin c.threads)
  | setStop
  | requestStop
deriving DecidableEq

/-- `setStop` sets the flag that the caller passed to the walker; `requestStop` is
`dirwalk_request_stop`, also called when a thread cannot be created. -/
def step (s : State c) : Act c → Option (State c)
  | .lock i => lock s i
  | .openDir i begins => openDir s i begins
  | .readEntry i descend => readEntry s i descend
  | .push i ok wake => push s i ok wake
  | .finish i => finish s i
  | .spurious i =>
    if s.pc i = .parked then some { s with pc := Function.update s.pc i .woken } else none
  | .setStop => some { s with stop := true }
  | .requestStop => some { s with done := true, pc := broadcast .parked .woken s.pc }

/-- Neither a stop request nor a failed allocation. -/
def Act.Calm : Act c → Prop
  | .push _ ok _ => ok = true
  | .setStop => False
  | .requestStop => False
  | _ => True

instance (a : Act c) : Decidable a.Calm := by
  cases a <;> unfold Act.Calm <;> infer_instance

/-- Some thread has not exited, and every thread that has not is parked with no wake on its
way. -/
def State.Stuck (s : State c) : Prop :=
  (∃ i, s.pc i ≠ .exited) ∧ ∀ i, s.pc i = .exited ∨ s.pc i = .parked

/-- `dirwalk_wait` returns. -/
def State.Over (s : State c) : Prop := ∀ i, s.pc i = .exited

instance (s : State c) : Decidable s.Stuck := by
  unfold State.Stuck
  infer_instance

instance (s : State c) : Decidable s.Over := by
  unfold State.Over
  infer_instance

end Ecopy.DirWalk
