import Ecopy.DirWalk.Walker
import Ecopy.FileTree
import Ecopy.PathWalk

/-!
# The tree deleter

Walker threads read directories and collect the names to unlink in batches. A
batch goes to the queue of the unlink worker chosen by the hash of the
directory's path. When the walk is over the queues are closed and drained, and
then the directories are tried for removal, deepest level first, each level in
slices for several threads.

Every system call and every critical section is one step; the file system may
change between any two of them. A descriptor is the inode it was opened on, and
an inode number stands for the pair of `st_dev` and `st_ino`. A call relative to
a descriptor names the location of that directory at the time, or none if the
directory has no name any more. A thread that waits is one whose next critical
section is not enabled.

Failed allocations, the statistics and the test hooks are left out. So is the
order of the entries that a directory stream returns: `readDir` takes any.
-/
namespace Ecopy.EDelete
open Protocol (Bytes)
open Ecopy.Path (Errno pathMax dot dotdot slash render Ordinary)
open Server (pathJoinFast)
open DirWalk (DType)
open FileSystem

inductive TimeBasis where
  | atime
  | mtime
  | ctime
deriving DecidableEq, Repr

structure Filter where
  uid : Option UInt32
  gid : Option UInt32
  deleteAll : Bool
  ageDays : ℕ
  basis : TimeBasis
  now : ℤ
deriving DecidableEq, Repr

/-- The state of the file system, with the change times. -/
structure World where
  fs : Fs
  ctime : ℕ → ℤ

structure Stat where
  uid : UInt32
  gid : UInt32
  atime : ℤ
  mtime : ℤ
  ctime : ℤ
deriving DecidableEq, Repr

def World.stat (w : World) (i : ℕ) : Stat :=
  ⟨(w.fs.node i).uid, (w.fs.node i).gid, (w.fs.node i).atime.1, (w.fs.node i).mtime.1, w.ctime i⟩

def pickTs (f : Filter) (st : Stat) : ℤ :=
  match f.basis with
  | .atime => st.atime
  | .ctime => st.ctime
  | .mtime => st.mtime

def eligible (f : Filter) (st : Stat) : Bool :=
  if f.uid.any (st.uid != ·) then false
  else if f.gid.any (st.gid != ·) then false
  else if f.deleteAll then true
  else if f.ageDays = 0 then false
  else decide (pickTs f st ≤ f.now - f.ageDays * 86400)

/-- `open` with `O_DIRECTORY` and `O_NOFOLLOW`. -/
def openDir (fs : Fs) (path : Bytes) : Except Errno ℕ :=
  match fs.lstatPath path with
  | .error e => .error e
  | .ok (i, n) => if n.isDir then .ok i else .error .enotdir

/-- What `main` passes on: the start path is absolute and without symbolic links, is not the top
directory, and was a directory when `main` looked at it. -/
structure Config where
  dryRun : Bool
  filter : Filter
  lazyStat : Bool
  threads : ℕ
  workers : ℕ
  top : Loc
  world : World
  rootIno : ℕ
  threads_pos : 0 < threads
  workers_pos : 0 < workers
  lazy : lazyStat = true → filter.deleteAll = true ∧ filter.uid = none ∧ filter.gid = none
  ordinary : ∀ x ∈ top, Ordinary x
  top_ne : top ≠ []
  root_found : openDir world.fs (render top) = .ok rootIno

def unlinkBatch : ℕ := 512

def unlinkBatchBytes : ℕ := 64 * 1024

def unlinkQueueMax : ℕ := 262144

def counterFlush : ℕ := 256

variable {c : Config}

def Config.capPerWorker (c : Config) : ℕ := max (unlinkQueueMax / c.workers) (4 * unlinkBatch)

/-- `ino` is the identity in `st`. -/
structure Node where
  path : Bytes
  ino : ℕ
  depth : ℕ
deriving DecidableEq, Repr

structure Item where
  dir : Bytes
  ino : ℕ
  names : List Bytes
deriving DecidableEq, Repr

structure DirRec where
  path : Bytes
  depth : ℕ
  ino : ℕ
deriving DecidableEq, Repr

/-- `given` are the names that the stream has returned so far and `buf` is the rest of the buffer.
In `submitting` the thread is about to queue its batch, then adds `name` to a new one. -/
inductive WalkPc where
  | top
  | opening (n : Node)
  | checking (n : Node) (fd : ℕ)
  | reading (n : Node) (given : List Bytes) (buf : List (Bytes × DType))
  | pushing (n child : Node) (given : List Bytes) (buf : List (Bytes × DType))
  | submitting (n : Node) (name : Bytes) (given : List Bytes) (buf : List (Bytes × DType))
  | ending (n : Node)
  | leaving
  | exited
deriving DecidableEq, Repr

inductive WorkPc where
  | idle
  | working (items : List Item)
  | checking (it : Item) (fd : ℕ) (items : List Item)
  | unlinking (dir : Bytes) (fd : ℕ) (names : List Bytes) (items : List Item)
  | exited
deriving DecidableEq, Repr

/-- Where a thread of the removal pass is in `rmdir_one` for the first of its records. -/
inductive RmPc where
  | ready
  | opened (fd : ℕ)
  | checked (fd : ℕ)
deriving DecidableEq, Repr

inductive MainPc where
  | walking
  | draining
  | removing (level : List (RmPc × List DirRec)) (later : List DirRec)
  | complete
deriving DecidableEq, Repr

structure Counters where
  entries : ℕ
  wouldDelete : ℕ
deriving DecidableEq, Repr

/-- What the walk saw, and its callbacks. A call relative to a descriptor is logged with the state
it saw and the location of the directory. -/
inductive Event where
  | read (fs : Fs) (at_dir : Loc) (names : List Bytes)
  | found (fs : Fs) (at_dir : Loc) (name : Bytes)
  | begun (n : Node)
  | entry (n : Node) (name : Bytes) (chosen : Bool)

structure State (c : Config) where
  world : World
  queue : List Node
  active : ℕ
  done : Bool
  stop : Bool
  walker : Fin c.threads → WalkPc
  batch : Fin c.threads → List Bytes
  counters : Fin c.threads → Counters
  dirs : List DirRec
  chan : Fin c.workers → List Item
  closed : Bool
  worker : Fin c.workers → WorkPc
  main : MainPc
  wouldDelete : ℕ
  errors : ℕ
  log : List Event

def Config.rootNode (c : Config) : Node := ⟨render c.top, c.rootIno, 0⟩

def State.start (c : Config) : State c where
  world := c.world
  queue := [c.rootNode]
  active := 0
  done := false
  stop := false
  walker := fun _ => .top
  batch := fun _ => []
  counters := fun _ => ⟨0, 0⟩
  dirs := []
  chan := fun _ => []
  closed := false
  worker := fun _ => .idle
  main := .walking
  wouldDelete := 0
  errors := 0
  log := []

def State.setWalker (s : State c) (i : Fin c.threads) (p : WalkPc) : State c :=
  { s with walker := Function.update s.walker i p }

def State.setBatch (s : State c) (i : Fin c.threads) (b : List Bytes) : State c :=
  { s with batch := Function.update s.batch i b }

def State.setWorker (s : State c) (j : Fin c.workers) (p : WorkPc) : State c :=
  { s with worker := Function.update s.worker j p }

def State.fail (s : State c) (n : ℕ) : State c := { s with errors := s.errors + n }

def State.note (s : State c) (ev : Event) : State c := { s with log := s.log ++ [ev] }

/-- The entry `name` of the directory that `fd` is open on, which is found at `l`. -/
def lookup (fs : Fs) (l : Loc) (fd : ℕ) (name : Bytes) : Option (Option ℕ) :=
  if fs.entry l = some fd ∧ (fs.node fd).isDir = true then some (fs.entry (l ++ [name])) else none

def pop (s : State c) (i : Fin c.threads) : Option (State c) :=
  match s.walker i with
  | .top =>
    if s.stop then some (s.setWalker i .exited)
    else
      match s.queue with
      | n :: queue =>
        some ({ s with queue := queue, active := s.active + 1 }.setWalker i (.opening n))
      | [] => if s.done then some (s.setWalker i .exited) else none
  | _ => none

/-- `fault` makes the call fail for another reason than the path. -/
def openNode (s : State c) (i : Fin c.threads) (fault : Bool) : Option (State c) :=
  match s.walker i with
  | .opening n =>
    match openDir s.world.fs n.path with
    | .error _ => some ((s.fail 1).setWalker i .leaving)
    | .ok fd =>
      if fault then some ((s.fail 1).setWalker i .leaving)
      else some (s.setWalker i (.checking n fd))
  | _ => none

def flushCounters (s : State c) (i : Fin c.threads) : State c :=
  { s with
    wouldDelete := s.wouldDelete + (s.counters i).wouldDelete
    counters := Function.update s.counters i ⟨0, 0⟩ }

def countEntry (s : State c) (i : Fin c.threads) : State c :=
  let k := s.counters i
  let s := { s with counters := Function.update s.counters i { k with entries := k.entries + 1 } }
  if k.entries + 1 ≥ counterFlush then flushCounters s i else s

/-- `walk_dir_begin` -/
def dirBegin (s : State c) (i : Fin c.threads) (n : Node) : State c :=
  let s := (countEntry s i).note (.begun n)
  if c.dryRun then s else { s with dirs := s.dirs ++ [⟨n.path, n.depth, n.ino⟩] }

/-- The rest of `open_verified_dir`, `dir_begin` and the opening of the stream. -/
def checkNode (s : State c) (i : Fin c.threads) (streams : Bool) : Option (State c) :=
  match s.walker i with
  | .checking n fd =>
    if (s.world.fs.node fd).isDir = true ∧ fd = n.ino then
      let s := dirBegin s i n
      if streams then some (s.setWalker i (.reading n [] []))
      else some ((s.fail 2).setWalker i (.ending n))
    else some ((s.fail 1).setWalker i .leaving)
  | _ => none

/-- One call of `getdents64` or of `readdir` that fills its buffer. -/
def readDir (s : State c) (i : Fin c.threads) (l : Option Loc) (chunk : List (Bytes × DType)) :
    Option (State c) :=
  match s.walker i with
  | .reading n given [] =>
    match l with
    | none => some ((s.fail 2).setWalker i (.ending n))
    | some l =>
      if s.world.fs.entry l = some n.ino ∧
          ∀ e ∈ chunk, (s.world.fs.entry (l ++ [e.1])).isSome = true ∨ e.1 = dot ∨ e.1 = dotdot
      then
        if chunk = [] then some (s.setWalker i (.ending n))
        else
          let names := chunk.map Prod.fst
          some ((s.note (.read s.world.fs l names)).setWalker i
            (.reading n (given ++ names) chunk))
      else none
  | _ => none

def batchUsed (names : List Bytes) : ℕ := (names.map fun x => x.length + 1).sum

def batchFull (names : List Bytes) (name : Bytes) : Bool :=
  decide (names.length = unlinkBatch ∨ batchUsed names + (name.length + 1) > unlinkBatchBytes)

/-- The end of `batch_add`. -/
def addName (s : State c) (i : Fin c.threads) (name : Bytes) : State c :=
  if name.length + 1 > unlinkBatchBytes then s.fail 1
  else s.setBatch i (s.batch i ++ [name])

/-- `walk_entry` for anything but a directory; `st` is missing when the stat was skipped. -/
def fileEntry (s : State c) (i : Fin c.threads) (n : Node) (name : Bytes) (given : List Bytes)
    (buf : List (Bytes × DType)) (st : Option Stat) : State c :=
  let s := countEntry s i
  let chosen := st.all (eligible c.filter)
  let s := s.note (.entry n name chosen)
  if !chosen then s.setWalker i (.reading n given buf)
  else if c.dryRun then
    let k := s.counters i
    { s with
      counters := Function.update s.counters i { k with wouldDelete := k.wouldDelete + 1 }
    }.setWalker i (.reading n given buf)
  else if batchFull (s.batch i) name ∧ s.batch i ≠ [] then
    s.setWalker i (.submitting n name given buf)
  else (addName s i name).setWalker i (.reading n given buf)

def skipStat (c : Config) (t : DType) : Bool :=
  c.lazyStat && t != .unknown && t != .directory

/-- What follows the `fstatat` of an entry that exists. -/
def statEntry (s : State c) (i : Fin c.threads) (n : Node) (name : Bytes) (given : List Bytes)
    (buf : List (Bytes × DType)) (l : Loc) (child : ℕ) : State c :=
  if (s.world.fs.node child).isDir then
    let s := s.note (.found s.world.fs l name)
    match pathJoinFast n.path name pathMax with
    | none => (s.fail 1).setWalker i (.reading n given buf)
    | some path => s.setWalker i (.pushing n ⟨path, child, n.depth + 1⟩ given buf)
  else fileEntry s i n name given buf (some (s.world.stat child))

/-- One round of the loop of `process_node`. -/
def readEntry (s : State c) (i : Fin c.threads) (l : Option Loc) : Option (State c) :=
  match s.walker i with
  | .reading n given ((name, t) :: buf) =>
    if s.stop then some (s.setWalker i (.ending n))
    else if name = dot ∨ name = dotdot then some (s.setWalker i (.reading n given buf))
    else if skipStat c t then some (fileEntry s i n name given buf none)
    else
      match l with
      | none => some ((s.fail 1).setWalker i (.reading n given buf))
      | some l =>
        (lookup s.world.fs l n.ino name).map fun
          | none => (s.fail 1).setWalker i (.reading n given buf)
          | some child => statEntry s i n name given buf l child
  | _ => none

def push (s : State c) (i : Fin c.threads) : Option (State c) :=
  match s.walker i with
  | .pushing n child given buf =>
    some ({ s with queue := s.queue ++ [child] }.setWalker i (.reading n given buf))
  | _ => none

def fnv (path : Bytes) : UInt64 :=
  path.foldl (fun h b => (h ^^^ b.toUInt64) * 1099511628211) 1469598103934665603

def queueIndex (c : Config) (dir : Bytes) : Fin c.workers :=
  ⟨(fnv dir).toNat % c.workers, Nat.mod_lt _ c.workers_pos⟩

def queuedNames (items : List Item) : ℕ := (items.map fun it => it.names.length).sum

/-- `batch_flush` of a batch that is not empty, up to the end of `unlink_queue_push`. -/
def flushBatch (s : State c) (i : Fin c.threads) (n : Node) : Option (State c) :=
  let j := queueIndex c n.path
  if s.closed || s.stop then some (s.setBatch i [])
  else if queuedNames (s.chan j) ≥ c.capPerWorker then none
  else
    some ({ s with
      chan := Function.update s.chan j (s.chan j ++ [Item.mk n.path n.ino (s.batch i)])
    }.setBatch i [])

def submit (s : State c) (i : Fin c.threads) : Option (State c) :=
  match s.walker i with
  | .submitting n name given buf =>
    (flushBatch s i n).map fun s => (addName s i name).setWalker i (.reading n given buf)
  | .ending n => if c.dryRun = false ∧ s.batch i ≠ [] then flushBatch s i n else none
  | _ => none

/-- The end of `walk_dir_end`, when there is nothing to flush or it is flushed. -/
def dirEnd (s : State c) (i : Fin c.threads) : Option (State c) :=
  match s.walker i with
  | .ending _ =>
    if c.dryRun = true ∨ s.batch i = [] then some ((flushCounters s i).setWalker i .leaving)
    else none
  | _ => none

def finish (s : State c) (i : Fin c.threads) : Option (State c) :=
  match s.walker i with
  | .leaving =>
    let s := { s with active := s.active - 1 }.setWalker i .top
    some (if s.queue.isEmpty ∧ s.active = 0 then { s with done := true } else s)
  | _ => none

def take (s : State c) (j : Fin c.workers) : Option (State c) :=
  match s.worker j with
  | .idle =>
    if s.stop then some (s.setWorker j .exited)
    else if s.chan j ≠ [] then
      some ({ s with chan := Function.update s.chan j [] }.setWorker j (.working (s.chan j)))
    else if s.closed then some (s.setWorker j .exited)
    else none
  | _ => none

/-- The beginning of `unlink_batch_run`. -/
def openBatch (s : State c) (j : Fin c.workers) (fault : Bool) : Option (State c) :=
  match s.worker j with
  | .working [] => some (s.setWorker j .idle)
  | .working (it :: items) =>
    if s.stop then some (s.setWorker j (.working items))
    else
      match openDir s.world.fs it.dir with
      | .error e => some ((s.fail (if e = .enoent then 0 else 1)).setWorker j (.working items))
      | .ok fd =>
        if fault then some ((s.fail 1).setWorker j (.working items))
        else some (s.setWorker j (.checking it fd items))
  | _ => none

def checkBatch (s : State c) (j : Fin c.workers) : Option (State c) :=
  match s.worker j with
  | .checking it fd items =>
    if (s.world.fs.node fd).isDir = true ∧ fd = it.ino then
      some (s.setWorker j (.unlinking it.dir fd it.names items))
    else some ((s.fail 1).setWorker j (.working items))
  | _ => none

/-- The name goes, and the change time of what it named is renewed. -/
def World.unlink (w : World) (l : Loc) (i : ℕ) (now : ℤ) : World :=
  ⟨{ w.fs with entry := Function.update w.fs.entry l none }, Function.update w.ctime i now⟩

/-- One `unlinkat`, or the end of the batch. `fault` as above. -/
def unlinkName (s : State c) (j : Fin c.workers) (l : Option Loc) (now : ℤ) (fault : Bool) :
    Option (State c) :=
  match s.worker j with
  | .unlinking _ _ [] items => some (s.setWorker j (.working items))
  | .unlinking dir fd (name :: names) items =>
    let s' := s.setWorker j (.unlinking dir fd names items)
    match l with
    | none => some s'
    | some l =>
      (lookup s.world.fs l fd name).map fun
        | none => s'
        | some i =>
          if (s.world.fs.node i).isDir = true ∨ fault = true then s'.fail 1
          else { s' with world := s.world.unlink (l ++ [name]) i now }
  | _ => none

def byDepth (a b : DirRec) : Bool :=
  if a.depth ≠ b.depth then decide (b.depth < a.depth) else decide (a.path ≤ b.path)

/-- The part of the path before its last slash. -/
def parentOf (path : Bytes) : Bytes := (path.reverse.dropWhile (· != slash)).tail.reverse

def nameOf (path : Bytes) : Bytes := path.drop ((parentOf path).length + 1)

def sameParent (a b : DirRec) : Bool := parentOf a.path == parentOf b.path

/-- The loop of `snap_to_run_start`. -/
def snapLoop (level : List DirRec) : ℕ → ℕ → ℕ
  | 0, pos => pos
  | fuel + 1, pos =>
    match level[pos - 1]?, level[pos]? with
    | some a, some b => if 0 < pos ∧ sameParent a b then snapLoop level fuel (pos + 1) else pos
    | _, _ => pos

def snapToRunStart (level : List DirRec) (pos : ℕ) : ℕ := snapLoop level level.length pos

/-- The slice of one of `count` threads. -/
def slice (level : List DirRec) (count idx : ℕ) : List DirRec :=
  let lo := snapToRunStart level (level.length * idx / count)
  let hi := snapToRunStart level (level.length * (idx + 1) / count)
  (level.take hi).drop lo

/-- The next group of `dirwalk_depth_groups_ex`, in slices, and what comes after it. -/
def nextLevel (c : Config) : List DirRec → List (RmPc × List DirRec) × List DirRec
  | [] => ([], [])
  | d :: ds =>
    let level := d :: ds.takeWhile (·.depth = d.depth)
    let count := min (max c.threads 1) level.length
    ((List.range count).map fun idx => (.ready, slice level count idx),
      ds.dropWhile (·.depth = d.depth))

/-- `parent` in `rmdir_one`. -/
def DirRec.parent (d : DirRec) : Bytes :=
  if parentOf d.path = [] then [slash] else parentOf d.path

/-- The beginning of `rmdir_one`. -/
def rmOpen (s : State c) (d : DirRec) (ds : List DirRec) (fault : Bool) :
    (RmPc × List DirRec) × ℕ :=
  if d.path = [slash] then ((.ready, ds), 0)
  else
    match openDir s.world.fs d.parent with
    | .error e => ((.ready, ds), if e = .enoent then 0 else 1)
    | .ok fd => if fault then ((.ready, ds), 1) else ((.opened fd, d :: ds), 0)

/-- One system call of a thread of the removal pass. `empty` tells whether the directory to be
removed is empty; the state does not list names. -/
def removeStep (s : State c) (k : ℕ) (l : Option Loc) (empty fault : Bool) : Option (State c) :=
  match s.main with
  | .removing level later =>
    let moved (s : State c) (t : RmPc × List DirRec) : State c :=
      { s with main := .removing (level.set k t) later }
    match level[k]? with
    | some (.ready, d :: ds) =>
      let r := rmOpen s d ds fault
      some (moved (s.fail r.2) r.1)
    | some (.opened fd, d :: ds) =>
      match l with
      | none => some (moved s (.ready, ds))
      | some l =>
        (lookup s.world.fs l fd (nameOf d.path)).map fun
          | none => moved s (.ready, ds)
          | some i =>
            if (s.world.fs.node i).isDir = true ∧ i = d.ino then
              moved s (.checked fd, d :: ds)
            else moved (s.fail 1) (.ready, ds)
    | some (.checked fd, d :: ds) =>
      match l with
      | none => some (moved s (.ready, ds))
      | some l =>
        (lookup s.world.fs l fd (nameOf d.path)).map fun
          | none => moved s (.ready, ds)
          | some i =>
            if (s.world.fs.node i).isDir = false ∨ empty = false then
              moved s (.ready, ds)
            else if fault then moved (s.fail 1) (.ready, ds)
            else
              { moved s (.ready, ds) with
                world := s.world.unlink (l ++ [nameOf d.path]) i (s.world.ctime i) }
    | _ => none
  | _ => none

/-- `dirwalk_wait` returns, and `unlink_pool_finish` begins. -/
def walkOver (s : State c) : Option (State c) :=
  if s.main = .walking ∧ ∀ i, s.walker i = .exited then
    if c.dryRun then some { s with main := .complete }
    else some { s with closed := true, main := .draining }
  else none

/-- `unlink_pool_finish` returns. -/
def drained (s : State c) : Option (State c) :=
  if s.main = .draining ∧ ∀ j, s.worker j = .exited then
    let s := { s with chan := fun _ => [] }
    if s.stop then some { s with main := .complete }
    else some { s with main := .removing [] (s.dirs.mergeSort byDepth) }
  else none

/-- The threads of a level are joined. -/
def levelOver (s : State c) : Option (State c) :=
  match s.main with
  | .removing level later =>
    if ∀ t ∈ level, t.2 = [] then
      if later = [] then some { s with main := .complete }
      else
        let next := nextLevel c later
        some { s with main := .removing next.1 next.2 }
    else none
  | _ => none

inductive Act (c : Config) where
  | pop (i : Fin c.threads)
  | openNode (i : Fin c.threads) (fault : Bool)
  | checkNode (i : Fin c.threads) (streams : Bool)
  | readDir (i : Fin c.threads) (l : Option Loc) (chunk : List (Bytes × DType))
  | readEntry (i : Fin c.threads) (l : Option Loc)
  | push (i : Fin c.threads)
  | submit (i : Fin c.threads)
  | dirEnd (i : Fin c.threads)
  | finish (i : Fin c.threads)
  | take (j : Fin c.workers)
  | openBatch (j : Fin c.workers) (fault : Bool)
  | checkBatch (j : Fin c.workers)
  | unlinkName (j : Fin c.workers) (l : Option Loc) (now : ℤ) (fault : Bool)
  | walkOver
  | drained
  | levelOver
  | removeStep (k : ℕ) (l : Option Loc) (empty fault : Bool)
  | shutdown
  | tamper (w : World)

/-- `tamper` is what others do to the file system. -/
def step (s : State c) : Act c → Option (State c)
  | .pop i => pop s i
  | .openNode i fault => openNode s i fault
  | .checkNode i streams => checkNode s i streams
  | .readDir i l chunk => readDir s i l chunk
  | .readEntry i l => readEntry s i l
  | .push i => push s i
  | .submit i => submit s i
  | .dirEnd i => dirEnd s i
  | .finish i => finish s i
  | .take j => take s j
  | .openBatch j fault => openBatch s j fault
  | .checkBatch j => checkBatch s j
  | .unlinkName j l now fault => unlinkName s j l now fault
  | .walkOver => walkOver s
  | .drained => drained s
  | .levelOver => levelOver s
  | .removeStep k l empty fault => removeStep s k l empty fault
  | .shutdown => some { s with stop := true, done := true }
  | .tamper w => some { s with world := w }

end Ecopy.EDelete
