import Ecopy.Lib.Runs
import Ecopy.Lib.Threads
import Ecopy.Path
import Ecopy.Server.DirFdCache
import Mathlib.Logic.Relation

/-!
# The cache of created directories

Threads of the server that need a directory share a hash table of what was created. A call of
`ensure_dir_cached_mode` claims a path by an entry in the state `CREATING`; whoever else asks
for the path waits on that entry. A claim may need its parent, for which the function calls
itself.

A step is a critical section or a system call. Nothing removes a directory; anything outside
may create one. A bucket belongs to one shard, so its lock guards the whole chain.
-/
namespace Ecopy.Server.DirCache
open Lib.Runs Lib.Threads
open Protocol (Bytes)
open Ecopy.Path (Errno splitDirBase slash dot pathMax)
open DirFdCache (dirCacheHash)

def dirCacheBuckets : ℕ := 2 ^ 20

def slot (path : Bytes) : ℕ := dirCacheHash path % dirCacheBuckets

/-- `dir_cache_state_t`, with the error of a failed entry. -/
inductive CacheState where
  | creating
  | ready
  | failed (err : Errno)
deriving DecidableEq

/-- What a call that reads the state returns. -/
def CacheState.ofResult : Option Errno → CacheState
  | none => .ready
  | some err => .failed err

/-- `dir_cache_entry_t`; the mode is there when it is known. -/
structure Entry where
  path : Bytes
  state : CacheState
  mode : Option ℕ
deriving DecidableEq

/-- Where a call of `ensure_dir_cached_mode` is. -/
inductive Call where
  | start (dir : Bytes) (mode : ℕ)
  | waiting (dir : Bytes) (e : ℕ)
  | making (dir : Bytes) (mode e : ℕ)
  | checking (dir : Bytes) (e : ℕ)
  | again (dir : Bytes) (mode e : ℕ)
  | settling (dir : Bytes) (e : ℕ) (result : Option Errno)
deriving DecidableEq

def Call.dir : Call → Bytes
  | .start dir _ => dir
  | .waiting dir _ => dir
  | .making dir _ _ => dir
  | .checking dir _ => dir
  | .again dir _ _ => dir
  | .settling dir _ _ => dir

/-- A call that waits for the call for its parent. -/
structure Outer where
  dir : Bytes
  mode : ℕ
  entry : ℕ
deriving DecidableEq

/-- The path that a call has claimed, and its entry. -/
def Call.owned : Call → List (Bytes × ℕ)
  | .start _ _ => []
  | .waiting _ _ => []
  | .making dir _ e => [(dir, e)]
  | .checking dir e => [(dir, e)]
  | .again dir _ e => [(dir, e)]
  | .settling dir e _ => [(dir, e)]

/-- A running call with those that wait for it, and `g_last_dir`. -/
structure Thread where
  running : Option (Call × List Outer)
  lastDir : Bytes
deriving DecidableEq

def outerOwned (outer : List Outer) : List (Bytes × ℕ) := outer.map fun o => (o.dir, o.entry)

def Thread.owned (t : Thread) : List (Bytes × ℕ) :=
  t.running.elim [] fun r => r.1.owned ++ outerOwned r.2

structure Return where
  dir : Bytes
  result : Option Errno
deriving DecidableEq

/-- `dirs` are the directories that exist. What the calls returned is recorded, the latest
first. -/
structure State (ι : Type*) where
  entry : ℕ → Option Entry
  buckets : ℕ → List ℕ
  dirs : Bytes → Bool
  thread : ι → Thread
  returned : List Return

/-- The answer of a system call, or memory for a node. -/
inductive Answer where
  | ok
  | error (e : Errno)
  | node (e : ℕ)
deriving DecidableEq

inductive Action (ι : Type*) where
  | ensure (i : ι) (dir : Bytes) (mode : ℕ)
  | advance (i : ι) (answer : Answer)
  | appear (path : Bytes)

variable {ι : Type*} [DecidableEq ι]

def State.dirCacheFindLocked (s : State ι) (dir : Bytes) : Option ℕ :=
  (s.buckets (slot dir)).find? fun e => (s.entry e).any fun en => en.path == dir

def State.set (s : State ι) (i : ι) (t : Thread) : State ι :=
  { s with thread := Function.update s.thread i t }

def State.goto (s : State ι) (i : ι) (call : Call) (outer : List Outer) : State ι :=
  s.set i { s.thread i with running := some (call, outer) }

/-- The thread after a call has returned. -/
def Thread.deliver (t : Thread) (outer : List Outer) (result : Option Errno) : Thread :=
  match outer with
  | [] => { t with running := none }
  | o :: outer =>
    match result with
    | none => { t with running := some (.again o.dir o.mode o.entry, outer) }
    | some err => { t with running := some (.settling o.dir o.entry (some err), outer) }

def State.deliver (s : State ι) (i : ι) (t : Thread) (outer : List Outer) (dir : Bytes)
    (result : Option Errno) : State ι :=
  { s.set i (t.deliver outer result) with returned := ⟨dir, result⟩ :: s.returned }

/-- A success is remembered by the thread. -/
def Thread.remember (t : Thread) (dir : Bytes) (result : Option Errno) : Thread :=
  match result with
  | none => { t with lastDir := dir }
  | some _ => t

def State.leave (s : State ι) (i : ι) (outer : List Outer) (dir : Bytes) (result : Option Errno) :
    State ι :=
  s.deliver i ((s.thread i).remember dir result) outer dir result

/-- Read an entry that has left `CREATING`. -/
def State.read (s : State ι) (i : ι) (outer : List Outer) (dir : Bytes) :
    CacheState → Option (State ι)
  | .creating => none
  | .ready => some (s.leave i outer dir none)
  | .failed err => some (s.leave i outer dir (some err))

def State.insert (s : State ι) (e : ℕ) (dir : Bytes) : State ι :=
  { s with
    entry := Function.update s.entry e (some ⟨dir, .creating, none⟩)
    buckets := Function.update s.buckets (slot dir) (e :: s.buckets (slot dir)) }

def State.write (s : State ι) (e : ℕ) (f : Entry → Entry) : State ι :=
  { s with entry := Function.update s.entry e ((s.entry e).map f) }

/-- `mkdir` succeeds where nothing is. -/
def State.made (s : State ι) (e : ℕ) (dir : Bytes) (mode : ℕ) : State ι :=
  { s.write e fun en => { en with mode := some (mode % 2 ^ 12) } with
    dirs := Function.update s.dirs dir true }

/-- What follows a `mkdir`. Only the first one looks for the parent. -/
def afterMkdir (s : State ι) (i : ι) (dir : Bytes) (mode e : ℕ) (outer : List Outer)
    (first : Bool) : Answer → Option (State ι)
  | .ok =>
    if s.dirs dir then none
    else some ((s.made e dir mode).goto i (.settling dir e none) outer)
  | .error err =>
    if err = .eexist then some (s.goto i (.checking dir e) outer)
    else if err = .enoent ∧ first = true ∧ (splitDirBase dir).1 ≠ dir then
      some (s.goto i (.start (splitDirBase dir).1 0o777) (⟨dir, mode, e⟩ :: outer))
    else some (s.goto i (.settling dir e (some err)) outer)
  | .node _ => none

def advance (s : State ι) (i : ι) (answer : Answer) : Call → List Outer → Option (State ι)
  | .start dir mode, outer =>
    if dir = (s.thread i).lastDir then some (s.deliver i (s.thread i) outer dir none)
    else
      match s.dirCacheFindLocked dir with
      | some e =>
        match s.entry e with
        | none => none
        | some en =>
          if en.state = .creating then some (s.goto i (.waiting dir e) outer)
          else s.read i outer dir en.state
      | none =>
        match answer with
        | .ok => none
        | .error _ => some (s.deliver i (s.thread i) outer dir (some .enomem))
        | .node e =>
          if (s.entry e).isSome then none
          else some ((s.insert e dir).goto i (.making dir mode e) outer)
  | .waiting dir e, outer =>
    match s.entry e with
    | none => none
    | some en => s.read i outer dir en.state
  | .making dir mode e, outer => afterMkdir s i dir mode e outer true answer
  | .again dir mode e, outer => afterMkdir s i dir mode e outer false answer
  | .checking dir e, outer =>
    match answer with
    | .ok => if s.dirs dir then some (s.goto i (.settling dir e none) outer) else none
    | .error err => some (s.goto i (.settling dir e (some err)) outer)
    | .node _ => none
  | .settling dir e result, outer =>
    some ((s.write e fun en => { en with state := .ofResult result }).leave i outer dir result)

/-- A caller passes a directory from a buffer of `PATH_MAX` bytes, never the empty string. -/
def step (s : State ι) : Action ι → Option (State ι)
  | .ensure i dir mode =>
    match (s.thread i).running with
    | some _ => none
    | none =>
      if dir ≠ [] ∧ dir.length < pathMax then some (s.goto i (.start dir mode) []) else none
  | .advance i answer =>
    match (s.thread i).running with
    | some (call, outer) => advance s i answer call outer
    | none => none
  | .appear path => some { s with dirs := Function.update s.dirs path true }

def init : State ι where
  entry := fun _ => none
  buckets := fun _ => []
  dirs := fun _ => false
  thread := fun _ => ⟨none, []⟩
  returned := []

end Ecopy.Server.DirCache
