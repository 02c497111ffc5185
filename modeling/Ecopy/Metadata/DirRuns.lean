import Ecopy.Metadata.DirPaving
import Ecopy.Metadata.DirSettling

/-!
# A whole copy, as far as directories are concerned

`main` makes the destination root, or has every server make it. The walk then comes to one source
directory after the other, parents first. On the client it makes the counterpart at once. On a
server the counterpart is made by its first file, symlink or link, or by an explicit `MKDIR`. When
everything is copied, the metadata of all directories is set, and what has gone wrong is counted.

Whatever else the workers and the handlers do appears as single calls of any kind that make no
directory, move none and change the mode of none. Threads and servers advance in any order, one
call at a time, and so do the metadata of different directories, although the code goes deepest
first. The source does not change meanwhile.
-/
namespace Ecopy.Metadata.DirMakers
open Protocol Ecopy.Path FileSystem Server Lib.Calls
open Traversal (Maker Roots View Walked toCanonicalDirPath localRoots traversalStart dstPathFor)
open Workers.SmallCopy (Tuning)

/-- Where to: a path on the client, or one on a server. The umask of the maker is that of the
shell. -/
inductive Destination (n : ℕ) where
  | path (maker : Maker) (tuning : Tuning) (dst : Bytes)
  | server (fs : Fs) (tree : fs.Tree) (hosts : Fin n → Host) (root : Bytes)

/-- The arguments, the source tree and the state before the run. `top` is what `lstat` says of the
source root, `below` what it says of the other directories, with the names on the way to them. -/
structure Setup (n : ℕ) where
  client : View
  cwd : Option Bytes
  src : Bytes
  top : Meta
  below : List (List Bytes × Meta)
  destination : Destination n

namespace Setup
variable {n : ℕ} (S : Setup n)

def source : List (List Bytes × Meta) := ([], S.top) :: S.below

def base : Fs :=
  match S.destination with
  | .path _ _ _ => S.client.fs
  | .server fs _ _ _ => fs

/-- `main` clears the umask. -/
def localStart (maker : Maker) (dst : Bytes) : Fs × Option (Roots × Bool) :=
  localRoots { maker with umask := 0 } S.client S.cwd false S.src dst

/-- The root of the destination. -/
def root : Loc :=
  match S.destination with
  | .path maker _ dst =>
    match (S.localStart maker dst).2 with
    | some (roots, _) => resolve roots.dst
    | none => []
  | .server _ _ _ arg => resolve arg

/-- The directories that are made before the walk, if they are missing. -/
def way : List Loc :=
  match S.destination with
  | .path _ _ _ => S.root.inits
  | .server _ _ _ arg => serverWay arg

def who (c : Fin n) : Identity :=
  match S.destination with
  | .path maker _ _ => maker.who
  | .server _ _ hosts _ => (hosts c).who

def config (c : Fin n) (answer : Bytes × Bool) : Option Config :=
  match S.destination with
  | .path _ _ _ => none
  | .server _ _ hosts _ => some ((hosts c).config answer.1 answer.2)

def plan : Plan := ⟨S.base, S.root, S.source⟩

end Setup

/-- A directory that the walk has found, with the names on the way to it. -/
structure Found where
  rel : List Bytes
  path : Bytes

/-- `dir_record_t` -/
structure Record extends Found where
  dst : Bytes
  attr : Meta

/-- What a program is for. -/
inductive Task where
  | begins (r : Record)
  | makes
  | settles (r : Record)

structure Job (n : ℕ) where
  process : Fin n
  rest : Handler Bool
  task : Task

inductive Phase (n : ℕ) where
  | starting (left : Fin n → Handler (Option (Bytes × Bool)))
  | copying
  | finalizing (todo : List Record)
  | finished

structure State (n : ℕ) where
  shared : Shared n
  phase : Phase n
  roots : Roots
  config : Fin n → Option Config
  queue : List Found
  records : List Record
  jobs : List (Job n)
  failed : Bool

/-- A frame that makes directories: `MKDIR`, or one that makes the parent of a name. -/
inductive Request where
  | mkdir (payload : Bytes)
  | child (name path : Bytes) (mode : UInt32)
deriving DecidableEq, Repr

inductive Action (n : ℕ) where
  | start (c : Fin n) (x : Choice)
  | connect (c : Fin n)
  | found (k : ℕ) (name : Bytes)
  | begin (i : ℕ) (c : Fin n)
  | lose
  | send (k : ℕ) (c : Fin n) (q : Request)
  | other (c : Fin n) (x : Choice) (call : Call)
  | advance (i : ℕ) (x : Choice)
  | ended (i : ℕ)
  | finalize
  | settle (i : ℕ) (c : Fin n) (payload : Bytes)
  | finish

instance : DecidablePred Ordinary := fun c =>
  inferInstanceAs (Decidable ((c ≠ [] ∧ slash ∉ c) ∧ c ≠ dot ∧ c ≠ dotdot))

section Steps
variable {n : ℕ}

def blank (fs : Fs) : Shared n := ⟨fs, fun _ => .initial fs, []⟩

/-- `main` gives up before it copies anything. -/
def exited (shared : Shared n) : State n :=
  ⟨shared, .finished, ⟨[], []⟩, fun _ => none, [], [], [], true⟩

/-- The walk is started, if the roots fit. -/
def copying (shared : Shared n) (config : Fin n → Option Config) (src dst : Bytes) : State n :=
  match traversalStart src dst with
  | none => exited shared
  | some roots => ⟨shared, .copying, roots, config, [⟨[], roots.src⟩], [], [], false⟩

def Setup.start (S : Setup n) : State n :=
  match S.destination with
  | .path maker _ dst =>
    match S.localStart maker dst with
    | (fs, none) => exited (blank fs)
    | (fs, some (roots, _)) => copying (blank fs) (fun _ => none) roots.src roots.dst
  | .server fs _ _ arg =>
    match toCanonicalDirPath S.client S.cwd S.src pathMax with
    | none => exited (blank fs)
    | some src => ⟨blank fs, .starting fun _ => serverStart arg false, ⟨src, []⟩, fun _ => none,
        [], [], [], false⟩

def answerOf {α : Type} : Handler (Option α) → Option α
  | .ret out => out
  | .call _ _ => none

/-- The directory part of `walk_dir_begin`. -/
def Setup.dirBegin (S : Setup n) (dst : Bytes) (mode : UInt32) : Handler Bool :=
  match S.destination with
  | .path _ _ _ => do return (← openOrCreateTargetDirPath dst (mode &&& 0xFFF)).isOk
  | .server _ _ _ _ => return true

/-- What the handler of a frame does for directories, when the frame is about this one. -/
def making (cfg : Config) (r : Record) : Request → Option (Handler Bool)
  | .mkdir payload =>
    match decodeMkdir payload with
    | some (path, _) =>
      if path = r.dst then some do
        handleMkdir cfg payload
        return true
      else none
    | none => none
  | .child name path mode =>
    if Ordinary name ∧ pathJoinFast r.dst name pathMax = some path then some do
      let _ ← ensureParent cfg path mode
      return true
    else none

/-- The calls that leave directories alone. -/
def harmless (s : Shared n) : Call → Bool
  | .mkdir _ _ | .claimDir _ | .settleDir _ _ => false
  | .fchmod fd _ => !(s.fs.node fd.ino).isDir
  | .rename a _ => !s.fs.isDir (resolve a)
  | _ => true

/-- `encode_meta` sends the permission bits only. -/
def sent (m : Meta) : Meta := { m with mode := m.mode &&& 0xFFF }

/-- `finalize_one` -/
def Setup.finalizeOne (S : Setup n) (config : Option Config) (r : Record) (payload : Bytes) :
    Option (Handler Bool) :=
  match S.destination, config with
  | .path maker tuning _, _ =>
    some (HardLinks.preservePathMetadata maker.who tuning r.dst r.attr)
  | .server _ _ _ _, some cfg =>
    if decodeSetmeta payload = some (r.dst, sent r.attr, true) then some do
      handleSetmeta cfg payload
      return true
    else none
  | .server _ _ _ _, none => none

def Job.advance (who : Fin n → Identity) (s : Shared n) (x : Choice) (j : Job n) :
    Option (Shared n × Job n) :=
  (Prog.advance (answer who j.process) s x j.rest).map fun out => (out.1, { j with rest := out.2 })

/-- A job has ended: a directory that was begun is recorded. -/
def State.close (s : State n) (i : ℕ) (task : Task) (ok : Bool) : State n :=
  let s := { s with jobs := s.jobs.eraseIdx i }
  match task with
  | .begins r => if ok then { s with records := s.records ++ [r] } else { s with failed := true }
  | .makes => s
  | .settles _ => { s with failed := s.failed || !ok }

def next (S : Setup n) (s : State n) : Action n → Option (State n)
  | .start c x =>
    match s.phase with
    | .starting left =>
      (Prog.advance (answer S.who c) s.shared x (left c)).map fun out =>
        { s with shared := out.1, phase := .starting (Function.update left c out.2) }
    | _ => none
  -- the root is the one that a server has named
  | .connect c =>
    match s.phase with
    | .starting left =>
      if ∀ d, (answerOf (left d)).isSome then
        (answerOf (left c)).map fun named =>
          copying s.shared (fun d => (answerOf (left d)).bind (S.config d)) s.roots.src named.1
      else none
    | _ => none
  | .found k name =>
    match s.phase, s.records[k]? with
    | .copying, some r =>
      if Ordinary name ∧ (S.source.lookup (r.rel ++ [name])).isSome then
        match pathJoinFast r.path name pathMax with
        | none => some { s with failed := true }
        | some path => some { s with queue := s.queue ++ [⟨r.rel ++ [name], path⟩] }
      else none
    | _, _ => none
  | .begin i c =>
    match s.phase, s.queue[i]? with
    | .copying, some f =>
      let s := { s with queue := s.queue.eraseIdx i }
      match dstPathFor s.roots f.path pathMax, S.source.lookup f.rel with
      | some dst, some attr => some { s with
          shared := { s.shared with begun := f.rel :: s.shared.begun }
          jobs := s.jobs ++ [⟨c, S.dirBegin dst attr.mode, .begins ⟨f, dst, attr⟩⟩] }
      | _, _ => some { s with failed := true }
    | _, _ => none
  | .lose =>
    match s.phase with
    | .copying | .finalizing _ => some { s with failed := true }
    | _ => none
  | .send k c q =>
    match s.phase, s.records[k]?, s.config c with
    | .copying, some r, some cfg =>
      (making cfg r q).map fun m => { s with jobs := s.jobs ++ [⟨c, m, .makes⟩] }
    | _, _, _ => none
  | .other c x call =>
    match s.phase with
    | .copying | .finalizing _ =>
      if harmless s.shared call then
        (answer S.who c s.shared x call).map fun out => { s with shared := out.2 }
      else none
    | _ => none
  | .advance i x =>
    match s.jobs[i]? with
    | some j => (j.advance S.who s.shared x).map fun out =>
      { s with shared := out.1, jobs := s.jobs.set i out.2 }
    | none => none
  | .ended i =>
    match s.jobs[i]? with
    | some ⟨_, .ret ok, task⟩ => some (s.close i task ok)
    | _ => none
  -- the walk has come to every directory, unless something went wrong
  | .finalize =>
    match s.phase with
    | .copying =>
      if s.queue.isEmpty ∧ s.jobs.isEmpty ∧
          (s.failed ∨ ∀ e ∈ S.source, ∃ r ∈ s.records, r.rel = e.1) then
        some { s with phase := .finalizing s.records }
      else none
    | _ => none
  | .settle i c payload =>
    match s.phase with
    | .finalizing todo =>
      match todo[i]? with
      | some r => (S.finalizeOne (s.config c) r payload).map fun m => { s with
          phase := .finalizing (todo.eraseIdx i)
          jobs := s.jobs ++ [⟨c, m, .settles r⟩] }
      | none => none
    | _ => none
  | .finish =>
    match s.phase with
    | .finalizing [] => if s.jobs.isEmpty then some { s with phase := .finished } else none
    | _ => none

/-- `main` returns 0. -/
def State.succeeded (s : State n) : Prop :=
  (match s.phase with
    | .finished => s.failed = false
    | _ => False) ∧ ∀ c, (s.shared.mem c).errors = []

end Steps

end Ecopy.Metadata.DirMakers
