import Ecopy.Workers.SmallCopy

/-!
# Sparse and large files

Both are written under a temporary name and renamed. A sparse file is copied extent by
extent through the page cache. The bulk of a large file goes through threads; what they
do to the file is the list of the ranges that they read and write, in the order in which
the writes happen. Its tail is written through a second descriptor.

Reads return what is asked for, as in the copy of small files.
-/
namespace Ecopy.Workers.OtherCopies
open Protocol Ecopy.Path FileSystem Server Lib.Calls
open SmallCopy

/-- `create_temp_write_at_maybe_direct`, for any mode of a buffered file. -/
def createTempAt (bufferedMode : UInt32) (who : Identity) (cfg : Tuning) (t : Task) :
    ℕ → Handler (Option Target)
  | 0 => return none
  | attempts + 1 => do
    let path := atDir t.dstDir (makeTempName who.pid (← Sys.nextSeq .put))
    let buffered : Handler (Option Target) := do
      match ← openTempCreatedOnce path bufferedMode false with
      | .ok target => return some target
      | .error .eexist => createTempAt bufferedMode who cfg t attempts
      | .error _ => return none
    if cfg.writeDirect && directIoWorthwhile cfg t.size then
      match ← openTempCreatedOnce path (copyDataMode t.attr.mode) true with
      | .ok target => return some target
      | .error .eexist => createTempAt bufferedMode who cfg t attempts
      | .error e =>
        if directIoFallbackErrno e then
          let _ ← Sys.unlink path
          buffered
        else return none
    else buffered

/-- A file that is not opened again by its name. -/
theorem createTempAt_buffered (who : Identity) (cfg : Tuning) (t : Task) (attempts : ℕ) :
    createTempWriteAtMaybeDirect who cfg t attempts =
      createTempAt (bufferedCreateMode t.attr.mode) who cfg t attempts := by
  induction attempts with
  | zero => rfl
  | succ attempts ih =>
    rewrite [createTempWriteAtMaybeDirect, createTempAt, ih]
    rfl

/-- The last steps of a copy under a temporary name. -/
def finishTemp (who : Identity) (cfg : Tuning) (t : Task) (target : Target) :
    Handler (Bool × Bool) := do
  if !(← preserveFdMetadata who cfg target.fd t.attr (some target.mode)) then return (false, true)
  match ← Sys.close target.fd with
  | .error _ => return (false, false)
  | .ok _ => return (← renameTempToFinalAt t target.path, false)

/-- What `SEEK_DATA` at a position and the `SEEK_HOLE` after it find. -/
inductive Seek where
  | run (data hole : ℕ)
  | noData
  | unsupported
  | failed
deriving DecidableEq, Repr

def copyByteRangeBuffered (cfg : Tuning) (fdIn fdOut : Fd) : ℕ → (pos stop : ℕ) → Handler Bool
  | 0, _, _ => return false
  | fuel + 1, pos, stop => do
    if stop ≤ pos then return true
    let len := min (stop - pos) cfg.chunkSize
    match ← Sys.pread fdIn len pos with
    | .error _ => return false
    | .ok data =>
      match ← Sys.pwrite fdOut pos data with
      | .error _ => return false
      | .ok _ => copyByteRangeBuffered cfg fdIn fdOut fuel (pos + len) stop

/-- Only data is copied; without seeks, everything is. -/
def copyDataExtentsBuffered (cfg : Tuning) (seek : ℕ → Seek) (fdIn fdOut : Fd) (size : ℕ) :
    ℕ → (pos : ℕ) → Handler Bool
  | 0, _ => return false
  | fuel + 1, pos => do
    if size ≤ pos then return true
    match seek pos with
    | .noData => return true
    | .unsupported => copyByteRangeBuffered cfg fdIn fdOut (size + 1) pos size
    | .failed => return false
    | .run data hole =>
      if size ≤ data then return true
      if !(← copyByteRangeBuffered cfg fdIn fdOut (size + 1) data (min hole size)) then
        return false
      copyDataExtentsBuffered cfg seek fdIn fdOut size fuel (min hole size)

def sparseContent (who : Identity) (cfg : Tuning) (t : Task) (seek : ℕ → Seek) (fdIn : Fd)
    (target : Target) : Handler (Bool × Bool) := do
  if !(← Sys.attempt) then return (false, true)
  if !(← copyDataExtentsBuffered cfg seek fdIn target.fd t.size (t.size + 1) 0) then
    return (false, true)
  match ← Sys.ftruncate target.fd t.size with
  | .error _ => return (false, true)
  | .ok _ => finishTemp who cfg t target

/-- A file that was opened for direct I/O is opened again; its mode stays known. -/
def copyFileSparse (who : Identity) (cfg : Tuning) (t : Task) (seek : ℕ → Seek) :
    Handler Bool := do
  match ← openReadAtBuffered t with
  | none => return false
  | some (fdIn, _) =>
    match ← createTempWriteAtMaybeDirect who cfg t 100 with
    | none =>
      let _ ← Sys.close fdIn
      return false
    | some target =>
      if target.direct then
        let _ ← Sys.close target.fd
        match ← openTempWriteExistingAtBuffered target.path with
        | .error _ => leaveTarget fdIn target false false
        | .ok again =>
          let target := { target with fd := again.fd }
          let (done, stillOpen) ← sparseContent who cfg t seek fdIn target
          leaveTarget fdIn target done stillOpen
      else
        let (done, stillOpen) ← sparseContent who cfg t seek fdIn target
        leaveTarget fdIn target done stillOpen

/-- The copy of the content, after which everything is closed. -/
def copySparse (who : Identity) (cfg : Tuning) (t : Task) (seek : ℕ → Seek) (fdIn : Fd)
    (target : Target) : Handler Bool := do
  let (done, stillOpen) ← sparseContent who cfg t seek fdIn target
  leaveTarget fdIn target done stillOpen

/-- The whole size is set before the data arrives. The preallocation of single extents
changes nothing that can be read and is left out. -/
def presize (t : Task) (sparse : Bool) (fd : Fd) : Handler Bool := do
  if t.size = 0 then return true
  if sparse then return (← Sys.ftruncate fd t.size).isOk
  match ← Sys.fallocate fd t.size with
  | .ok _ => return true
  | .error e =>
    if e = .eopnotsupp ∨ e = .enosys then return (← Sys.ftruncate fd t.size).isOk
    else return false

/-- The ranges that the threads move, offset and length. -/
def moveRanges (fdIn fdOut : Fd) : List (ℕ × ℕ) → Handler Bool
  | [] => return true
  | (pos, len) :: ranges => do
    match ← Sys.pread fdIn len pos with
    | .error _ => return false
    | .ok data =>
      match ← Sys.pwrite fdOut pos data with
      | .error _ => return false
      | .ok _ => moveRanges fdIn fdOut ranges

def largeContent (who : Identity) (cfg : Tuning) (t : Task) (sparse : Bool)
    (ranges : List (ℕ × ℕ)) (fdIn : Fd) (target : Target) : Handler (Bool × Bool) := do
  if !(← presize t sparse target.fd) then return (false, true)
  if !(← Sys.attempt) then return (false, true)
  if !(← moveRanges fdIn target.fd ranges) then return (false, true)
  if !(← copyTailBufferedAt t target.path t.bulkEnd t.size) then return (false, true)
  finishTemp who cfg t target

/-- `start_large_file_copy` to `finish_large_file_ctx`. The temporary file is opened again
by its name, so it is always made with the scratch mode. -/
def copyFileLarge (who : Identity) (cfg : Tuning) (t : Task) (sparse : Bool)
    (ranges : List (ℕ × ℕ)) : Handler Bool := do
  match ← openReadAtMaybeDirect cfg t with
  | none => return false
  | some (fdIn, _) =>
    match ← createTempAt (copyDataMode t.attr.mode) who cfg t 100 with
    | none =>
      let _ ← Sys.close fdIn
      return false
    | some target =>
      let (done, stillOpen) ← largeContent who cfg t sparse ranges fdIn target
      leaveTarget fdIn target done stillOpen

/-- The ways in which a file is copied. -/
inductive Route where
  | small
  | sparse (seek : ℕ → Seek)
  | large (holes : Bool) (ranges : List (ℕ × ℕ))

namespace Route
variable (who : Identity) (cfg : Tuning) (t : Task)

def copy : Route → Handler Bool
  | .small => copyFileSerialSmall who cfg t
  | .sparse seek => copyFileSparse who cfg t seek
  | .large holes ranges => copyFileLarge who cfg t holes ranges

def openSource : Route → Handler (Option (Fd × Bool))
  | .small | .large _ _ => openReadAtMaybeDirect cfg t
  | .sparse _ => openReadAtBuffered t

def create : Route → Handler (Option Target)
  | .small => createTarget who cfg t
  | .sparse _ => createTempWriteAtMaybeDirect who cfg t 100
  | .large _ _ => createTempAt (copyDataMode t.attr.mode) who cfg t 100

/-- What follows when both files are open. -/
def finish (source : Fd × Bool) (target : Target) : Route → Handler Bool
  | .small => do
    let (done, stillOpen) ← copyContent who cfg t source.1 source.2 target
    leaveTarget source.1 target done stillOpen
  | .sparse seek =>
    if target.direct then do
      let _ ← Sys.close target.fd
      match ← openTempWriteExistingAtBuffered target.path with
      | .error _ => leaveTarget source.1 target false false
      | .ok again =>
        let target := { target with fd := again.fd }
        let (done, stillOpen) ← sparseContent who cfg t seek source.1 target
        leaveTarget source.1 target done stillOpen
    else do
      let (done, stillOpen) ← sparseContent who cfg t seek source.1 target
      leaveTarget source.1 target done stillOpen
  | .large holes ranges => do
    let (done, stillOpen) ← largeContent who cfg t holes ranges source.1 target
    leaveTarget source.1 target done stillOpen

/-- The three copies consist of these phases. -/
theorem copy_eq (r : Route) : r.copy who cfg t = (do
    match ← r.openSource cfg t with
    | none => return false
    | some source =>
      match ← r.create who cfg t with
      | none =>
        let _ ← Sys.close source.1
        return false
      | some target => r.finish who cfg t source target) := by
  cases r with
  | small | sparse | large =>
    refine congrArg (Prog.bind _) (funext fun opened => ?_)
    cases opened with
    | none => rfl
    | some source => rfl

end Route

end Ecopy.Workers.OtherCopies
