import Ecopy.HardLinks.Create
import Ecopy.Workers.OtherCopies

/-!
# Hard links after the copies

`hardlinks_note` keeps the further names of an inode for the end, when its first name has
been copied, and `hardlinks_replay` links them one after the other. Where a link would
cross file systems, the first name is copied to the further one. Both of these opens follow
symlinks.

A symlink is followed as the kernel does it: its text is read, and the path goes on from
there. A `read` at the end of a file returns nothing, so the size is looked at before.
-/
namespace Ecopy.HardLinks
open Protocol Ecopy.Path FileSystem Server Lib.Calls
open Workers.SmallCopy

/-- `hl_job_t` -/
structure Job where
  primary : Bytes
  link : Bytes
  attr : Meta

def linkTarget (path target : Bytes) : Bytes :=
  if target.head? = some slash then target else beforeSlash path ++ slash :: target

/-- `open` without `O_NOFOLLOW`. -/
def openFollowing : ℕ → Bytes → Fs.OpenFlags → UInt32 → Handler (Except Errno Fd)
  | 0, _, _, _ => return .error .eloop
  | fuel + 1, path, flags, mode => do
    match ← Sys.lstat path with
    | .ok (_, n) =>
      match n.kind with
      | .symlink target => openFollowing fuel (linkTarget path target) flags mode
      | _ => Sys.openFile path flags mode
    | .error _ => Sys.openFile path flags mode

def fileSize (n : Node) : ℕ :=
  match n.kind with
  | .regular data => data.length
  | _ => 0

def readSome (fd : Fd) (len pos : ℕ) : Handler (Except Errno Bytes) := do
  match ← Sys.fstat fd with
  | .error e => return .error e
  | .ok (_, n) =>
    if Node.isRegular n && decide (fileSize n ≤ pos) then return .ok []
    else Sys.pread fd (min len (fileSize n - pos)) pos

/-- `sizeof(buf)` -/
def bufSize : ℕ := 65536

/-- Until nothing is left to read. -/
def copyAll (fdIn fdOut : Fd) : ℕ → (pos : ℕ) → Handler Bool
  | 0, _ => return false
  | fuel + 1, pos => do
    match ← readSome fdIn bufSize pos with
    | .error _ => return false
    | .ok [] => return true
    | .ok data =>
      match ← Sys.pwrite fdOut pos data with
      | .error _ => return false
      | .ok _ => copyAll fdIn fdOut fuel (pos + data.length)

/-- Through a descriptor that follows no symlink. -/
def preservePathMetadata (who : Identity) (cfg : Tuning) (path : Bytes) (m : Meta) :
    Handler Bool := do
  match ← Sys.openFile path (readFlags false) 0 with
  | .error _ => return false
  | .ok fd =>
    let done ← preserveFdMetadata who cfg fd m none
    let _ ← Sys.close fd
    return done

def fallbackFlags : Fs.OpenFlags := ⟨true, true, false, true, false, false⟩

/-- Every round of the loop moves forward, so as many are enough as there are bytes. -/
def fallbackContent (fdIn fdOut : Fd) : Handler Bool := do
  match ← Sys.fstat fdIn with
  | .error _ => return false
  | .ok (_, n) => copyAll fdIn fdOut (fileSize n + 1) 0

/-- A failure to set the metadata is not reported. -/
def hardlinkFallbackCopy (who : Identity) (cfg : Tuning) (j : Job) : Handler Bool := do
  match ← openFollowing 40 j.primary (readFlags false) 0 with
  | .error _ => return false
  | .ok fdIn =>
    match ← openFollowing 40 j.link fallbackFlags (j.attr.mode &&& 0xFFF) with
    | .error _ =>
      let _ ← Sys.close fdIn
      return false
    | .ok fdOut =>
      let copied ← fallbackContent fdIn fdOut
      let _ ← Sys.close fdIn
      let closed ← Sys.close fdOut
      if copied && closed.isOk then
        let _ ← preservePathMetadata who cfg j.link j.attr
        return true
      else return false

def replayJob (who : Identity) (cfg : Tuning) (j : Job) : Handler Bool := do
  match ← hardlinkCreate who j.primary j.link with
  | .created => return true
  | .exdev => hardlinkFallbackCopy who cfg j
  | .failed => return false

/-- A job that fails does not stop the others. -/
def hardlinksReplay (who : Identity) (cfg : Tuning) : List Job → Handler Bool
  | [] => return true
  | j :: jobs => do
    let done ← replayJob who cfg j
    let others ← hardlinksReplay who cfg jobs
    return done && others

end Ecopy.HardLinks
