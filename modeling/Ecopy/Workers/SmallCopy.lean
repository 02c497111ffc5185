import Ecopy.Server.Handlers

/-!
# Local copies of small files

`copy_file_serial_small` for files that are not sparse. The destination is created
under a temporary name and renamed, or written in place under its final name; the
bytes are moved by `copy_file_range`, or read and written, where the aligned bulk may
bypass the page cache; then come the tail, the metadata and the close. Whatever fails
after the creation, the unfinished destination is removed.

The calls are those of the server's kernel. `copy_file_range` is a read and a write; a
write that stops early has copied a part. It moves no file offset, so the plain reads
and writes that follow it start where the last plain ones stopped. `fchmodat` finds the
object and changes its mode. The counter of temporary names is `put`. Hints to the page
cache, statistics and messages are left out, and `fcntl` on an open descriptor is an
`attempt` where it may be refused.
-/
namespace Ecopy.Workers.SmallCopy
open Protocol Ecopy.Path FileSystem Server Lib.Calls

/-- `ALIGNMENT` -/
def alignment : ℕ := 4096

/-- The settings of a run. -/
structure Tuning where
  readDirect : Bool
  writeDirect : Bool
  directMinSize : ℕ
  copyFileRange : Bool
  chunkSize : ℕ
  smallWriteDirectMin : ℕ
  dstDirectOk : Bool
  inplace : Bool
  preserveTimes : Bool
  chunkSize_pos : 0 < chunkSize

/-- `file_task_t`, with what `src_st` says about the source. -/
structure Task where
  src : Bytes
  dstDir : Bytes
  name : Bytes
  ino : ℕ
  size : ℕ
  attr : Meta
  name_ordinary : Ordinary name

def Task.dst (t : Task) : Bytes := atDir t.dstDir t.name

def Task.bulkEnd (t : Task) : ℕ := t.size / alignment * alignment

def directIoFallbackErrno (e : Errno) : Bool := e == .einval || e == .eopnotsupp || e == .enosys

def directIoWorthwhile (cfg : Tuning) (size : ℕ) : Bool :=
  cfg.directMinSize == 0 || decide (cfg.directMinSize ≤ size)

/-- The set-user and set-group bits may be dropped at creation. -/
def bufferedCreateMode (mode : UInt32) : UInt32 :=
  if mode &&& 0xC00 ≠ 0 then copyDataMode mode else mode &&& 0xFFF

def sameOpenedSource (t : Task) (i : ℕ) (n : Node) : Bool :=
  i == t.ino && statSize n == t.size && n.mtime == t.attr.mtime

def validateOpenedSourceFile (t : Task) (fd : Fd) : Handler Bool := do
  match ← Sys.fstat fd with
  | .error _ => return false
  | .ok (i, n) => return Node.isRegular n && sameOpenedSource t i n

/-- Keep the descriptor of a source that is what it was. -/
def keepSource (t : Task) (fd : Fd) (direct : Bool) : Handler (Option (Fd × Bool)) := do
  if ← validateOpenedSourceFile t fd then return some (fd, direct)
  else
    let _ ← Sys.close fd
    return none

def openReadAtBuffered (t : Task) : Handler (Option (Fd × Bool)) := do
  match ← Sys.openFile t.src (readFlags false) 0 with
  | .error _ => return none
  | .ok fd => keepSource t fd false

/-- The descriptor, and whether it bypasses the page cache. -/
def openReadAtMaybeDirect (cfg : Tuning) (t : Task) : Handler (Option (Fd × Bool)) := do
  if cfg.readDirect && directIoWorthwhile cfg t.size then
    match ← Sys.openFile t.src (readFlags false) 0 with
    | .ok fd =>
      let direct ← Sys.attempt
      keepSource t fd direct
    | .error e => if directIoFallbackErrno e then openReadAtBuffered t else return none
  else openReadAtBuffered t

/-- An attempt that is made when it is wanted. -/
def attemptIf (wanted : Bool) : Handler Bool := if wanted then Sys.attempt else return false

/-- An open destination: the name it has while it is written, whether it bypasses the
page cache, and its permission bits. -/
structure Target where
  path : Bytes
  fd : Fd
  direct : Bool
  mode : UInt32
deriving DecidableEq, Repr

/-- The permission bits of a regular file. -/
def validateOpenedTempRegular (fd : Fd) : Handler (Except Errno UInt32) := do
  match ← Sys.fstat fd with
  | .error e => return .error e
  | .ok (_, n) => return if Node.isRegular n then .ok (n.mode &&& 0xFFF) else .error .eexist

/-- The common end of `open_temp_created_once` and `open_final_created_once`. -/
def keepTarget (path : Bytes) (direct : Bool) (opened : Except Errno Fd) :
    Handler (Except Errno Target) := do
  match opened with
  | .error e => return .error e
  | .ok fd =>
    let direct ← attemptIf direct
    match ← validateOpenedTempRegular fd with
    | .error e =>
      let _ ← Sys.close fd
      return .error e
    | .ok mode => return .ok ⟨path, fd, direct, mode⟩

/-- A file that does not pass the validation is closed. -/
def keepValidated (path : Bytes) (fd : Fd) (direct : Bool) (mode : Except Errno UInt32) :
    Handler (Except Errno Target) := do
  match mode with
  | .error e =>
    let _ ← Sys.close fd
    return .error e
  | .ok mode => return .ok ⟨path, fd, direct, mode⟩

def fchmodat (path : Bytes) (mode : UInt32) : Handler (Except Errno Unit) := do
  match ← Sys.stat path with
  | .error e => return .error e
  | .ok (i, _) => Sys.fchmod ⟨path, i⟩ mode

/-- A destination that its owner may not write gets one more chance. -/
def openFinalCreatedOnce (path : Bytes) (mode : UInt32) (direct : Bool) :
    Handler (Except Errno Target) := do
  match ← Sys.openFile path (createFlags true direct) mode with
  | .error .eacces =>
    match ← fchmodat path (copyDataMode mode) with
    | .error e => return .error e
    | .ok _ => keepTarget path direct (← Sys.openFile path (createFlags true direct) mode)
  | opened => keepTarget path direct opened

def createFinalWriteAtMaybeDirect (cfg : Tuning) (t : Task) : Handler (Option Target) := do
  let buffered : Handler (Option Target) := do
    return (← openFinalCreatedOnce t.dst (bufferedCreateMode t.attr.mode) false).toOption
  if cfg.writeDirect && directIoWorthwhile cfg t.size then
    match ← openFinalCreatedOnce t.dst (copyDataMode t.attr.mode) true with
    | .ok target => return some target
    | .error e => if directIoFallbackErrno e then buffered else return none
  else buffered

/-- `.ecopy.tmp.<pid>.<counter>` -/
def makeTempName (pid counter : ℕ) : Bytes := tmpPrefix ++ decimal pid ++ 46 :: decimal counter

def openTempCreatedOnce (path : Bytes) (mode : UInt32) (direct : Bool) :
    Handler (Except Errno Target) := do
  keepTarget path direct (← Sys.openFile path (createFlags false direct) mode)

/-- The attempts that are left, each with a new name. -/
def createTempWriteAtMaybeDirect (who : Identity) (cfg : Tuning) (t : Task) :
    ℕ → Handler (Option Target)
  | 0 => return none
  | attempts + 1 => do
    let path := atDir t.dstDir (makeTempName who.pid (← Sys.nextSeq .put))
    let buffered : Handler (Option Target) := do
      match ← openTempCreatedOnce path (bufferedCreateMode t.attr.mode) false with
      | .ok target => return some target
      | .error .eexist => createTempWriteAtMaybeDirect who cfg t attempts
      | .error _ => return none
    if cfg.writeDirect && directIoWorthwhile cfg t.size then
      match ← openTempCreatedOnce path (copyDataMode t.attr.mode) true with
      | .ok target => return some target
      | .error .eexist => createTempWriteAtMaybeDirect who cfg t attempts
      | .error e =>
        if directIoFallbackErrno e then
          let _ ← Sys.unlink path
          buffered
        else return none
    else buffered

/-- One attempt through the page cache; `again` is the next one. -/
def createBuffered (path : Bytes) (mode : UInt32) (again : Handler (Option Target)) :
    Handler (Option Target) := do
  match ← openTempCreatedOnce path mode false with
  | .ok target => return some target
  | .error .eexist => again
  | .error _ => return none

/-- What follows when direct I/O fails with `e`. -/
def createFallback (path : Bytes) (mode : UInt32) (e : Errno) (again : Handler (Option Target)) :
    Handler (Option Target) := do
  if directIoFallbackErrno e then
    let _ ← Sys.unlink path
    createBuffered path mode again
  else return none

/-- Only a regular file, or nothing, is replaced. -/
def renameTempToFinalAt (t : Task) (path : Bytes) : Handler Bool := do
  match ← Sys.lstat path with
  | .error _ => return false
  | .ok (_, n) =>
    if !Node.isRegular n then return false
    let free ← match ← Sys.lstat t.dst with
      | .ok (_, m) => pure (Node.isRegular m)
      | .error e => pure (e == .enoent)
    if !free then return false
    match ← Sys.rename path t.dst with
    | .ok _ => return true
    | .error _ => return false

/-- The rename to a name that is free, or that of a regular file. -/
def renameIfFree (t : Task) (path : Bytes) (free : Bool) : Handler Bool := do
  if !free then return false
  match ← Sys.rename path t.dst with
  | .ok _ => return true
  | .error _ => return false

inductive RangeResult where
  | copied
  | unsupported
  | failed
deriving DecidableEq, Repr

def copyFileRangeUnsupportedErrno (e : Errno) : Bool :=
  e == .enosys || e == .exdev || e == .einval || e == .eopnotsupp || e == .eperm

def rangeFailure (e : Errno) : RangeResult :=
  if copyFileRangeUnsupportedErrno e then .unsupported else .failed

def copyFileRangeWithProgress (fdIn fdOut : Fd) (pos len : ℕ) : Handler RangeResult := do
  match ← Sys.pread fdIn len pos with
  | .error e => return rangeFailure e
  | .ok data =>
    match ← Sys.pwrite fdOut pos data with
    | .error (e, _) => return rangeFailure e
    | .ok _ => return .copied

def smallBulkWantsDirect (cfg : Tuning) (t : Task) : Bool :=
  decide (0 < cfg.smallWriteDirectMin) && decide (cfg.smallWriteDirectMin ≤ t.bulkEnd) &&
    cfg.writeDirect && cfg.dstDirectOk

/-- The loop that fills the destination up to `copyEnd`, and then up to the end of the
bulk when `copy_file_range` is refused. `offset` is the file offset of both descriptors.
The result is the position that was reached, and whether the destination was switched to
direct writes; `none` when the copy failed. -/
def copyLoop (cfg : Tuning) (t : Task) (fdIn fdOut : Fd) :
    ℕ → (copyEnd pos offset : ℕ) → (range bulkDirect : Bool) → Handler (Option (ℕ × Bool))
  | 0, _, _, _, _, _ => return none
  | fuel + 1, copyEnd, pos, offset, range, bulkDirect => do
    if copyEnd ≤ pos then return some (pos, bulkDirect)
    let len := min cfg.chunkSize (copyEnd - pos)
    if range then
      match ← copyFileRangeWithProgress fdIn fdOut pos len with
      | .copied => copyLoop cfg t fdIn fdOut fuel copyEnd (pos + len) offset true bulkDirect
      | .failed => return none
      | .unsupported =>
        let switched ← attemptIf (pos == 0 && smallBulkWantsDirect cfg t)
        copyLoop cfg t fdIn fdOut fuel t.bulkEnd pos offset false (bulkDirect || switched)
    else
      match ← Sys.pread fdIn len offset with
      | .error _ => return none
      | .ok data =>
        match ← pwriteAll fdOut offset data with
        | .error _ => return none
        | .ok _ => copyLoop cfg t fdIn fdOut fuel copyEnd (pos + len) (offset + len) false bulkDirect

def copyTailBufferedFds (fdIn fdOut : Fd) (start stop : ℕ) : Handler Bool := do
  if stop ≤ start then return true
  match ← Sys.pread fdIn (stop - start) start with
  | .error _ => return false
  | .ok data =>
    match ← Sys.pwrite fdOut start data with
    | .error _ => return false
    | .ok _ => return true

def openTempWriteExistingAtBuffered (path : Bytes) : Handler (Except Errno Target) := do
  keepTarget path false (← Sys.openFile path ⟨true, false, false, false, false, false⟩ 0)

/-- The tail of a file whose bulk went through a direct descriptor. -/
def copyTailBufferedAt (t : Task) (path : Bytes) (start stop : ℕ) : Handler Bool := do
  if stop ≤ start then return true
  match ← openReadAtBuffered t with
  | none => return false
  | some (fdIn, _) =>
    match ← openTempWriteExistingAtBuffered path with
    | .error _ =>
      let _ ← Sys.close fdIn
      return false
    | .ok target =>
      let done ← copyTailBufferedFds fdIn target.fd start stop
      let _ ← Sys.close fdIn
      let _ ← Sys.close target.fd
      return done

/-- Stops at the first failure. The mode is set unless it is known to be right. -/
def preserveFdMetadata (who : Identity) (cfg : Tuning) (fd : Fd) (m : Meta)
    (knownMode : Option UInt32) : Handler Bool := do
  if (← applyOwner who fd m).isSome then return false
  let moded ← if knownMode = some (m.mode &&& 0xFFF) then pure (.ok ())
    else Sys.fchmod fd (m.mode &&& 0xFFF)
  if moded.isOk then
    if cfg.preserveTimes then return (← Sys.futimens fd m.atime m.mtime).isOk else return true
  else return false

def preservePathMetadataAt (who : Identity) (cfg : Tuning) (path : Bytes) (m : Meta) :
    Handler Bool := do
  match ← Sys.openFile path (readFlags false) 0 with
  | .error _ => return false
  | .ok fd =>
    match ← Sys.fstat fd with
    | .error _ =>
      let _ ← Sys.close fd
      return false
    | .ok (_, n) =>
      let done ← if Node.isRegular n then preserveFdMetadata who cfg fd m none else pure false
      let _ ← Sys.close fd
      return done

/-- The end of the copy through descriptors that go through the page cache. -/
def finishBuffered (who : Identity) (cfg : Tuning) (t : Task) (fdIn : Fd) (target : Target)
    (pos : ℕ) (bulkDirect : Bool) : Handler (Bool × Bool) := do
  if bulkDirect && !(← Sys.attempt) then return (false, true)
  if !(← copyTailBufferedFds fdIn target.fd pos t.size) then return (false, true)
  if !(← preserveFdMetadata who cfg target.fd t.attr (some target.mode)) then return (false, true)
  match ← Sys.close target.fd with
  | .error _ => return (false, false)
  | .ok _ =>
    if cfg.inplace then return (true, false)
    else return (← renameTempToFinalAt t target.path, false)

/-- The rest of it, when the direct I/O of the bulk has been switched off. -/
def finishOpen (who : Identity) (cfg : Tuning) (t : Task) (fdIn : Fd) (target : Target) (pos : ℕ) :
    Handler (Bool × Bool) := do
  if !(← copyTailBufferedFds fdIn target.fd pos t.size) then return (false, true)
  if !(← preserveFdMetadata who cfg target.fd t.attr (some target.mode)) then return (false, true)
  match ← Sys.close target.fd with
  | .error _ => return (false, false)
  | .ok _ =>
    if cfg.inplace then return (true, false)
    else return (← renameTempToFinalAt t target.path, false)

/-- The end of the copy when one of them does not. -/
def finishDirect (who : Identity) (cfg : Tuning) (t : Task) (target : Target) :
    Handler (Bool × Bool) := do
  let _ ← Sys.close target.fd
  if !(← copyTailBufferedAt t target.path t.bulkEnd t.size) then return (false, false)
  if !(← preservePathMetadataAt who cfg target.path t.attr) then return (false, false)
  if cfg.inplace then return (true, false)
  else return (← renameTempToFinalAt t target.path, false)

/-- Everything between the creation of the destination and the label `out`: whether the
copy succeeded, and whether the destination is still open. -/
def copyContent (who : Identity) (cfg : Tuning) (t : Task) (fdIn : Fd) (inDirect : Bool)
    (target : Target) : Handler (Bool × Bool) := do
  if !(← Sys.attempt) then return (false, true)
  let direct := inDirect || target.direct
  let range := !direct && cfg.copyFileRange
  let copyEnd := if range then t.size else t.bulkEnd
  let switched ← attemptIf (!direct && !cfg.copyFileRange && smallBulkWantsDirect cfg t)
  match ← copyLoop cfg t fdIn target.fd (t.size + 2) copyEnd 0 0 range switched with
  | none => return (false, true)
  | some (pos, bulkDirect) =>
    if direct then finishDirect who cfg t target
    else finishBuffered who cfg t fdIn target pos bulkDirect

def createTarget (who : Identity) (cfg : Tuning) (t : Task) : Handler (Option Target) :=
  if cfg.inplace then createFinalWriteAtMaybeDirect cfg t
  else createTempWriteAtMaybeDirect who cfg t 100

/-- The label `out` once the destination exists: an unfinished one is removed. -/
def leaveTarget (fdIn : Fd) (target : Target) (done stillOpen : Bool) : Handler Bool := do
  let _ ← Sys.close fdIn
  if stillOpen then
    let _ ← Sys.close target.fd
  if done then return true
  else
    let _ ← Sys.unlink target.path
    return false

def copyFileSerialSmall (who : Identity) (cfg : Tuning) (t : Task) : Handler Bool := do
  match ← openReadAtMaybeDirect cfg t with
  | none => return false
  | some (fdIn, inDirect) =>
    match ← createTarget who cfg t with
    | none =>
      let _ ← Sys.close fdIn
      return false
    | some target =>
      let (done, stillOpen) ← copyContent who cfg t fdIn inDirect target
      leaveTarget fdIn target done stillOpen

end Ecopy.Workers.SmallCopy
