import Ecopy.Server.Kernel
import Ecopy.Server.Requests
import Mathlib.Data.Nat.Digits.Defs

/-!
# The message handlers of the server

Each handler is the program of the C function of the same name: the fields it
decodes, the path it confines, the calls it makes and the error it logs at each
failure. Handlers that answer return the reply; writing it to the channel is
left to the main loop.
-/
namespace Ecopy.Server
open Protocol Ecopy.Path FileSystem Lib.Calls
open Remote.Handshake (Settings)

/-- What is fixed once the server has started. `hash` stands for the vendored
digest function. -/
structure Config where
  root : Bytes
  who : Identity
  hello : Remote.Handshake.Server
  hash : Bytes → Bytes

def copyDataMode (mode : UInt32) : UInt32 := (mode &&& 0x1FF) ||| 0x180

def copyDirMode (mode : UInt32) : UInt32 :=
  let mode := mode &&& 0xFFF
  if mode &&& 0xC0 ≠ 0xC0 then mode ||| 0x1C0 else mode

/-- A number as `%u` and `%llu` print it. -/
def decimal (n : ℕ) : Bytes :=
  if n = 0 then [48] else (Nat.digits 10 n).reverse.map fun d => UInt8.ofNat (48 + d)

/-- `.ecopy.tmp.` -/
def tmpPrefix : Bytes := [46, 101, 99, 111, 112, 121, 46, 116, 109, 112, 46]

/-- The temporary name of a streamed file. -/
def tmpNameOpen (pid : ℕ) (fid : UInt64) : Bytes :=
  tmpPrefix ++ decimal pid ++ 46 :: decimal fid.toNat

/-- `.ecopy.tmp.<pid>.p<seq>` -/
def tmpNamePut (pid seq : ℕ) : Bytes := tmpPrefix ++ decimal pid ++ 46 :: 112 :: decimal seq

/-- `.ecopy.tmp.sym.<pid>.<seq>` -/
def tmpNameSym (pid seq : ℕ) : Bytes :=
  tmpPrefix ++ [115, 121, 109, 46] ++ decimal pid ++ 46 :: decimal seq

/-- `.ecopy.tmp.lnk.<pid>.<seq>` -/
def tmpNameLnk (pid seq : ℕ) : Bytes :=
  tmpPrefix ++ [108, 110, 107, 46] ++ decimal pid ++ 46 :: decimal seq

def errnoCode : Errno → ℕ
  | .eperm => 1
  | .enoent => 2
  | .eio => 5
  | .ebadf => 9
  | .enomem => 12
  | .eacces => 13
  | .eexist => 17
  | .exdev => 18
  | .enotdir => 20
  | .eisdir => 21
  | .einval => 22
  | .enospc => 28
  | .enametoolong => 36
  | .enosys => 38
  | .enotempty => 39
  | .eloop => 40
  | .eopnotsupp => 95

/-- A negative errno as it travels. -/
def statusCode : Option Errno → UInt32
  | none => 0
  | some e => UInt32.ofNat (2 ^ 32 - errnoCode e)

def replyStatus (id : UInt64) (status : Option Errno) : Frame :=
  ⟨.status, id, le32 (statusCode status)⟩

/-- `existing_path_is_dir`: the error when it is not. -/
def existingPathIsDir (path : Bytes) : Handler (Option Errno) := do
  match ← Sys.lstat path with
  | .error e => return some e
  | .ok (_, n) => return if n.isDir then none else some .enotdir

/-- Record how the creation of `dir` ended. The mode is known when this process
created the directory. -/
def settle (dir : Bytes) (r : Except Errno (Option UInt32)) : Handler (Option Errno) := do
  match r with
  | .ok mode =>
    Sys.settleDir dir (.ready mode)
    return none
  | .error e =>
    Sys.settleDir dir (.failed e)
    return some e

/-- How a `mkdir` went, where an existing directory counts as success. -/
def mkdirOutcome (dir : Bytes) (mode : UInt32) (r : Except Errno Unit) :
    Handler (Except Errno (Option UInt32)) := do
  match r with
  | .ok _ => return .ok (some (mode &&& 0xFFF))
  | .error .eexist =>
    match ← existingPathIsDir dir with
    | none => return .ok none
    | some e => return .error e
  | .error e => return .error e

/-- `ensure_dir_cached_mode` with a bound on the recursion. The parent of an
absolute path other than `/` is shorter, so the length of the path is enough. -/
def ensureDirBounded : ℕ → Bytes → UInt32 → Handler (Option Errno)
  | 0, _, _ => return some .enoent
  | fuel + 1, dir, mode => do
    match ← Sys.claimDir dir with
    | .ready => return none
    | .failed e => return some e
    | .claimed =>
      match ← Sys.mkdir dir mode with
      | .error .enoent =>
        let parent := (splitDirBase dir).1
        if parent = dir then settle dir (.error .enoent)
        else
          match ← ensureDirBounded fuel parent 0x1FF with
          | some e => settle dir (.error e)
          | none => do
            let r ← Sys.mkdir dir mode
            settle dir (← mkdirOutcome dir mode r)
      | r => settle dir (← mkdirOutcome dir mode r)

def ensureDirCachedMode (dir : Bytes) (mode : UInt32) : Handler (Option Errno) :=
  ensureDirBounded (dir.length + 1) dir mode

inductive MetaOp where
  | fchown
  | fchmod
  | futimens
deriving DecidableEq, Repr

def MetaOp.name : MetaOp → Bytes
  | .fchown => [102, 99, 104, 111, 119, 110]
  | .fchmod => [102, 99, 104, 109, 111, 100]
  | .futimens => [102, 117, 116, 105, 109, 101, 110, 115]

/-- `path (op)`, cut to the size of the buffer. -/
def diagnostic (path : Bytes) : Option MetaOp → Bytes
  | none => path
  | some op => path.take (pathMax - 32) ++ [32, 40] ++ op.name ++ [41]

def Identity.uidDoomed (who : Identity) (uid : UInt32) : Bool := who.euid != 0 && uid != who.euid

/-- The groups of `init_self_ids`: `getgroups` fails when they do not fit. -/
def Identity.selfGroups (who : Identity) : List UInt32 :=
  if who.groups.length ≤ 64 then who.groups else []

def Identity.gidSettable (who : Identity) (gid : UInt32) : Bool :=
  who.euid == 0 || gid == who.egid || who.selfGroups.contains gid

/-- The owner and group that are worth asking for; `none` leaves one alone. -/
def wantedOwner (who : Identity) (uid gid : UInt32) : Option UInt32 × Option UInt32 :=
  (if who.uidDoomed uid || uid == who.euid || uid == 0xFFFFFFFF then none else some uid,
    if !who.gidSettable gid || gid == who.egid || gid == 0xFFFFFFFF then none else some gid)

def chownPermissionErrno (e : Errno) : Bool := e == .eperm || e == .eacces

/-- The owner change of `apply_meta`: the error that counts as a failure. -/
def applyOwner (who : Identity) (fd : Fd) (m : Meta) : Handler (Option Errno) := do
  if m.uid = who.euid ∧ m.gid = who.egid then return none
  let (uid, gid) := wantedOwner who m.uid m.gid
  if uid = none ∧ gid = none then return none
  match ← Sys.fchown fd uid gid with
  | .ok _ => return none
  | .error e => return if chownPermissionErrno e then none else some e

/-- The first failure, with the operation that failed. -/
def applyMeta (who : Identity) (fd : Fd) (m : Meta) (modeIsSet : Bool) :
    Handler (Option (Errno × MetaOp)) := do
  let first := (← applyOwner who fd m).map fun e => (e, MetaOp.fchown)
  let first ← if modeIsSet then pure first else do
    match ← Sys.fchmod fd (m.mode &&& 0xFFF) with
    | .ok _ => pure first
    | .error e => pure (first <|> some (e, .fchmod))
  let settings ← Sys.settings
  if settings.preserveTimes then
    match ← Sys.futimens fd m.atime m.mtime with
    | .ok _ => return first
    | .error e => return first <|> some (e, .futimens)
  else return first

/-- The times, which `apply_meta` sets last. -/
def applyTimes (fd : Fd) (m : Meta) (first : Option (Errno × MetaOp)) :
    Handler (Option (Errno × MetaOp)) := do
  let settings ← Sys.settings
  if settings.preserveTimes then
    match ← Sys.futimens fd m.atime m.mtime with
    | .ok _ => return first
    | .error e => return first <|> some (e, .futimens)
  else return first

def handleHello (cfg : Config) (id : UInt64) (payload : Bytes) : Handler Frame := do
  let old ← Sys.settings
  let (hello, reply) := Remote.Handshake.handleHello cfg.hello ⟨.hello, id, payload⟩
  let new := Remote.Handshake.settingsOf old.serverDirectIo hello
  -- the apply pool is started once
  let poolThreads := if old.poolThreads > 1 then old.poolThreads else new.poolThreads
  Sys.setSettings { new with poolThreads := poolThreads }
  return reply

def directOpenFallbackErrno (e : Errno) : Bool :=
  e == .einval || e == .eopnotsupp || e == .enosys || e == .eperm

/-- Flags of a file that is created under a temporary name or written in place. -/
def createFlags (inplace direct : Bool) : Fs.OpenFlags :=
  ⟨true, true, !inplace, inplace, false, direct⟩

/-- The file that `handle_open` puts into the table when it gives up. -/
def failedFile (q : OpenRequest) (finalPath tmpPath : Bytes) (e : Errno) : OpenFile :=
  ⟨q.fid, none, q.inplace, false, some e, tmpPath, finalPath⟩

/-- Preallocation; every error is ignored. -/
def preallocate (q : OpenRequest) (fd : Fd) : Handler Unit := do
  if q.sparse = false ∧ q.expected > 0 then
    match ← Sys.fallocate fd q.expected with
    | .ok _ => return
    | .error e =>
      if e = .eopnotsupp ∨ e = .enosys then
        let _ ← Sys.ftruncate fd q.expected

def openAndAdd (q : OpenRequest) (finalPath tmpPath : Bytes) (wantDirect : Bool) :
    Handler Unit := do
  let buffered : Handler Unit := do
    match ← Sys.openFile tmpPath (createFlags q.inplace false) (copyDataMode q.mode) with
    | .error e => Sys.addFile (failedFile q finalPath tmpPath e)
    | .ok fd =>
      preallocate q fd
      Sys.addFile ⟨q.fid, some fd, q.inplace, false, none, tmpPath, finalPath⟩
  if wantDirect then
    match ← Sys.openFile tmpPath (createFlags q.inplace true) (copyDataMode q.mode) with
    | .error e =>
      if directOpenFallbackErrno e then buffered
      else Sys.addFile (failedFile q finalPath tmpPath e)
    | .ok fd =>
      let direct ← Sys.attempt
      preallocate q fd
      Sys.addFile ⟨q.fid, some fd, q.inplace, direct, none, tmpPath, finalPath⟩
  else buffered

/-- The open without direct I/O. -/
def openBuffered (q : OpenRequest) (finalPath tmpPath : Bytes) : Handler Unit := do
  match ← Sys.openFile tmpPath (createFlags q.inplace false) (copyDataMode q.mode) with
  | .error e => Sys.addFile (failedFile q finalPath tmpPath e)
  | .ok fd =>
    preallocate q fd
    Sys.addFile ⟨q.fid, some fd, q.inplace, false, none, tmpPath, finalPath⟩

def handleOpen (cfg : Config) (payload : Bytes) : Handler Unit := do
  match decodeOpen payload with
  | none => return
  | some q =>
    if !(← Sys.attempt) then return
    match resolvePath cfg.root q.path with
    | .error e => Sys.addFile (failedFile q [] [] e)
    | .ok finalPath =>
      let dir := (splitDirBase finalPath).1
      match ← ensureDirCachedMode dir (copyDirMode q.parentMode) with
      | some e => Sys.addFile (failedFile q finalPath [] e)
      | none =>
        let settings ← Sys.settings
        let wantDirect := settings.serverDirectIo && !q.sparse
        if q.inplace then openAndAdd q finalPath finalPath wantDirect
        else
          let tmpPath := dir ++ slash :: tmpNameOpen cfg.who.pid q.fid
          if tmpPath.length ≥ pathMax then
            -- the buffer holds the cut text
            Sys.addFile (failedFile q finalPath (tmpPath.take (pathMax - 1)) .enametoolong)
          else openAndAdd q finalPath tmpPath wantDirect

def directAlign : ℤ := 4096

/-- The loop around `pwrite`, which makes no call when there is nothing to write. -/
def pwriteAll (fd : Fd) (offset : ℤ) (data : Bytes) : Handler (Except (Errno × ℕ) Unit) :=
  if data = [] then return .ok () else Sys.pwrite fd offset data

/-- The buffered write of a `WRITE` frame. -/
def writeBuffered (f : OpenFile) (fd : Fd) (offset : ℤ) (data : Bytes) : Handler Unit := do
  match ← pwriteAll fd offset data with
  | .ok _ => return
  | .error (e, _) => Sys.updateFile { f with failed := some e }

def handleWrite (payload : Bytes) : Handler Unit := do
  match decodeWrite payload with
  | none => return
  | some (fid, offset, data) =>
    match ← Sys.findFile fid with
    | none => return
    | some f =>
      match f.failed, f.fd with
      | none, some fd =>
        if f.direct then
          let aligned := offset % directAlign == 0 && (data.length : ℤ) % directAlign == 0
          if aligned && (← Sys.attempt) then
            match ← pwriteAll fd offset data with
            | .ok _ => return
            | .error (.einval, 0) =>
              Sys.updateFile { f with direct := false }
              writeBuffered { f with direct := false } fd offset data
            | .error (e, _) => Sys.updateFile { f with failed := some e }
          else
            Sys.updateFile { f with direct := false }
            writeBuffered { f with direct := false } fd offset data
        else writeBuffered f fd offset data
      | _, _ => return

def handleFtruncate (payload : Bytes) : Handler Unit := do
  let (fid, size) := decodeFtruncate payload
  match ← Sys.findFile fid with
  | none => return
  | some f =>
    match f.failed, f.fd with
    | none, some fd =>
      match ← Sys.ftruncate fd size with
      | .ok _ => return
      | .error e => Sys.updateFile { f with failed := some e }
    | _, _ => return

/-- The part of `handle_commit` for a file that is open and has not failed. -/
def commitOpen (who : Identity) (f : OpenFile) (fd : Fd) (m : Meta) : Handler (Option Errno) := do
  let synced ← Sys.fsync fd
  let status ← match synced with
    | .error e => pure (some e)
    | .ok _ => do
      let r ← applyMeta who fd m false
      pure (r.map (·.1))
  let closed ← Sys.close fd
  let status := status <|> (match closed with
    | .error e => some e
    | .ok _ => none)
  if status.isSome || f.inplace then return status
  match ← Sys.rename f.tmpPath f.finalPath with
  | .error e => return some e
  | .ok _ => return none

/-- The rename of a file that is closed. -/
def commitRename (f : OpenFile) (status : Option Errno) : Handler (Option Errno) := do
  if status.isSome || f.inplace then return status
  match ← Sys.rename f.tmpPath f.finalPath with
  | .error e => return some e
  | .ok _ => return none

/-- The close of a file, and the rename. -/
def commitClose (f : OpenFile) (fd : Fd) (status : Option Errno) : Handler (Option Errno) := do
  let closed ← Sys.close fd
  commitRename f (status <|> (match closed with
    | .error e => some e
    | .ok _ => none))

def handleCommit (cfg : Config) (id : UInt64) (payload : Bytes) : Handler Frame := do
  let (fid, m) := decodeCommit payload
  match ← Sys.findFile fid with
  | none => return replyStatus id (some .ebadf)
  | some f =>
    let status ← match f.failed, f.fd with
      | some e, some fd => do
        let _ ← Sys.close fd
        pure (some e)
      | some e, none => pure (some e)
      | none, none => pure (some .ebadf)
      | none, some fd => commitOpen cfg.who f fd m
    if status.isSome && !f.inplace then
      let _ ← Sys.unlink f.tmpPath
    Sys.removeFile fid
    return replyStatus id status

def handleAbort (payload : Bytes) : Handler Unit := do
  let fid := decodeFid payload
  match ← Sys.findFile fid with
  | none => return
  | some f =>
    if let some fd := f.fd then
      let _ ← Sys.close fd
    if !f.inplace then
      let _ ← Sys.unlink f.tmpPath
    Sys.removeFile fid

def handleMkdir (cfg : Config) (payload : Bytes) : Handler Unit := do
  match decodeMkdir payload with
  | none => return
  | some (path, mode) =>
    match resolvePath cfg.root path with
    | .error e => Sys.logError path e
    | .ok norm =>
      match ← ensureDirCachedMode norm ((mode &&& 0xFFF) ||| 0x1C0) with
      | none => return
      | some e => Sys.logError norm e

/-- `st_mode` with its type bits. -/
def statMode (n : Node) : UInt32 :=
  (match n.kind with
    | .directory => 0x4000
    | .regular _ => 0x8000
    | .symlink _ => 0xA000
    | .special => 0x1000) ||| n.mode

def statSize (n : Node) : ℤ :=
  match n.kind with
  | .regular data => data.length
  | .symlink target => target.length
  | _ => 0

def le64Signed (v : ℤ) : Bytes := le64 (UInt64.ofNat (v % 2 ^ 64).toNat)

def absentEntry : Bytes := List.replicate 29 0

/-- The 29 bytes of `encode_stat` for an object that was found. -/
def statEntry (n : Node) : Bytes :=
  1 :: le32 (statMode n) ++ le64Signed (statSize n) ++ le64Signed n.mtime.1 ++ le64Signed n.mtime.2

def encodeStat (path : Bytes) : Handler Bytes := do
  match ← Sys.lstat path with
  | .ok (_, n) => return statEntry n
  | .error _ => return absentEntry

def handleStat (cfg : Config) (id : UInt64) (payload : Bytes) : Handler Frame := do
  match decodePath payload with
  | none => return replyStatus id (some .einval)
  | some path =>
    match resolvePath cfg.root path with
    | .error _ => return ⟨.statResp, id, absentEntry⟩
    | .ok norm => return ⟨.statResp, id, ← encodeStat norm⟩

/-- `path_join_fast`. -/
def pathJoinFast (base name : Bytes) (outsz : ℕ) : Option Bytes :=
  let base := if base = [slash] then [] else base
  if base.length + 1 + name.length + 1 > outsz then none else some (base ++ slash :: name)

/-- One entry of a bulk reply. -/
def bulkEntry (base : Except Errno Bytes) (name : Bytes) : Handler Bytes :=
  match base with
  | .error _ => return absentEntry
  | .ok base =>
    match pathJoinFast base name pathMax with
    | none => return absentEntry
    | some full => encodeStat full

/-- The entries of a bulk reply, or `none` when a name cannot be decoded. -/
def bulkEntries (base : Except Errno Bytes) : ℕ → Pdec → Handler (Option Bytes)
  | 0, _ => return some []
  | count + 1, d =>
    match pdecStr d pathMax with
    | (none, _) => return none
    | (some name, d) => do
      let entry ← bulkEntry base name
      let rest ← bulkEntries base count d
      return rest.map (entry ++ ·)

def handleStatBulk (cfg : Config) (id : UInt64) (payload : Bytes) : Handler Frame := do
  match decodeStatBulk payload with
  | none => return replyStatus id (some .einval)
  | some (base, count, d) =>
    if !(← Sys.attempt) then return replyStatus id (some .enomem)
    match ← bulkEntries (resolvePath cfg.root base) count d with
    | none => return replyStatus id (some .einval)
    | some entries => return ⟨.statBulkResp, id, le32 (UInt32.ofNat count) ++ entries⟩

def readFlags (directory : Bool) : Fs.OpenFlags := ⟨false, false, false, false, directory, false⟩

/-- Open for metadata changes; directories may need the second attempt. -/
def openForMeta (path : Bytes) : Handler (Except Errno Fd) := do
  match ← Sys.openFile path (readFlags false) 0 with
  | .ok fd => return .ok fd
  | .error _ => Sys.openFile path (readFlags true) 0

/-- The target through its parent's handle where there is one, else by its path. -/
def openTarget (cfg : Config) (path : Bytes) : Handler (Except Errno Fd) := do
  let (dir, base) := splitDirBase path
  if path ≠ cfg.root ∧ dir ≠ path ∧ base ≠ [] ∧ pathUnderRoot cfg.root dir then
    match ← Sys.openDir dir with
    | .ok _ =>
      match ← openForMeta (atDir dir base) with
      | .ok fd => return .ok fd
      | .error _ => openForMeta path
    | .error _ => openForMeta path
  else openForMeta path

def handleSetmeta (cfg : Config) (payload : Bytes) : Handler Unit := do
  match decodeSetmeta payload with
  | none => return
  | some (path, m, isDir) =>
    match resolvePath cfg.root path with
    | .error e => Sys.logError path e
    | .ok norm =>
      match ← openTarget cfg norm with
      | .error e => Sys.logError norm e
      | .ok fd =>
        let known ← Sys.dirMode norm
        let modeIsSet := isDir && known == some (m.mode &&& 0xFFF)
        -- a change of owner may clear the special bits
        let modeIsSet := modeIsSet &&
          !((m.uid != cfg.who.euid || m.gid != cfg.who.egid) && m.mode &&& 0xC00 != 0)
        let r ← applyMeta cfg.who fd m modeIsSet
        let closed ← Sys.close fd
        match r, closed with
        | some (e, op), _ => Sys.logError (diagnostic norm (some op)) e
        | none, .error e => Sys.logError norm e
        | none, .ok _ => return

/-- Data, metadata and close of `handle_putfile`: the first failure. -/
def putContent (who : Identity) (fd : Fd) (q : PutRequest) (modeIsSet : Bool) :
    Handler (Option (Errno × Option MetaOp)) := do
  let written ← pwriteAll fd 0 q.data
  let err ← match written with
    | .error (e, _) => pure (some (e, none))
    | .ok _ => do
      let r ← applyMeta who fd q.attr modeIsSet
      pure (r.map fun (e, op) => (e, some op))
  let closed ← Sys.close fd
  match err, closed with
  | some e, _ => return some e
  | none, .error e => return some (e, none)
  | none, .ok _ => return none

/-- The close, whose failure counts if there was none before. -/
def closeContent (fd : Fd) (err : Option (Errno × Option MetaOp)) :
    Handler (Option (Errno × Option MetaOp)) := do
  let closed ← Sys.close fd
  match err, closed with
  | some e, _ => return some e
  | none, .error e => return some (e, none)
  | none, .ok _ => return none

/-- The end of `handle_putfile`: a failure discards the temporary name. -/
def finishPut (q : PutRequest) (finalPath name : Bytes) :
    Option (Errno × Option MetaOp) → Handler Unit
  | none => return
  | some (e, op) => do
    if !q.inplace then
      let _ ← Sys.unlink name
    Sys.logError (diagnostic finalPath op) e

/-- The file of a `PUTFILE` request is written at `name` and moved to `target`,
unless it is written in place. -/
def putAt (cfg : Config) (q : PutRequest) (finalPath name target : Bytes) : Handler Unit := do
  let modeIsSet := q.attr.mode &&& 0x80 != 0
  let createMode := if modeIsSet then q.attr.mode &&& 0xFFF else copyDataMode q.attr.mode
  match ← Sys.openFile name (createFlags q.inplace false) createMode with
  | .error e => Sys.logError finalPath e
  | .ok fd =>
    let err ← putContent cfg.who fd q modeIsSet
    if err.isNone && !q.inplace then
      match ← Sys.rename name target with
      | .error e => finishPut q finalPath name (some (e, none))
      | .ok _ => finishPut q finalPath name none
    else finishPut q finalPath name err

def handlePutfile (cfg : Config) (payload : Bytes) : Handler Unit := do
  match decodePutfile payload with
  | none => return
  | some q =>
    match resolvePath cfg.root q.path with
    | .error e => Sys.logError q.path e
    | .ok finalPath =>
      let (dir, base) := splitDirBase finalPath
      match ← ensureDirCachedMode dir (copyDirMode q.parentMode) with
      | some e => Sys.logError dir e
      | none =>
        match ← Sys.openDir dir with
        | .error e => Sys.logError dir e
        | .ok _ =>
          if q.inplace then putAt cfg q finalPath (atDir dir base) (atDir dir base)
          else
            let seq ← Sys.nextSeq .put
            putAt cfg q finalPath (atDir dir (tmpNamePut cfg.who.pid seq)) (atDir dir base)

inductive MetaField where
  | type
  | mode
  | atime
  | mtime
  | uid
  | gid
  | typeSize
  | stat
deriving DecidableEq, Repr

def MetaField.name : MetaField → Bytes
  | .type => [116, 121, 112, 101]
  | .mode => [109, 111, 100, 101]
  | .atime => [97, 116, 105, 109, 101]
  | .mtime => [109, 116, 105, 109, 101]
  | .uid => [117, 105, 100]
  | .gid => [103, 105, 100]
  | .typeSize => [116, 121, 112, 101, 47, 115, 105, 122, 101]
  | .stat => [115, 116, 97, 116]

def Node.isRegular (n : Node) : Bool :=
  match n.kind with
  | .regular _ => true
  | _ => false

def rightType (n : Node) (isDir : Bool) : Bool := if isDir then n.isDir else Node.isRegular n

/-- `metadata_mismatch_stat`: ownership comes last. -/
def metadataMismatch (n : Node) (m : Meta) (isDir checkTimes : Bool) : Option MetaField :=
  if !rightType n isDir then some .type
  else if n.mode &&& 0xFFF ≠ m.mode &&& 0xFFF then some .mode
  else if checkTimes ∧ n.atime ≠ m.atime then some .atime
  else if checkTimes ∧ n.mtime ≠ m.mtime then some .mtime
  else if n.uid ≠ m.uid then some .uid
  else if n.gid ≠ m.gid then some .gid
  else none

def ownershipUnpreservable (who : Identity) (field : MetaField) : Bool :=
  who.euid != 0 && (field == .uid || field == .gid)

def fieldDiagnostic (path : Bytes) (field : MetaField) : Bytes :=
  path.take (pathMax - 32) ++ [32, 40] ++ field.name ++ [41]

/-- ` at offset ` and the offset. -/
def offsetDiagnostic (path : Bytes) (offset : ℤ) : Bytes :=
  path.take (pathMax - 48) ++ [32, 97, 116, 32, 111, 102, 102, 115, 101, 116, 32] ++
    decimal offset.toNat

def typeSizeBad (n : Node) (q : VerifyRequest) : Bool :=
  !rightType n q.isDir || (!q.isDir && statSize n != q.expectedSize)

/-- Verification without data samples needs no descriptor. -/
def verifyMetadataOnly (cfg : Config) (q : VerifyRequest) (path : Bytes) : Handler Unit := do
  match ← Sys.lstat path with
  | .error e => Sys.logVerify .io path e
  | .ok (_, n) =>
    let field :=
      if typeSizeBad n q then some .typeSize
      else if q.checkMetadata then metadataMismatch n q.attr q.isDir q.checkTimes
      else none
    match field with
    | none => return
    | some field =>
      if ownershipUnpreservable cfg.who field then Sys.noteUnpreserved
      else Sys.logVerify .metadata (fieldDiagnostic path field) .eio

structure VerifyState where
  failed : Bool
  metadataBad : Bool
  dataBad : Bool
  zeroBad : Bool
  ioBad : Bool
  field : Option MetaField
  badOffset : Option ℤ
deriving DecidableEq, Repr

/-- Compare the samples of a request; a malformed sample sets the error flag. -/
def verifySamples (cfg : Config) (q : VerifyRequest) (fd : Fd) :
    ℕ → Pdec → VerifyState → Handler (Pdec × VerifyState)
  | 0, d, v => return (d, v)
  | count + 1, d, v =>
    if d.error then return (d, v)
    else
      let (offset, d) := pdecI64 d
      let (length, d) := pdecU32 d
      let (flags, d) := pdecU8 d
      match pdecBytes d verifyDigestSize with
      | (none, d) => return (d, v)
      | (some expected, d) =>
        if flags &&& 0xFE ≠ 0 ∨ offset < 0 ∨ length = 0 ∨ length.toNat > verifyBlockSize ∨
            offset > q.expectedSize ∨ (length.toNat : ℤ) > q.expectedSize - offset then
          return ({ d with error := true }, v)
        else if v.failed then verifySamples cfg q fd count d v
        else do
          let zero := flags &&& 1 != 0
          match ← Sys.pread fd length.toNat offset with
          | .error _ =>
            verifySamples cfg q fd count d
              { v with failed := true, badOffset := some offset, ioBad := true }
          | .ok data =>
            let mismatch := if zero then data.any (· != 0) else cfg.hash data != expected
            if mismatch then
              verifySamples cfg q fd count d { v with
                failed := true
                badOffset := some offset
                zeroBad := v.zeroBad || zero
                dataBad := v.dataBad || !zero }
            else verifySamples cfg q fd count d v

def logVerifyState (v : VerifyState) (path : Bytes) : Handler Unit := do
  let text := match v.badOffset, v.field with
    | some offset, _ => offsetDiagnostic path offset
    | none, some field => fieldDiagnostic path field
    | none, none => path
  if v.metadataBad then Sys.logVerify .metadata text .eio
  if v.dataBad then Sys.logVerify .data text .eio
  if v.zeroBad then Sys.logVerify .zero text .eio
  if v.ioBad then Sys.logVerify .io text .eio

def verifyWithData (cfg : Config) (q : VerifyRequest) (path : Bytes) (fd : Fd) : Handler Unit := do
  let st ← Sys.fstat fd
  let v : VerifyState := ⟨false, false, false, false, false, none, none⟩
  let v := match st with
    | .error _ => { v with failed := true, ioBad := true, field := some .stat }
    | .ok (_, n) =>
      if typeSizeBad n q then
        { v with failed := true, metadataBad := true, field := some .typeSize }
      else v
  let (d, v) ← verifySamples cfg q fd q.count q.rest v
  let malformed := d.error || d.rest ≠ []
  if malformed then Sys.logVerify .malformed path .einval
  let v := { v with failed := v.failed || malformed }
  let mismatch := match st with
    | .error _ => none
    | .ok (_, n) =>
      if q.checkMetadata && !v.ioBad then metadataMismatch n q.attr q.isDir q.checkTimes else none
  let v ← match mismatch with
    | none => pure v
    | some field =>
      if ownershipUnpreservable cfg.who field then do
        Sys.noteUnpreserved
        pure v
      else pure { v with
        failed := true, metadataBad := true, field := v.field <|> some field }
  let _ ← Sys.close fd
  if v.failed then logVerifyState v path

/-- `(malformed verify path)` -/
def malformedVerifyPath : Bytes :=
  [40, 109, 97, 108, 102, 111, 114, 109, 101, 100, 32, 118, 101, 114, 105, 102, 121, 32, 112, 97,
    116, 104, 41]

def handleVerifyPath (cfg : Config) (payload : Bytes) : Handler Unit := do
  match decodeVerify payload with
  | none => Sys.logVerify .malformed malformedVerifyPath .einval
  | some (path, none) => Sys.logVerify .malformed path .einval
  | some (path, some q) =>
    match resolvePath cfg.root path with
    | .error _ => Sys.logVerify .malformed path .einval
    | .ok norm =>
      if q.count = 0 then verifyMetadataOnly cfg q norm
      else
        match ← Sys.openFile norm (readFlags q.isDir) 0 with
        | .error e => Sys.logVerify .io norm e
        | .ok fd => verifyWithData cfg q norm fd

def handleBarrier (id : UInt64) (payload : Bytes) : Handler Frame := do
  let (flush, _) := pdecU8 (pdecInit payload)
  if flush ≠ 0 then Sys.sync
  let r ← Sys.report
  let first := r.errors.head?
  let e := pencInit (pathMax + 96)
  let e := pencU32 e (statusCode (first.map (·.2)))
  let e := pencU32 e (UInt32.ofNat (min r.errors.length 0xFFFFFFFF))
  let e := pencStr e ((first.map (·.1)).getD [])
  let e := pencU64 e (UInt64.ofNat (r.verify .metadata))
  let e := pencU64 e (UInt64.ofNat (r.verify .data))
  let e := pencU64 e (UInt64.ofNat (r.verify .zero))
  let e := pencU64 e (UInt64.ofNat (r.verify .io))
  let e := pencU64 e (UInt64.ofNat (r.verify .malformed))
  let e := pencU64 e (UInt64.ofNat r.unpreserved)
  let e := pencU64 e r.drainBytes
  let e := pencU64 e r.drainNs
  return ⟨.status, id, e.buf⟩

def handleUnlink (cfg : Config) (payload : Bytes) : Handler Unit := do
  match decodePath payload with
  | none => return
  | some path =>
    match resolvePath cfg.root path with
    | .error _ => return
    | .ok norm =>
      let _ ← Sys.unlink norm

/-- Rename a temporary name to its final one, and remove it when that fails. -/
def renameOrDiscard (dir tmp base logged : Bytes) : Handler Unit := do
  match ← Sys.rename (atDir dir tmp) (atDir dir base) with
  | .ok _ => return
  | .error e =>
    Sys.logError logged e
    let _ ← Sys.unlink (atDir dir tmp)

/-- Ownership of a new symlink: only an error other than a refusal is logged. -/
def chownSymlink (who : Identity) (path logged : Bytes) (uid gid : UInt32) : Handler Unit := do
  if uid = who.euid ∧ gid = who.egid then return
  let (u, g) := wantedOwner who uid gid
  if u = none ∧ g = none then return
  match ← Sys.lchown path u g with
  | .ok _ => return
  | .error e => if chownPermissionErrno e then return else Sys.logError logged e

def handleSymlink (cfg : Config) (payload : Bytes) : Handler Unit := do
  match decodeSymlink payload with
  | none => return
  | some q =>
    match resolvePath cfg.root q.path with
    | .error e => Sys.logError q.path e
    | .ok linkPath =>
      let (dir, base) := splitDirBase linkPath
      match ← ensureDirCachedMode dir 0x1ED with
      | some e => Sys.logError dir e
      | none =>
        match ← Sys.openDir dir with
        | .error e => Sys.logError dir e
        | .ok _ =>
          let seq ← Sys.nextSeq .sym
          let tmp := tmpNameSym cfg.who.pid seq
          match ← Sys.symlink q.target (atDir dir tmp) with
          | .error e => Sys.logError linkPath e
          | .ok _ =>
            chownSymlink cfg.who (atDir dir tmp) linkPath q.uid q.gid
            let settings ← Sys.settings
            if settings.preserveTimes then
              let _ ← Sys.lutimes (atDir dir tmp) q.atime q.mtime
            renameOrDiscard dir tmp base linkPath

/-- Whether the name already is a link to the primary. -/
def sameInode (primary name : Bytes) : Handler Bool := do
  match ← Sys.stat primary with
  | .error _ => return false
  | .ok (i, _) =>
    match ← Sys.lstat name with
    | .error _ => return false
    | .ok (j, _) => return i == j

/-- Replace an existing name by a link. -/
def replaceByLink (cfg : Config) (primary dir base linkPath : Bytes) : Handler Unit := do
  let seq ← Sys.nextSeq .lnk
  let tmp := tmpNameLnk cfg.who.pid seq
  match ← Sys.link primary (atDir dir tmp) with
  | .error e => Sys.logError linkPath e
  | .ok _ => renameOrDiscard dir tmp base linkPath

def handleLink (cfg : Config) (payload : Bytes) : Handler Unit := do
  match decodeLink payload with
  | none => return
  | some (primaryIn, pathIn) =>
    match resolvePath cfg.root primaryIn with
    | .error e => Sys.logError primaryIn e
    | .ok primary =>
      match resolvePath cfg.root pathIn with
      | .error e => Sys.logError pathIn e
      | .ok linkPath =>
        let (dir, base) := splitDirBase linkPath
        match ← ensureDirCachedMode dir 0x1ED with
        | some e => Sys.logError dir e
        | none =>
          match ← Sys.openDir dir with
          | .error e => Sys.logError dir e
          | .ok _ =>
            match ← Sys.link primary (atDir dir base) with
            | .ok _ => return
            | .error .eexist =>
              if ← sameInode primary (atDir dir base) then return
              else replaceByLink cfg primary dir base linkPath
            | .error e => Sys.logError linkPath e

/-- The frames that never get a reply. -/
def silent (m : Handler Unit) : Handler (Option Frame) := do
  m
  return none

def answering (m : Handler Frame) : Handler (Option Frame) := do
  return some (← m)

/-- The dispatch of `server_main`; other types are ignored. -/
def handle (cfg : Config) (f : Frame) : Handler (Option Frame) :=
  match f.type with
  | .hello => answering (handleHello cfg f.id f.payload)
  | .open => silent (handleOpen cfg f.payload)
  | .write => silent (handleWrite f.payload)
  | .ftruncate => silent (handleFtruncate f.payload)
  | .commit => answering (handleCommit cfg f.id f.payload)
  | .abort => silent (handleAbort f.payload)
  | .putfile => silent (handlePutfile cfg f.payload)
  | .mkdir => silent (handleMkdir cfg f.payload)
  | .stat => answering (handleStat cfg f.id f.payload)
  | .statBulk => answering (handleStatBulk cfg f.id f.payload)
  | .setmeta => silent (handleSetmeta cfg f.payload)
  | .verifyPath => silent (handleVerifyPath cfg f.payload)
  | .barrier => answering (handleBarrier f.id f.payload)
  | .unlink => silent (handleUnlink cfg f.payload)
  | .symlink => silent (handleSymlink cfg f.payload)
  | .link => silent (handleLink cfg f.payload)
  | .helloOk | .statResp | .statBulkResp | .status | .bye => return none

/-- The end-of-stream cleanup: files that are still open lose their temporary
names. -/
def discardFiles : List OpenFile → Handler Unit
  | [] => return
  | f :: fs => do
    if let some fd := f.fd then
      let _ ← Sys.close fd
    if !f.inplace && f.tmpPath ≠ [] then
      let _ ← Sys.unlink f.tmpPath
    discardFiles fs

def cleanup : Handler (Option Frame) := do
  let files ← Sys.takeFiles
  discardFiles files
  return none

end Ecopy.Server
