import Ecopy.FileSystem
import Ecopy.Lib.Calls
import Ecopy.Remote.Handshake

/-!
# What a server process calls

Handlers are programs over the calls of this module: system calls, and the
accesses to the memory that the threads of the process share (the table of
open files, the directory cache, the counters, the error log). Every call is
atomic, so that handlers of the apply pool interleave between calls.

The kernel resolves paths lexically, as the server does. Any system call may
also fail for a reason that the state does not show; such a fault leaves the
state alone, except for writes, which may stop after a part of the data.
`ENOENT` and `EEXIST` are never faults: they tell the truth about the state.
`touched` records the paths of the calls that changed the file system. `attempt`
is any internal step that may fail: an allocation, a switch to direct I/O.

The loops around `read` and `write` are one call each. Descriptors are named by
the path they were opened with. Cached directory handles are the directories
themselves: the server never moves a directory.
-/
namespace Ecopy.Server
open Protocol (Bytes)
open Ecopy.Path FileSystem Lib.Calls
open Remote.Handshake (Settings)

inductive Fault where
  | io
  | access
  | permission
  | noMemory
  | noSpace
  | invalid
  | notSupported
  | notImplemented
  | nameTooLong
  | crossDevice
deriving DecidableEq, Repr

def Fault.errno : Fault → Errno
  | .io => .eio
  | .access => .eacces
  | .permission => .eperm
  | .noMemory => .enomem
  | .noSpace => .enospc
  | .invalid => .einval
  | .notSupported => .eopnotsupp
  | .notImplemented => .enosys
  | .nameTooLong => .enametoolong
  | .crossDevice => .exdev

theorem Fault.errno_ne_enoent (f : Fault) : f.errno ≠ .enoent := by
  cases f <;> decide

theorem Fault.errno_ne_eexist (f : Fault) : f.errno ≠ .eexist := by
  cases f <;> decide

/-- What the environment decides about one call. -/
structure Choice where
  fault : Option Fault
  progress : ℕ
  emptyTarget : Bool
deriving DecidableEq, Repr

structure Fd where
  path : Bytes
  ino : ℕ
deriving DecidableEq, Repr

/-- `open_file_t`. The error of a failed file is its first one. -/
structure OpenFile where
  id : UInt64
  fd : Option Fd
  inplace : Bool
  direct : Bool
  failed : Option Errno
  tmpPath : Bytes
  finalPath : Bytes
deriving DecidableEq, Repr

inductive DirState where
  | creating
  | ready (mode : Option UInt32)
  | failed (err : Errno)
deriving DecidableEq, Repr

/-- The answer of the directory cache: this thread has to create the directory,
or somebody has settled it. -/
inductive Claim where
  | claimed
  | ready
  | failed (err : Errno)
deriving DecidableEq, Repr

/-- The sequence numbers of temporary names. -/
inductive Counter where
  | put
  | sym
  | lnk
deriving DecidableEq, Repr

inductive VerifyError where
  | metadata
  | data
  | zero
  | io
  | malformed
deriving DecidableEq, Repr

/-- What a barrier reports: the error log and the verify counters. The drain
totals are telemetry. -/
structure Report where
  errors : List (Bytes × Errno)
  verify : VerifyError → ℕ
  unpreserved : ℕ
  drainBytes : UInt64
  drainNs : UInt64

abbrev Time := ℤ × ℤ

inductive Call where
  | mkdir (path : Bytes) (mode : UInt32)
  | lstat (path : Bytes)
  | stat (path : Bytes)
  | openFile (path : Bytes) (flags : Fs.OpenFlags) (mode : UInt32)
  | openDir (path : Bytes)
  | fallocate (fd : Fd) (size : ℤ)
  | ftruncate (fd : Fd) (size : ℤ)
  | pwrite (fd : Fd) (offset : ℤ) (data : Bytes)
  | pread (fd : Fd) (len : ℕ) (offset : ℤ)
  | fstat (fd : Fd)
  | fsync (fd : Fd)
  | close (fd : Fd)
  | fchown (fd : Fd) (uid gid : Option UInt32)
  | fchmod (fd : Fd) (mode : UInt32)
  | futimens (fd : Fd) (atime mtime : Time)
  | rename (a b : Bytes)
  | unlink (path : Bytes)
  | symlink (target path : Bytes)
  | link (a b : Bytes)
  | lchown (path : Bytes) (uid gid : Option UInt32)
  | lutimes (path : Bytes) (atime mtime : Time)
  | sync
  | findFile (id : UInt64)
  | addFile (f : OpenFile)
  | updateFile (f : OpenFile)
  | removeFile (id : UInt64)
  | takeFiles
  | claimDir (dir : Bytes)
  | settleDir (dir : Bytes) (state : DirState)
  | dirMode (dir : Bytes)
  | nextSeq (counter : Counter)
  | settings
  | setSettings (s : Settings)
  | attempt
  | logError (path : Bytes) (err : Errno)
  | logVerify (kind : VerifyError) (path : Bytes) (err : Errno)
  | noteUnpreserved
  | report
deriving DecidableEq, Repr

/-- A failed write also says how much was written. -/
def Call.Result : Call → Type
  | .lstat _ | .stat _ | .fstat _ => Except Errno (ℕ × Node)
  | .openFile _ _ _ => Except Errno Fd
  | .pwrite _ _ _ => Except (Errno × ℕ) Unit
  | .pread _ _ _ => Except Errno Bytes
  | .mkdir _ _ | .openDir _ | .fallocate _ _ | .ftruncate _ _ | .fsync _ | .close _
  | .fchown _ _ _ | .fchmod _ _ | .futimens _ _ _ | .rename _ _ | .unlink _ | .symlink _ _
  | .link _ _ | .lchown _ _ _ | .lutimes _ _ _ => Except Errno Unit
  | .findFile _ => Option OpenFile
  | .claimDir _ => Claim
  | .dirMode _ => Option UInt32
  | .nextSeq _ => ℕ
  | .settings => Settings
  | .attempt => Bool
  | .takeFiles => List OpenFile
  | .report => Report
  | .sync | .addFile _ | .updateFile _ | .removeFile _ | .settleDir _ _ | .setSettings _
  | .logError _ _ | .logVerify _ _ _ | .noteUnpreserved => Unit

abbrev Handler := Prog Call.Result

namespace Sys

def mkdir (path : Bytes) (mode : UInt32) : Handler (Except Errno Unit) :=
  Prog.perform (.mkdir path mode : Call)
def lstat (path : Bytes) : Handler (Except Errno (ℕ × Node)) :=
  Prog.perform (.lstat path : Call)
def stat (path : Bytes) : Handler (Except Errno (ℕ × Node)) :=
  Prog.perform (.stat path : Call)
def openFile (path : Bytes) (flags : Fs.OpenFlags) (mode : UInt32) : Handler (Except Errno Fd) :=
  Prog.perform (.openFile path flags mode : Call)
def openDir (path : Bytes) : Handler (Except Errno Unit) :=
  Prog.perform (.openDir path : Call)
def fallocate (fd : Fd) (size : ℤ) : Handler (Except Errno Unit) :=
  Prog.perform (.fallocate fd size : Call)
def ftruncate (fd : Fd) (size : ℤ) : Handler (Except Errno Unit) :=
  Prog.perform (.ftruncate fd size : Call)
def pwrite (fd : Fd) (offset : ℤ) (data : Bytes) : Handler (Except (Errno × ℕ) Unit) :=
  Prog.perform (.pwrite fd offset data : Call)
def pread (fd : Fd) (len : ℕ) (offset : ℤ) : Handler (Except Errno Bytes) :=
  Prog.perform (.pread fd len offset : Call)
def fstat (fd : Fd) : Handler (Except Errno (ℕ × Node)) :=
  Prog.perform (.fstat fd : Call)
def fsync (fd : Fd) : Handler (Except Errno Unit) :=
  Prog.perform (.fsync fd : Call)
def close (fd : Fd) : Handler (Except Errno Unit) :=
  Prog.perform (.close fd : Call)
def fchown (fd : Fd) (uid gid : Option UInt32) : Handler (Except Errno Unit) :=
  Prog.perform (.fchown fd uid gid : Call)
def fchmod (fd : Fd) (mode : UInt32) : Handler (Except Errno Unit) :=
  Prog.perform (.fchmod fd mode : Call)
def futimens (fd : Fd) (atime mtime : Time) : Handler (Except Errno Unit) :=
  Prog.perform (.futimens fd atime mtime : Call)
def rename (a b : Bytes) : Handler (Except Errno Unit) :=
  Prog.perform (.rename a b : Call)
def unlink (path : Bytes) : Handler (Except Errno Unit) :=
  Prog.perform (.unlink path : Call)
def symlink (target path : Bytes) : Handler (Except Errno Unit) :=
  Prog.perform (.symlink target path : Call)
def link (a b : Bytes) : Handler (Except Errno Unit) :=
  Prog.perform (.link a b : Call)
def lchown (path : Bytes) (uid gid : Option UInt32) : Handler (Except Errno Unit) :=
  Prog.perform (.lchown path uid gid : Call)
def lutimes (path : Bytes) (atime mtime : Time) : Handler (Except Errno Unit) :=
  Prog.perform (.lutimes path atime mtime : Call)
def sync : Handler Unit :=
  Prog.perform (.sync : Call)
def findFile (id : UInt64) : Handler (Option OpenFile) :=
  Prog.perform (.findFile id : Call)
def addFile (f : OpenFile) : Handler Unit :=
  Prog.perform (.addFile f : Call)
def updateFile (f : OpenFile) : Handler Unit :=
  Prog.perform (.updateFile f : Call)
def removeFile (id : UInt64) : Handler Unit :=
  Prog.perform (.removeFile id : Call)
def takeFiles : Handler (List OpenFile) :=
  Prog.perform (.takeFiles : Call)
def claimDir (dir : Bytes) : Handler Claim :=
  Prog.perform (.claimDir dir : Call)
def settleDir (dir : Bytes) (state : DirState) : Handler Unit :=
  Prog.perform (.settleDir dir state : Call)
def dirMode (dir : Bytes) : Handler (Option UInt32) :=
  Prog.perform (.dirMode dir : Call)
def nextSeq (counter : Counter) : Handler ℕ :=
  Prog.perform (.nextSeq counter : Call)
def settings : Handler Settings :=
  Prog.perform (.settings : Call)
def setSettings (s : Settings) : Handler Unit :=
  Prog.perform (.setSettings s : Call)
def attempt : Handler Bool :=
  Prog.perform (.attempt : Call)
def logError (path : Bytes) (err : Errno) : Handler Unit :=
  Prog.perform (.logError path err : Call)
def logVerify (kind : VerifyError) (path : Bytes) (err : Errno) : Handler Unit :=
  Prog.perform (.logVerify kind path err : Call)
def noteUnpreserved : Handler Unit :=
  Prog.perform (.noteUnpreserved : Call)
def report : Handler Report :=
  Prog.perform (.report : Call)

end Sys

/-- The effective user of the process. -/
structure Identity where
  euid : UInt32
  egid : UInt32
  groups : List UInt32
  pid : ℕ

structure World where
  fs : Fs
  files : List OpenFile
  dirCache : Bytes → Option DirState
  seq : Counter → ℕ
  settings : Settings
  errors : List (Bytes × Errno)
  verify : VerifyError → ℕ
  unpreserved : ℕ
  touched : List Bytes

def locate (path : Bytes) : Except Errno Loc :=
  if path = [] then .error .enoent else .ok (resolve path)

/-- A freshly created object. -/
def newNode (who : Identity) (kind : Kind) (mode : UInt32) : Node :=
  ⟨kind, mode &&& 0xFFF, who.euid, who.egid, (0, 0), (0, 0)⟩

/-- Follow symlinks at the end of a path. -/
def follow (fs : Fs) : ℕ → Loc → Except Errno Loc
  | 0, _ => .error .eloop
  | fuel + 1, l =>
    match fs.entry l with
    | none => .error .enoent
    | some i =>
      match (fs.node i).kind with
      | .symlink target =>
        if target.head? = some slash then follow fs fuel (resolve target)
        else follow fs fuel (resolveFrom l.dropLast (Lib.Fields.fields slash target))
      | _ => .ok l

def lookup (fs : Fs) (l : Loc) : Except Errno (ℕ × Node) :=
  match fs.parentError l with
  | some e => .error e
  | none =>
    match fs.entry l with
    | none => .error .enoent
    | some i => .ok (i, fs.node i)

/-- Store back the file that `file_find` returned. -/
def replaceFile (f : OpenFile) : List OpenFile → List OpenFile
  | [] => []
  | g :: gs => if g.id = f.id then f :: gs else g :: replaceFile f gs

namespace World
variable (w : World) (x : Choice)

/-- A system call that changes the file system through `paths` when it succeeds. -/
def change {α : Type} (paths : List Bytes) (r : Except Errno (α × Fs)) : Except Errno α × World :=
  match x.fault with
  | some f => (.error f.errno, w)
  | none =>
    match r with
    | .error e => (.error e, w)
    | .ok (a, fs) => (.ok a, { w with fs := fs, touched := w.touched ++ paths })

/-- A system call that only reads. -/
def query {α : Type} (r : Except Errno α) : Except Errno α × World :=
  match x.fault with
  | some f => (.error f.errno, w)
  | none => (r, w)

/-- A change of the node behind a descriptor. -/
def changeNode (fd : Fd) (f : Node → Node) : Except Errno Unit × World :=
  w.change x [fd.path] (.ok ((), w.fs.setNode fd.ino (f (w.fs.node fd.ino))))

def withLoc (path : Bytes) (f : Loc → Except Errno Fs) : Except Errno (Unit × Fs) :=
  match locate path with
  | .error e => .error e
  | .ok l =>
    match f l with
    | .error e => .error e
    | .ok fs => .ok ((), fs)

def withLocs (a b : Bytes) (f : Loc → Loc → Except Errno Fs) : Except Errno (Unit × Fs) :=
  match locate a with
  | .error e => .error e
  | .ok la => withLoc b fun lb => f la lb

def setOwner (n : Node) (uid gid : Option UInt32) : Node :=
  { n with uid := uid.getD n.uid, gid := gid.getD n.gid }

/-- A change of the object at a path, without following a symlink. -/
def changeAt (path : Bytes) (f : Node → Node) : Except Errno Unit × World :=
  w.change x [path] (withLoc path fun l =>
    match lookup w.fs l with
    | .error e => .error e
    | .ok (i, n) => .ok (w.fs.setNode i (f n)))

/-- Resize with zeros. -/
def resize (size : ℕ) (data : Bytes) : Bytes :=
  data.take size ++ List.replicate (size - data.length) 0

/-- Bytes written through a descriptor. -/
def writeData (fd : Fd) (offset : ℕ) (data : Bytes) : World :=
  { w with
    fs := w.fs.modifyData fd.ino fun old => Fs.splice old offset data
    touched := w.touched ++ [fd.path] }

end World

open World in
/-- How the kernel and the process answer. `none` means that the caller waits:
another thread is creating the directory it asks for. -/
def answer (who : Identity) (w : World) (x : Choice) : (c : Call) → Option (c.Result × World)
  | .mkdir path mode => some (w.change x [path] (withLoc path fun l =>
    w.fs.add l (newNode who .directory mode)))
  | .lstat path => some (w.query x (
      match locate path with
      | .error e => .error e
      | .ok l => lookup w.fs l))
  | .stat path => some (w.query x (
      match locate path with
      | .error e => .error e
      | .ok l =>
        match follow w.fs 40 l with
        | .error e => .error e
        | .ok l => lookup w.fs l))
  | .openFile path flags mode =>
    let r : Except Errno (Fd × Fs) :=
      match locate path with
      | .error e => .error e
      | .ok l =>
        match w.fs.openFile l flags (newNode who (.regular []) mode) with
        | .error e => .error e
        | .ok (i, fs) => .ok (⟨path, i⟩, fs)
    some (w.change x (if flags.write then [path] else []) r)
  | .openDir path => some (w.query x (
      match locate path with
      | .error e => .error e
      | .ok l =>
        match w.fs.walkDir [] l with
        | some e => .error e
        | none => .ok ()))
  | .fallocate fd size => some (w.change x [fd.path] (.ok ((), w.fs.modifyData fd.ino fun data =>
    if data.length < size.toNat then resize size.toNat data else data)))
  | .ftruncate fd size =>
    if size < 0 then some (.error .einval, w)
    else some (w.change x [fd.path] (.ok ((), w.fs.modifyData fd.ino (resize size.toNat))))
  | .pwrite fd offset data =>
    if offset < 0 then some (.error (.einval, 0), w)
    else
      match x.fault with
      | some f => some (.error (f.errno, min x.progress data.length),
          w.writeData fd offset.toNat (data.take x.progress))
      | none => some (.ok (), w.writeData fd offset.toNat data)
  | .pread fd len offset => some (w.query x (
      match (w.fs.node fd.ino).kind with
      | .regular data =>
        if offset.toNat + len ≤ data.length then .ok ((data.drop offset.toNat).take len)
        else .error .eio
      | _ => .error .eisdir))
  | .fstat fd => some (w.query x (.ok (fd.ino, w.fs.node fd.ino)))
  | .fsync _ => some (w.query x (.ok ()))
  | .close _ => some (w.query x (.ok ()))
  | .fchown fd uid gid => some (w.changeNode x fd fun n => setOwner n uid gid)
  | .fchmod fd mode => some (w.changeNode x fd fun n => { n with mode := mode &&& 0xFFF })
  | .futimens fd atime mtime =>
    some (w.changeNode x fd fun n => { n with atime := atime, mtime := mtime })
  | .rename a b => some (w.change x [a, b] (withLocs a b fun la lb =>
    w.fs.rename la lb x.emptyTarget))
  | .unlink path => some (w.change x [path] (withLoc path w.fs.unlink))
  | .symlink target path => some (w.change x [path] (withLoc path fun l =>
    if target = [] then .error .enoent else w.fs.add l (newNode who (.symlink target) 0x1FF)))
  | .link a b => some (w.change x [a, b] (withLocs a b w.fs.link))
  | .lchown path uid gid => some (w.changeAt x path fun n => setOwner n uid gid)
  | .lutimes path atime mtime =>
    some (w.changeAt x path fun n => { n with atime := atime, mtime := mtime })
  | .sync => some ((), w)
  | .findFile id => some (w.files.find? (·.id == id), w)
  | .addFile f => some ((), { w with files := f :: w.files })
  | .updateFile f => some ((), { w with files := replaceFile f w.files })
  | .removeFile id => some ((), { w with files := w.files.eraseP (·.id == id) })
  | .takeFiles => some (w.files, { w with files := [] })
  | .claimDir dir =>
    match w.dirCache dir with
    | some .creating => none
    | some (.ready _) => some (.ready, w)
    | some (.failed e) => some (.failed e, w)
    | none =>
      match x.fault with
      | some _ => some (.failed .enomem, w)
      | none => some (.claimed, { w with
          dirCache := Function.update w.dirCache dir (some .creating) })
  | .settleDir dir state =>
    some ((), { w with dirCache := Function.update w.dirCache dir (some state) })
  | .dirMode dir => some (
      match w.dirCache dir with
      | some (.ready mode) => mode
      | _ => none, w)
  | .nextSeq counter =>
    some (w.seq counter + 1, { w with seq := Function.update w.seq counter (w.seq counter + 1) })
  | .settings => some (w.settings, w)
  | .setSettings s => some ((), { w with settings := s })
  | .attempt => some (x.fault.isNone, w)
  | .logError path err => some ((), { w with errors := w.errors ++ [(path, err)] })
  | .logVerify kind path err => some ((), { w with
      errors := w.errors ++ [(path, err)]
      verify := Function.update w.verify kind (w.verify kind + 1) })
  | .noteUnpreserved => some ((), { w with unpreserved := w.unpreserved + 1 })
  | .report => some (⟨w.errors, w.verify, w.unpreserved, UInt64.ofNat x.progress, 0⟩, w)

end Ecopy.Server
