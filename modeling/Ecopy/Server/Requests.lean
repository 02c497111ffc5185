import Ecopy.Path
import Ecopy.Protocol.Message

/-!
# Requests as the handlers decode them

Each decoder reads the fields in the order of the handler and gives up where
the handler gives up. `COMMIT`, `ABORT` and `FTRUNCATE` never look at the
decoder's error flag: a field that is cut off reads as zero.
-/
namespace Ecopy.Server
open Protocol Ecopy.Path

def signed64 (v : UInt64) : ℤ := if v.toNat < 2 ^ 63 then v.toNat else (v.toNat : ℤ) - 2 ^ 64

def pdecI64 (d : Pdec) : ℤ × Pdec :=
  let (v, d) := pdecU64 d
  (signed64 v, d)

structure Meta where
  uid : UInt32
  gid : UInt32
  mode : UInt32
  atime : ℤ × ℤ
  mtime : ℤ × ℤ
deriving DecidableEq, Repr

def pdecTimes (d : Pdec) : (ℤ × ℤ) × (ℤ × ℤ) × Pdec :=
  let (as, d) := pdecI64 d
  let (an, d) := pdecI64 d
  let (ms, d) := pdecI64 d
  let (mn, d) := pdecI64 d
  ((as, an), (ms, mn), d)

def decodePath (payload : Bytes) : Option Bytes := (pdecStr (pdecInit payload) pathMax).1

def decodeMkdir (payload : Bytes) : Option (Bytes × UInt32) :=
  match pdecStr (pdecInit payload) pathMax with
  | (none, _) => none
  | (some path, d) =>
    let (mode, d) := pdecU32 d
    if d.error then none else some (path, mode)

structure OpenRequest where
  fid : UInt64
  mode : UInt32
  expected : ℤ
  flags : UInt32
  parentMode : UInt32
  path : Bytes
deriving DecidableEq, Repr

def decodeOpen (payload : Bytes) : Option OpenRequest :=
  let d := pdecInit payload
  let (fid, d) := pdecU64 d
  let (mode, d) := pdecU32 d
  let (expected, d) := pdecI64 d
  let (flags, d) := pdecU32 d
  let (parentMode, d) := pdecU32 d
  match pdecStr d pathMax with
  | (none, _) => none
  | (some path, d) => if d.error then none else some ⟨fid, mode, expected, flags, parentMode, path⟩

def OpenRequest.inplace (q : OpenRequest) : Bool := q.flags &&& openInplace != 0
def OpenRequest.sparse (q : OpenRequest) : Bool := q.flags &&& openSparse != 0

structure PutRequest where
  attr : Meta
  flags : UInt32
  parentMode : UInt32
  path : Bytes
  data : Bytes
deriving DecidableEq, Repr

def decodePutfile (payload : Bytes) : Option PutRequest :=
  let d := pdecInit payload
  let (mode, d) := pdecU32 d
  let (uid, d) := pdecU32 d
  let (gid, d) := pdecU32 d
  let (atime, mtime, d) := pdecTimes d
  let (flags, d) := pdecU32 d
  let (parentMode, d) := pdecU32 d
  match pdecStr d pathMax with
  | (none, _) => none
  | (some path, d) =>
    if d.error then none
    else some ⟨⟨uid, gid, mode, atime, mtime⟩, flags, parentMode, path, d.rest⟩

def PutRequest.inplace (q : PutRequest) : Bool := q.flags &&& openInplace != 0

def decodeSetmeta (payload : Bytes) : Option (Bytes × Meta × Bool) :=
  match pdecStr (pdecInit payload) pathMax with
  | (none, _) => none
  | (some path, d) =>
    let (uid, d) := pdecU32 d
    let (gid, d) := pdecU32 d
    let (mode, d) := pdecU32 d
    let (atime, mtime, d) := pdecTimes d
    let (isDir, d) := pdecU8 d
    if d.error then none else some (path, ⟨uid, gid, mode, atime, mtime⟩, isDir != 0)

structure SymlinkRequest where
  target : Bytes
  path : Bytes
  uid : UInt32
  gid : UInt32
  atime : ℤ × ℤ
  mtime : ℤ × ℤ
deriving DecidableEq, Repr

def decodeSymlink (payload : Bytes) : Option SymlinkRequest :=
  match pdecStr (pdecInit payload) pathMax with
  | (none, _) => none
  | (some target, d) =>
    match pdecStr d pathMax with
    | (none, _) => none
    | (some path, d) =>
      let (uid, d) := pdecU32 d
      let (gid, d) := pdecU32 d
      let (atime, mtime, d) := pdecTimes d
      if d.error then none else some ⟨target, path, uid, gid, atime, mtime⟩

/-- Primary and link path. -/
def decodeLink (payload : Bytes) : Option (Bytes × Bytes) :=
  match pdecStr (pdecInit payload) pathMax with
  | (none, _) => none
  | (some primary, d) =>
    match pdecStr d pathMax with
    | (none, _) => none
    | (some path, d) => if d.error then none else some (primary, path)

def decodeFid (payload : Bytes) : UInt64 := (pdecU64 (pdecInit payload)).1

def decodeFtruncate (payload : Bytes) : UInt64 × ℤ :=
  let (fid, d) := pdecU64 (pdecInit payload)
  let (size, _) := pdecI64 d
  (fid, size)

/-- A payload below 16 bytes is ignored. -/
def decodeWrite (payload : Bytes) : Option (UInt64 × ℤ × Bytes) :=
  if payload.length < 16 then none
  else
    let (fid, d) := pdecU64 (pdecInit payload)
    let (offset, _) := pdecI64 d
    some (fid, offset, payload.drop 16)

def decodeCommit (payload : Bytes) : UInt64 × Meta :=
  let (fid, d) := pdecU64 (pdecInit payload)
  let (uid, d) := pdecU32 d
  let (gid, d) := pdecU32 d
  let (mode, d) := pdecU32 d
  let (atime, mtime, _) := pdecTimes d
  (fid, ⟨uid, gid, mode, atime, mtime⟩)

/-- The base and the number of names; the names are read one by one from the
rest. -/
def decodeStatBulk (payload : Bytes) : Option (Bytes × ℕ × Pdec) :=
  match pdecStr (pdecInit payload) pathMax with
  | (none, _) => none
  | (some base, d) =>
    let (count, d) := pdecU32 d
    if d.error ∨ count.toNat > 1000000 then none else some (base, count.toNat, d)

def verifyBatchMax : ℕ := 256
def verifyBlockSize : ℕ := 4096
def verifyDigestSize : ℕ := 32

structure VerifyRequest where
  path : Bytes
  attr : Meta
  expectedSize : ℤ
  flags : UInt8
  count : ℕ
  rest : Pdec
deriving DecidableEq, Repr

def VerifyRequest.isDir (q : VerifyRequest) : Bool := q.flags &&& 1 != 0
def VerifyRequest.checkMetadata (q : VerifyRequest) : Bool := q.flags &&& 2 != 0
def VerifyRequest.checkTimes (q : VerifyRequest) : Bool := q.flags &&& 4 != 0

/-- The path, and the whole request when its head is well formed. -/
def decodeVerify (payload : Bytes) : Option (Bytes × Option VerifyRequest) :=
  match pdecStr (pdecInit payload) pathMax with
  | (none, _) => none
  | (some path, d) =>
    let (uid, d) := pdecU32 d
    let (gid, d) := pdecU32 d
    let (mode, d) := pdecU32 d
    let (atime, mtime, d) := pdecTimes d
    let (size, d) := pdecI64 d
    let (flags, d) := pdecU8 d
    let (count, d) := pdecU32 d
    let q : VerifyRequest := ⟨path, ⟨uid, gid, mode, atime, mtime⟩, size, flags, count.toNat, d⟩
    if d.error ∨ size < 0 ∨ q.count > verifyBatchMax ∨ flags &&& 0xF0 ≠ 0 ∨
        (q.isDir ∧ q.count ≠ 0) then some (path, none)
    else some (path, some q)

end Ecopy.Server
