import Ecopy.Protocol.Wire
import Ecopy.Path

/-!
# The payloads of requests and replies

Each encoder fills a buffer of the size its sender declares, with the fields in
the order of the source. Files carry a 12-bit mode; the mode of MKDIR is sent as
it is. Signed values travel as their two's complement.
-/
namespace Ecopy.Remote.Encoders
open Protocol Ecopy.Path

/-- What the encoders use of `struct stat`. -/
structure Stat where
  mode : UInt32
  uid : UInt32
  gid : UInt32
  size : Int64
  atime : Int64 × Int64
  mtime : Int64 × Int64
deriving DecidableEq, Repr

/-- `mode & 07777`. -/
def permissions (mode : UInt32) : UInt32 := mode &&& 4095

def pencI64 (e : Penc) (v : Int64) : Penc := pencU64 e v.toUInt64

def pencTimes (e : Penc) (s : Stat) : Penc :=
  let e := pencI64 e s.atime.1
  let e := pencI64 e s.atime.2
  let e := pencI64 e s.mtime.1
  pencI64 e s.mtime.2

def encodeMeta (e : Penc) (s : Stat) : Penc :=
  let e := pencU32 e s.uid
  let e := pencU32 e s.gid
  let e := pencU32 e (permissions s.mode)
  pencTimes e s

def sshxMkdir (path : Bytes) (mode : UInt32) : Penc :=
  let e := pencInit (pathMax + 16)
  let e := pencStr e path
  pencU32 e mode

def sshxSetmeta (path : Bytes) (srcSt : Stat) (isDir : Bool) : Penc :=
  let e := pencInit (pathMax + 64)
  let e := pencStr e path
  let e := encodeMeta e srcSt
  pencU8 e (if isDir then 1 else 0)

def sshxSymlink (linkPath target : Bytes) (srcSt : Stat) : Penc :=
  let e := pencInit (2 * pathMax + 64)
  let e := pencStr e target
  let e := pencStr e linkPath
  let e := pencU32 e srcSt.uid
  let e := pencU32 e srcSt.gid
  pencTimes e srcSt

def sshxLink (primaryPath linkPath : Bytes) : Penc :=
  let e := pencInit (2 * pathMax + 16)
  let e := pencStr e primaryPath
  pencStr e linkPath

/-- The head of PUTFILE; the file contents follow it. -/
def sshxPutfile (finalPath : Bytes) (srcSt : Stat) (parentMode : UInt32) (inplace : Bool) : Penc :=
  let e := pencInit (pathMax + 64)
  let e := pencU32 e (permissions srcSt.mode)
  let e := pencU32 e srcSt.uid
  let e := pencU32 e srcSt.gid
  let e := pencTimes e srcSt
  let e := pencU32 e (if inplace then openInplace else 0)
  let e := pencU32 e (permissions parentMode)
  pencStr e finalPath

/-- The client's view of a sample. -/
structure Digest where
  offset : Int64
  length : UInt32
  flags : UInt8
  digest : Bytes
  size : digest.length = 32
deriving DecidableEq, Repr

def pencDigest (e : Penc) (s : Digest) : Penc :=
  let e := pencI64 e s.offset
  let e := pencU32 e s.length
  let e := pencU8 e s.flags
  pencBytes e s.digest

/-- The last two are settings of the whole run. -/
def verifyFlags (isDir checkMetadata preserveTime sequential : Bool) : UInt8 :=
  (if isDir then 1 else 0) ||| (if checkMetadata then 2 else 0) |||
    (if preserveTime then 4 else 0) ||| (if sequential then 8 else 0)

def sshxVerifyBatch (path : Bytes) (srcSt : Stat) (digests : List Digest)
    (isDir checkMetadata preserveTime sequential : Bool) : Penc :=
  let e := pencInit (path.length + 128 + digests.length * (8 + 4 + 1 + 32))
  let e := pencStr e path
  let e := encodeMeta e srcSt
  let e := pencI64 e srcSt.size
  let e := pencU8 e (verifyFlags isDir checkMetadata preserveTime sequential)
  let e := pencU32 e (UInt32.ofNat digests.length)
  digests.foldl pencDigest e

/-- OPEN. -/
def sshxFileBegin (fileId : UInt64) (finalPath : Bytes) (mode parentMode : UInt32)
    (expectedSize : Int64) (sparse inplace : Bool) : Penc :=
  let e := pencInit (pathMax + 32)
  let e := pencU64 e fileId
  let e := pencU32 e (permissions mode)
  let e := pencI64 e expectedSize
  let e := pencU32 e
    ((if sparse then openSparse else 0) ||| (if inplace then openInplace else 0))
  let e := pencU32 e (permissions parentMode)
  pencStr e finalPath

/-- The sixteen bytes before the data of a WRITE frame. -/
def sshxFileWrite (fileId : UInt64) (offset : Int64) : Penc :=
  let e := pencInit 16
  let e := pencU64 e fileId
  pencI64 e offset

def sshxFileFtruncate (fileId : UInt64) (size : Int64) : Penc :=
  let e := pencInit 16
  let e := pencU64 e fileId
  pencI64 e size

def sshxFileCommit (fileId : UInt64) (srcSt : Stat) : Penc :=
  let e := pencInit 64
  let e := pencU64 e fileId
  encodeMeta e srcSt

def sshxFileAbort (fileId : UInt64) : Penc :=
  let e := pencInit 16
  pencU64 e fileId

def sshxStatBulk (base : Bytes) (names : List Bytes) : Penc :=
  let e := pencInit (pathMax + 16 + (names.map fun name => name.length + 4).sum)
  let e := pencStr e base
  let e := pencU32 e (UInt32.ofNat names.length)
  names.foldl pencStr e

def barrierRequest (flush : Bool) : Penc :=
  pencU8 (pencInit 1) (if flush then 1 else 0)

/-- A file as STAT_BULK_RESP describes it. -/
structure Entry where
  mode : UInt32
  size : Int64
  mtime : Int64 × Int64
deriving DecidableEq, Repr

/-- An absent name has zeros in every field. -/
def pencEntry (e : Penc) (entry : Option Entry) : Penc :=
  let s := entry.getD ⟨0, 0, (0, 0)⟩
  let e := pencU8 e (if entry.isSome then 1 else 0)
  let e := pencU32 e s.mode
  let e := pencI64 e s.size
  let e := pencI64 e s.mtime.1
  pencI64 e s.mtime.2

def statBulkReply (entries : List (Option Entry)) : Penc :=
  let e := pencInit (8 + entries.length * 40)
  let e := pencU32 e (UInt32.ofNat entries.length)
  entries.foldl pencEntry e

/-- The cumulative totals a server reports at a barrier. -/
structure Totals where
  metadata : UInt64
  data : UInt64
  zero : UInt64
  io : UInt64
  malformed : UInt64
  unpreserved : UInt64
  drainBytes : UInt64
  drainNs : UInt64
deriving DecidableEq, Repr

def barrierReply (status errCount : UInt32) (first : Bytes) (t : Totals) : Penc :=
  let e := pencInit (pathMax + 96)
  let e := pencU32 e status
  let e := pencU32 e errCount
  let e := pencStr e first
  let e := pencU64 e t.metadata
  let e := pencU64 e t.data
  let e := pencU64 e t.zero
  let e := pencU64 e t.io
  let e := pencU64 e t.malformed
  let e := pencU64 e t.unpreserved
  let e := pencU64 e t.drainBytes
  pencU64 e t.drainNs

end Ecopy.Remote.Encoders
