import Ecopy.Verify.Sampling

/-!
# Verification of one local item

`verify_local_item` compares the metadata of the target, then the samples that
`for_each_sample` hands out, and records what it saw. A read may be interrupted, fail,
or return less than was asked for; what happens to the reads of one item is a finite
list, in the order of the calls, and the reads after it return all there is.

Which reads and comparisons were made is kept beside the counters. The messages are
left out, and so is the advice given to the kernel.
-/
namespace Ecopy.Verify.LocalItem
open Protocol (Bytes)
open Sampling

/-- `struct stat`; sizes are below `2 ^ 63`. -/
structure Stat where
  dev : UInt64
  ino : UInt64
  mode : UInt32
  uid : UInt32
  gid : UInt32
  size : ℕ
  blocks : ℕ
  atime : ℤ × ℤ
  mtime : ℤ × ℤ
  size_lt : size < 2 ^ 63

/-- `st_mode & S_IFMT` -/
def Stat.fileType (st : Stat) : UInt32 := st.mode &&& 0o170000

/-- `S_ISREG` -/
def Stat.isReg (st : Stat) : Bool := st.fileType == 0o100000

/-- `S_ISDIR` -/
def Stat.isDir (st : Stat) : Bool := st.fileType == 0o040000

/-- `source_is_sparse` -/
def Stat.isSparse (st : Stat) : Bool := decide (0 < st.size) && decide (st.blocks * 512 < st.size)

structure Item where
  src : Bytes
  dst : Bytes
  srcSt : Stat
  isDir : Bool

/-- `ownershipUnpreservable` and `forceMismatch` are what the process found out about
itself. -/
structure Config where
  metadata : Bool
  data : Bool
  percent : ℚ
  seed : UInt64
  preserveTimes : Bool
  ownershipUnpreservable : Bool
  forceMismatch : Bool

inductive MetaClass where
  | ok
  | mismatch
  | ownership
deriving DecidableEq, Repr

/-- The first field that differs, ownership apart. -/
def metadataField (c : Config) (expected actual : Stat) (isDir : Bool) : Option String :=
  if actual.fileType ≠ expected.fileType then some "type"
  else if !isDir && actual.size != expected.size then some "size"
  else if actual.mode &&& 0o7777 ≠ expected.mode &&& 0o7777 then some "mode"
  else if c.preserveTimes && actual.atime != expected.atime then some "atime"
  else if c.preserveTimes && actual.mtime != expected.mtime then some "mtime"
  else none

def ownerField (c : Config) (expected actual : Stat) : Option String :=
  if actual.uid ≠ expected.uid then some "uid"
  else if actual.gid ≠ expected.gid then some "gid"
  else if c.forceMismatch then some "uid"
  else none

def verifyMetadataStat (c : Config) (expected actual : Stat) (isDir : Bool) : MetaClass :=
  if (metadataField c expected actual isDir).isSome then .mismatch
  else if (ownerField c expected actual).isNone then .ok
  else if c.ownershipUnpreservable then .ownership
  else .mismatch

inductive Side where
  | source
  | target
deriving DecidableEq, Repr

/-- An open regular file. -/
structure File where
  data : Bytes
  seek : Seeker

/-- What happens to one read; `short n` returns `n + 1` bytes at most. -/
inductive Quirk where
  | interrupted
  | failed
  | short (n : ℕ)
deriving DecidableEq, Repr

/-- The system during the verification of one item. -/
structure System where
  lstat : Option Stat
  openFile : Side → Bool → Option File
  fstatBefore : Option Stat
  fstatAfter : Option Stat
  alloc : Allocator
  quirks : List Quirk

structure Read where
  side : Side
  offset : ℕ
  length : ℕ
deriving DecidableEq, Repr

/-- What is still to happen to reads, and the reads made. -/
structure Reads where
  quirks : List Quirk
  made : List Read
deriving DecidableEq, Repr

/-- The loop of `pread_full`, with `got` read already. -/
def preadLoop (side : Side) (data : Bytes) (len off : ℕ) (got : Bytes) (quirks : List Quirk)
    (made : List Read) : Option Bytes × Reads :=
  if got.length < len then
    match quirks with
    | .interrupted :: quirks =>
      preadLoop side data len off got quirks
        (made ++ [⟨side, off + got.length, len - got.length⟩])
    | .failed :: quirks =>
      (none, ⟨quirks, made ++ [⟨side, off + got.length, len - got.length⟩]⟩)
    | .short n :: quirks =>
      if data.drop (off + got.length) = [] then
        (some got, ⟨quirks, made ++ [⟨side, off + got.length, len - got.length⟩]⟩)
      else
        preadLoop side data len off
          (got ++ (data.drop (off + got.length)).take (min (len - got.length) (n + 1))) quirks
          (made ++ [⟨side, off + got.length, len - got.length⟩])
    | [] =>
      if data.drop (off + got.length) = [] then
        (some got, ⟨[], made ++ [⟨side, off + got.length, len - got.length⟩]⟩)
      else
        preadLoop side data len off
          (got ++ (data.drop (off + got.length)).take (len - got.length)) []
          (made ++ [⟨side, off + got.length, len - got.length⟩])
  else (some got, ⟨quirks, made⟩)
termination_by quirks.length + (len - got.length)
decreasing_by
  all_goals simp_all
  all_goals omega

def preadFull (side : Side) (data : Bytes) (len off : ℕ) (r : Reads) : Option Bytes × Reads :=
  preadLoop side data len off [] r.quirks r.made

/-- Two buffers of one length, filled from one offset on, that `memcmp` looked at. -/
structure Comparison where
  offset : ℕ
  source : Bytes
  target : Bytes
deriving DecidableEq, Repr

/-- `local_ctx_t` -/
structure Local where
  reads : Reads
  compared : List Comparison
  bytes : ℕ
  blocks : ℕ
  holeBytes : ℕ
  holeBlocks : ℕ
  mismatch : Bool
  dataMismatch : Bool
  zeroMismatch : Bool
deriving DecidableEq, Repr

def Local.start (quirks : List Quirk) : Local :=
  ⟨⟨quirks, []⟩, [], 0, 0, 0, 0, false, false, false⟩

/-- `memcmp` runs when both reads returned as much as was asked for. -/
def comparison (x : Sample) : Option Bytes → Option Bytes → Option Comparison
  | some a, some b =>
    if a.length = x.length ∧ b.length = x.length then some ⟨x.offset, a, b⟩ else none
  | _, _ => none

def agrees : Option Comparison → Bool
  | some c => c.source == c.target
  | none => false

/-- `compare_sample`: both reads, the source's only where data is expected. -/
def compareSample (m : ExtentMap) (source target : Bytes) (x : Sample) (ctx : Local) :
    Bool × Local :=
  let expectedZero := extentMapRangeIsHole m x.offset x.length
  let sr := if expectedZero then (some (List.replicate x.length 0), ctx.reads)
    else preadFull .source source x.length x.offset ctx.reads
  let dr := preadFull .target target x.length x.offset sr.2
  let looked := comparison x sr.1 dr.1
  (true,
    { reads := dr.2
      compared := ctx.compared ++ looked.toList
      bytes := ctx.bytes + x.length
      blocks := ctx.blocks + 1
      holeBytes := ctx.holeBytes + if expectedZero then x.length else 0
      holeBlocks := ctx.holeBlocks + if expectedZero then 1 else 0
      mismatch := ctx.mismatch || !agrees looked
      dataMismatch := ctx.dataMismatch || !agrees looked && !expectedZero
      zeroMismatch := ctx.zeroMismatch || !agrees looked && expectedZero })

/-- `source_still_matches` -/
def sourceStillMatches (item : Item) : Option Stat → Bool
  | none => false
  | some now =>
    now.isReg && now.dev == item.srcSt.dev && now.ino == item.srcSt.ino &&
      now.size == item.srcSt.size && now.mtime == item.srcSt.mtime

/-- What the check before the data finds. -/
structure Metadata where
  bad : Bool
  failed : Bool
  structural : Bool
  ownership : Bool
deriving DecidableEq, Repr

def checkMetadata (c : Config) (item : Item) (lstat : Option Stat) : Metadata :=
  if c.metadata then
    match lstat with
    | none => ⟨true, true, true, false⟩
    | some actual =>
      match verifyMetadataStat c item.srcSt actual item.isDir with
      | .mismatch =>
        ⟨true, true, actual.fileType != item.srcSt.fileType ||
          !item.isDir && actual.size != item.srcSt.size, false⟩
      | .ownership => ⟨false, false, false, true⟩
      | .ok => ⟨false, false, false, false⟩
  else
    match lstat with
    | none => ⟨false, true, true, false⟩
    | some actual =>
      if (if item.isDir then !actual.isDir
          else !actual.isReg || actual.size != item.srcSt.size) then
        ⟨false, true, true, false⟩
      else ⟨false, false, false, false⟩

/-- The map that the source's blocks are numbered by, and whether building it failed. -/
def sourceMap (item : Item) (alloc : Allocator) (source : Option File) : Bool × ExtentMap :=
  match source with
  | none => (true, .empty)
  | some f =>
    if item.srcSt.isSparse then extentMapBuild alloc f.seek item.srcSt.size
    else (true, .empty)

/-- What `verify_local_item` returns and records, and the reads and comparisons. -/
structure Report where
  failed : Bool
  metaBad : Bool
  ownership : Bool
  scopeBytes : ℕ
  localCtx : Local
deriving DecidableEq, Repr

/-- The part of `verify_local_item` that reads data. -/
def verifyData (c : Config) (item : Item) (s : System) : Bool × ℕ × Local :=
  let ctx := Local.start s.quirks
  let noatime := c.metadata && c.preserveTimes
  let source := s.openFile .source noatime
  let target := s.openFile .target noatime
  let m := sourceMap item s.alloc source
  match sampleDomainInit s.alloc m.2 item.srcSt.size with
  | none => (true, item.srcSt.size, ctx)
  | some d =>
    match source, target with
    | some f, some g =>
      if sourceStillMatches item s.fstatBefore then
        let r := forEach (compareSample m.2 f.data g.data)
          (samples (sampleTarget c.percent d.dataN) c.seed item.src d) ctx
        (!m.1 || !r.1 || !sourceStillMatches item s.fstatAfter || r.2.mismatch,
          d.dataBytes, r.2)
      else (true, d.dataBytes, ctx)
    | _, _ => (true, d.dataBytes, ctx)

def verifyLocalItem (c : Config) (item : Item) (s : System) : Report :=
  let check := checkMetadata c item s.lstat
  if !item.isDir && !check.structural && c.data && decide (0 < item.srcSt.size) then
    let r := verifyData c item s
    ⟨check.failed || r.1, check.bad, check.ownership, r.2.1, r.2.2⟩
  else
    ⟨check.failed, check.bad, check.ownership, if item.isDir then 0 else item.srcSt.size,
      Local.start s.quirks⟩

end Ecopy.Verify.LocalItem
