import Ecopy.Protocol.Layout
import Ecopy.Remote.Encoders
import Ecopy.Remote.Stream
import Ecopy.Server.Handlers

/-!
# Senders and receivers agree on every message

The receivers read the fields one by one, in the order written down in the
handlers of the server and, for the two replies, in the client. For every message
the sender's buffer is large enough, the receiver gets the sent values back, and
a payload that is cut short sets the error flag. The decoders here are those the
handlers use, with the flag kept.
-/
namespace Ecopy.Remote.Agreement
open Protocol Ecopy.Path Encoders
open Server (signed64 pdecI64 Meta OpenRequest SymlinkRequest)

def i64 : Decoder ℤ := do
  let v ← Decoder.u64
  return signed64 v

def times : Decoder ((ℤ × ℤ) × (ℤ × ℤ)) := do
  let atS ← i64
  let atNs ← i64
  let mtS ← i64
  let mtNs ← i64
  return ((atS, atNs), (mtS, mtNs))

/-- The fields of `encode_meta`. -/
def attributes : Decoder Meta := do
  let uid ← Decoder.u32
  let gid ← Decoder.u32
  let mode ← Decoder.u32
  let t ← times
  return ⟨uid, gid, mode, t.1, t.2⟩

structure Sample where
  offset : ℤ
  length : UInt32
  flags : UInt8
  expected : Bytes
deriving DecidableEq, Repr

structure Seen where
  mode : UInt32
  size : ℤ
  mtime : ℤ × ℤ
deriving DecidableEq, Repr

/-- What a receiver knows after decoding. -/
inductive Fields where
  | mkdir (path : Bytes) (mode : UInt32)
  | setmeta (path : Bytes) (attr : Meta) (isDir : Bool)
  | symlink (q : SymlinkRequest)
  | link (primary path : Bytes)
  | putfile (attr : Meta) (flags parentMode : UInt32) (path : Bytes)
  | open (q : OpenRequest)
  | write (fid : UInt64) (offset : ℤ)
  | ftruncate (fid : UInt64) (size : ℤ)
  | commit (fid : UInt64) (attr : Meta)
  | abort (fid : UInt64)
  | statBulk (base : Bytes) (names : List Bytes)
  | verifyPath (path : Bytes) (attr : Meta) (size : ℤ) (flags : UInt8) (samples : List Sample)
  | barrier (flush : UInt8)
  | statBulkResp (entries : List (Option Seen))
  | status (status errCount : UInt32) (first : Bytes) (totals : Totals)
deriving DecidableEq, Repr

def readMkdir : Decoder Fields := do
  let path ← Decoder.str pathMax
  let mode ← Decoder.u32
  return .mkdir path mode

def readSetmeta : Decoder Fields := do
  let path ← Decoder.str pathMax
  let attr ← attributes
  let isDir ← Decoder.u8
  return .setmeta path attr (isDir != 0)

def readSymlink : Decoder Fields := do
  let target ← Decoder.str pathMax
  let path ← Decoder.str pathMax
  let uid ← Decoder.u32
  let gid ← Decoder.u32
  let t ← times
  return .symlink ⟨target, path, uid, gid, t.1, t.2⟩

def readLink : Decoder Fields := do
  let primary ← Decoder.str pathMax
  let path ← Decoder.str pathMax
  return .link primary path

/-- The data is what is left. -/
def readPutfile : Decoder Fields := do
  let mode ← Decoder.u32
  let uid ← Decoder.u32
  let gid ← Decoder.u32
  let t ← times
  let flags ← Decoder.u32
  let parentMode ← Decoder.u32
  let path ← Decoder.str pathMax
  return .putfile ⟨uid, gid, mode, t.1, t.2⟩ flags parentMode path

def readOpen : Decoder Fields := do
  let fid ← Decoder.u64
  let mode ← Decoder.u32
  let expected ← i64
  let flags ← Decoder.u32
  let parentMode ← Decoder.u32
  let path ← Decoder.str pathMax
  return .open ⟨fid, mode, expected, flags, parentMode, path⟩

/-- `handle_write` looks at the length of the payload first. -/
def readWrite : Decoder Fields where
  run d :=
    if d.rest.length < 16 then (none, d)
    else
      Decoder.run (do
        let fid ← Decoder.u64
        let offset ← i64
        return .write fid offset) d
  sticky d h := by
    split
    · exact h
    · exact Decoder.sticky _ d h

def readFtruncate : Decoder Fields := do
  let fid ← Decoder.u64
  let size ← i64
  return .ftruncate fid size

def readCommit : Decoder Fields := do
  let fid ← Decoder.u64
  let attr ← attributes
  return .commit fid attr

def readAbort : Decoder Fields := do
  let fid ← Decoder.u64
  return .abort fid

def readStatBulk : Decoder Fields := do
  let base ← Decoder.str pathMax
  let count ← Decoder.u32
  if count.toNat > 1000000 then Decoder.giveUp
  else
    let names ← (Decoder.str pathMax).times count.toNat
    return .statBulk base names

def sample : Decoder Sample := do
  let offset ← i64
  let length ← Decoder.u32
  let flags ← Decoder.u8
  let expected ← Decoder.bytes Server.verifyDigestSize
  return ⟨offset, length, flags, expected⟩

def readVerifyPath : Decoder Fields := do
  let path ← Decoder.str pathMax
  let attr ← attributes
  let size ← i64
  let flags ← Decoder.u8
  let count ← Decoder.u32
  let samples ← sample.times count.toNat
  return .verifyPath path attr size flags samples

def readBarrier : Decoder Fields := do
  let flush ← Decoder.u8
  return .barrier flush

/-- `decode_stat_entry`: an absent name leaves the result alone. -/
def entry : Decoder (Option Seen) := do
  let present ← Decoder.u8
  let mode ← Decoder.u32
  let size ← i64
  let mtSec ← i64
  let mtNsec ← i64
  return if present != 0 then some ⟨mode, size, (mtSec, mtNsec)⟩ else none

/-- The caller expects as many entries as it has asked for. -/
def readStatBulkResp (n : ℕ) : Decoder Fields := do
  let count ← Decoder.u32
  if count.toNat ≠ n then Decoder.giveUp
  else
    let entries ← entry.times n
    return .statBulkResp entries

def readStatus : Decoder Fields := do
  let status ← Decoder.u32
  let errCount ← Decoder.u32
  let first ← Decoder.strOrEmpty pathMax
  let metadata ← Decoder.u64
  let data ← Decoder.u64
  let zero ← Decoder.u64
  let io ← Decoder.u64
  let malformed ← Decoder.u64
  let unpreserved ← Decoder.u64
  let drainBytes ← Decoder.u64
  let drainNs ← Decoder.u64
  return .status status errCount first
    ⟨metadata, data, zero, io, malformed, unpreserved, drainBytes, drainNs⟩

inductive Kind where
  | mkdir
  | setmeta
  | symlink
  | link
  | putfile
  | open
  | write
  | ftruncate
  | commit
  | abort
  | statBulk
  | verifyPath
  | barrier
  | statBulkResp (n : ℕ)
  | status
deriving DecidableEq, Repr

def Kind.decoder : Kind → Decoder Fields
  | .mkdir => readMkdir
  | .setmeta => readSetmeta
  | .symlink => readSymlink
  | .link => readLink
  | .putfile => readPutfile
  | .open => readOpen
  | .write => readWrite
  | .ftruncate => readFtruncate
  | .commit => readCommit
  | .abort => readAbort
  | .statBulk => readStatBulk
  | .verifyPath => readVerifyPath
  | .barrier => readBarrier
  | .statBulkResp n => readStatBulkResp n
  | .status => readStatus

/-- A message with the values its sender puts in. -/
inductive Message where
  | mkdir (path : Bytes) (mode : UInt32)
  | setmeta (path : Bytes) (srcSt : Stat) (isDir : Bool)
  | symlink (linkPath target : Bytes) (srcSt : Stat)
  | link (primaryPath linkPath : Bytes)
  | putfile (finalPath : Bytes) (srcSt : Stat) (parentMode : UInt32) (inplace : Bool) (data : Bytes)
  | open (fileId : UInt64) (finalPath : Bytes) (mode parentMode : UInt32) (expectedSize : Int64)
      (sparse inplace : Bool)
  | write (fileId : UInt64) (offset : Int64) (data : Bytes)
  | ftruncate (fileId : UInt64) (size : Int64)
  | commit (fileId : UInt64) (srcSt : Stat)
  | abort (fileId : UInt64)
  | statBulk (base : Bytes) (names : List Bytes)
  | verifyPath (path : Bytes) (srcSt : Stat) (digests : List Digest)
      (isDir checkMetadata preserveTime sequential : Bool)
  | barrier (flush : Bool)
  | statBulkResp (entries : List (Option Entry))
  | status (status errCount : UInt32) (first : Bytes) (totals : Totals)
deriving DecidableEq, Repr

namespace Message

def kind : Message → Kind
  | mkdir .. => .mkdir
  | setmeta .. => .setmeta
  | symlink .. => .symlink
  | link .. => .link
  | putfile .. => .putfile
  | .open .. => .open
  | write .. => .write
  | ftruncate .. => .ftruncate
  | commit .. => .commit
  | abort .. => .abort
  | statBulk .. => .statBulk
  | verifyPath .. => .verifyPath
  | barrier .. => .barrier
  | statBulkResp entries => .statBulkResp entries.length
  | status .. => .status

/-- The sender's buffer. -/
def encode : Message → Penc
  | mkdir path mode => sshxMkdir path mode
  | setmeta path srcSt isDir => sshxSetmeta path srcSt isDir
  | symlink linkPath target srcSt => sshxSymlink linkPath target srcSt
  | link primaryPath linkPath => sshxLink primaryPath linkPath
  | putfile finalPath srcSt parentMode inplace _ => sshxPutfile finalPath srcSt parentMode inplace
  | .open fileId finalPath mode parentMode expectedSize sparse inplace =>
    sshxFileBegin fileId finalPath mode parentMode expectedSize sparse inplace
  | write fileId offset _ => sshxFileWrite fileId offset
  | ftruncate fileId size => sshxFileFtruncate fileId size
  | commit fileId srcSt => sshxFileCommit fileId srcSt
  | abort fileId => sshxFileAbort fileId
  | statBulk base names => sshxStatBulk base names
  | verifyPath path srcSt digests isDir checkMetadata preserveTime sequential =>
    sshxVerifyBatch path srcSt digests isDir checkMetadata preserveTime sequential
  | barrier flush => barrierRequest flush
  | statBulkResp entries => statBulkReply entries
  | status st errCount first totals => barrierReply st errCount first totals

/-- What follows the buffer in the same frame. -/
def data : Message → Bytes
  | putfile _ _ _ _ data => data
  | write _ _ data => data
  | _ => []
end Message

def signedTime (t : Int64 × Int64) : ℤ × ℤ := (t.1.toInt, t.2.toInt)

/-- The metadata of a file as it arrives, with the mode masked. -/
def sentMeta (s : Stat) : Meta :=
  ⟨s.uid, s.gid, permissions s.mode, signedTime s.atime, signedTime s.mtime⟩

def sentSample (s : Digest) : Sample := ⟨s.offset.toInt, s.length, s.flags, s.digest⟩

def sentEntry (s : Entry) : Seen := ⟨s.mode, s.size.toInt, signedTime s.mtime⟩

/-- The values a receiver should see. -/
def Message.fields : Message → Fields
  | mkdir path mode => .mkdir path mode
  | setmeta path srcSt isDir => .setmeta path (sentMeta srcSt) isDir
  | symlink linkPath target srcSt =>
    .symlink ⟨target, linkPath, srcSt.uid, srcSt.gid, signedTime srcSt.atime,
      signedTime srcSt.mtime⟩
  | link primaryPath linkPath => .link primaryPath linkPath
  | putfile finalPath srcSt parentMode inplace _ =>
    .putfile (sentMeta srcSt) (if inplace then openInplace else 0) (permissions parentMode)
      finalPath
  | .open fileId finalPath mode parentMode expectedSize sparse inplace =>
    .open ⟨fileId, permissions mode, expectedSize.toInt,
      (if sparse then openSparse else 0) ||| (if inplace then openInplace else 0),
      permissions parentMode, finalPath⟩
  | write fileId offset _ => .write fileId offset.toInt
  | ftruncate fileId size => .ftruncate fileId size.toInt
  | commit fileId srcSt => .commit fileId (sentMeta srcSt)
  | abort fileId => .abort fileId
  | statBulk base names => .statBulk base names
  | verifyPath path srcSt digests isDir checkMetadata preserveTime sequential =>
    .verifyPath path (sentMeta srcSt) srcSt.size.toInt
      (verifyFlags isDir checkMetadata preserveTime sequential) (digests.map sentSample)
  | barrier flush => .barrier (if flush then 1 else 0)
  | statBulkResp entries => .statBulkResp (entries.map (Option.map sentEntry))
  | status st errCount first totals => .status st errCount first totals

/-- A path or name: no zero byte, shorter than `PATH_MAX`. -/
def Name (s : Bytes) : Prop := 0 ∉ s ∧ s.length < pathMax

instance (s : Bytes) : Decidable (Name s) := inferInstanceAs (Decidable (_ ∧ _))

/-- Strings are names, and lists are no longer than their sender makes them: 512
names, 256 samples, and the million entries that a server answers. -/
def Message.Valid : Message → Prop
  | mkdir path _ => Name path
  | setmeta path _ _ => Name path
  | symlink linkPath target _ => Name linkPath ∧ Name target
  | link primaryPath linkPath => Name primaryPath ∧ Name linkPath
  | putfile finalPath _ _ _ _ => Name finalPath
  | .open _ finalPath _ _ _ _ _ => Name finalPath
  | statBulk base names => Name base ∧ (∀ name ∈ names, Name name) ∧ names.length ≤ 512
  | verifyPath path _ digests _ _ _ _ => Name path ∧ digests.length ≤ Server.verifyBatchMax
  | statBulkResp entries => entries.length ≤ 1000000
  | status _ _ first _ => Name first
  | _ => True

def strBlocks (s : Bytes) : List Bytes := [le32 (UInt32.ofNat s.length), s]

def timeBlocks (s : Stat) : List Bytes :=
  [le64 s.atime.1.toUInt64, le64 s.atime.2.toUInt64, le64 s.mtime.1.toUInt64,
    le64 s.mtime.2.toUInt64]

def metaBlocks (s : Stat) : List Bytes :=
  [le32 s.uid, le32 s.gid, le32 (permissions s.mode)] ++ timeBlocks s

def digestBlocks (s : Digest) : List Bytes :=
  [le64 s.offset.toUInt64, le32 s.length, [s.flags], s.digest]

def entryBlocks (entry : Option Entry) : List Bytes :=
  let s := entry.getD ⟨0, 0, (0, 0)⟩
  [[if entry.isSome then 1 else 0], le32 s.mode, le64 s.size.toUInt64, le64 s.mtime.1.toUInt64,
    le64 s.mtime.2.toUInt64]

def totalBlocks (t : Totals) : List Bytes :=
  [le64 t.metadata, le64 t.data, le64 t.zero, le64 t.io, le64 t.malformed, le64 t.unpreserved,
    le64 t.drainBytes, le64 t.drainNs]

def Message.blocks : Message → List Bytes
  | mkdir path mode => strBlocks path ++ [le32 mode]
  | setmeta path srcSt isDir => strBlocks path ++ (metaBlocks srcSt ++ [[if isDir then 1 else 0]])
  | symlink linkPath target srcSt =>
    strBlocks target ++ (strBlocks linkPath ++ ([le32 srcSt.uid, le32 srcSt.gid] ++
      timeBlocks srcSt))
  | link primaryPath linkPath => strBlocks primaryPath ++ strBlocks linkPath
  | putfile finalPath srcSt parentMode inplace _ =>
    [le32 (permissions srcSt.mode), le32 srcSt.uid, le32 srcSt.gid] ++ (timeBlocks srcSt ++
      ([le32 (if inplace then openInplace else 0), le32 (permissions parentMode)] ++
        strBlocks finalPath))
  | .open fileId finalPath mode parentMode expectedSize sparse inplace =>
    [le64 fileId, le32 (permissions mode), le64 expectedSize.toUInt64,
      le32 ((if sparse then openSparse else 0) ||| (if inplace then openInplace else 0)),
      le32 (permissions parentMode)] ++ strBlocks finalPath
  | write fileId offset _ => [le64 fileId, le64 offset.toUInt64]
  | ftruncate fileId size => [le64 fileId, le64 size.toUInt64]
  | commit fileId srcSt => [le64 fileId] ++ metaBlocks srcSt
  | abort fileId => [le64 fileId]
  | statBulk base names =>
    strBlocks base ++ ([le32 (UInt32.ofNat names.length)] ++ (names.map strBlocks).flatten)
  | verifyPath path srcSt digests isDir checkMetadata preserveTime sequential =>
    strBlocks path ++ (metaBlocks srcSt ++ ([le64 srcSt.size.toUInt64,
      [verifyFlags isDir checkMetadata preserveTime sequential],
      le32 (UInt32.ofNat digests.length)] ++ (digests.map digestBlocks).flatten))
  | barrier flush => [[if flush then 1 else 0]]
  | statBulkResp entries =>
    [le32 (UInt32.ofNat entries.length)] ++ (entries.map entryBlocks).flatten
  | status st errCount first totals =>
    [le32 st, le32 errCount] ++ (strBlocks first ++ totalBlocks totals)

/-- Items written one after the other. -/
theorem foldl_eq_pencBlocks {γ : Type} {put : Penc → γ → Penc} (enc : γ → List Bytes)
    (h : ∀ e x, put e x = pencBlocks e (enc x)) (items : List γ) (e : Penc) :
    items.foldl put e = pencBlocks e (items.map enc).flatten := by
  induction items generalizing e with
  | nil => rfl
  | cons x items ih =>
    rw [List.foldl_cons, ih, h, List.map_cons, List.flatten_cons, pencBlocks_append]

theorem pencU8_eq_blocks (e : Penc) (v : UInt8) : pencU8 e v = pencBlocks e [[v]] := rfl

theorem pencU32_eq_blocks (e : Penc) (v : UInt32) : pencU32 e v = pencBlocks e [le32 v] := rfl

theorem pencU64_eq_blocks (e : Penc) (v : UInt64) : pencU64 e v = pencBlocks e [le64 v] := rfl

theorem pencBytes_eq_blocks (e : Penc) (bs : Bytes) : pencBytes e bs = pencBlocks e [bs] := rfl

theorem pencI64_eq_blocks (e : Penc) (v : Int64) :
    pencI64 e v = pencBlocks e [le64 v.toUInt64] := rfl

theorem pencTimes_eq_blocks (e : Penc) (s : Stat) : pencTimes e s = pencBlocks e (timeBlocks s) := by
  simp only [pencTimes, pencI64_eq_blocks, ← pencBlocks_append]
  rfl

theorem encodeMeta_eq_blocks (e : Penc) (s : Stat) : encodeMeta e s = pencBlocks e (metaBlocks s) := by
  simp only [encodeMeta, pencU32_eq_blocks, pencTimes_eq_blocks, ← pencBlocks_append]
  rfl

theorem pencDigest_eq_blocks (e : Penc) (s : Digest) :
    pencDigest e s = pencBlocks e (digestBlocks s) := by
  simp only [pencDigest, pencI64_eq_blocks, pencU32_eq_blocks, pencU8_eq_blocks,
    pencBytes_eq_blocks, ← pencBlocks_append]
  rfl

theorem pencEntry_eq_blocks (e : Penc) (entry : Option Entry) :
    pencEntry e entry = pencBlocks e (entryBlocks entry) := by
  simp only [pencEntry, pencI64_eq_blocks, pencU32_eq_blocks, pencU8_eq_blocks, ← pencBlocks_append]
  rfl

/-- The size of the sender's buffer. -/
def Message.capacity : Message → ℕ
  | mkdir .. => pathMax + 16
  | setmeta .. => pathMax + 64
  | symlink .. => 2 * pathMax + 64
  | link .. => 2 * pathMax + 16
  | putfile .. => pathMax + 64
  | .open .. => pathMax + 32
  | write .. => 16
  | ftruncate .. => 16
  | commit .. => 64
  | abort .. => 16
  | statBulk _ names => pathMax + 16 + (names.map fun name => name.length + 4).sum
  | verifyPath path _ digests _ _ _ _ => path.length + 128 + digests.length * (8 + 4 + 1 + 32)
  | barrier .. => 1
  | statBulkResp entries => 8 + entries.length * 40
  | status .. => pathMax + 96

/-- The encoders write the blocks into a buffer of that size. -/
theorem Message.encode_eq (m : Message) :
    m.encode = pencBlocks (pencInit m.capacity) m.blocks := by
  cases m <;>
    simp only [encode, sshxMkdir, sshxSetmeta, sshxSymlink, sshxLink, sshxPutfile, sshxFileBegin,
      sshxFileWrite, sshxFileFtruncate, sshxFileCommit, sshxFileAbort, sshxStatBulk,
      sshxVerifyBatch, barrierRequest, statBulkReply, barrierReply,
      foldl_eq_pencBlocks strBlocks pencStr_eq_blocks,
      foldl_eq_pencBlocks digestBlocks pencDigest_eq_blocks,
      foldl_eq_pencBlocks entryBlocks pencEntry_eq_blocks, pencStr_eq_blocks, encodeMeta_eq_blocks,
      pencTimes_eq_blocks, pencI64_eq_blocks, pencU64_eq_blocks, pencU32_eq_blocks,
      pencU8_eq_blocks, ← pencBlocks_append, blocks, strBlocks, totalBlocks, capacity,
      List.append_assoc, List.cons_append, List.nil_append]

theorem length_strBlocks (s : Bytes) : (strBlocks s).flatten.length = s.length + 4 := by
  simp [strBlocks]
  omega

theorem length_digestBlocks (s : Digest) : (digestBlocks s).flatten.length = 45 := by
  simp [digestBlocks, s.size]

theorem length_entryBlocks (entry : Option Entry) : (entryBlocks entry).flatten.length = 29 := by
  simp [entryBlocks]

/-- The length of a list of items. -/
theorem length_flatten_map {γ : Type} {enc : γ → List Bytes} {size : γ → ℕ}
    (h : ∀ x, (enc x).flatten.length = size x) (items : List γ) :
    (items.map enc).flatten.flatten.length = (items.map size).sum := by
  induction items with
  | nil => rfl
  | cons x items ih =>
    simp only [List.map_cons, List.flatten_cons, List.flatten_append, List.length_append, h, ih,
      List.sum_cons]

/-- A valid message fits its buffer. -/
theorem Message.length_blocks_le {m : Message} (h : m.Valid) :
    m.blocks.flatten.length ≤ m.capacity := by
  cases m with
  | statBulk base names =>
    have hbase : base.length < pathMax := h.1.2
    simp only [blocks, capacity, List.flatten_append, List.length_append, length_strBlocks,
      length_flatten_map length_strBlocks, List.flatten_singleton, length_le32]
    omega
  | verifyPath path srcSt digests =>
    simp only [blocks, capacity, List.flatten_append, List.length_append, length_strBlocks,
      length_flatten_map length_digestBlocks, List.map_const', List.sum_replicate_nat, metaBlocks,
      timeBlocks, List.flatten_cons, List.flatten_nil, length_le32, length_le64, List.length_nil,
      List.length_cons]
    omega
  | statBulkResp entries =>
    simp only [blocks, capacity, List.flatten_append, List.length_append,
      length_flatten_map length_entryBlocks, List.map_const', List.sum_replicate_nat,
      List.flatten_singleton, length_le32]
    omega
  | _ =>
    simp only [Valid, Name] at h
    simp only [blocks, capacity, strBlocks, metaBlocks, timeBlocks, totalBlocks,
      List.flatten_append, List.flatten_cons, List.flatten_nil, List.length_append,
      List.length_cons, List.length_nil, length_le32, length_le64]
    omega

theorem signed64_toUInt64 (v : Int64) : signed64 v.toUInt64 = v.toInt := by
  have hnat : v.toUInt64.toNat = v.toBitVec.toNat := rfl
  have hint : v.toInt = v.toBitVec.toInt := rfl
  rw [signed64, hnat, hint, BitVec.toInt_eq_toNat_cond]
  split <;> split <;> simp at * <;> omega

theorem decodes_i64 (v : Int64) : Decodes i64 [le64 v.toUInt64] v.toInt := by
  rw [← signed64_toUInt64]
  exact .last (.u64 _) rfl

theorem decodes_str {s : Bytes} (h : Name s) : Decodes (Decoder.str pathMax) (strBlocks s) s :=
  .str h.1 h.2 (Nat.lt_trans h.2 (by decide))

theorem decodes_times (s : Stat) :
    Decodes times (timeBlocks s) (signedTime s.atime, signedTime s.mtime) := by
  apply Decodes.field (decodes_i64 _)
  apply Decodes.field (decodes_i64 _)
  apply Decodes.field (decodes_i64 _)
  exact .last (decodes_i64 _) rfl

theorem decodes_attributes (s : Stat) : Decodes attributes (metaBlocks s) (sentMeta s) := by
  apply Decodes.field (.u32 _)
  apply Decodes.field (.u32 _)
  apply Decodes.field (.u32 _)
  exact .last (decodes_times s) rfl

theorem decodes_sample (s : Digest) : Decodes sample (digestBlocks s) (sentSample s) := by
  have hdigest : Decodes (Decoder.bytes Server.verifyDigestSize) [s.digest] s.digest := by
    have h := Decodes.bytes s.digest
    rwa [s.size] at h
  apply Decodes.field (decodes_i64 _)
  apply Decodes.field (.u32 _)
  apply Decodes.field (.u8 _)
  exact .last hdigest rfl

theorem decodes_entry (e : Option Entry) :
    Decodes entry (entryBlocks e) (e.map sentEntry) := by
  apply Decodes.field (.u8 _)
  apply Decodes.field (.u32 _)
  apply Decodes.field (decodes_i64 _)
  apply Decodes.field (decodes_i64 _)
  apply Decodes.last (decodes_i64 _)
  cases e <;> rfl

/-- Every message but WRITE: the receiver's fields match the sender's. -/
theorem Message.decodes {m : Message} (h : m.Valid) (hw : m.kind ≠ .write) :
    Decodes m.kind.decoder m.blocks m.fields := by
  cases m with
  | mkdir path mode =>
    apply Decodes.bind (decodes_str h)
    exact .last (.u32 _) rfl
  | setmeta path srcSt isDir =>
    apply Decodes.bind (decodes_str h)
    apply Decodes.bind (decodes_attributes srcSt)
    apply Decodes.last (.u8 _)
    cases isDir <;> rfl
  | symlink linkPath target srcSt =>
    apply Decodes.bind (decodes_str h.2)
    apply Decodes.bind (decodes_str h.1)
    apply Decodes.field (.u32 _)
    apply Decodes.field (.u32 _)
    exact .last (decodes_times srcSt) rfl
  | link primaryPath linkPath =>
    apply Decodes.bind (decodes_str h.1)
    exact .last (decodes_str h.2) rfl
  | putfile finalPath srcSt parentMode inplace data =>
    apply Decodes.field (.u32 _)
    apply Decodes.field (.u32 _)
    apply Decodes.field (.u32 _)
    apply Decodes.bind (decodes_times srcSt)
    apply Decodes.field (.u32 _)
    apply Decodes.field (.u32 _)
    exact .last (decodes_str h) rfl
  | «open» fileId finalPath mode parentMode expectedSize sparse inplace =>
    apply Decodes.field (.u64 _)
    apply Decodes.field (.u32 _)
    apply Decodes.field (decodes_i64 _)
    apply Decodes.field (.u32 _)
    apply Decodes.field (.u32 _)
    exact .last (decodes_str h) rfl
  | write fileId offset data => exact absurd rfl hw
  | ftruncate fileId size =>
    apply Decodes.field (.u64 _)
    exact .last (decodes_i64 _) rfl
  | commit fileId srcSt =>
    apply Decodes.field (.u64 _)
    exact .last (decodes_attributes srcSt) rfl
  | abort fileId => exact .last (.u64 _) rfl
  | statBulk base names =>
    obtain ⟨hbase, hnames, hcount⟩ := h
    have hnat : (UInt32.ofNat names.length).toNat = names.length :=
      toNat_ofNat_of_lt (by omega)
    have hall : Decodes ((Decoder.str pathMax).times names.length) (names.map strBlocks).flatten
        (names.map id) :=
      .times fun name hn => decodes_str (hnames name hn)
    rw [List.map_id] at hall
    apply Decodes.bind (decodes_str hbase)
    apply Decodes.field (.u32 _)
    rw [hnat, if_neg (by omega)]
    exact .last hall rfl
  | verifyPath path srcSt digests isDir checkMetadata preserveTime sequential =>
    obtain ⟨hpath, hcount⟩ := h
    have hnat : (UInt32.ofNat digests.length).toNat = digests.length :=
      toNat_ofNat_of_lt (Nat.lt_of_le_of_lt hcount (by decide))
    have hall : Decodes (sample.times digests.length) (digests.map digestBlocks).flatten
        (digests.map sentSample) :=
      .times fun s _ => decodes_sample s
    apply Decodes.bind (decodes_str hpath)
    apply Decodes.bind (decodes_attributes srcSt)
    apply Decodes.field (decodes_i64 _)
    apply Decodes.field (.u8 _)
    apply Decodes.field (.u32 _)
    rw [hnat]
    exact .last hall rfl
  | barrier flush => exact .last (.u8 _) rfl
  | statBulkResp entries =>
    have hnat : (UInt32.ofNat entries.length).toNat = entries.length :=
      toNat_ofNat_of_lt (Nat.lt_of_le_of_lt h (by decide))
    have hall : Decodes (entry.times entries.length) (entries.map entryBlocks).flatten
        (entries.map (Option.map sentEntry)) :=
      .times fun e _ => decodes_entry e
    apply Decodes.field (.u32 _)
    rw [hnat, if_neg (by simp)]
    exact .last hall rfl
  | status st errCount first totals =>
    have hfirst : Decodes (Decoder.strOrEmpty pathMax) (strBlocks first) first :=
      .strOrEmpty h.1 h.2 (Nat.lt_trans h.2 (by decide))
    apply Decodes.field (.u32 _)
    apply Decodes.field (.u32 _)
    apply Decodes.bind hfirst
    apply Decodes.field (.u64 _)
    apply Decodes.field (.u64 _)
    apply Decodes.field (.u64 _)
    apply Decodes.field (.u64 _)
    apply Decodes.field (.u64 _)
    apply Decodes.field (.u64 _)
    apply Decodes.field (.u64 _)
    exact .last (.u64 _) rfl

/-- WRITE: the sixteen bytes are there, so the length test passes. -/
theorem write_whole (fileId : UInt64) (offset : Int64) (data : Bytes) :
    readWrite.run ⟨(Message.write fileId offset data).blocks.flatten ++ data, false⟩ =
      (some (.write fileId offset.toInt), ⟨data, false⟩) := by
  have hfields : Decodes (do
      let fid ← Decoder.u64
      let offset ← i64
      return Fields.write fid offset) [le64 fileId, le64 offset.toUInt64]
      (.write fileId offset.toInt) := by
    apply Decodes.field (.u64 _)
    exact .last (decodes_i64 _) rfl
  have hlen : ¬ ((Message.write fileId offset data).blocks.flatten ++ data).length < 16 := by
    simp [Message.blocks]
    omega
  simp only [readWrite, if_neg hlen]
  exact hfields.whole data

theorem Message.encode_of_valid {m : Message} (h : m.Valid) :
    m.encode = { pencInit m.capacity with buf := m.blocks.flatten } := by
  have hfits : (pencInit m.capacity).buf.length + m.blocks.flatten.length ≤
      (pencInit m.capacity).cap := by
    simpa [pencInit] using Message.length_blocks_le h
  rw [m.encode_eq, pencBlocks_of_fits hfits]
  rfl

/-- Sender and receiver agree. The buffer is large enough; the receiver gets the
values back, reports no error and leaves exactly the trailing data; a payload cut
anywhere in its fields sets the error flag; and the flag stays set. -/
theorem receiver_agrees_with_sender (m : Message) (h : m.Valid) :
    m.encode.overflow = false ∧
    m.kind.decoder.run (pdecInit (m.encode.buf ++ m.data)) = (some m.fields, ⟨m.data, false⟩) ∧
    (m.kind ≠ .write → ∀ p, p <+: m.encode.buf → p ≠ m.encode.buf →
      (m.kind.decoder.run (pdecInit p)).2.error = true) ∧
    ∀ d : Pdec, d.error = true → (m.kind.decoder.run d).2.error = true := by
  rw [Message.encode_of_valid h]
  refine ⟨rfl, ?_, fun hw p hp hne => (Message.decodes h hw).cut p hp hne,
    fun d hd => m.kind.decoder.sticky d hd⟩
  by_cases hw : m.kind = .write
  · cases m with
    | write fileId offset data => exact write_whole fileId offset data
    | _ => cases hw
  · exact (Message.decodes h hw).whole m.data

/-- A PUTFILE for the path `/a` with negative times. -/
theorem receiver_agrees_with_sender_putfile :
    readPutfile.run (pdecInit ((sshxPutfile [47, 97] ⟨0o100644, 5, 6, 3, (-1, 0), (7, 8)⟩ 0o40755
        true).buf ++ [1, 2, 3])) =
      (some (.putfile ⟨5, 6, 0o644, (-1, 0), (7, 8)⟩ 2 0o755 [47, 97]), ⟨[1, 2, 3], false⟩) :=
  (receiver_agrees_with_sender
    (.putfile [47, 97] ⟨0o100644, 5, 6, 3, (-1, 0), (7, 8)⟩ 0o40755 true [1, 2, 3])
    (show Name [47, 97] by decide)).2.1

/-- The value, when nothing was missing. -/
def result {α : Type} (m : Decoder α) (d : Pdec) : Option α :=
  if (m.run d).2.error then none else (m.run d).1

section Result
variable {α : Type}

theorem result_pure (a : α) (d : Pdec) : result (pure a) d = if d.error then none else some a := rfl

theorem result_u8 (f : UInt8 → Decoder α) (d : Pdec) :
    result (Decoder.u8 >>= f) d = result (f (pdecU8 d).1) (pdecU8 d).2 := rfl

theorem result_u32 (f : UInt32 → Decoder α) (d : Pdec) :
    result (Decoder.u32 >>= f) d = result (f (pdecU32 d).1) (pdecU32 d).2 := rfl

theorem result_u64 (f : UInt64 → Decoder α) (d : Pdec) :
    result (Decoder.u64 >>= f) d = result (f (pdecU64 d).1) (pdecU64 d).2 := rfl

theorem result_i64 (f : ℤ → Decoder α) (d : Pdec) :
    result (i64 >>= f) d = result (f (pdecI64 d).1) (pdecI64 d).2 := rfl

theorem result_times (f : (ℤ × ℤ) × (ℤ × ℤ) → Decoder α) (d : Pdec) :
    result (times >>= f) d =
      result (f ((Server.pdecTimes d).1, (Server.pdecTimes d).2.1)) (Server.pdecTimes d).2.2 := rfl

theorem result_attributes (f : Meta → Decoder α) (d : Pdec) :
    result (attributes >>= f) d =
      let uid := pdecU32 d
      let gid := pdecU32 uid.2
      let mode := pdecU32 gid.2
      let t := Server.pdecTimes mode.2
      result (f ⟨uid.1, gid.1, mode.1, t.1, t.2.1⟩) t.2.2 := by
  exact rfl

theorem result_str (f : Bytes → Decoder α) (d : Pdec) (n : ℕ) :
    result (Decoder.str n >>= f) d = (pdecStr d n).1.bind fun s => result (f s) (pdecStr d n).2 := by
  rw [result, Decoder.run_bind]
  cases h : pdecStr d n with
  | mk s d' =>
    have hrun : (Decoder.str n).run d = (s, d') := h
    simp only [hrun]
    cases s with
    | none => simp
    | some s => rfl

end Result

-- The handlers' own decoders read the same fields.
theorem readMkdir_result (payload : Bytes) :
    result readMkdir (pdecInit payload) =
      (Server.decodeMkdir payload).map fun r => .mkdir r.1 r.2 := by
  rw [readMkdir, result_str]
  unfold Server.decodeMkdir
  split
  · next h =>
    rw [h]
    rfl
  · next h =>
    rw [h, Option.bind_some, result_u32, result_pure]
    dsimp only
    split <;> rfl

theorem readSetmeta_result (payload : Bytes) :
    result readSetmeta (pdecInit payload) =
      (Server.decodeSetmeta payload).map fun r => .setmeta r.1 r.2.1 r.2.2 := by
  rw [readSetmeta, result_str]
  unfold Server.decodeSetmeta
  split
  · next h =>
    rw [h]
    rfl
  · next h =>
    rw [h, Option.bind_some, result_attributes]
    dsimp only
    rw [result_u8, result_pure]
    split <;> rfl

theorem readSymlink_result (payload : Bytes) :
    result readSymlink (pdecInit payload) = (Server.decodeSymlink payload).map .symlink := by
  rw [readSymlink, result_str]
  unfold Server.decodeSymlink
  split
  · next h =>
    rw [h]
    rfl
  · next h =>
    rw [h, Option.bind_some, result_str]
    dsimp only
    split
    · next h =>
      rw [h]
      rfl
    · next h =>
      rw [h, Option.bind_some, result_u32, result_u32, result_times, result_pure]
      dsimp only
      split <;> rfl

theorem readLink_result (payload : Bytes) :
    result readLink (pdecInit payload) =
      (Server.decodeLink payload).map fun r => .link r.1 r.2 := by
  rw [readLink, result_str]
  unfold Server.decodeLink
  split
  · next h =>
    rw [h]
    rfl
  · next h =>
    rw [h, Option.bind_some, result_str]
    dsimp only
    split
    · next h =>
      rw [h]
      rfl
    · next h =>
      rw [h, Option.bind_some, result_pure]
      split <;> rfl

theorem readPutfile_result (payload : Bytes) :
    result readPutfile (pdecInit payload) =
      (Server.decodePutfile payload).map fun q => .putfile q.attr q.flags q.parentMode q.path := by
  rw [readPutfile, result_u32, result_u32, result_u32, result_times, result_u32, result_u32,
    result_str]
  unfold Server.decodePutfile
  dsimp only
  split
  · next h =>
    rw [h]
    rfl
  · next h =>
    rw [h, Option.bind_some, result_pure]
    split <;> rfl

theorem readOpen_result (payload : Bytes) :
    result readOpen (pdecInit payload) = (Server.decodeOpen payload).map .open := by
  rw [readOpen, result_u64, result_u32, result_i64, result_u32, result_u32, result_str]
  unfold Server.decodeOpen
  dsimp only
  split
  · next h =>
    rw [h]
    rfl
  · next h =>
    rw [h, Option.bind_some, result_pure]
    split <;> rfl

/-- The handler of BARRIER builds the reply described here. -/
theorem handleBarrier_eq (id : UInt64) (payload : Bytes) :
    Server.handleBarrier id payload = (do
      if (pdecU8 (pdecInit payload)).1 ≠ 0 then Server.Sys.sync
      let r ← Server.Sys.report
      return ⟨.status, id, (barrierReply (Server.statusCode (r.errors.head?.map (·.2)))
        (UInt32.ofNat (min r.errors.length 0xFFFFFFFF)) ((r.errors.head?.map (·.1)).getD [])
        ⟨UInt64.ofNat (r.verify .metadata), UInt64.ofNat (r.verify .data),
          UInt64.ofNat (r.verify .zero), UInt64.ofNat (r.verify .io),
          UInt64.ofNat (r.verify .malformed), UInt64.ofNat r.unpreserved, r.drainBytes,
          r.drainNs⟩).buf⟩) := by
  unfold Server.handleBarrier
  rfl

end Ecopy.Remote.Agreement
