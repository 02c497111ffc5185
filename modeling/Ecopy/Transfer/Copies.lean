import Ecopy.Lib.Traces
import Ecopy.Workers.SmallCopy

/-!
# What a copy reads and writes

The loops that move the bytes of one file, call by call: a read may return less than it
was asked for, or nothing although the file should go on, and a write may take a part.
Nothing is assumed about the source, which may change between two reads. A byte of the
destination is therefore represented by the offset at which it was read.

Opening, metadata, closing and renaming are steps that may fail. Sending a frame and
receiving a reply are steps too; the frames of one file are handled in the order in which
they are sent, so client and server appear as one program. The loops have a fuel, and one
that runs out of it has not succeeded. Whether a transfer bypasses the page cache matters
only where the server meets `EINVAL`.
-/
namespace Ecopy.Transfer
open Lib.Calls
open Workers.SmallCopy (Tuning RangeResult alignment)

/-- The errors that the code tells apart. -/
inductive Fault where
  | enxio
  | eintr
  | einval
  | eopnotsupp
  | enosys
  | exdev
  | eperm
  | other
deriving DecidableEq, Repr

/-- A file that is written. A byte is the offset at which it was read from the source;
the others were never written. -/
structure Dest where
  size : ℕ
  byte : ℕ → Option ℕ

namespace Dest

def empty : Dest := ⟨0, fun _ => none⟩

/-- Bytes that were read from `src` on are written from `pos` on. -/
def put (d : Dest) (pos src len : ℕ) : Dest where
  size := if len = 0 then d.size else max d.size (pos + len)
  byte := fun x => if pos ≤ x ∧ x < pos + len then some (src + (x - pos)) else d.byte x

/-- `ftruncate` -/
def resize (d : Dest) (size : ℕ) : Dest := ⟨size, fun x => if x < size then d.byte x else none⟩

/-- `fallocate` -/
def extend (d : Dest) (size : ℕ) : Dest := ⟨max d.size size, d.byte⟩

/-- All bytes of a range are written where they were read. -/
def fill (d : Dest) (start stop : ℕ) : Dest := d.put start start (stop - start)

end Dest

/-- `size` bytes, and those that are data were read where they stand. -/
def Whole (size : ℕ) (data : ℕ → Prop) (d : Dest) : Prop :=
  d.size = size ∧ ∀ x < size, data x → d.byte x = some x

/-- `inAt` and `outAt` are the offsets of the two descriptors, `failed` is the flag of the
server's open file, and `stop` is the request to shut down. -/
structure World where
  dest : Dest
  inAt : ℕ
  outAt : ℕ
  failed : Bool
  stop : Bool

def World.start : World := ⟨.empty, 0, 0, false, false⟩

/-- Written bytes carry the offset at which they were read. -/
inductive Call where
  | read (len : ℕ)
  | write (src len : ℕ)
  | pread (pos len : ℕ)
  | pwrite (pos src len : ℕ)
  | copyFileRange (pos len : ℕ)
  | seekData (pos : ℕ)
  | seekHole (pos : ℕ)
  | ftruncate (size : ℕ)
  | fallocate (size : ℕ)
  | step
  | fail
  | failed
  | stopped
deriving DecidableEq, Repr

abbrev Reply (_ : Call) : Type := Except Fault ℕ

abbrev Event := Prog.Event Reply

abbrev Action := Prog Reply

/-- The file system does not know `SEEK_DATA`. -/
def noSeek (e : Fault) : Bool := e == .einval || e == .eopnotsupp

section Answers
variable (w : World) (x : Except Fault ℕ)

/-- A transfer of at most `len` bytes. -/
def moves (len : ℕ) (next : ℕ → World) : Option (Except Fault ℕ × World) :=
  match x with
  | .error e => some (.error e, w)
  | .ok n => if n ≤ len then some (.ok n, next n) else none

/-- A step that is done or not. -/
def does (next : World) : Option (Except Fault ℕ × World) :=
  match x with
  | .error e => some (.error e, w)
  | .ok n => some (.ok n, next)

/-- A seek never goes back. A file system knows both seeks or none. -/
def seeks (known : Bool) (pos : ℕ) : Option (Except Fault ℕ × World) :=
  match x with
  | .error e => if noSeek e = known then none else some (.error e, w)
  | .ok n => if known = true ∧ pos ≤ n then some (.ok n, w) else none

/-- A flag that is seen set stays set. -/
def looks (flag : Bool) (next : World) : Option (Except Fault ℕ × World) :=
  if flag then some (.ok 1, w)
  else if x.isOk then some (.ok 0, w)
  else some (.ok 1, next)

end Answers

/-- Every answer the interface allows, as the environment chooses. `known` tells whether the
file system of the source knows `SEEK_DATA`. -/
def answer (known : Bool) (w : World) (x : Except Fault ℕ) :
    (c : Call) → Option (Reply c × World)
  | .read len => moves w x len fun n => { w with inAt := w.inAt + n }
  | .write src len => moves w x len fun n =>
    { w with dest := w.dest.put w.outAt src n, outAt := w.outAt + n }
  | .pread _ len => moves w x len fun _ => w
  | .pwrite pos src len => moves w x len fun n => { w with dest := w.dest.put pos src n }
  | .copyFileRange pos len => moves w x len fun n => { w with dest := w.dest.put pos pos n }
  | .seekData pos => seeks w x known pos
  | .seekHole pos => seeks w x known pos
  | .ftruncate size => does w x { w with dest := w.dest.resize size }
  | .fallocate size => does w x { w with dest := w.dest.extend size }
  | .step => does w x w
  | .fail => some (.ok 0, { w with failed := true })
  | .failed => some (.ok (if w.failed then 1 else 0), w)
  | .stopped => looks w x w.stop { w with stop := true }

def attempt : Action Bool := do return (← Prog.perform .step).isOk

/-- `g_shutdown_requested` -/
def stopped : Action Bool := do return (← Prog.perform .stopped).toOption == some 1

/-- `while (done < r)` around `pwrite`. -/
def pwriteAll : ℕ → (pos src len : ℕ) → Action Bool
  | 0, _, _, _ => return false
  | fuel + 1, pos, src, len => do
    if len = 0 then return true
    match ← Prog.perform (.pwrite pos src len) with
    | .error _ => return false
    | .ok n => pwriteAll fuel (pos + n) (src + n) (len - n)

/-- The loops that move a range block by block with `pread`. `more` is looked at before each
block, `asked` is what a read asks for, and `pass` hands the bytes on. -/
def copyBlocks (more : Action Bool) (asked : ℕ → ℕ) (pass : (pos len : ℕ) → Action Bool)
    (stop : ℕ) : ℕ → (pos : ℕ) → Action Bool
  | 0, _ => return false
  | fuel + 1, pos => do
    if stop ≤ pos then return true
    if !(← more) then return true
    match ← Prog.perform (.pread pos (asked pos)) with
    | .error _ => return false
    | .ok r =>
      if r = 0 then return true
      if !(← pass pos r) then return false
      copyBlocks more asked pass stop fuel (pos + r)

/-- Blocks of at most `cap` bytes that end with the range. -/
def upTo (stop cap pos : ℕ) : ℕ := min (stop - pos) cap

def writeBlock (fuel pos len : ℕ) : Action Bool := pwriteAll fuel pos pos len

def copyTailBufferedFds (fuel start stop : ℕ) : Action Bool :=
  copyBlocks (return true) (upTo stop alignment) (writeBlock fuel) stop fuel start

def copyByteRangeBuffered (cfg : Tuning) (fuel start stop : ℕ) : Action Bool :=
  copyBlocks (return true) (upTo stop cfg.chunkSize) (writeBlock fuel) stop fuel start

def copyFileRangeUnsupportedErrno (e : Fault) : Bool :=
  e == .enosys || e == .exdev || e == .einval || e == .eopnotsupp || e == .eperm

def copyFileRangeWithProgress : ℕ → (pos remaining : ℕ) → Action RangeResult
  | 0, _, _ => return .failed
  | fuel + 1, pos, remaining => do
    if remaining = 0 then return .copied
    match ← Prog.perform (.copyFileRange pos remaining) with
    | .error e => return if copyFileRangeUnsupportedErrno e then .unsupported else .failed
    | .ok n =>
      if n = 0 then return .failed
      copyFileRangeWithProgress fuel (pos + n) (remaining - n)

/-- `while (done < len)` around `write`. -/
def writeAll : ℕ → (src len : ℕ) → Action Bool
  | 0, _, _ => return false
  | fuel + 1, src, len => do
    if len = 0 then return true
    match ← Prog.perform (.write src len) with
    | .error _ => return false
    | .ok n => writeAll fuel (src + n) (len - n)

/-- The end of the bulk. -/
def bulkEnd (size : ℕ) : ℕ := size / alignment * alignment

/-- The loop of `copy_file_serial_small`. `offset` is where the next plain read begins; the
result is the position that was reached. -/
def copyLoop (cfg : Tuning) (size : ℕ) :
    ℕ → (copyEnd pos offset : ℕ) → (range : Bool) → Action (Option ℕ)
  | 0, _, _, _, _ => return none
  | fuel + 1, copyEnd, pos, offset, range => do
    if copyEnd ≤ pos then return some pos
    let len := min cfg.chunkSize (copyEnd - pos)
    if range then
      match ← copyFileRangeWithProgress fuel pos len with
      | .copied => copyLoop cfg size fuel copyEnd (pos + len) offset true
      | .failed => return none
      | .unsupported => copyLoop cfg size fuel (bulkEnd size) pos offset false
    else
      match ← Prog.perform (.read len) with
      | .error _ => return none
      | .ok r =>
        if r ≠ len then return none
        if !(← writeAll fuel offset len) then return none
        copyLoop cfg size fuel copyEnd (pos + len) (offset + len) false

/-- Both descriptors, the buffer and the metadata may fail; so may leaving direct writes,
and opening the files again for the tail of a direct copy. -/
def copyFileSerialSmall (cfg : Tuning) (size fuel : ℕ) : Action Bool := do
  if !(← attempt) then return false
  if !(← attempt) then return false
  let direct ← attempt
  if !(← attempt) then return false
  let range := !direct && cfg.copyFileRange
  let copyEnd := if range then size else bulkEnd size
  match ← copyLoop cfg size fuel copyEnd 0 0 range with
  | none => return false
  | some pos =>
    if !(← attempt) then return false
    if !(← copyTailBufferedFds fuel (if direct then bulkEnd size else pos) size) then return false
    if !(← attempt) then return false
    attempt

def copyDataExtentsBuffered (cfg : Tuning) (size range : ℕ) : ℕ → (pos : ℕ) → Action Bool
  | 0, _ => return false
  | fuel + 1, pos => do
    if size ≤ pos then return true
    match ← Prog.perform (.seekData pos) with
    | .error e =>
      if e = .enxio then return true
      else if noSeek e then copyByteRangeBuffered cfg range pos size
      else return false
    | .ok data =>
      if size ≤ data then return true
      match ← Prog.perform (.seekHole data) with
      | .error _ => return false
      | .ok hole =>
        if !(← copyByteRangeBuffered cfg range data (min hole size)) then return false
        copyDataExtentsBuffered cfg size range fuel (min hole size)

def copyFileSparse (cfg : Tuning) (size fuel : ℕ) : Action Bool := do
  if !(← attempt) then return false
  if !(← attempt) then return false
  if !(← attempt) then return false
  if !(← copyDataExtentsBuffered cfg size fuel fuel 0) then return false
  if !(← Prog.perform (.ftruncate size)).isOk then return false
  if !(← attempt) then return false
  attempt

/-- The loops of `handle_write`. A direct descriptor that refuses the first write of a frame
is written through the page cache. -/
def pwriteServer : ℕ → (direct : Bool) → (pos len done : ℕ) → Action Unit
  | 0, _, _, _, _ => do let _ ← Prog.perform .fail
  | fuel + 1, direct, pos, len, done => do
    if len ≤ done then return ()
    match ← Prog.perform (.pwrite (pos + done) (pos + done) (len - done)) with
    | .error e =>
      if e = .eintr then pwriteServer fuel direct pos len done
      else if e = .einval ∧ direct = true ∧ done = 0 then pwriteServer fuel false pos len 0
      else let _ ← Prog.perform .fail
    | .ok n =>
      if n = 0 then let _ ← Prog.perform .fail
      else pwriteServer fuel direct pos len (done + n)

/-- `handle_write`. Whether the descriptor is direct, the frame aligned and a buffer found is
one step. -/
def handleWrite (fuel pos len : ℕ) : Action Unit := do
  if (← Prog.perform .failed).toOption == some 1 then return ()
  let direct ← attempt
  pwriteServer fuel direct pos len 0

/-- `sshx_file_write` -/
def sendBlock (fuel pos len : ℕ) : Action Bool := do
  if !(← attempt) then return false
  handleWrite fuel pos len
  return true

/-- `handle_open`: the path, the parent directory and the open; then the preallocation. -/
def handleOpen (size : ℕ) (sparse : Bool) : Action Unit := do
  if !(← attempt) then
    let _ ← Prog.perform .fail
  else if sparse = false ∧ 0 < size then
    match ← Prog.perform (.fallocate size) with
    | .ok _ => return ()
    | .error e =>
      if e = .eopnotsupp ∨ e = .enosys then
        let _ ← Prog.perform (.ftruncate size)

def handleFtruncate (size : ℕ) : Action Unit := do
  if (← Prog.perform .failed).toOption == some 1 then return ()
  if !(← Prog.perform (.ftruncate size)).isOk then
    let _ ← Prog.perform .fail

/-- `sshx_file_commit` and `handle_commit`. -/
def fileCommit : Action Bool := do
  if !(← attempt) then return false
  if (← Prog.perform .failed).toOption == some 1 then return false
  if !(← attempt) then return false
  attempt

/-- A file system that does not know `SEEK_DATA` has data everywhere. -/
def streamSparse (cfg : Tuning) (size range : ℕ) : ℕ → (pos : ℕ) → Action Bool
  | 0, _ => return false
  | fuel + 1, pos => do
    if size ≤ pos then return true
    if ← stopped then return true
    let data ← match ← Prog.perform (.seekData pos) with
      | .ok data => pure (some data)
      | .error e =>
        if e = .enxio then return true
        else if noSeek e then pure (some pos)
        else pure none
    match data with
    | none => return false
    | some data =>
      if size ≤ data then return true
      match ← Prog.perform (.seekHole data) with
      | .error _ => return false
      | .ok hole =>
        if !(← copyBlocks (return true) (upTo (min hole size) cfg.chunkSize)
            (sendBlock range) (min hole size) range data) then return false
        streamSparse cfg size range fuel (min hole size)

/-- The streaming loops of `copy_file_remote` and the request that ends them. A read of a dense
file always asks for a whole chunk. -/
def streamContent (cfg : Tuning) (size fuel : ℕ) (sparse : Bool) : Action Bool := do
  let moved ← if sparse then streamSparse cfg size fuel fuel 0
    else copyBlocks (do return !(← stopped)) (fun _ => cfg.chunkSize) (sendBlock fuel) size fuel 0
  if !moved then return false
  if ← stopped then return false
  if sparse then
    if !(← attempt) then return false
    handleFtruncate size
  return true

/-- `copy_file_remote` for a file that is streamed. -/
def copyFileRemote (cfg : Tuning) (size fuel : ℕ) (sparse : Bool) : Action Bool := do
  if !(← attempt) then return false
  if !(← attempt) then return false
  handleOpen size sparse
  if !(← attempt) then return false
  if !(← streamContent cfg size fuel sparse) then return false
  fileCommit

end Ecopy.Transfer
