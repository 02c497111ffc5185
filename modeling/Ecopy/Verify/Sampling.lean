import Ecopy.Lib.Bisect
import Ecopy.Lib.Doubles
import Ecopy.Protocol.Wire

/-!
# Which blocks of a file are verified

`extent_map_build` lists the data extents of a sparse source, `sample_domain_init`
numbers the blocks that overlap an extent, or all blocks when there is no map, and
`for_each_sample` chooses among these numbers: all of them in order when the target is
the whole domain, else both ends and numbers out of a permutation of a power of two.

An extent may begin or end anywhere, so two neighbours can share a block, which then
has two numbers. Unsigned sums are taken modulo `2 ^ 64`. `qsort` is a stable sort here,
which decides between samples of one offset only.
-/
namespace Ecopy.Verify.Sampling
open Lib.Bisect Lib.Doubles
open Protocol (Bytes)

/-- `VERIFY_BLOCK_SIZE` -/
def blockSize : ℕ := 4096

/-- `VERIFY_BATCH_MAX` -/
def batchMax : ℕ := 256

def wrap (n : ℕ) : ℕ := n % 2 ^ 64

/-- Which requests for memory succeed, in bytes; none beyond the address space of a
process. -/
structure Allocator where
  grants : ℕ → Bool
  bounded : ∀ n, grants n = true → n ≤ 2 ^ 47

inductive SeekError where
  | enxio
  | einval
  | enotsup
  | eopnotsupp
  | other
deriving DecidableEq, Repr

def SeekError.unsupported : SeekError → Bool
  | .einval | .enotsup | .eopnotsupp => true
  | _ => false

/-- The answers of `lseek` with `SEEK_DATA` and `SEEK_HOLE` on one open file. -/
structure Seeker where
  data : ℕ → Except SeekError ℕ
  hole : ℕ → Except SeekError ℕ

/-- What `lseek` promises for a file of this size: data is found at or after the
position and inside the file, and the hole after it begins later. -/
structure Seeker.Consistent (k : Seeker) (size : ℕ) : Prop where
  data_le : ∀ pos d, k.data pos = .ok d → pos ≤ d ∧ d < size
  hole_lt : ∀ pos d h, k.data pos = .ok d → k.hole d = .ok h → d < h

structure Extent where
  start : ℕ
  stop : ℕ
deriving DecidableEq, Repr, Inhabited

structure ExtentMap where
  extents : List Extent
  supported : Bool
deriving DecidableEq, Repr

def ExtentMap.empty : ExtentMap := ⟨[], false⟩

def enlarged (cap : ℕ) : ℕ := if cap = 0 then 16 else cap * 2

/-- Room for one more extent of 16 bytes: the capacity afterwards. -/
def grow (alloc : Allocator) (count cap : ℕ) : Option ℕ :=
  if count = cap then
    if alloc.grants (enlarged cap * 16) then some (enlarged cap) else none
  else some cap

/-- A hole found beyond the recorded size is taken to begin there. -/
def clip (size hole : ℕ) : ℕ := if size < hole then size else hole

/-- The position after an extent that ends at `hole`. -/
def onward (pos hole : ℕ) : ℕ := if pos < hole then hole else pos + 1

theorem lt_onward (pos hole : ℕ) : pos < onward pos hole := by
  unfold onward
  split <;> omega

/-- The loop of `extent_map_build`. The first component is the return code; a failed
build leaves the extents found so far. -/
def extentMapLoop (alloc : Allocator) (k : Seeker) (size pos cap : ℕ) (found : List Extent) :
    Bool × ExtentMap :=
  if pos < size then
    match k.data pos with
    | .error .enxio => (true, ⟨found, true⟩)
    | .error e => if e.unsupported then (true, .empty) else (false, ⟨found, true⟩)
    | .ok data =>
      match k.hole data with
      | .error e => if e.unsupported then (true, .empty) else (false, ⟨found, true⟩)
      | .ok hole =>
        match grow alloc found.length cap with
        | none => (false, ⟨found, true⟩)
        | some cap' =>
          extentMapLoop alloc k size (onward pos (clip size hole)) cap'
            (found ++ [⟨data, clip size hole⟩])
  else (true, ⟨found, true⟩)
termination_by size - pos
decreasing_by
  have := lt_onward pos (clip size hole)
  omega

def extentMapBuild (alloc : Allocator) (k : Seeker) (size : ℕ) : Bool × ExtentMap :=
  extentMapLoop alloc k size 0 0 []

def extentMapRangeIsHole (m : ExtentMap) (offset length : ℕ) : Bool :=
  if m.supported then
    let lo := firstFailing (fun i => decide ((m.extents[i]!).stop ≤ offset)) 0 m.extents.length
    lo == m.extents.length || decide (offset + length ≤ (m.extents[lo]!).start)
  else false

/-- The first block of an extent. -/
def Extent.first (e : Extent) : ℕ := e.start / blockSize

/-- The block after the last one of an extent. -/
def Extent.last (e : Extent) : ℕ := (e.stop + blockSize - 1) / blockSize

def Extent.blocks (e : Extent) : ℕ := wrap (e.last + 2 ^ 64 - e.first)

def Extent.bytes (e : Extent) : ℕ := wrap (e.stop + 2 ^ 64 - e.start)

structure Domain where
  map : Option (List Extent)
  size : ℕ
  cum : List ℕ
  dataN : ℕ
  dataBytes : ℕ
deriving DecidableEq, Repr

/-- One round of the loop of `sample_domain_init`. -/
def Domain.add (d : Domain) (e : Extent) : Domain :=
  { d with cum := d.cum ++ [d.dataN], dataN := wrap (d.dataN + e.blocks),
           dataBytes := wrap (d.dataBytes + e.bytes) }

def sampleDomainInit (alloc : Allocator) (m : ExtentMap) (size : ℕ) : Option Domain :=
  if m.supported then
    if m.extents.isEmpty || alloc.grants (m.extents.length * 8) then
      some (m.extents.foldl Domain.add ⟨some m.extents, size, [], 0, 0⟩)
    else none
  else some ⟨none, size, [], (size + blockSize - 1) / blockSize, size⟩

/-- The block that has number `ordinal`. -/
def Domain.block (d : Domain) (ordinal : ℕ) : ℕ :=
  match d.map with
  | none => ordinal
  | some extents =>
    let lo := lastHolding (fun i => decide (d.cum[i]! ≤ ordinal)) 0 extents.length
    (extents[lo]!).first + (ordinal - d.cum[lo]!)

structure Sample where
  index : ℕ
  offset : ℕ
  length : ℕ
deriving DecidableEq, Repr

/-- `sample_domain_offset`; the length is unsigned. -/
def sampleDomainOffset (d : Domain) (ordinal : ℕ) : Sample :=
  let o := d.block ordinal * blockSize
  let l := wrap (d.size + 2 ^ 64 - o)
  ⟨ordinal, o, if l > blockSize then blockSize else l⟩

def mix64 (x : UInt64) : UInt64 :=
  let x := x ^^^ (x >>> 30)
  let x := x * 0xbf58476d1ce4e5b9
  let x := x ^^^ (x >>> 27)
  let x := x * 0x94d049bb133111eb
  x ^^^ (x >>> 31)

def pathHash (s : Bytes) : UInt64 :=
  s.foldl (fun h b => (h ^^^ b.toUInt64) * 1099511628211) 1469598103934665603

/-- How many of `n` blocks are asked for. -/
def sampleTarget (percent : ℚ) (n : ℕ) : ℕ :=
  let share := double (double (double (percent * double n) + double (99999999 / 1000000)) / 100)
  let target := ⌊share⌋.toNat
  let least := if n = 1 then 1 else 2
  let target := if target < least then least else target
  if target > n then n else target

/-- The power of two that the permutation lives on. -/
def widen (n domain : ℕ) : ℕ :=
  if domain < n ∧ 0 < domain then widen n (domain * 2) else domain
termination_by n - domain

/-- The loop over the permutation, from `j` on. -/
def pick (a b domain : UInt64) (n target : ℕ) : ℕ → ℕ → ℕ → List ℕ
  | 0, _, _ => []
  | fuel + 1, j, emitted =>
    if emitted < target then
      let idx := ((a * UInt64.ofNat j + b) &&& (domain - 1)).toNat
      if n ≤ idx then pick a b domain n target fuel (j + 1) emitted
      else if idx = 0 ∨ idx = n - 1 then pick a b domain n target fuel (j + 1) emitted
      else idx :: pick a b domain n target fuel (j + 1) (emitted + 1)
    else []

/-- The numbers chosen when not all blocks are asked for, in the order of choice. -/
def chosen (seed : UInt64) (src : Bytes) (size n target : ℕ) : List ℕ :=
  let ends := if 1 < n then [0, n - 1] else [0]
  if target ≤ ends.length ∨ n ≤ 2 then ends
  else
    let seed := mix64 (seed ^^^ pathHash src ^^^ UInt64.ofNat size)
    let domain := widen n 1
    let a := mix64 seed ||| 1
    let b := mix64 (seed ^^^ 0x9e3779b97f4a7c15) &&& (UInt64.ofNat domain - 1)
    ends ++ pick a b (UInt64.ofNat domain) n target domain 0 ends.length

/-- Each full batch and the rest, sorted by offset. -/
def emitBatches (l : List Sample) : List Sample :=
  ((l.toChunks batchMax).map fun batch =>
    batch.mergeSort fun x y => decide (x.offset ≤ y.offset)).flatten

/-- The samples in the order in which `for_each_sample` hands them out. `target` is
`sampleTarget` of the number of blocks. -/
def samples (target : ℕ) (seed : UInt64) (src : Bytes) (d : Domain) : List Sample :=
  if d.dataN = 0 then []
  else if target = d.dataN then (List.range d.dataN).map (sampleDomainOffset d)
  else emitBatches ((chosen seed src d.size d.dataN target).map (sampleDomainOffset d))

/-- The callback is called until it fails. -/
def forEach {σ : Type} (callback : Sample → σ → Bool × σ) : List Sample → σ → Bool × σ
  | [], s => (true, s)
  | x :: l, s =>
    match callback x s with
    | (true, s) => forEach callback l s
    | (false, s) => (false, s)

end Ecopy.Verify.Sampling
