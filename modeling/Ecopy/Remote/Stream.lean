import Ecopy.Protocol.Wire
import Ecopy.Path
import Ecopy.Workers.Config

/-!
# Files sent to a remote target

`copyFileRemote` is the sequence of WRITE and PUTFILE frames that
`copy_file_remote` sends for one file. The source descriptor is a pair of
functions, the results of `pread` and `lseek`: a read may return fewer bytes than
asked for, or none, or fail, but never more. Nothing is assumed about where the
holes of a sparse file are.

The loops are bounded by a fuel argument; every prefix of a run, and so also a run
that a shutdown request cuts short, is the run for some fuel. The other frames of a
streamed file (OPEN, FTRUNCATE, COMMIT, ABORT) are of bounded size and left out.
-/
namespace Ecopy.Remote.Stream
open Protocol
open Workers.Config (RuntimeConfig initRuntimeConfig)

/-- The metadata of the source file that travels with it. -/
structure Meta where
  mode : UInt32
  uid : UInt32
  gid : UInt32
  atimeSec : UInt64
  atimeNsec : UInt64
  mtimeSec : UInt64
  mtimeNsec : UInt64
deriving DecidableEq, Repr

/-- An open source file. `pread want pos` is `none` on error; `seekData` and
`seekHole` are `none` when the rest of the copy is given up or not needed. -/
structure Source where
  pread : ℕ → ℕ → Option Bytes
  seekData : ℕ → Option ℕ
  seekHole : ℕ → Option ℕ
  pread_le : ∀ want pos bs, pread want pos = some bs → bs.length ≤ want

structure Task where
  dst : Bytes
  size : ℕ
  sparse : Bool
  info : Meta
  parentMode : UInt32

/-- The identifiers the connection hands out for one file. -/
structure Ids where
  fileId : UInt64
  request : ℕ → UInt64

/-- Read up to `size` bytes from `pos` on, for PUTFILE. -/
def readWhole (src : Source) (size : ℕ) : ℕ → ℕ → Option Bytes
  | 0, _ => some []
  | fuel + 1, pos =>
    if pos < size then
      match src.pread (size - pos) pos with
      | none => none
      | some [] => some []
      | some bs => (readWhole src size fuel (pos + bs.length)).map (bs ++ ·)
    else some []

def putfileHead (t : Task) (inplace : Bool) : Penc :=
  let e := pencInit (Path.pathMax + 64)
  let e := pencU32 e (t.info.mode &&& 4095)
  let e := pencU32 e t.info.uid
  let e := pencU32 e t.info.gid
  let e := pencU64 e t.info.atimeSec
  let e := pencU64 e t.info.atimeNsec
  let e := pencU64 e t.info.mtimeSec
  let e := pencU64 e t.info.mtimeNsec
  let e := pencU32 e (if inplace then openInplace else 0)
  let e := pencU32 e (t.parentMode &&& 4095)
  pencStr e t.dst

/-- `sshx_putfile`: no frame when the path does not fit. -/
def sshxPutfile (t : Task) (inplace : Bool) (id : UInt64) (data : Bytes) : List WireFrame :=
  let e := putfileHead t inplace
  if e.overflow then [] else [frameWriteParts .putfile id e.buf data]

def copyFileRemotePutfile (src : Source) (t : Task) (inplace : Bool) (ids : Ids) (fuel : ℕ) :
    List WireFrame :=
  match readWhole src t.size fuel 0 with
  | none => []
  | some data => sshxPutfile t inplace (ids.request 0) data

/-- The loop over one run of data, `p` to `stop`. The count numbers the frames. -/
def writeRun (src : Source) (chunk : ℕ) (ids : Ids) (stop : ℕ) : ℕ → ℕ → ℕ → List WireFrame
  | 0, _, _ => []
  | fuel + 1, p, k =>
    if p < stop then
      match src.pread (min (stop - p) chunk) p with
      | none => []
      | some [] => []
      | some bs =>
        frameWriteData (ids.request k) ids.fileId (UInt64.ofNat p) bs ::
          writeRun src chunk ids stop fuel (p + bs.length) (k + 1)
    else []

/-- The loop over the data runs of a sparse file. -/
def writeSparse (src : Source) (chunk size : ℕ) (ids : Ids) : ℕ → ℕ → ℕ → List WireFrame
  | 0, _, _ => []
  | fuel + 1, pos, k =>
    if pos < size then
      match src.seekData pos with
      | none => []
      | some data =>
        if data ≥ size then []
        else
          match src.seekHole data with
          | none => []
          | some hole =>
            let hole := if hole > size then size else hole
            let run := writeRun src chunk ids hole fuel data k
            run ++ writeSparse src chunk size ids fuel hole (k + run.length)
    else []

/-- The loop over a dense file; it always asks for a whole chunk. -/
def writeDense (src : Source) (chunk size : ℕ) (ids : Ids) : ℕ → ℕ → ℕ → List WireFrame
  | 0, _, _ => []
  | fuel + 1, pos, k =>
    if pos < size then
      match src.pread chunk pos with
      | none => []
      | some [] => []
      | some bs =>
        frameWriteData (ids.request k) ids.fileId (UInt64.ofNat pos) bs ::
          writeDense src chunk size ids fuel (pos + bs.length) (k + 1)
    else []

def copyFileRemote (c : RuntimeConfig) (src : Source) (t : Task) (inplace : Bool) (ids : Ids)
    (fuel : ℕ) : List WireFrame :=
  let chunk := if c.chunkSize > 0 then c.chunkSize else 1024 * 1024
  if !t.sparse && decide (t.size ≤ c.sshPutfileMax) then
    copyFileRemotePutfile src t inplace ids fuel
  else if t.sparse then writeSparse src chunk t.size ids fuel 0 0
  else writeDense src chunk t.size ids fuel 0 0

theorem length_readWhole_le (src : Source) (size : ℕ) (fuel pos : ℕ) {data : Bytes}
    (h : readWhole src size fuel pos = some data) : data.length ≤ size - pos := by
  induction fuel generalizing pos data with
  | zero =>
    cases h
    exact Nat.zero_le _
  | succ fuel ih =>
    simp only [readWhole] at h
    split_ifs at h with hpos
    · split at h
      · cases h
      · cases h
        exact Nat.zero_le _
      next bs _ hread =>
          obtain ⟨rest, hrest, rfl⟩ := Option.map_eq_some_iff.mp h
          have hbs := src.pread_le _ _ _ hread
          have htail := ih _ hrest
          rw [List.length_append]
          omega
    · cases h
      exact Nat.zero_le _

theorem length_putfileHead_le (t : Task) (inplace : Bool) :
    (putfileHead t inplace).buf.length ≤ Path.pathMax + 64 :=
  pencBlocks_length_le (e := pencInit (Path.pathMax + 64))
    [_, _, _, _, _, _, _, _, _, _, _] (by simp [pencInit])

/-- Every frame of a list carries at most `n` bytes of file data. -/
def WritesAtMost (n : ℕ) (ws : List WireFrame) : Prop :=
  ∀ w ∈ ws, ∃ id fileId offset data, w = frameWriteData id fileId offset data ∧ data.length ≤ n

theorem writeRun_writesAtMost (src : Source) (chunk : ℕ) (ids : Ids) (stop fuel p k : ℕ) :
    WritesAtMost chunk (writeRun src chunk ids stop fuel p k) := by
  induction fuel generalizing p k with
  | zero => simp [writeRun, WritesAtMost]
  | succ fuel ih =>
    simp only [writeRun]
    split_ifs with hp
    · split
      · simp [WritesAtMost]
      · simp [WritesAtMost]
      next bs _ hread =>
          have hbs := src.pread_le _ _ _ hread
          have hchunk : bs.length ≤ chunk := Nat.le_trans hbs (Nat.min_le_right _ _)
          intro w hw
          rcases List.mem_cons.mp hw with rfl | hw
          · exact ⟨_, _, _, bs, rfl, hchunk⟩
          · exact ih _ _ w hw
    · simp [WritesAtMost]

theorem writeSparse_writesAtMost (src : Source) (chunk size : ℕ) (ids : Ids) (fuel pos k : ℕ) :
    WritesAtMost chunk (writeSparse src chunk size ids fuel pos k) := by
  induction fuel generalizing pos k with
  | zero => simp [writeSparse, WritesAtMost]
  | succ fuel ih =>
    simp only [writeSparse]
    split_ifs with hp
    · split
      · simp [WritesAtMost]
      · split_ifs
        · simp [WritesAtMost]
        · split
          · simp [WritesAtMost]
          · intro w hw
            rcases List.mem_append.mp hw with hw | hw
            · exact writeRun_writesAtMost src chunk ids _ _ _ _ w hw
            · exact ih _ _ w hw
    · simp [WritesAtMost]

theorem writeDense_writesAtMost (src : Source) (chunk size : ℕ) (ids : Ids) (fuel pos k : ℕ) :
    WritesAtMost chunk (writeDense src chunk size ids fuel pos k) := by
  induction fuel generalizing pos k with
  | zero => simp [writeDense, WritesAtMost]
  | succ fuel ih =>
    simp only [writeDense]
    split_ifs with hp
    · split
      · simp [WritesAtMost]
      · simp [WritesAtMost]
      next bs _ hread =>
          have hbs := src.pread_le _ _ _ hread
          intro w hw
          rcases List.mem_cons.mp hw with rfl | hw
          · exact ⟨_, _, _, bs, rfl, hbs⟩
          · exact ih _ _ w hw
    · simp [WritesAtMost]

theorem sshPutfileMax_le (env : Workers.Config.Env) :
    (initRuntimeConfig env).sshPutfileMax ≤ maxFrame - 65536 := by
  have hle : Workers.Config.envIntOrDefault (env .sshPutfileMax) 1024 0 ((maxFrame - 65536) / 1024) ≤
      (maxFrame - 65536) / 1024 := Workers.Config.envIntOrDefault_le (by decide) (by decide)
  calc (initRuntimeConfig env).sshPutfileMax
      = Workers.Config.envIntOrDefault (env .sshPutfileMax) 1024 0 ((maxFrame - 65536) / 1024) * 1024 :=
        rfl
    _ ≤ (maxFrame - 65536) / 1024 * 1024 := Nat.mul_le_mul_right 1024 hle
    _ ≤ maxFrame - 65536 := Nat.div_mul_le_self _ _

theorem chunkSize_pos (env : Workers.Config.Env) : 0 < (initRuntimeConfig env).chunkSize := by
  have hone : 1 ≤ Workers.Config.envIntOrDefault (env .chunkMb) 1 1 4096 :=
    Workers.Config.envIntOrDefault_ge (by decide) (by decide)
  change 0 < Workers.Config.envIntOrDefault (env .chunkMb) 1 1 4096 * 1024 * 1024
  omega

/-- A PUTFILE frame always fits, since its data is capped below the limit. -/
theorem copyFileRemotePutfile_acceptable (env : Workers.Config.Env) (src : Source) (t : Task)
    (inplace : Bool) (ids : Ids) (fuel : ℕ) (hsize : t.size ≤ (initRuntimeConfig env).sshPutfileMax) :
    ∀ w ∈ copyFileRemotePutfile src t inplace ids fuel, w.Acceptable := by
  intro w hw
  unfold copyFileRemotePutfile at hw
  split at hw
  · cases hw
  next data hdata =>
      unfold sshxPutfile at hw
      dsimp only at hw
      split_ifs at hw
      · cases hw
      · rw [List.mem_singleton] at hw
        subst hw
        have hhead := length_putfileHead_le t inplace
        have hlen := length_readWhole_le src t.size fuel 0 hdata
        have hmax := sshPutfileMax_le env
        rw [frameWriteParts_acceptable_iff]
        simp only [Path.pathMax, maxFrame] at *
        omega

/-- The chunk size in MiB that an environment asks for. -/
def chunkMb (env : Workers.Config.Env) : ℕ :=
  Workers.Config.envIntOrDefault (env .chunkMb) 1 1 4096

/-- Whatever is sent for whatever file, the server can read it. -/
def FramesAcceptable (env : Workers.Config.Env) : Prop :=
  ∀ (src : Source) (t : Task) (inplace : Bool) (ids : Ids) (fuel : ℕ),
    ∀ w ∈ copyFileRemote (initRuntimeConfig env) src t inplace ids fuel, w.Acceptable

theorem chunkSize_eq (env : Workers.Config.Env) :
    (initRuntimeConfig env).chunkSize = chunkMb env * 1024 * 1024 := rfl

theorem acceptable_of_writesAtMost {n : ℕ} {ws : List WireFrame} (h : WritesAtMost n ws)
    (hn : 16 + n ≤ maxFrame) : ∀ w ∈ ws, w.Acceptable := by
  intro w hw
  obtain ⟨id, fileId, offset, data, rfl, hdata⟩ := h w hw
  rw [frameWriteData_acceptable_iff]
  omega

theorem framesAcceptable_of_chunkMb_le {env : Workers.Config.Env} (h : chunkMb env ≤ 15) :
    FramesAcceptable env := by
  intro src t inplace ids fuel w hw
  have hchunk := chunkSize_eq env
  have hfits : 16 + (initRuntimeConfig env).chunkSize ≤ maxFrame := by
    unfold maxFrame
    omega
  unfold copyFileRemote at hw
  rw [if_pos (chunkSize_pos env)] at hw
  dsimp only at hw
  split_ifs at hw with hput hsparse
  · have hsize : t.size ≤ (initRuntimeConfig env).sshPutfileMax := by
      simp only [Bool.and_eq_true, decide_eq_true_eq] at hput
      exact hput.2
    exact copyFileRemotePutfile_acceptable env src t inplace ids fuel hsize w hw
  · exact acceptable_of_writesAtMost (writeSparse_writesAtMost _ _ _ _ _ _ _) hfits w hw
  · exact acceptable_of_writesAtMost (writeDense_writesAtMost _ _ _ _ _ _ _) hfits w hw

/-- A file of zeros that every read satisfies in full. -/
def zeros : Source where
  pread := fun want _ => some (List.replicate want 0)
  seekData := some
  seekHole := some
  pread_le := by
    intro want pos bs h
    cases h
    simp

def denseTask (size : ℕ) : Task where
  dst := [Path.slash, 97]
  size := size
  sparse := false
  info := ⟨420, 0, 0, 0, 0, 0, 0⟩
  parentMode := 493

def firstIds : Ids where
  fileId := 1
  request := fun k => UInt64.ofNat (k + 1)

/-- A dense file of one chunk above the PUTFILE limit is one WRITE frame. -/
theorem copyFileRemote_zeros {env : Workers.Config.Env}
    (h : (initRuntimeConfig env).sshPutfileMax < (initRuntimeConfig env).chunkSize) :
    copyFileRemote (initRuntimeConfig env) zeros (denseTask (initRuntimeConfig env).chunkSize) false
        firstIds 1 =
      [frameWriteData 1 1 0 (List.replicate (initRuntimeConfig env).chunkSize 0)] := by
  obtain ⟨m, hm⟩ := Nat.exists_eq_succ_of_ne_zero (chunkSize_pos env).ne'
  have hput : ¬(!(denseTask (initRuntimeConfig env).chunkSize).sparse &&
      decide ((denseTask (initRuntimeConfig env).chunkSize).size ≤
        (initRuntimeConfig env).sshPutfileMax)) = true := by
    intro hsmall
    rw [Bool.and_eq_true, decide_eq_true_eq] at hsmall
    exact absurd hsmall.2 (Nat.not_le.mpr h)
  unfold copyFileRemote
  rw [if_pos (chunkSize_pos env)]
  dsimp only
  rw [if_neg hput, if_neg (by simp [denseTask])]
  simp only [writeDense, denseTask, zeros, hm, List.replicate_succ]
  rfl

/-- Every frame the client can send is acceptable exactly when the chunk size is
at most 15 MiB: from 16 MiB on a full WRITE frame is over the limit by its prefix. -/
theorem framesAcceptable_iff (env : Workers.Config.Env) :
    FramesAcceptable env ↔ chunkMb env ≤ 15 := by
  refine ⟨fun h => ?_, framesAcceptable_of_chunkMb_le⟩
  by_contra hbig
  have hchunk := chunkSize_eq env
  have hmax := sshPutfileMax_le env
  have hput : (initRuntimeConfig env).sshPutfileMax < (initRuntimeConfig env).chunkSize := by
    unfold maxFrame at hmax
    omega
  have hframe := h zeros (denseTask (initRuntimeConfig env).chunkSize) false firstIds 1
    (frameWriteData 1 1 0 (List.replicate (initRuntimeConfig env).chunkSize 0))
    (by rw [copyFileRemote_zeros hput]; exact List.mem_singleton_self _)
  rw [frameWriteData_acceptable_iff, List.length_replicate] at hframe
  unfold maxFrame at hframe
  omega

/-- Chunks of 16 MiB. -/
def chunks16 : Workers.Config.Env := fun v => if v = .chunkMb then .int 16 else .unset

theorem sixteen_mib_chunk_is_oversized :
    ∃ w ∈ copyFileRemote (initRuntimeConfig chunks16) zeros (denseTask (16 * 1024 * 1024)) false
      firstIds 1, ¬w.Acceptable ∧ readFrame (w.bytes ++ []) = .oversized := by
  have hchunk : (initRuntimeConfig chunks16).chunkSize = 16 * 1024 * 1024 := by decide
  have hput : (initRuntimeConfig chunks16).sshPutfileMax <
      (initRuntimeConfig chunks16).chunkSize := by decide
  have hrun := copyFileRemote_zeros hput
  rw [hchunk] at hrun
  refine ⟨_, by rw [hrun]; exact List.mem_singleton_self _, ?_, readFrame_oversized ?_ []⟩
  · rw [frameWriteData_acceptable_iff, List.length_replicate]
    decide
  · unfold frameWriteData
    dsimp only
    rw [List.length_replicate, toNat_ofNat_of_lt (by decide)]
    decide

end Ecopy.Remote.Stream
