import Ecopy.Protocol.Message
import Mathlib.Tactic.Common
import Mathlib.Algebra.Order.Group.Nat

/-!
# The runtime configuration of the copy workers

`initRuntimeConfig` follows `init_runtime_config` from the environment to the
worker split, the large-file pipeline and its buffer budget. An environment
variable is seen through `strtol`: it is unset, it is not an integer of type
`long`, or it is one. Values are clamped to the range of the variable, defaults
are not, which is why the default of 32 small slots survives next to two
worker slots.

The warnings printed on clamping are not modelled.
-/
namespace Ecopy.Workers.Config

/-- The variables `init_runtime_config` reads, by their suffix after
`DIRECT_COPY_`. -/
inductive Var where
  | maxWorkers
  | largeWorkers
  | largeReaders
  | largeWriters
  | largeFileInflight
  | chunkMb
  | largeThresholdMb
  | maxQueuedFiles
  | sizePriority
  | smallMaxWorkers
  | smallWriteDirectMinKb
  | sshPutfileMax
deriving DecidableEq, Repr

inductive EnvVal where
  | unset
  | invalid
  | int (v : ℤ)
deriving DecidableEq, Repr

abbrev Env := Var → EnvVal

def envIntOrDefault (v : EnvVal) (defval minval maxval : ℕ) : ℕ :=
  match v with
  | .unset => defval
  | .invalid => defval
  | .int v => if v < minval then minval else if v > maxval then maxval else v.toNat

theorem envIntOrDefault_ge {v : EnvVal} {defval minval maxval : ℕ} (hd : minval ≤ defval)
    (hm : minval ≤ maxval) : minval ≤ envIntOrDefault v defval minval maxval := by
  unfold envIntOrDefault
  split <;> try split_ifs
  all_goals omega

theorem envIntOrDefault_le {v : EnvVal} {defval minval maxval : ℕ} (hd : defval ≤ maxval)
    (hm : minval ≤ maxval) : envIntOrDefault v defval minval maxval ≤ maxval := by
  unfold envIntOrDefault
  split <;> try split_ifs
  all_goals omega

def maxWorkerSlots : ℕ := 256
def smallWorkerSlots : ℕ := 32
def largeFileWorkers : ℕ := 6
def largeFileInflight : ℕ := 16
def largeFileThresholdMb : ℕ := 10
def sizePriorityDefault : ℕ := 1
def maxLargeBufferBudgetMb : ℕ := 8192
def alignment : ℕ := 4096

structure Split where
  readers : ℕ
  writers : ℕ
  largeWorkers : ℕ
  clamped : Bool
deriving DecidableEq, Repr

def splitLargeWorkers (total : ℕ) : ℕ × ℕ :=
  let readers := (total + 1) / 2
  let writers := total - readers
  let (readers, writers) := if writers < 1 then (total - 1, 1) else (readers, writers)
  (if readers < 1 then 1 else readers, writers)

def normalizeLargePipelineConfig (workerCount requestedReaders requestedWriters : ℕ) : Split :=
  let slotBudget := if workerCount > 0 then workerCount else 1
  let requestedReaders := if requestedReaders < 1 then 1 else requestedReaders
  let requestedWriters := if requestedWriters < 1 then 1 else requestedWriters
  let requestedTotal := requestedReaders + requestedWriters
  if requestedTotal > slotBudget then
    if slotBudget = 1 then ⟨1, 1, 1, true⟩
    else
      let r := (requestedReaders * slotBudget + requestedTotal / 2) / requestedTotal
      let r := if r < 1 then 1 else r
      let r := if r > slotBudget - 1 then slotBudget - 1 else r
      ⟨r, slotBudget - r, slotBudget, true⟩
  else ⟨requestedReaders, requestedWriters, requestedTotal, false⟩

structure RuntimeConfig where
  workerCount : ℕ
  largeWorkerCount : ℕ
  largeReaderCount : ℕ
  largeWriterCount : ℕ
  largeConfigClamped : Bool
  largeFileInflight : ℕ
  chunkSize : ℕ
  largeThreshold : ℕ
  maxQueuedFiles : ℕ
  sizePriority : ℕ
  smallWorkerLimit : ℕ
  smallWriteDirectMin : ℕ
  sshPutfileMax : ℕ
  maxActiveLargeFiles : ℕ
deriving DecidableEq, Repr

/-- The two explicit thread counts; one without the other is refused and the
defaults take over. -/
def explicitLargeThreads (env : Env) (workerCount : ℕ) : ℕ × ℕ :=
  let readers := envIntOrDefault (env .largeReaders) 4 0 workerCount
  let writers := envIntOrDefault (env .largeWriters) 2 0 workerCount
  if decide (readers > 0) != decide (writers > 0) then (4, 2) else (readers, writers)

def largeSplit (env : Env) (workerCount : ℕ) : Split :=
  let largeWorkers := envIntOrDefault (env .largeWorkers) largeFileWorkers 2 workerCount
  let (readers, writers) := explicitLargeThreads env workerCount
  if readers > 0 ∧ writers > 0 then normalizeLargePipelineConfig workerCount readers writers
  else
    let (readers, writers) := splitLargeWorkers largeWorkers
    normalizeLargePipelineConfig workerCount readers writers

/-- The buffer budget: the pool of every active large file together may not
pass `MAX_LARGE_BUFFER_BUDGET_MB`. -/
def clampInflight (chunkMb inflight maxActive : ℕ) : ℕ :=
  if chunkMb * inflight * maxActive > maxLargeBufferBudgetMb then
    let clamped := maxLargeBufferBudgetMb / (chunkMb * maxActive)
    if clamped < 1 then 1 else clamped
  else inflight

def initRuntimeConfig (env : Env) : RuntimeConfig :=
  let workerCount := envIntOrDefault (env .maxWorkers) maxWorkerSlots 2 512
  let inflight := envIntOrDefault (env .largeFileInflight) largeFileInflight 1 1024
  let chunkMb := envIntOrDefault (env .chunkMb) 1 1 4096
  let thresholdMb := envIntOrDefault (env .largeThresholdMb) largeFileThresholdMb 1 (1024 * 1024)
  let split := largeSplit env workerCount
  let maxActive := workerCount / split.largeWorkers
  let maxActive := if maxActive < 1 then 1 else maxActive
  { workerCount := workerCount
    largeWorkerCount := split.largeWorkers
    largeReaderCount := split.readers
    largeWriterCount := split.writers
    largeConfigClamped := split.clamped
    largeFileInflight := clampInflight chunkMb inflight maxActive
    chunkSize := chunkMb * 1024 * 1024
    largeThreshold := thresholdMb * 1024 * 1024
    maxQueuedFiles := envIntOrDefault (env .maxQueuedFiles) 262144 1 10000000
    sizePriority := envIntOrDefault (env .sizePriority) sizePriorityDefault 0 1
    smallWorkerLimit := envIntOrDefault (env .smallMaxWorkers) smallWorkerSlots 1 workerCount
    smallWriteDirectMin := envIntOrDefault (env .smallWriteDirectMinKb) 64 0 (1024 * 1024) * 1024
    sshPutfileMax :=
      envIntOrDefault (env .sshPutfileMax) 1024 0 ((Protocol.maxFrame - 65536) / 1024) * 1024
    maxActiveLargeFiles := maxActive }

/-- `workers_start` on a remote target: every slot is a small slot, so the pool
shrinks to the small limit. -/
def workersStart (remote : Bool) (c : RuntimeConfig) : RuntimeConfig :=
  if remote && decide (c.workerCount > c.smallWorkerLimit) then
    { c with workerCount := c.smallWorkerLimit }
  else c

@[simp] theorem workersStart_largeWorkerCount (remote : Bool) (c : RuntimeConfig) :
    (workersStart remote c).largeWorkerCount = c.largeWorkerCount := by
  unfold workersStart
  split_ifs <;> rfl

@[simp] theorem workersStart_smallWorkerLimit (remote : Bool) (c : RuntimeConfig) :
    (workersStart remote c).smallWorkerLimit = c.smallWorkerLimit := by
  unfold workersStart
  split_ifs <;> rfl

@[simp] theorem workersStart_maxActiveLargeFiles (remote : Bool) (c : RuntimeConfig) :
    (workersStart remote c).maxActiveLargeFiles = c.maxActiveLargeFiles := by
  unfold workersStart
  split_ifs <;> rfl

theorem splitLargeWorkers_pos (total : ℕ) :
    1 ≤ (splitLargeWorkers total).1 ∧ 1 ≤ (splitLargeWorkers total).2 := by
  unfold splitLargeWorkers
  dsimp only
  split_ifs <;> constructor <;> dsimp only at * <;> omega

/-- Feasibility of the split: both sides keep a thread and together they use
the slots one large file costs, at most the whole pool. -/
theorem normalizeLargePipelineConfig_feasible {w : ℕ} (hw : 2 ≤ w) (r q : ℕ) :
    let s := normalizeLargePipelineConfig w r q
    1 ≤ s.readers ∧ 1 ≤ s.writers ∧ s.readers + s.writers = s.largeWorkers ∧
      s.largeWorkers ≤ w := by
  unfold normalizeLargePipelineConfig
  dsimp only
  split_ifs <;> dsimp only <;> omega

theorem largeSplit_feasible (env : Env) {w : ℕ} (hw : 2 ≤ w) :
    1 ≤ (largeSplit env w).readers ∧ 1 ≤ (largeSplit env w).writers ∧
      (largeSplit env w).readers + (largeSplit env w).writers = (largeSplit env w).largeWorkers ∧
      (largeSplit env w).largeWorkers ≤ w := by
  unfold largeSplit
  dsimp only
  split_ifs
  · exact normalizeLargePipelineConfig_feasible hw _ _
  · exact normalizeLargePipelineConfig_feasible hw _ _

theorem workerCount_range (env : Env) :
    2 ≤ (initRuntimeConfig env).workerCount ∧ (initRuntimeConfig env).workerCount ≤ 512 :=
  ⟨envIntOrDefault_ge (by decide) (by decide), envIntOrDefault_le (by decide) (by decide)⟩

theorem initRuntimeConfig_feasible (env : Env) :
    let c := initRuntimeConfig env
    1 ≤ c.largeReaderCount ∧ 1 ≤ c.largeWriterCount ∧
      c.largeReaderCount + c.largeWriterCount = c.largeWorkerCount ∧
      c.largeWorkerCount ≤ c.workerCount :=
  largeSplit_feasible env (workerCount_range env).1

theorem maxActiveLargeFiles_eq (env : Env) :
    (initRuntimeConfig env).maxActiveLargeFiles =
      (initRuntimeConfig env).workerCount / (initRuntimeConfig env).largeWorkerCount := by
  obtain ⟨hr, hw, hsum, hle⟩ := initRuntimeConfig_feasible env
  have hpos : 0 < (initRuntimeConfig env).largeWorkerCount := by omega
  have hone : 1 ≤ (initRuntimeConfig env).workerCount / (initRuntimeConfig env).largeWorkerCount :=
    (Nat.one_le_div_iff hpos).mpr hle
  exact if_neg (Nat.not_lt.mpr hone)

theorem clampInflight_pos {chunkMb inflight maxActive : ℕ} (h : 1 ≤ inflight) :
    1 ≤ clampInflight chunkMb inflight maxActive := by
  unfold clampInflight
  dsimp only
  split_ifs with h₁ h₂
  · exact le_rfl
  · omega
  · exact h

theorem largeFileInflight_pos (env : Env) : 1 ≤ (initRuntimeConfig env).largeFileInflight :=
  clampInflight_pos (envIntOrDefault_ge (by decide) (by decide))

theorem smallWorkerLimit_pos (env : Env) : 1 ≤ (initRuntimeConfig env).smallWorkerLimit := by
  refine envIntOrDefault_ge (by decide) ?_
  have := (workerCount_range env).1
  simp only [initRuntimeConfig] at this
  omega

theorem maxQueuedFiles_pos (env : Env) : 1 ≤ (initRuntimeConfig env).maxQueuedFiles :=
  envIntOrDefault_ge (by decide) (by decide)

theorem maxActiveLargeFiles_pos (env : Env) : 1 ≤ (initRuntimeConfig env).maxActiveLargeFiles := by
  obtain ⟨hr, hw, hsum, hle⟩ := initRuntimeConfig_feasible env
  rw [maxActiveLargeFiles_eq]
  exact Nat.div_pos hle (by omega)

theorem workersStart_workerCount_pos (env : Env) (remote : Bool) :
    1 ≤ (workersStart remote (initRuntimeConfig env)).workerCount := by
  have hcount := (workerCount_range env).1
  have hlimit := smallWorkerLimit_pos env
  unfold workersStart
  split_ifs
  · exact hlimit
  · omega

end Ecopy.Workers.Config
