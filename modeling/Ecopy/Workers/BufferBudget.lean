import Ecopy.Workers.Config

/-!
# The memory budget of the large-file pipelines

`init_runtime_config` warns when the buffers of all active large files would pass
`MAX_LARGE_BUFFER_BUDGET_MB` together, and lowers the number of buffers per file. It lowers
nothing else, and not below one buffer. So the budget holds exactly when one buffer for
every file that may be active fits into it, and that is decided by three settings: the chunk
size, the worker count and the threads asked for one large file.
-/
namespace Ecopy.Workers.Config

/-- `DIRECT_COPY_MAX_WORKERS` as it is read. -/
def workersSetting (env : Env) : ℕ := envIntOrDefault (env .maxWorkers) maxWorkerSlots 2 512

/-- `DIRECT_COPY_CHUNK_MB` as it is read. -/
def chunkSetting (env : Env) : ℕ := envIntOrDefault (env .chunkMb) 1 1 4096

/-- The threads asked for one large file, before they are made to fit. -/
def threadsAsked (env : Env) : ℕ :=
  let (readers, writers) := explicitLargeThreads env (workersSetting env)
  if readers > 0 ∧ writers > 0 then readers + writers
  else envIntOrDefault (env .largeWorkers) largeFileWorkers 2 (workersSetting env)

/-- How many large files those threads let be active at once. -/
def filesAtOnce (env : Env) : ℕ :=
  workersSetting env / min (threadsAsked env) (workersSetting env)

/-- The pools of all active large files fit into the budget, and every file has a buffer. -/
def WithinBudget (c : RuntimeConfig) : Prop :=
  c.chunkSize / (1024 * 1024) * c.largeFileInflight * c.maxActiveLargeFiles ≤
      maxLargeBufferBudgetMb ∧
    1 ≤ c.largeFileInflight

instance (c : RuntimeConfig) : Decidable (WithinBudget c) :=
  inferInstanceAs (Decidable (_ ∧ _))

theorem workersSetting_ge (env : Env) : 2 ≤ workersSetting env := (workerCount_range env).1

theorem splitLargeWorkers_sum {total : ℕ} (h : 2 ≤ total) :
    (splitLargeWorkers total).1 + (splitLargeWorkers total).2 = total := by
  unfold splitLargeWorkers
  dsimp only
  split_ifs <;> dsimp only at * <;> omega

/-- A request that does not fit costs the whole pool. -/
theorem normalizeLargePipelineConfig_cost {w r q : ℕ} (hw : 2 ≤ w) (hr : 1 ≤ r) (hq : 1 ≤ q) :
    (normalizeLargePipelineConfig w r q).largeWorkers = min (r + q) w := by
  unfold normalizeLargePipelineConfig
  dsimp only
  split_ifs <;> dsimp only <;> omega

theorem largeSplit_cost (env : Env) :
    (largeSplit env (workersSetting env)).largeWorkers =
      min (threadsAsked env) (workersSetting env) := by
  have hw := workersSetting_ge env
  unfold largeSplit threadsAsked
  dsimp only
  split_ifs with hexplicit
  · exact normalizeLargePipelineConfig_cost hw hexplicit.1 hexplicit.2
  · have hasked : 2 ≤ envIntOrDefault (env .largeWorkers) largeFileWorkers 2 (workersSetting env) :=
      envIntOrDefault_ge (by decide) hw
    have hpos := splitLargeWorkers_pos
      (envIntOrDefault (env .largeWorkers) largeFileWorkers 2 (workersSetting env))
    rw [normalizeLargePipelineConfig_cost hw hpos.1 hpos.2, splitLargeWorkers_sum hasked]

theorem maxActiveLargeFiles_eq_filesAtOnce (env : Env) :
    (initRuntimeConfig env).maxActiveLargeFiles = filesAtOnce env := by
  have hcost : (initRuntimeConfig env).largeWorkerCount =
      min (threadsAsked env) (workersSetting env) := largeSplit_cost env
  rw [maxActiveLargeFiles_eq, hcost]
  rfl

/-- The clamp reaches the budget exactly when one buffer per file is within it. -/
theorem clampInflight_le_iff {chunkMb inflight maxActive : ℕ} (hc : 1 ≤ chunkMb)
    (hi : 1 ≤ inflight) (ha : 1 ≤ maxActive) :
    chunkMb * clampInflight chunkMb inflight maxActive * maxActive ≤ maxLargeBufferBudgetMb ↔
      chunkMb * maxActive ≤ maxLargeBufferBudgetMb := by
  have hone : chunkMb * maxActive ≤
      chunkMb * clampInflight chunkMb inflight maxActive * maxActive := by
    calc chunkMb * maxActive = chunkMb * 1 * maxActive := by rw [Nat.mul_one]
      _ ≤ chunkMb * clampInflight chunkMb inflight maxActive * maxActive :=
          Nat.mul_le_mul_right _ (Nat.mul_le_mul_left _ (clampInflight_pos hi))
  refine ⟨hone.trans, fun hfits => ?_⟩
  unfold clampInflight
  dsimp only
  split_ifs with hover hfloor
  · -- the quotient is not rounded down to zero where one buffer fits
    have hpos : 1 ≤ maxLargeBufferBudgetMb / (chunkMb * maxActive) :=
      Nat.div_pos hfits (Nat.mul_pos hc ha)
    omega
  · calc chunkMb * (maxLargeBufferBudgetMb / (chunkMb * maxActive)) * maxActive
        = maxLargeBufferBudgetMb / (chunkMb * maxActive) * (chunkMb * maxActive) := by ring
      _ ≤ maxLargeBufferBudgetMb := Nat.div_mul_le_self _ _
  · omega

/-- After initialisation the buffers are within the budget if and only if one buffer for
each file that may be active is. -/
theorem withinBudget_iff (env : Env) :
    WithinBudget (initRuntimeConfig env) ↔
      chunkSetting env * filesAtOnce env ≤ maxLargeBufferBudgetMb := by
  have hchunk : (initRuntimeConfig env).chunkSize / (1024 * 1024) = chunkSetting env := by
    show chunkSetting env * 1024 * 1024 / (1024 * 1024) = chunkSetting env
    omega
  have hinflight := largeFileInflight_pos env
  have hactive := maxActiveLargeFiles_pos env
  have hclamp : (initRuntimeConfig env).largeFileInflight =
      clampInflight (chunkSetting env)
        (envIntOrDefault (env .largeFileInflight) largeFileInflight 1 1024)
        (initRuntimeConfig env).maxActiveLargeFiles := rfl
  have hchunkPos : 1 ≤ chunkSetting env := envIntOrDefault_ge (by decide) (by decide)
  have hasked : 1 ≤ envIntOrDefault (env .largeFileInflight) largeFileInflight 1 1024 :=
    envIntOrDefault_ge (by decide) (by decide)
  unfold WithinBudget
  rw [and_iff_left hinflight, hchunk, hclamp, clampInflight_le_iff hchunkPos hasked hactive,
    maxActiveLargeFiles_eq_filesAtOnce]

/-- 512 workers, two for each large file, and chunks of 4 GiB. -/
def crowdedEnv : Env
  | .maxWorkers => .int 512
  | .largeReaders => .int 1
  | .largeWriters => .int 1
  | .chunkMb => .int 4096
  | _ => .unset

/-- The 256 files have one buffer each, which is a tebibyte. -/
theorem crowded_over_budget : ¬ WithinBudget (initRuntimeConfig crowdedEnv) := by
  decide

end Ecopy.Workers.Config
