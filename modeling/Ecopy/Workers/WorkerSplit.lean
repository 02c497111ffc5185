import Ecopy.Workers.BufferBudget
import Mathlib.Algebra.Order.Round
import Mathlib.Data.Rat.Floor
import Mathlib.Tactic.FieldSimp

/-!
# The threads of one large file

What is asked for is either both thread counts or a total, which is halved. A request within
the pool is granted; a larger one gets the whole pool, divided in the proportion asked for as
nearly as whole threads allow, with one thread left to each side.
-/
namespace Ecopy.Workers.Config

/-- The readers and writers asked for, before they are made to fit. -/
def requestedSplit (env : Env) : ℕ × ℕ :=
  let threads := explicitLargeThreads env (workersSetting env)
  if threads.1 > 0 ∧ threads.2 > 0 then threads
  else splitLargeWorkers (envIntOrDefault (env .largeWorkers) largeFileWorkers 2 (workersSetting env))

/-- The share of `w` slots that `part` of `total` amounts to, in whole slots. -/
def nearestShare (part total w : ℕ) : ℤ := round ((part : ℚ) * w / total)

/-- Adding half the divisor before an integer division rounds to the nearest integer. -/
theorem round_div {x d : ℕ} (hd : 0 < d) : round ((x : ℚ) / d) = ((x + d / 2) / d : ℕ) := by
  have hd' : (d : ℚ) ≠ 0 := by exact_mod_cast hd.ne'
  have hhalf : (x : ℚ) / d + 1 / 2 = ((2 * x + d : ℕ) : ℚ) / ((2 * d : ℕ) : ℚ) := by
    push_cast
    field_simp
  have hquot : (2 * x + d) / (2 * d) = (x + d / 2) / d := by
    rw [← Nat.div_div_eq_div_mul]
    congr 1
    omega
  rw [round_eq, hhalf, Rat.floor_natCast_div_natCast, ← Int.natCast_div, hquot]

theorem nearestShare_eq {part total w : ℕ} (h : 0 < total) :
    nearestShare part total w = ((part * w + total / 2) / total : ℕ) := by
  rw [nearestShare, ← round_div h, Nat.cast_mul]

/-- A request that fits is granted as it is. -/
theorem normalizeLargePipelineConfig_fits {w r q : ℕ} (hw : 1 ≤ w) (hr : 1 ≤ r) (hq : 1 ≤ q)
    (hfits : r + q ≤ w) :
    (normalizeLargePipelineConfig w r q).readers = r ∧
      (normalizeLargePipelineConfig w r q).writers = q := by
  unfold normalizeLargePipelineConfig
  dsimp only
  split_ifs <;> dsimp only <;> omega

/-- Otherwise the readers keep their share, between one and all but one of the slots. -/
theorem normalizeLargePipelineConfig_scaled {w r q : ℕ} (hw : 2 ≤ w) (hr : 1 ≤ r) (hq : 1 ≤ q)
    (hlarge : w < r + q) :
    ((normalizeLargePipelineConfig w r q).readers : ℤ) =
      max 1 (min ((w : ℤ) - 1) (nearestShare r (r + q) w)) := by
  rw [nearestShare_eq (by omega)]
  unfold normalizeLargePipelineConfig
  rw [if_pos (show w > 0 by omega), if_neg (show ¬ r < 1 by omega),
    if_neg (show ¬ q < 1 by omega)]
  dsimp only
  rw [if_pos (show r + q > w from hlarge), if_neg (show ¬ w = 1 by omega)]
  dsimp only
  generalize (r * w + (r + q) / 2) / (r + q) = share
  split_ifs <;> omega

theorem requestedSplit_pos (env : Env) : 1 ≤ (requestedSplit env).1 ∧ 1 ≤ (requestedSplit env).2 := by
  unfold requestedSplit
  dsimp only
  split_ifs with hexplicit
  · exact hexplicit
  · exact splitLargeWorkers_pos _

theorem largeSplit_eq (env : Env) : largeSplit env (workersSetting env) =
    normalizeLargePipelineConfig (workersSetting env) (requestedSplit env).1
      (requestedSplit env).2 := by
  unfold largeSplit requestedSplit
  dsimp only
  split_ifs <;> rfl

/-- The split of the worker slots is feasible for every environment. It is the requested one
where that fits, and otherwise the nearest one in its proportion. -/
theorem worker_split_feasible (env : Env) :
    let c := initRuntimeConfig env
    let asked := requestedSplit env
    (1 ≤ c.largeReaderCount ∧ 1 ≤ c.largeWriterCount ∧
      c.largeReaderCount + c.largeWriterCount = c.largeWorkerCount ∧
      2 ≤ c.largeWorkerCount ∧ c.largeWorkerCount ≤ c.workerCount ∧
      1 ≤ c.maxActiveLargeFiles ∧ c.maxActiveLargeFiles * c.largeWorkerCount ≤ c.workerCount) ∧
    (asked.1 + asked.2 ≤ c.workerCount →
      c.largeReaderCount = asked.1 ∧ c.largeWriterCount = asked.2) ∧
    (c.workerCount < asked.1 + asked.2 →
      (c.largeReaderCount : ℤ) =
        max 1 (min ((c.workerCount : ℤ) - 1)
          (nearestShare asked.1 (asked.1 + asked.2) c.workerCount))) := by
  have hworkers := workersSetting_ge env
  obtain ⟨hreaders, hwriters⟩ := requestedSplit_pos env
  obtain ⟨hr, hq, hsum, hle⟩ := initRuntimeConfig_feasible env
  have hactive := maxActiveLargeFiles_eq env
  have hreader : (initRuntimeConfig env).largeReaderCount =
      (largeSplit env (workersSetting env)).readers := rfl
  have hwriter : (initRuntimeConfig env).largeWriterCount =
      (largeSplit env (workersSetting env)).writers := rfl
  have hcount : (initRuntimeConfig env).workerCount = workersSetting env := rfl
  refine ⟨⟨hr, hq, hsum, by omega, hle, maxActiveLargeFiles_pos env, ?_⟩, ?_, ?_⟩
  · rw [hactive]
    exact Nat.div_mul_le_self _ _
  · intro hfits
    rw [hreader, hwriter, largeSplit_eq]
    exact normalizeLargePipelineConfig_fits (by omega) hreaders hwriters hfits
  · intro hlarge
    rw [hreader, largeSplit_eq, hcount]
    exact normalizeLargePipelineConfig_scaled hworkers hreaders hwriters hlarge

/-- Four workers and the defaults: four readers and two writers become three and one. -/
def fourWorkers : Env
  | .maxWorkers => .int 4
  | _ => .unset

theorem worker_split_four_workers :
    ((initRuntimeConfig fourWorkers).largeReaderCount : ℤ) =
      max 1 (min (4 - 1) (nearestShare 4 6 4)) ∧
    (initRuntimeConfig fourWorkers).largeReaderCount = 3 :=
  ⟨(worker_split_feasible fourWorkers).2.2 (by decide), by decide⟩

end Ecopy.Workers.Config
