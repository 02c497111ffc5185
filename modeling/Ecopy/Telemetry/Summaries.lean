import Ecopy.Lib.Doubles
import Ecopy.Lib.Threads
import Ecopy.Telemetry.Histogram

/-!
# Transfer telemetry

Every thread counts the files it has copied in accumulators of its own, one for each class of
transfer, and merges them into the global ones when it flushes. `telemetry_get` flushes the
thread that calls it and reads the global accumulators. Flushing, reading and the rate
windows hold one lock, and the accumulators of a thread belong to that thread, so that each
call is one step.

A percentile is what its bin is reported as, and the minimum is exact. The minimum can be
above the lowest percentiles for that reason: they are in the bin of the minimum, and the bin
begins below it.

A run begins after `telemetry_init`. Values of `transfer_class_t` outside the enumeration,
which `telemetry_note_file` ignores, are not passed to it.
-/
namespace Ecopy.Telemetry
open Lib.Doubles Lib.Threads Lib.Ranks

inductive TransferClass where
  | small
  | large
  | sparse
deriving DecidableEq, Repr

/-- `class_accum_t`. -/
structure ClassAccum where
  latency : Histogram
  rate : Histogram
  count : UInt64
  logicalBytes : UInt64
  payloadBytes : UInt64
  serviceNs : UInt64

def ClassAccum.empty : ClassAccum := ⟨.empty, .empty, 0, 0, 0, 0⟩

def bytesPerSecond (bytes elapsedNs : UInt64) : UInt64 :=
  if bytes = 0 ∨ elapsedNs = 0 then 0
  else
    let value := double (double (double bytes.toNat * 10 ^ 9) / double elapsedNs.toNat)
    if value ≥ 2 ^ 64 then 0xFFFFFFFFFFFFFFFF else UInt64.ofNat ⌊value⌋.toNat

/-- What `telemetry_note_file` does with the accumulator of the class. -/
def noteFile (accum : ClassAccum) (logicalBytes payloadBytes serviceNs : UInt64) : ClassAccum :=
  if serviceNs = 0 then accum
  else
    { latency := histAdd accum.latency serviceNs
      rate := if payloadBytes > 0 then
          histAdd accum.rate (bytesPerSecond payloadBytes serviceNs)
        else accum.rate
      count := accum.count + 1
      logicalBytes := accum.logicalBytes + logicalBytes
      payloadBytes := accum.payloadBytes + payloadBytes
      serviceNs := accum.serviceNs + serviceNs }

/-- What `telemetry_flush_thread` does for one class: the global accumulator, and that of the
thread. -/
def flushClass (dst src : ClassAccum) : ClassAccum × ClassAccum :=
  let latency := histMerge dst.latency src.latency
  let rate := histMerge dst.rate src.rate
  ({ latency := latency.1
     rate := rate.1
     count := dst.count + src.count
     logicalBytes := dst.logicalBytes + src.logicalBytes
     payloadBytes := dst.payloadBytes + src.payloadBytes
     serviceNs := dst.serviceNs + src.serviceNs },
    ⟨latency.2, rate.2, 0, 0, 0, 0⟩)

/-- `g_classes`, `g_rate` and the accumulators `g_tls` of every thread. -/
structure State (ι : Type) where
  classes : TransferClass → ClassAccum
  rate : Histogram
  tls : ι → TransferClass → ClassAccum

structure ClassSummary where
  count : UInt64
  logicalBytes : UInt64
  payloadBytes : UInt64
  serviceNs : UInt64
  latencyMinNs : UInt64
  latencyP50Ns : UInt64
  latencyP95Ns : UInt64
  latencyP99Ns : UInt64
  latencyMaxNs : UInt64
  rateSamples : UInt64
  rateMinBps : UInt64
  rateP10Bps : UInt64
  rateP50Bps : UInt64
  rateP90Bps : UInt64
  rateP99Bps : UInt64
  rateMaxBps : UInt64
deriving DecidableEq, Repr

structure RateSummary where
  samples : UInt64
  minBps : UInt64
  p10Bps : UInt64
  p50Bps : UInt64
  p90Bps : UInt64
  p99Bps : UInt64
  maxBps : UInt64
deriving DecidableEq, Repr

def classSummary (src : ClassAccum) : ClassSummary where
  count := src.count
  logicalBytes := src.logicalBytes
  payloadBytes := src.payloadBytes
  serviceNs := src.serviceNs
  latencyMinNs := src.latency.min
  latencyP50Ns := histPercentile src.latency 50
  latencyP95Ns := histPercentile src.latency 95
  latencyP99Ns := histPercentile src.latency 99
  latencyMaxNs := src.latency.max
  rateSamples := src.rate.count
  rateMinBps := src.rate.min
  rateP10Bps := histPercentile src.rate 10
  rateP50Bps := histPercentile src.rate 50
  rateP90Bps := histPercentile src.rate 90
  rateP99Bps := histPercentile src.rate 99
  rateMaxBps := src.rate.max

def rateSummary (rate : Histogram) : RateSummary where
  samples := rate.count
  minBps := rate.min
  p10Bps := histPercentile rate 10
  p50Bps := histPercentile rate 50
  p90Bps := histPercentile rate 90
  p99Bps := histPercentile rate 99
  maxBps := rate.max

section Runs
variable {ι : Type} [DecidableEq ι]

def State.init : State ι := ⟨fun _ => .empty, .empty, fun _ _ => .empty⟩

/-- A table with one row for each thread and one entry for each class. -/
def setEntry {β : Type} (table : ι → TransferClass → β) (i : ι) (cls : TransferClass) (x : β) :
    ι → TransferClass → β :=
  Function.update table i (Function.update (table i) cls x)

def telemetryFlushThread (s : State ι) (i : ι) : State ι :=
  { s with
    classes := fun cls => (flushClass (s.classes cls) (s.tls i cls)).1
    tls := Function.update s.tls i fun cls => (flushClass (s.classes cls) (s.tls i cls)).2 }

/-- The state that `telemetry_get` leaves, and what it returns. -/
def telemetryGet (s : State ι) (i : ι) :
    State ι × (TransferClass → ClassSummary) × RateSummary :=
  let s := telemetryFlushThread s i
  (s, fun cls => classSummary (s.classes cls), rateSummary s.rate)

inductive Action (ι : Type) where
  | noteFile (i : ι) (cls : TransferClass) (logicalBytes payloadBytes serviceNs : UInt64)
  | flush (i : ι)
  | rateWindow (bytes elapsedNs : UInt64)
  | get (i : ι)
deriving DecidableEq, Repr

def step (s : State ι) : Action ι → State ι
  | .noteFile i cls logical payload service =>
    { s with tls := setEntry s.tls i cls (noteFile (s.tls i cls) logical payload service) }
  | .flush i => telemetryFlushThread s i
  | .rateWindow bytes elapsed =>
    if elapsed = 0 then s else { s with rate := histAdd s.rate (bytesPerSecond bytes elapsed) }
  | .get i => (telemetryGet s i).1

def run (as : List (Action ι)) : State ι := as.foldl step .init

/-- The samples of one class. -/
structure Samples where
  latency : List UInt64
  rate : List UInt64

/-- The samples that each thread has not flushed yet, those that are merged, and the rates of the
windows. -/
structure Tally (ι : Type) where
  pending : ι → TransferClass → Samples
  merged : TransferClass → Samples
  windows : List UInt64

def Samples.note (x : Samples) (payload service : UInt64) : Samples :=
  if service = 0 then x
  else
    { latency := x.latency ++ [service]
      rate := if payload > 0 then x.rate ++ [bytesPerSecond payload service] else x.rate }

def Samples.append (x y : Samples) : Samples := ⟨x.latency ++ y.latency, x.rate ++ y.rate⟩

def Tally.flush (t : Tally ι) (i : ι) : Tally ι :=
  { t with
    pending := Function.update t.pending i fun _ => ⟨[], []⟩
    merged := fun cls => (t.merged cls).append (t.pending i cls) }

def Tally.step (t : Tally ι) : Action ι → Tally ι
  | .noteFile i cls _ payload service =>
    { t with pending := setEntry t.pending i cls ((t.pending i cls).note payload service) }
  | .flush i => t.flush i
  | .rateWindow bytes elapsed =>
    if elapsed = 0 then t else { t with windows := t.windows ++ [bytesPerSecond bytes elapsed] }
  | .get i => t.flush i

def Tally.init : Tally ι := ⟨fun _ _ => ⟨[], []⟩, fun _ => ⟨[], []⟩, []⟩

/-- The samples of a run. -/
def tally (as : List (Action ι)) : Tally ι := as.foldl Tally.step .init

end Runs

/-- The accumulator of these samples. -/
structure ClassAccum.Holds (a : ClassAccum) (x : Samples) : Prop where
  latency : a.latency.Holds x.latency
  rate : a.rate.Holds x.rate
  count : a.count = UInt64.ofNat x.latency.length

namespace ClassAccum.Holds
variable {a b : ClassAccum} {x y : Samples}

theorem empty : ClassAccum.empty.Holds ⟨[], []⟩ := ⟨.empty, .empty, rfl⟩

theorem note (h : a.Holds x) (hrate : x.rate.length ≤ x.latency.length)
    (hlen : x.latency.length + 1 < 2 ^ 64) (logical payload service : UInt64) :
    (noteFile a logical payload service).Holds (x.note payload service) := by
  unfold noteFile Samples.note
  by_cases hzero : service = 0
  · rw [if_pos hzero, if_pos hzero]
    exact h
  · rw [if_neg hzero, if_neg hzero]
    refine ⟨h.latency.add hlen, ?_, ?_⟩
    · dsimp only
      by_cases hpayload : payload > 0
      · rw [if_pos hpayload, if_pos hpayload]
        exact h.rate.add (by omega)
      · rw [if_neg hpayload, if_neg hpayload]
        exact h.rate
    · show a.count + 1 = _
      rw [h.count, List.length_append, UInt64.ofNat_add]
      rfl

theorem flush (h : a.Holds x) (g : b.Holds y)
    (hlen : x.latency.length + y.latency.length < 2 ^ 64)
    (hx : x.rate.length ≤ x.latency.length) (hy : y.rate.length ≤ y.latency.length) :
    (flushClass a b).1.Holds (x.append y) ∧ (flushClass a b).2.Holds ⟨[], []⟩ := by
  have hlat := h.latency.merge g.latency hlen
  have hrate := h.rate.merge g.rate (by omega)
  refine ⟨⟨hlat.1, hrate.1, ?_⟩, ⟨hlat.2, hrate.2, rfl⟩⟩
  show a.count + b.count = _
  rw [h.count, g.count, Samples.append, List.length_append, UInt64.ofNat_add]

end ClassAccum.Holds

section Refinement
variable {ι : Type} [DecidableEq ι] [Fintype ι]

/-- How many samples of a class there are. -/
def Tally.size (t : Tally ι) (cls : TransferClass) : ℕ :=
  (t.merged cls).latency.length + total (fun x => (x cls).latency.length) t.pending

/-- A state that holds the samples, of which there are at most `n` for each class. -/
structure Refines (n : ℕ) (s : State ι) (t : Tally ι) : Prop where
  classes : ∀ cls, (s.classes cls).Holds (t.merged cls)
  tls : ∀ i cls, (s.tls i cls).Holds (t.pending i cls)
  rate : s.rate.Holds t.windows
  few : ∀ cls, t.size cls ≤ n
  fewWindows : t.windows.length ≤ n
  mergedRate : ∀ cls, (t.merged cls).rate.length ≤ (t.merged cls).latency.length
  pendingRate : ∀ i cls, (t.pending i cls).rate.length ≤ (t.pending i cls).latency.length

theorem length_note (x : Samples) (payload service : UInt64) :
    (x.note payload service).latency.length ≤ x.latency.length + 1 ∧
      (x.rate.length ≤ x.latency.length →
        (x.note payload service).rate.length ≤ (x.note payload service).latency.length) := by
  unfold Samples.note
  split_ifs
  · exact ⟨Nat.le_succ _, id⟩
  · simp
  · simp only [List.length_append, List.length_singleton]
    exact ⟨le_refl _, fun h => by omega⟩

omit [DecidableEq ι] in
theorem refines_init : Refines 0 (State.init : State ι) Tally.init := by
  refine ⟨fun _ => .empty, fun _ _ => .empty, .empty, ?_, Nat.le_refl 0, fun _ => Nat.le_refl 0,
    fun _ _ => Nat.le_refl 0⟩
  intro cls
  simp [Tally.size, Tally.init, total]

variable {n : ℕ} {s : State ι} {t : Tally ι}

omit [DecidableEq ι] in
theorem pending_le_size (t : Tally ι) (i : ι) (cls : TransferClass) :
    (t.merged cls).latency.length + (t.pending i cls).latency.length ≤ t.size cls := by
  unfold Tally.size total
  have hone := Finset.single_le_sum (f := fun j => (t.pending j cls).latency.length)
    (fun _ _ => Nat.zero_le _) (Finset.mem_univ i)
  exact Nat.add_le_add_left hone _

omit [Fintype ι] in
/-- Two tables stay related when related entries are replaced. -/
theorem setEntry_rel {β γ : Type} {R : β → γ → Prop} {f : ι → TransferClass → β}
    {g : ι → TransferClass → γ} {i : ι} {cls : TransferClass} {x : β} {y : γ} (hx : R x y)
    (h : ∀ j c, R (f j c) (g j c)) : ∀ j c, R (setEntry f i cls x j c) (setEntry g i cls y j c) := by
  intro j c
  unfold setEntry
  by_cases hj : j = i
  · subst hj
    rw [Function.update_self, Function.update_self]
    by_cases hc : c = cls
    · subst hc
      rwa [Function.update_self, Function.update_self]
    · rw [Function.update_of_ne hc, Function.update_of_ne hc]
      exact h j c
  · rw [Function.update_of_ne hj, Function.update_of_ne hj]
    exact h j c

theorem Refines.noteFile (h : Refines n s t) (hn : n + 1 < 2 ^ 64) (i : ι) (cls : TransferClass)
    (logical payload service : UInt64) :
    Refines (n + 1) (step s (.noteFile i cls logical payload service))
      (t.step (.noteFile i cls logical payload service)) := by
  have hroom := (pending_le_size t i cls).trans (h.few cls)
  have hlen := length_note (t.pending i cls) payload service
  refine ⟨h.classes, ?_, h.rate, ?_, Nat.le_succ_of_le h.fewWindows, h.mergedRate, ?_⟩
  · have hentry := (h.tls i cls).note (h.pendingRate i cls) (by omega) logical payload service
    exact setEntry_rel (R := ClassAccum.Holds) hentry h.tls
  · intro c
    have hfew := h.few c
    have htotal := total_update (fun x => (x c).latency.length) t.pending i
      (Function.update (t.pending i) cls ((t.pending i cls).note payload service))
    have hone : (Function.update (t.pending i) cls ((t.pending i cls).note payload service)
        c).latency.length ≤ (t.pending i c).latency.length + 1 := by
      by_cases hc : c = cls
      · subst hc
        rw [Function.update_self]
        exact hlen.1
      · rw [Function.update_of_ne hc]
        exact Nat.le_succ _
    unfold Tally.size at hfew ⊢
    show (t.merged c).latency.length + total _ (Function.update t.pending i _) ≤ n + 1
    omega
  · exact setEntry_rel (R := fun x _ : Samples => x.rate.length ≤ x.latency.length)
      (g := t.pending) (y := t.pending i cls) (hlen.2 (h.pendingRate i cls)) h.pendingRate

theorem Refines.flush (h : Refines n s t) (hn : n < 2 ^ 64) (i : ι) :
    Refines n (telemetryFlushThread s i) (t.flush i) := by
  have hmerge : ∀ cls, (flushClass (s.classes cls) (s.tls i cls)).1.Holds
      ((t.merged cls).append (t.pending i cls)) ∧
        (flushClass (s.classes cls) (s.tls i cls)).2.Holds ⟨[], []⟩ := by
    intro cls
    have hroom := (pending_le_size t i cls).trans (h.few cls)
    exact (h.classes cls).flush (h.tls i cls) (by omega) (h.mergedRate cls) (h.pendingRate i cls)
  refine ⟨fun cls => (hmerge cls).1, ?_, h.rate, ?_, h.fewWindows, ?_, ?_⟩
  · intro j cls
    show (Function.update s.tls i _ j cls).Holds (Function.update t.pending i _ j cls)
    by_cases hj : j = i
    · subst hj
      rw [Function.update_self, Function.update_self]
      exact (hmerge cls).2
    · rw [Function.update_of_ne hj, Function.update_of_ne hj]
      exact h.tls j cls
  · -- what one thread gives up the merged samples gain
    intro cls
    have hfew := h.few cls
    have htotal := total_update (fun x => (x cls).latency.length) t.pending i fun _ => ⟨[], []⟩
    unfold Tally.size at hfew ⊢
    show ((t.merged cls).append (t.pending i cls)).latency.length +
      total _ (Function.update t.pending i _) ≤ n
    rw [Samples.append, List.length_append]
    dsimp only [List.length_nil] at htotal
    omega
  · intro cls
    have hmerged := h.mergedRate cls
    have hpending := h.pendingRate i cls
    show ((t.merged cls).append (t.pending i cls)).rate.length ≤
      ((t.merged cls).append (t.pending i cls)).latency.length
    rw [Samples.append, List.length_append, List.length_append]
    omega
  · intro j cls
    show (Function.update t.pending i _ j cls).rate.length ≤
      (Function.update t.pending i _ j cls).latency.length
    by_cases hj : j = i
    · subst hj
      rw [Function.update_self]
    · rw [Function.update_of_ne hj]
      exact h.pendingRate j cls

omit [DecidableEq ι] in
theorem Refines.more (h : Refines n s t) : Refines (n + 1) s t :=
  ⟨h.classes, h.tls, h.rate, fun cls => Nat.le_succ_of_le (h.few cls),
    Nat.le_succ_of_le h.fewWindows, h.mergedRate, h.pendingRate⟩

/-- One call adds at most one sample of a kind. -/
theorem Refines.step (h : Refines n s t) (hn : n + 1 < 2 ^ 64) (a : Action ι) :
    Refines (n + 1) (step s a) (t.step a) := by
  cases a with
  | noteFile i cls logical payload service => exact h.noteFile hn i cls logical payload service
  | flush i => exact (h.flush (by omega) i).more
  | get i => exact (h.flush (by omega) i).more
  | rateWindow bytes elapsed =>
    unfold Telemetry.step Tally.step
    dsimp only
    by_cases hzero : elapsed = 0
    · rw [if_pos hzero, if_pos hzero]
      exact h.more
    · rw [if_neg hzero, if_neg hzero]
      have hwindows := h.fewWindows
      refine ⟨h.classes, h.tls, h.rate.add (by omega), h.more.few, ?_, h.mergedRate,
        h.pendingRate⟩
      rw [List.length_append, List.length_singleton]
      exact Nat.succ_le_succ hwindows

theorem refines_run (as : List (Action ι)) (hlen : as.length < 2 ^ 64) :
    Refines as.length (run as) (tally as) := by
  induction as using List.reverseRecOn with
  | nil => exact refines_init
  | append_singleton as a ih =>
    rw [List.length_append, List.length_singleton] at hlen ⊢
    unfold run tally
    rw [List.foldl_concat, List.foldl_concat]
    exact (ih (by omega)).step hlen a

end Refinement

def ClassSummary.latencyFigures (c : ClassSummary) : List UInt64 :=
  [c.latencyMinNs, c.latencyP50Ns, c.latencyP95Ns, c.latencyP99Ns, c.latencyMaxNs]

def ClassSummary.rateFigures (c : ClassSummary) : List UInt64 :=
  [c.rateMinBps, c.rateP10Bps, c.rateP50Bps, c.rateP90Bps, c.rateP99Bps, c.rateMaxBps]

def RateSummary.figures (r : RateSummary) : List UInt64 :=
  [r.minBps, r.p10Bps, r.p50Bps, r.p90Bps, r.p99Bps, r.maxBps]

/-- From the minimum to the maximum no figure falls. -/
def Ascending (figures : List UInt64) : Prop := figures.IsChain (· ≤ ·)

instance (figures : List UInt64) : Decidable (Ascending figures) :=
  inferInstanceAs (Decidable (figures.IsChain (· ≤ ·)))

/-- After any calls of any threads, each summary that `telemetry_get` returns with a sample is in
order exactly when the samples merged by then satisfy the condition. -/
theorem summaries_ascending_iff {ι : Type} [DecidableEq ι] [Fintype ι] (as : List (Action ι))
    (hlen : as.length < 2 ^ 64) (i : ι) :
    let out := (telemetryGet (run as) i).2
    let samples := (tally as).flush i
    (∀ cls, (out.1 cls).count ≠ 0 →
      (Ascending (out.1 cls).latencyFigures ↔ InOrder (samples.merged cls).latency [50, 95, 99])) ∧
    (∀ cls, (out.1 cls).rateSamples ≠ 0 →
      (Ascending (out.1 cls).rateFigures ↔ InOrder (samples.merged cls).rate [10, 50, 90, 99])) ∧
    (out.2.samples ≠ 0 →
      (Ascending out.2.figures ↔ InOrder samples.windows [10, 50, 90, 99])) := by
  have h := (refines_run as hlen).flush hlen i
  have hroom : ∀ cls, (((tally as).flush i).merged cls).latency.length < 2 ^ 64 := by
    intro cls
    have hsize := (pending_le_size ((tally as).flush i) i cls).trans (h.few cls)
    omega
  have hall : ∀ q ∈ ([10, 50, 90, 99] : List UInt64), q.toNat ≤ 100 := by simp
  refine ⟨fun cls hcount => ?_, fun cls hcount => ?_, fun hcount => ?_⟩
  · have hne : (((tally as).flush i).merged cls).latency ≠ [] := by
      intro hnil
      apply hcount
      show ((telemetryFlushThread (run as) i).classes cls).count = 0
      rw [(h.classes cls).count, hnil]
      rfl
    have hall : ∀ q ∈ ([50, 95, 99] : List UInt64), q.toNat ≤ 100 := by simp
    exact summary_ascending_iff (h.classes cls).latency (hroom cls) hne hall
  · have hrate := h.mergedRate cls
    exact summary_ascending_iff (h.classes cls).rate (by have := hroom cls; omega)
      ((h.classes cls).rate.ne_nil hcount) hall
  · have hfew := h.fewWindows
    exact summary_ascending_iff h.rate (by omega) (h.rate.ne_nil hcount) hall

theorem one_file_on_its_floor :
    let run := run [Action.noteFile () .small 4096 4096 960]
    Ascending ((telemetryGet run ()).2.1 .small).latencyFigures ↔ InOrder [960] [50, 95, 99] :=
  (summaries_ascending_iff [.noteFile () .small 4096 4096 960] (by decide) ()).1 .small
    (by decide +kernel)

/-- One file of a thousand nanoseconds: half of the files take at most 960, and none takes less
than 1000. -/
theorem one_file_out_of_order :
    ¬ ∀ as : List (Action Unit), ∀ cls, ((telemetryGet (run as) ()).2.1 cls).count ≠ 0 →
      Ascending ((telemetryGet (run as) ()).2.1 cls).latencyFigures := by
  intro h
  exact absurd (h [.noteFile () .small 4096 4096 1000] .small (by decide +kernel))
    (by decide +kernel)

end Ecopy.Telemetry
