import Ecopy.Workers.SchedulerSteps

/-!
# Wakeups of the copy scheduler

The wakes sent to parked workers are rationed. What keeps work from being
stranded is the last worker to park: all other workers sleep without a slot, so
what it has just tested is the state it leaves behind, up to its own small slot.
It gives that slot back after the test for a large file. The test still counted
the slot, and this matters in one case only: when one more large file would fill
the pool exactly, so that the cost of a large file divides the worker count.

`Watched` is what is preserved in every pool. Where large files never fill the
pool exactly it is `Alert`; remote pools have no large files and are not
affected.
-/
namespace Ecopy.Workers.Scheduler
open Lib.Runs Lib.Threads
open Config (RuntimeConfig)
open Heap (Entry heapPush heapPopMax)

variable {P : Pool}

/-- Every worker is parked for good or gone, and one is parked. -/
def State.Quiet (s : State P) : Prop :=
  (∃ i, s.pc i = .parked) ∧ ∀ i, s.pc i = .parked ∨ s.pc i = .exited

structure Alert (s : State P) : Prop where
  terminal : s.terminal → ∀ i, s.pc i ≠ .parked
  quiet : s.Quiet → ¬s.largeClaimable ∧ ¬s.smallClaimable

/-- Large files never fill the pool exactly, or there are none. -/
def Pool.Uneven (P : Pool) : Prop :=
  P.remote = true ∨ ¬P.config.largeWorkerCount ∣ P.workers

instance (P : Pool) : Decidable P.Uneven := by
  unfold Pool.Uneven
  infer_instance

variable {s : State P}

theorem Alert.not_stranded (h : Alert s) : ¬s.Stranded := by
  rintro ⟨hsome, hall, hc | hc | hc⟩
  · exact (h.quiet ⟨hsome, hall⟩).1 hc
  · exact (h.quiet ⟨hsome, hall⟩).2 hc
  · obtain ⟨i, hi⟩ := hsome
    exact h.terminal hc i hi

/-- One more large file would take every slot that is not used by others. -/
def State.Filled (s : State P) : Prop :=
  s.largeHeap ≠ [] ∧ P.workers = (s.largeWorkersActive + 1) * P.config.largeWorkerCount

/-- The end is not missed, and what a quiet pool leaves claimable is a large
file that fills it. -/
structure Watched (s : State P) : Prop where
  terminal : s.terminal → ∀ i, s.pc i ≠ .parked
  quiet : s.Quiet → s.largeClaimable ∨ s.smallClaimable → s.Filled

variable {i : Fin P.workers} {u : State P}

theorem Watched.of_awake (hp : s.pc i ≠ .parked) (he : s.pc i ≠ .exited) (ht : ¬s.terminal) :
    Watched s where
  terminal := fun h => absurd h ht
  quiet := fun h => absurd (h.2 i) (by simp [hp, he])

theorem Watched.of_no_parked (h : ∀ i, s.pc i ≠ .parked) : Watched s where
  terminal := fun _ => h
  quiet := fun hq => absurd hq.1.choose_spec (h _)

theorem Watched.update_awake (h : Watched s) {c : Pc} (hc : c ≠ .parked) (he : c ≠ .exited) :
    Watched { s with pc := Function.update s.pc i c } where
  terminal := by
    intro ht k hk
    dsimp only at hk
    by_cases hki : k = i
    · rw [hki, Function.update_self] at hk
      exact hc hk
    · rw [Function.update_of_ne hki] at hk
      exact h.terminal ht k hk
  quiet := by
    intro hq
    have hi := hq.2 i
    dsimp only at hi
    rw [Function.update_self] at hi
    exact absurd hi (by simp [hc, he])

/-- The last worker to park leaves nothing claimable behind, unless its own slot
was what kept a large file from fitting. -/
theorem filled_of_park (hslots : Slots s) (hlarge : ¬s.largeClaimable)
    (hsmall : ¬(0 < s.smallQ.len ∧ (s.smallSlot i = true ∨ s.smallClaimable)))
    (hothers : ∀ k, k ≠ i → (s.pc k).slotless) {u : State P} (hq : u.smallQ = s.smallQ)
    (hheap : u.largeHeap = s.largeHeap) (hla : u.largeWorkersActive = s.largeWorkersActive)
    (hact : u.smallWorkersActive = s.smallWorkersActive - (s.smallSlot i).toNat)
    (hclaim : u.largeClaimable ∨ u.smallClaimable) : u.Filled := by
  have hown : s.smallWorkersActive = (s.smallSlot i).toNat := by
    have hzero : count id (Function.update s.smallSlot i false) = 0 := by
      apply count_eq_zero_iff.mpr
      intro k
      by_cases hki : k = i
      · rw [hki, Function.update_self]
        rfl
      · rw [Function.update_of_ne hki]
        exact hslots.resting k (hothers k hki)
    have hrelease := count_release s.smallSlot i
    have hone := toNat_le_count id s.smallSlot i
    rw [← hslots.counted] at hrelease hone
    rw [id] at hone
    omega
  rw [hown, Nat.sub_self] at hact
  unfold State.Filled
  unfold State.largeClaimable State.smallClaimable State.slotsUsed at *
  rw [hq, hheap, hla, hact, Nat.zero_add] at hclaim
  cases hslot : s.smallSlot i with
  | false =>
    rw [hslot, Bool.toNat_false] at hown
    rw [hown, Nat.zero_add] at hlarge hsmall
    rcases hclaim with hclaim | hclaim
    · exact absurd hclaim hlarge
    · exact absurd ⟨hclaim.1, Or.inr hclaim⟩ hsmall
  | true =>
    rw [hslot, Bool.toNat_true] at hown
    rw [hown] at hlarge
    rcases hclaim with hclaim | hclaim
    · -- the slot given back was the one missing, so the large files fill the pool
      have hfull : ¬(1 + s.largeWorkersActive * P.config.largeWorkerCount +
          P.config.largeWorkerCount ≤ P.workers) := fun hle => hlarge ⟨hclaim.1, hclaim.2.1, hle⟩
      have hfits := hclaim.2.2
      rw [hheap, hla, Nat.succ_mul]
      exact ⟨List.ne_nil_of_length_pos hclaim.1, by omega⟩
    · exact absurd ⟨hclaim.1, Or.inl hslot⟩ hsmall

/-- A slice that leaves something claimable is worth at least one wake, as long
as somebody waits. -/
theorem wakesFor_pos (hL : 0 < P.config.largeWorkerCount) (hw : 0 < s.queueWaiters)
    (hc : s.largeClaimable ∨ s.smallClaimable) : 0 < wakesFor s := by
  unfold wakesFor
  dsimp only
  by_cases hlarge : s.largeClaimable
  · obtain ⟨hheap, hact, hfit⟩ := hlarge
    have hfree : P.workers - s.slotsUsed ≥ P.config.largeWorkerCount := by omega
    have hdiv : 0 < (P.workers - s.slotsUsed) / P.config.largeWorkerCount :=
      Nat.div_pos hfree hL
    rw [if_pos ⟨hheap, hact, hfree⟩]
    refine lt_min ?_ hw
    refine Nat.add_pos_left ?_ _
    refine lt_min (lt_min ?_ hheap) hdiv
    omega
  · obtain ⟨hlen, hact, hfit⟩ := hc.resolve_left hlarge
    have hno : ¬(0 < s.largeHeap.length ∧
        s.largeWorkersActive < P.config.maxActiveLargeFiles ∧
        P.workers - s.slotsUsed ≥ P.config.largeWorkerCount) := by
      rintro ⟨h₁, h₂, h₃⟩
      exact hlarge ⟨h₁, h₂, by omega⟩
    rw [if_neg hno, Nat.zero_mul, Nat.sub_zero, Nat.zero_add]
    have hfree : 0 < P.workers - s.slotsUsed := by omega
    rw [if_pos ⟨hlen, hfree⟩]
    refine lt_min (lt_min (lt_min ?_ ?_) hfree) hw
    · omega
    · have hbatch : smallClaimBatch = 8 := rfl
      exact Nat.div_pos (by omega) (by omega)

/-- Signals that are worth sending leave nobody quiet with work to claim. -/
theorem Watched.slice (hL : 0 < P.config.largeWorkerCount) (h : Watched s) (hwaiters : Waiters s)
    {wakes : List (Option (Fin P.workers))} (hgrow : u.terminal → s.terminal)
    (hcount : wakes.length = wakesFor u) (hwait : u.queueWaiters = s.queueWaiters)
    (hsig : signals .parked .woken s.pc wakes = some u.pc) : Watched u := by
  have hback : ∀ j, u.pc j = .parked → s.pc j = .parked := by
    intro j hj
    obtain hs | ⟨hs, -⟩ := signals_apply hsig j
    · rw [← hs]
      exact hj
    · exact hs
  constructor
  · intro ht j hj
    exact h.terminal (hgrow ht) j (hback j hj)
  · intro hquiet hclaim
    obtain ⟨j, hj⟩ := hquiet.1
    have hparked : s.pc j = .parked := hback j hj
    have hsome : 0 < u.queueWaiters := by
      have hone := toNat_le_count Pc.waiting s.pc j
      rw [hparked, Pc.waiting_parked, Bool.toNat_true, ← hwaiters, ← hwait] at hone
      exact hone
    have hpos : 0 < wakesFor u := wakesFor_pos hL hsome hclaim
    have hne : wakes ≠ [] := by
      intro hnil
      rw [← hcount, hnil, List.length_nil] at hpos
      exact absurd hpos (lt_irrefl 0)
    obtain ⟨m, -, hm⟩ := signals_exists_awake hsig (by simp) hne hparked
    have hbad := hquiet.2 m
    rw [hm] at hbad
    rcases hbad with hbad | hbad <;> cases hbad

theorem Watched.step {a : Act P} (hL : 0 < P.config.largeWorkerCount) (hslots : Slots s)
    (hwaiters : Waiters s) (h : Watched s) (hu : Step s a u) : Watched u := by
  have hslots' := hslots.step hu
  cases hu with
  | @refill i t rest ready stash =>
    have hsame : Watched { s with
        stash := Function.update s.stash i rest
        handed := s.handed ++ [t] } := ⟨h.terminal, h.quiet⟩
    exact hsame.update_awake (by simp) (by simp)
  | @large i wake e rest pr looping fits pop wakes =>
    apply Watched.of_awake (i := i)
    · simp
    · simp
    · simp [State.terminal]
  | @small i wake b q t stash pr looping no_large some_small slot pop run wakes =>
    apply Watched.of_awake (i := i)
    · simp
    · simp
    · intro ht
      have hone := toNat_le_count id (Function.update s.smallSlot i true) i
      have hcounted := hslots'.counted
      have hzero := ht.2.2.2.1
      dsimp only at hcounted hzero
      rw [← hcounted, hzero, Function.update_self] at hone
      exact absurd hone (by decide)
  | @exit i looping no_large finished =>
    apply Watched.of_no_parked
    intro k
    dsimp only
    by_cases hki : k = i
    · rw [hki, Function.update_self]
      exact Pc.noConfusion
    · rw [Function.update_of_ne hki]
      split_ifs with hslot
      · exact broadcast_ne_parked (by simp) s.pc k
      · -- without a slot of its own the run had ended before
        rw [Bool.not_eq_true] at hslot
        unfold State.finished at finished
        rw [hslot, Bool.toNat_false, Nat.sub_zero] at finished
        exact h.terminal finished k
  | @park i looping no_large no_small unfinished =>
    constructor
    · intro ht
      exact absurd ht unfinished
    · rintro ⟨-, hall⟩ hclaim
      refine filled_of_park hslots no_large no_small (fun k hki => ?_) rfl rfl rfl rfl hclaim
      have hk := hall k
      dsimp only at hk
      rw [Function.update_of_ne hki] at hk
      rcases hk with hk | hk
      · exact Or.inl hk
      · exact Or.inr (Or.inr hk)
  | copied copying => exact h.update_awake (by simp) (by simp)
  | started starting =>
    have hsame : Watched { s with pipelines := s.pipelines + 1 } := ⟨h.terminal, h.quiet⟩
    exact hsame.update_awake (by simp) (by simp)
  | startFailed starting =>
    exact Watched.of_no_parked fun k => broadcast_ne_parked (by simp) _ k
  | finishLarge running =>
    exact Watched.of_no_parked fun k => broadcast_ne_parked (by simp) _ k
  | stop => exact Watched.of_no_parked fun k => broadcast_ne_parked (by simp) _ k
  | submit idle nonempty => exact ⟨h.terminal, h.quiet⟩
  | waitSpace active full => exact ⟨h.terminal, h.quiet⟩
  | @slice k batch wakes take heap seq small q pc active room taken split push count signal =>
    refine h.slice hL hwaiters ?_ count rfl signal
    -- a queue that is empty now was empty before
    rintro ⟨hd, hz, hhz, ha, hla⟩
    dsimp only at hd hz hhz ha hla
    have hlen := length_distribute (P := P) (batch.take take) s.largeHeap s.enqueueSeq
    rw [split] at hlen
    dsimp only at hlen
    subst push
    split_ifs at hz with hsmall
    · refine ⟨hd, hz, ?_, ha, hla⟩
      rw [hsmall, List.length_nil] at hlen
      omega
    · have hpos := List.length_pos_iff.mpr hsmall
      simp only [smallqPushBatch, DirBatch.count] at hz
      omega
  | abandon pending => exact ⟨h.terminal, h.quiet⟩
  | reserveFailed woken room large => exact ⟨h.terminal, h.quiet⟩
  | spuriousWorker parked => exact h.update_awake (by simp) (by simp)
  | spuriousProducer parked => exact ⟨h.terminal, h.quiet⟩

/-- What every reachable state satisfies, in every pool. -/
structure Tended (s : State P) : Prop where
  slots : Slots s
  waiters : Waiters s
  watched : Watched s
  remote : P.remote = true → s.largeHeap = []

theorem Tended.start (P : Pool) : Tended (State.start P) where
  slots := ⟨by simp [State.start, count, total], fun i h => rfl⟩
  waiters := by simp [Waiters, State.start, count, total]
  watched := Watched.of_no_parked fun i => nofun
  remote := fun _ => rfl

theorem distribute_remote (hr : P.remote = true) (ts : List Task) (heap : List (Entry Task))
    (seq : ℕ) : (distribute P ts heap seq).1 = heap := by
  induction ts generalizing heap seq with
  | nil => rfl
  | cons t ts ih =>
    have hsmall : taskUsesLargePipeline P t = false := by simp [taskUsesLargePipeline, hr]
    simp only [distribute, hsmall, Bool.false_eq_true, if_false]
    exact ih _ _

theorem largeHeap_remote {a : Act P} (hr : P.remote = true) (h : s.largeHeap = [])
    (hu : Step s a u) : u.largeHeap = [] := by
  cases hu with
  | large looping fits pop wakes =>
    rw [h] at pop
    cases pop
  | @slice k batch wakes take heap seq small q pc active room taken split push count signal =>
    have hheap := distribute_remote hr (batch.take take) s.largeHeap s.enqueueSeq
    rw [split, h] at hheap
    exact hheap
  | _ => exact h

theorem Tended.step {a : Act P} (hL : 0 < P.config.largeWorkerCount) (h : Tended s)
    (hu : Scheduler.step s a = some u) : Tended u where
  slots := h.slots.step (step_step hu)
  waiters := h.waiters.step (step_step hu)
  watched := h.watched.step hL h.slots h.waiters (step_step hu)
  remote := fun hr => largeHeap_remote hr (h.remote hr) (step_step hu)

theorem Tended.alert (h : Tended s) (hP : P.Uneven) : Alert s where
  terminal := h.watched.terminal
  quiet := by
    intro hq
    rw [← not_or]
    intro hclaim
    obtain ⟨hheap, hfill⟩ := h.watched.quiet hq hclaim
    rcases hP with hremote | hdiv
    · exact hheap (h.remote hremote)
    · exact hdiv ⟨s.largeWorkersActive + 1, by rw [hfill, Nat.mul_comm]⟩

/-- The pool that a run starts from an environment, a target and a number of
traversal threads. -/
def Pool.ofEnv (env : Config.Env) (remote : Bool) (producers : ℕ) : Pool where
  config := Config.workersStart remote (Config.initRuntimeConfig env)
  remote := remote
  producers := producers

theorem Pool.ofEnv_largeWorkerCount_pos (env : Config.Env) (remote : Bool) (producers : ℕ) :
    0 < (Pool.ofEnv env remote producers).config.largeWorkerCount := by
  obtain ⟨hr, hw, hsum, -⟩ := Config.initRuntimeConfig_feasible env
  simp only [Pool.ofEnv, Config.workersStart_largeWorkerCount]
  omega

/-- In a pool that large files never fill exactly, or that has none, no run
strands work or misses the end. -/
theorem never_stranded (env : Config.Env) (remote : Bool) (producers : ℕ)
    (hP : (Pool.ofEnv env remote producers).Uneven) (s : State (Pool.ofEnv env remote producers))
    (h : Reachable step (State.start _) s) : ¬s.Stranded := by
  have hL := Pool.ofEnv_largeWorkerCount_pos env remote producers
  have htended : Tended s := h.invariant (.start _) fun s a u hs hu => hs.step hL hu
  exact (htended.alert hP).not_stranded

/-- Two workers, so that one large file fills the pool. -/
def twoWorkers : Config.Env := fun v => if v = .maxWorkers then .int 2 else .unset

/-- Three workers and large files that cost two slots. -/
def threeWorkers : Config.Env := fun v =>
  match v with
  | .maxWorkers => .int 3
  | .largeReaders => .int 1
  | .largeWriters => .int 1
  | _ => .unset

def smallFile : Task := ⟨0, 5, 8, false⟩
def largeFile : Task := ⟨1, 20971520, 40960, false⟩

theorem never_stranded_threeWorkers :
    ∃ s : State (Pool.ofEnv threeWorkers false 1), Reachable step (State.start _) s ∧
      (∃ i, s.pc i = .parked) ∧ ¬s.Stranded := by
  let acts : List (Act (Pool.ofEnv threeWorkers false 1)) :=
    [.dequeue ⟨0, by decide⟩ none, .submit ⟨0, by decide⟩ [largeFile],
      .enqueue ⟨0, by decide⟩ [some ⟨0, by decide⟩], .dequeue ⟨0, by decide⟩ none,
      .dequeue ⟨1, by decide⟩ none]
  have hr : exec step (State.start _) acts = some ((exec step (State.start _) acts).getD
      (State.start _)) := rfl
  exact ⟨_, ⟨_, hr⟩, ⟨⟨1, by decide⟩, rfl⟩,
    never_stranded threeWorkers false 1 (by decide) _ ⟨_, hr⟩⟩

/-- Worker 0 copies the small file while the large one is queued. Nothing is
left to enqueue, so the queue is closed; worker 1 wakes, finds no room for the
large file and parks again. Worker 0 runs dry, tests for the large file with its
own slot still counted, gives the slot back and parks. -/
def strandedLarge : List (Act (Pool.ofEnv twoWorkers false 1)) :=
  [.dequeue ⟨0, by decide⟩ none, .dequeue ⟨1, by decide⟩ none,
    .submit ⟨0, by decide⟩ [smallFile], .enqueue ⟨0, by decide⟩ [some ⟨0, by decide⟩],
    .dequeue ⟨0, by decide⟩ none, .submit ⟨0, by decide⟩ [largeFile], .enqueue ⟨0, by decide⟩ [],
    .workersStop, .dequeue ⟨1, by decide⟩ none, .copied ⟨0, by decide⟩,
    .dequeue ⟨0, by decide⟩ none]

theorem two_workers_strand_large :
    ∃ s : State (Pool.ofEnv twoWorkers false 1), Reachable step (State.start _) s ∧
      (∀ i, s.pc i = .parked) ∧ s.largeClaimable := by
  have hr : exec step (State.start _) strandedLarge =
      some ((exec step (State.start _) strandedLarge).getD (State.start _)) := rfl
  exact ⟨_, ⟨_, hr⟩, by decide, by decide⟩

end Ecopy.Workers.Scheduler
