import Ecopy.Verify.PipelineSteps

/-!
# Every queued item is verified once

Items are counted over the places they can be in: the intake list, the
directory list, the feeder's batch and generation, the list being released, the
pool queue, the workers, and the lists of verified and dropped items. No move
changes that count except by queueing a new item. At the end all places but the
last two are empty, and only directories are ever dropped.

`g_pending_count` counts the intake list and the batch that the feeder has taken
and not yet subtracted. A producer parks only on a full intake, and whoever
lowers the count wakes all that are parked.
-/
namespace Ecopy.Verify.Pipeline
open Protocol (Bytes)
open Lib.Runs Lib.Threads

variable {c : Config}

/-- No item of an earlier batch is followed by another batch. -/
def FeederPc.final : FeederPc → Bool
  | .busy _ _ task => task.stop
  | .exited => true
  | _ => false

/-- The generation is on its way out or was never there. -/
def FeederPc.released : FeederPc → Bool
  | .busy _ _ (.flush _) => true
  | .exited => true
  | _ => false

theorem FeederPc.wake_same (f : FeederPc) : f.wake.final = f.final ∧ f.wake.released = f.released ∧
    f.wake.rest = f.rest ∧ f.wake.stolen = f.stolen ∧ (f.wake = .exited ↔ f = .exited) := by
  cases f <;> simp [FeederPc.wake, FeederPc.final, FeederPc.released, FeederPc.rest,
    FeederPc.stolen]

theorem FeederPc.Idle.eqs {f : FeederPc} (h : f.Idle) :
    f.final = false ∧ f.released = false ∧ f.rest = [] ∧ f.stolen = 0 ∧ f ≠ .exited := by
  rcases h with rfl | rfl | rfl <;> simp [FeederPc.final, FeederPc.released, FeederPc.rest,
    FeederPc.stolen]

variable {s u : State c} {f w : Fin c.workers → WorkerPc} {x : Item}
  {wake : Option (Fin c.workers)}

theorem ProducerPc.AtLock.ne_idle {p : ProducerPc} (h : p.AtLock x) : p ≠ .idle := by
  rcases h with rfl | rfl <;> simp

theorem ProducerPc.wake_idle {p : ProducerPc} (h : p = .idle) : p.wake = .idle := by
  rw [h]
  rfl

theorem nextTask_final (gen : List Item) (timedOut stop : Bool) :
    (nextTask c gen timedOut stop).1.final = stop := by
  unfold nextTask
  split_ifs with hgen hstop
  · rfl
  · rw [hstop]
    rfl
  · simpa [FeederPc.final] using hstop

theorem nextTask_released (gen : List Item) (timedOut stop : Bool)
    (h : (nextTask c gen timedOut stop).1.released = true) :
    (nextTask c gen timedOut stop).2 = [] := by
  unfold nextTask at h ⊢
  split_ifs at h ⊢ with hgen hstop
  · rfl
  · by_contra hne
    exact hgen ⟨hne, Or.inr (Or.inr hstop)⟩
  · cases h

theorem nextTask_items (gen : List Item) (timedOut stop : Bool) (x : Item) :
    (nextTask c gen timedOut stop).1.rest.count x + (nextTask c gen timedOut stop).2.count x =
      gen.count x := by
  unfold nextTask
  split_ifs <;> simp [FeederPc.rest]

theorem nextTask_stolen (gen : List Item) (timedOut stop : Bool) :
    (nextTask c gen timedOut stop).1.stolen = 0 := by
  unfold nextTask
  split_ifs <;> rfl

/-- What each phase of the run guarantees. -/
structure Phases (s : State c) : Prop where
  idle : 1 ≤ s.main.phase → ∀ i, s.producer i = .idle
  stop : s.feederStop = true ↔ 1 ≤ s.main.phase
  last : s.feeder.final = true → s.intake = [] ∧ 1 ≤ s.main.phase
  gen : s.feeder.released = true → s.gen = []
  later : 2 ≤ s.main.phase → s.feeder = .exited ∧ s.dirs = []
  closed : s.poolStop = true ↔ 3 ≤ s.main.phase
  worker : ∀ j, s.worker j = .exited → s.poolStop = true ∧ s.queue = []
  drained : 4 ≤ s.main.phase → ∀ j, s.worker j = .exited

theorem Phases.start (c : Config) : Phases (State.start c) where
  idle := fun _ _ => rfl
  stop := ⟨nofun, nofun⟩
  last := nofun
  gen := nofun
  later := nofun
  closed := ⟨nofun, nofun⟩
  worker := nofun
  drained := nofun

/-- The feeder's state changes only within its list. -/
theorem Phases.feeder_eq (hs : Phases s) {f : FeederPc} (hfinal : f.final = s.feeder.final)
    (hreleased : f.released = s.feeder.released) (hexited : s.feeder = .exited → f = .exited) :
    Phases { s with feeder := f } where
  idle := hs.idle
  stop := hs.stop
  last := fun h => hs.last (hfinal.symm.trans h)
  gen := fun h => hs.gen (hreleased.symm.trans h)
  later := fun h => ⟨hexited (hs.later h).1, (hs.later h).2⟩
  closed := hs.closed
  worker := hs.worker
  drained := hs.drained

/-- The finishing thread moves within its phase. -/
theorem Phases.main_eq (hs : Phases s) {m : MainPc} (hphase : m.phase = s.main.phase) :
    Phases { s with main := m } where
  idle := fun h => hs.idle (hphase ▸ h)
  stop := by
    rw [hs.stop, ← hphase]
  last := fun h => ⟨(hs.last h).1, by rw [hphase]; exact (hs.last h).2⟩
  gen := hs.gen
  later := fun h => hs.later (hphase ▸ h)
  closed := by
    rw [hs.closed, ← hphase]
  worker := hs.worker
  drained := fun h => hs.drained (hphase ▸ h)

/-- A worker that moves on is one that had not left. -/
theorem worker_update {P : Prop} (h : ∀ j, f j = .exited → P) (j : Fin c.workers) {w : WorkerPc}
    (hw : w = .exited → P) (k : Fin c.workers) (hk : Function.update f j w k = .exited) : P := by
  by_cases hkj : k = j
  · rw [hkj, Function.update_self] at hk
    exact hw hk
  · rw [Function.update_of_ne hkj] at hk
    exact h k hk

/-- No wake makes a worker leave. -/
theorem signal_exited (h : signal .parked .woken f wake = some w) (k : Fin c.workers)
    (hk : w k = .exited) : f k = .exited := by
  obtain hsame | ⟨-, hwoken⟩ := signal_apply h k
  · exact hsame.symm.trans hk
  · rw [hwoken] at hk
    cases hk

theorem WorkerPc.Idle.ne_exited {w : WorkerPc} (h : w.Idle) : w ≠ .exited := by
  rcases h with rfl | rfl <;> simp

/-- While the pool is open nobody has left it. -/
theorem Phases.nobody (hs : Phases s) (hopen : s.main.phase ≤ 2) (j : Fin c.workers) :
    s.worker j ≠ .exited := by
  intro hj
  have hclosed := hs.closed.mp (hs.worker j hj).1
  omega

theorem Phases.early (hs : Phases s) {j : Fin c.workers} (h : s.worker j ≠ .exited) :
    s.main.phase ≤ 3 := by
  by_contra hlt
  exact h (hs.drained (by omega) j)

theorem Phases.fileAppend {i : Fin c.producers} {f : FeederPc} (hs : Phases s)
    (at_lock : (s.producer i).AtLock x) (woke : f = s.feeder ∨ f = s.feeder.wake) :
    Phases { s with
      intake := s.intake ++ [x]
      pending := s.pending + 1
      spaceWaiters := s.spaceWaiters - (s.producer i).waiting.toNat
      files := s.files ++ [x]
      producer := Function.update s.producer i .idle
      feeder := f } := by
  have hearly : ¬1 ≤ s.main.phase := fun h => at_lock.ne_idle (hs.idle h i)
  have hsame : f.final = s.feeder.final ∧ f.released = s.feeder.released := by
    rcases woke with rfl | rfl
    · exact ⟨rfl, rfl⟩
    · exact ⟨s.feeder.wake_same.1, s.feeder.wake_same.2.1⟩
  refine ⟨fun h => absurd h hearly, hs.stop, fun h => ?_, fun h => ?_, fun h => ?_, hs.closed,
    hs.worker, hs.drained⟩
  · exact absurd (hs.last (hsame.1.symm.trans h)).2 hearly
  · exact hs.gen (hsame.2.symm.trans h)
  · dsimp only at h
    omega

theorem Phases.producerWake {i : Fin c.producers} (hs : Phases s) :
    Phases { s with producer := Function.update s.producer i (s.producer i).wake } := by
  refine ⟨fun h k => ?_, hs.stop, hs.last, hs.gen, hs.later, hs.closed, hs.worker, hs.drained⟩
  have hall := hs.idle h
  dsimp only
  by_cases hki : k = i
  · rw [hki, Function.update_self]
    exact ProducerPc.wake_idle (hall i)
  · rw [Function.update_of_ne hki]
    exact hall k

theorem Phases.feederSubmit {rest : List Item} {sub : Sub} {task : Task} (hs : Phases s)
    (busy : s.feeder = .busy (x :: rest) sub task)
    (woke : signal .parked .woken s.worker wake = some w) :
    Phases { s with queue := s.queue ++ [x], worker := w, feeder := .busy rest .fresh task } := by
  have hopen : s.main.phase ≤ 2 := by
    by_contra hlater
    rw [(hs.later (by omega)).1] at busy
    cases busy
  have hnone : ∀ k, w k ≠ .exited := fun k hk => hs.nobody hopen k (signal_exited woke k hk)
  refine ⟨hs.idle, hs.stop, fun h => ?_, fun h => ?_, fun h => ?_, hs.closed,
    fun k hk => absurd hk (hnone k), fun h => ?_⟩
  · exact hs.last (by rw [busy]; exact h)
  · apply hs.gen
    rw [busy]
    cases task with
    | distribute n timedOut stop => cases h
    | flush stop => rfl
  · rw [(hs.later h).1] at busy
    cases busy
  · dsimp only at h
    omega

theorem Phases.account {sub : Sub} {n : ℕ} {timedOut stop : Bool}
    {p : Fin c.producers → ProducerPc} (hs : Phases s)
    (busy : s.feeder = .busy [] sub (.distribute n timedOut stop))
    (woke : (n = 0 ∨ s.spaceWaiters = 0) ∧ p = s.producer ∨ p = fun i => (s.producer i).wake) :
    Phases { s with
      pending := s.pending - n
      producer := p
      feeder := (nextTask c s.gen timedOut stop).1
      gen := (nextTask c s.gen timedOut stop).2 } := by
  refine ⟨fun h k => ?_, hs.stop, fun h => ?_, ?_, fun h => ?_, hs.closed, hs.worker,
    hs.drained⟩
  · have hall := hs.idle h
    rcases woke with ⟨-, rfl⟩ | rfl
    · exact hall k
    · exact ProducerPc.wake_idle (hall k)
  · rw [nextTask_final] at h
    apply hs.last
    rw [busy]
    exact h
  · exact nextTask_released s.gen timedOut stop
  · rw [(hs.later h).1] at busy
    cases busy

theorem Phases.flushed {sub : Sub} {stop : Bool} (hs : Phases s)
    (busy : s.feeder = .busy [] sub (.flush stop)) :
    Phases { s with feeder := if stop then .exited else .top } := by
  have hgen := hs.gen (by rw [busy]; rfl)
  refine ⟨hs.idle, hs.stop, fun h => ?_, fun _ => hgen, fun h => ?_, hs.closed, hs.worker,
    hs.drained⟩
  · apply hs.last
    rw [busy]
    cases stop with
    | true => rfl
    | false => cases h
  · rw [(hs.later h).1] at busy
    cases busy

theorem Phases.workerPop {j : Fin c.workers} {queue : List Item} (hs : Phases s)
    (idle : (s.worker j).Idle) (first : s.queue = x :: queue) :
    Phases { s with queue := queue, worker := Function.update s.worker j (.verifying x) } := by
  have hearly := hs.early idle.ne_exited
  have hnone : ∀ k, s.worker k ≠ .exited := by
    intro k hk
    rw [(hs.worker k hk).2] at first
    cases first
  refine ⟨hs.idle, hs.stop, hs.last, hs.gen, hs.later, hs.closed, ?_, fun h => ?_⟩
  · exact worker_update (fun k hk => absurd hk (hnone k)) j nofun
  · dsimp only at h
    omega

theorem Phases.finish (hs : Phases s) (running : s.main = .running)
    (complete : ∀ i, s.producer i = .idle) :
    Phases { s with feederStop := true, feeder := s.feeder.wake, main := .joining } := by
  have hzero : s.main.phase = 0 := by rw [running]; rfl
  have hsame := s.feeder.wake_same
  constructor
  · exact fun _ => complete
  · exact ⟨fun _ => le_refl 1, fun _ => rfl⟩
  · intro h
    exact ⟨(hs.last (hsame.1.symm.trans h)).1, le_refl 1⟩
  · intro h
    exact hs.gen (hsame.2.1.symm.trans h)
  · intro h
    cases h
    contradiction
  · constructor
    · intro h
      have hlate := hs.closed.mp h
      omega
    · intro h
      cases h
      contradiction
  · exact hs.worker
  · intro h
    cases h
    contradiction

theorem Phases.joinFeeder (hs : Phases s) (joining : s.main = .joining)
    (left : s.feeder = .exited) :
    Phases { s with dirs := [], main := .releasing s.dirs .fresh } := by
  have hone : s.main.phase = 1 := by rw [joining]; rfl
  have hstopped := hs.stop.mpr (by omega)
  have hfinal := hs.last (by rw [left]; rfl)
  constructor
  · exact fun _ => hs.idle (by omega)
  · exact ⟨fun _ => by simp [MainPc.phase], fun _ => hstopped⟩
  · exact fun _ => ⟨hfinal.1, by simp [MainPc.phase]⟩
  · exact hs.gen
  · exact fun _ => ⟨left, rfl⟩
  · constructor
    · intro h
      have hlate := hs.closed.mp h
      omega
    · intro h
      simp [MainPc.phase] at h
  · exact hs.worker
  · intro h
    simp [MainPc.phase] at h

theorem Phases.releaseSubmit {rest : List Item} {sub : Sub} (hs : Phases s)
    (at_item : s.main = .releasing (x :: rest) sub)
    (woke : signal .parked .woken s.worker wake = some w) :
    Phases { s with queue := s.queue ++ [x], worker := w, main := .releasing rest .fresh } := by
  have htwo : s.main.phase = 2 := by rw [at_item]; rfl
  have hmoved := hs.main_eq (m := .releasing rest .fresh) htwo.symm
  have hnone : ∀ k, w k ≠ .exited := fun k hk =>
    hs.nobody htwo.le k (signal_exited woke k hk)
  exact ⟨hmoved.idle, hmoved.stop, hmoved.last, hmoved.gen, hmoved.later, hmoved.closed,
    fun k hk => absurd hk (hnone k), fun h => absurd h (by simp [MainPc.phase])⟩

theorem Phases.closePool {sub : Sub} (hs : Phases s) (at_end : s.main = .releasing [] sub) :
    Phases { s with
      poolStop := true, worker := broadcast .parked .woken s.worker, main := .closing } := by
  have htwo : s.main.phase = 2 := by rw [at_end]; rfl
  have hstopped := hs.stop.mpr (by omega)
  constructor
  · exact fun _ => hs.idle (by omega)
  · exact ⟨fun _ => by simp [MainPc.phase], fun _ => hstopped⟩
  · exact fun h => ⟨(hs.last h).1, by simp [MainPc.phase]⟩
  · exact hs.gen
  · exact fun _ => hs.later (by omega)
  · exact ⟨fun _ => le_refl 3, fun _ => rfl⟩
  · intro k hk
    obtain hsame | ⟨-, hwoken⟩ := broadcast_apply .parked .woken s.worker k
    · exact absurd (hsame.symm.trans hk) (hs.nobody htwo.le k)
    · exact absurd (hwoken.symm.trans hk) (by simp)
  · intro h
    simp [MainPc.phase] at h

theorem Phases.joinWorkers (hs : Phases s) (closing : s.main = .closing)
    (left : ∀ j, s.worker j = .exited) :
    Phases { s with queue := [], dropped := s.dropped ++ s.queue, main := .clearing } := by
  have hthree : s.main.phase = 3 := by rw [closing]; rfl
  have hstopped := hs.stop.mpr (by omega)
  have hclosed := hs.closed.mpr (by omega)
  constructor
  · exact fun _ => hs.idle (by omega)
  · exact ⟨fun _ => by simp [MainPc.phase], fun _ => hstopped⟩
  · exact fun h => ⟨(hs.last h).1, by simp [MainPc.phase]⟩
  · exact hs.gen
  · exact fun _ => hs.later (by omega)
  · exact ⟨fun _ => by simp [MainPc.phase], fun _ => hclosed⟩
  · exact fun _ _ => ⟨hclosed, rfl⟩
  · exact fun _ => left

theorem Phases.clear {p : Fin c.producers → ProducerPc} (hs : Phases s)
    (clearing : s.main = .clearing)
    (woke : s.spaceWaiters = 0 ∧ p = s.producer ∨ p = fun i => (s.producer i).wake) :
    Phases { s with
      intake := []
      pending := 0
      producer := p
      dropped := s.dropped ++ s.intake
      main := .returned } := by
  have hfour : s.main.phase = 4 := by rw [clearing]; rfl
  have hstopped := hs.stop.mpr (by omega)
  have hclosed := hs.closed.mpr (by omega)
  have hidle := hs.idle (by omega)
  constructor
  · intro _ k
    rcases woke with ⟨-, rfl⟩ | rfl
    · exact hidle k
    · exact ProducerPc.wake_idle (hidle k)
  · exact ⟨fun _ => by simp [MainPc.phase], fun _ => hstopped⟩
  · exact fun _ => ⟨rfl, by simp [MainPc.phase]⟩
  · exact hs.gen
  · exact fun _ => hs.later (by omega)
  · exact ⟨fun _ => by simp [MainPc.phase], fun _ => hclosed⟩
  · exact hs.worker
  · exact fun _ => hs.drained (by omega)

theorem Step.phases (h : Step s u) (hs : Phases s) : Phases u := by
  cases h with
  | same => exact hs
  | enter i x idle file running =>
    refine ⟨fun h => ?_, hs.stop, hs.last, hs.gen, hs.later, hs.closed, hs.worker, hs.drained⟩
    rw [running] at h
    cases h
  | filePark i x at_lock full =>
    refine ⟨fun h => ?_, hs.stop, hs.last, hs.gen, hs.later, hs.closed, hs.worker, hs.drained⟩
    exact absurd (hs.idle h i) at_lock.ne_idle
  | fileAppend i x at_lock room f woke => exact hs.fileAppend at_lock woke
  | queueDirectory x dir running =>
    refine ⟨hs.idle, hs.stop, hs.last, hs.gen, fun h => ?_, hs.closed, hs.worker, hs.drained⟩
    rw [running] at h
    cases h
  | producerWake i => exact hs.producerWake
  | feederPark idle n =>
    refine ⟨hs.idle, hs.stop, nofun, nofun, fun h => ?_, hs.closed, hs.worker, hs.drained⟩
    exact absurd (hs.later h).1 idle.eqs.2.2.2.2
  | feederWake parked f woke =>
    refine ⟨hs.idle, hs.stop, fun h => ?_, fun h => ?_, fun h => ?_, hs.closed, hs.worker,
      hs.drained⟩
    · rcases woke with rfl | rfl <;> cases h
    · rcases woke with rfl | rfl <;> cases h
    · rw [(hs.later h).1] at parked
      cases parked
  | feederTake idle n timedOut =>
    refine ⟨hs.idle, hs.stop, fun h => ⟨rfl, hs.stop.mp h⟩, nofun, fun h => ?_, hs.closed,
      hs.worker, hs.drained⟩
    exact absurd (hs.later h).1 idle.eqs.2.2.2.2
  | feederWait rest sub sub' task busy =>
    apply hs.feeder_eq
    · rw [busy]
      rfl
    · rw [busy]
      cases task <;> rfl
    · rw [busy]
      exact nofun
  | keep x rest sub n timedOut stop busy =>
    refine ⟨hs.idle, hs.stop, fun h => ?_, nofun, fun h => ?_, hs.closed, hs.worker,
      hs.drained⟩
    · exact hs.last (by rw [busy]; exact h)
    · rw [(hs.later h).1] at busy
      cases busy
  | feederSubmit x rest sub task busy w wake woke => exact hs.feederSubmit busy woke
  | feederRefused x rest sub task busy closed =>
    have hlater := hs.closed.mp closed
    rw [(hs.later (by omega)).1] at busy
    cases busy
  | account sub n timedOut stop busy p woke => exact hs.account busy woke
  | flushed sub stop busy => exact hs.flushed busy
  | workerPark j idle =>
    have hearly := hs.early idle.ne_exited
    refine ⟨hs.idle, hs.stop, hs.last, hs.gen, hs.later, hs.closed, ?_, fun h => ?_⟩
    · exact worker_update hs.worker j (fun hk => by cases hk)
    · dsimp only at h
      omega
  | workerWake j parked =>
    have hearly := hs.early (j := j) (by rw [parked]; simp)
    refine ⟨hs.idle, hs.stop, hs.last, hs.gen, hs.later, hs.closed, ?_, fun h => ?_⟩
    · exact worker_update hs.worker j nofun
    · dsimp only at h
      omega
  | workerExit j idle empty closed =>
    have hearly := hs.early idle.ne_exited
    refine ⟨hs.idle, hs.stop, hs.last, hs.gen, hs.later, hs.closed, ?_, fun h => ?_⟩
    · exact worker_update hs.worker j fun _ => ⟨closed, empty⟩
    · dsimp only at h
      omega
  | workerPop j idle x queue first => exact hs.workerPop idle first
  | workerDone j x verifying =>
    have hearly := hs.early (j := j) (by rw [verifying]; simp)
    refine ⟨hs.idle, hs.stop, hs.last, hs.gen, hs.later, hs.closed, ?_, fun h => ?_⟩
    · exact worker_update hs.worker j nofun
    · dsimp only at h
      omega
  | finish running complete => exact hs.finish running complete
  | joinFeeder joining left => exact hs.joinFeeder joining left
  | releaseWait rest sub sub' at_item =>
    apply hs.main_eq
    rw [at_item]
    rfl
  | releaseSubmit x rest sub at_item wanted w wake woke => exact hs.releaseSubmit at_item woke
  | releaseRefused x rest sub at_item closed =>
    have htwo : s.main.phase = 2 := by rw [at_item]; rfl
    have hlate := hs.closed.mp closed
    omega
  | releaseSkip x rest sub at_item unwanted =>
    have htwo : s.main.phase = 2 := by rw [at_item]; rfl
    have hmoved := hs.main_eq (m := .releasing rest .fresh) htwo.symm
    exact ⟨hmoved.idle, hmoved.stop, hmoved.last, hmoved.gen, hmoved.later, hmoved.closed,
      hmoved.worker, hmoved.drained⟩
  | closePool sub at_end => exact hs.closePool at_end
  | joinWorkers closing left => exact hs.joinWorkers closing left
  | clear clearing p woke => exact hs.clear clearing woke

def State.verifying (s : State c) (x : Item) : ℕ := total (fun w => w.item.count x) s.worker

/-- How often an item occurs in all the places together. -/
def State.tally (s : State c) (x : Item) : ℕ :=
  s.intake.count x + s.dirs.count x + s.feeder.rest.count x + s.gen.count x +
    s.main.rest.count x + s.queue.count x + s.verifying x + s.verified.count x +
    s.dropped.count x

def Conserved (s : State c) : Prop :=
  ∀ x, s.tally x = s.files.count x + s.directories.count x

theorem Conserved.start (c : Config) : Conserved (State.start c) := by
  intro x
  have hnone : (State.start c).verifying x = 0 := total_eq_zero_iff.mpr fun _ => rfl
  unfold State.tally
  rw [hnone]
  rfl

theorem verifying_update (f : Fin c.workers → WorkerPc) (j : Fin c.workers) (w : WorkerPc)
    (x : Item) :
    total (fun w => w.item.count x) (Function.update f j w) + (f j).item.count x =
      total (fun w => w.item.count x) f + w.item.count x :=
  total_update (fun w : WorkerPc => w.item.count x) f j w

theorem verifying_signal (h : signal .parked .woken f wake = some w) (x : Item) :
    total (fun w => w.item.count x) w = total (fun w => w.item.count x) f := by
  apply total_signal _ h
  rfl

@[simp] theorem WorkerPc.item_top : WorkerPc.top.item = [] := rfl

@[simp] theorem WorkerPc.item_parked : WorkerPc.parked.item = [] := rfl

@[simp] theorem WorkerPc.item_woken : WorkerPc.woken.item = [] := rfl

@[simp] theorem WorkerPc.item_verifying (x : Item) : (WorkerPc.verifying x).item = [x] := rfl

@[simp] theorem WorkerPc.item_exited : WorkerPc.exited.item = [] := rfl

theorem WorkerPc.Idle.item_eq {w : WorkerPc} (h : w.Idle) : w.item = [] := by
  rcases h with rfl | rfl <;> rfl

/-- A move carries an item along or takes a new one in. -/
theorem Step.conserved (h : Step s u) (hs : Conserved s) : Conserved u := by
  intro y
  have hy := hs y
  unfold State.tally State.verifying at hy ⊢
  cases h with
  | same => exact hy
  | enter i x idle file running => exact hy
  | filePark i x at_lock full => exact hy
  | fileAppend i x at_lock room f woke =>
    have hrest : f.rest = s.feeder.rest := by
      rcases woke with rfl | rfl
      · rfl
      · exact s.feeder.wake_same.2.2.1
    simp only [List.count_append, hrest]
    omega
  | queueDirectory x dir running =>
    simp only [List.count_append]
    omega
  | producerWake i => exact hy
  | feederPark idle n =>
    rw [idle.eqs.2.2.1] at hy
    exact hy
  | feederWake parked f woke =>
    rw [parked] at hy
    rcases woke with rfl | rfl <;> exact hy
  | feederTake idle n timedOut =>
    rw [idle.eqs.2.2.1] at hy
    simp only [FeederPc.rest, List.count_nil] at hy ⊢
    omega
  | feederWait rest sub sub' task busy =>
    rw [busy] at hy
    exact hy
  | keep x rest sub n timedOut stop busy =>
    rw [busy] at hy
    simp only [FeederPc.rest, List.count_append, List.count_cons, List.count_nil] at hy ⊢
    omega
  | feederSubmit x rest sub task busy w wake woke =>
    rw [busy] at hy
    simp only [FeederPc.rest, List.count_append, List.count_cons, List.count_nil,
      verifying_signal woke y] at hy ⊢
    omega
  | feederRefused x rest sub task busy closed =>
    rw [busy] at hy
    simp only [FeederPc.rest, List.count_append, List.count_cons, List.count_nil] at hy ⊢
    omega
  | account sub n timedOut stop busy p woke =>
    have hnext := nextTask_items (c := c) s.gen timedOut stop y
    have hrest : s.feeder.rest = [] := by rw [busy]; rfl
    simp only [hrest, List.count_nil] at hy ⊢
    omega
  | flushed sub stop busy =>
    rw [busy] at hy
    cases stop <;> exact hy
  | workerPark j idle =>
    have hmove := verifying_update s.worker j .parked y
    simp only [idle.item_eq, WorkerPc.item_parked, List.count_nil] at hmove
    dsimp only
    omega
  | workerWake j parked =>
    have hmove := verifying_update s.worker j .woken y
    simp only [parked, WorkerPc.item_parked, WorkerPc.item_woken, List.count_nil] at hmove
    dsimp only
    omega
  | workerExit j idle empty closed =>
    have hmove := verifying_update s.worker j .exited y
    simp only [idle.item_eq, WorkerPc.item_exited, List.count_nil] at hmove
    dsimp only
    omega
  | workerPop j idle x queue first =>
    have hmove := verifying_update s.worker j (.verifying x) y
    rw [first] at hy
    simp only [idle.item_eq, WorkerPc.item_verifying, List.count_cons, List.count_nil]
      at hmove hy ⊢
    omega
  | workerDone j x verifying =>
    have hmove := verifying_update s.worker j .top y
    simp only [verifying, WorkerPc.item_verifying, WorkerPc.item_top, List.count_append,
      List.count_cons, List.count_nil] at hmove ⊢
    omega
  | finish running complete =>
    rw [running] at hy
    simp only [s.feeder.wake_same.2.2.1]
    exact hy
  | joinFeeder joining left =>
    rw [joining] at hy
    simp only [MainPc.rest, List.count_nil] at hy ⊢
    omega
  | releaseWait rest sub sub' at_item =>
    rw [at_item] at hy
    exact hy
  | releaseSubmit x rest sub at_item wanted w wake woke =>
    rw [at_item] at hy
    simp only [MainPc.rest, List.count_append, List.count_cons, List.count_nil,
      verifying_signal woke y] at hy ⊢
    omega
  | releaseRefused x rest sub at_item closed =>
    rw [at_item] at hy
    simp only [MainPc.rest, List.count_append, List.count_cons, List.count_nil] at hy ⊢
    omega
  | releaseSkip x rest sub at_item unwanted =>
    rw [at_item] at hy
    simp only [MainPc.rest, List.count_append, List.count_cons, List.count_nil] at hy ⊢
    omega
  | closePool sub at_end =>
    have hsame : total (fun w => w.item.count y) (broadcast .parked .woken s.worker) =
        total (fun w => w.item.count y) s.worker := by
      apply total_broadcast
      rfl
    rw [at_end] at hy
    simp only [hsame]
    exact hy
  | joinWorkers closing left =>
    rw [closing] at hy
    simp only [MainPc.rest, List.count_append, List.count_nil] at hy ⊢
    omega
  | clear clearing p woke =>
    rw [clearing] at hy
    simp only [MainPc.rest, List.count_append, List.count_nil] at hy ⊢
    omega

def ProducerPc.item : ProducerPc → List Item
  | .idle => []
  | .entering x => [x]
  | .parked x => [x]
  | .woken x => [x]

/-- A directory is let through only when it is wanted, and not before the feeder was joined. -/
def Released (s : State c) (x : Item) : Prop :=
  x.isDir = true → c.includeDirs = true ∧ 2 ≤ s.main.phase

theorem Released.mono (h : Released s x) (hphase : s.main.phase ≤ u.main.phase) : Released u x :=
  fun hdir => ⟨(h hdir).1, (h hdir).2.trans hphase⟩

theorem Released.of_file (h : x.isDir = false) : Released s x := by
  intro hdir
  rw [h] at hdir
  cases hdir

structure Kinds (s : State c) : Prop where
  producer : ∀ i, ∀ x ∈ (s.producer i).item, x.isDir = false
  files : ∀ x ∈ s.files, x.isDir = false
  intake : ∀ x ∈ s.intake, x.isDir = false
  feeder : ∀ x ∈ s.feeder.rest, x.isDir = false
  gen : ∀ x ∈ s.gen, x.isDir = false
  directories : ∀ x ∈ s.directories, x.isDir = true
  dirs : ∀ x ∈ s.dirs, x.isDir = true
  main : ∀ x ∈ s.main.rest, x.isDir = true
  queue : ∀ x ∈ s.queue, Released s x
  worker : ∀ j, ∀ x ∈ (s.worker j).item, Released s x
  verified : ∀ x ∈ s.verified, Released s x
  dropped : ∀ x ∈ s.dropped, x.isDir = true ∧ c.includeDirs = false

theorem Kinds.start (c : Config) : Kinds (State.start c) := by
  constructor <;> nofun

theorem ProducerPc.wake_item (p : ProducerPc) : p.wake.item = p.item := by
  cases p <;> rfl

theorem ProducerPc.AtLock.item_eq {p : ProducerPc} (h : p.AtLock x) : p.item = [x] := by
  rcases h with rfl | rfl <;> rfl

/-- One thread of a table moves on with items that have the property. -/
theorem items_update {ι β : Type*} [DecidableEq ι] (item : β → List Item) {P : Item → Prop}
    {f : ι → β} (h : ∀ k, ∀ x ∈ item (f k), P x) {i : ι} {b : β} (hb : ∀ x ∈ item b, P x) (k : ι) :
    ∀ x ∈ item (Function.update f i b k), P x := by
  by_cases hki : k = i
  · rw [hki, Function.update_self]
    exact hb
  · rw [Function.update_of_ne hki]
    exact h k

theorem signal_items (h : signal .parked .woken f wake = some w) {P : Item → Prop}
    (hf : ∀ k, ∀ x ∈ (f k).item, P x) (k : Fin c.workers) : ∀ x ∈ (w k).item, P x := by
  obtain hsame | ⟨-, hwoken⟩ := signal_apply h k
  · rw [hsame]
    exact hf k
  · rw [hwoken]
    exact nofun

theorem nextTask_forall {P : Item → Prop} {gen : List Item} (h : ∀ x ∈ gen, P x)
    (timedOut stop : Bool) :
    (∀ x ∈ (nextTask c gen timedOut stop).1.rest, P x) ∧
      ∀ x ∈ (nextTask c gen timedOut stop).2, P x := by
  unfold nextTask
  split_ifs
  · exact ⟨h, nofun⟩
  · exact ⟨nofun, h⟩
  · exact ⟨nofun, h⟩

/-- Everything was distributed before the pool was closed, so the workers left an empty queue. -/
theorem Phases.queue_eq (hs : Phases s) (h : ∀ j, s.worker j = .exited) : s.queue = [] :=
  (hs.worker ⟨0, c.workers_pos⟩ (h _)).2

theorem Phases.intake_eq (hs : Phases s) (h : 2 ≤ s.main.phase) : s.intake = [] := by
  apply (hs.last _).1
  rw [(hs.later h).1]
  rfl

/-- The finishing thread goes on, with directories only. -/
theorem Kinds.later (hs : Kinds s) {m : MainPc} (hphase : s.main.phase ≤ m.phase)
    (hm : ∀ x ∈ m.rest, x.isDir = true) : Kinds { s with main := m } :=
  { hs with
    main := hm
    queue := fun x hx => (hs.queue x hx).mono hphase
    worker := fun j x hx => (hs.worker j x hx).mono hphase
    verified := fun x hx => (hs.verified x hx).mono hphase }

theorem Step.kinds (h : Step s u) (hphases : Phases s) (hs : Kinds s) : Kinds u := by
  cases h with
  | same => exact hs
  | enter i x idle file running =>
    have hitem : ∀ y ∈ (ProducerPc.entering x).item, y.isDir = false :=
      List.forall_mem_singleton.mpr file
    exact { hs with producer := items_update ProducerPc.item hs.producer hitem }
  | filePark i x at_lock full =>
    have hitem : ∀ y ∈ (ProducerPc.parked x).item, y.isDir = false := by
      have hfiles := hs.producer i
      rw [at_lock.item_eq] at hfiles
      exact hfiles
    exact { hs with producer := items_update ProducerPc.item hs.producer hitem }
  | fileAppend i x at_lock room f woke =>
    have hfile : x.isDir = false := by
      apply hs.producer i
      rw [at_lock.item_eq]
      exact List.mem_singleton_self x
    have hrest : f.rest = s.feeder.rest := by
      rcases woke with rfl | rfl
      · rfl
      · exact s.feeder.wake_same.2.2.1
    exact { hs with
      producer := items_update ProducerPc.item hs.producer nofun
      files := List.forall_mem_append.mpr ⟨hs.files, List.forall_mem_singleton.mpr hfile⟩
      intake := List.forall_mem_append.mpr ⟨hs.intake, List.forall_mem_singleton.mpr hfile⟩
      feeder := by rw [hrest]; exact hs.feeder }
  | queueDirectory x dir running =>
    exact { hs with
      directories :=
        List.forall_mem_append.mpr ⟨hs.directories, List.forall_mem_singleton.mpr dir⟩
      dirs := List.forall_mem_append.mpr ⟨hs.dirs, List.forall_mem_singleton.mpr dir⟩ }
  | producerWake i =>
    have hitem : ∀ y ∈ (s.producer i).wake.item, y.isDir = false := by
      rw [ProducerPc.wake_item]
      exact hs.producer i
    exact { hs with producer := items_update ProducerPc.item hs.producer hitem }
  | feederPark idle n => exact { hs with feeder := nofun }
  | feederWake parked f woke =>
    refine { hs with feeder := ?_ }
    rcases woke with rfl | rfl <;> exact nofun
  | feederTake idle n timedOut => exact { hs with intake := nofun, feeder := hs.intake }
  | feederWait rest sub sub' task busy =>
    have hrest := hs.feeder
    rw [busy] at hrest
    exact { hs with feeder := hrest }
  | keep x rest sub n timedOut stop busy =>
    have hrest := hs.feeder
    rw [busy] at hrest
    have hsplit := List.forall_mem_cons.mp hrest
    exact { hs with
      gen := List.forall_mem_append.mpr ⟨hs.gen, List.forall_mem_singleton.mpr hsplit.1⟩
      feeder := hsplit.2 }
  | feederSubmit x rest sub task busy w wake woke =>
    have hrest := hs.feeder
    rw [busy] at hrest
    have hsplit := List.forall_mem_cons.mp hrest
    exact { hs with
      queue := List.forall_mem_append.mpr
        ⟨hs.queue, List.forall_mem_singleton.mpr (Released.of_file hsplit.1)⟩
      worker := signal_items woke hs.worker
      feeder := hsplit.2 }
  | feederRefused x rest sub task busy closed =>
    have hlater := hphases.closed.mp closed
    rw [(hphases.later (by omega)).1] at busy
    cases busy
  | account sub n timedOut stop busy p woke =>
    have hnext := nextTask_forall (c := c) hs.gen timedOut stop
    refine { hs with producer := fun i => ?_, feeder := hnext.1, gen := hnext.2 }
    rcases woke with ⟨-, rfl⟩ | rfl
    · exact hs.producer i
    · dsimp only
      rw [ProducerPc.wake_item]
      exact hs.producer i
  | flushed sub stop busy =>
    refine { hs with feeder := ?_ }
    cases stop <;> exact nofun
  | workerPark j idle =>
    exact { hs with worker := items_update WorkerPc.item hs.worker nofun }
  | workerWake j parked =>
    exact { hs with worker := items_update WorkerPc.item hs.worker nofun }
  | workerExit j idle empty closed =>
    exact { hs with worker := items_update WorkerPc.item hs.worker nofun }
  | workerPop j idle x queue first =>
    have hqueue := hs.queue
    rw [first] at hqueue
    have hsplit := List.forall_mem_cons.mp hqueue
    have hitem : ∀ y ∈ (WorkerPc.verifying x).item, Released s y :=
      List.forall_mem_singleton.mpr hsplit.1
    exact { hs with
      queue := hsplit.2
      worker := items_update WorkerPc.item hs.worker hitem }
  | workerDone j x verifying =>
    have hitem := hs.worker j
    rw [verifying] at hitem
    exact { hs with
      verified := List.forall_mem_append.mpr ⟨hs.verified, hitem⟩
      worker := items_update WorkerPc.item hs.worker nofun }
  | finish running complete =>
    have hlater := hs.later (m := .joining) (by simp [running, MainPc.phase]) nofun
    refine { hlater with feeder := ?_ }
    dsimp only
    rw [s.feeder.wake_same.2.2.1]
    exact hs.feeder
  | joinFeeder joining left =>
    have hlater := hs.later (m := .releasing s.dirs .fresh) (by simp [joining, MainPc.phase]) hs.dirs
    exact { hlater with dirs := nofun }
  | releaseWait rest sub sub' at_item =>
    have hrest := hs.main
    rw [at_item] at hrest
    exact hs.later (by simp [at_item, MainPc.phase]) hrest
  | releaseSubmit x rest sub at_item wanted w wake woke =>
    have hrest := hs.main
    rw [at_item] at hrest
    have hsplit := List.forall_mem_cons.mp hrest
    have hlater := hs.later (m := .releasing rest .fresh) (by simp [at_item, MainPc.phase]) hsplit.2
    exact { hlater with
      queue := List.forall_mem_append.mpr
        ⟨hlater.queue, List.forall_mem_singleton.mpr fun _ => ⟨wanted, le_refl 2⟩⟩
      worker := signal_items woke hlater.worker }
  | releaseRefused x rest sub at_item closed =>
    have hlater := hphases.closed.mp closed
    rw [at_item] at hlater
    simp [MainPc.phase] at hlater
  | releaseSkip x rest sub at_item unwanted =>
    have hrest := hs.main
    rw [at_item] at hrest
    have hsplit := List.forall_mem_cons.mp hrest
    have hlater := hs.later (m := .releasing rest .fresh) (by simp [at_item, MainPc.phase]) hsplit.2
    exact { hlater with
      dropped := List.forall_mem_append.mpr
        ⟨hs.dropped, List.forall_mem_singleton.mpr ⟨hsplit.1, unwanted⟩⟩ }
  | closePool sub at_end =>
    have hlater := hs.later (m := .closing) (by simp [at_end, MainPc.phase]) nofun
    refine { hlater with worker := fun j => ?_ }
    dsimp only
    obtain hsame | ⟨-, hwoken⟩ := broadcast_apply .parked .woken s.worker j
    · rw [hsame]
      exact hlater.worker j
    · rw [hwoken]
      exact nofun
  | joinWorkers closing left =>
    have hlater := hs.later (m := .clearing) (by simp [closing, MainPc.phase]) nofun
    rw [hphases.queue_eq left]
    exact { hlater with
      queue := nofun
      dropped := List.forall_mem_append.mpr ⟨hs.dropped, nofun⟩ }
  | clear clearing p woke =>
    have hnone : s.intake = [] := hphases.intake_eq (by simp [clearing, MainPc.phase])
    have hlater := hs.later (m := .returned) (by simp [clearing, MainPc.phase]) nofun
    rw [hnone]
    refine { hlater with
      producer := fun i => ?_
      intake := nofun
      dropped := List.forall_mem_append.mpr ⟨hs.dropped, nofun⟩ }
    rcases woke with ⟨-, rfl⟩ | rfl
    · exact hs.producer i
    · dsimp only
      rw [ProducerPc.wake_item]
      exact hs.producer i

structure Counted (s : State c) : Prop where
  pending : s.pending = s.intake.length + s.feeder.stolen
  bound : s.pending ≤ c.queueMax
  waiters : s.spaceWaiters = count ProducerPc.waiting s.producer
  parked : ∀ i x, s.producer i = .parked x → c.queueMax ≤ s.pending

theorem Counted.start (c : Config) : Counted (State.start c) where
  pending := rfl
  bound := Nat.zero_le _
  waiters := (count_eq_zero_iff.mpr fun _ => rfl).symm
  parked := nofun

theorem ProducerPc.wake_waiting (p : ProducerPc) : p.wake.waiting = p.waiting := by
  cases p <;> rfl

theorem ProducerPc.wake_ne_parked (p : ProducerPc) (x : Item) : p.wake ≠ .parked x := by
  cases p <;> simp [ProducerPc.wake]

theorem count_wake (f : Fin c.producers → ProducerPc) :
    count ProducerPc.waiting (fun i => (f i).wake) = count ProducerPc.waiting f := by
  simp only [count, total, ProducerPc.wake_waiting]

theorem Counted.nobody_parked (hs : Counted s) (hw : s.spaceWaiters = 0) (i : Fin c.producers)
    (x : Item) : s.producer i ≠ .parked x := by
  intro hp
  have hwaiting := count_eq_zero_iff.mp (hs.waiters.symm.trans hw) i
  rw [hp] at hwaiting
  cases hwaiting

/-- A producer that leaves the wait for another place. -/
theorem Counted.waiters_update (hs : Counted s) (i : Fin c.producers) (p : ProducerPc) :
    s.spaceWaiters - (s.producer i).waiting.toNat + p.waiting.toNat =
      count ProducerPc.waiting (Function.update s.producer i p) := by
  have hmove := count_update ProducerPc.waiting s.producer i p
  have hle := toNat_le_count ProducerPc.waiting s.producer i
  have hwaiters := hs.waiters
  omega

theorem parked_update {P : Prop} (h : ∀ k y, s.producer k = .parked y → P) (i : Fin c.producers)
    {p : ProducerPc} (hp : ∀ y, p = .parked y → P) (k : Fin c.producers) (y : Item)
    (hk : Function.update s.producer i p k = .parked y) : P := by
  by_cases hki : k = i
  · rw [hki, Function.update_self] at hk
    exact hp y hk
  · rw [Function.update_of_ne hki] at hk
    exact h k y hk

/-- The feeder's state changes, but not the batch that is still counted. -/
theorem Counted.feeder_eq (hs : Counted s) {f : FeederPc} (h : f.stolen = s.feeder.stolen) :
    Counted { s with feeder := f } where
  pending := by
    dsimp only
    rw [h]
    exact hs.pending
  bound := hs.bound
  waiters := hs.waiters
  parked := hs.parked

theorem Step.counted (h : Step s u) (hphases : Phases s) (hs : Counted s) : Counted u := by
  cases h with
  | same => exact hs
  | enter i x idle file running =>
    have hwaiters := hs.waiters_update i (.entering x)
    rw [idle] at hwaiters
    exact { hs with
      waiters := hwaiters
      parked := parked_update hs.parked i nofun }
  | filePark i x at_lock full =>
    exact { hs with
      waiters := hs.waiters_update i (.parked x)
      parked := parked_update hs.parked i fun _ _ => full }
  | fileAppend i x at_lock room f woke =>
    have hstolen : f.stolen = s.feeder.stolen := by
      rcases woke with rfl | rfl
      · rfl
      · exact s.feeder.wake_same.2.2.2.1
    have hearly : ¬1 ≤ s.main.phase := fun h => at_lock.ne_idle (hphases.idle h i)
    have hrunning : s.main = .running := by
      cases hm : s.main <;> rw [hm] at hearly <;> simp [MainPc.phase] at hearly
    have hgoing : s.feederStop = false := by
      by_contra hstop
      exact hearly (hphases.stop.mp (by simpa using hstop))
    have hroom := room hrunning hgoing
    have hpending := hs.pending
    constructor
    · simp only [List.length_append, List.length_singleton, hstolen]
      omega
    · exact hroom
    · exact hs.waiters_update i .idle
    · apply parked_update
      · intro k y hk
        have hfull := hs.parked k y hk
        omega
      · exact nofun
  | queueDirectory x dir running => exact { hs with }
  | producerWake i =>
    have hwaiters := hs.waiters_update i (s.producer i).wake
    have hle := toNat_le_count ProducerPc.waiting s.producer i
    have hcount := hs.waiters
    rw [ProducerPc.wake_waiting] at hwaiters
    constructor
    · exact hs.pending
    · exact hs.bound
    · dsimp only
      omega
    · exact parked_update hs.parked i fun y hy =>
        absurd hy ((s.producer i).wake_ne_parked y)
  | feederPark idle n =>
    have hsame := hs.feeder_eq (f := .parked) idle.eqs.2.2.2.1.symm
    exact { hsame with }
  | feederWake parked f woke =>
    apply hs.feeder_eq
    rw [parked]
    rcases woke with rfl | rfl <;> rfl
  | feederTake idle n timedOut =>
    have hpending := hs.pending
    rw [idle.eqs.2.2.2.1] at hpending
    refine { hs with pending := ?_ }
    simp only [FeederPc.stolen, List.length_nil]
    omega
  | feederWait rest sub sub' task busy =>
    apply hs.feeder_eq
    rw [busy]
    cases task <;> rfl
  | keep x rest sub n timedOut stop busy =>
    have hsame := hs.feeder_eq (f := .busy rest .fresh (.distribute n timedOut stop))
      (by rw [busy]; rfl)
    exact { hsame with }
  | feederSubmit x rest sub task busy w wake woke =>
    have hsame := hs.feeder_eq (f := .busy rest .fresh task) (by rw [busy]; cases task <;> rfl)
    exact { hsame with }
  | feederRefused x rest sub task busy closed =>
    have hsame := hs.feeder_eq (f := .busy rest .fresh task) (by rw [busy]; cases task <;> rfl)
    exact { hsame with }
  | account sub n timedOut stop busy p woke =>
    have hpending := hs.pending
    have hstolen : s.feeder.stolen = n := by rw [busy]; rfl
    constructor
    · dsimp only
      rw [nextTask_stolen]
      omega
    · have hbound := hs.bound
      dsimp only
      omega
    · rcases woke with ⟨-, rfl⟩ | rfl
      · exact hs.waiters
      · exact hs.waiters.trans (count_wake s.producer).symm
    · -- whoever lowers the count wakes all that are parked
      intro i x hp
      rcases woke with ⟨hn | hnobody, rfl⟩ | rfl
      · rw [hn, Nat.sub_zero]
        exact hs.parked i x hp
      · exact absurd hp (hs.nobody_parked hnobody i x)
      · exact absurd hp ((s.producer i).wake_ne_parked x)
  | flushed sub stop busy =>
    apply hs.feeder_eq
    rw [busy]
    cases stop <;> rfl
  | workerPark j idle => exact { hs with }
  | workerWake j parked => exact { hs with }
  | workerExit j idle empty closed => exact { hs with }
  | workerPop j idle x queue first => exact { hs with }
  | workerDone j x verifying => exact { hs with }
  | finish running complete =>
    have hsame := hs.feeder_eq s.feeder.wake_same.2.2.2.1
    exact { hsame with }
  | joinFeeder joining left => exact { hs with }
  | releaseWait rest sub sub' at_item => exact { hs with }
  | releaseSubmit x rest sub at_item wanted w wake woke => exact { hs with }
  | releaseRefused x rest sub at_item closed => exact { hs with }
  | releaseSkip x rest sub at_item unwanted => exact { hs with }
  | closePool sub at_end => exact { hs with }
  | joinWorkers closing left => exact { hs with }
  | clear clearing p woke =>
    have hphase : s.main.phase = 4 := by rw [clearing]; rfl
    have hidle := hphases.idle (by omega)
    have hexited := (hphases.later (by omega)).1
    constructor
    · dsimp only
      rw [hexited]
      rfl
    · exact Nat.zero_le _
    · rcases woke with ⟨-, rfl⟩ | rfl
      · exact hs.waiters
      · exact hs.waiters.trans (count_wake s.producer).symm
    · intro i x hp
      rcases woke with ⟨-, rfl⟩ | rfl
      · rw [hidle i] at hp
        cases hp
      · exact absurd hp ((s.producer i).wake_ne_parked x)

structure Sound (s : State c) : Prop where
  phases : Phases s
  conserved : Conserved s
  kinds : Kinds s
  counted : Counted s

theorem sound {c : Config} {as : List (Act c)} {s : State c}
    (htime : Along step InTime (State.start c) as) (hr : exec step (State.start c) as = some s) :
    Sound s := by
  have hstart : Sound (State.start c) :=
    ⟨Phases.start c, Conserved.start c, Kinds.start c, Counted.start c⟩
  refine in_time_invariant hstart ?_ htime hr
  intro s u h hs
  exact ⟨h.phases hs.phases, h.conserved hs.conserved, h.kinds hs.phases hs.kinds,
    h.counted hs.phases hs.counted⟩

theorem State.verifying_pos : 0 < s.verifying x ↔ ∃ j, s.worker j = .verifying x := by
  unfold State.verifying
  rw [Nat.pos_iff_ne_zero, ne_eq, total_eq_zero_iff, not_forall]
  apply exists_congr
  intro j
  cases s.worker j <;> simp [WorkerPc.item, List.count_eq_zero, eq_comm (a := x)]

/-- When the finish has returned, whatever was queued is verified or was an unwanted directory. -/
theorem Sound.accounted (hs : Sound s) (hreturned : s.main = .returned) (x : Item) :
    s.verified.count x + s.dropped.count x = s.files.count x + s.directories.count x := by
  have hphase : s.main.phase = 5 := by rw [hreturned]; rfl
  obtain ⟨hexited, hdirs⟩ := hs.phases.later (by omega)
  have hleft := hs.phases.drained (by omega)
  have hidle : s.verifying x = 0 := by
    apply total_eq_zero_iff.mpr
    intro j
    rw [hleft j]
    rfl
  have hfeeder : s.feeder.rest = [] := by rw [hexited]; rfl
  have hmain : s.main.rest = [] := by rw [hreturned]; rfl
  have hgen : s.gen = [] := hs.phases.gen (by rw [hexited]; rfl)
  have htally := hs.conserved x
  unfold State.tally at htally
  rw [hs.phases.intake_eq (by omega), hdirs, hfeeder, hgen, hmain, hs.phases.queue_eq hleft,
    hidle] at htally
  simpa using htally

/-- Over every run without a shutdown whose queueing calls end before the finish: no item is
passed to the verifier more often than it was queued; files are all verified when the finish
returns, and directories too if they are wanted; no directory is passed on before the finish; the
count is that of the intake list and the feeder's batch; and no producer sleeps on a list with
room. -/
theorem every_item_verified_once {c : Config} {as : List (Act c)} {s : State c}
    (htime : Along step InTime (State.start c) as) (hr : exec step (State.start c) as = some s) :
    (∀ x, s.verifying x + s.verified.count x ≤ s.files.count x + s.directories.count x) ∧
      (s.main = .returned →
        (∀ x, x.isDir = false → s.verified.count x = s.files.count x) ∧
        (∀ x, x.isDir = true →
          s.verified.count x = if c.includeDirs then s.directories.count x else 0)) ∧
      (∀ x, x.isDir = true → 0 < s.verifying x ∨ x ∈ s.verified →
        c.includeDirs = true ∧ s.main ≠ .running) ∧
      (s.feeder ≠ .exited →
        s.pending = s.intake.length + s.feeder.stolen ∧ s.pending ≤ c.queueMax) ∧
      ∀ i x, s.producer i = .parked x → c.queueMax ≤ s.pending := by
  have hs := sound htime hr
  refine ⟨fun x => ?_, fun hreturned => ⟨fun x hfile => ?_, fun x hdir => ?_⟩,
    fun x hdir hx => ?_, fun _ => ⟨hs.counted.pending, hs.counted.bound⟩, hs.counted.parked⟩
  · have htally := hs.conserved x
    unfold State.tally at htally
    omega
  · have hall := hs.accounted hreturned x
    have hkept : s.dropped.count x = 0 := by
      apply List.count_eq_zero.mpr
      intro hx
      rw [(hs.kinds.dropped x hx).1] at hfile
      cases hfile
    have hother : s.directories.count x = 0 := by
      apply List.count_eq_zero.mpr
      intro hx
      rw [hs.kinds.directories x hx] at hfile
      cases hfile
    omega
  · have hall := hs.accounted hreturned x
    have hother : s.files.count x = 0 := by
      apply List.count_eq_zero.mpr
      intro hx
      rw [hs.kinds.files x hx] at hdir
      cases hdir
    split_ifs with hwanted
    · have hkept : s.dropped.count x = 0 := by
        apply List.count_eq_zero.mpr
        intro hx
        rw [(hs.kinds.dropped x hx).2] at hwanted
        cases hwanted
      omega
    · apply List.count_eq_zero.mpr
      intro hx
      exact hwanted (hs.kinds.verified x hx hdir).1
  · have hreleased : c.includeDirs = true ∧ 2 ≤ s.main.phase := by
      rcases hx with hx | hx
      · obtain ⟨j, hj⟩ := State.verifying_pos.mp hx
        apply hs.kinds.worker j x _ hdir
        rw [hj]
        exact List.mem_singleton_self x
      · exact hs.kinds.verified x hx hdir
    refine ⟨hreleased.1, fun hrunning => ?_⟩
    rw [hrunning] at hreleased
    exact absurd hreleased.2 (by simp [MainPc.phase])

/-- One producer, one worker, directories wanted. -/
def tiny : Config where
  metadata := true
  data := true
  includeSkipped := false
  includeDirs := true
  producers := 1
  workers := 1
  queueMax := 4
  pipelineOps := 8
  workers_pos := by decide
  queueMax_pos := by decide

def tinyProducer : Fin tiny.producers := ⟨0, Nat.one_pos⟩

def tinyWorker : Fin tiny.workers := ⟨0, Nat.one_pos⟩

def tinyFile (name : Bytes) : Item := ⟨name, name, false, false, true⟩

def tinyDir : Item := ⟨[3], [3], false, true, true⟩

/-- One file and one directory are queued, verified and joined. -/
def tinyRun : List (Act tiny) :=
  [.callFile tinyProducer (tinyFile [1]), .lockFile tinyProducer, .queueDirectory tinyDir,
    .feederLock, .feederItem none, .feederAccount, .workerLock tinyWorker, .workerDone tinyWorker,
    .finish, .feederLock, .feederAccount, .joinFeeder, .release none, .workerLock tinyWorker,
    .workerDone tinyWorker, .closePool, .workerLock tinyWorker, .joinWorkers, .clearIntake]

theorem every_item_verified_once_tiny :
    ∃ s, exec step (State.start tiny) tinyRun = some s ∧ s.main = .returned ∧
      s.verified = [tinyFile [1], tinyDir] ∧ s.verified.count tinyDir = 1 := by
  have hr : exec step (State.start tiny) tinyRun =
      some ((exec step (State.start tiny) tinyRun).getD (State.start tiny)) := rfl
  have hreturned : ((exec step (State.start tiny) tinyRun).getD (State.start tiny)).main =
      .returned := by decide
  have hverified : ((exec step (State.start tiny) tinyRun).getD (State.start tiny)).verified =
      [tinyFile [1], tinyDir] := by decide
  refine ⟨_, hr, hreturned, hverified, ?_⟩
  exact (((every_item_verified_once (by decide) hr).2.1 hreturned).2 tinyDir rfl).trans (by decide)

/-- As `InTime`, but directories are queued at any time. -/
def FilesInTime (s : State c) : Act c → Prop
  | .queueDirectory _ => True
  | a => InTime s a

instance (s : State c) (a : Act c) : Decidable (FilesInTime s a) := by
  apply Act.casesOn (motive := fun a => Decidable (FilesInTime s a)) a <;> intros <;>
    dsimp only [FilesInTime] <;> infer_instance

/-- The first of two files is in the pool while the count still covers both. -/
def halfBatch : List (Act tiny) :=
  [.callFile tinyProducer (tinyFile [1]), .lockFile tinyProducer,
    .callFile tinyProducer (tinyFile [2]), .lockFile tinyProducer, .feederLock, .feederItem none]

/-- The directory list was taken before the directory is queued. -/
def lateDirectory : List (Act tiny) :=
  [.finish, .feederLock, .feederAccount, .joinFeeder, .queueDirectory tinyDir, .closePool,
    .workerLock tinyWorker, .joinWorkers, .clearIntake]

theorem count_lags_and_late_directory_lost :
    (∃ s, Along step InTime (State.start tiny) halfBatch ∧
      exec step (State.start tiny) halfBatch = some s ∧ s.feeder ≠ .exited ∧
      s.pending ≠ s.intake.length + s.gen.length + s.feeder.rest.length) ∧
    ∃ s, Along step FilesInTime (State.start tiny) lateDirectory ∧
      exec step (State.start tiny) lateDirectory = some s ∧ s.main = .returned ∧
      tiny.includeDirs = true ∧ tinyDir ∈ s.directories ∧ tinyDir ∉ s.verified := by
  have hhalf : exec step (State.start tiny) halfBatch =
      some ((exec step (State.start tiny) halfBatch).getD (State.start tiny)) := rfl
  have hlate : exec step (State.start tiny) lateDirectory =
      some ((exec step (State.start tiny) lateDirectory).getD (State.start tiny)) := rfl
  refine ⟨⟨_, by decide, hhalf, by decide, by decide⟩, ⟨_, by decide, hlate, by decide⟩⟩

end Ecopy.Verify.Pipeline
