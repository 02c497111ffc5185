import Ecopy.Verify.Pipeline

/-!
# Steps of the copy/verify pipeline

Without a shutdown, and with every queueing call over before the finish, a
transition is one of the moves listed in `Step`. Most of them carry one item from
one place to the next. What each phase of the run guarantees is `Phases`: once
the finish has begun nobody queues files, so the batch the feeder takes then is
the last one; when the feeder has left nothing is on its lists; the pool is closed
only after everything was submitted, and a worker leaves only an empty queue.
-/
namespace Ecopy.Verify.Pipeline
open Lib.Runs Lib.Threads

variable {c : Config}

def ProducerPc.waiting : ProducerPc → Bool
  | .parked _ => true
  | .woken _ => true
  | _ => false

/-- The producer is about to evaluate its wait condition under the lock. -/
def ProducerPc.AtLock (p : ProducerPc) (x : Item) : Prop := p = .entering x ∨ p = .woken x

def FeederPc.Idle (f : FeederPc) : Prop := f = .top ∨ f = .woken ∨ f = .expired

def WorkerPc.Idle (w : WorkerPc) : Prop := w = .top ∨ w = .woken

/-- The items on the feeder's list. -/
def FeederPc.rest : FeederPc → List Item
  | .busy rest _ _ => rest
  | _ => []

/-- The size of the batch that `g_pending_count` still counts. -/
def FeederPc.stolen : FeederPc → ℕ
  | .busy _ _ (.distribute n _ _) => n
  | _ => 0

/-- The feeder saw the stop flag when it took its batch. -/
def Task.stop : Task → Bool
  | .distribute _ _ stop => stop
  | .flush stop => stop

def MainPc.rest : MainPc → List Item
  | .releasing rest _ => rest
  | _ => []

/-- Progress of `verify_pipeline_finish`. -/
def MainPc.phase : MainPc → ℕ
  | .running => 0
  | .joining => 1
  | .releasing _ _ => 2
  | .closing => 3
  | .clearing => 4
  | .returned => 5

def WorkerPc.item : WorkerPc → List Item
  | .verifying x => [x]
  | _ => []

inductive Step (s : State c) : State c → Prop
  | same : Step s s
  | enter (i : Fin c.producers) (x : Item) (idle : s.producer i = .idle) (file : x.isDir = false)
      (running : s.main = .running) :
      Step s { s with producer := Function.update s.producer i (.entering x) }
  | filePark (i : Fin c.producers) (x : Item) (at_lock : (s.producer i).AtLock x)
      (full : c.queueMax ≤ s.pending) :
      Step s { s with
        spaceWaiters := s.spaceWaiters - (s.producer i).waiting.toNat + 1
        producer := Function.update s.producer i (.parked x) }
  | fileAppend (i : Fin c.producers) (x : Item) (at_lock : (s.producer i).AtLock x)
      (room : s.main = .running → s.feederStop = false → s.pending < c.queueMax) (f : FeederPc)
      (woke : f = s.feeder ∨ f = s.feeder.wake) :
      Step s { s with
        intake := s.intake ++ [x]
        pending := s.pending + 1
        spaceWaiters := s.spaceWaiters - (s.producer i).waiting.toNat
        files := s.files ++ [x]
        producer := Function.update s.producer i .idle
        feeder := f }
  | queueDirectory (x : Item) (dir : x.isDir = true) (running : s.main = .running) :
      Step s { s with dirs := s.dirs ++ [x], directories := s.directories ++ [x] }
  | producerWake (i : Fin c.producers) :
      Step s { s with producer := Function.update s.producer i (s.producer i).wake }
  | feederPark (idle : s.feeder.Idle) (n : ℕ) :
      Step s { s with queueCvWaiters := n, feeder := .parked }
  | feederWake (parked : s.feeder = .parked) (f : FeederPc) (woke : f = .woken ∨ f = .expired) :
      Step s { s with feeder := f }
  | feederTake (idle : s.feeder.Idle) (n : ℕ) (timedOut : Bool) :
      Step s { s with
        intake := []
        queueCvWaiters := n
        feeder := .busy s.intake .fresh (.distribute s.intake.length timedOut s.feederStop) }
  | feederWait (rest : List Item) (sub sub' : Sub) (task : Task)
      (busy : s.feeder = .busy rest sub task) :
      Step s { s with feeder := .busy rest sub' task }
  | keep (x : Item) (rest : List Item) (sub : Sub) (n : ℕ) (timedOut stop : Bool)
      (busy : s.feeder = .busy (x :: rest) sub (.distribute n timedOut stop)) :
      Step s { s with
        gen := s.gen ++ [x], feeder := .busy rest .fresh (.distribute n timedOut stop) }
  | feederSubmit (x : Item) (rest : List Item) (sub : Sub) (task : Task)
      (busy : s.feeder = .busy (x :: rest) sub task) (w : Fin c.workers → WorkerPc)
      (wake : Option (Fin c.workers)) (woke : signal .parked .woken s.worker wake = some w) :
      Step s { s with queue := s.queue ++ [x], worker := w, feeder := .busy rest .fresh task }
  | feederRefused (x : Item) (rest : List Item) (sub : Sub) (task : Task)
      (busy : s.feeder = .busy (x :: rest) sub task) (closed : s.poolStop = true) :
      Step s { s with dropped := s.dropped ++ [x], feeder := .busy rest .fresh task }
  | account (sub : Sub) (n : ℕ) (timedOut stop : Bool)
      (busy : s.feeder = .busy [] sub (.distribute n timedOut stop))
      (p : Fin c.producers → ProducerPc)
      (woke : (n = 0 ∨ s.spaceWaiters = 0) ∧ p = s.producer ∨ p = fun i => (s.producer i).wake) :
      Step s { s with
        pending := s.pending - n
        producer := p
        feeder := (nextTask c s.gen timedOut stop).1
        gen := (nextTask c s.gen timedOut stop).2 }
  | flushed (sub : Sub) (stop : Bool) (busy : s.feeder = .busy [] sub (.flush stop)) :
      Step s { s with feeder := if stop then .exited else .top }
  | workerPark (j : Fin c.workers) (idle : (s.worker j).Idle) :
      Step s { s with worker := Function.update s.worker j .parked }
  | workerWake (j : Fin c.workers) (parked : s.worker j = .parked) :
      Step s { s with worker := Function.update s.worker j .woken }
  | workerExit (j : Fin c.workers) (idle : (s.worker j).Idle) (empty : s.queue = [])
      (closed : s.poolStop = true) :
      Step s { s with worker := Function.update s.worker j .exited }
  | workerPop (j : Fin c.workers) (idle : (s.worker j).Idle) (x : Item) (queue : List Item)
      (first : s.queue = x :: queue) :
      Step s { s with queue := queue, worker := Function.update s.worker j (.verifying x) }
  | workerDone (j : Fin c.workers) (x : Item) (verifying : s.worker j = .verifying x) :
      Step s { s with
        verified := s.verified ++ [x], worker := Function.update s.worker j .top }
  | finish (running : s.main = .running) (complete : ∀ i, s.producer i = .idle) :
      Step s { s with feederStop := true, feeder := s.feeder.wake, main := .joining }
  | joinFeeder (joining : s.main = .joining) (left : s.feeder = .exited) :
      Step s { s with dirs := [], main := .releasing s.dirs .fresh }
  | releaseWait (rest : List Item) (sub sub' : Sub) (at_item : s.main = .releasing rest sub) :
      Step s { s with main := .releasing rest sub' }
  | releaseSubmit (x : Item) (rest : List Item) (sub : Sub)
      (at_item : s.main = .releasing (x :: rest) sub) (wanted : c.includeDirs = true)
      (w : Fin c.workers → WorkerPc) (wake : Option (Fin c.workers))
      (woke : signal .parked .woken s.worker wake = some w) :
      Step s { s with queue := s.queue ++ [x], worker := w, main := .releasing rest .fresh }
  | releaseRefused (x : Item) (rest : List Item) (sub : Sub)
      (at_item : s.main = .releasing (x :: rest) sub) (closed : s.poolStop = true) :
      Step s { s with dropped := s.dropped ++ [x], main := .releasing rest .fresh }
  | releaseSkip (x : Item) (rest : List Item) (sub : Sub)
      (at_item : s.main = .releasing (x :: rest) sub) (unwanted : c.includeDirs = false) :
      Step s { s with dropped := s.dropped ++ [x], main := .releasing rest .fresh }
  | closePool (sub : Sub) (at_end : s.main = .releasing [] sub) :
      Step s { s with
        poolStop := true, worker := broadcast .parked .woken s.worker, main := .closing }
  | joinWorkers (closing : s.main = .closing) (left : ∀ j, s.worker j = .exited) :
      Step s { s with queue := [], dropped := s.dropped ++ s.queue, main := .clearing }
  | clear (clearing : s.main = .clearing) (p : Fin c.producers → ProducerPc)
      (woke : s.spaceWaiters = 0 ∧ p = s.producer ∨ p = fun i => (s.producer i).wake) :
      Step s { s with
        intake := []
        pending := 0
        producer := p
        dropped := s.dropped ++ s.intake
        main := .returned }

variable {s u : State c}

theorem fileBody_step {i : Fin c.producers} {x : Item} (at_lock : (s.producer i).AtLock x) :
    Step s (fileBody { s with
      spaceWaiters := s.spaceWaiters - (s.producer i).waiting.toNat } i x) := by
  unfold fileBody
  by_cases hfull : (State.feederStarted { s with
      spaceWaiters := s.spaceWaiters - (s.producer i).waiting.toNat } && !s.feederStop &&
        decide (s.pending ≥ c.queueMax)) = true
  · rw [if_pos hfull]
    simp only [Bool.and_eq_true, decide_eq_true_eq] at hfull
    exact .filePark i x at_lock hfull.2
  · rw [if_neg hfull]
    have hroom : s.main = .running → s.feederStop = false → s.pending < c.queueMax := by
      intro hrun hstop
      by_contra hge
      apply hfull
      simp [State.feederStarted, hrun, hstop]
      omega
    split_ifs
    · exact .fileAppend i x at_lock hroom _ (Or.inr rfl)
    · exact .fileAppend i x at_lock hroom _ (Or.inl rfl)

theorem lockFile_step {i : Fin c.producers} (h : lockFile s i = some u) : Step s u := by
  unfold lockFile at h
  split at h
  · next x hat =>
    cases h
    have hmove := fileBody_step (s := s) (i := i) (x := x) (Or.inl hat)
    simpa only [hat, ProducerPc.waiting, Bool.toNat_false, Nat.sub_zero] using hmove
  · next x hat =>
    cases h
    have hmove := fileBody_step (s := s) (i := i) (x := x) (Or.inr hat)
    simpa only [hat, ProducerPc.waiting, Bool.toNat_true] using hmove
  · cases h

theorem takeBatch_step (hshut : s.shutdown = false) (idle : s.feeder.Idle) (n : ℕ)
    (timedOut : Bool) : Step s (takeBatch { s with queueCvWaiters := n } timedOut) := by
  unfold takeBatch
  rw [if_neg (by simp [hshut])]
  exact .feederTake idle n timedOut

theorem feederBody_step (hshut : s.shutdown = false) (idle : s.feeder.Idle) (n : ℕ) :
    Step s (feederBody { s with queueCvWaiters := n }) := by
  unfold feederBody
  split_ifs
  · exact .feederPark idle (n + 1)
  · exact takeBatch_step hshut idle n false

theorem feederLock_step (hshut : s.shutdown = false) (h : feederLock s = some u) : Step s u := by
  unfold feederLock at h
  split at h
  · next hat =>
    cases h
    exact feederBody_step hshut (Or.inl hat) s.queueCvWaiters
  · next hat =>
    cases h
    exact feederBody_step hshut (Or.inr (Or.inl hat)) (s.queueCvWaiters - 1)
  · next hat =>
    cases h
    exact takeBatch_step hshut (Or.inr (Or.inr hat)) (s.queueCvWaiters - 1) true
  · cases h

/-- A call of `verify_pool_submit` waits, is refused by a closed pool, or wakes a worker. -/
theorem submit_cases (hshut : s.shutdown = false) {wake : Option (Fin c.workers)}
    {r : Submitted c} (h : submit s wake = some r) :
    r = .waits ∨ (r = .refused ∧ s.poolStop = true) ∨
      ∃ w, r = .accepted w ∧ signal .parked .woken s.worker wake = some w := by
  unfold submit at h
  split_ifs at h with hfull hclosed
  · cases h
    exact Or.inl rfl
  · cases h
    refine Or.inr (Or.inl ⟨rfl, ?_⟩)
    simpa [hshut] using hclosed
  · obtain ⟨w, hw, rfl⟩ := Option.map_eq_some_iff.mp h
    exact Or.inr (Or.inr ⟨w, rfl, hw⟩)

theorem feederItem_step (hshut : s.shutdown = false) {wake : Option (Fin c.workers)}
    (h : feederItem s wake = some u) : Step s u := by
  unfold feederItem at h
  split at h
  · next x rest sub task hbusy =>
    have hdeliver : ∀ r, submit s wake = some r → offered s x rest task r = u → Step s u := by
      rintro r hr rfl
      obtain rfl | ⟨rfl, hclosed⟩ | ⟨w, rfl, hw⟩ := submit_cases hshut hr
      · exact .feederWait (x :: rest) sub .parked task hbusy
      · exact .feederRefused x rest sub task hbusy hclosed
      · exact .feederSubmit x rest sub task hbusy w wake hw
    split_ifs at h
    cases task with
    | distribute n timedOut stop =>
      cases hdurable : x.durable with
      | false =>
        rw [hdurable] at h
        cases h
        exact .keep x rest sub n timedOut stop hbusy
      | true =>
        rw [hdurable] at h
        obtain ⟨r, hr, hu⟩ := Option.map_eq_some_iff.mp h
        exact hdeliver r hr hu
    | flush stop =>
      obtain ⟨r, hr, hu⟩ := Option.map_eq_some_iff.mp h
      exact hdeliver r hr hu
  · cases h

theorem feederAccount_step (h : feederAccount s = some u) : Step s u := by
  unfold feederAccount at h
  split at h
  · next sub n timedOut stop hbusy =>
    cases h
    by_cases hn : n > 0
    · by_cases hw : s.spaceWaiters > 0
      · simp only [if_pos hn, if_pos hw]
        exact .account sub n timedOut stop hbusy _ (Or.inr rfl)
      · simp only [if_pos hn, if_neg hw]
        exact .account sub n timedOut stop hbusy s.producer
          (Or.inl ⟨Or.inr (Nat.eq_zero_of_not_pos hw), rfl⟩)
    · have hzero : n = 0 := Nat.eq_zero_of_not_pos hn
      simp only [if_neg hn]
      have hmove := Step.account sub n timedOut stop hbusy s.producer (Or.inl ⟨Or.inl hzero, rfl⟩)
      rwa [hzero, Nat.sub_zero] at hmove
  · next sub stop hbusy =>
    cases h
    exact .flushed sub stop hbusy
  · cases h

/-- A wake for a thread in `verify_pool_submit`. -/
theorem signalPoolSpace_step (s : State c) : Step s (signalPoolSpace s) := by
  unfold signalPoolSpace
  split
  · next hbusy => exact .feederWait _ .parked .woken _ hbusy
  · next hat _ => exact .releaseWait _ .parked .woken (by assumption)
  · exact .same

/-- Two moves in one critical section. -/
def Moves (s u : State c) : Prop := ∃ v, Step s v ∧ Step v u

theorem Step.moves (h : Step s u) : Moves s u := ⟨u, h, .same⟩

theorem workerBody_moves (hshut : s.shutdown = false) {j : Fin c.workers}
    (idle : (s.worker j).Idle) : Moves s (workerBody s j) := by
  unfold workerBody
  split
  · next hempty =>
    split_ifs with hclosed
    · exact (Step.workerExit j idle hempty hclosed).moves
    · exact (Step.workerPark j idle).moves
  · next x queue hfirst =>
    rw [if_neg (by simp [hshut])]
    exact ⟨_, .workerPop j idle x queue hfirst, signalPoolSpace_step _⟩

theorem release_step (hshut : s.shutdown = false) {wake : Option (Fin c.workers)}
    (h : release s wake = some u) : Step s u := by
  unfold release at h
  split at h
  · next x rest sub hat =>
    split_ifs at h with hsub hwanted
    · obtain ⟨r, hr, rfl⟩ := Option.map_eq_some_iff.mp h
      obtain rfl | ⟨rfl, hclosed⟩ | ⟨w, rfl, hw⟩ := submit_cases hshut hr
      · exact .releaseWait (x :: rest) sub .parked hat
      · exact .releaseRefused x rest sub hat hclosed
      · exact .releaseSubmit x rest sub hat hwanted w wake hw
    · cases h
      exact .releaseSkip x rest sub hat (by simpa using hwanted)
  · cases h

/-- An action in time is one of the moves, or two. -/
theorem step_moves {a : Act c} (h : step s a = some u) (htime : InTime s a)
    (hshut : s.shutdown = false) : Moves s u := by
  cases a with
  | callFile i x =>
    simp only [step, callFile] at h
    split_ifs at h with hcall hfilter
    · cases h
      exact Step.same.moves
    · cases h
      exact (Step.enter i x hcall.1 hcall.2 htime).moves
  | lockFile i => exact (lockFile_step h).moves
  | queueDirectory x =>
    simp only [step, queueDirectory] at h
    split_ifs at h with hdir hmeta
    · cases h
      exact Step.same.moves
    · cases h
      exact (Step.queueDirectory x hdir htime).moves
  | feederLock => exact (feederLock_step hshut h).moves
  | feederExpire =>
    simp only [step, Option.ite_none_right_eq_some, Option.some.injEq] at h
    obtain ⟨hparked, rfl⟩ := h
    exact (Step.feederWake hparked .expired (Or.inr rfl)).moves
  | feederItem wake => exact (feederItem_step hshut h).moves
  | feederAccount => exact (feederAccount_step h).moves
  | workerLock j =>
    simp only [step, workerLock] at h
    split at h
    · next hat =>
      cases h
      exact workerBody_moves hshut (Or.inl hat)
    · next hat =>
      cases h
      exact workerBody_moves hshut (Or.inr hat)
    · cases h
  | workerDone j =>
    simp only [step, workerDone] at h
    split at h
    · next x hat =>
      cases h
      exact (Step.workerDone j x hat).moves
    · cases h
  | finish =>
    simp only [step, finish, Option.ite_none_right_eq_some, Option.some.injEq] at h
    obtain ⟨hrunning, rfl⟩ := h
    exact (Step.finish hrunning htime).moves
  | joinFeeder =>
    simp only [step, joinFeeder, Option.ite_none_right_eq_some, Option.some.injEq] at h
    obtain ⟨hjoin, rfl⟩ := h
    exact (Step.joinFeeder hjoin.1 hjoin.2).moves
  | release wake => exact (release_step hshut h).moves
  | closePool =>
    simp only [step, closePool] at h
    split at h
    · next sub hat =>
      cases h
      exact (Step.closePool sub hat).moves
    · cases h
  | joinWorkers =>
    simp only [step, joinWorkers, Option.ite_none_right_eq_some, Option.some.injEq] at h
    obtain ⟨hjoin, rfl⟩ := h
    exact (Step.joinWorkers hjoin.1 hjoin.2).moves
  | clearIntake =>
    simp only [step, clearIntake, Option.ite_none_right_eq_some, Option.some.injEq] at h
    obtain ⟨hclearing, rfl⟩ := h
    split_ifs with hw
    · exact (Step.clear hclearing _ (Or.inr rfl)).moves
    · exact (Step.clear hclearing s.producer (Or.inl ⟨Nat.eq_zero_of_not_pos hw, rfl⟩)).moves
  | spuriousProducer i =>
    cases h
    exact (Step.producerWake i).moves
  | spuriousFeeder =>
    simp only [step, Option.ite_none_right_eq_some, Option.some.injEq] at h
    obtain ⟨hparked, rfl⟩ := h
    exact (Step.feederWake hparked .woken (Or.inl rfl)).moves
  | spuriousSubmitter =>
    cases h
    exact (signalPoolSpace_step s).moves
  | spuriousWorker j =>
    simp only [step, Option.ite_none_right_eq_some, Option.some.injEq] at h
    obtain ⟨hparked, rfl⟩ := h
    exact (Step.workerWake j hparked).moves
  | shutdown => exact htime.elim
  | requestStopFeeder => exact htime.elim
  | requestStopPool => exact htime.elim

theorem Step.shutdown_eq (h : Step s u) : u.shutdown = s.shutdown := by
  cases h <;> rfl

/-- A run in time keeps what every move keeps. -/
theorem in_time_invariant {I : State c → Prop} (hstart : I (State.start c))
    (hstep : ∀ s u, Step s u → I s → I u) {as : List (Act c)} {s : State c}
    (htime : Along step InTime (State.start c) as) (hr : exec step (State.start c) as = some s) :
    I s := by
  have h : I s ∧ s.shutdown = false := by
    refine htime.invariant (I := fun s => I s ∧ s.shutdown = false) ?_ ⟨hstart, rfl⟩ hr
    intro s a u ha hs hu
    obtain ⟨v, hv, hvu⟩ := step_moves hu ha hs.2
    constructor
    · exact hstep v u hvu (hstep s v hv hs.1)
    · rw [hvu.shutdown_eq, hv.shutdown_eq]
      exact hs.2
  exact h.1

end Ecopy.Verify.Pipeline
