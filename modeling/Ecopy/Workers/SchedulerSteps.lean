import Ecopy.Workers.Scheduler

/-!
# Steps of the copy scheduler

What each critical section of the scheduler can do, as one relation, and the
counters that every step keeps: the waiter counts, the slots, the length of the
small queue and the limits.
-/
namespace Ecopy.Workers.Scheduler
open Lib.Runs Lib.Threads
open Heap (Entry heapPush heapPopMax)

variable {P : Pool}

def Pc.waiting (c : Pc) : Bool := c = .parked || c = .woken

@[simp] theorem Pc.waiting_ready : Pc.ready.waiting = false := rfl
@[simp] theorem Pc.waiting_parked : Pc.parked.waiting = true := rfl
@[simp] theorem Pc.waiting_woken : Pc.woken.waiting = true := rfl
@[simp] theorem Pc.waiting_exited : Pc.exited.waiting = false := rfl
@[simp] theorem Pc.waiting_copying (t : Task) : (Pc.copying t).waiting = false := rfl
@[simp] theorem Pc.waiting_starting (t : Task) : (Pc.starting t).waiting = false := rfl

/-- States of a worker in which it never holds a small slot. -/
def Pc.slotless (c : Pc) : Prop := c = .parked ∨ c = .woken ∨ c = .exited

def Pc.isStarting : Pc → Bool
  | .starting _ => true
  | _ => false

def Producer.waiting : Producer → Bool
  | .parked _ => true
  | .woken _ => true
  | _ => false

/-- The part of a producer's batch that is not queued yet. -/
def Producer.rest : Producer → List Task
  | .idle => []
  | .pending batch => batch
  | .parked batch => batch
  | .woken batch => batch

/-- What a signal on `g_space_cond` does to the producers. -/
structure SpaceWake (s : State P) (producer : Fin P.producers → Producer) : Prop where
  change : producer = s.producer ∨ ∃ k batch, s.producer k = .parked batch ∧
    producer = Function.update s.producer k (.woken batch)
  sent : 0 < s.spaceWaiters → P.config.maxQueuedFiles - s.queued ≥ spaceWakeMin P →
    (∃ k batch, producer k = .woken batch) ∨ ∀ k, (producer k).isParked = false

variable {s u : State P}

theorem wakeProducerIfRoom_cases {wake : Option (Fin P.producers)}
    (h : wakeProducerIfRoom s wake = some u) :
    ∃ pr, SpaceWake s pr ∧ u = { s with producer := pr } := by
  unfold wakeProducerIfRoom at h
  split_ifs at h with hroom hnone
  · unfold signalSpace at h
    split at h
    next k =>
      split at h
      next batch hk =>
        cases h
        refine ⟨_, ⟨Or.inr ⟨k, batch, hk, rfl⟩, fun _ _ => Or.inl ⟨k, batch, ?_⟩⟩, rfl⟩
        exact Function.update_self ..
      next => cases h
    · split_ifs at h with hall
      cases h
      exact ⟨s.producer, ⟨Or.inl rfl, fun _ _ => Or.inr hall⟩, rfl⟩
  · cases h
    exact ⟨s.producer, ⟨Or.inl rfl, fun hw hr => absurd ⟨hw, hr⟩ hroom⟩, rfl⟩

/-- A worker inside the loop of `dequeue_work`, with an empty stash. -/
def State.looping (s : State P) (i : Fin P.workers) : Prop :=
  s.pc i = .woken ∨ s.pc i = .ready ∧ s.stash i = []

/-- The waiter count once a worker is awake again. -/
def State.othersWaiting (s : State P) (i : Fin P.workers) : ℕ :=
  s.queueWaiters - (s.pc i).waiting.toNat

/-- What is left of the small queue after a claim of `run` from its head. -/
def SmallQueue.after (q : SmallQueue) (b : DirBatch) (run : ℕ) : SmallQueue :=
  if b.head + run < b.count then smallqPushBatch q { b with head := b.head + run } else q

/-- The state of the queue once a worker without work has given its slot back. -/
def State.finished (s : State P) (i : Fin P.workers) : Prop :=
  s.queueDone = true ∧ s.smallQ.len = 0 ∧ s.largeHeap.length = 0 ∧
    s.smallWorkersActive - (s.smallSlot i).toNat = 0 ∧ s.largeWorkersActive = 0

instance (s : State P) (i : Fin P.workers) : Decidable (s.finished i) := by
  unfold State.finished
  infer_instance

/-- The steps, with the guards under which they are taken. -/
inductive Step (s : State P) : Act P → State P → Prop
  | refill {i t rest} (ready : s.pc i = .ready) (stash : s.stash i = t :: rest) :
      Step s (.dequeue i none) { s with
        pc := Function.update s.pc i (.copying t)
        stash := Function.update s.stash i rest
        handed := s.handed ++ [t] }
  | large {i wake e rest pr} (looping : s.looping i) (fits : s.largeClaimable)
      (pop : heapPopMax s.largeHeap = some (e, rest))
      (wakes : SpaceWake { s with largeHeap := rest } pr) :
      Step s (.dequeue i wake) { s with
        largeHeap := rest
        largeWorkersActive := s.largeWorkersActive + 1
        queueWaiters := s.othersWaiting i
        pc := Function.update s.pc i (.starting e.task)
        handed := s.handed ++ [e.task]
        producer := pr }
  | small {i wake b q t stash pr} (looping : s.looping i) (no_large : ¬s.largeClaimable)
      (some_small : 0 < s.smallQ.len) (slot : s.smallSlot i = true ∨ s.smallClaimable)
      (pop : smallqPopBatch s.smallQ = some (b, q))
      (run : (b.tasks.drop b.head).take smallClaimBatch = t :: stash)
      (wakes : SpaceWake { s with smallQ := q } pr) :
      Step s (.dequeue i wake) { s with
        smallQ := q.after b (stash.length + 1)
        smallWorkersActive :=
          if s.smallSlot i then s.smallWorkersActive else s.smallWorkersActive + 1
        smallSlot := Function.update s.smallSlot i true
        queueWaiters := s.othersWaiting i
        pc := Function.update s.pc i (.copying t)
        stash := Function.update s.stash i stash
        handed := s.handed ++ [t]
        producer := pr }
  | exit {i} (looping : s.looping i) (no_large : ¬s.largeClaimable)
      (finished : s.finished i) :
      Step s (.dequeue i none) { s with
        smallWorkersActive := s.smallWorkersActive - (s.smallSlot i).toNat
        smallSlot := Function.update s.smallSlot i false
        queueWaiters := s.othersWaiting i
        pc := Function.update
          (if s.smallSlot i then broadcast .parked .woken s.pc else s.pc) i .exited }
  | park {i} (looping : s.looping i) (no_large : ¬s.largeClaimable)
      (no_small : ¬(0 < s.smallQ.len ∧ (s.smallSlot i = true ∨ s.smallClaimable)))
      (unfinished : ¬s.finished i) :
      Step s (.dequeue i none) { s with
        smallWorkersActive := s.smallWorkersActive - (s.smallSlot i).toNat
        smallSlot := Function.update s.smallSlot i false
        queueWaiters := s.othersWaiting i + 1
        pc := Function.update s.pc i .parked }
  | copied {i t} (copying : s.pc i = .copying t) :
      Step s (.copied i) { s with pc := Function.update s.pc i .ready }
  | started {i t} (starting : s.pc i = .starting t) :
      Step s (.started i true) { s with
        pipelines := s.pipelines + 1
        pc := Function.update s.pc i .ready }
  | startFailed {i t} (starting : s.pc i = .starting t) :
      Step s (.started i false) { s with
        largeWorkersActive := s.largeWorkersActive - 1
        pc := broadcast .parked .woken (Function.update s.pc i .ready) }
  | finishLarge (running : 0 < s.pipelines) :
      Step s .finishLarge { s with
        pipelines := s.pipelines - 1
        largeWorkersActive := s.largeWorkersActive - 1
        pc := broadcast .parked .woken s.pc }
  | submit {k batch} (idle : s.producer k = .idle) (nonempty : batch ≠ []) :
      Step s (.submit k batch) { s with
        producer := Function.update s.producer k (.pending batch) }
  | waitSpace {k batch} (active : s.producer k = .pending batch ∨ s.producer k = .woken batch)
      (full : P.config.maxQueuedFiles - s.queued < min batch.length (spaceWakeMin P)) :
      Step s (.enqueue k []) { s with
        spaceWaiters := s.spaceWaiters - (s.producer k).waiting.toNat + 1
        producer := Function.update s.producer k (.parked batch) }
  | slice {k batch wakes take heap seq small q pc}
      (active : s.producer k = .pending batch ∨ s.producer k = .woken batch)
      (room : min batch.length (spaceWakeMin P) ≤ P.config.maxQueuedFiles - s.queued)
      (taken : take = min batch.length (P.config.maxQueuedFiles - s.queued))
      (split : distribute P (batch.take take) s.largeHeap s.enqueueSeq = (heap, seq, small))
      (push : q = if small = [] then s.smallQ else smallqPushBatch s.smallQ ⟨0, small⟩)
      (count : wakes.length = wakesFor { s with
        largeHeap := heap
        enqueueSeq := seq
        smallQ := q })
      (signal : signals .parked .woken s.pc wakes = some pc) :
      Step s (.enqueue k wakes) { s with
        largeHeap := heap
        enqueueSeq := seq
        smallQ := q
        spaceWaiters := s.spaceWaiters - (s.producer k).waiting.toNat
        producer := Function.update s.producer k
          (if batch.drop take = [] then .idle else .pending (batch.drop take))
        pc := pc }
  | abandon {k batch} (pending : s.producer k = .pending batch) :
      Step s (.abandon k) { s with producer := Function.update s.producer k .idle }
  | reserveFailed {k batch} (woken : s.producer k = .woken batch)
      (room : min batch.length (spaceWakeMin P) ≤ P.config.maxQueuedFiles - s.queued)
      (large : ∃ t ∈ batch.take (min batch.length (P.config.maxQueuedFiles - s.queued)),
        taskUsesLargePipeline P t = true) :
      Step s (.reserveFails k) { s with
        spaceWaiters := s.spaceWaiters - (s.producer k).waiting.toNat
        producer := Function.update s.producer k .idle }
  | stop : Step s .workersStop { s with
        queueDone := true
        pc := broadcast .parked .woken s.pc }
  | spuriousWorker {i} (parked : s.pc i = .parked) :
      Step s (.spuriousWorker i) { s with pc := Function.update s.pc i .woken }
  | spuriousProducer {k batch} (parked : s.producer k = .parked batch) :
      Step s (.spuriousProducer k) { s with
        producer := Function.update s.producer k (.woken batch) }

theorem releaseSlot_eq (s : State P) (i : Fin P.workers) :
    releaseSlot s i = { s with
      smallWorkersActive := s.smallWorkersActive - (s.smallSlot i).toNat
      smallSlot := Function.update s.smallSlot i false
      pc := if s.smallSlot i = true ∧ s.finished i then broadcast .parked .woken s.pc else s.pc } := by
  unfold releaseSlot
  cases hslot : s.smallSlot i with
  | false =>
    have hself : Function.update s.smallSlot i false = s.smallSlot := by
      rw [← hslot, Function.update_eq_self]
    simp [hself]
  | true =>
    have hfin : State.terminal { s with
        smallSlot := Function.update s.smallSlot i false
        smallWorkersActive := s.smallWorkersActive - 1 } ↔ s.finished i := by
      simp [State.finished, State.terminal, hslot]
    simp only [if_true, true_and, Bool.toNat_true, hfin]
    split_ifs <;> rfl

theorem terminal_releaseSlot (s : State P) (i : Fin P.workers) :
    (releaseSlot s i).terminal ↔ s.finished i := by
  rw [releaseSlot_eq]
  exact Iff.rfl

theorem leaveOrPark_step {i : Fin P.workers} (looping : s.looping i)
    (no_large : ¬s.largeClaimable)
    (no_small : ¬(0 < s.smallQ.len ∧ (s.smallSlot i = true ∨ s.smallClaimable))) :
    Step s (.dequeue i none)
      (leaveOrPark (releaseSlot { s with queueWaiters := s.othersWaiting i } i) i) := by
  have hterm := terminal_releaseSlot { s with queueWaiters := s.othersWaiting i } i
  have hsame : State.finished { s with queueWaiters := s.othersWaiting i } i ↔ s.finished i := Iff.rfl
  rw [hsame] at hterm
  unfold leaveOrPark
  split_ifs with h
  · have hfin := hterm.mp h
    rw [releaseSlot_eq]
    simp only [hsame, hfin, and_true]
    exact .exit looping no_large hfin
  · have hfin := mt hterm.mpr h
    rw [releaseSlot_eq]
    simp only [hsame, hfin, and_false, if_false]
    exact .park looping no_large no_small hfin

theorem dequeueRound_step {i : Fin P.workers} {wake : Option (Fin P.producers)}
    (looping : s.looping i)
    (h : dequeueRound { s with queueWaiters := s.othersWaiting i } i wake = some u) :
    Step s (.dequeue i wake) u := by
  unfold dequeueRound at h
  split_ifs at h with hlarge hsmall hnone
  · unfold claimLarge at h
    obtain ⟨⟨e, rest⟩, hpop, hu⟩ := Option.bind_eq_some_iff.mp h
    obtain ⟨pr, hwake, rfl⟩ := wakeProducerIfRoom_cases hu
    exact .large looping hlarge hpop ⟨hwake.change, hwake.sent⟩
  · unfold claimSmall at h
    obtain ⟨⟨b, q⟩, hpop, hu⟩ := Option.bind_eq_some_iff.mp h
    obtain ⟨v, hv, hu⟩ := Option.bind_eq_some_iff.mp hu
    obtain ⟨pr, hwake, rfl⟩ := wakeProducerIfRoom_cases hv
    dsimp only at hu
    split at hu
    · cases hu
    next t stash hrun =>
      cases hu
      rw [hrun]
      exact .small looping hlarge hsmall.1 hsmall.2 hpop hrun ⟨hwake.change, hwake.sent⟩
  · cases h
    subst hnone
    exact leaveOrPark_step looping hlarge hsmall

theorem enqueueRound_step {k : Fin P.producers} {batch : List Task}
    {wakes : List (Option (Fin P.workers))}
    (active : s.producer k = .pending batch ∨ s.producer k = .woken batch)
    (h : enqueueRound { s with spaceWaiters := s.spaceWaiters - (s.producer k).waiting.toNat } k batch
      wakes = some u) : Step s (.enqueue k wakes) u := by
  unfold enqueueRound at h
  dsimp only at h
  rw [← min_def_lt] at h
  split_ifs at h with hfull hnone
  · cases h
    subst hnone
    exact .waitSpace active hfull
  · unfold enqueueSlice at h
    obtain ⟨⟨heap, seq, small⟩, hsplit⟩ : ∃ r, distribute P (batch.take (min batch.length
        (P.config.maxQueuedFiles - s.queued))) s.largeHeap s.enqueueSeq = r := ⟨_, rfl⟩
    dsimp only at h
    rw [show State.queued { s with spaceWaiters := s.spaceWaiters - (s.producer k).waiting.toNat } =
      s.queued from rfl] at h
    rw [hsplit] at h
    dsimp only at h
    by_cases hsmall : small = []
    · rw [if_pos hsmall, Option.ite_none_right_eq_some] at h
      obtain ⟨hcount, hsig⟩ := h
      obtain ⟨pc, hpc, rfl⟩ := Option.map_eq_some_iff.mp hsig
      exact .slice active (Nat.not_lt.mp hfull) rfl hsplit (if_pos hsmall).symm hcount hpc
    · rw [if_neg hsmall, Option.ite_none_right_eq_some] at h
      obtain ⟨hcount, hsig⟩ := h
      obtain ⟨pc, hpc, rfl⟩ := Option.map_eq_some_iff.mp hsig
      exact .slice active (Nat.not_lt.mp hfull) rfl hsplit (if_neg hsmall).symm hcount hpc

/-- Every step of the scheduler is one of these. -/
theorem step_step {a : Act P} (h : step s a = some u) : Step s a u := by
  cases a with
  | dequeue i wake =>
    simp only [step, dequeueWork] at h
    split at h
    next hpc =>
      split at h
      next t rest hstash =>
        split_ifs at h with hwake
        cases h
        subst hwake
        exact .refill hpc hstash
      next hstash =>
        apply dequeueRound_step (Or.inr ⟨hpc, hstash⟩)
        rw [State.othersWaiting, hpc]
        exact h
    next hpc =>
      apply dequeueRound_step (Or.inl hpc)
      rw [State.othersWaiting, hpc]
      exact h
    next => cases h
  | copied i =>
    simp only [step] at h
    split at h
    next t hpc =>
      cases h
      exact .copied hpc
    next => cases h
  | started i ok =>
    simp only [step] at h
    split at h
    next t hpc =>
      cases ok with
      | true =>
        cases h
        exact .started hpc
      | false =>
        cases h
        exact .startFailed hpc
    next => cases h
  | finishLarge =>
    simp only [step, Option.ite_none_right_eq_some] at h
    obtain ⟨hrun, h⟩ := h
    cases h
    exact .finishLarge hrun
  | submit k batch =>
    simp only [step] at h
    split at h
    next hidle =>
      split_ifs at h with hempty
      cases h
      exact .submit hidle hempty
    next => cases h
  | enqueue k wakes =>
    simp only [step, enqueueBatch] at h
    split at h
    next batch hk =>
      apply enqueueRound_step (Or.inl hk)
      rw [hk]
      exact h
    next batch hk =>
      apply enqueueRound_step (Or.inr hk)
      rw [hk]
      exact h
    next => cases h
  | abandon k =>
    simp only [step] at h
    split at h
    next batch hk =>
      cases h
      exact .abandon hk
    next => cases h
  | reserveFails k =>
    simp only [step] at h
    split at h
    next batch hk =>
      obtain ⟨⟨hroom, hlarge⟩, hu⟩ := Option.ite_none_right_eq_some.mp h
      rw [← min_def_lt] at hroom
      cases hu
      have hleft := Step.reserveFailed hk hroom hlarge
      rw [hk] at hleft
      exact hleft
    next => cases h
  | workersStop =>
    cases h
    exact .stop
  | spuriousWorker i =>
    simp only [step, Option.ite_none_right_eq_some] at h
    obtain ⟨hpc, h⟩ := h
    cases h
    exact .spuriousWorker hpc
  | spuriousProducer k =>
    simp only [step] at h
    split at h
    next batch hk =>
      cases h
      exact .spuriousProducer hk
    next => cases h

structure Slots (s : State P) : Prop where
  counted : s.smallWorkersActive = count id s.smallSlot
  resting : ∀ i, (s.pc i).slotless → s.smallSlot i = false

def Waiters (s : State P) : Prop := s.queueWaiters = count Pc.waiting s.pc

theorem slotless_of_broadcast {f : Fin P.workers → Pc} {k : Fin P.workers}
    (h : (broadcast .parked .woken f k).slotless) : (f k).slotless := by
  obtain hk | ⟨hk, -⟩ := broadcast_apply Pc.parked .woken f k
  · rwa [hk] at h
  · exact Or.inl hk

theorem slotless_of_signals {f g : Fin P.workers → Pc} {wakes : List (Option (Fin P.workers))}
    (h : signals .parked .woken f wakes = some g) {k : Fin P.workers} (hk : (g k).slotless) :
    (f k).slotless := by
  obtain hsame | ⟨hpark, -⟩ := signals_apply h k
  · rwa [hsame] at hk
  · exact Or.inl hpark

theorem count_waiting_broadcast (f : Fin P.workers → Pc) :
    count Pc.waiting (broadcast .parked .woken f) = count Pc.waiting f :=
  total_broadcast Pc.parked .woken rfl f

/-- A worker that leaves the wait set or was not in it is no longer counted. -/
theorem Waiters.othersWaiting (h : Waiters s) (i : Fin P.workers) :
    s.othersWaiting i + (s.pc i).waiting.toNat = count Pc.waiting s.pc := by
  have hone := toNat_le_count Pc.waiting s.pc i
  rw [State.othersWaiting, h]
  omega

theorem Waiters.update (h : Waiters s) {i : Fin P.workers} {c : Pc}
    (hc : c.waiting = (s.pc i).waiting) :
    s.queueWaiters = count Pc.waiting (Function.update s.pc i c) := by
  have hupd := count_update Pc.waiting s.pc i c
  rw [hc] at hupd
  rw [h]
  omega

theorem Waiters.enter (h : Waiters s) {i : Fin P.workers} {c : Pc} (hc : c.waiting = false) :
    s.othersWaiting i = count Pc.waiting (Function.update s.pc i c) := by
  have hupd := count_update Pc.waiting s.pc i c
  have hothers := h.othersWaiting i
  rw [hc, Bool.toNat_false] at hupd
  omega

theorem Waiters.step {a : Act P} (h : Waiters s) (hu : Step s a u) : Waiters u := by
  cases hu with
  | refill ready stash => exact h.update (by rw [ready]; rfl)
  | large looping fits pop wakes => exact h.enter (by rfl)
  | small looping no_large some_small slot pop run wakes => exact h.enter (by rfl)
  | @exit i looping no_large finished =>
    unfold Waiters
    dsimp only
    split_ifs with hslot
    · have hupd := count_update Pc.waiting (broadcast .parked .woken s.pc) i .exited
      have hsame : (broadcast .parked .woken s.pc i).waiting = (s.pc i).waiting := by
        obtain hi | ⟨hi, hi'⟩ := broadcast_apply Pc.parked .woken s.pc i
        · rw [hi]
        · rw [hi, hi']
          rfl
      have hothers := h.othersWaiting i
      rw [count_waiting_broadcast, hsame, Pc.waiting_exited, Bool.toNat_false] at hupd
      omega
    · exact h.enter rfl
  | @park i looping no_large no_small unfinished =>
    have hupd := count_update Pc.waiting s.pc i .parked
    have hothers := h.othersWaiting i
    rw [Pc.waiting_parked, Bool.toNat_true] at hupd
    unfold Waiters
    dsimp only
    omega
  | copied copying => exact h.update (by rw [copying]; rfl)
  | started starting => exact h.update (by rw [starting]; rfl)
  | startFailed starting =>
    exact Eq.trans (h.update (by rw [starting]; rfl)) (count_waiting_broadcast _).symm
  | finishLarge running => exact Eq.trans h (count_waiting_broadcast _).symm
  | stop => exact Eq.trans h (count_waiting_broadcast _).symm
  | submit idle nonempty => exact h
  | waitSpace active full => exact h
  | slice active room taken split push count signal =>
    exact Eq.trans h (total_signals (by rfl) signal).symm
  | abandon pending => exact h
  | reserveFailed woken room large => exact h
  | spuriousWorker parked => exact h.update (by rw [parked]; rfl)
  | spuriousProducer parked => exact h

/-- Moving a worker to a state in which it may keep its slot. -/
theorem Slots.update_pc (h : Slots s) (i : Fin P.workers) {c : Pc} (hc : ¬c.slotless)
    (k : Fin P.workers) (hk : (Function.update s.pc i c k).slotless) : s.smallSlot k = false := by
  by_cases hki : k = i
  · rw [hki, Function.update_self] at hk
    exact absurd hk hc
  · rw [Function.update_of_ne hki] at hk
    exact h.resting k hk

theorem count_release (slot : Fin P.workers → Bool) (i : Fin P.workers) :
    count id slot - (slot i).toNat = count id (Function.update slot i false) := by
  have hcount := count_update id slot i false
  simp only [id, Bool.toNat_false, Nat.add_zero] at hcount
  omega

theorem count_take (slot : Fin P.workers → Bool) (i : Fin P.workers) :
    (if slot i = true then count id slot else count id slot + 1) =
      count id (Function.update slot i true) := by
  have hcount := count_update id slot i true
  simp only [id, Bool.toNat_true] at hcount
  split_ifs with hslot
  · rw [hslot, Bool.toNat_true] at hcount
    omega
  · rw [Bool.not_eq_true] at hslot
    rw [hslot, Bool.toNat_false] at hcount
    omega

theorem Slots.step {a : Act P} (h : Slots s) (hu : Step s a u) : Slots u := by
  cases hu with
  | refill ready stash => exact ⟨h.counted, h.update_pc _ (by simp [Pc.slotless])⟩
  | large looping fits pop wakes => exact ⟨h.counted, h.update_pc _ (by simp [Pc.slotless])⟩
  | @small i wake b q t stash pr looping no_large some_small slot pop run wakes =>
    constructor
    · dsimp only
      rw [h.counted]
      exact count_take s.smallSlot i
    · intro k hk
      dsimp only at hk ⊢
      by_cases hki : k = i
      · rw [hki, Function.update_self] at hk
        exact absurd hk (by simp [Pc.slotless])
      · rw [Function.update_of_ne hki] at hk ⊢
        exact h.resting k hk
  | @exit i looping no_large finished =>
    constructor
    · dsimp only
      rw [h.counted]
      exact count_release s.smallSlot i
    · intro k hk
      dsimp only at hk ⊢
      by_cases hki : k = i
      · rw [hki, Function.update_self]
      · rw [Function.update_of_ne hki] at hk ⊢
        apply h.resting k
        split_ifs at hk
        · exact slotless_of_broadcast hk
        · exact hk
  | @park i looping no_large no_small unfinished =>
    constructor
    · dsimp only
      rw [h.counted]
      exact count_release s.smallSlot i
    · intro k hk
      dsimp only at hk ⊢
      by_cases hki : k = i
      · rw [hki, Function.update_self]
      · rw [Function.update_of_ne hki] at hk ⊢
        exact h.resting k hk
  | copied copying => exact ⟨h.counted, h.update_pc _ (by simp [Pc.slotless])⟩
  | started starting => exact ⟨h.counted, h.update_pc _ (by simp [Pc.slotless])⟩
  | startFailed starting =>
    exact ⟨h.counted, fun k hk =>
      h.update_pc _ (by simp [Pc.slotless]) k (slotless_of_broadcast hk)⟩
  | finishLarge running => exact ⟨h.counted, fun k hk => h.resting k (slotless_of_broadcast hk)⟩
  | stop => exact ⟨h.counted, fun k hk => h.resting k (slotless_of_broadcast hk)⟩
  | submit idle nonempty => exact ⟨h.counted, h.resting⟩
  | waitSpace active full => exact ⟨h.counted, h.resting⟩
  | slice active room taken split push count signal =>
    exact ⟨h.counted, fun k hk => h.resting k (slotless_of_signals signal hk)⟩
  | abandon pending => exact ⟨h.counted, h.resting⟩
  | reserveFailed woken room large => exact ⟨h.counted, h.resting⟩
  | @spuriousWorker i parked =>
    constructor
    · exact h.counted
    · intro k hk
      dsimp only at hk
      by_cases hki : k = i
      · rw [hki]
        exact h.resting i (Or.inl parked)
      · rw [Function.update_of_ne hki] at hk
        exact h.resting k hk
  | spuriousProducer parked => exact ⟨h.counted, h.resting⟩

/-- The number of times a task is among the unclaimed ones. -/
def SmallQueue.times (q : SmallQueue) (t : Task) : ℕ :=
  (q.batches.map fun b => (b.tasks.drop b.head).count t).sum

/-- The length is that of the unclaimed parts, and no batch is used up. -/
structure SmallQueue.Sound (q : SmallQueue) : Prop where
  len : q.len = (q.batches.map fun b => b.count - b.head).sum
  unclaimed : ∀ b ∈ q.batches, b.head < b.count

variable {q : SmallQueue} {b : DirBatch}

theorem SmallQueue.Sound.push (h : q.Sound) (hb : b.head < b.count) :
    (smallqPushBatch q b).Sound := by
  constructor
  · simp [smallqPushBatch, h.len]
  · intro c hc
    rw [smallqPushBatch, List.mem_append, List.mem_singleton] at hc
    rcases hc with hc | rfl
    · exact h.unclaimed c hc
    · exact hb

theorem times_push (q : SmallQueue) (b : DirBatch) (t : Task) :
    (smallqPushBatch q b).times t = q.times t + (b.tasks.drop b.head).count t := by
  simp [smallqPushBatch, SmallQueue.times]

theorem smallqPopBatch_eq {rest : SmallQueue} (h : smallqPopBatch q = some (b, rest)) :
    q.batches = b :: rest.batches ∧ rest.len = q.len - (b.count - b.head) := by
  unfold smallqPopBatch at h
  split at h
  · cases h
  next c tail hq =>
    cases h
    exact ⟨hq, rfl⟩

theorem SmallQueue.Sound.pop {rest : SmallQueue} (h : q.Sound)
    (hpop : smallqPopBatch q = some (b, rest)) :
    rest.Sound ∧ b.head < b.count ∧ rest.len + (b.count - b.head) = q.len := by
  obtain ⟨hbatches, hlen⟩ := smallqPopBatch_eq hpop
  have hsum := h.len
  rw [hbatches, List.map_cons, List.sum_cons] at hsum
  have hall := h.unclaimed
  rw [hbatches] at hall
  refine ⟨⟨?_, fun c hc => hall c (List.mem_cons_of_mem b hc)⟩, hall b List.mem_cons_self, ?_⟩
  · omega
  · omega

theorem times_pop {rest : SmallQueue} (hpop : smallqPopBatch q = some (b, rest)) (t : Task) :
    q.times t = (b.tasks.drop b.head).count t + rest.times t := by
  simp [SmallQueue.times, (smallqPopBatch_eq hpop).1]

theorem SmallQueue.Sound.after (h : q.Sound) (run : ℕ) : (q.after b run).Sound := by
  unfold SmallQueue.after
  split_ifs with hleft
  · exact h.push hleft
  · exact h

theorem len_after {run : ℕ} (hrun : run ≤ b.count - b.head) :
    (q.after b run).len + run = q.len + (b.count - b.head) := by
  unfold SmallQueue.after
  split_ifs with hleft
  · simp only [smallqPushBatch, DirBatch.count] at hleft hrun ⊢
    omega
  · omega

/-- What is claimed and what is put back are the unclaimed tasks of the batch. -/
theorem times_after (q : SmallQueue) (b : DirBatch) (n : ℕ) (t : Task) :
    (q.after b ((b.tasks.drop b.head).take n).length).times t +
        ((b.tasks.drop b.head).take n).count t =
      q.times t + (b.tasks.drop b.head).count t := by
  have hsplit : ((b.tasks.drop b.head).take n).count t + ((b.tasks.drop b.head).drop n).count t =
      (b.tasks.drop b.head).count t := by
    rw [← List.count_append, List.take_append_drop]
  unfold SmallQueue.after
  split_ifs with hleft
  · rw [times_push]
    dsimp only
    have hrest : b.tasks.drop (b.head + ((b.tasks.drop b.head).take n).length) =
        (b.tasks.drop b.head).drop n := by
      rw [List.drop_drop, List.length_take, List.length_drop]
      by_cases hn : n ≤ b.tasks.length - b.head
      · rw [min_eq_left hn]
      · rw [min_eq_right (by omega), List.drop_of_length_le (by omega),
          List.drop_of_length_le (by omega)]
    rw [hrest]
    omega
  · have hall : ((b.tasks.drop b.head).drop n) = [] := by
      apply List.drop_of_length_le
      rw [List.length_take, DirBatch.count] at hleft
      rw [List.length_drop] at hleft ⊢
      omega
    rw [hall, List.count_nil] at hsplit
    omega

theorem length_distribute (ts : List Task) (heap : List (Entry Task)) (seq : ℕ) :
    (distribute P ts heap seq).1.length + (distribute P ts heap seq).2.2.length =
      heap.length + ts.length := by
  induction ts generalizing heap seq with
  | nil => rfl
  | cons t ts ih =>
    simp only [distribute]
    split_ifs
    · rw [ih, Heap.length_heapPush, List.length_cons]
      omega
    · rw [ih, Heap.length_heapPush, List.length_cons]
      omega
    · have h := ih heap seq
      dsimp only
      rw [List.length_cons, List.length_cons]
      omega

theorem count_cons_eq (x t : Task) (ts : List Task) :
    (x :: ts).count t = [x].count t + ts.count t := by
  rw [← List.count_append]
  rfl

theorem times_heapPush (heap : List (Entry Task)) (e : Entry Task) (t : Task) :
    ((heapPush heap e).map Entry.task).count t = [e.task].count t + (heap.map Entry.task).count t := by
  have hperm : ((heapPush heap e).map Entry.task).Perm ((e :: heap).map Entry.task) :=
    (Heap.perm_heapPush heap e).map Entry.task
  rw [hperm.count_eq t, List.map_cons, count_cons_eq]

theorem times_heapPopMax {heap rest : List (Entry Task)} {e : Entry Task}
    (h : heapPopMax heap = some (e, rest)) (t : Task) :
    (heap.map Entry.task).count t = [e.task].count t + (rest.map Entry.task).count t := by
  have hperm : (heap.map Entry.task).Perm ((e :: rest).map Entry.task) :=
    (Heap.perm_heapPopMax h).map Entry.task
  rw [hperm.count_eq t, List.map_cons, count_cons_eq]

/-- Every task of a slice goes either to the heap or to the small batch. -/
theorem times_distribute (ts : List Task) (heap : List (Entry Task)) (seq : ℕ) (t : Task) :
    ((distribute P ts heap seq).1.map Entry.task).count t +
        (distribute P ts heap seq).2.2.count t =
      (heap.map Entry.task).count t + ts.count t := by
  induction ts generalizing heap seq with
  | nil => rfl
  | cons x ts ih =>
    rw [count_cons_eq x t ts]
    simp only [distribute]
    split_ifs
    · rw [ih, times_heapPush]
      dsimp only
      omega
    · rw [ih, times_heapPush]
      dsimp only
      omega
    · have h := ih heap seq
      dsimp only
      rw [count_cons_eq x t]
      omega

theorem queued_slice {batch : List Task} {take seq : ℕ} {heap : List (Entry Task)}
    {small : List Task}
    (split : distribute P (batch.take take) s.largeHeap s.enqueueSeq = (heap, seq, small))
    (push : q = if small = [] then s.smallQ else smallqPushBatch s.smallQ ⟨0, small⟩) :
    q.len + heap.length = s.queued + min take batch.length := by
  have hlen := length_distribute (P := P) (batch.take take) s.largeHeap s.enqueueSeq
  rw [split, List.length_take] at hlen
  dsimp only at hlen
  unfold State.queued
  subst push
  split_ifs with hsmall
  · rw [hsmall, List.length_nil] at hlen
    omega
  · simp only [smallqPushBatch, DirBatch.count]
    omega

theorem length_run {t : Task} {stash : List Task}
    (run : (b.tasks.drop b.head).take smallClaimBatch = t :: stash) :
    stash.length + 1 ≤ b.count - b.head := by
  have hlen := congrArg List.length run
  rw [List.length_take, List.length_drop, List.length_cons] at hlen
  rw [DirBatch.count]
  omega

/-- The small queue is sound and the queues hold no more than they may. -/
structure Bounded (s : State P) : Prop where
  sound : s.smallQ.Sound
  bound : s.queued ≤ P.config.maxQueuedFiles

theorem Bounded.step {a : Act P} (h : Bounded s) (hu : Step s a u) : Bounded u := by
  have hbound := h.bound
  unfold State.queued at hbound
  cases hu with
  | large looping fits pop wakes =>
    have hlen := Heap.length_heapPopMax pop
    refine ⟨h.sound, ?_⟩
    unfold State.queued
    dsimp only
    omega
  | @small i wake b q t stash pr looping no_large some_small slot pop run wakes =>
    obtain ⟨hq, hb, hlen⟩ := h.sound.pop pop
    have hafter := len_after (q := q) (length_run run)
    refine ⟨hq.after _, ?_⟩
    unfold State.queued
    dsimp only
    omega
  | @slice k batch wakes take heap seq small q pc active room taken split push count signal =>
    have hlen := queued_slice split push
    refine ⟨?_, ?_⟩
    · dsimp only
      rw [push]
      split_ifs with hsmall
      · exact h.sound
      · exact h.sound.push (List.length_pos_iff.mpr hsmall)
    · unfold State.queued at hlen taken ⊢
      dsimp only
      omega
  | _ => exact ⟨h.sound, h.bound⟩

end Ecopy.Workers.Scheduler
