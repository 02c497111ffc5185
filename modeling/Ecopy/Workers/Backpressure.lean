import Ecopy.Workers.SchedulerWakes

/-!
# Backpressure

A producer parks when its remainder, or at least `space_wake_min` tasks of it, does not
fit into the queues. A claim wakes one producer at most, and only when there is that much
room. Nothing else wakes a producer, so a parked one relies on later claims; these exist
as long as something is queued, and that is the invariant. It is lost when a woken
producer leaves because the heap for its slice cannot be reserved: the wake is used up and
nothing is queued.
-/
namespace Ecopy.Workers.Scheduler
open Lib.Runs Lib.Threads
open Heap (Entry heapPush heapPopMax)

variable {P : Pool}

/-- The tasks in both queues. -/
def State.queuedTasks (s : State P) : List Task :=
  (s.smallQ.batches.flatMap fun b => b.tasks.drop b.head) ++ s.largeHeap.map Entry.task

/-- The test on which a producer with this remainder goes to sleep. -/
def State.fullFor (s : State P) (batch : List Task) : Prop :=
  P.config.maxQueuedFiles - s.queued <
    if batch.length < spaceWakeMin P then batch.length else spaceWakeMin P

instance (s : State P) (batch : List Task) : Decidable (s.fullFor batch) := by
  unfold State.fullFor
  infer_instance

theorem SmallQueue.Sound.length_tasks {q : SmallQueue} (h : q.Sound) :
    (q.batches.flatMap fun b => b.tasks.drop b.head).length = q.len := by
  rw [h.len, List.length_flatMap]
  congr 1
  apply List.map_congr_left
  intro b _
  rw [List.length_drop, DirBatch.count]

variable {s : State P} {pr : Fin P.producers → Producer}

theorem Bounded.length_queuedTasks (h : Bounded s) : s.queuedTasks.length = s.queued := by
  rw [State.queuedTasks, List.length_append, h.sound.length_tasks, List.length_map, State.queued]

theorem spaceWakeMin_pos (P : Pool) : 0 < spaceWakeMin P := by
  unfold spaceWakeMin
  dsimp only
  split_ifs <;> omega

theorem spaceWakeMin_le (h : 1 ≤ P.config.maxQueuedFiles) :
    spaceWakeMin P ≤ P.config.maxQueuedFiles := by
  unfold spaceWakeMin
  dsimp only
  split_ifs <;> omega

/-- The producers in the wait set of `g_space_cond` are counted, and a producer in the
middle of a batch has something left to queue. -/
structure Producers (s : State P) : Prop where
  counted : s.spaceWaiters = count Producer.waiting s.producer
  rest : ∀ k, s.producer k ≠ .idle → (s.producer k).rest ≠ []

theorem SpaceWake.count_waiting (h : SpaceWake s pr) :
    count Producer.waiting pr = count Producer.waiting s.producer := by
  obtain rfl | ⟨k, batch, hk, rfl⟩ := h.change
  · rfl
  · have hupd := count_update Producer.waiting s.producer k (.woken batch)
    rw [hk] at hupd
    exact Nat.add_right_cancel hupd

theorem SpaceWake.apply (h : SpaceWake s pr) (k : Fin P.producers) :
    pr k = s.producer k ∨ ∃ batch, s.producer k = .parked batch ∧ pr k = .woken batch := by
  obtain rfl | ⟨j, batch, hj, rfl⟩ := h.change
  · exact Or.inl rfl
  · by_cases hkj : k = j
    · subst hkj
      exact Or.inr ⟨batch, hj, Function.update_self ..⟩
    · exact Or.inl (Function.update_of_ne hkj ..)

theorem SpaceWake.rest (hw : SpaceWake s pr)
    (h : ∀ k, s.producer k ≠ .idle → (s.producer k).rest ≠ []) (k : Fin P.producers)
    (hk : pr k ≠ .idle) : (pr k).rest ≠ [] := by
  obtain heq | ⟨batch, hbatch, heq⟩ := hw.apply k
  · rw [heq] at hk ⊢
    exact h k hk
  · have hrest := h k (by rw [hbatch]; nofun)
    rw [hbatch] at hrest
    rw [heq]
    exact hrest

theorem rest_update {f : Fin P.producers → Producer}
    (h : ∀ k, f k ≠ .idle → (f k).rest ≠ []) (k : Fin P.producers) {x : Producer}
    (hx : x ≠ .idle → x.rest ≠ []) (j : Fin P.producers)
    (hj : Function.update f k x j ≠ .idle) : (Function.update f k x j).rest ≠ [] := by
  by_cases hjk : j = k
  · subst hjk
    rw [Function.update_self] at hj ⊢
    exact hx hj
  · rw [Function.update_of_ne hjk] at hj ⊢
    exact h j hj

/-- The count of a producer that is awake again, whatever it does next. -/
theorem Producers.enter (h : Producers s) (k : Fin P.producers) (x : Producer) :
    s.spaceWaiters - (s.producer k).waiting.toNat + x.waiting.toNat =
      count Producer.waiting (Function.update s.producer k x) := by
  have hupd := count_update Producer.waiting s.producer k x
  have hone := toNat_le_count Producer.waiting s.producer k
  rw [h.counted]
  omega

theorem Producers.active (h : Producers s) {k : Fin P.producers} {batch : List Task}
    (active : s.producer k = .pending batch ∨ s.producer k = .woken batch) : batch ≠ [] := by
  rcases active with hk | hk
  · have hrest := h.rest k (by rw [hk]; nofun)
    rwa [hk] at hrest
  · have hrest := h.rest k (by rw [hk]; nofun)
    rwa [hk] at hrest

variable {u : State P} {batch : List Task}

theorem Producers.step {a : Act P} (h : Producers s) (hu : Step s a u) : Producers u := by
  cases hu with
  | large looping fits pop wakes =>
    exact ⟨h.counted.trans wakes.count_waiting.symm, wakes.rest h.rest⟩
  | small looping no_large some_small slot pop run wakes =>
    exact ⟨h.counted.trans wakes.count_waiting.symm, wakes.rest h.rest⟩
  | @submit k batch idle nonempty =>
    refine ⟨?_, rest_update h.rest k fun _ => nonempty⟩
    have hupd := count_update Producer.waiting s.producer k (.pending batch)
    rw [idle] at hupd
    exact h.counted.trans (Nat.add_right_cancel hupd).symm
  | @waitSpace k batch active full =>
    exact ⟨h.enter k (.parked batch), rest_update h.rest k fun _ => h.active active⟩
  | @slice k batch wakes take heap seq small q pc active room taken split push count signal =>
    constructor
    · have henter := h.enter k
        (if batch.drop take = [] then .idle else .pending (batch.drop take))
      split_ifs at henter ⊢ with hrest
      · exact henter
      · exact henter
    · apply rest_update h.rest
      intro hx
      split_ifs at hx ⊢ with hrest
      · exact absurd rfl hx
      · exact hrest
  | @abandon k batch pending =>
    refine ⟨?_, rest_update h.rest k fun hx => absurd rfl hx⟩
    have hupd := count_update Producer.waiting s.producer k .idle
    rw [pending] at hupd
    exact h.counted.trans (Nat.add_right_cancel hupd).symm
  | @reserveFailed k batch woken room large =>
    exact ⟨h.enter k .idle, rest_update h.rest k fun hx => absurd rfl hx⟩
  | @spuriousProducer k batch parked =>
    refine ⟨?_, rest_update h.rest k fun _ => ?_⟩
    · have hupd := count_update Producer.waiting s.producer k (.woken batch)
      rw [parked] at hupd
      exact h.counted.trans (Nat.add_right_cancel hupd).symm
    · have hrest := h.rest k (by rw [parked]; nofun)
      rwa [parked] at hrest
  | _ => exact ⟨h.counted, h.rest⟩

/-- A parked producer is about to be woken, or a claim is still to come. -/
def Pressed (s : State P) : Prop :=
  (∃ k batch, s.producer k = .parked batch) →
    (∃ k batch, s.producer k = .woken batch) ∨ 0 < s.queued

/-- A producer that is not in the wait set does not matter. -/
theorem Pressed.update (h : Pressed s) {k : Fin P.producers} {x : Producer}
    (hold : (s.producer k).waiting = false) (hnew : x.waiting = false) :
    Pressed { s with producer := Function.update s.producer k x } := by
  rintro ⟨j, batch, hj⟩
  dsimp only at hj
  have hjk : j ≠ k := by
    rintro rfl
    rw [Function.update_self] at hj
    rw [hj] at hnew
    cases hnew
  rw [Function.update_of_ne hjk] at hj
  rcases h ⟨j, batch, hj⟩ with ⟨m, rest, hm⟩ | hqueued
  · left
    refine ⟨m, rest, ?_⟩
    dsimp only
    rw [Function.update_of_ne, hm]
    rintro rfl
    rw [hm] at hold
    cases hold
  · exact Or.inr hqueued

/-- A claim that leaves the queues empty has woken a producer. -/
theorem SpaceWake.pressed (hmax : 1 ≤ P.config.maxQueuedFiles) {pr : Fin P.producers → Producer}
    (h : SpaceWake s pr) (hs : Producers s) (hpark : ∃ k batch, pr k = .parked batch) :
    (∃ k batch, pr k = .woken batch) ∨ 0 < s.queued := by
  by_cases hroom : P.config.maxQueuedFiles - s.queued ≥ spaceWakeMin P
  · obtain ⟨k, batch, hk⟩ := hpark
    have hwaiting : 0 < s.spaceWaiters := by
      rw [hs.counted, ← h.count_waiting]
      exact count_pos_iff.mpr ⟨k, by rw [hk]; rfl⟩
    rcases h.sent hwaiting hroom with hwoken | hnone
    · exact Or.inl hwoken
    · have hk' := hnone k
      rw [hk] at hk'
      cases hk'
  · right
    have hle := spaceWakeMin_le hmax
    omega

/-- A producer that goes on has room for one task at least. -/
theorem queued_lt_slice (hs : Producers s) {k : Fin P.producers} {batch : List Task}
    {take seq : ℕ} {heap : List (Entry Task)} {small : List Task} {q : SmallQueue}
    (active : s.producer k = .pending batch ∨ s.producer k = .woken batch)
    (room : min batch.length (spaceWakeMin P) ≤ P.config.maxQueuedFiles - s.queued)
    (taken : take = min batch.length (P.config.maxQueuedFiles - s.queued))
    (split : distribute P (batch.take take) s.largeHeap s.enqueueSeq = (heap, seq, small))
    (push : q = if small = [] then s.smallQ else smallqPushBatch s.smallQ ⟨0, small⟩) :
    q.len + heap.length = s.queued + take ∧ 0 < take := by
  have hlen := queued_slice split push
  have hpos := List.length_pos_iff.mpr (hs.active active)
  have hmin := spaceWakeMin_pos P
  omega

/-- No producer that has been woken leaves because the heap cannot grow. -/
def Act.Reserves : Act P → Prop
  | .reserveFails _ => False
  | _ => True

instance (a : Act P) : Decidable a.Reserves :=
  match a with
  | .reserveFails _ => instDecidableFalse
  | .dequeue .. | .copied _ | .started .. | .finishLarge | .submit .. | .enqueue .. | .abandon _
  | .workersStop | .spuriousWorker _ | .spuriousProducer _ => instDecidableTrue

theorem Pressed.step {a : Act P} (hmax : 1 ≤ P.config.maxQueuedFiles) (hs : Producers s)
    (h : Pressed s) (ha : a.Reserves) (hu : Step s a u) : Pressed u := by
  intro hpark
  cases hu with
  | @large i wake e rest pr looping fits pop wakes =>
    have hs' : Producers { s with largeHeap := rest } := ⟨hs.counted, hs.rest⟩
    exact wakes.pressed hmax hs' hpark
  | @small i wake b q t stash pr looping no_large some_small slot pop run wakes =>
    have hs' : Producers { s with smallQ := q } := ⟨hs.counted, hs.rest⟩
    rcases wakes.pressed hmax hs' hpark with hwoken | hqueued
    · exact Or.inl hwoken
    · right
      -- what goes back behind the other directories only adds to the queue
      have hafter : q.len ≤ (q.after b (stash.length + 1)).len := by
        unfold SmallQueue.after
        split_ifs
        · exact Nat.le_add_right _ _
        · exact le_rfl
      unfold State.queued at hqueued ⊢
      dsimp only at hqueued ⊢
      omega
  | @waitSpace k batch active full =>
    right
    have hle := spaceWakeMin_le hmax
    unfold State.queued at full ⊢
    dsimp only
    omega
  | slice active room taken split push count signal =>
    right
    have hlen := queued_lt_slice hs active room taken split push
    unfold State.queued
    dsimp only
    omega
  | submit idle nonempty => exact h.update (by rw [idle]; rfl) rfl hpark
  | abandon pending => exact h.update (by rw [pending]; rfl) rfl hpark
  | reserveFailed woken room large => exact absurd ha id
  | @spuriousProducer k batch parked => exact Or.inl ⟨k, batch, Function.update_self ..⟩
  | _ => exact h hpark

/-- What the producers rely on in a reachable state. -/
structure Supplied (s : State P) : Prop where
  bounded : Bounded s
  producers : Producers s
  pressed : Pressed s

theorem Supplied.start (P : Pool) : Supplied (State.start P) where
  bounded := ⟨⟨rfl, nofun⟩, Nat.zero_le _⟩
  producers := ⟨by simp [State.start, count, total, Producer.waiting], fun k hk => absurd rfl hk⟩
  pressed := nofun

theorem Supplied.step {a : Act P} (hmax : 1 ≤ P.config.maxQueuedFiles) (h : Supplied s)
    (ha : a.Reserves) (hu : Scheduler.step s a = some u) : Supplied u where
  bounded := h.bounded.step (step_step hu)
  producers := h.producers.step (step_step hu)
  pressed := h.pressed.step hmax h.producers ha (step_step hu)

theorem State.fullFor_iff :
    s.fullFor batch ↔ P.config.maxQueuedFiles - s.queued < min batch.length (spaceWakeMin P) := by
  rw [State.fullFor, min_def_lt]

theorem wakes_enabled (s : State P) :
    ∃ wakes u, (if wakes.length = wakesFor s then
      (signals .parked .woken s.pc wakes).map fun pc => { s with pc := pc } else none) = some u := by
  obtain ⟨wakes, pc, hlen, hpc⟩ := exists_signals Pc.parked .woken (wakesFor s) s.pc
  exact ⟨wakes, { s with pc := pc }, by rw [if_pos hlen, hpc, Option.map_some]⟩

theorem enqueueSlice_enabled (s : State P) (k : Fin P.producers) (batch : List Task) :
    ∃ wakes u, enqueueSlice s k batch wakes = some u := by
  unfold enqueueSlice
  exact wakes_enabled _

/-- A producer that was woken stays so until it runs. -/
theorem SpaceWake.keeps_woken (h : SpaceWake s pr) {k : Fin P.producers} {batch : List Task}
    (hk : s.producer k = .woken batch) : pr k = .woken batch := by
  obtain heq | ⟨rest, hrest, -⟩ := h.apply k
  · exact heq.trans hk
  · rw [hk] at hrest
    cases hrest

theorem keeps_woken_update {f : Fin P.producers → Producer} {k j : Fin P.producers} {x : Producer}
    (hk : f k = .woken batch) (hj : f j ≠ .woken batch) :
    Function.update f j x k = .woken batch := by
  have hkj : k ≠ j := by
    rintro rfl
    exact hj hk
  rw [Function.update_of_ne hkj, hk]

/-- Whatever is done next, the producer sleeps on with its wake on the way, or it has
queued a task. -/
theorem Supplied.woken_queues {a : Act P} (h : Supplied s) (ha : a.Reserves) {k : Fin P.producers}
    {batch : List Task} (hk : s.producer k = .woken batch) (hroom : ¬s.fullFor batch)
    (hu : Step s a u) :
    u.producer k = .woken batch ∨ s.queuedTasks.length < u.queuedTasks.length := by
  rw [(h.bounded.step hu).length_queuedTasks, h.bounded.length_queuedTasks]
  rw [State.fullFor_iff] at hroom
  cases hu with
  | large looping fits pop wakes => exact .inl (wakes.keeps_woken hk)
  | small looping no_large some_small slot pop run wakes => exact .inl (wakes.keeps_woken hk)
  | @waitSpace j rest active full =>
    by_cases hjk : k = j
    · subst hjk
      rcases active with hj | hj
      · cases hk.symm.trans hj
      · cases hk.symm.trans hj
        exact absurd full hroom
    · exact .inl ((Function.update_of_ne hjk ..).trans hk)
  | @slice j rest wakes take heap seq small q pc active room taken split push count signal =>
    right
    have hlen := queued_lt_slice h.producers active room taken split push
    unfold State.queued at hlen ⊢
    dsimp only
    omega
  | submit idle nonempty => exact .inl (keeps_woken_update hk (by rw [idle]; nofun))
  | abandon pending => exact .inl (keeps_woken_update hk (by rw [pending]; nofun))
  | reserveFailed woken room large => exact absurd ha id
  | spuriousProducer parked => exact .inl (keeps_woken_update hk (by rw [parked]; nofun))
  | _ => exact .inl hk

theorem enqueue_enabled {k : Fin P.producers} (hk : s.producer k = .woken batch)
    (hroom : ¬s.fullFor batch) : ∃ wakes u, Scheduler.step s (.enqueue k wakes) = some u := by
  simp only [Scheduler.step, enqueueBatch, hk, enqueueRound]
  have hcond : ¬(P.config.maxQueuedFiles - State.queued { s with spaceWaiters := s.spaceWaiters - 1 } <
    if batch.length < spaceWakeMin P then batch.length else spaceWakeMin P) := hroom
  simp only [if_neg hcond]
  exact enqueueSlice_enabled _ k batch

/-- A queue of one task. -/
def oneQueued : Config.Env := fun v => if v = .maxQueuedFiles then .int 1 else .unset

/-- The second of two tasks has to wait; the claim of the first one wakes the producer. -/
def waitForClaim : List (Act (Pool.ofEnv oneQueued false 1)) :=
  [.submit ⟨0, by decide⟩ [smallFile, largeFile], .enqueue ⟨0, by decide⟩ [],
    .enqueue ⟨0, by decide⟩ [], .dequeue ⟨0, by decide⟩ (some ⟨0, by decide⟩)]

/-- Two producers wait while the one task is queued. Its claim wakes the first of them, whose
large file needs an entry in a heap that was never allocated; it leaves, and nobody wakes the
second one. -/
def failedReserve : List (Act (Pool.ofEnv oneQueued false 3)) :=
  [.submit ⟨0, by decide⟩ [smallFile], .enqueue ⟨0, by decide⟩ [],
    .submit ⟨1, by decide⟩ [largeFile], .enqueue ⟨1, by decide⟩ [],
    .submit ⟨2, by decide⟩ [smallFile], .enqueue ⟨2, by decide⟩ [],
    .dequeue ⟨0, by decide⟩ (some ⟨1, by decide⟩), .reserveFails ⟨1, by decide⟩]

end Ecopy.Workers.Scheduler
