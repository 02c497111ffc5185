import Ecopy.Workers.Backpressure
import Mathlib.Algebra.BigOperators.Fin

/-!
# Dispatch of the queued files

Where a file is between its submission and the worker that copies it: in the remainder of
its producer's batch, in the small queue, in the heap of large files, in the stash of a
worker, or handed over. Every step moves files forward along these places, and none is
lost or doubled. Whether all files arrive is another matter: a file is left behind when
the last worker goes to sleep before a large file that needs the whole pool.
-/
namespace Ecopy.Workers.Scheduler
open Lib.Runs Lib.Threads
open Heap (Entry heapPush heapPopMax)

variable {P : Pool}

structure Limits (s : State P) : Prop where
  small : s.smallWorkersActive ≤ P.config.smallWorkerLimit
  large : s.largeWorkersActive ≤ P.config.maxActiveLargeFiles
  capacity : s.slotsUsed ≤ P.workers

variable {as : List (Act P)} {s u : State P} {a : Act P}

theorem Limits.of_le (h : Limits s) (hsmall : u.smallWorkersActive ≤ s.smallWorkersActive)
    (hlarge : u.largeWorkersActive ≤ s.largeWorkersActive) : Limits u where
  small := hsmall.trans h.small
  large := hlarge.trans h.large
  capacity := (Nat.add_le_add hsmall (Nat.mul_le_mul_right _ hlarge)).trans h.capacity

theorem Limits.step (h : Limits s) (hu : Step s a u) : Limits u := by
  cases hu with
  | large looping fits pop wakes =>
    refine ⟨h.small, fits.2.1, ?_⟩
    have hfits := fits.2.2
    unfold State.slotsUsed at hfits ⊢
    dsimp only
    rw [Nat.succ_mul]
    omega
  | @small i wake b q t stash pr looping no_large some_small slot pop run wakes =>
    by_cases hslot : s.smallSlot i = true
    · apply h.of_le
      · dsimp only
        rw [if_pos hslot]
      · exact le_rfl
    · have hclaim := slot.resolve_left hslot
      refine ⟨?_, h.large, ?_⟩
      · dsimp only
        rw [if_neg hslot]
        exact hclaim.2.1
      · have hfits := hclaim.2.2
        unfold State.slotsUsed at hfits ⊢
        dsimp only
        rw [if_neg hslot]
        omega
  | exit looping no_large finished => exact h.of_le (Nat.sub_le _ _) le_rfl
  | park looping no_large no_small unfinished => exact h.of_le (Nat.sub_le _ _) le_rfl
  | startFailed starting => exact h.of_le le_rfl (Nat.sub_le _ _)
  | finishLarge running => exact h.of_le le_rfl (Nat.sub_le _ _)
  | _ => exact ⟨h.small, h.large, h.capacity⟩

/-- A large slot is held by a start or by a pipeline. -/
def LargeSlots (s : State P) : Prop :=
  s.largeWorkersActive = count Pc.isStarting s.pc + s.pipelines

theorem count_starting_broadcast (f : Fin P.workers → Pc) :
    count Pc.isStarting (broadcast .parked .woken f) = count Pc.isStarting f :=
  total_broadcast Pc.parked .woken rfl f

theorem State.looping.not_starting {i : Fin P.workers} (h : s.looping i) :
    (s.pc i).isStarting = false := by
  rcases h with h | ⟨h, -⟩ <;> rw [h] <;> rfl

theorem count_starting_update {i : Fin P.workers} {c : Pc} (hold : (s.pc i).isStarting = false)
    (hnew : c.isStarting = false) :
    count Pc.isStarting (Function.update s.pc i c) = count Pc.isStarting s.pc := by
  have hupd := count_update Pc.isStarting s.pc i c
  rw [hold, hnew] at hupd
  exact Nat.add_right_cancel hupd

theorem LargeSlots.step (h : LargeSlots s) (hu : Step s a u) : LargeSlots u := by
  unfold LargeSlots at h ⊢
  cases hu with
  | refill ready stash =>
    exact h.trans (by rw [count_starting_update (by rw [ready]; rfl) rfl])
  | @large i wake e rest pr looping fits pop wakes =>
    have hupd := count_update Pc.isStarting s.pc i (.starting e.task)
    rw [looping.not_starting] at hupd
    have hone : (Pc.starting e.task).isStarting.toNat = 1 := rfl
    dsimp only
    rw [Bool.toNat_false] at hupd
    omega
  | small looping no_large some_small slot pop run wakes =>
    exact h.trans (by rw [count_starting_update looping.not_starting rfl])
  | @exit i looping no_large finished =>
    dsimp only
    rw [h]
    congr 1
    have hupd := count_update Pc.isStarting
      (if s.smallSlot i then broadcast .parked .woken s.pc else s.pc) i .exited
    have hsame : count Pc.isStarting
        (if s.smallSlot i then broadcast .parked .woken s.pc else s.pc) =
          count Pc.isStarting s.pc := by
      split_ifs
      · exact count_starting_broadcast s.pc
      · rfl
    have hi : ((if s.smallSlot i then broadcast .parked .woken s.pc else s.pc) i).isStarting =
        false := by
      split_ifs
      · obtain hb | ⟨-, hb⟩ := broadcast_apply Pc.parked .woken s.pc i
        · rw [hb]
          exact looping.not_starting
        · rw [hb]
          rfl
      · exact looping.not_starting
    rw [hsame, hi] at hupd
    exact (Nat.add_right_cancel hupd).symm
  | park looping no_large no_small unfinished =>
    exact h.trans (by rw [count_starting_update looping.not_starting rfl])
  | copied copying =>
    exact h.trans (by rw [count_starting_update (by rw [copying]; rfl) rfl])
  | @started i t starting =>
    have hupd := count_update Pc.isStarting s.pc i .ready
    rw [starting] at hupd
    simp only [Pc.isStarting, Bool.toNat_true, Bool.toNat_false] at hupd
    dsimp only
    omega
  | @startFailed i t starting =>
    have hupd := count_update Pc.isStarting s.pc i .ready
    rw [starting] at hupd
    simp only [Pc.isStarting, Bool.toNat_true, Bool.toNat_false] at hupd
    dsimp only
    rw [count_starting_broadcast]
    omega
  | finishLarge running =>
    dsimp only
    rw [count_starting_broadcast]
    omega
  | stop =>
    dsimp only
    rw [count_starting_broadcast]
    exact h
  | slice active room taken split push counted signal =>
    exact h.trans (by rw [show count Pc.isStarting _ = count Pc.isStarting s.pc from
      total_signals (by rfl) signal])
  | spuriousWorker parked =>
    exact h.trans (by rw [count_starting_update (by rw [parked]; rfl) rfl])
  | _ => exact h

/-- A worker that sleeps or has left holds no claimed task. -/
def Stashes (s : State P) : Prop := ∀ i, (s.pc i).slotless → s.stash i = []

theorem Stashes.looping (h : Stashes s) {i : Fin P.workers} (hi : s.looping i) :
    s.stash i = [] := by
  rcases hi with hi | ⟨-, hi⟩
  · exact h i (Or.inr (Or.inl hi))
  · exact hi

theorem Stashes.update (h : Stashes s) {i : Fin P.workers} {c : Pc}
    (hc : c.slotless → s.stash i = []) (k : Fin P.workers)
    (hk : (Function.update s.pc i c k).slotless) : s.stash k = [] := by
  by_cases hki : k = i
  · subst hki
    rw [Function.update_self] at hk
    exact hc hk
  · rw [Function.update_of_ne hki] at hk
    exact h k hk

theorem Stashes.update_both (h : Stashes s) {i : Fin P.workers} {c : Pc} {stash : List Task}
    (hc : ¬c.slotless) (k : Fin P.workers) (hk : (Function.update s.pc i c k).slotless) :
    Function.update s.stash i stash k = [] := by
  by_cases hki : k = i
  · subst hki
    rw [Function.update_self] at hk
    exact absurd hk hc
  · rw [Function.update_of_ne hki] at hk ⊢
    exact h k hk

theorem Stashes.step (h : Stashes s) (hu : Step s a u) : Stashes u := by
  cases hu with
  | refill ready stash => exact h.update_both (by simp [Pc.slotless])
  | large looping fits pop wakes => exact h.update (fun _ => h.looping looping)
  | small looping no_large some_small slot pop run wakes =>
    exact h.update_both (by simp [Pc.slotless])
  | @exit i looping no_large finished =>
    intro k hk
    dsimp only at hk ⊢
    by_cases hki : k = i
    · rw [hki]
      exact h.looping looping
    · rw [Function.update_of_ne hki] at hk
      apply h k
      split_ifs at hk
      · exact slotless_of_broadcast hk
      · exact hk
  | park looping no_large no_small unfinished => exact h.update (fun _ => h.looping looping)
  | copied copying => exact h.update (by simp [Pc.slotless])
  | started starting => exact h.update (by simp [Pc.slotless])
  | startFailed starting =>
    exact fun k hk => h.update (by simp [Pc.slotless]) k (slotless_of_broadcast hk)
  | finishLarge running => exact fun k hk => h k (slotless_of_broadcast hk)
  | stop => exact fun k hk => h k (slotless_of_broadcast hk)
  | slice active room taken split push counted signal =>
    exact fun k hk => h k (slotless_of_signals signal hk)
  | spuriousWorker parked => exact h.update (fun _ => h _ (Or.inl parked))
  | _ => exact h

/-- The tasks that workers have claimed and not begun. -/
def State.stashed (s : State P) : List Task := (List.finRange P.workers).flatMap s.stash

/-- The tasks that their producers still hold. -/
def State.unqueued (s : State P) : List Task :=
  (List.finRange P.producers).flatMap fun k => (s.producer k).rest

/-- How often a task is in one of the places. -/
def State.times (s : State P) (t : Task) : ℕ :=
  s.smallQ.times t + (s.largeHeap.map Entry.task).count t +
    total (fun stash => stash.count t) s.stash +
    total (fun producer : Producer => producer.rest.count t) s.producer + s.handed.count t

theorem count_flatMap_finRange {n : ℕ} (f : Fin n → List Task) (t : Task) :
    ((List.finRange n).flatMap f).count t = total (fun ts => ts.count t) f := by
  rw [List.count_flatMap, total, Fin.sum_univ_def]
  rfl

theorem State.times_eq (s : State P) (t : Task) :
    s.times t = (s.handed ++ s.queuedTasks ++ s.stashed ++ s.unqueued).count t := by
  have hqueue : s.smallQ.times t =
      (s.smallQ.batches.flatMap fun b => b.tasks.drop b.head).count t := by
    rw [List.count_flatMap]
    rfl
  have hstash : s.stashed.count t = total (fun stash => stash.count t) s.stash :=
    count_flatMap_finRange s.stash t
  have hrest : s.unqueued.count t =
      total (fun producer : Producer => producer.rest.count t) s.producer :=
    count_flatMap_finRange (fun k => (s.producer k).rest) t
  rw [List.count_append, List.count_append, List.count_append, State.queuedTasks,
    List.count_append, hstash, hrest, State.times, hqueue]
  omega

/-- The tasks that an action brings in. -/
def Act.batch : Act P → List Task
  | .submit _ batch => batch
  | _ => []

@[simp] theorem batch_dequeue (i : Fin P.workers) (wake : Option (Fin P.producers)) :
    (Act.dequeue i wake).batch = [] := rfl
@[simp] theorem batch_submit (k : Fin P.producers) (batch : List Task) :
    (Act.submit k batch).batch = batch := rfl
@[simp] theorem batch_enqueue (k : Fin P.producers) (wakes : List (Option (Fin P.workers))) :
    (Act.enqueue k wakes).batch = [] := rfl

/-- Everything handed to `workers_enqueue_batch` in a run. -/
def submitted (as : List (Act P)) : List Task := as.flatMap Act.batch

/-- What the callers of the pool keep to: no allocation fails, `workers_stop` comes when
the traversal threads are done, and nothing is enqueued after it. -/
def Orderly (s : State P) : Act P → Prop
  | .submit _ _ => s.queueDone = false
  | .abandon _ => False
  | .reserveFails _ => False
  | .workersStop => ∀ k, s.producer k = .idle
  | _ => True

instance (s : State P) (a : Act P) : Decidable (Orderly s a) :=
  match a with
  | .submit .. => instDecidableEqBool s.queueDone false
  | .abandon _ | .reserveFails _ => instDecidableFalse
  | .workersStop => Nat.decidableForallFin fun k => s.producer k = .idle
  | .dequeue .. | .copied _ | .started .. | .finishLarge | .enqueue .. | .spuriousWorker _
  | .spuriousProducer _ => instDecidableTrue

theorem SpaceWake.total_rest {pr : Fin P.producers → Producer} (h : SpaceWake s pr) (t : Task) :
    total (fun producer : Producer => producer.rest.count t) pr =
      total (fun producer : Producer => producer.rest.count t) s.producer := by
  obtain rfl | ⟨k, batch, hk, rfl⟩ := h.change
  · rfl
  · have hupd := total_update (fun producer : Producer => producer.rest.count t) s.producer k
      (.woken batch)
    rw [hk] at hupd
    exact Nat.add_right_cancel hupd

theorem total_rest_update {k : Fin P.producers} {x : Producer} {t : Task}
    (hx : x.rest.count t = (s.producer k).rest.count t) :
    total (fun producer : Producer => producer.rest.count t) (Function.update s.producer k x) =
      total (fun producer : Producer => producer.rest.count t) s.producer := by
  have hupd := total_update (fun producer : Producer => producer.rest.count t) s.producer k x
  rw [hx] at hupd
  exact Nat.add_right_cancel hupd

/-- A step moves tasks between the places and adds what is submitted. -/
theorem times_step (hstash : Stashes s) (ha : Orderly s a) (hu : Step s a u) (t : Task) :
    u.times t = s.times t + a.batch.count t := by
  unfold State.times
  cases hu with
  | @refill i x rest ready stash =>
    have hupd := total_update (fun stash => stash.count t) s.stash i rest
    dsimp only at hupd ⊢
    rw [stash, count_cons_eq] at hupd
    rw [List.count_append, batch_dequeue, List.count_nil]
    omega
  | @large i wake e rest pr looping fits pop wakes =>
    have hheap := times_heapPopMax pop t
    have hrest := wakes.total_rest t
    dsimp only at hrest ⊢
    rw [List.count_append, hrest, batch_dequeue, List.count_nil]
    omega
  | @small i wake b q x stash pr looping no_large some_small slot pop run wakes =>
    have hrest := wakes.total_rest t
    have hpop := times_pop pop t
    have hafter := times_after q b smallClaimBatch t
    have hupd := total_update (fun stash => stash.count t) s.stash i stash
    rw [run, List.length_cons, count_cons_eq] at hafter
    dsimp only at hrest hupd ⊢
    rw [hstash.looping looping, List.count_nil] at hupd
    rw [List.count_append, hrest, batch_dequeue, List.count_nil]
    omega
  | @submit k batch idle nonempty =>
    have hupd := total_update (fun producer : Producer => producer.rest.count t) s.producer k
      (.pending batch)
    have hold : Producer.idle.rest.count t = 0 := rfl
    have hnew : (Producer.pending batch).rest.count t = batch.count t := rfl
    dsimp only at hupd ⊢
    rw [idle, hold, hnew] at hupd
    rw [batch_submit]
    omega
  | @waitSpace k batch active full =>
    dsimp only
    rw [total_rest_update]
    · rfl
    · rcases active with hk | hk <;> rw [hk] <;> rfl
  | @slice k batch wakes take heap seq small q pc active room taken split push counted signal =>
    have hsplit := times_distribute (P := P) (batch.take take) s.largeHeap s.enqueueSeq t
    have hbatch : (batch.take take).count t + (batch.drop take).count t = batch.count t := by
      rw [← List.count_append, List.take_append_drop]
    have hq : q.times t = s.smallQ.times t + small.count t := by
      subst push
      split_ifs with hsmall
      · rw [hsmall, List.count_nil, Nat.add_zero]
      · rw [times_push]
        rfl
    have hupd := total_update (fun producer : Producer => producer.rest.count t) s.producer k
      (if batch.drop take = [] then .idle else .pending (batch.drop take))
    have hold : (s.producer k).rest = batch := by
      rcases active with hk | hk <;> rw [hk] <;> rfl
    have hnew : (if batch.drop take = [] then Producer.idle
        else .pending (batch.drop take)).rest = batch.drop take := by
      split_ifs with hnil
      · exact hnil.symm
      · rfl
    rw [split] at hsplit
    dsimp only at hsplit hupd ⊢
    rw [hold, hnew] at hupd
    rw [batch_enqueue, List.count_nil]
    omega
  | abandon pending => exact absurd ha id
  | reserveFailed woken room large => exact absurd ha id
  | @spuriousProducer k batch parked =>
    dsimp only
    rw [total_rest_update]
    · rfl
    · rw [parked]
      rfl
  | _ => rfl

/-- What dispatch relies on in a reachable state. -/
structure Ordered (s : State P) : Prop where
  bounded : Bounded s
  slots : Slots s
  limits : Limits s
  large : LargeSlots s
  stashes : Stashes s

theorem Ordered.start (P : Pool) : Ordered (State.start P) where
  bounded := (Supplied.start P).bounded
  slots := (Tended.start P).slots
  limits := ⟨Nat.zero_le _, Nat.zero_le _, by simp [State.slotsUsed, State.start]⟩
  large := by simp [LargeSlots, State.start, count, total, Pc.isStarting]
  stashes := fun _ _ => rfl

theorem Ordered.step (h : Ordered s) (hu : Scheduler.step s a = some u) : Ordered u where
  bounded := h.bounded.step (step_step hu)
  slots := h.slots.step (step_step hu)
  limits := h.limits.step (step_step hu)
  large := h.large.step (step_step hu)
  stashes := h.stashes.step (step_step hu)

theorem times_exec (hs : Ordered s) (ha : Along Scheduler.step Orderly s as)
    (hr : exec step s as = some u) (t : Task) : u.times t = s.times t + (submitted as).count t := by
  induction as generalizing s with
  | nil =>
    cases hr
    rfl
  | cons a as ih =>
    obtain ⟨v, hv, hr⟩ := exec_cons_eq_some.mp hr
    have hfirst := times_step hs.stashes ha.1 (step_step hv) t
    have hrest := ih (hs.step hv) (ha.2 v hv) hr
    have hsplit : submitted (a :: as) = a.batch ++ submitted as := List.flatMap_cons
    rw [hrest, hfirst, hsplit, List.count_append, Nat.add_assoc]

/-- What a step hands over, and to whom. -/
def handover (s u : State P) : Act P → List (Fin P.workers × Task)
  | .dequeue i _ => (u.handed.drop s.handed.length).map fun t => (i, t)
  | _ => []

/-- Who was handed what in a run. -/
def handovers : State P → List (Act P) → List (Fin P.workers × Task)
  | _, [] => []
  | s, a :: as =>
    match step s a with
    | none => []
    | some u => handover s u a ++ handovers u as

theorem handed_exec (hr : exec step s as = some u) :
    u.handed = s.handed ++ (handovers s as).map Prod.snd := by
  induction as generalizing s with
  | nil =>
    cases hr
    exact (List.append_nil _).symm
  | cons a as ih =>
    obtain ⟨v, hv, hr⟩ := exec_cons_eq_some.mp hr
    have hrest := ih hr
    have hcons : handovers s (a :: as) = handover s v a ++ handovers v as := by
      rw [handovers, hv]
    rw [hrest, hcons, List.map_append, ← List.append_assoc]
    congr 1
    cases step_step hv with
    | refill ready stash => simp [handover]
    | large looping fits pop wakes => simp [handover]
    | small looping no_large some_small slot pop run wakes => simp [handover]
    | exit looping no_large finished => simp [handover]
    | park looping no_large no_small unfinished => simp [handover]
    | _ => exact (List.append_nil _).symm

/-- A worker leaves only at the end. -/
theorem terminal_of_exit (hu : Step s a u) {k : Fin P.workers} (hbefore : s.pc k ≠ .exited)
    (hafter : u.pc k = .exited) : u.terminal := by
  have hupdate : ∀ {i : Fin P.workers} {c : Pc}, c ≠ .exited →
      Function.update s.pc i c k ≠ .exited := by
    intro i c hc
    by_cases hki : k = i
    · rw [hki, Function.update_self]
      exact hc
    · rw [Function.update_of_ne hki]
      exact hbefore
  have hbroadcast : ∀ {f : Fin P.workers → Pc}, f k ≠ .exited →
      broadcast .parked .woken f k ≠ .exited := by
    intro f hf
    obtain hb | ⟨-, hb⟩ := broadcast_apply Pc.parked .woken f k
    · rwa [hb]
    · rw [hb]
      nofun
  cases hu with
  | refill ready stash => exact absurd hafter (hupdate nofun)
  | large looping fits pop wakes => exact absurd hafter (hupdate nofun)
  | small looping no_large some_small slot pop run wakes => exact absurd hafter (hupdate nofun)
  | exit looping no_large finished => exact finished
  | park looping no_large no_small unfinished => exact absurd hafter (hupdate nofun)
  | copied copying => exact absurd hafter (hupdate nofun)
  | started starting => exact absurd hafter (hupdate nofun)
  | startFailed starting => exact absurd hafter (hbroadcast (hupdate nofun))
  | finishLarge running => exact absurd hafter (hbroadcast hbefore)
  | stop => exact absurd hafter (hbroadcast hbefore)
  | slice active room taken split push counted signal =>
    obtain hs | ⟨-, hs⟩ := signals_apply signal k
    · exact absurd (hs.symm.trans hafter) hbefore
    · have hwoken := hs.symm.trans hafter
      cases hwoken
  | spuriousWorker parked => exact absurd hafter (hupdate nofun)
  | _ => exact absurd hafter hbefore

/-- Steps that workers and pipelines take on their own. -/
def Act.internal : Act P → Bool
  | .dequeue _ _ => true
  | .copied _ => true
  | .started _ _ => true
  | .finishLarge => true
  | _ => false

/-- Nothing happens any more unless a producer or a spurious wakeup makes it happen. -/
def State.Halted (s : State P) : Prop := ∀ a : Act P, a.internal = true → step s a = none

theorem wakeProducer_enabled (s : State P) : ∃ wake u, wakeProducerIfRoom s wake = some u := by
  unfold wakeProducerIfRoom
  split_ifs with hroom
  · by_cases hpark : ∃ k, (s.producer k).isParked = true
    · obtain ⟨k, hk⟩ := hpark
      cases hp : s.producer k with
      | parked batch => exact ⟨some k, _, by rw [signalSpace, hp]⟩
      | idle =>
        rw [hp] at hk
        cases hk
      | pending batch =>
        rw [hp] at hk
        cases hk
      | woken batch =>
        rw [hp] at hk
        cases hk
    · have hnone : ∀ k, (s.producer k).isParked = false := by
        intro k
        rw [← Bool.not_eq_true]
        exact fun hk => hpark ⟨k, hk⟩
      exact ⟨none, s, by rw [signalSpace, if_pos hnone]⟩
  · exact ⟨none, s, if_pos rfl⟩

theorem SmallQueue.Sound.pop_isSome {q : SmallQueue} (h : q.Sound) (hlen : 0 < q.len) :
    ∃ b rest, smallqPopBatch q = some (b, rest) := by
  unfold smallqPopBatch
  split
  next hq =>
    rw [h.len, hq] at hlen
    exact absurd hlen (lt_irrefl 0)
  next b rest hq => exact ⟨_, _, rfl⟩

theorem dequeueRound_enabled (h : s.smallQ.Sound) (i : Fin P.workers) :
    ∃ wake u, dequeueRound s i wake = some u := by
  unfold dequeueRound
  split_ifs with hlarge hsmall
  · cases hpop : heapPopMax s.largeHeap with
    | none =>
      have hpos := hlarge.1
      rw [Heap.heapPopMax_eq_none_iff.mp hpop] at hpos
      exact absurd hpos (lt_irrefl 0)
    | some r =>
      unfold claimLarge
      rw [hpop]
      exact wakeProducer_enabled _
  · obtain ⟨b, rest, hpop⟩ := h.pop_isSome hsmall.1
    obtain ⟨hrest, hb, hlen⟩ := h.pop hpop
    unfold claimSmall
    rw [hpop]
    obtain ⟨wake, v, hv⟩ := wakeProducer_enabled { s with
      smallQ := rest
      smallWorkersActive := if s.smallSlot i then s.smallWorkersActive else s.smallWorkersActive + 1
      smallSlot := Function.update s.smallSlot i true }
    refine ⟨wake, ?_⟩
    dsimp only [Option.bind_eq_bind, Option.bind_some]
    rw [hv, Option.bind_some]
    cases hrun : (b.tasks.drop b.head).take smallClaimBatch with
    | nil =>
      have hzero := congrArg List.length hrun
      rw [List.length_take, List.length_drop, List.length_nil] at hzero
      have hbatch : smallClaimBatch = 8 := rfl
      rw [DirBatch.count] at hb
      omega
    | cons t stash => exact ⟨_, rfl⟩
  · exact ⟨none, _, if_pos rfl⟩

/-- An awake worker can always go on. -/
theorem dequeue_enabled (h : Bounded s) {i : Fin P.workers}
    (hi : s.pc i = .ready ∨ s.pc i = .woken) : ∃ wake u, step s (.dequeue i wake) = some u := by
  simp only [step, dequeueWork]
  rcases hi with hi | hi
  · rw [hi]
    cases hstash : s.stash i with
    | nil => exact dequeueRound_enabled h.sound i
    | cons t rest => exact ⟨none, _, if_pos rfl⟩
  · rw [hi]
    exact dequeueRound_enabled (s := { s with queueWaiters := s.queueWaiters - 1 }) h.sound i

theorem State.Halted.quiet (h : s.Halted) (hb : Bounded s) :
    (∀ i, s.pc i = .parked ∨ s.pc i = .exited) ∧ s.pipelines = 0 := by
  constructor
  · intro i
    cases hi : s.pc i with
    | ready =>
      obtain ⟨wake, u, hu⟩ := dequeue_enabled hb (Or.inl hi)
      rw [h _ rfl] at hu
      cases hu
    | copying t =>
      have hnone := h (.copied i) rfl
      simp [step, hi] at hnone
    | starting t =>
      have hnone := h (.started i true) rfl
      simp [step, hi] at hnone
    | parked => exact Or.inl rfl
    | woken =>
      obtain ⟨wake, u, hu⟩ := dequeue_enabled hb (Or.inr hi)
      rw [h _ rfl] at hu
      cases hu
    | exited => exact Or.inr rfl
  · have hnone := h .finishLarge rfl
    simp only [step, ite_eq_right_iff] at hnone
    by_contra hpos
    cases hnone (Nat.pos_of_ne_zero hpos)

/-- Once the queue is closed no producer is in a batch, and a worker that has left has
seen the end. -/
structure Closed (s : State P) : Prop where
  idle : s.queueDone = true → ∀ k, s.producer k = .idle
  left : (∃ i, s.pc i = .exited) → s.terminal

/-- After the end only parked workers and the producers' counters change. -/
theorem terminal_step (h : Closed s) (ha : Orderly s a) (ht : s.terminal) (hu : Step s a u) :
    u.terminal := by
  obtain ⟨hdone, hlen, hheap, hsmall, hlarge⟩ := ht
  cases hu with
  | large looping fits pop wakes =>
    have hpos := fits.1
    omega
  | small looping no_large some_small slot pop run wakes => omega
  | exit looping no_large finished => exact finished
  | park looping no_large no_small unfinished =>
    refine ⟨hdone, hlen, hheap, ?_, hlarge⟩
    dsimp only
    omega
  | startFailed starting =>
    refine ⟨hdone, hlen, hheap, hsmall, ?_⟩
    dsimp only
    omega
  | finishLarge running =>
    refine ⟨hdone, hlen, hheap, hsmall, ?_⟩
    dsimp only
    omega
  | slice active room taken split push counted signal =>
    rcases active with hk | hk <;> rw [h.idle hdone _] at hk <;> cases hk
  | stop => exact ⟨rfl, hlen, hheap, hsmall, hlarge⟩
  | _ => exact ⟨hdone, hlen, hheap, hsmall, hlarge⟩

theorem idle_step (h : Closed s) (ha : Orderly s a) (hu : Step s a u) (hdone : u.queueDone = true)
    (k : Fin P.producers) : u.producer k = .idle := by
  have hwake : ∀ {v : State P} {pr : Fin P.producers → Producer}, SpaceWake v pr →
      v.producer k = .idle → pr k = .idle := by
    intro v pr hw hidle
    obtain hk | ⟨batch, hk, -⟩ := hw.apply k
    · exact hk.trans hidle
    · rw [hidle] at hk
      cases hk
  cases hu with
  | large looping fits pop wakes => exact hwake wakes (h.idle hdone k)
  | small looping no_large some_small slot pop run wakes => exact hwake wakes (h.idle hdone k)
  | submit idle nonempty =>
    rw [show s.queueDone = false from ha] at hdone
    cases hdone
  | waitSpace active full =>
    rcases active with hk | hk <;> rw [h.idle hdone _] at hk <;> cases hk
  | slice active room taken split push counted signal =>
    rcases active with hk | hk <;> rw [h.idle hdone _] at hk <;> cases hk
  | abandon pending => exact absurd ha id
  | reserveFailed woken room large => exact absurd ha id
  | stop => exact ha k
  | spuriousProducer parked =>
    rw [h.idle hdone _] at parked
    cases parked
  | _ => exact h.idle hdone k

theorem Closed.step (h : Closed s) (ha : Orderly s a) (hu : Step s a u) : Closed u where
  idle := idle_step h ha hu
  left := by
    rintro ⟨i, hi⟩
    by_cases hbefore : s.pc i = .exited
    · exact terminal_step h ha (h.left ⟨i, hbefore⟩) hu
    · exact terminal_of_exit hu hbefore hi

/-- The queue is closed, the producers are done and the workers have come to rest. -/
def State.Final (s : State P) : Prop :=
  s.queueDone = true ∧ (∀ k, s.producer k = .idle) ∧ s.Halted

/-- Nothing is left in the queues of a pool at rest, unless a large file fills it. -/
theorem queues_empty (hworkers : 0 < P.workers) (hlimit : 0 < P.config.smallWorkerLimit)
    (hactive : 0 < P.config.maxActiveLargeFiles)
    (hroom : P.remote = true ∨ P.config.largeWorkerCount < P.workers) (ht : Tended s)
    (ho : Ordered s) (hc : Closed s) (hrest : ∀ i, s.pc i = .parked ∨ s.pc i = .exited)
    (hpipe : s.pipelines = 0) : s.smallQ.len = 0 ∧ s.largeHeap = [] := by
  by_cases hleft : ∃ i, s.pc i = .exited
  · obtain ⟨-, hlen, hheap, -, -⟩ := hc.left hleft
    exact ⟨hlen, List.length_eq_zero_iff.mp hheap⟩
  · have hparked : ∀ i, s.pc i = .parked := fun i => (hrest i).resolve_right fun h => hleft ⟨i, h⟩
    have hquiet : s.Quiet := ⟨⟨⟨0, hworkers⟩, hparked _⟩, hrest⟩
    have hsmall : s.smallWorkersActive = 0 := by
      rw [ho.slots.counted]
      apply count_eq_zero_iff.mpr
      intro i
      exact ho.slots.resting i (Or.inl (hparked i))
    have hlarge : s.largeWorkersActive = 0 := by
      rw [ho.large, hpipe, Nat.add_zero]
      apply count_eq_zero_iff.mpr
      intro i
      rw [hparked i]
      rfl
    have hslots : s.slotsUsed = 0 := by
      rw [State.slotsUsed, hsmall, hlarge, Nat.zero_mul]
    have hheap : s.largeHeap = [] := by
      by_contra hne
      rcases hroom with hremote | hlt
      · exact hne (ht.remote hremote)
      · have hclaim : s.largeClaimable := by
          refine ⟨List.length_pos_iff.mpr hne, ?_, ?_⟩
          · rw [hlarge]
            exact hactive
          · rw [hslots, Nat.zero_add]
            exact hlt.le
        have hfill := (ht.watched.quiet hquiet (Or.inl hclaim)).2
        rw [hlarge, Nat.zero_add, Nat.one_mul] at hfill
        omega
    refine ⟨?_, hheap⟩
    by_contra hne
    have hclaim : s.smallClaimable := by
      refine ⟨Nat.pos_of_ne_zero hne, ?_, ?_⟩
      · rw [hsmall]
        exact hlimit
      · rw [hslots]
        exact hworkers
    exact (ht.watched.quiet hquiet (Or.inr hclaim)).1 hheap

/-- What a run has done with the files, and what holds in the state it has reached. -/
structure Dispatched (as : List (Act P)) (s : State P) : Prop where
  /-- A file is handed over once or waits in one place. -/
  once : ((handovers (State.start P) as).map Prod.snd ++ s.queuedTasks ++ s.stashed ++
    s.unqueued).Perm (submitted as)
  /-- When nothing moves any more all files have been handed over. -/
  complete : s.Final → ((handovers (State.start P) as).map Prod.snd).Perm (submitted as)
  exits : ∀ bs a v i, as = bs ++ [a] → exec step (State.start P) bs = some v →
    v.pc i ≠ .exited → s.pc i = .exited → s.terminal
  length : s.smallQ.len = (s.smallQ.batches.map fun b => b.count - b.head).sum
  bound : s.smallQ.len + s.largeHeap.length ≤ P.config.maxQueuedFiles
  slots : s.smallWorkersActive = count id s.smallSlot
  smallLimit : s.smallWorkersActive ≤ P.config.smallWorkerLimit
  largeLimit : s.largeWorkersActive ≤ P.config.maxActiveLargeFiles
  capacity : s.smallWorkersActive + s.largeWorkersActive * P.config.largeWorkerCount ≤ P.workers

/-- The invariants of a run. -/
structure Kept (s : State P) : Prop where
  tended : Tended s
  ordered : Ordered s
  closed : Closed s

theorem Kept.start (P : Pool) : Kept (State.start P) where
  tended := .start P
  ordered := .start P
  closed := ⟨nofun, fun ⟨_, hi⟩ => nomatch hi⟩

theorem Kept.exec (hL : 0 < P.config.largeWorkerCount)
    (ha : Along step Orderly (State.start P) as) (hr : exec step (State.start P) as = some s) :
    Kept s :=
  ha.invariant (I := Kept) (fun _ _ _ hg hs hu =>
    ⟨hs.tended.step hL hu, hs.ordered.step hu, hs.closed.step hg (step_step hu)⟩) (.start P) hr

theorem once_of_run (ha : Along step Orderly (State.start P) as)
    (hr : exec step (State.start P) as = some s) :
    ((handovers (State.start P) as).map Prod.snd ++ s.queuedTasks ++ s.stashed ++
      s.unqueued).Perm (submitted as) := by
  have hhanded : s.handed = (handovers (State.start P) as).map Prod.snd := handed_exec hr
  apply List.perm_iff_count.mpr
  intro t
  have htimes := times_exec (.start P) ha hr t
  have hstart : (State.start P).times t = 0 := by
    simp [State.times, State.start, SmallQueue.times, total, Producer.rest]
  rw [← hhanded, ← State.times_eq, htimes, hstart, Nat.zero_add]

theorem exits_of_run (hr : exec step (State.start P) as = some s) (bs : List (Act P)) (a : Act P)
    (v : State P) (i : Fin P.workers) (has : as = bs ++ [a])
    (hv : exec step (State.start P) bs = some v) (hbefore : v.pc i ≠ .exited)
    (hafter : s.pc i = .exited) : s.terminal := by
  obtain ⟨w, hw, hlast⟩ := exec_append_eq_some.mp (has ▸ hr)
  rw [hv] at hw
  cases hw
  obtain ⟨u, hu, hnil⟩ := exec_cons_eq_some.mp hlast
  cases hnil
  exact terminal_of_exit (step_step hu) hbefore hafter

theorem complete_of_run (hL : 0 < P.config.largeWorkerCount) (hworkers : 0 < P.workers)
    (hlimit : 0 < P.config.smallWorkerLimit) (hactive : 0 < P.config.maxActiveLargeFiles)
    (hroom : P.remote = true ∨ P.config.largeWorkerCount < P.workers)
    (ha : Along step Orderly (State.start P) as) (hr : exec step (State.start P) as = some s)
    (hf : s.Final) : ((handovers (State.start P) as).map Prod.snd).Perm (submitted as) := by
  have hk := Kept.exec hL ha hr
  obtain ⟨hrest, hpipe⟩ := hf.2.2.quiet hk.ordered.bounded
  obtain ⟨hlen, hheap⟩ := queues_empty hworkers hlimit hactive hroom hk.tended hk.ordered hk.closed
    hrest hpipe
  have hqueued : s.queuedTasks = [] := by
    apply List.eq_nil_of_length_eq_zero
    rw [hk.ordered.bounded.length_queuedTasks, State.queued, hlen, hheap]
    rfl
  have hstashed : s.stashed = [] := by
    apply List.flatMap_eq_nil_iff.mpr
    intro i _
    apply hk.ordered.stashes i
    rcases hrest i with h | h
    · exact Or.inl h
    · exact Or.inr (Or.inr h)
  have hunqueued : s.unqueued = [] := by
    apply List.flatMap_eq_nil_iff.mpr
    intro k _
    rw [hf.2.1 k]
    rfl
  have honce := once_of_run ha hr
  rwa [hqueued, hstashed, hunqueued, List.append_nil, List.append_nil, List.append_nil] at honce

/-- The dispatch of files under an environment, for every number of producers and every
run. -/
def DispatchesAll (env : Config.Env) (remote : Bool) : Prop :=
  ∀ (producers : ℕ) (as : List (Act (Pool.ofEnv env remote producers)))
    (s : State (Pool.ofEnv env remote producers)),
    Along step Orderly (State.start _) as → exec step (State.start _) as = some s → Dispatched as s

/-- One file of a batch fits and no worker waits for it. -/
theorem enqueue_one {k : Fin P.producers} {t : Task} (hk : s.producer k = .pending [t])
    (hroom : s.queued < P.config.maxQueuedFiles) (hwait : s.queueWaiters = 0)
    {heap : List (Entry Task)} {seq : ℕ} {small : List Task}
    (hsplit : distribute P [t] s.largeHeap s.enqueueSeq = (heap, seq, small)) :
    step s (.enqueue k []) = some { s with
      largeHeap := heap
      enqueueSeq := seq
      smallQ := if small = [] then s.smallQ else smallqPushBatch s.smallQ ⟨0, small⟩
      producer := Function.update s.producer k .idle } := by
  have hmin := spaceWakeMin_pos P
  have hneed : ¬(P.config.maxQueuedFiles - s.queued <
      if [t].length < spaceWakeMin P then [t].length else spaceWakeMin P) := by
    rw [← min_def_lt, List.length_singleton]
    omega
  have htake : min [t].length (P.config.maxQueuedFiles - s.queued) = [t].length := by
    rw [List.length_singleton]
    omega
  simp only [step, enqueueBatch, hk, enqueueRound, if_neg hneed, enqueueSlice, htake,
    List.take_length, hsplit, List.drop_length, if_true]
  have hwakes : ∀ v : State P, v.queueWaiters = 0 → ([] : List (Option (Fin P.workers))).length = wakesFor v := by
    intro v hv
    rw [wakesFor, hv]
    exact (Nat.min_zero _).symm
  by_cases hsmall : small = []
  · simp only [if_pos hsmall]
    exact (if_pos (hwakes _ (by exact hwait))).trans rfl
  · simp only [if_neg hsmall]
    exact (if_pos (hwakes _ (by exact hwait))).trans rfl

/-- A worker that finds nothing to claim goes to sleep. -/
theorem dequeue_parks {i : Fin P.workers} (hpc : s.pc i = .ready) (hstash : s.stash i = [])
    (hlarge : ¬s.largeClaimable) (hlen : s.smallQ.len = 0) (hfin : ¬s.finished i) :
    step s (.dequeue i none) = some { s with
      smallWorkersActive := s.smallWorkersActive - (s.smallSlot i).toNat
      smallSlot := Function.update s.smallSlot i false
      queueWaiters := s.queueWaiters + 1
      pc := Function.update s.pc i .parked } := by
  have hsmall : ¬(0 < s.smallQ.len ∧ (s.smallSlot i = true ∨ s.smallClaimable)) := by
    rw [hlen]
    exact fun h => absurd h.1 (lt_irrefl 0)
  simp only [step, dequeueWork, hpc, hstash, dequeueRound, if_neg hlarge, if_neg hsmall, if_true]
  rw [leaveOrPark, if_neg (mt (terminal_releaseSlot s i).mp hfin), releaseSlot_eq]
  simp only [hfin, and_false, if_false]

/-- A whole set of workers goes to sleep before a large file that does not fit. -/
theorem park_all (ws : List (Fin P.workers)) (hnodup : ws.Nodup)
    (hready : ∀ i ∈ ws, s.pc i = .ready ∧ s.stash i = [] ∧ s.smallSlot i = false)
    (hlarge : ¬s.largeClaimable) (hlen : s.smallQ.len = 0) (hheap : 0 < s.largeHeap.length) :
    exec step s (ws.map fun i => .dequeue i none) = some { s with
      queueWaiters := s.queueWaiters + ws.length
      pc := fun i => if i ∈ ws then .parked else s.pc i } := by
  induction ws generalizing s with
  | nil => simp
  | cons i ws ih =>
    obtain ⟨hpc, hstash, hslot⟩ := hready i List.mem_cons_self
    have hfin : ¬s.finished i := by
      rintro ⟨-, -, hnone, -⟩
      omega
    have hself : Function.update s.smallSlot i false = s.smallSlot := by
      rw [← hslot, Function.update_eq_self]
    have hfirst := dequeue_parks hpc hstash hlarge hlen hfin
    rw [hslot, hself, Bool.toNat_false, Nat.sub_zero] at hfirst
    rw [List.map_cons]
    apply exec_cons_eq_some.mpr
    refine ⟨_, hfirst, ?_⟩
    have hothers : ∀ j ∈ ws, Function.update s.pc i .parked j = .ready ∧ s.stash j = [] ∧
        s.smallSlot j = false := by
      intro j hj
      have hji : j ≠ i := fun h => (List.nodup_cons.mp hnodup).1 (h ▸ hj)
      rw [Function.update_of_ne hji]
      exact hready j (List.mem_cons_of_mem i hj)
    rw [ih (s := { s with
      queueWaiters := s.queueWaiters + 1
      pc := Function.update s.pc i .parked }) (List.nodup_cons.mp hnodup).2 hothers hlarge hlen
      hheap]
    congr 2
    · dsimp only
      rw [List.length_cons]
      omega
    · funext j
      by_cases hji : j = i
      · subst hji
        simp
      · simp [hji]

/-- The small file is being copied, the large one is queued and the queue is closed. -/
def loaded (P : Pool) (w : Fin P.workers) (small large : Task) (key seq : ℕ) : State P :=
  { State.start P with
    largeHeap := [⟨key, large⟩]
    queueDone := true
    smallWorkersActive := 1
    enqueueSeq := seq
    pc := Function.update (fun _ => .ready) w (.copying small)
    smallSlot := Function.update (fun _ => false) w true
    handed := [small] }

def loading (w : Fin P.workers) (k : Fin P.producers) (small large : Task) : List (Act P) :=
  [.submit k [small], .enqueue k [], .dequeue w none, .submit k [large], .enqueue k [], .workersStop]

theorem distribute_small {t : Task} (h : taskUsesLargePipeline P t = false)
    (heap : List (Entry Task)) (seq : ℕ) : distribute P [t] heap seq = (heap, seq, [t]) := by
  simp [distribute, h]

theorem distribute_large {t : Task} (h : taskUsesLargePipeline P t = true) :
    ∃ key seq, distribute P [t] [] 0 = ([⟨key, t⟩], seq, []) := by
  simp only [distribute, h, if_true]
  split_ifs
  · exact ⟨_, _, rfl⟩
  · exact ⟨_, _, rfl⟩

theorem exec_loading (w : Fin P.workers) (k : Fin P.producers) {small large : Task}
    (hs : taskUsesLargePipeline P small = false) (hl : taskUsesLargePipeline P large = true)
    (hmax : 1 ≤ P.config.maxQueuedFiles) (hworkers : 0 < P.workers)
    (hlimit : 0 < P.config.smallWorkerLimit) :
    ∃ key seq, exec step (State.start P) (loading w k small large) =
      some (loaded P w small large key seq) ∧
        Along step Orderly (State.start P) (loading w k small large) := by
  obtain ⟨key, seq, hlarge⟩ := distribute_large hl
  refine ⟨key, seq, ?_⟩
  have h1 : step (State.start P) (.submit k [small]) = some { State.start P with
      producer := Function.update (fun _ => .idle) k (.pending [small]) } := by
    simp [step, State.start]
  have h2 : step { State.start P with
      producer := Function.update (fun _ => .idle) k (.pending [small]) } (.enqueue k []) =
      some { State.start P with smallQ := ⟨[⟨0, [small]⟩], 1⟩ } := by
    refine (enqueue_one (t := small) ?_ ?_ rfl (distribute_small hs _ _)).trans ?_
    · simp
    · exact hmax
    · simp [State.start, smallqPushBatch, DirBatch.count]
  have h3 : step { State.start P with smallQ := ⟨[⟨0, [small]⟩], 1⟩ } (.dequeue w none) =
      some { State.start P with
        smallWorkersActive := 1
        pc := Function.update (fun _ => .ready) w (.copying small)
        smallSlot := Function.update (fun _ => false) w true
        handed := [small] } := by
    simp only [step, dequeueWork, State.start, dequeueRound]
    rw [if_neg (by simp [State.largeClaimable]), if_pos (by
      simp [State.smallClaimable, State.slotsUsed, hlimit]
      exact hworkers)]
    simp [claimSmall, smallqPopBatch, wakeProducerIfRoom, smallClaimBatch, DirBatch.count]
  have h4 : step { State.start P with
        smallWorkersActive := 1
        pc := Function.update (fun _ => .ready) w (.copying small)
        smallSlot := Function.update (fun _ => false) w true
        handed := [small] } (.submit k [large]) = some { State.start P with
        smallWorkersActive := 1
        pc := Function.update (fun _ => .ready) w (.copying small)
        smallSlot := Function.update (fun _ => false) w true
        producer := Function.update (fun _ => .idle) k (.pending [large])
        handed := [small] } := by
    simp [step, State.start]
  have h5 : step { State.start P with
        smallWorkersActive := 1
        pc := Function.update (fun _ => .ready) w (.copying small)
        smallSlot := Function.update (fun _ => false) w true
        producer := Function.update (fun _ => .idle) k (.pending [large])
        handed := [small] } (.enqueue k []) = some { State.start P with
        largeHeap := [⟨key, large⟩]
        smallWorkersActive := 1
        enqueueSeq := seq
        pc := Function.update (fun _ => .ready) w (.copying small)
        smallSlot := Function.update (fun _ => false) w true
        handed := [small] } := by
    refine (enqueue_one (t := large) ?_ ?_ rfl hlarge).trans ?_
    · simp
    · exact hmax
    · simp [State.start]
  have h6 : broadcast .parked .woken (Function.update (fun _ => Pc.ready) w (.copying small)) =
      Function.update (fun _ => Pc.ready) w (.copying small) := by
    funext i
    by_cases hi : i = w
    · subst hi
      simp [broadcast]
    · simp [broadcast, hi]
  constructor
  · rw [loading, exec, h1, Option.bind_some, exec, h2, Option.bind_some, exec, h3,
      Option.bind_some, exec, h4, Option.bind_some, exec, h5, Option.bind_some, exec]
    simp only [step, broadcastQueue, h6, Option.bind_some, exec_nil]
    rfl
  · refine Along.cons ?_ h1 (Along.cons trivial h2 (Along.cons trivial h3 (Along.cons ?_ h4
      (Along.cons trivial h5 ⟨?_, fun _ _ => trivial⟩))))
    · exact rfl
    · exact rfl
    · exact fun _ => rfl

def strandingRun (w : Fin P.workers) (k : Fin P.producers) (small large : Task) : List (Act P) :=
  loading w k small large ++
    (((List.finRange P.workers).filter (· ≠ w)).map fun i => .dequeue i none) ++
      [.copied w, .dequeue w none]

theorem exec_strandingRun (w : Fin P.workers) (k : Fin P.producers) (small large : Task)
    (hs : taskUsesLargePipeline P small = false) (hl : taskUsesLargePipeline P large = true)
    (hmax : 1 ≤ P.config.maxQueuedFiles) (hworkers : 0 < P.workers)
    (hlimit : 0 < P.config.smallWorkerLimit) (hfull : P.workers ≤ P.config.largeWorkerCount) :
    ∃ s : State P, exec step (State.start P) (strandingRun w k small large) = some s ∧
      Along step Orderly (State.start P) (strandingRun w k small large) ∧ s.Final ∧
        s.handed = [small] := by
  obtain ⟨key, seq, hload, horder⟩ := exec_loading w k hs hl hmax hworkers hlimit
  have hnone : ∀ s : State P, s.smallWorkersActive = 1 → ¬s.largeClaimable := by
    intro s hone hc
    have hfits := hc.2.2
    rw [State.slotsUsed, hone] at hfits
    omega
  have hpark := park_all (s := loaded P w small large key seq)
    ((List.finRange P.workers).filter (· ≠ w)) ((List.nodup_finRange _).filter _) (by
      intro i hi
      have hiw : i ≠ w := by simpa using hi
      simp [loaded, State.start, hiw]) (hnone _ rfl) rfl Nat.one_pos
  have hall : (fun i => if i ∈ (List.finRange P.workers).filter (· ≠ w) then Pc.parked
      else (loaded P w small large key seq).pc i) = Function.update (fun _ => .parked) w
        (.copying small) := by
    funext i
    by_cases hiw : i = w
    · subst hiw
      simp [loaded]
    · simp [hiw]
  rw [hall] at hpark
  have hcopied : ∀ n, step { loaded P w small large key seq with
        queueWaiters := n
        pc := Function.update (fun _ => .parked) w (.copying small) } (.copied w) =
      some { loaded P w small large key seq with
        queueWaiters := n
        pc := Function.update (fun _ => .parked) w .ready } := by
    intro n
    simp [step]
  have hlast : ∀ n, step { loaded P w small large key seq with
        queueWaiters := n
        pc := Function.update (fun _ => .parked) w .ready } (.dequeue w none) =
      some { loaded P w small large key seq with
        smallWorkersActive := 0
        smallSlot := fun _ => false
        queueWaiters := n + 1
        pc := fun _ => .parked } := by
    intro n
    refine (dequeue_parks ?_ rfl (hnone _ rfl) rfl ?_).trans ?_
    · simp
    · rintro ⟨-, -, hheap, -⟩
      cases hheap
    · simp [loaded, State.start]
  refine ⟨_, exec_append (exec_append hload hpark) (exec_cons_eq_some.mpr ⟨_, hcopied _,
    exec_cons_eq_some.mpr ⟨_, hlast _, rfl⟩⟩), ?_, ?_, rfl⟩
  · apply Along.append
    · apply Along.append horder
      intro u _
      apply Along.of_forall
      intro a ha v
      obtain ⟨i, -, rfl⟩ := List.mem_map.mp ha
      trivial
    · intro u _
      exact ⟨trivial, fun _ _ => ⟨trivial, fun _ _ => trivial⟩⟩
  · refine ⟨rfl, fun _ => rfl, ?_⟩
    intro a ha
    cases a with
    | dequeue i wake => rfl
    | copied i => rfl
    | started i ok => rfl
    | finishLarge => rfl
    | _ => cases ha

theorem dispatched_of_run (hL : 0 < P.config.largeWorkerCount) (hworkers : 0 < P.workers)
    (hlimit : 0 < P.config.smallWorkerLimit) (hactive : 0 < P.config.maxActiveLargeFiles)
    (hroom : P.remote = true ∨ P.config.largeWorkerCount < P.workers)
    (ha : Along step Orderly (State.start P) as) (hr : exec step (State.start P) as = some s) :
    Dispatched as s := by
  have hk := (Kept.exec hL ha hr).ordered
  exact {
    once := once_of_run ha hr
    complete := complete_of_run hL hworkers hlimit hactive hroom ha hr
    exits := exits_of_run hr
    length := hk.bounded.sound.len
    bound := hk.bounded.bound
    slots := hk.slots.counted
    smallLimit := hk.limits.small
    largeLimit := hk.limits.large
    capacity := hk.limits.capacity }

/-- Where one large file takes all workers, it can be left behind. -/
theorem not_dispatchesAll {env : Config.Env} (hfull : (Config.initRuntimeConfig env).workerCount ≤
    (Config.initRuntimeConfig env).largeWorkerCount) : ¬DispatchesAll env false := by
  intro hall
  have hworkers : 0 < (Pool.ofEnv env false 1).workers :=
    lt_of_lt_of_le Nat.two_pos (Config.workerCount_range env).1
  obtain ⟨s, hr, ha, hfinal, hhanded⟩ := exec_strandingRun (P := Pool.ofEnv env false 1)
    ⟨0, hworkers⟩ ⟨0, Nat.one_pos⟩ ⟨0, 0, 0, false⟩
    ⟨1, (Config.initRuntimeConfig env).largeThreshold + 1, 0, false⟩
    (by simp [taskUsesLargePipeline])
    (by simp [taskUsesLargePipeline, Pool.ofEnv, Config.workersStart])
    (Config.maxQueuedFiles_pos env) hworkers (Config.smallWorkerLimit_pos env) hfull
  have hperm := (hall 1 _ s ha hr).complete hfinal
  have hlist : s.handed = (handovers (State.start _) _).map Prod.snd := handed_exec hr
  rw [← hlist, hhanded] at hperm
  have hlen := hperm.length_eq
  simp [submitted, strandingRun, loading, Act.batch, List.flatMap_map] at hlen

/-- Every file is handed over exactly once and all limits are kept, in every run, if and
only if the target is remote or a large file leaves at least one worker free. -/
theorem dispatchesAll_iff (env : Config.Env) (remote : Bool) :
    DispatchesAll env remote ↔ remote = true ∨
      (Config.initRuntimeConfig env).largeWorkerCount < (Config.initRuntimeConfig env).workerCount := by
  constructor
  · intro hall
    by_contra hno
    obtain ⟨hlocal, hfull⟩ := not_or.mp hno
    rw [Bool.not_eq_true] at hlocal
    subst hlocal
    exact not_dispatchesAll (Nat.not_lt.mp hfull) hall
  · intro hroom producers as s ha hr
    apply dispatched_of_run _ _ _ _ _ ha hr
    · exact Pool.ofEnv_largeWorkerCount_pos env remote producers
    · exact Config.workersStart_workerCount_pos env remote
    · rw [Pool.ofEnv, Config.workersStart_smallWorkerLimit]
      exact Config.smallWorkerLimit_pos env
    · rw [Pool.ofEnv, Config.workersStart_maxActiveLargeFiles]
      exact Config.maxActiveLargeFiles_pos env
    · cases remote with
      | true => exact Or.inl rfl
      | false => exact Or.inr (hroom.resolve_left Bool.false_ne_true)

theorem two_workers_leave_large : ¬DispatchesAll twoWorkers false :=
  not_dispatchesAll (by decide)

end Ecopy.Workers.Scheduler
