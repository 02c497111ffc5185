import Ecopy.Workers.DirHandleLedger

/-!
# Runs: every reference is released exactly once

Besides the soundness of the ledger three things hold in every reachable state:
the indices of the stashes fit, the slots of large files are counted, and what
`workers_stop` has waited for is over. The last one empties every place that
could hold a reference when it returns.
-/
namespace Ecopy.Workers.DirHandles
open Lib.RefCounts Lib.Runs Lib.Threads

theorem Worker.Fits.mono {b c : Bool} {w : Worker} (h : w.Fits b) (hbc : b = true → c = true) :
    w.Fits c := by
  cases w with
  | dropping stash head k =>
    refine ⟨h.1, h.2.1, fun hc => h.2.2 ?_⟩
    cases b with
    | false => rfl
    | true => rw [hbc rfl] at hc; cases hc
  | _ => exact h

variable {sh sh' : Shared}

theorem claimSmall_fits {w : Worker} (h : claimSmall sh = some (sh', w)) :
    w.Fits sh'.shutdown ∧ sh'.shutdown = sh.shutdown := by
  unfold claimSmall at h
  split at h
  · cases h
  next b rest hq =>
    split at h
    · cases h
    · cases h
      refine ⟨?_, rfl⟩
      change 1 ≤ (b.remaining.take smallClaimBatch).length
      have hlt := b.head_lt
      rw [DirBatch.remaining, List.length_take, List.length_drop, smallClaimBatch]
      omega

theorem workerNext_fits {w w' : Worker} {a : WorkerAct} (hfits : w.Fits sh.shutdown)
    (h : workerNext sh w a = some (sh', w')) :
    w'.Fits sh'.shutdown ∧ sh'.shutdown = sh.shutdown := by
  unfold workerNext at h
  split at h
  next stash head =>
    cases h
    refine ⟨?_, rfl⟩
    unfold dequeueWork
    split_ifs with hlt
    · exact hlt.1
    · refine ⟨Nat.zero_le _, hfits, fun hshut => ?_⟩
      have hge : ¬head < stash.length := fun hhead => hlt ⟨hhead, hshut⟩
      exact Nat.le_antisymm hfits (not_lt.mp hge)
  next stash head =>
    cases h
    exact ⟨hfits, rfl⟩
  next stash head k =>
    split at h
    next hlt =>
      obtain ⟨t, -, heq⟩ := Option.map_eq_some_iff.mp h
      cases heq
      exact ⟨⟨hlt, hfits.2⟩, rfl⟩
    · cases h
  next stash head k =>
    split at h
    · cases h
    next hk =>
      obtain ⟨-, hle, -⟩ := hfits
      unfold lockStash at h
      split_ifs at h
      · cases h
        exact ⟨hle, rfl⟩
      · cases h
        exact ⟨trivial, rfl⟩
  next stash head =>
    obtain ⟨t, ht, heq⟩ := Option.map_eq_some_iff.mp h
    cases heq
    exact ⟨(List.getElem?_eq_some_iff.mp ht).1, rfl⟩
  next stash head =>
    split at h
    · cases h
    · cases h
      exact ⟨trivial, rfl⟩
  next =>
    unfold claimLarge at h
    split at h
    · cases h
    · obtain ⟨top, -, heq⟩ := Option.map_eq_some_iff.mp h
      cases heq
      exact ⟨trivial, rfl⟩
  next => exact claimSmall_fits h
  next =>
    split at h
    · cases h
      exact ⟨trivial, rfl⟩
    · cases h
  -- a start of a large file has no stash, and the way back to the loop an empty one
  all_goals cases h <;> first | exact ⟨trivial, rfl⟩ | exact ⟨Nat.zero_le _, rfl⟩

/-- The worker has claimed a large file and still answers for its slot. -/
def Worker.slots : Worker → ℕ
  | .starting _ => 1
  | .opened _ _ => 1
  | .finishing _ _ => 1
  | .givingSlot _ => 1
  | _ => 0

def Shared.slots (sh : Shared) : ℕ := sh.running.length + sh.ended

theorem workerNext_slots {w w' : Worker} {a : WorkerAct} (hle : w.slots ≤ sh.largeWorkersActive)
    (h : workerNext sh w a = some (sh', w')) :
    sh'.largeWorkersActive + (w.slots + sh.slots) =
      sh.largeWorkersActive + (w'.slots + sh'.slots) := by
  unfold workerNext at h
  split at h
  next stash head =>
    cases h
    unfold dequeueWork
    split_ifs <;> rfl
  next stash head => cases h; rfl
  next stash head k =>
    split at h
    · obtain ⟨t, -, heq⟩ := Option.map_eq_some_iff.mp h
      cases heq
      rfl
    · cases h
  next stash head k =>
    split at h
    · cases h
    · unfold lockStash at h
      split_ifs at h <;> cases h <;> rfl
  next stash head =>
    obtain ⟨t, -, heq⟩ := Option.map_eq_some_iff.mp h
    cases heq
    rfl
  next stash head =>
    split at h
    · cases h
    · cases h
      rfl
  next =>
    unfold claimLarge at h
    split at h
    · cases h
    · obtain ⟨top, -, heq⟩ := Option.map_eq_some_iff.mp h
      cases heq
      change sh.largeWorkersActive + 1 + (0 + sh.slots) = sh.largeWorkersActive + (1 + sh.slots)
      omega
  next =>
    unfold claimSmall at h
    split at h
    · cases h
    · split at h <;> cases h
      rfl
  next =>
    split at h <;> cases h
    rfl
  next t => cases h; rfl
  next t => cases h; rfl
  next t ctx => cases h; rfl
  next t ctx =>
    cases h
    change sh.largeWorkersActive + (1 + (sh.running.length + sh.ended)) =
      sh.largeWorkersActive + (0 + (sh.running.length + 1 + sh.ended))
    omega
  next t ctx => cases h; rfl
  next t ctx => cases h; rfl
  next t =>
    cases h
    change sh.largeWorkersActive - 1 + (1 + sh.slots) = sh.largeWorkersActive + (0 + sh.slots)
    change 1 ≤ sh.largeWorkersActive at hle
    omega
  next t => cases h; rfl
  next t => cases h; rfl
  next => cases h

/-- What the walkers and `workers_stop` leave alone. -/
structure Shared.Beside (sh sh' : Shared) : Prop where
  shutdown : sh'.shutdown = sh.shutdown
  active : sh'.largeWorkersActive = sh.largeWorkersActive
  running : sh'.running = sh.running
  ended : sh'.ended = sh.ended

theorem producerNext_beside {p p' : Producer} {a : ProducerAct}
    (h : producerNext sh p a = some (sh', p')) : sh.Beside sh' := by
  unfold producerNext at h
  split at h
  next =>
    split at h <;> cases h
    exact ⟨rfl, rfl, rfl, rfl⟩
  next =>
    cases h
    exact ⟨rfl, rfl, rfl, rfl⟩
  next =>
    split at h <;> cases h
    exact ⟨rfl, rfl, rfl, rfl⟩
  next own items spares batch reuse large =>
    obtain ⟨got, hgot, heq⟩ := Option.map_eq_some_iff.mp h
    cases heq
    unfold buildNode at hgot
    split at hgot
    · split at hgot <;> cases hgot
      exact ⟨rfl, rfl, rfl, rfl⟩
    · cases hgot
      exact ⟨rfl, rfl, rfl, rfl⟩
  next own items spares batch =>
    cases h
    exact ⟨rfl, rfl, rfl, rfl⟩
  next own items spares batch =>
    cases h
    exact ⟨rfl, rfl, rfl, rfl⟩
  next own spares batch =>
    cases h
    exact ⟨rfl, rfl, rfl, rfl⟩
  next own =>
    cases h
    exact ⟨rfl, rfl, rfl, rfl⟩
  next own t batch room key =>
    split at h <;> cases h
    exact ⟨rfl, rfl, rfl, rfl⟩
  all_goals cases h <;> exact ⟨rfl, rfl, rfl, rfl⟩

theorem mainNext_beside {producers workers : Bool} {m m' : Main} {a : MainAct}
    (h : mainNext sh producers workers m a = some (sh', m')) : sh.Beside sh' := by
  unfold mainNext at h
  split at h
  · split at h <;> cases h
    exact ⟨rfl, rfl, rfl, rfl⟩
  · split at h <;> cases h
    exact ⟨rfl, rfl, rfl, rfl⟩
  · split at h <;> cases h
    exact ⟨rfl, rfl, rfl, rfl⟩
  next t batch =>
    cases h
    exact ⟨rfl, rfl, rfl, rfl⟩
  next =>
    split at h <;> cases h <;> exact ⟨rfl, rfl, rfl, rfl⟩
  all_goals cases h <;> exact ⟨rfl, rfl, rfl, rfl⟩

def Main.rank : Main → ℕ
  | .running => 0
  | .joining => 1
  | .waiting => 2
  | .freeing _ => 3
  | .freeingHeap _ => 4
  | .finished => 5

section Program
variable {ι κ : Type*} [Fintype ι] [Fintype κ]

/-- `n` is the rank of the main thread. -/
structure Phase (n : ℕ) (s : State ι κ) : Prop where
  producers : 1 ≤ n → ∀ k, s.producer k = .exited
  workers : 2 ≤ n → ∀ i, s.worker i = .exited
  finalizers : 3 ≤ n → s.shared.running = [] ∧ s.shared.ended = 0
  queues : 4 ≤ n → s.shared.smallQ = [] ∧ s.shared.largeHeap = []

structure Invariant (s : State ι κ) : Prop where
  fits : ∀ i, (s.worker i).Fits s.shared.shutdown
  slots : s.shared.largeWorkersActive = ∑ i, (s.worker i).slots + s.shared.slots
  phase : Phase s.main.rank s
  sound : Sound s.view

theorem Invariant.start : Invariant (State.start : State ι κ) where
  fits := fun _ => Nat.zero_le _
  slots := by simp [State.start, Shared.start, Worker.slots, Shared.slots]
  phase := by
    change Phase 0 _
    exact ⟨fun hr => absurd hr (by decide), fun hr => absurd hr (by decide),
      fun hr => absurd hr (by decide), fun hr => absurd hr (by decide)⟩
  sound := by
    have hlive : (State.start : State ι κ).view.live = 0 := by
      simp [State.start, State.view, Shared.view, State.live, Shared.start, Shared.live, Worker.live,
        Producer.live, Main.live]
    have hspent : (State.start : State ι κ).view.spent = 0 := by
      simp [State.start, State.view, Shared.view, State.spent, Shared.start, Worker.spent,
        Producer.spent]
    have hrefs : (State.start : State ι κ).view.refs = 0 := by
      simp [State.start, State.view, Shared.view, State.refs, Shared.start, Worker.refs,
        Producer.refs]
    refine ⟨?_, ?_, ?_⟩
    · rw [hlive, hspent]
      exact Multiset.nodup_zero
    · rw [hlive, hspent]
      exact fun t ht => absurd ht (Multiset.notMem_zero t)
    · rw [View.held, hlive, hrefs]
      exact .start

variable {s s' : State ι κ}

/-- When `workers_stop` has returned nobody holds a reference. -/
theorem Phase.held_eq_zero (hs : Phase s.main.rank s) (h : s.main = .finished) : s.held = 0 := by
  rw [h] at hs
  change Phase 5 s at hs
  obtain ⟨hrunning, -⟩ := hs.finalizers (by decide)
  obtain ⟨hsmall, hlarge⟩ := hs.queues (by decide)
  have hlive : s.view.live = 0 := by
    simp [State.view, Shared.view, State.live, Shared.live, hsmall, hlarge,
      hs.workers (by decide), hs.producers (by decide), h, Worker.live, Producer.live, Main.live]
  have hrefs : s.view.refs = 0 := by
    simp [State.view, Shared.view, State.refs, hrunning, hs.workers (by decide),
      hs.producers (by decide), Worker.refs, Producer.refs]
  rw [State.held, View.held, hlive, hrefs]
  rfl

theorem mainNext_phase {sh : Shared} {m : Main} {a : MainAct} (hs : Phase s.main.rank s)
    (hslots : s.shared.largeWorkersActive = ∑ i, (s.worker i).slots + s.shared.slots)
    (h : mainNext s.shared (∀ k, s.producer k = .exited) (∀ i, s.worker i = .exited) s.main a =
      some (sh, m)) : Phase m.rank { s with shared := sh, main := m } := by
  unfold mainNext at h
  split at h
  next hm =>
    split at h
    next hall =>
      cases h
      change Phase 1 _
      exact ⟨fun _ => of_decide_eq_true hall, fun hr => absurd hr (by decide),
        fun hr => absurd hr (by decide), fun hr => absurd hr (by decide)⟩
    · cases h
  next hm =>
    rw [hm] at hs
    split at h
    next hall =>
      cases h
      change Phase 2 _
      exact ⟨fun _ => hs.producers le_rfl, fun _ => of_decide_eq_true hall,
        fun hr => absurd hr (by decide), fun hr => absurd hr (by decide)⟩
    · cases h
  next hm =>
    rw [hm] at hs
    split at h
    · cases h
    next hzero =>
      cases h
      change Phase 3 _
      refine ⟨fun _ => hs.producers (by decide), fun _ => hs.workers le_rfl, fun _ => ?_,
        fun hr => absurd hr (by decide)⟩
      have hnone : s.shared.slots = 0 := by omega
      obtain ⟨hlen, hended⟩ := Nat.add_eq_zero_iff.mp hnone
      exact ⟨List.length_eq_zero_iff.mp hlen, hended⟩
  next t batch hm =>
    rw [hm] at hs
    cases h
    exact ⟨hs.producers, hs.workers, hs.finalizers, hs.queues⟩
  next hm =>
    rw [hm] at hs
    change Phase 3 s at hs
    split at h
    next b rest hq =>
      cases h
      change Phase 3 _
      exact ⟨hs.producers, hs.workers, hs.finalizers, fun hr => absurd hr (by decide)⟩
    next hq =>
      cases h
      change Phase 4 _
      exact ⟨fun _ => hs.producers (by decide), fun _ => hs.workers (by decide),
        fun _ => hs.finalizers le_rfl, fun _ => ⟨hq, rfl⟩⟩
  next t items hm =>
    rw [hm] at hs
    cases h
    exact ⟨hs.producers, hs.workers, hs.finalizers, hs.queues⟩
  next hm =>
    rw [hm] at hs
    change Phase 4 s at hs
    cases h
    change Phase 5 _
    exact ⟨fun _ => hs.producers (by decide), fun _ => hs.workers (by decide),
      fun _ => hs.finalizers (by decide), fun _ => hs.queues le_rfl⟩
  next => cases h

variable [DecidableEq ι] [DecidableEq κ]

theorem next_fits {a : Act ι κ} (hs : ∀ i, (s.worker i).Fits s.shared.shutdown)
    (h : next s a = some s') (j : ι) : (s'.worker j).Fits s'.shared.shutdown := by
  obtain ⟨i, b, sh, w, hw, rfl⟩ | ⟨k, b, sh, p, hp, rfl⟩ | ⟨b, sh, m, hm, rfl⟩ | ⟨sh, hsh, rfl⟩ :=
    next_cases h
  · obtain ⟨hfits, hshut⟩ := workerNext_fits (hs i) hw
    dsimp only
    obtain rfl | hne := eq_or_ne j i
    · rw [Function.update_self]
      exact hfits
    · rw [Function.update_of_ne hne, hshut]
      exact hs j
  · rw [show (State.shared _).shutdown = s.shared.shutdown from (producerNext_beside hp).shutdown]
    exact hs j
  · rw [show (State.shared _).shutdown = s.shared.shutdown from (mainNext_beside hm).shutdown]
    exact hs j
  · refine (hs j).mono fun hshut => ?_
    unfold sharedNext at hsh
    split at hsh
    · split at hsh <;> cases hsh
      exact hshut
    · split at hsh <;> cases hsh
      exact hshut
    · cases hsh
      rfl
    · cases hsh
      exact hshut
    · cases hsh

theorem next_slots {a : Act ι κ}
    (hs : s.shared.largeWorkersActive = ∑ i, (s.worker i).slots + s.shared.slots)
    (h : next s a = some s') :
    s'.shared.largeWorkersActive = ∑ i, (s'.worker i).slots + s'.shared.slots := by
  obtain ⟨i, b, sh, w, hw, rfl⟩ | ⟨k, b, sh, p, hp, rfl⟩ | ⟨b, sh, m, hm, rfl⟩ | ⟨sh, hsh, rfl⟩ :=
    next_cases h
  · obtain ⟨rest, hsum, hsum'⟩ := exists_rest Worker.slots s.worker i
    have hstep := workerNext_slots (by omega) hw
    dsimp only
    rw [hsum']
    omega
  · obtain ⟨-, hactive, hrunning, hended⟩ := producerNext_beside hp
    dsimp only [Shared.slots] at hs ⊢
    rw [hactive, hrunning, hended, hs]
  · obtain ⟨-, hactive, hrunning, hended⟩ := mainNext_beside hm
    dsimp only [Shared.slots] at hs ⊢
    rw [hactive, hrunning, hended, hs]
  · unfold sharedNext at hsh
    split at hsh
    next ctx =>
      split at hsh
      next hmem =>
        cases hsh
        have hlen := List.length_erase_of_mem hmem
        have hpos := List.length_pos_of_mem hmem
        dsimp only [Shared.slots, Shared.release] at hs ⊢
        omega
      · cases hsh
    · split at hsh
      · cases hsh
        dsimp only [Shared.slots] at hs ⊢
        omega
      · cases hsh
    · cases hsh
      exact hs
    · cases hsh
      exact hs
    · cases hsh

theorem workerNext_exited (sh : Shared) (a : WorkerAct) : workerNext sh .exited a = none := by
  cases a <;> rfl

theorem producerNext_exited (sh : Shared) (a : ProducerAct) : producerNext sh .exited a = none := by
  cases a <;> rfl

theorem next_phase {a : Act ι κ} (hs : Phase s.main.rank s)
    (hslots : s.shared.largeWorkersActive = ∑ i, (s.worker i).slots + s.shared.slots)
    (h : next s a = some s') : Phase s'.main.rank s' := by
  obtain ⟨i, b, sh, w, hw, rfl⟩ | ⟨k, b, sh, p, hp, rfl⟩ | ⟨b, sh, m, hm, rfl⟩ | ⟨sh, hsh, rfl⟩ :=
    next_cases h
  · have hrank : ¬2 ≤ s.main.rank := by
      intro hr
      rw [hs.workers hr i, workerNext_exited] at hw
      cases hw
    exact ⟨hs.producers, fun hr => absurd hr hrank, fun hr => absurd (le_trans (by decide) hr) hrank,
      fun hr => absurd (le_trans (by decide) hr) hrank⟩
  · have hrank : ¬1 ≤ s.main.rank := by
      intro hr
      rw [hs.producers hr k, producerNext_exited] at hp
      cases hp
    exact ⟨fun hr => absurd hr hrank, fun hr => absurd (le_trans (by decide) hr) hrank,
      fun hr => absurd (le_trans (by decide) hr) hrank,
      fun hr => absurd (le_trans (by decide) hr) hrank⟩
  · exact mainNext_phase hs hslots hm
  · refine ⟨hs.producers, hs.workers, fun hr => ?_, fun hr => ?_⟩
    · obtain ⟨hrunning, hended⟩ := hs.finalizers hr
      unfold sharedNext at hsh
      split at hsh
      · rw [hrunning] at hsh
        cases hsh
      · rw [hended] at hsh
        cases hsh
      · cases hsh
        exact ⟨hrunning, hended⟩
      · cases hsh
        exact ⟨hrunning, hended⟩
      · cases hsh
    · have hqueues := hs.queues hr
      unfold sharedNext at hsh
      split at hsh
      · split at hsh <;> cases hsh
        exact hqueues
      · split at hsh <;> cases hsh
        exact hqueues
      · cases hsh
        exact hqueues
      · cases hsh
        exact hqueues
      · cases hsh

theorem Invariant.next {a : Act ι κ} (hs : Invariant s) (h : next s a = some s') :
    Invariant s' where
  fits := next_fits hs.fits h
  slots := next_slots hs.slots h
  phase := next_phase hs.phase hs.slots h
  sound := hs.sound.moves (next_moves hs.fits h)

theorem Invariant.of_reachable (h : Reachable DirHandles.next (State.start : State ι κ) s) :
    Invariant s :=
  h.invariant .start fun _ _ _ hs hnext => hs.next hnext

/-- In every state of every run: each reference was taken once, and is either held or was dropped
once; the count of a handle is the number of its holders; while there is one, its descriptors stand
for its directory and were not closed; after the last one each was closed once. When `workers_stop`
has returned every reference was dropped. -/
theorem dir_handles_released_once {s : State ι κ}
    (h : Reachable DirHandles.next (State.start : State ι κ) s) :
    s.shared.ledger.taken.Nodup ∧
      (s.shared.ledger.taken : Multiset Ref) = s.held + s.shared.ledger.dropped ∧
      (∀ (d : ℕ) dir, s.shared.ledger.handles[d]? = some dir →
        dir.refs = s.held.countP fun r => r.dir = d) ∧
      (∀ r ∈ s.held, ∃ dir, s.shared.ledger.handles[r.dir]? = some dir ∧ dir.closed = [] ∧
        ∀ fd ∈ dir.descriptors, s.shared.ledger.fds fd = some r.dir) ∧
      (∀ (d : ℕ) dir, s.shared.ledger.handles[d]? = some dir → (∀ r ∈ s.held, r.dir ≠ d) →
        dir.closed = dir.descriptors ∧ ∀ fd, s.shared.ledger.fds fd ≠ some d) ∧
      (s.main = .finished → s.held = 0 ∧
        s.shared.ledger.dropped.Perm s.shared.ledger.taken) := by
  have hs := Invariant.of_reachable h
  have hledger : s.shared.ledger.Sound s.held := hs.sound.ledger
  refine ⟨hledger.taken_nodup, hledger.account, hledger.balanced.refs, fun r hr => ?_,
    fun d dir hdir hnone => ?_, fun hfinished => ?_⟩
  · obtain ⟨dir, hdir, hpos, hopen⟩ := hledger.balanced.exists_of_mem hr
    exact ⟨dir, hdir, hopen, fun fd hfd => (hledger.fds fd r.dir).mpr ⟨dir, hdir, hpos, hfd⟩⟩
  · obtain ⟨hzero, hclosed⟩ := hledger.balanced.closed_of_forall_ne hdir hnone
    refine ⟨hclosed, fun fd hfd => ?_⟩
    obtain ⟨dir', hdir', hpos, -⟩ := (hledger.fds fd d).mp hfd
    rw [hdir] at hdir'
    cases hdir'
    exact absurd hpos (by rw [show dir.refs = 0 from hzero]; exact lt_irrefl 0)
  · have hheld := hs.phase.held_eq_zero hfinished
    refine ⟨hheld, Multiset.coe_eq_coe.mp ?_⟩
    rw [hledger.account, hheld, zero_add]

end Program

/-- A small and a large file of one directory; the finalizer of the large one is the last holder. -/
def oneDirectory : List (Act (Fin 1) (Fin 1)) :=
  [.producer 0 (.create 3 4), .producer 0 (.enqueue 2), .producer 0 (.build false false),
    .producer 0 (.build false true), .producer 0 .giveBack, .producer 0 (.slice 2 id),
    .producer 0 .giveBack, .producer 0 .close, .producer 0 .leave, .worker 0 .dequeue,
    .worker 0 .lock, .worker 0 .claimLarge, .worker 0 .retain, .worker 0 .spawn, .worker 0 .drop,
    .worker 0 .recycle, .worker 0 .dequeue, .worker 0 .lock, .worker 0 .claimSmall,
    .worker 0 .copied, .worker 0 .dequeue, .worker 0 .drop, .worker 0 .lock,
    .finalize ⟨3, .largeFile, 0⟩, .unregister, .main .stop, .worker 0 .leave, .main .join,
    .main .wait, .main .next, .main .next]

theorem dir_handles_released_once_oneDirectory :
    ∃ s, exec next State.start oneDirectory = some s ∧
      s.shared.ledger.handles = [⟨3, 4, 0, [3, 4]⟩] ∧ s.held = 0 ∧
      s.shared.ledger.dropped.Perm s.shared.ledger.taken ∧ s.shared.ledger.taken.length = 4 := by
  have hr : exec next State.start oneDirectory =
      some ((exec next State.start oneDirectory).getD State.start) := rfl
  have hfinished : ((exec next State.start oneDirectory).getD State.start).main = .finished := rfl
  obtain ⟨-, -, -, -, -, hreleased⟩ := dir_handles_released_once ⟨oneDirectory, hr⟩
  exact ⟨_, hr, rfl, (hreleased hfinished).1, (hreleased hfinished).2, rfl⟩

end Ecopy.Workers.DirHandles
