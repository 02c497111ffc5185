import Ecopy.Workers.LargeChunks
import Mathlib.Data.List.Perm.Basic

/-!
# Where the buffers are

Every step moves whole batches: from the free list to a reader, to the ready
list, to a writer and back. Counting the occurrences of one buffer over all
these places gives the same number before and after any step, also on the
failure and shutdown paths.

The same count over the ranges of the buffers, without the free list and with
the ranges already written, follows the chunks that the cursor has passed as
long as the file has not failed. A writer that leaves for good finds the ready
list empty, unless it leaves for a shutdown request.
-/
namespace Ecopy.Workers.LargePipeline
open Lib.Runs Lib.Threads

variable {p : Params}

def ReaderPc.batch : ReaderPc → List Buffer
  | .reading batch => batch
  | _ => []

def WriterPc.batch : WriterPc → List Buffer
  | .writing batch => batch
  | _ => []

theorem ReaderPc.Idle.batch_eq {r : ReaderPc} (h : r.Idle) : r.batch = [] := by
  rcases h with rfl | rfl <;> rfl

theorem WriterPc.Idle.batch_eq {w : WriterPc} (h : w.Idle) : w.batch = [] := by
  rcases h with rfl | rfl <;> rfl

section Occurrences
variable {κ : Type*} [BEq κ] (key : Buffer → κ) (x : κ)

/-- How often `x` is the key of a buffer of the list. -/
def occurrences (l : List Buffer) : ℕ := (l.map key).count x

@[simp] theorem occurrences_nil : occurrences key x [] = 0 := rfl

@[simp] theorem occurrences_append (l m : List Buffer) :
    occurrences key x (l ++ m) = occurrences key x l + occurrences key x m := by
  simp [occurrences]

theorem occurrences_take_drop (n : ℕ) (l : List Buffer) :
    occurrences key x (l.take n) + occurrences key x (l.drop n) = occurrences key x l := by
  rw [← occurrences_append, List.take_append_drop]

/-- Occurrences in the batches of the threads of a table. -/
def inReaders (f : Fin p.readers → ReaderPc) : ℕ := total (fun r => occurrences key x r.batch) f
def inWriters (f : Fin p.writers → WriterPc) : ℕ := total (fun w => occurrences key x w.batch) f

theorem inReaders_update (f : Fin p.readers → ReaderPc) (i : Fin p.readers) (r : ReaderPc) :
    inReaders key x (Function.update f i r) + occurrences key x (f i).batch =
      inReaders key x f + occurrences key x r.batch :=
  total_update _ f i r

theorem inWriters_update (f : Fin p.writers → WriterPc) (j : Fin p.writers) (w : WriterPc) :
    inWriters key x (Function.update f j w) + occurrences key x (f j).batch =
      inWriters key x f + occurrences key x w.batch :=
  total_update _ f j w

@[simp] theorem inReaders_broadcast (f : Fin p.readers → ReaderPc) :
    inReaders key x (broadcast .parked .woken f) = inReaders key x f := by
  apply total_broadcast
  rfl

@[simp] theorem inWriters_broadcast (f : Fin p.writers → WriterPc) :
    inWriters key x (broadcast .parked .woken f) = inWriters key x f := by
  apply total_broadcast
  rfl

theorem inReaders_signal {f f' : Fin p.readers → ReaderPc} {w : Option (Fin p.readers)}
    (h : signal .parked .woken f w = some f') : inReaders key x f' = inReaders key x f := by
  apply total_signal _ h
  rfl

theorem inWriters_signal {f f' : Fin p.writers → WriterPc} {w : Option (Fin p.writers)}
    (h : signal .parked .woken f w = some f') : inWriters key x f' = inWriters key x f := by
  apply total_signal _ h
  rfl

/-- Occurrences in the ready list and in the batches. -/
def underway (s : State p) : ℕ :=
  occurrences key x s.ready + inReaders key x s.reader + inWriters key x s.writer

end Occurrences

/-- In how many places the buffer is. -/
def State.places (s : State p) (id : ℕ) : ℕ :=
  occurrences Buffer.id id s.free + underway Buffer.id id s

theorem places_start (p : Params) {id : ℕ} (h : id < p.inflight) :
    (State.start p).places id = 1 := by
  have hfree : occurrences Buffer.id id (State.start p).free = 1 := by
    simp only [occurrences, State.start, List.map_map]
    change ((List.range p.inflight).map fun i => i).count id = 1
    rw [List.map_id']
    exact List.count_eq_one_of_mem List.nodup_range (List.mem_range.mpr h)
  have hreaders : inReaders Buffer.id id (State.start p).reader = 0 :=
    total_eq_zero_iff.mpr fun i => rfl
  have hwriters : inWriters Buffer.id id (State.start p).writer = 0 :=
    total_eq_zero_iff.mpr fun j => rfl
  unfold State.places underway
  rw [hfree, hreaders, hwriters]
  rfl

@[simp] theorem places_markFailed (s : State p) (id : ℕ) :
    (markFailed s).places id = s.places id := by
  simp [State.places, underway, markFailed, broadcastFree, broadcastReady]

@[simp] theorem places_noticeShutdown (s : State p) (id : ℕ) :
    (noticeShutdown s).places id = s.places id := by
  unfold noticeShutdown
  split_ifs
  · exact places_markFailed s id
  · rfl

theorem claimLoop_ids (n : ℕ) (c : Cursor) (free : List Buffer) :
    (claimLoop p n c free).1.map Buffer.id ++ (claimLoop p n c free).2.2.map Buffer.id =
      free.map Buffer.id := by
  induction n generalizing c free with
  | zero => rfl
  | succ n ih =>
    cases free with
    | nil => rfl
    | cons b free =>
      simp only [claimLoop]
      split_ifs
      · rfl
      · rw [List.map_cons, List.cons_append, ih, List.map_cons]

variable {s u : State p} {i : Fin p.readers}

theorem places_readerExit (h : (s.reader i).batch = []) (id : ℕ) :
    (readerExit s i).places id = s.places id := by
  have hmove := inReaders_update Buffer.id id s.reader i .exited
  rw [h] at hmove
  simp only [ReaderPc.batch, occurrences_nil] at hmove
  unfold readerExit
  dsimp only
  split_ifs
  · simp only [State.places, underway, broadcastReady, inWriters_broadcast]
    omega
  · simp only [State.places, underway]
    omega

theorem places_readerBody (h : (s.reader i).batch = []) (id : ℕ) :
    (readerBody s i).places id = s.places id := by
  unfold readerBody
  split_ifs
  · have hmove := inReaders_update Buffer.id id s.reader i .parked
    rw [h] at hmove
    simp only [ReaderPc.batch, occurrences_nil] at hmove
    simp only [State.places, underway]
    omega
  · exact places_readerExit h id
  · have hmove := inReaders_update Buffer.id id s.reader i
      (.reading (claimLoop p (largePipeBatch p.inflight) s.cursor s.free).1)
    rw [h] at hmove
    simp only [ReaderPc.batch, occurrences_nil] at hmove
    have hids := congrArg (List.count id)
      (claimLoop_ids (p := p) (largePipeBatch p.inflight) s.cursor s.free)
    rw [List.count_append] at hids
    simp only [State.places, underway, occurrences] at hmove ⊢
    omega

theorem places_writerBody {j : Fin p.writers} (h : (s.writer j).batch = []) (id : ℕ) :
    (writerBody s j).places id = s.places id := by
  unfold writerBody
  split_ifs
  · have hmove := inWriters_update Buffer.id id s.writer j .parked
    rw [h] at hmove
    simp only [WriterPc.batch, occurrences_nil] at hmove
    simp only [State.places, underway]
    omega
  · have hmove := inWriters_update Buffer.id id s.writer j .exited
    rw [h] at hmove
    simp only [WriterPc.batch, occurrences_nil] at hmove
    simp only [State.places, underway]
    omega
  · have hmove := inWriters_update Buffer.id id s.writer j
      (.writing (s.ready.take (largePipeBatch p.inflight)))
    rw [h] at hmove
    simp only [WriterPc.batch, occurrences_nil] at hmove
    have hsplit := occurrences_take_drop Buffer.id id (largePipeBatch p.inflight) s.ready
    simp only [State.places, underway]
    omega

theorem markFailed_batch (s : State p) (i : Fin p.readers) (j : Fin p.writers) :
    ((markFailed s).reader i).batch = (s.reader i).batch ∧
      ((markFailed s).writer j).batch = (s.writer j).batch := by
  constructor
  · obtain h | ⟨hp, h⟩ := broadcast_apply ReaderPc.parked .woken s.reader i
    · exact congrArg ReaderPc.batch h
    · exact (congrArg ReaderPc.batch h).trans (by rw [hp]; rfl)
  · obtain h | ⟨hp, h⟩ := broadcast_apply WriterPc.parked .woken s.writer j
    · exact congrArg WriterPc.batch h
    · exact (congrArg WriterPc.batch h).trans (by rw [hp]; rfl)

theorem noticeShutdown_batch (s : State p) (i : Fin p.readers) (j : Fin p.writers) :
    ((noticeShutdown s).reader i).batch = (s.reader i).batch ∧
      ((noticeShutdown s).writer j).batch = (s.writer j).batch := by
  unfold noticeShutdown
  split_ifs
  · exact markFailed_batch s i j
  · exact ⟨rfl, rfl⟩

theorem places_readerGiveUp {batch : List Buffer} (h : (s.reader i).batch = batch) (id : ℕ) :
    (readerGiveUp s i batch).places id = s.places id := by
  have hsame : (broadcast .parked .woken s.reader i).batch = batch := by
    rw [← h]
    exact (markFailed_batch s i ⟨0, p.writers_pos⟩).1
  have hmove := inReaders_update Buffer.id id (broadcast .parked .woken s.reader) i .exited
  rw [hsame, inReaders_broadcast] at hmove
  simp only [ReaderPc.batch, occurrences_nil] at hmove
  unfold readerGiveUp broadcastFree
  dsimp only
  split_ifs
  · simp only [State.places, underway, occurrences_append]
    omega
  · simp only [State.places, underway, occurrences_append]
    omega

theorem places_readerDone {ok : Bool} {wake : Option (Fin p.writers)}
    (h : readerDone s i ok wake = some u) (id : ℕ) : u.places id = s.places id := by
  unfold readerDone at h
  split at h
  next batch hread =>
    have hbatch : (s.reader i).batch = batch := by rw [hread]; rfl
    have hgive : ((if ok then s else markFailed s).reader i).batch = batch := by
      split_ifs
      · exact hbatch
      · exact (markFailed_batch s i ⟨0, p.writers_pos⟩).1.trans hbatch
    have hplaces : (if ok then s else markFailed s).places id = s.places id := by
      split_ifs
      · rfl
      · exact places_markFailed s id
    generalize (if ok then s else markFailed s) = t at h hgive hplaces
    dsimp only at h
    have hmove := inReaders_update Buffer.id id t.reader i .top
    rw [hgive] at hmove
    simp only [ReaderPc.batch, occurrences_nil] at hmove
    split_ifs at h
    · cases h
      exact (places_readerGiveUp hgive id).trans hplaces
    · obtain ⟨w, hw, rfl⟩ := Option.map_eq_some_iff.mp h
      have hsignal := inWriters_signal Buffer.id id hw
      rw [← hplaces]
      simp only [State.places, underway, occurrences_append, hsignal]
      omega
    · cases h
      rw [← hplaces]
      simp only [State.places, underway, occurrences_append]
      omega
  next => cases h

theorem places_writerDone {j : Fin p.writers} {failedAt : Option ℕ}
    {wake : Option (Fin p.readers)} (h : writerDone s j failedAt wake = some u) (id : ℕ) :
    u.places id = s.places id := by
  unfold writerDone at h
  split at h
  next batch hwrite =>
    have hbatch : (s.writer j).batch = batch := by rw [hwrite]; rfl
    have hgive : ((if failedAt.isSome then markFailed s else s).writer j).batch = batch := by
      split_ifs
      · exact (markFailed_batch s ⟨0, p.readers_pos⟩ j).2.trans hbatch
      · exact hbatch
    have hplaces : (if failedAt.isSome then markFailed s else s).places id = s.places id := by
      split_ifs
      · exact places_markFailed s id
      · rfl
    have hnone : (if failedAt.isSome then WriterPc.exited else .top).batch = [] := by
      split_ifs <;> rfl
    generalize (if failedAt.isSome then markFailed s else s) = t at h hgive hplaces
    generalize (if failedAt.isSome then WriterPc.exited else .top) = w at h hnone
    dsimp only at h
    have hmove := inWriters_update Buffer.id id t.writer j w
    rw [hgive, hnone, occurrences_nil] at hmove
    split_ifs at h
    · obtain ⟨r, hr, rfl⟩ := Option.map_eq_some_iff.mp h
      have hsignal := inReaders_signal Buffer.id id hr
      rw [← hplaces]
      simp only [State.places, underway, occurrences_append, hsignal]
      omega
    · cases h
      rw [← hplaces]
      simp only [State.places, underway, occurrences_append]
      omega
  next => cases h

/-- No step of any kind loses or copies a buffer. -/
theorem places_step {a : Act p} (h : step s a = some u) (id : ℕ) : u.places id = s.places id := by
  cases a with
  | readerLock i =>
    simp only [step, readerLock] at h
    split at h
    next htop =>
      cases h
      have hbatch : ((noticeShutdown s).reader i).batch = [] :=
        (noticeShutdown_batch s i ⟨0, p.writers_pos⟩).1.trans (by rw [htop]; rfl)
      exact (places_readerBody hbatch id).trans (places_noticeShutdown s id)
    next hwoken =>
      cases h
      have hbatch : (s.reader i).batch = [] := by rw [hwoken]; rfl
      exact places_readerBody (s := { s with freeWaiters := s.freeWaiters - 1 }) hbatch id
    next => cases h
  | readerDone i ok wake => exact places_readerDone h id
  | writerLock j =>
    simp only [step, writerLock] at h
    split at h
    next htop =>
      cases h
      have hbatch : ((noticeShutdown s).writer j).batch = [] :=
        (noticeShutdown_batch s ⟨0, p.readers_pos⟩ j).2.trans (by rw [htop]; rfl)
      exact (places_writerBody hbatch id).trans (places_noticeShutdown s id)
    next hwoken =>
      cases h
      have hbatch : (s.writer j).batch = [] := by rw [hwoken]; rfl
      exact places_writerBody (s := { s with readyWaiters := s.readyWaiters - 1 }) hbatch id
    next => cases h
  | writerInterrupted j =>
    simp only [step, writerInterrupted] at h
    split at h
    next htop =>
      split_ifs at h
      cases h
      have hbatch : (s.writer j).batch = [] := by rw [htop]; rfl
      exact places_writerBody (s := { s with shutdown := true }) hbatch id
    next => cases h
  | writerDone j failedAt wake => exact places_writerDone h id
  | spuriousReader i =>
    simp only [step, Option.ite_none_right_eq_some, Option.some.injEq] at h
    obtain ⟨hparked, rfl⟩ := h
    have hmove := inReaders_update Buffer.id id s.reader i .woken
    rw [hparked] at hmove
    simp only [ReaderPc.batch, occurrences_nil] at hmove
    simp only [State.places, underway]
    omega
  | spuriousWriter j =>
    simp only [step, Option.ite_none_right_eq_some, Option.some.injEq] at h
    obtain ⟨hparked, rfl⟩ := h
    have hmove := inWriters_update Buffer.id id s.writer j .woken
    rw [hparked] at hmove
    simp only [WriterPc.batch, occurrences_nil] at hmove
    simp only [State.places, underway]
    omega
  | requestShutdown =>
    cases h
    rfl
  | fail =>
    cases h
    exact places_markFailed s id

/-- In every run each buffer is in exactly one place. -/
theorem places_of_reachable (h : Reachable step (State.start p) s) {id : ℕ}
    (hid : id < p.inflight) : s.places id = 1 := by
  refine h.invariant (I := fun s => s.places id = 1) (places_start p hid) ?_
  intro s a u hs hu
  exact (places_step hu id).trans hs

theorem chunksFrom_add (n m : ℕ) (c : Cursor) :
    chunksFrom p (n + m) c = chunksFrom p n c ++ chunksFrom p m ((Cursor.next p)^[n] c) := by
  induction n generalizing c with
  | zero => simp [chunksFrom]
  | succ n ih =>
    rw [Nat.succ_add, chunksFrom_succ, ih, chunksFrom_succ, List.cons_append,
      Function.iterate_succ_apply]

/-- The chunks that the cursor has passed are written or underway. -/
structure Claimed (s : State p) (n : ℕ) : Prop where
  cursor : s.cursor = (Cursor.next p)^[n] (Cursor.start p)
  before_end : ∀ k < n, ((Cursor.next p)^[k] (Cursor.start p)).exhausted p = false
  ranges : ∀ r, s.written.count r + underway Buffer.range r s =
    (chunksFrom p n (Cursor.start p)).count r

theorem Claimed.start (p : Params) : Claimed (State.start p) 0 where
  cursor := rfl
  before_end := nofun
  ranges := by
    intro r
    have hreaders : inReaders Buffer.range r (State.start p).reader = 0 :=
      total_eq_zero_iff.mpr fun i => rfl
    have hwriters : inWriters Buffer.range r (State.start p).writer = 0 :=
      total_eq_zero_iff.mpr fun j => rfl
    unfold underway
    rw [hreaders, hwriters]
    rfl

theorem LiveStep.claimed (h : LiveStep s u) {n : ℕ} (hs : Claimed s n) : ∃ m, Claimed u m := by
  obtain ⟨hcursor, hend, hranges⟩ := hs
  cases h with
  | readerPark i idle free left =>
    refine ⟨n, hcursor, hend, fun r => ?_⟩
    have hmove := inReaders_update Buffer.range r s.reader i .parked
    rw [idle.batch_eq] at hmove
    simp only [ReaderPc.batch, occurrences_nil, Nat.add_zero] at hmove
    rw [← hranges r]
    simp only [underway, hmove]
  | readerExit i idle complete others =>
    refine ⟨n, hcursor, hend, fun r => ?_⟩
    have hmove := inReaders_update Buffer.range r s.reader i .exited
    rw [idle.batch_eq] at hmove
    simp only [ReaderPc.batch, occurrences_nil, Nat.add_zero] at hmove
    rw [← hranges r]
    simp only [underway, hmove]
  | lastReaderExit i idle complete last =>
    refine ⟨n, hcursor, hend, fun r => ?_⟩
    have hmove := inReaders_update Buffer.range r s.reader i .exited
    rw [idle.batch_eq] at hmove
    simp only [ReaderPc.batch, occurrences_nil, Nat.add_zero] at hmove
    rw [← hranges r]
    simp only [underway, hmove, inWriters_broadcast]
  | readerClaim i idle batch rest some_claimed few conserved ranges before_end left =>
    refine ⟨n + batch.length, ?_, fun k hk => ?_, fun r => ?_⟩
    · dsimp only
      rw [hcursor, ← Function.iterate_add_apply, Nat.add_comm]
    · by_cases hkn : k < n
      · exact hend k hkn
      · obtain ⟨m, rfl⟩ := Nat.exists_eq_add_of_le' (Nat.le_of_not_lt hkn)
        rw [Function.iterate_add_apply, ← hcursor]
        exact before_end m (by omega)
    · have hmove := inReaders_update Buffer.range r s.reader i (.reading batch)
      rw [idle.batch_eq] at hmove
      have hbatch : occurrences Buffer.range r batch =
          (chunksFrom p batch.length s.cursor).count r := congrArg (List.count r) ranges
      simp only [ReaderPc.batch, occurrences_nil, Nat.add_zero, hbatch] at hmove
      rw [chunksFrom_add, List.count_append, ← hranges r, ← hcursor]
      simp only [underway]
      omega
  | readerDeliver i batch held w woke =>
    refine ⟨n, hcursor, hend, fun r => ?_⟩
    have hmove := inReaders_update Buffer.range r s.reader i .top
    have hwriters : inWriters Buffer.range r w = inWriters Buffer.range r s.writer :=
      woke.total_eq rfl
    rw [held] at hmove
    simp only [ReaderPc.batch, occurrences_nil, Nat.add_zero] at hmove
    rw [← hranges r]
    simp only [underway, occurrences_append, hwriters]
    omega
  | writerPark j idle empty more =>
    refine ⟨n, hcursor, hend, fun r => ?_⟩
    have hmove := inWriters_update Buffer.range r s.writer j .parked
    rw [idle.batch_eq] at hmove
    simp only [WriterPc.batch, occurrences_nil, Nat.add_zero] at hmove
    rw [← hranges r]
    simp only [underway, hmove]
  | writerExit j idle empty done =>
    refine ⟨n, hcursor, hend, fun r => ?_⟩
    have hmove := inWriters_update Buffer.range r s.writer j .exited
    rw [idle.batch_eq] at hmove
    simp only [WriterPc.batch, occurrences_nil, Nat.add_zero] at hmove
    rw [← hranges r]
    simp only [underway, hmove]
  | writerTake j idle nonempty =>
    refine ⟨n, hcursor, hend, fun r => ?_⟩
    have hmove := inWriters_update Buffer.range r s.writer j
      (.writing (s.ready.take (largePipeBatch p.inflight)))
    have hsplit := occurrences_take_drop Buffer.range r (largePipeBatch p.inflight) s.ready
    rw [idle.batch_eq] at hmove
    simp only [WriterPc.batch, occurrences_nil, Nat.add_zero] at hmove
    rw [← hranges r]
    simp only [underway]
    omega
  | writerReturn j batch held r' woke =>
    refine ⟨n, hcursor, hend, fun r => ?_⟩
    have hmove := inWriters_update Buffer.range r s.writer j .top
    have hreaders : inReaders Buffer.range r r' = inReaders Buffer.range r s.reader :=
      woke.total_eq rfl
    rw [held] at hmove
    simp only [WriterPc.batch, occurrences_nil, Nat.add_zero] at hmove
    have hbatch : (batch.map fun b => (b.offset, b.len)).count r =
        occurrences Buffer.range r batch := rfl
    rw [← hranges r]
    simp only [underway, List.count_append, hreaders, hbatch]
    omega
  | spuriousReader i parked =>
    refine ⟨n, hcursor, hend, fun r => ?_⟩
    have hmove := inReaders_update Buffer.range r s.reader i .woken
    rw [parked] at hmove
    simp only [ReaderPc.batch, occurrences_nil, Nat.add_zero] at hmove
    rw [← hranges r]
    simp only [underway, hmove]
  | spuriousWriter j parked =>
    refine ⟨n, hcursor, hend, fun r => ?_⟩
    have hmove := inWriters_update Buffer.range r s.writer j .woken
    rw [parked] at hmove
    simp only [WriterPc.batch, occurrences_nil, Nat.add_zero] at hmove
    rw [← hranges r]
    simp only [underway, hmove]

/-- A writer that left found nothing more to write. -/
def Drained (s : State p) : Prop := ∀ j, s.writer j = .exited → s.ready = []

theorem LiveStep.drained (h : LiveStep s u) (ha : Accounts s) (he : Endgame s) (hs : Drained s) :
    Drained u := by
  cases h with
  | readerDeliver i batch held w woke =>
    -- nobody has left while a reader is active
    intro k hk
    have hone : (s.reader i).active.toNat ≤ count ReaderPc.active s.reader :=
      toNat_le_count ReaderPc.active s.reader i
    rw [held, ReaderPc.active_reading, Bool.toNat_true, ← ha.activeReaders] at hone
    obtain h | ⟨-, h⟩ := woke.apply k
    · have hdone := he.done_iff.mp (he.writer_exited k (h.symm.trans hk))
      omega
    · exact absurd (h.symm.trans hk) nofun
  | lastReaderExit i idle complete last =>
    intro k hk
    obtain h | ⟨-, h⟩ := broadcast_apply WriterPc.parked .woken s.writer k
    · exact hs k (h.symm.trans hk)
    · exact absurd (h.symm.trans hk) nofun
  | writerPark j idle empty more => exact fun _ _ => empty
  | writerExit j idle empty done => exact fun _ _ => empty
  | writerTake j idle nonempty =>
    exact update_eq_imp (fun k hk => absurd (hs k hk) nonempty) nofun
  | writerReturn j batch held r woke =>
    exact update_eq_imp hs nofun
  | spuriousWriter j parked => exact update_eq_imp hs nofun
  | _ => exact hs

/-- The facts about a file that has not failed. -/
structure Sound (s : State p) : Prop where
  accounts : Accounts s
  endgame : Endgame s
  claimed : ∃ n, Claimed s n
  drained : Drained s

theorem Sound.start (p : Params) : Sound (State.start p) :=
  ⟨.start p, .start p, ⟨0, .start p⟩, fun _ h => (nomatch h)⟩

theorem LiveStep.sound (h : LiveStep s u) (hs : Sound s) : Sound u := by
  obtain ⟨n, hn⟩ := hs.claimed
  exact ⟨h.accounts hs.accounts, h.endgame hs.endgame, h.claimed hn,
    h.drained hs.accounts hs.endgame hs.drained⟩

/-- The shutdown request by itself changes none of this. -/
theorem Sound.requestShutdown (h : Sound s) : Sound { s with shutdown := true } := by
  obtain ⟨⟨h₁, h₂, h₃, h₄, h₅⟩, ⟨h₆, h₇, h₈, h₉⟩, ⟨n, h₁₀, h₁₁, h₁₂⟩, h₁₃⟩ := h
  exact ⟨⟨h₁, h₂, h₃, h₄, h₅⟩, ⟨h₆, h₇, h₈, h₉⟩, ⟨n, h₁₀, h₁₁, h₁₂⟩, h₁₃⟩

/-- An unfailed file stays sound, unless a writer leaves data behind. -/
theorem Sound.step {a : Act p} (hs : Sound s) (h : LargePipeline.step s a = some u)
    (hf : u.failed = false) (hleave : ¬LeavesData s a) : Sound u := by
  obtain ⟨-, hstep | rfl | hstep⟩ := step_unfailed h hf hleave
  · exact hstep.sound hs
  · exact hs.requestShutdown
  · exact hstep.sound hs.requestShutdown

/-- As long as no writer leaves data behind, an unfailed file is sound. -/
theorem sound_of_exec {as : List (Act p)}
    (hdata : Along step (fun s a => ¬LeavesData s a) (State.start p) as)
    (hr : exec step (State.start p) as = some s) (hf : s.failed = false) : Sound s := by
  refine hdata.invariant (I := fun s => s.failed = false → Sound s) ?_ (fun _ => .start p) hr hf
  intro s a u hleave hs hu hfu
  exact (hs (step_unfailed hu hfu hleave).1).step hu hfu hleave

/-- Every thread has left. -/
def State.Joined (s : State p) : Prop :=
  (∀ i, s.reader i = .exited) ∧ ∀ j, s.writer j = .exited

instance (s : State p) : Decidable s.Joined := by
  unfold State.Joined
  infer_instance

/-- When all threads of an unfailed file have left, the ranges written are the chunks of the
whole input. -/
theorem Sound.written_perm (hs : Sound s) (hj : s.Joined) :
    ∃ n, (∀ k < n, ((Cursor.next p)^[k] (Cursor.start p)).exhausted p = false) ∧
      ((Cursor.next p)^[n] (Cursor.start p)).exhausted p = true ∧
      s.written.Perm (chunksFrom p n (Cursor.start p)) := by
  obtain ⟨n, hcursor, hend, hranges⟩ := hs.claimed
  obtain ⟨hreaders, hwriters⟩ := hj
  have hover : s.exhausted = true :=
    hs.endgame.reader_exited ⟨0, p.readers_pos⟩ (hreaders _)
  have hready : s.ready = [] := hs.drained ⟨0, p.writers_pos⟩ (hwriters _)
  refine ⟨n, hend, ?_, List.perm_iff_count.mpr fun r => ?_⟩
  · rw [← hcursor]
    exact hover
  · have hr : inReaders Buffer.range r s.reader = 0 :=
      total_eq_zero_iff.mpr fun i => by rw [hreaders i]; rfl
    have hw : inWriters Buffer.range r s.writer = 0 :=
      total_eq_zero_iff.mpr fun j => by rw [hwriters j]; rfl
    rw [← hranges r]
    unfold underway
    rw [hr, hw, hready]
    rfl

end Ecopy.Workers.LargePipeline
