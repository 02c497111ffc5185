import Ecopy.Workers.LargePipeline
import Mathlib.Logic.Function.Iterate

/-!
# Progress of the large-file pipeline

While a file is neither failed nor shut down, a transition of the pipeline is
one of ten moves; `LiveStep` lists them and every invariant below is proved
against that list.

A writer that returns a batch wakes one reader, and a reader that finds the
input exhausted leaves without waking anybody. The parked readers therefore
depend on the returns still to come. There are at least as many of these as
full batches fit into the buffers outside the free list, plus one while chunks
are left, and `Wakes` says that the parked readers never outnumber them. A
reader parks only when the whole pool is out and a chunk is left, so the
invariant starts to hold as soon as the pool has enough batches for all
readers but one, or enough buffers for every chunk of the file.
-/
namespace Ecopy.Workers.LargePipeline
open Lib.Runs Lib.Threads

variable {p : Params}

def ReaderPc.held : ReaderPc → ℕ
  | .reading batch => batch.length
  | _ => 0

def WriterPc.held : WriterPc → ℕ
  | .writing batch => batch.length
  | _ => 0

def ReaderPc.waiting (r : ReaderPc) : Bool := r = .parked || r = .woken

def WriterPc.waiting (w : WriterPc) : Bool := w = .parked || w = .woken

def ReaderPc.active (r : ReaderPc) : Bool := r ≠ .exited

@[simp] theorem ReaderPc.waiting_top : ReaderPc.top.waiting = false := rfl
@[simp] theorem ReaderPc.waiting_parked : ReaderPc.parked.waiting = true := rfl
@[simp] theorem ReaderPc.waiting_woken : ReaderPc.woken.waiting = true := rfl
@[simp] theorem ReaderPc.waiting_exited : ReaderPc.exited.waiting = false := rfl
@[simp] theorem ReaderPc.waiting_reading (b : List Buffer) :
    (ReaderPc.reading b).waiting = false := rfl
@[simp] theorem WriterPc.waiting_top : WriterPc.top.waiting = false := rfl
@[simp] theorem WriterPc.waiting_parked : WriterPc.parked.waiting = true := rfl
@[simp] theorem WriterPc.waiting_woken : WriterPc.woken.waiting = true := rfl
@[simp] theorem WriterPc.waiting_exited : WriterPc.exited.waiting = false := rfl
@[simp] theorem WriterPc.waiting_writing (b : List Buffer) :
    (WriterPc.writing b).waiting = false := rfl
@[simp] theorem ReaderPc.active_top : ReaderPc.top.active = true := rfl
@[simp] theorem ReaderPc.active_parked : ReaderPc.parked.active = true := rfl
@[simp] theorem ReaderPc.active_woken : ReaderPc.woken.active = true := rfl
@[simp] theorem ReaderPc.active_exited : ReaderPc.exited.active = false := rfl
@[simp] theorem ReaderPc.active_reading (b : List Buffer) :
    (ReaderPc.reading b).active = true := by
  simp [ReaderPc.active]

/-- Threads about to evaluate their wait condition under the lock. -/
def ReaderPc.Idle (r : ReaderPc) : Prop := r = .top ∨ r = .woken
def WriterPc.Idle (w : WriterPc) : Prop := w = .top ∨ w = .woken

/-- One move of the cursor, which stays put at the end of input. -/
def Cursor.next (p : Params) (c : Cursor) : Cursor :=
  if c.exhausted p then c else c.advance p

/-- The part of the file that a buffer is for. -/
def Buffer.range (b : Buffer) : ℤ × ℤ := (b.offset, b.len)

/-- The range of the next chunk. -/
def Cursor.chunk (p : Params) (c : Cursor) : ℤ × ℤ := (c.nextReadOffset, chunkLen p c)

/-- The ranges of `n` chunks from a cursor on. -/
def chunksFrom (p : Params) (n : ℕ) (c : Cursor) : List (ℤ × ℤ) :=
  (List.range n).map fun k => ((Cursor.next p)^[k] c).chunk p

/-- The transitions between live states. -/
inductive LiveStep (s : State p) : State p → Prop
  | readerPark (i : Fin p.readers) (idle : (s.reader i).Idle) (free : s.free = [])
      (left : s.exhausted = false) :
      LiveStep s { s with
        freeWaiters := s.freeWaiters - (s.reader i).waiting.toNat + 1
        reader := Function.update s.reader i .parked }
  | readerExit (i : Fin p.readers) (idle : (s.reader i).Idle) (complete : s.exhausted = true)
      (others : s.activeReaders - 1 ≠ 0) :
      LiveStep s { s with
        freeWaiters := s.freeWaiters - (s.reader i).waiting.toNat
        activeReaders := s.activeReaders - 1
        reader := Function.update s.reader i .exited }
  | lastReaderExit (i : Fin p.readers) (idle : (s.reader i).Idle) (complete : s.exhausted = true)
      (last : s.activeReaders - 1 = 0) :
      LiveStep s { s with
        freeWaiters := s.freeWaiters - (s.reader i).waiting.toNat
        activeReaders := s.activeReaders - 1
        readDone := true
        reader := Function.update s.reader i .exited
        writer := broadcast .parked .woken s.writer }
  | readerClaim (i : Fin p.readers) (idle : (s.reader i).Idle) (batch rest : List Buffer)
      (some_claimed : batch ≠ [])
      (few : batch.length ≤ largePipeBatch p.inflight)
      (conserved : batch.length + rest.length = s.free.length)
      (ranges : batch.map Buffer.range = chunksFrom p batch.length s.cursor)
      (before_end : ∀ k < batch.length, ((Cursor.next p)^[k] s.cursor).exhausted p = false)
      (left : s.exhausted = false) :
      LiveStep s { s with
        freeWaiters := s.freeWaiters - (s.reader i).waiting.toNat
        cursor := (Cursor.next p)^[batch.length] s.cursor
        free := rest
        reader := Function.update s.reader i (.reading batch) }
  | readerDeliver (i : Fin p.readers) (batch : List Buffer) (held : s.reader i = .reading batch)
      (w : Fin p.writers → WriterPc) (woke : Signalled .parked .woken s.readyWaiters s.writer w) :
      LiveStep s { s with
        ready := s.ready ++ batch
        reader := Function.update s.reader i .top
        writer := w }
  | writerPark (j : Fin p.writers) (idle : (s.writer j).Idle) (empty : s.ready = [])
      (more : s.readDone = false) :
      LiveStep s { s with
        readyWaiters := s.readyWaiters - (s.writer j).waiting.toNat + 1
        writer := Function.update s.writer j .parked }
  | writerExit (j : Fin p.writers) (idle : (s.writer j).Idle) (empty : s.ready = [])
      (done : s.readDone = true) :
      LiveStep s { s with
        readyWaiters := s.readyWaiters - (s.writer j).waiting.toNat
        activeWriters := s.activeWriters - 1
        writer := Function.update s.writer j .exited }
  | writerTake (j : Fin p.writers) (idle : (s.writer j).Idle) (nonempty : s.ready ≠ []) :
      LiveStep s { s with
        readyWaiters := s.readyWaiters - (s.writer j).waiting.toNat
        ready := s.ready.drop (largePipeBatch p.inflight)
        writer := Function.update s.writer j
          (.writing (s.ready.take (largePipeBatch p.inflight))) }
  | writerReturn (j : Fin p.writers) (batch : List Buffer) (held : s.writer j = .writing batch)
      (r : Fin p.readers → ReaderPc) (woke : Signalled .parked .woken s.freeWaiters s.reader r) :
      LiveStep s { s with
        free := s.free ++ batch
        written := s.written ++ batch.map fun b => (b.offset, b.len)
        writer := Function.update s.writer j .top
        reader := r }
  | spuriousReader (i : Fin p.readers) (parked : s.reader i = .parked) :
      LiveStep s { s with reader := Function.update s.reader i .woken }
  | spuriousWriter (j : Fin p.writers) (parked : s.writer j = .parked) :
      LiveStep s { s with writer := Function.update s.writer j .woken }

theorem claimLoop_conserves (n : ℕ) (c : Cursor) (free : List Buffer) :
    (claimLoop p n c free).1.length + (claimLoop p n c free).2.2.length = free.length := by
  induction n generalizing c free with
  | zero => simp [claimLoop]
  | succ n ih =>
    cases free with
    | nil => simp [claimLoop]
    | cons b free =>
      simp only [claimLoop]
      split_ifs with h
      · simp
      · have hr := ih (c.advance p) free
        simp only [List.length_cons]
        omega

theorem claimLoop_le (n : ℕ) (c : Cursor) (free : List Buffer) :
    (claimLoop p n c free).1.length ≤ n := by
  induction n generalizing c free with
  | zero => simp [claimLoop]
  | succ n ih =>
    cases free with
    | nil => simp [claimLoop]
    | cons b free =>
      simp only [claimLoop]
      split_ifs with h
      · simp
      · have hr := ih (c.advance p) free
        simpa using hr

theorem claimLoop_cursor (n : ℕ) (c : Cursor) (free : List Buffer) :
    (claimLoop p n c free).2.1 = (Cursor.next p)^[(claimLoop p n c free).1.length] c := by
  induction n generalizing c free with
  | zero => rfl
  | succ n ih =>
    cases free with
    | nil => rfl
    | cons b free =>
      simp only [claimLoop]
      split_ifs with h
      · rfl
      · have hnext : Cursor.next p c = c.advance p := if_neg h
        simp only [List.length_cons, Function.iterate_succ_apply, hnext]
        exact ih (c.advance p) free

theorem chunksFrom_succ (n : ℕ) (c : Cursor) :
    chunksFrom p (n + 1) c = c.chunk p :: chunksFrom p n (Cursor.next p c) := by
  simp only [chunksFrom, List.range_succ_eq_map, List.map_cons, List.map_map]
  rfl

theorem claimLoop_ranges (n : ℕ) (c : Cursor) (free : List Buffer) :
    (claimLoop p n c free).1.map Buffer.range =
      chunksFrom p (claimLoop p n c free).1.length c ∧
    ∀ k < (claimLoop p n c free).1.length, ((Cursor.next p)^[k] c).exhausted p = false := by
  induction n generalizing c free with
  | zero => exact ⟨rfl, nofun⟩
  | succ n ih =>
    cases free with
    | nil => exact ⟨rfl, nofun⟩
    | cons b free =>
      simp only [claimLoop]
      split_ifs with h
      · exact ⟨rfl, nofun⟩
      · have hnext : Cursor.next p c = c.advance p := if_neg h
        obtain ⟨hranges, hend⟩ := ih (c.advance p) free
        rw [List.map_cons, List.length_cons, chunksFrom_succ, hnext]
        refine ⟨congrArg _ hranges, fun k hk => ?_⟩
        cases k with
        | zero => simpa using h
        | succ k =>
          rw [Function.iterate_succ_apply, hnext]
          exact hend k (Nat.lt_of_succ_lt_succ hk)

theorem claimLoop_ne_nil {n : ℕ} (hn : 0 < n) {c : Cursor} (hc : c.exhausted p = false)
    {free : List Buffer} (hf : free ≠ []) : (claimLoop p n c free).1 ≠ [] := by
  obtain ⟨m, rfl⟩ := Nat.exists_eq_succ_of_ne_zero hn.ne'
  obtain ⟨b, rest, rfl⟩ := List.exists_cons_of_ne_nil hf
  simp [claimLoop, hc]

variable {s u : State p} {i : Fin p.readers}

theorem readerBody_live (hf : s.failed = false) (idle : (s.reader i).Idle) :
    LiveStep s
      (readerBody { s with freeWaiters := s.freeWaiters - (s.reader i).waiting.toNat } i) := by
  unfold readerBody
  split_ifs with hpark hexit
  · have hfree : s.free = [] ∧ s.exhausted = false := by
      simpa [hf, State.exhausted] using hpark
    exact .readerPark i idle hfree.1 hfree.2
  · have hex : s.exhausted = true := by simpa [hf, State.exhausted] using hexit
    unfold readerExit
    dsimp only
    split_ifs with hlast
    · exact .lastReaderExit i idle hex hlast
    · exact .readerExit i idle hex hlast
  · have hex : s.exhausted = false := by simpa [hf, State.exhausted] using hexit
    have hfree : s.free ≠ [] := by
      have hex' : s.cursor.exhausted p = false := hex
      simpa [hf, State.exhausted, hex'] using hpark
    dsimp only
    rw [claimLoop_cursor]
    obtain ⟨hranges, hend⟩ := claimLoop_ranges (largePipeBatch p.inflight) s.cursor s.free
    exact .readerClaim i idle _ _ (claimLoop_ne_nil (largePipeBatch_pos _) hex hfree)
      (claimLoop_le _ _ _) (claimLoop_conserves _ _ _) hranges hend hex

/-- A writer leaves data behind when it notices the shutdown after the wait loop. -/
def LeavesData (s : State p) : Act p → Prop
  | .writerLock j =>
    s.writer j = .woken ∧ s.shutdown = true ∧ s.failed = false ∧ s.ready ≠ []
  | .writerInterrupted _ => s.failed = false ∧ s.ready ≠ []
  | _ => False

instance (s : State p) (a : Act p) : Decidable (LeavesData s a) := by
  cases a <;> unfold LeavesData <;> infer_instance

variable {j : Fin p.writers} {r : ReaderPc}

theorem writerBody_live (hf : s.failed = false) (hs : s.shutdown = true → s.ready = [])
    (idle : (s.writer j).Idle) :
    LiveStep s
      (writerBody { s with readyWaiters := s.readyWaiters - (s.writer j).waiting.toNat } j) := by
  unfold writerBody
  split_ifs with hpark hexit
  · have hready : s.ready = [] ∧ s.readDone = false := by simpa [hf] using hpark
    exact .writerPark j idle hready.1 hready.2
  · have hready : s.ready = [] := by
      by_contra hne
      simp only [hf, Bool.false_and, Bool.or_false, Bool.or_eq_true, Bool.and_eq_true,
        List.isEmpty_iff, hne, false_and, or_false] at hexit
      exact hne (hs hexit)
    have hdone : s.readDone = true := by simpa [hf, hready] using hpark
    exact .writerExit j idle hready hdone
  · have hready : s.ready ≠ [] := by
      intro hnil
      have hdone : s.readDone = true := by simpa [hf, hnil] using hpark
      simp [hnil, hdone] at hexit
    exact .writerTake j idle hready

@[simp] theorem readerBody_failed (s : State p) (i : Fin p.readers) :
    (readerBody s i).failed = s.failed := by
  unfold readerBody readerExit
  dsimp only
  split_ifs <;> rfl

@[simp] theorem writerBody_failed (s : State p) (j : Fin p.writers) :
    (writerBody s j).failed = s.failed := by
  unfold writerBody
  split_ifs <;> rfl

@[simp] theorem writerBody_shutdown (s : State p) (j : Fin p.writers) :
    (writerBody s j).shutdown = s.shutdown := by
  unfold writerBody
  split_ifs <;> rfl

theorem noticeShutdown_of_unfailed (h : (noticeShutdown s).failed = false) :
    noticeShutdown s = s ∧ s.shutdown = false ∧ s.failed = false := by
  unfold noticeShutdown at h ⊢
  split_ifs at h ⊢ with hs
  · cases h
  · refine ⟨rfl, ?_, h⟩
    simpa [h] using hs

theorem readerLock_live (h : readerLock s i = some u) (hf : u.failed = false) :
    s.failed = false ∧ LiveStep s u := by
  unfold readerLock at h
  split at h
  next htop =>
      cases h
      rw [readerBody_failed] at hf
      obtain ⟨hsame, -, hfs⟩ := noticeShutdown_of_unfailed hf
      have hstep := readerBody_live hfs (Or.inl htop)
      simp only [htop, ReaderPc.waiting_top, Bool.toNat_false, Nat.sub_zero] at hstep
      rw [hsame]
      exact ⟨hfs, hstep⟩
  next hwoken =>
      cases h
      have hfs : s.failed = false := by simpa using hf
      have hstep := readerBody_live hfs (Or.inr hwoken)
      simp only [hwoken, ReaderPc.waiting_woken, Bool.toNat_true] at hstep
      exact ⟨hfs, hstep⟩
  next => cases h

theorem writerLock_live (h : writerLock s j = some u) (hf : u.failed = false)
    (hleave : ¬LeavesData s (.writerLock j)) : s.failed = false ∧ LiveStep s u := by
  unfold writerLock at h
  split at h
  next htop =>
      cases h
      rw [writerBody_failed] at hf
      obtain ⟨hsame, hs, hfs⟩ := noticeShutdown_of_unfailed hf
      have hstep := writerBody_live hfs (fun hreq => by rw [hs] at hreq; cases hreq) (Or.inl htop)
      simp only [htop, WriterPc.waiting_top, Bool.toNat_false, Nat.sub_zero] at hstep
      rw [hsame]
      exact ⟨hfs, hstep⟩
  next hwoken =>
      cases h
      have hfs : s.failed = false := by simpa using hf
      have hstep := writerBody_live hfs
        (fun hreq => by_contra fun hne => hleave ⟨hwoken, hreq, hfs, hne⟩) (Or.inr hwoken)
      simp only [hwoken, WriterPc.waiting_woken, Bool.toNat_true] at hstep
      exact ⟨hfs, hstep⟩
  next => cases h

@[simp] theorem readerGiveUp_failed (s : State p) (i : Fin p.readers) (batch : List Buffer) :
    (readerGiveUp s i batch).failed = s.failed := by
  unfold readerGiveUp broadcastFree
  dsimp only
  split_ifs <;> rfl

theorem readerDone_live {ok : Bool} {wake : Option (Fin p.writers)}
    (h : readerDone s i ok wake = some u) (hf : u.failed = false) :
    s.failed = false ∧ LiveStep s u := by
  unfold readerDone at h
  split at h
  next batch hread =>
      cases ok with
      | false =>
        have hfail : (markFailed s).failed = true := rfl
        simp only [Bool.false_eq_true, if_false, hfail, if_true, Option.some.injEq] at h
        subst h
        rw [readerGiveUp_failed, hfail] at hf
        cases hf
      | true =>
        simp only [if_true] at h
        split_ifs at h with hfs hw hn
        · cases h
          rw [readerGiveUp_failed, hfs] at hf
          cases hf
        · obtain ⟨w, hsig, rfl⟩ := Option.map_eq_some_iff.mp h
          exact ⟨hf, .readerDeliver i batch hread w (Or.inr ⟨wake, hsig⟩)⟩
        · cases h
          exact ⟨hf, .readerDeliver i batch hread s.writer (Or.inl ⟨by simpa using hw, rfl⟩)⟩
  next => cases h

theorem writerDone_live {failedAt : Option ℕ} {wake : Option (Fin p.readers)}
    (h : writerDone s j failedAt wake = some u) (hf : u.failed = false) :
    s.failed = false ∧ LiveStep s u := by
  unfold writerDone at h
  split at h
  next batch hwrite =>
      cases failedAt with
      | some k =>
        simp only [Option.isSome_some, if_true] at h
        split_ifs at h
        · obtain ⟨r, -, rfl⟩ := Option.map_eq_some_iff.mp h
          cases hf
        · cases h
          cases hf
      | none =>
        simp only [Option.isSome_none, Bool.false_eq_true, if_false, Option.getD_none,
          List.take_length] at h
        split_ifs at h with hw hn
        · obtain ⟨r, hsig, rfl⟩ := Option.map_eq_some_iff.mp h
          exact ⟨hf, .writerReturn j batch hwrite r (Or.inr ⟨wake, hsig⟩)⟩
        · cases h
          exact ⟨hf, .writerReturn j batch hwrite s.reader (Or.inl ⟨by simpa using hw, rfl⟩)⟩
  next => cases h

/-- Failure is never taken back. Before it every action is one of the listed moves or
the shutdown request, unless a writer leaves data behind. -/
theorem step_unfailed {a : Act p} (h : step s a = some u) (hf : u.failed = false)
    (hleave : ¬LeavesData s a) :
    s.failed = false ∧ (LiveStep s u ∨ u = { s with shutdown := true } ∨
      LiveStep { s with shutdown := true } u) := by
  cases a with
  | readerLock i =>
    obtain ⟨hfs, hstep⟩ := readerLock_live h hf
    exact ⟨hfs, Or.inl hstep⟩
  | readerDone i ok wake =>
    obtain ⟨hfs, hstep⟩ := readerDone_live h hf
    exact ⟨hfs, Or.inl hstep⟩
  | writerLock j =>
    obtain ⟨hfs, hstep⟩ := writerLock_live h hf hleave
    exact ⟨hfs, Or.inl hstep⟩
  | writerInterrupted j =>
    simp only [step, writerInterrupted] at h
    split at h
    next htop =>
      split_ifs at h
      cases h
      have hfs : s.failed = false := by simpa using hf
      have hready : s.ready = [] := by_contra fun hne => hleave ⟨hfs, hne⟩
      have hstep := writerBody_live (s := { s with shutdown := true }) hfs (fun _ => hready)
        (Or.inl htop)
      simp only [htop, WriterPc.waiting_top, Bool.toNat_false, Nat.sub_zero] at hstep
      exact ⟨hfs, Or.inr (Or.inr hstep)⟩
    next => cases h
  | writerDone j failedAt wake =>
    obtain ⟨hfs, hstep⟩ := writerDone_live h hf
    exact ⟨hfs, Or.inl hstep⟩
  | spuriousReader i =>
    simp only [step, Option.ite_none_right_eq_some, Option.some.injEq] at h
    obtain ⟨hp, rfl⟩ := h
    exact ⟨hf, Or.inl (.spuriousReader i hp)⟩
  | spuriousWriter j =>
    simp only [step, Option.ite_none_right_eq_some, Option.some.injEq] at h
    obtain ⟨hp, rfl⟩ := h
    exact ⟨hf, Or.inl (.spuriousWriter j hp)⟩
  | requestShutdown =>
    cases h
    exact ⟨hf, Or.inr (Or.inl rfl)⟩
  | fail =>
    cases h
    cases hf

theorem LiveStep.shutdown_eq (h : LiveStep s u) : u.shutdown = s.shutdown := by
  cases h <;> rfl

theorem shutdown_of_leavesData {a : Act p} (h : step s a = some u) (hleave : LeavesData s a) :
    u.shutdown = true := by
  cases a with
  | writerLock j =>
    obtain ⟨hwoken, hs, -, -⟩ := hleave
    simp only [step, writerLock, hwoken, Option.some.injEq] at h
    rw [← h, writerBody_shutdown]
    exact hs
  | writerInterrupted j =>
    simp only [step, writerInterrupted] at h
    split at h
    · split_ifs at h
      cases h
      exact writerBody_shutdown _ j
    · cases h
  | _ => exact hleave.elim

/-- Between live states every action is one of the listed moves. -/
theorem step_live {a : Act p} (h : step s a = some u) (hl : u.Live) : s.Live ∧ LiveStep s u := by
  obtain ⟨hf, hs⟩ := hl
  have hstay : ¬LeavesData s a := fun hleave => by
    rw [shutdown_of_leavesData h hleave] at hs
    cases hs
  obtain ⟨hfs, hstep | rfl | hstep⟩ := step_unfailed h hf hstay
  · exact ⟨⟨hfs, hstep.shutdown_eq.symm.trans hs⟩, hstep⟩
  · cases hs
  · exact absurd (hstep.shutdown_eq.symm.trans hs) nofun

theorem ReaderPc.Idle.held_eq (h : r.Idle) : r.held = 0 := by
  rcases h with rfl | rfl <;> rfl

theorem ReaderPc.Idle.active_eq (h : r.Idle) : r.active = true := by
  rcases h with rfl | rfl <;> rfl

theorem ReaderPc.Idle.ne_parked (h : r.Idle) : r ≠ .parked := by
  rcases h with rfl | rfl <;> simp

theorem WriterPc.Idle.held_eq {w : WriterPc} (h : w.Idle) : w.held = 0 := by
  rcases h with rfl | rfl <;> rfl

/-- Counting facts: no buffer is lost, and the counters of the context are what
their names say. -/
structure Accounts (s : State p) : Prop where
  pool : s.free.length + s.ready.length + total ReaderPc.held s.reader +
    total WriterPc.held s.writer = p.inflight
  activeReaders : s.activeReaders = count ReaderPc.active s.reader
  freeWaiters : s.freeWaiters = count ReaderPc.waiting s.reader
  readyWaiters : s.readyWaiters = count WriterPc.waiting s.writer
  batches : ∀ j, (s.writer j).held ≤ largePipeBatch p.inflight

theorem Accounts.start (p : Params) : Accounts (State.start p) where
  pool := by simp [State.start, total, ReaderPc.held, WriterPc.held]
  activeReaders := by simp [State.start, count, total, ReaderPc.active]
  freeWaiters := by simp [State.start, count, total, ReaderPc.waiting]
  readyWaiters := by simp [State.start, count, total, WriterPc.waiting]
  batches := fun j => Nat.zero_le _

/-- Moving one reader changes the reader totals by its own terms. -/
theorem reader_totals (f : Fin p.readers → ReaderPc) (i : Fin p.readers) (r : ReaderPc) :
    total ReaderPc.held (Function.update f i r) + (f i).held = total ReaderPc.held f + r.held ∧
    count ReaderPc.active (Function.update f i r) + (f i).active.toNat =
      count ReaderPc.active f + r.active.toNat ∧
    count ReaderPc.waiting (Function.update f i r) + (f i).waiting.toNat =
      count ReaderPc.waiting f + r.waiting.toNat :=
  ⟨total_update _ f i r, count_update _ f i r, count_update _ f i r⟩

theorem writer_totals (f : Fin p.writers → WriterPc) (j : Fin p.writers) (w : WriterPc) :
    total WriterPc.held (Function.update f j w) + (f j).held = total WriterPc.held f + w.held ∧
    count WriterPc.waiting (Function.update f j w) + (f j).waiting.toNat =
      count WriterPc.waiting f + w.waiting.toNat :=
  ⟨total_update _ f j w, count_update _ f j w⟩

theorem batches_update {f : Fin p.writers → WriterPc} {B : ℕ} (h : ∀ j, (f j).held ≤ B)
    (j : Fin p.writers) {w : WriterPc} (hw : w.held ≤ B) (k : Fin p.writers) :
    (Function.update f j w k).held ≤ B := by
  by_cases hk : k = j
  · rw [hk, Function.update_self]
    exact hw
  · rw [Function.update_of_ne hk]
    exact h k

theorem LiveStep.accounts (h : LiveStep s u) (hs : Accounts s) : Accounts u := by
  obtain ⟨hpool, hact, hfw, hrw, hb⟩ := hs
  cases h with
  | readerPark i idle free left =>
    have ⟨h₁, h₂, h₃⟩ := reader_totals s.reader i .parked
    have hcounted := toNat_le_count ReaderPc.waiting s.reader i
    rw [idle.held_eq] at h₁
    rw [idle.active_eq] at h₂
    simp [ReaderPc.held] at h₁ h₂ h₃
    exact ⟨by dsimp only; omega, by dsimp only; omega, by dsimp only; omega, hrw, hb⟩
  | readerExit i idle complete others =>
    have ⟨h₁, h₂, h₃⟩ := reader_totals s.reader i .exited
    rw [idle.held_eq] at h₁
    rw [idle.active_eq] at h₂
    simp [ReaderPc.held] at h₁ h₂ h₃
    exact ⟨by dsimp only; omega, by dsimp only; omega, by dsimp only; omega, hrw, hb⟩
  | lastReaderExit i idle complete last =>
    have ⟨h₁, h₂, h₃⟩ := reader_totals s.reader i .exited
    rw [idle.held_eq] at h₁
    rw [idle.active_eq] at h₂
    simp [ReaderPc.held] at h₁ h₂ h₃
    have hheld : total WriterPc.held (broadcast .parked .woken s.writer) =
        total WriterPc.held s.writer :=
      total_broadcast .parked .woken rfl s.writer
    have hwait : count WriterPc.waiting (broadcast .parked .woken s.writer) =
        count WriterPc.waiting s.writer :=
      total_broadcast WriterPc.parked .woken rfl s.writer
    refine ⟨by dsimp only; omega, by dsimp only; omega, by dsimp only; omega, hrw.trans hwait.symm,
      fun k => ?_⟩
    obtain hk | ⟨-, hk⟩ := broadcast_apply WriterPc.parked .woken s.writer k
    · dsimp only
      rw [hk]
      exact hb k
    · dsimp only
      rw [hk]
      exact Nat.zero_le _
  | readerClaim i idle batch rest some_claimed few conserved ranges before_end left =>
    have ⟨h₁, h₂, h₃⟩ := reader_totals s.reader i (.reading batch)
    rw [idle.held_eq] at h₁
    rw [idle.active_eq] at h₂
    simp [ReaderPc.held] at h₁ h₂ h₃
    exact ⟨by dsimp only; omega, by dsimp only; omega, by dsimp only; omega, hrw, hb⟩
  | readerDeliver i batch held w woke =>
    have ⟨h₁, h₂, h₃⟩ := reader_totals s.reader i .top
    simp [held, ReaderPc.held] at h₁ h₂ h₃
    have hheld : total WriterPc.held w = total WriterPc.held s.writer := woke.total_eq rfl
    have hwait : count WriterPc.waiting w = count WriterPc.waiting s.writer := woke.total_eq rfl
    refine ⟨?_, by dsimp only; omega, by dsimp only; omega, hrw.trans hwait.symm, fun k => ?_⟩
    · dsimp only
      rw [List.length_append]
      omega
    · obtain hk | ⟨-, hk⟩ := woke.apply k
      · exact (congrArg WriterPc.held hk).trans_le (hb k)
      · exact (congrArg WriterPc.held hk).trans_le (Nat.zero_le _)
  | writerPark j idle empty more =>
    have ⟨h₁, h₂⟩ := writer_totals s.writer j .parked
    have hcounted := toNat_le_count WriterPc.waiting s.writer j
    rw [idle.held_eq] at h₁
    simp [WriterPc.held] at h₁ h₂
    exact ⟨by dsimp only; omega, hact, hfw, by dsimp only; omega,
      batches_update hb j (Nat.zero_le _)⟩
  | writerExit j idle empty done =>
    have ⟨h₁, h₂⟩ := writer_totals s.writer j .exited
    rw [idle.held_eq] at h₁
    simp [WriterPc.held] at h₁ h₂
    exact ⟨by dsimp only; omega, hact, hfw, by dsimp only; omega,
      batches_update hb j (Nat.zero_le _)⟩
  | writerTake j idle nonempty =>
    have ⟨h₁, h₂⟩ := writer_totals s.writer j
      (.writing (s.ready.take (largePipeBatch p.inflight)))
    rw [idle.held_eq] at h₁
    simp [WriterPc.held] at h₁ h₂
    refine ⟨?_, hact, hfw, by dsimp only; omega, batches_update hb j ?_⟩
    · dsimp only
      rw [List.length_drop]
      omega
    · simp [WriterPc.held]
  | writerReturn j batch held r woke =>
    have ⟨h₁, h₂⟩ := writer_totals s.writer j .top
    simp [held, WriterPc.held] at h₁ h₂
    have hheld : total ReaderPc.held r = total ReaderPc.held s.reader := woke.total_eq rfl
    have hactr : count ReaderPc.active r = count ReaderPc.active s.reader := woke.total_eq rfl
    have hwait : count ReaderPc.waiting r = count ReaderPc.waiting s.reader := woke.total_eq rfl
    refine ⟨?_, hact.trans hactr.symm, hfw.trans hwait.symm, by dsimp only; omega,
      batches_update hb j (Nat.zero_le _)⟩
    dsimp only
    rw [List.length_append]
    omega
  | spuriousReader i parked =>
    have ⟨h₁, h₂, h₃⟩ := reader_totals s.reader i .woken
    simp [parked, ReaderPc.held] at h₁ h₂ h₃
    exact ⟨by dsimp only; omega, by dsimp only; omega, by dsimp only; omega, hrw, hb⟩
  | spuriousWriter j parked =>
    have ⟨h₁, h₂⟩ := writer_totals s.writer j .woken
    simp [parked, WriterPc.held] at h₁ h₂
    exact ⟨by dsimp only; omega, hact, hfw, by dsimp only; omega,
      batches_update hb j (Nat.zero_le _)⟩

/-- How the end of input is known. -/
structure Endgame (s : State p) : Prop where
  done_iff : s.readDone = true ↔ s.activeReaders = 0
  reader_exited : ∀ i, s.reader i = .exited → s.exhausted = true
  writer_exited : ∀ j, s.writer j = .exited → s.readDone = true
  writer_parked : ∀ j, s.writer j = .parked → s.readDone = false

theorem Endgame.start (p : Params) : Endgame (State.start p) where
  done_iff := by simp [State.start, p.readers_pos.ne']
  reader_exited := by simp [State.start]
  writer_exited := by simp [State.start]
  writer_parked := by simp [State.start]

theorem update_eq_imp {ι β : Type*} [DecidableEq ι] {f : ι → β} {i : ι} {x y : β} {Q : Prop}
    (h : ∀ k, f k = y → Q) (hx : x = y → Q) (k : ι) (hk : Function.update f i x k = y) : Q := by
  by_cases hki : k = i
  · rw [hki, Function.update_self] at hk
    exact hx hk
  · rw [Function.update_of_ne hki] at hk
    exact h k hk

theorem LiveStep.endgame (h : LiveStep s u) (hs : Endgame s) : Endgame u := by
  obtain ⟨hdone, hrex, hwex, hwpark⟩ := hs
  cases h with
  | readerPark i idle free left =>
    exact ⟨hdone, update_eq_imp hrex nofun, hwex, hwpark⟩
  | readerExit i idle complete others =>
    have hnot : s.activeReaders ≠ 0 := by omega
    refine ⟨?_, fun _ _ => complete, hwex, hwpark⟩
    exact ⟨fun hd => absurd (hdone.mp hd) hnot, fun h0 => absurd h0 others⟩
  | lastReaderExit i idle complete last =>
    refine ⟨by simp [last], fun _ _ => complete, fun _ _ => rfl, fun k hk => ?_⟩
    exact absurd hk (broadcast_ne_parked (by simp) s.writer k)
  | readerClaim i idle batch rest some_claimed few conserved ranges before_end left =>
    -- nobody has exited yet, since a chunk was left
    have hnone : ∀ k, s.reader k ≠ .exited := fun k hk => by simp [hrex k hk] at left
    refine ⟨hdone, ?_, hwex, hwpark⟩
    exact update_eq_imp (fun k hk => absurd hk (hnone k)) nofun
  | readerDeliver i batch held w woke =>
    refine ⟨hdone, update_eq_imp hrex nofun, fun k hk => ?_, fun k hk => ?_⟩
    · obtain h | ⟨-, h⟩ := woke.apply k
      · exact hwex k (h.symm.trans hk)
      · exact absurd (h.symm.trans hk) nofun
    · obtain h | ⟨-, h⟩ := woke.apply k
      · exact hwpark k (h.symm.trans hk)
      · exact absurd (h.symm.trans hk) nofun
  | writerPark j idle empty more =>
    exact ⟨hdone, hrex, update_eq_imp hwex nofun, update_eq_imp hwpark fun _ => more⟩
  | writerExit j idle empty done =>
    exact ⟨hdone, hrex, update_eq_imp hwex fun _ => done, update_eq_imp hwpark nofun⟩
  | writerTake j idle nonempty =>
    exact ⟨hdone, hrex, update_eq_imp hwex nofun, update_eq_imp hwpark nofun⟩
  | writerReturn j batch held r woke =>
    refine ⟨hdone, fun k hk => ?_, update_eq_imp hwex nofun, update_eq_imp hwpark nofun⟩
    obtain h | ⟨-, h⟩ := woke.apply k
    · exact hrex k (h.symm.trans hk)
    · exact absurd (h.symm.trans hk) nofun
  | spuriousReader i parked =>
    exact ⟨hdone, update_eq_imp hrex nofun, hwex, hwpark⟩
  | spuriousWriter j parked =>
    exact ⟨hdone, hrex, update_eq_imp hwex nofun, update_eq_imp hwpark nofun⟩

def ReaderPc.Awake (r : ReaderPc) : Prop := r ≠ .parked ∧ r ≠ .exited
def WriterPc.Awake (w : WriterPc) : Prop := w ≠ .parked ∧ w ≠ .exited

/-- Work on a list has a thread awake to take it. -/
structure Served (s : State p) : Prop where
  ready : s.ready ≠ [] → ∃ j, (s.writer j).Awake
  free : s.free ≠ [] → s.exhausted = false → ∃ i, (s.reader i).Awake

theorem Served.start (p : Params) : Served (State.start p) where
  ready := fun h => absurd rfl h
  free := fun _ _ => ⟨⟨0, p.readers_pos⟩, nofun, nofun⟩

theorem exists_awake_update_reader {f : Fin p.readers → ReaderPc} (i : Fin p.readers)
    {r : ReaderPc} (hr : r.Awake) : ∃ k, (Function.update f i r k).Awake :=
  ⟨i, by rwa [Function.update_self]⟩

theorem exists_awake_update_writer {f : Fin p.writers → WriterPc} (j : Fin p.writers)
    {w : WriterPc} (hw : w.Awake) : ∃ k, (Function.update f j w k).Awake :=
  ⟨j, by rwa [Function.update_self]⟩

theorem parkedReaders_le_waiting (f : Fin p.readers → ReaderPc) :
    count (fun r => decide (r = .parked)) f ≤ count ReaderPc.waiting f := by
  refine count_mono fun i hi => ?_
  simp only [decide_eq_true_eq] at hi
  rw [hi]
  rfl

theorem parkedWriters_le_waiting (f : Fin p.writers → WriterPc) :
    count (fun w => decide (w = .parked)) f ≤ count WriterPc.waiting f := by
  refine count_mono fun i hi => ?_
  simp only [decide_eq_true_eq] at hi
  rw [hi]
  rfl

/-- A handover to the ready list leaves a writer awake: the signal finds the
parked ones, and none has exited while a reader is active. -/
theorem exists_writer_awake (ha : Accounts s) (he : Endgame s) (hact : s.activeReaders ≠ 0)
    {w : Fin p.writers → WriterPc} (woke : Signalled .parked .woken s.readyWaiters s.writer w) :
    ∃ j, (w j).Awake := by
  have hpark := (parkedWriters_le_waiting s.writer).trans_eq ha.readyWaiters.symm
  let j₀ : Fin p.writers := ⟨0, p.writers_pos⟩
  by_cases hj : s.writer j₀ = .parked
  · obtain ⟨j, -, hw⟩ := woke.exists_awake nofun hpark hj
    exact ⟨j, by simp [hw, WriterPc.Awake]⟩
  · have hne : s.writer j₀ ≠ .exited := fun hx => hact (he.done_iff.mp (he.writer_exited j₀ hx))
    obtain hw | ⟨hp, -⟩ := woke.apply j₀
    · exact ⟨j₀, by rw [hw]; exact ⟨hj, hne⟩⟩
    · exact absurd hp hj

theorem exists_reader_awake (ha : Accounts s) (he : Endgame s) (left : s.exhausted = false)
    {r : Fin p.readers → ReaderPc} (woke : Signalled .parked .woken s.freeWaiters s.reader r) :
    ∃ i, (r i).Awake := by
  have hpark := (parkedReaders_le_waiting s.reader).trans_eq ha.freeWaiters.symm
  let i₀ : Fin p.readers := ⟨0, p.readers_pos⟩
  by_cases hi : s.reader i₀ = .parked
  · obtain ⟨i, -, hw⟩ := woke.exists_awake nofun hpark hi
    exact ⟨i, by simp [hw, ReaderPc.Awake]⟩
  · have hne : s.reader i₀ ≠ .exited := fun hx => by simp [he.reader_exited i₀ hx] at left
    obtain hw | ⟨hp, -⟩ := woke.apply i₀
    · exact ⟨i₀, by rw [hw]; exact ⟨hi, hne⟩⟩
    · exact absurd hp hi

theorem LiveStep.served (h : LiveStep s u) (ha : Accounts s) (he : Endgame s) (hs : Served s) :
    Served u := by
  obtain ⟨hready, hfree⟩ := hs
  cases h with
  | readerPark i idle free left => exact ⟨hready, fun hf => absurd free hf⟩
  | readerExit i idle complete others =>
    exact ⟨hready, fun _ left => absurd (complete.symm.trans left) nofun⟩
  | lastReaderExit i idle complete last =>
    refine ⟨fun hr => ?_, fun _ left => absurd (complete.symm.trans left) nofun⟩
    obtain ⟨j, hj⟩ := hready hr
    refine ⟨j, ?_⟩
    obtain hb | ⟨hp, -⟩ := broadcast_apply WriterPc.parked .woken s.writer j
    · dsimp only
      rwa [hb]
    · exact absurd hp hj.1
  | readerClaim i idle batch rest some_claimed few conserved ranges before_end left =>
    exact ⟨hready, fun _ _ => exists_awake_update_reader i ⟨nofun, nofun⟩⟩
  | readerDeliver i batch held w woke =>
    have hone : (s.reader i).active.toNat ≤ count ReaderPc.active s.reader :=
      toNat_le_count ReaderPc.active s.reader i
    rw [held, ReaderPc.active_reading, Bool.toNat_true, ← ha.activeReaders] at hone
    exact ⟨fun _ => exists_writer_awake ha he (by omega) woke,
      fun _ _ => exists_awake_update_reader i ⟨nofun, nofun⟩⟩
  | writerPark j idle empty more => exact ⟨fun hr => absurd empty hr, hfree⟩
  | writerExit j idle empty done => exact ⟨fun hr => absurd empty hr, hfree⟩
  | writerTake j idle nonempty =>
    exact ⟨fun _ => exists_awake_update_writer j ⟨nofun, nofun⟩, hfree⟩
  | writerReturn j batch held r woke =>
    exact ⟨fun _ => exists_awake_update_writer j ⟨nofun, nofun⟩,
      fun _ left => exists_reader_awake ha he left woke⟩
  | spuriousReader i parked =>
    exact ⟨hready, fun _ _ => exists_awake_update_reader i ⟨nofun, nofun⟩⟩
  | spuriousWriter j parked =>
    exact ⟨fun _ => exists_awake_update_writer j ⟨nofun, nofun⟩, hfree⟩

/-- The cursor has moved at least once for every buffer outside the free
list. -/
def Claims (s : State p) : Prop :=
  ∃ k, s.cursor = (Cursor.next p)^[k] (Cursor.start p) ∧ p.inflight ≤ s.free.length + k

theorem Claims.start (p : Params) : Claims (State.start p) :=
  ⟨0, rfl, by simp [State.start]⟩

theorem LiveStep.claims (h : LiveStep s u) (hs : Claims s) : Claims u := by
  obtain ⟨k, hk, hle⟩ := hs
  cases h with
  | readerClaim i idle batch rest some_claimed few conserved ranges before_end left =>
    refine ⟨batch.length + k, ?_, by dsimp only; omega⟩
    dsimp only
    rw [hk, Function.iterate_add_apply]
  | writerReturn j batch held r woke =>
    refine ⟨k, hk, ?_⟩
    dsimp only
    rw [List.length_append]
    omega
  | _ => exact ⟨k, hk, hle⟩

/-- The pool has a batch for every reader but one, or a buffer for every
chunk. -/
def Params.Roomy (p : Params) : Prop :=
  p.readers ≤ p.inflight / largePipeBatch p.inflight + 1 ∨
    ((Cursor.next p)^[p.inflight] (Cursor.start p)).exhausted p = true

instance (p : Params) : Decidable p.Roomy := by
  unfold Params.Roomy
  infer_instance

theorem next_iterate_of_exhausted {c : Cursor} (h : c.exhausted p = true) (k : ℕ) :
    ((Cursor.next p)^[k] c).exhausted p = true := by
  have hfix : Cursor.next p c = c := if_pos h
  rw [Function.iterate_fixed hfix]
  exact h

/-- With a buffer for every chunk no reader finds the free list empty. -/
theorem exhausted_of_free_nil (hc : Claims s) (hfree : s.free = [])
    (hroom : ((Cursor.next p)^[p.inflight] (Cursor.start p)).exhausted p = true) :
    s.exhausted = true := by
  obtain ⟨k, hk, hle⟩ := hc
  rw [hfree, List.length_nil, Nat.zero_add] at hle
  obtain ⟨m, rfl⟩ := Nat.exists_eq_add_of_le' hle
  unfold State.exhausted
  rw [hk, Function.iterate_add_apply]
  exact next_iterate_of_exhausted hroom m

def parkedReaders (s : State p) : ℕ := count (fun r => decide (r = .parked)) s.reader

/-- Buffers outside the free list, and one more while a chunk is left. -/
def pendingReturns (s : State p) : ℕ :=
  p.inflight - s.free.length + (!s.exhausted).toNat

/-- The returns to come, in full batches, cover the parked readers. -/
def Wakes (s : State p) : Prop :=
  parkedReaders s * largePipeBatch p.inflight < pendingReturns s + largePipeBatch p.inflight

theorem Wakes.start (p : Params) : Wakes (State.start p) := by
  have hB := largePipeBatch_pos p.inflight
  have hzero : parkedReaders (State.start p) = 0 := count_eq_zero_iff.mpr fun i => rfl
  unfold Wakes
  rw [hzero]
  omega

theorem parkedReaders_update (hi : s.reader i ≠ .parked) (hr : r ≠ .parked) :
    count (fun r => decide (r = .parked)) (Function.update s.reader i r) = parkedReaders s := by
  have h := count_update (fun r => decide (r = .parked)) s.reader i r
  simp only [hi, hr, decide_false, Bool.toNat_false, Nat.add_zero] at h
  exact h

/-- Dropping one parked reader and at most one batch of pending returns. -/
theorem wakes_arith {P P' u u' n B : ℕ} (h : P * B < u + B) (hP : P' = P - 1) (hn : n ≤ B)
    (hu : u ≤ u' + n) (hB : 0 < B) : P' * B < u' + B := by
  cases P with
  | zero =>
    have hzero : P' * B = 0 := by simp [hP]
    rw [hzero]
    exact Nat.lt_add_left u' hB
  | succ P =>
    have hmul : (P + 1) * B = P * B + B := Nat.succ_mul P B
    have hsub : P' = P := hP
    rw [hsub]
    omega

theorem LiveStep.wakes (h : LiveStep s u) (hp : p.Roomy) (ha : Accounts s) (hc : Claims s)
    (hs : Wakes s) : Wakes u := by
  have hB := largePipeBatch_pos p.inflight
  have hpool := ha.pool
  unfold Wakes at hs ⊢
  cases h with
  | readerPark i idle free left =>
    obtain hsmall | hroom := hp
    · -- the whole pool is out, so the bound is at its largest
      have hcard : count (fun r => decide (r = .parked))
          (Function.update s.reader i .parked) ≤ p.readers := by
        simpa using count_le_card (fun r => decide (r = .parked))
          (Function.update s.reader i .parked)
      have hpend : p.inflight + 1 ≤ p.inflight - s.free.length + (!s.exhausted).toNat := by
        simp [free, left]
      calc count (fun r => decide (r = .parked)) (Function.update s.reader i .parked) *
            largePipeBatch p.inflight
          ≤ p.readers * largePipeBatch p.inflight := Nat.mul_le_mul_right _ hcard
        _ ≤ (p.inflight / largePipeBatch p.inflight + 1) * largePipeBatch p.inflight :=
            Nat.mul_le_mul_right _ hsmall
        _ = p.inflight / largePipeBatch p.inflight * largePipeBatch p.inflight +
              largePipeBatch p.inflight := Nat.succ_mul _ _
        _ ≤ p.inflight + largePipeBatch p.inflight :=
            Nat.add_le_add_right (Nat.div_mul_le_self _ _) _
        _ < p.inflight - s.free.length + (!s.exhausted).toNat + largePipeBatch p.inflight := by
            omega
    · exact absurd ((exhausted_of_free_nil hc free hroom).symm.trans left) nofun
  | readerExit i idle complete others =>
    have hsame := parkedReaders_update (r := .exited) idle.ne_parked nofun
    unfold parkedReaders pendingReturns at *
    dsimp only
    rw [hsame]
    exact hs
  | lastReaderExit i idle complete last =>
    have hsame := parkedReaders_update (r := .exited) idle.ne_parked nofun
    unfold parkedReaders pendingReturns at *
    dsimp only
    rw [hsame]
    exact hs
  | readerClaim i idle batch rest some_claimed few conserved ranges before_end left =>
    have hsame := parkedReaders_update (r := .reading batch) idle.ne_parked nofun
    have hone : 0 < batch.length := List.length_pos_iff.mpr some_claimed
    unfold parkedReaders pendingReturns at *
    dsimp only
    rw [hsame]
    simp only [left, Bool.not_false, Bool.toNat_true] at hs
    omega
  | readerDeliver i batch held w woke =>
    have hsame := parkedReaders_update (s := s) (i := i) (r := .top) (by simp [held]) nofun
    unfold parkedReaders pendingReturns at *
    dsimp only
    rw [hsame]
    exact hs
  | writerReturn j batch held r woke =>
    have hless := woke.count_parked nofun
      ((parkedReaders_le_waiting s.reader).trans_eq ha.freeWaiters.symm)
    have hfew : batch.length ≤ largePipeBatch p.inflight := by
      simpa [held, WriterPc.held] using ha.batches j
    refine wakes_arith hs hless hfew ?_ hB
    unfold pendingReturns State.exhausted
    dsimp only
    rw [List.length_append]
    omega
  | spuriousReader i parked =>
    have hless := count_update (fun r => decide (r = .parked)) s.reader i .woken
    simp only [parked, decide_true, Bool.toNat_true, reduceCtorEq, decide_false,
      Bool.toNat_false] at hless
    exact wakes_arith hs (Nat.eq_sub_of_add_eq hless) (Nat.zero_le _) le_rfl hB
  | _ => exact hs

structure Progress (s : State p) : Prop where
  accounts : Accounts s
  endgame : Endgame s
  served : Served s
  claims : Claims s
  wakes : Wakes s

theorem Progress.start (p : Params) : Progress (State.start p) :=
  ⟨.start p, .start p, .start p, .start p, .start p⟩

theorem LiveStep.progress (h : LiveStep s u) (hp : p.Roomy) (hs : Progress s) : Progress u :=
  ⟨h.accounts hs.accounts, h.endgame hs.endgame, h.served hs.accounts hs.endgame hs.served,
    h.claims hs.claims, h.wakes hp hs.accounts hs.claims hs.wakes⟩

/-- In a roomy pipeline every live reachable state keeps the invariants. -/
theorem progress_of_reachable (hp : p.Roomy) {s : State p}
    (h : Reachable step (State.start p) s) (hl : s.Live) : Progress s := by
  refine h.invariant (I := fun s => s.Live → Progress s) (fun _ => .start p) ?_ hl
  intro s a u hs hu hlive
  obtain ⟨hsl, hstep⟩ := step_live hu hlive
  exact hstep.progress hp (hs hsl)

theorem held_eq_zero_of_resting (hr : ∀ i, s.reader i = .exited ∨ s.reader i = .parked)
    (hw : ∀ j, s.writer j = .exited ∨ s.writer j = .parked) :
    total ReaderPc.held s.reader = 0 ∧ total WriterPc.held s.writer = 0 := by
  refine ⟨total_eq_zero_iff.mpr fun i => ?_, total_eq_zero_iff.mpr fun j => ?_⟩
  · rcases hr i with h | h <;> rw [h] <;> rfl
  · rcases hw j with h | h <;> rw [h] <;> rfl

theorem Progress.not_stuck (hs : Progress s) : ¬s.Stuck := by
  rintro ⟨hsome, hr, hw⟩
  have hreader : ∀ i, ¬(s.reader i).Awake := fun i hi => (hr i).elim hi.2 hi.1
  have hwriter : ∀ j, ¬(s.writer j).Awake := fun j hj => (hw j).elim hj.2 hj.1
  have hready : s.ready = [] := by
    by_contra hne
    obtain ⟨j, hj⟩ := hs.served.ready hne
    exact hwriter j hj
  obtain ⟨hheldr, hheldw⟩ := held_eq_zero_of_resting hr hw
  have hpool := hs.accounts.pool
  rw [hready, hheldr, hheldw, List.length_nil] at hpool
  by_cases hparked : ∃ i, s.reader i = .parked
  · -- the whole pool is free again, so the pending return is a chunk left
    obtain ⟨i, hi⟩ := hparked
    have hpos : 1 ≤ parkedReaders s := count_pos_iff.mpr ⟨i, by simp [hi]⟩
    have hwakes : parkedReaders s * largePipeBatch p.inflight <
        pendingReturns s + largePipeBatch p.inflight := hs.wakes
    have hmul : 1 * largePipeBatch p.inflight ≤ parkedReaders s * largePipeBatch p.inflight :=
      Nat.mul_le_mul_right _ hpos
    have hleft : s.exhausted = false := by
      by_contra hex
      have hex' : s.exhausted = true := by simpa using hex
      have hzero : pendingReturns s = 0 := by
        simp only [pendingReturns, hex', Bool.not_true, Bool.toNat_false]
        omega
      omega
    have hfree : s.free ≠ [] := by
      intro hnil
      have hsize := p.inflight_pos
      rw [hnil, List.length_nil] at hpool
      omega
    obtain ⟨k, hk⟩ := hs.served.free hfree hleft
    exact hreader k hk
  · have hexit : ∀ i, s.reader i = .exited := fun i =>
      (hr i).resolve_right fun hp => hparked ⟨i, hp⟩
    have hzero : s.activeReaders = 0 := by
      rw [hs.accounts.activeReaders]
      exact count_eq_zero_iff.mpr fun i => by rw [hexit i]; rfl
    have hdone := hs.endgame.done_iff.mpr hzero
    rcases hsome with ⟨i, hi⟩ | ⟨j, hj⟩
    · exact hi (hexit i)
    · have hp := (hw j).resolve_left hj
      have := hs.endgame.writer_parked j hp
      rw [hdone] at this
      cases this

/-- A pipeline whose pool has a batch for every reader but one, or a buffer for
every chunk, is never stuck. -/
theorem never_stuck_of_roomy (p : Params) (hp : p.Roomy) (s : State p)
    (h : Reachable step (State.start p) s) (hl : s.Live) : ¬s.Stuck :=
  (progress_of_reachable hp h hl).not_stuck

abbrev twoReaders : Params where
  readers := 2
  writers := 1
  inflight := 1
  chunkSize := 1048576
  bulkEnd := 2097152
  extents := none
  readers_pos := Nat.two_pos
  writers_pos := Nat.one_pos
  inflight_pos := Nat.one_pos

/-- Two readers on a pool of one buffer, after one of them parked. -/
theorem never_stuck_of_roomy_twoReaders :
    ∃ s, Reachable step (State.start twoReaders) s ∧ s.reader 1 = .parked ∧ ¬s.Stuck := by
  have hr : exec step (State.start twoReaders) [.readerLock 0, .readerLock 1] =
      some ((exec step (State.start twoReaders) [.readerLock 0, .readerLock 1]).getD
        (State.start twoReaders)) := rfl
  exact ⟨_, ⟨_, hr⟩, rfl, never_stuck_of_roomy twoReaders (by decide) _ ⟨_, hr⟩ (by decide)⟩

/-- Three readers, one writer and one buffer, on a file of two chunks. -/
abbrev threeReaders : Params where
  readers := 3
  writers := 1
  inflight := 1
  chunkSize := 1048576
  bulkEnd := 2097152
  extents := none
  readers_pos := by decide
  writers_pos := Nat.one_pos
  inflight_pos := Nat.one_pos

/-- The one writer. -/
def writer : Fin threeReaders.writers := ⟨0, Nat.one_pos⟩

/-- All readers park after the first chunk. The first return wakes reader 0,
which takes the last chunk and leaves; the second return wakes reader 1, which
leaves too, and nobody is left to wake reader 2. -/
def lostReader : List (Act threeReaders) :=
  [.readerLock 0, .readerLock 1, .readerLock 2, .readerDone 0 true none, .readerLock 0,
    .writerLock writer, .writerDone writer none (some 0), .readerLock 0, .readerDone 0 true none,
    .readerLock 0, .writerLock writer, .writerDone writer none (some 1), .readerLock 1,
    .writerLock writer]

theorem three_readers_stuck :
    ∃ s, Reachable step (State.start threeReaders) s ∧ s.Live ∧ s.Stuck := by
  have hr : exec step (State.start threeReaders) lostReader =
      some ((exec step (State.start threeReaders) lostReader).getD (State.start threeReaders)) := rfl
  exact ⟨_, ⟨_, hr⟩, by decide, by decide⟩

end Ecopy.Workers.LargePipeline
