import Ecopy.Workers.LargeFile

/-!
# Chunks that nobody writes

A writer that looks at the shutdown request after its wait loop leaves, and the chunks on the
ready list stay where they are. Whoever comes by the top of a loop from then on marks the file
as failed, and whoever wakes up inside leaves as well. So as long as the file does not fail,
the ready list never gets shorter again, and what is on it when all threads have left is a part
of the data that was not written.
-/
namespace Ecopy.Workers.LargePipeline
open Lib.Runs Lib.Threads

variable {p : Params}

/-- A shutdown request has been noticed, and there are chunks that nobody will write. -/
structure Lost (s : State p) : Prop where
  shutdown : s.shutdown = true
  left : s.ready ≠ []
  claimed : ∃ n, Claimed s n

theorem readerBody_ready (s : State p) (i : Fin p.readers) : (readerBody s i).ready = s.ready := by
  unfold readerBody readerExit
  dsimp only
  split_ifs <;> rfl

variable {s u : State p}

theorem writerBody_ready (hs : s.shutdown = true) (j : Fin p.writers) :
    (writerBody s j).ready = s.ready := by
  unfold writerBody
  split_ifs with hpark hexit
  · rfl
  · rfl
  · rw [hs, Bool.true_or, Bool.true_or] at hexit
    exact absurd rfl hexit

/-- What was read is put behind what is ready. -/
theorem readerDone_ready {i : Fin p.readers} {ok : Bool} {wake : Option (Fin p.writers)}
    (h : readerDone s i ok wake = some u) : ∃ more, u.ready = s.ready ++ more := by
  unfold readerDone at h
  split at h
  next batch hread =>
    have hsame : (if ok then s else markFailed s).ready = s.ready := by
      split_ifs <;> rfl
    generalize (if ok then s else markFailed s) = t at h hsame
    dsimp only at h
    rw [← hsame]
    split_ifs at h
    · cases h
      refine ⟨[], ?_⟩
      rw [List.append_nil]
      unfold readerGiveUp broadcastFree
      dsimp only
      split_ifs <;> rfl
    · obtain ⟨w, -, rfl⟩ := Option.map_eq_some_iff.mp h
      exact ⟨batch, rfl⟩
    · cases h
      exact ⟨batch, rfl⟩
  next => cases h

theorem writerDone_ready {j : Fin p.writers} {failedAt : Option ℕ} {wake : Option (Fin p.readers)}
    (h : writerDone s j failedAt wake = some u) : u.ready = s.ready := by
  unfold writerDone at h
  split at h
  next batch hwrite =>
    have hsame : (if failedAt.isSome then markFailed s else s).ready = s.ready := by
      split_ifs <;> rfl
    generalize (if failedAt.isSome then markFailed s else s) = t at h hsame
    generalize (if failedAt.isSome then WriterPc.exited else .top) = w at h
    dsimp only at h
    split_ifs at h
    · obtain ⟨r, -, rfl⟩ := Option.map_eq_some_iff.mp h
      exact hsame
    · cases h
      exact hsame
  next => cases h

/-- After the request nobody takes a chunk, unless the file has failed. -/
theorem ready_of_shutdown {a : Act p} (h : step s a = some u) (hs : s.shutdown = true)
    (hf : u.failed = false) : ∃ more, u.ready = s.ready ++ more := by
  have hsame : u.ready = s.ready → ∃ more, u.ready = s.ready ++ more := fun heq =>
    ⟨[], heq.trans (List.append_nil _).symm⟩
  cases a with
  | readerLock i =>
    simp only [LargePipeline.step, readerLock] at h
    split at h
    · cases h
      rw [readerBody_failed] at hf
      exact (Bool.false_ne_true ((noticeShutdown_of_unfailed hf).2.1.symm.trans hs)).elim
    · cases h
      exact hsame (readerBody_ready _ i)
    · cases h
  | readerDone i ok wake => exact readerDone_ready h
  | writerLock j =>
    simp only [LargePipeline.step, writerLock] at h
    split at h
    · cases h
      rw [writerBody_failed] at hf
      exact (Bool.false_ne_true ((noticeShutdown_of_unfailed hf).2.1.symm.trans hs)).elim
    · cases h
      exact hsame (writerBody_ready (s := { s with readyWaiters := s.readyWaiters - 1 }) hs j)
    · cases h
  | writerInterrupted j =>
    simp only [LargePipeline.step, writerInterrupted, hs, if_true] at h
    split at h <;> cases h
  | writerDone j failedAt wake => exact hsame (writerDone_ready h)
  | spuriousReader i =>
    simp only [LargePipeline.step, Option.ite_none_right_eq_some, Option.some.injEq] at h
    obtain ⟨-, rfl⟩ := h
    exact hsame rfl
  | spuriousWriter j =>
    simp only [LargePipeline.step, Option.ite_none_right_eq_some, Option.some.injEq] at h
    obtain ⟨-, rfl⟩ := h
    exact hsame rfl
  | requestShutdown =>
    cases h
    exact hsame rfl
  | fail =>
    cases h
    cases hf

/-- A writer that leaves data behind changes nothing else. -/
theorem Claimed.leave {n : ℕ} (hs : Claimed s n) {j : Fin p.writers} (idle : (s.writer j).Idle)
    (hreq : s.shutdown = true) (hready : s.ready ≠ []) : Lost (writerBody s j) := by
  have hexit : writerBody s j = { s with
      activeWriters := s.activeWriters - 1
      writer := Function.update s.writer j .exited } := by
    unfold writerBody
    rw [if_neg (by simp [hready]), if_pos (by simp [hreq])]
  rw [hexit]
  refine ⟨hreq, hready, n, hs.cursor, hs.before_end, fun r => ?_⟩
  have hmove := inWriters_update Buffer.range r s.writer j .exited
  rw [idle.batch_eq] at hmove
  simp only [WriterPc.batch, occurrences_nil, Nat.add_zero] at hmove
  rw [← hs.ranges r]
  simp only [underway, hmove]

theorem lost_of_leavesData {a : Act p} {n : ℕ} (h : step s a = some u) (hleave : LeavesData s a)
    (hs : Claimed s n) : Lost u := by
  cases a with
  | writerLock j =>
    obtain ⟨hwoken, hreq, -, hready⟩ := hleave
    simp only [LargePipeline.step, writerLock, hwoken, Option.some.injEq] at h
    rw [← h]
    exact Claimed.leave (s := { s with readyWaiters := s.readyWaiters - 1 })
      ⟨hs.cursor, hs.before_end, hs.ranges⟩ (Or.inr hwoken) hreq hready
  | writerInterrupted j =>
    obtain ⟨-, hready⟩ := hleave
    simp only [LargePipeline.step, writerInterrupted] at h
    split at h
    next htop =>
      split_ifs at h
      cases h
      exact Claimed.leave (s := { s with shutdown := true })
        ⟨hs.cursor, hs.before_end, hs.ranges⟩ (Or.inl htop) rfl hready
    next => cases h
  | _ => exact hleave.elim

/-- What is lost stays lost. -/
theorem Lost.step {a : Act p} (hs : Lost s) (h : step s a = some u) (hf : u.failed = false) :
    Lost u := by
  obtain ⟨n, hn⟩ := hs.claimed
  by_cases hleave : LeavesData s a
  · exact lost_of_leavesData h hleave hn
  obtain ⟨more, hmore⟩ := ready_of_shutdown h hs.shutdown hf
  have hready : u.ready ≠ [] := by
    rw [hmore]
    exact List.append_ne_nil_of_left_ne_nil hs.left more
  have hnow : Claimed { s with shutdown := true } n := ⟨hn.cursor, hn.before_end, hn.ranges⟩
  obtain ⟨-, hlive | rfl | hlive⟩ := step_unfailed h hf hleave
  · exact ⟨hlive.shutdown_eq.trans hs.shutdown, hready, hlive.claimed hn⟩
  · exact ⟨rfl, hready, n, hnow⟩
  · exact ⟨hlive.shutdown_eq, hready, hlive.claimed hnow⟩

theorem failed_of_step {a : Act p} (h : LargePipeline.step s a = some u) (hf : u.failed = false) :
    s.failed = false := by
  by_cases hleave : LeavesData s a
  · cases a with
    | writerLock j => exact hleave.2.2.1
    | writerInterrupted j => exact hleave.1
    | _ => exact hleave.elim
  · exact (step_unfailed h hf hleave).1

theorem failed_of_exec {as : List (Act p)} (h : exec LargePipeline.step s as = some u)
    (hf : u.failed = false) : s.failed = false := by
  induction as generalizing s with
  | nil =>
    cases h
    exact hf
  | cons a as ih =>
    obtain ⟨w, hw, hrest⟩ := exec_cons_eq_some.mp h
    exact failed_of_step hw (ih hrest)

theorem Lost.exec {as : List (Act p)} (hs : Lost s) (h : exec LargePipeline.step s as = some u)
    (hf : u.failed = false) : Lost u := by
  induction as generalizing s with
  | nil =>
    cases h
    exact hs
  | cons a as ih =>
    obtain ⟨w, hw, hrest⟩ := exec_cons_eq_some.mp h
    exact ih (hs.step hw (failed_of_exec hrest hf)) hrest

/-- Either no writer has left data behind, or it is lost in the end. -/
theorem along_or_lost {as : List (Act p)} (hs : Sound s)
    (h : exec LargePipeline.step s as = some u) (hf : u.failed = false) :
    Along LargePipeline.step (fun s a => ¬LeavesData s a) s as ∨ Lost u := by
  induction as generalizing s with
  | nil => exact Or.inl trivial
  | cons a as ih =>
    obtain ⟨w, hw, hrest⟩ := exec_cons_eq_some.mp h
    have hfw := failed_of_exec hrest hf
    by_cases hleave : LeavesData s a
    · obtain ⟨n, hn⟩ := hs.claimed
      exact Or.inr ((lost_of_leavesData hw hleave hn).exec hrest hf)
    · exact (ih (hs.step hw hfw hleave) hrest).imp_left fun halong => .cons hleave hw halong

theorem Claimed.written_subset {n : ℕ} (hs : Claimed s n) :
    ∀ r ∈ s.written, r ∈ chunksFrom p n (Cursor.start p) := by
  intro r hr
  have hcount := List.count_pos_iff.mpr hr
  have hranges := hs.ranges r
  exact List.count_pos_iff.mp (by omega)

instance : Std.Symm Apart := ⟨fun _ _ h => h.symm⟩

/-- What is lost is data that no range covers. -/
theorem Lost.unwritten (hs : Lost s) (hp : p.Mapped) :
    ∃ x, InData p x ∧ ∀ r ∈ s.written, ¬InRange r x := by
  obtain ⟨n, hn⟩ := hs.claimed
  have hcovers := chunksFrom_covers hp n (Placed.start hp) hn.before_end
  obtain ⟨b, hb⟩ := List.exists_mem_of_ne_nil _ hs.left
  have hready : 0 < underway Buffer.range b.range s := by
    have hpos : 0 < occurrences Buffer.range b.range s.ready :=
      List.count_pos_iff.mpr (List.mem_map_of_mem hb)
    unfold underway
    omega
  have hcount := hn.ranges b.range
  have hchunk : b.range ∈ chunksFrom p n (Cursor.start p) := List.count_pos_iff.mp (by omega)
  obtain ⟨-, hlen, -⟩ := hcovers.between _ hchunk
  have happart : (chunksFrom p n (Cursor.start p)).Pairwise Apart := hcovers.rising.imp Or.inl
  have hnodup : (chunksFrom p n (Cursor.start p)).Nodup := by
    refine hcovers.rising.imp_of_mem fun {q r} hq _ hle heq => ?_
    have hpos := (hcovers.between q hq).2.1
    rw [heq] at hle hpos
    omega
  have honce := List.nodup_iff_count_le_one.mp hnodup b.range
  have hin : InRange b.range b.range.1 := ⟨le_rfl, by omega⟩
  refine ⟨b.range.1, hcovers.data _ hchunk _ hin, ?_⟩
  rintro r hr ⟨hlow, hhigh⟩
  have hother : r ≠ b.range := by
    rintro rfl
    have hwritten := List.count_pos_iff.mpr hr
    omega
  have hrange := (hcovers.between r (hn.written_subset r hr)).2.1
  rcases happart.forall (hn.written_subset r hr) hchunk hother with hleft | hright
  · omega
  · omega

end Ecopy.Workers.LargePipeline
