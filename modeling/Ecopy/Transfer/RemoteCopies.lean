import Ecopy.Transfer.DataExtents

/-!
# Streamed copies

The client reads and sends block after block; the server writes what it is sent and reports at
the end whether one of the writes failed. What the client never read is therefore never missed:
the size of a dense file was set when it was opened, and that of a sparse file is set at the end.
A dense file that grew is longer than it was, since each read asks for a whole chunk.
-/
namespace Ecopy.Transfer
open Lib.Calls
open Workers.SmallCopy (Tuning)

section Streams
variable {known : Bool} {s t : World} {tr : List Event} {fuel : ℕ} {cfg : Tuning} {size : ℕ}

theorem keeps_handleOpen (size : ℕ) (sparse : Bool) :
    (handleOpen size sparse).Keeps ReadsNothing fun _ _ => True := by
  refine Prog.Keeps.bind keeps_attempt fun opened => ?_
  split_ifs
  · exact keeps_mark
  · refine Prog.Keeps.call trivial fun r _ => ?_
    cases r with
    | ok n => trivial
    | error e =>
      dsimp only
      split_ifs
      · exact Prog.Keeps.call trivial fun _ _ => trivial
      · trivial
  · trivial

/-- A new file has no bytes, and at most the size that was announced. -/
theorem handleOpen_runs {sparse : Bool} {a : Unit}
    (h : (handleOpen size sparse).Runs (answer known) .start tr t a) (ht : t.Calm) :
    t.dest.size ≤ size ∧ ∀ x, t.dest.byte x = none := by
  obtain ⟨before, after, u, opened, rfl, hattempt, hopen⟩ := Prog.runs_bind_iff.mp h
  obtain ⟨rfl, -⟩ := attempt_runs hattempt
  split_ifs at hopen
  · exact (Bool.false_ne_true (ht.2.symm.trans (mark_runs hopen))).elim
  · obtain ⟨x, done, v, rest, hx, rfl, hrest⟩ := Prog.runs_perform_iff.mp hopen
    cases done with
    | ok n =>
      obtain ⟨rfl, rfl, -⟩ := Prog.runs_ret_iff.mp hrest
      rw [does_ok hx]
      exact ⟨(Nat.zero_max size).le, fun _ => rfl⟩
    | error e =>
      obtain rfl := does_error hx
      dsimp only at hrest
      split_ifs at hrest
      · obtain ⟨y, cut, w, later, hy, rfl, hend⟩ := Prog.runs_perform_iff.mp hrest
        obtain ⟨rfl, rfl, -⟩ := Prog.runs_ret_iff.mp hend
        cases cut with
        | ok n =>
          rw [does_ok hy]
          exact ⟨le_rfl, fun x => ite_self none⟩
        | error e =>
          rw [does_error hy]
          exact ⟨Nat.zero_le _, fun _ => rfl⟩
      · obtain ⟨rfl, rfl, -⟩ := Prog.runs_ret_iff.mp hrest
        exact ⟨Nat.zero_le _, fun _ => rfl⟩
  · obtain ⟨rfl, rfl, -⟩ := Prog.runs_ret_iff.mp hopen
    exact ⟨Nat.zero_le _, fun _ => rfl⟩

theorem keeps_handleFtruncate (size : ℕ) :
    (handleFtruncate size).Keeps ReadsNothing fun _ _ => True := by
  refine Prog.Keeps.call trivial fun r _ => ?_
  split_ifs
  · trivial
  · refine Prog.Keeps.call trivial fun r _ => ?_
    split_ifs
    · exact keeps_mark
    · trivial

/-- A flag that is not set at the end was not set before. -/
theorem handleFtruncate_runs {a : Unit} (h : (handleFtruncate size).Runs (answer known) s tr t a)
    (ht : t.failed = false) : t.dest = s.dest.resize size ∧ s.failed = false := by
  obtain ⟨x, flag, u, rest, hx, rfl, hopen⟩ := Prog.runs_perform_iff.mp h
  obtain ⟨rfl, rfl⟩ := Prod.mk.inj (Option.some.inj hx)
  cases hset : s.failed with
  | true =>
    rw [hset] at hopen
    obtain ⟨rfl, rfl, -⟩ := Prog.runs_ret_iff.mp hopen
    exact (Bool.false_ne_true (ht.symm.trans hset)).elim
  | false =>
    rw [hset] at hopen
    obtain ⟨y, cut, v, later, hy, rfl, hend⟩ := Prog.runs_perform_iff.mp hopen
    cases cut with
    | error e => exact (Bool.false_ne_true (ht.symm.trans (mark_runs hend))).elim
    | ok n =>
      obtain ⟨rfl, rfl, -⟩ := Prog.runs_ret_iff.mp hend
      exact ⟨by rw [does_ok hy], rfl⟩

theorem fileCommit_runs (h : fileCommit.Runs (answer known) s tr t true) :
    t = s ∧ s.failed = false ∧ Silent tr := by
  obtain ⟨x₁, tr₁, rfl, h₁⟩ := guard_attempt_runs h
  obtain ⟨x₂, flag, u, tr₂, hx₂, rfl, h₂⟩ := Prog.runs_perform_iff.mp h₁
  obtain ⟨rfl, rfl⟩ := Prod.mk.inj (Option.some.inj hx₂)
  cases hset : s.failed with
  | true =>
    rw [hset] at h₂
    cases (Prog.runs_ret_iff.mp h₂).2.2
  | false =>
    rw [hset] at h₂
    obtain ⟨x₃, tr₃, rfl, h₃⟩ := guard_attempt_runs h₂
    obtain ⟨rfl, x₄, rfl⟩ := attempt_runs h₃
    exact ⟨rfl, rfl, by simp [Silent, ReadsNothing]⟩

/-- Nobody had asked to stop. -/
theorem unstopped_runs {k : Action Bool}
    (h : (do
      if ← stopped then return false
      k).Runs (answer known) s tr t true) :
    s.stop = false ∧
      ∃ r rest, tr = ⟨.stopped, r⟩ :: rest ∧ k.Runs (answer known) s rest t true := by
  obtain ⟨x, r, u, rest, hx, rfl, hrest⟩ := Prog.runs_perform_iff.mp h
  simp only [answer, looks] at hx
  split_ifs at hx with hset
  · obtain ⟨rfl, rfl⟩ := Prod.mk.inj (Option.some.inj hx)
    cases (Prog.runs_ret_iff.mp hrest).2.2
  · obtain ⟨rfl, rfl⟩ := Prod.mk.inj (Option.some.inj hx)
    exact ⟨Bool.not_eq_true _ ▸ hset, _, rest, rfl, hrest⟩
  · obtain ⟨rfl, rfl⟩ := Prod.mk.inj (Option.some.inj hx)
    cases (Prog.runs_ret_iff.mp hrest).2.2

theorem streamContent_sparse_runs
    (h : (streamContent cfg size fuel true).Runs (answer known) s tr t true)
    (ht : t.failed = false) :
    ∃ mid back v, tr = mid ++ back ∧ Silent back ∧
      (streamSparse cfg size fuel fuel 0).Runs (answer known) s mid v true ∧ v.Calm ∧
      t.dest = v.dest.resize size := by
  obtain ⟨mid, after, v, rfl, hloop, hrest⟩ := guard_runs h
  obtain ⟨hstop, r, rest, rfl, hcut⟩ := unstopped_runs hrest
  obtain ⟨x, last, rfl, hlast⟩ := guard_attempt_runs hcut
  obtain ⟨cut, done, w, _, rfl, htruncate, hend⟩ := Prog.runs_bind_iff.mp hlast
  obtain ⟨rfl, rfl, -⟩ := Prog.runs_ret_iff.mp hend
  obtain ⟨hdest, hfailed⟩ := handleFtruncate_runs htruncate ht
  have hsilent := Silent.of_keeps (keeps_handleFtruncate size) htruncate
  refine ⟨mid, _, v, rfl, ?_, hloop, ⟨hstop, hfailed⟩, hdest⟩
  simpa [Silent, ReadsNothing] using hsilent

theorem streamContent_dense_runs
    (h : (streamContent cfg size fuel false).Runs (answer known) s tr t true)
    (ht : t.failed = false) :
    ∃ mid back, tr = mid ++ back ∧ Silent back ∧
      (copyBlocks (do return !(← stopped)) (fun _ => cfg.chunkSize) (sendBlock fuel) size fuel
        0).Runs (answer known) s mid t true ∧ t.Calm := by
  obtain ⟨mid, after, v, rfl, hloop, hrest⟩ := guard_runs h
  obtain ⟨hstop, r, rest, rfl, hend⟩ := unstopped_runs hrest
  obtain ⟨rfl, rfl, -⟩ := Prog.runs_ret_iff.mp hend
  exact ⟨mid, _, rfl, by simp [Silent, ReadsNothing], hloop, hstop, ht⟩

theorem copyFileRemote_runs {sparse : Bool}
    (h : (copyFileRemote cfg size fuel sparse).Runs (answer known) .start tr t true) :
    ∃ front mid back u, tr = front ++ (mid ++ back) ∧ Silent front ∧ Silent back ∧
      (u.Calm → u.dest.size ≤ size ∧ ∀ x, u.dest.byte x = none) ∧
      (streamContent cfg size fuel sparse).Runs (answer known) u mid t true ∧ t.failed = false := by
  obtain ⟨x₁, tr₁, rfl, h₁⟩ := guard_attempt_runs h
  obtain ⟨x₂, tr₂, rfl, h₂⟩ := guard_attempt_runs h₁
  obtain ⟨opening, tr₃, u, _, rfl, hopen, h₃⟩ := Prog.runs_bind_iff.mp h₂
  obtain ⟨x₄, tr₄, rfl, h₄⟩ := guard_attempt_runs h₃
  obtain ⟨mid, back, v, rfl, hstream, hcommit⟩ := guard_runs h₄
  obtain ⟨rfl, hfailed, hback⟩ := fileCommit_runs hcommit
  have hsilent := Silent.of_keeps (keeps_handleOpen size sparse) hopen
  have hfirst : Silent [⟨.step, x₁⟩, ⟨.step, x₂⟩] := by simp [Silent, ReadsNothing]
  have hlast : Silent [⟨.step, x₄⟩] := by simp [Silent, ReadsNothing]
  exact ⟨_, mid, back, u, by simp, hfirst.append (hsilent.append hlast), hback,
    handleOpen_runs hopen, hstream, hfailed⟩

theorem copyFileRemote_sparse_whole_iff
    (h : (copyFileRemote cfg size fuel true).Runs (answer known) .start tr t true) :
    Whole size (Data tr) t.dest ↔ tr.any early = false := by
  obtain ⟨front, content, back, u, htr, hfront, hback, hopen, hcontent, hfailed⟩ :=
    copyFileRemote_runs h
  obtain ⟨mid, last, v, rfl, hlast, hloop, hcalm, hdest⟩ :=
    streamContent_sparse_runs hcontent hfailed
  rw [List.append_assoc] at htr
  obtain ⟨hdata, hearly⟩ := framed front mid (last ++ back) htr hfront (hlast.append hback)
  rw [hdest, hdata, hearly]
  exact (streamSparse_runs hloop hcalm).whole_iff (hopen (calm_of_runs hloop hcalm)).2

theorem copyFileRemote_dense_whole_iff
    (h : (copyFileRemote cfg size fuel false).Runs (answer known) .start tr t true) :
    Whole size (fun _ => True) t.dest ↔ tr.any early = false ∧ tr.any (beyond size) = false := by
  obtain ⟨front, content, back, u, htr, hfront, hback, hopen, hcontent, hfailed⟩ :=
    copyFileRemote_runs h
  obtain ⟨mid, last, rfl, hlast, hloop, hcalm⟩ := streamContent_dense_runs hcontent hfailed
  obtain ⟨hsize, hnew⟩ := hopen (calm_of_runs hloop hcalm)
  obtain ⟨reach, -, hdest, hearly, hbeyond, -⟩ := copyBlocks_runs (Looks.running known)
    (Hands.sendBlock known fuel) (Nat.zero_le _) hloop fun _ => hcalm
  have hafter := hlast.append hback
  rw [List.append_assoc] at htr
  obtain ⟨-, hquiet⟩ := framed front mid (last ++ back) htr hfront hafter
  have hnear : tr.any (beyond size) = mid.any (beyond size) := by
    rw [htr, List.any_append, List.any_append, hfront.beyond, hafter.beyond, Bool.or_false,
      Bool.false_or]
  rw [hdest, filled_whole_iff hsize hnew, hquiet, hnear, ← Bool.not_eq_true, ← Bool.not_eq_true,
    hearly, hbeyond]
  omega

end Streams

end Ecopy.Transfer
