import Ecopy.Transfer.Copies

/-!
# How far the blocks of a copy go

The loop over the bulk of a dense file takes a short read for an error. The loops that read
blocks with `pread` take a read of nothing for the end of their work: a file that became
shorter is copied with success, and its end is missing. The loop that feeds a server asks for
whole chunks, so that a file that became longer is copied beyond its recorded size.
-/
namespace Ecopy.Transfer
open Lib.Calls
open Workers.SmallCopy (Tuning RangeResult alignment)

/-- A read that met the end of the source. -/
def early : Event → Bool
  | ⟨.pread _ _, (r : Except Fault ℕ)⟩ => r.toOption == some 0
  | _ => false

/-- A read that went on behind the size. -/
def beyond (size : ℕ) : Event → Bool
  | ⟨.pread pos _, (r : Except Fault ℕ)⟩ => r.toOption.any fun n => size < pos + n
  | _ => false

/-- A call that learns nothing about the source. -/
def ReadsNothing : Call → Prop
  | .read _ | .pread _ _ | .copyFileRange _ _ | .seekData _ | .seekHole _ => False
  | _ => True

def Silent (tr : List Event) : Prop := ∀ e ∈ tr, ReadsNothing e.1

theorem Silent.append {tr tr' : List Event} (h : Silent tr) (h' : Silent tr') :
    Silent (tr ++ tr') :=
  List.forall_mem_append.mpr ⟨h, h'⟩

/-- Such calls count for nothing that is said about reads. -/
theorem Silent.any_eq {tr : List Event} (h : Silent tr) {f : Event → Bool}
    (hf : ∀ e : Event, ReadsNothing e.1 → f e = false) : tr.any f = false := by
  rw [List.any_eq_false]
  intro e he
  rw [hf e (h e he)]
  exact Bool.false_ne_true

theorem Silent.early {tr : List Event} (h : Silent tr) : tr.any early = false := by
  refine h.any_eq ?_
  rintro ⟨c, r⟩ hc
  cases c with
  | pread => exact hc.elim
  | _ => rfl

theorem Silent.beyond {tr : List Event} (h : Silent tr) (size : ℕ) :
    tr.any (beyond size) = false := by
  refine h.any_eq ?_
  rintro ⟨c, r⟩ hc
  cases c with
  | pread => exact hc.elim
  | _ => rfl

namespace Dest
variable (d : Dest)

theorem resize_byte {size x : ℕ} (h : x < size) : (d.resize size).byte x = d.byte x := if_pos h

theorem put_put (pos src n m : ℕ) :
    (d.put pos src n).put (pos + n) (src + n) m = d.put pos src (n + m) := by
  unfold put
  congr 1
  · dsimp only
    split_ifs <;> omega
  · funext x
    dsimp only
    split_ifs <;> first | omega | rfl | (congr 1; omega)

@[simp] theorem put_zero (pos src : ℕ) : d.put pos src 0 = d := by
  unfold put
  congr 1
  funext x
  rw [if_neg (by omega)]

theorem fill_add (pos n : ℕ) : d.fill pos (pos + n) = d.put pos pos n := by
  rw [fill, Nat.add_sub_cancel_left]

theorem fill_fill {a b c : ℕ} (hab : a ≤ b) (hbc : b ≤ c) : (d.fill a b).fill b c = d.fill a c := by
  have h := d.put_put a a (b - a) (c - b)
  rw [show a + (b - a) = b by omega, show b - a + (c - b) = c - a by omega] at h
  exact h

theorem fill_self (a : ℕ) : d.fill a a = d := by
  rw [fill, Nat.sub_self, put_zero]

theorem fill_byte (a b x : ℕ) :
    (d.fill a b).byte x = if a ≤ x ∧ x < b then some x else d.byte x := by
  simp only [fill, put]
  split_ifs <;> first | omega | rfl | (congr 1; omega)

theorem fill_size {a b : ℕ} (hab : a ≤ b) :
    (d.fill a b).size = if a = b then d.size else max d.size b := by
  simp only [fill, put]
  split_ifs <;> omega

theorem fill_zero_size (b : ℕ) : (d.fill 0 b).size = max d.size b := by
  rw [fill_size d (Nat.zero_le b)]
  split_ifs with hnone
  · rw [← hnone, Nat.max_zero]
  · rfl

end Dest

/-- The bytes that were read fill the start of the file, which had no bytes before. -/
theorem filled_whole_iff {d : Dest} {size reach : ℕ} (hsize : d.size ≤ size)
    (hnew : ∀ x, d.byte x = none) :
    Whole size (fun _ => True) (d.fill 0 reach) ↔ reach = size := by
  have hend := d.fill_size (Nat.zero_le reach)
  constructor
  · rintro ⟨hlen, hwhole⟩
    have hlow : ¬reach < size := by
      intro hlt
      have hbyte := hwhole reach hlt trivial
      rw [Dest.fill_byte, if_neg (by omega), hnew] at hbyte
      cases hbyte
    rw [hlen] at hend
    split_ifs at hend <;> omega
  · rintro rfl
    refine ⟨?_, fun x hx _ => ?_⟩
    · rw [hend]
      split_ifs <;> omega
    · rw [Dest.fill_byte, if_pos ⟨Nat.zero_le x, hx⟩]

/-- Nobody asked to stop, and the server met no failure. -/
def World.Calm (w : World) : Prop := w.stop = false ∧ w.failed = false

section Loops
variable {known : Bool} {s t u : World} {tr : List Event} {fuel : ℕ} {x r : Except Fault ℕ}

theorem moves_ok {len n : ℕ} {next : ℕ → World} (h : moves s x len next = some (.ok n, u)) :
    n ≤ len ∧ u = next n := by
  cases x with
  | error e => cases h
  | ok m =>
    simp only [moves] at h
    split_ifs at h with hle
    obtain ⟨heq, rfl⟩ := Prod.mk.inj (Option.some.inj h)
    obtain rfl := Except.ok.inj heq
    exact ⟨hle, rfl⟩

theorem moves_error {len : ℕ} {next : ℕ → World} {e : Fault}
    (h : moves s x len next = some (.error e, u)) : u = s := by
  cases x with
  | error e => exact (Prod.mk.inj (Option.some.inj h)).2.symm
  | ok m =>
    simp only [moves] at h
    split_ifs at h
    cases (Prod.mk.inj (Option.some.inj h)).1

theorem does_ok {n : ℕ} {next : World} (h : does s x next = some (.ok n, u)) : u = next := by
  cases x with
  | error e => cases (Prod.mk.inj (Option.some.inj h)).1
  | ok m => exact (Prod.mk.inj (Option.some.inj h)).2.symm

theorem does_error {e : Fault} {next : World} (h : does s x next = some (.error e, u)) : u = s := by
  cases x with
  | error e => exact (Prod.mk.inj (Option.some.inj h)).2.symm
  | ok m => cases (Prod.mk.inj (Option.some.inj h)).1

/-- Where a seek ends, and what a refusal says about the file system. -/
theorem seeks_same {pos : ℕ} (h : seeks s x known pos = some (r, u)) :
    u = s ∧ (∀ n, r = .ok n → pos ≤ n ∧ known = true) ∧
      ∀ e, r = .error e → noSeek e = !known := by
  cases x with
  | error e =>
    simp only [seeks] at h
    split_ifs at h with hknown
    obtain ⟨rfl, rfl⟩ := Prod.mk.inj (Option.some.inj h)
    refine ⟨rfl, nofun, ?_⟩
    rintro _ ⟨⟩
    exact Bool.eq_not_of_ne hknown
  | ok n =>
    simp only [seeks] at h
    split_ifs at h with hgo
    obtain ⟨rfl, rfl⟩ := Prod.mk.inj (Option.some.inj h)
    refine ⟨rfl, ?_, nofun⟩
    rintro _ ⟨⟩
    exact ⟨hgo.2, hgo.1⟩

/-- The flags are never taken back. -/
theorem calm_of_answer {c : Call} (h : answer known s x c = some (r, u)) (hu : u.Calm) :
    s.Calm := by
  have hmoves : ∀ {len : ℕ} {next : ℕ → World}, moves s x len next = some (r, u) →
      (∀ n, (next n).Calm → s.Calm) → s.Calm := by
    intro len next hm hnext
    cases r with
    | error e =>
      rw [← moves_error hm]
      exact hu
    | ok n =>
      obtain ⟨-, rfl⟩ := moves_ok hm
      exact hnext n hu
  have hdoes : ∀ {next : World}, does s x next = some (r, u) → (next.Calm → s.Calm) → s.Calm := by
    intro next hd hnext
    cases r with
    | error e =>
      rw [← does_error hd]
      exact hu
    | ok n =>
      obtain rfl := does_ok hd
      exact hnext hu
  cases c with
  | read | write | pread | pwrite | copyFileRange => exact hmoves h fun _ => id
  | seekData | seekHole =>
    rw [← (seeks_same h).1]
    exact hu
  | ftruncate | fallocate | step => exact hdoes h id
  | fail =>
    obtain ⟨-, rfl⟩ := Prod.mk.inj (Option.some.inj h)
    cases hu.2
  | failed =>
    obtain ⟨-, rfl⟩ := Prod.mk.inj (Option.some.inj h)
    exact hu
  | stopped =>
    simp only [answer, looks] at h
    split_ifs at h
    · obtain ⟨-, rfl⟩ := Prod.mk.inj (Option.some.inj h)
      exact hu
    · obtain ⟨-, rfl⟩ := Prod.mk.inj (Option.some.inj h)
      exact hu
    · obtain ⟨-, rfl⟩ := Prod.mk.inj (Option.some.inj h)
      cases hu.1

theorem calm_of_runs {α : Type} {m : Action α} {a : α} (h : m.Runs (answer known) s tr t a)
    (ht : t.Calm) : s.Calm := by
  induction h with
  | ret => exact ht
  | call x hx _ ih => exact calm_of_answer hx (ih ht)

/-- A step changes nothing. -/
theorem step_same (h : answer known s x .step = some (r, u)) : u = s := by
  cases r with
  | error e => exact does_error h
  | ok n => exact does_ok h

theorem attempt_runs {b : Bool} (h : attempt.Runs (answer known) s tr t b) :
    t = s ∧ ∃ x, tr = [⟨.step, x⟩] := by
  obtain ⟨x, r, u, rest, hx, rfl, hrun⟩ := Prog.runs_perform_iff.mp h
  obtain ⟨rfl, rfl, -⟩ := Prog.runs_ret_iff.mp hrun
  exact ⟨step_same hx, r, rfl⟩

/-- A step that has to succeed, and the rest of a program that succeeded. -/
theorem guard_runs {m k : Action Bool}
    (h : (do
      if !(← m) then return false
      k).Runs (answer known) s tr t true) :
    ∃ before after u, tr = before ++ after ∧ m.Runs (answer known) s before u true ∧
      k.Runs (answer known) u after t true := by
  obtain ⟨before, after, u, b, rfl, hm, hrest⟩ := Prog.runs_bind_iff.mp h
  cases b with
  | false => cases (Prog.runs_ret_iff.mp hrest).2.2
  | true => exact ⟨before, after, u, rfl, hm, hrest⟩

theorem guard_attempt_runs {k : Action Bool}
    (h : (do
      if !(← attempt) then return false
      k).Runs (answer known) s tr t true) :
    ∃ x rest, tr = ⟨.step, x⟩ :: rest ∧ k.Runs (answer known) s rest t true := by
  obtain ⟨before, rest, u, rfl, hattempt, hrest⟩ := guard_runs h
  obtain ⟨rfl, x, rfl⟩ := attempt_runs hattempt
  exact ⟨x, rest, rfl, hrest⟩

/-- The flag of the server's open file is set. -/
theorem mark_runs {a : Unit}
    (h : (do let _ ← Prog.perform .fail : Action Unit).Runs (answer known) s tr t a) :
    t.failed = true := by
  obtain ⟨x, r, u, rest, hx, -, hrun⟩ := Prog.runs_perform_iff.mp h
  obtain ⟨-, rfl⟩ := Prod.mk.inj (Option.some.inj hx)
  obtain ⟨-, rfl, -⟩ := Prog.runs_ret_iff.mp hrun
  rfl

theorem pwriteAll_runs {pos src len : ℕ}
    (h : (pwriteAll fuel pos src len).Runs (answer known) s tr t true) :
    t = { s with dest := s.dest.put pos src len } := by
  induction fuel generalizing s tr pos src len with
  | zero => cases (Prog.runs_ret_iff.mp h).2.2
  | succ fuel ih =>
    unfold pwriteAll at h
    split at h
    · rename_i hlen
      obtain ⟨-, rfl, -⟩ := Prog.runs_ret_iff.mp h
      rw [hlen, Dest.put_zero]
    obtain ⟨x, written, u, rest, hx, rfl, hrun⟩ := Prog.runs_perform_iff.mp h
    cases written with
    | error e => cases (Prog.runs_ret_iff.mp hrun).2.2
    | ok n =>
      obtain ⟨hn, rfl⟩ := moves_ok hx
      rw [ih hrun, Dest.put_put, Nat.add_sub_cancel' hn]

theorem writeAll_runs {src len : ℕ} (h : (writeAll fuel src len).Runs (answer known) s tr t true) :
    t = { s with dest := s.dest.put s.outAt src len, outAt := s.outAt + len } := by
  induction fuel generalizing s tr src len with
  | zero => cases (Prog.runs_ret_iff.mp h).2.2
  | succ fuel ih =>
    unfold writeAll at h
    split at h
    · rename_i hlen
      obtain ⟨-, rfl, -⟩ := Prog.runs_ret_iff.mp h
      rw [hlen, Dest.put_zero, Nat.add_zero]
    obtain ⟨x, written, u, rest, hx, rfl, hrun⟩ := Prog.runs_perform_iff.mp h
    cases written with
    | error e => cases (Prog.runs_ret_iff.mp hrun).2.2
    | ok n =>
      obtain ⟨hn, rfl⟩ := moves_ok hx
      rw [ih hrun, Dest.put_put, Nat.add_assoc, Nat.add_sub_cancel' hn]

/-- A server that has not noticed a failure has written the frame. -/
theorem pwriteServer_runs {direct : Bool} {pos len done : ℕ} {a : Unit}
    (h : (pwriteServer fuel direct pos len done).Runs (answer known) s tr t a)
    (hfailed : t.failed = false) (hdone : done ≤ len) :
    t.dest = s.dest.put (pos + done) (pos + done) (len - done) := by
  have hfail : ∀ {s : World} {tr : List Event},
      ¬(do let _ ← Prog.perform Call.fail : Action Unit).Runs (answer known) s tr t a := by
    intro s tr hrun
    rw [mark_runs hrun] at hfailed
    cases hfailed
  induction fuel generalizing s tr direct done with
  | zero => exact (hfail h).elim
  | succ fuel ih =>
    unfold pwriteServer at h
    split at h
    · rename_i hend
      obtain ⟨-, rfl, -⟩ := Prog.runs_ret_iff.mp h
      rw [Nat.sub_eq_zero_of_le hend, Dest.put_zero]
    obtain ⟨x, written, u, rest, hx, rfl, hrun⟩ := Prog.runs_perform_iff.mp h
    cases written with
    | error e =>
      obtain rfl := moves_error hx
      dsimp only at hrun
      split_ifs at hrun with hintr hdirect
      · exact ih hrun hdone
      · rw [ih hrun (Nat.zero_le _), hdirect.2.2]
      · exact (hfail hrun).elim
    | ok n =>
      obtain ⟨hn, rfl⟩ := moves_ok hx
      dsimp only at hrun
      split_ifs at hrun with hzero
      · exact (hfail hrun).elim
      · rw [ih hrun (by omega), ← Nat.add_assoc, Dest.put_put]
        congr 1
        omega

/-- A step that hands a block on. The flags matter on the way to a server only. -/
structure Hands (known : Bool) (remote : Prop) (pass : (pos len : ℕ) → Action Bool) : Prop where
  written : ∀ {pos len : ℕ} {s t : World} {tr : List Event},
    (pass pos len).Runs (answer known) s tr t true → (remote → t.Calm) →
      t.dest = s.dest.fill pos (pos + len)
  silent : ∀ pos len, (pass pos len).Keeps ReadsNothing fun _ _ => True

/-- What is looked at before a block. -/
structure Looks (known : Bool) (remote : Prop) (more : Action Bool) : Prop where
  same : ∀ {s t : World} {tr : List Event} {b : Bool}, more.Runs (answer known) s tr t b →
    t.dest = s.dest ∧ ((remote → t.Calm) → b = true)
  silent : more.Keeps ReadsNothing fun _ _ => True

theorem Silent.of_keeps {α : Type} {m : Action α} {a : α}
    (hm : m.Keeps ReadsNothing fun _ _ => True) (h : m.Runs (answer known) s tr t a) : Silent tr :=
  (hm.calls h).1

theorem keeps_attempt : attempt.Keeps ReadsNothing fun _ _ => True :=
  Prog.Keeps.call trivial fun _ _ => trivial

theorem keeps_mark :
    (do let _ ← Prog.perform .fail : Action Unit).Keeps ReadsNothing fun _ _ => True :=
  Prog.Keeps.call trivial fun _ _ => trivial

theorem keeps_pwriteAll (fuel pos src len : ℕ) :
    (pwriteAll fuel pos src len).Keeps ReadsNothing fun _ _ => True := by
  induction fuel generalizing pos src len with
  | zero => trivial
  | succ fuel ih =>
    unfold pwriteAll
    split
    · trivial
    · refine Prog.Keeps.call trivial fun r _ => ?_
      cases r with
      | error e => trivial
      | ok n => exact ih _ _ _

theorem keeps_copyBlocks {ok : Call → Prop} {more : Action Bool} {asked : ℕ → ℕ}
    {pass : (pos len : ℕ) → Action Bool} (hread : ∀ pos len, ok (.pread pos len))
    (hmore : more.Keeps ok fun _ _ => True)
    (hpass : ∀ pos len, (pass pos len).Keeps ok fun _ _ => True) (stop fuel pos : ℕ) :
    (copyBlocks more asked pass stop fuel pos).Keeps ok fun _ _ => True := by
  induction fuel generalizing pos with
  | zero => trivial
  | succ fuel ih =>
    unfold copyBlocks
    split
    · trivial
    · refine Prog.Keeps.bind hmore fun b => ?_
      split
      · trivial
      · refine Prog.Keeps.call (hread _ _) fun r _ => ?_
        cases r with
        | error e => trivial
        | ok n =>
          dsimp only
          split
          · trivial
          · refine Prog.Keeps.bind (hpass _ _) fun b => ?_
            split
            · trivial
            · exact ih _

theorem keeps_pwriteServer (fuel : ℕ) (direct : Bool) (pos len done : ℕ) :
    (pwriteServer fuel direct pos len done).Keeps ReadsNothing fun _ _ => True := by
  induction fuel generalizing direct done with
  | zero => exact keeps_mark
  | succ fuel ih =>
    unfold pwriteServer
    split
    · trivial
    · refine Prog.Keeps.call trivial fun r _ => ?_
      cases r with
      | error e =>
        dsimp only
        split_ifs
        · exact ih _ _
        · exact ih _ _
        · exact keeps_mark
      | ok n =>
        dsimp only
        split_ifs
        · exact keeps_mark
        · exact ih _ _

theorem Hands.writeBlock (known : Bool) (fuel : ℕ) : Hands known False (writeBlock fuel) where
  written := by
    intro pos len s t tr h _
    rw [pwriteAll_runs h, Dest.fill_add]
  silent := fun pos len => keeps_pwriteAll fuel pos pos len

theorem Hands.sendBlock (known : Bool) (fuel : ℕ) : Hands known True (sendBlock fuel) where
  written := by
    intro pos len s t tr h hcalm
    have ht := hcalm trivial
    obtain ⟨x, rest, rfl, hframe⟩ := guard_attempt_runs h
    obtain ⟨before, after, u, _, rfl, hwrite, hend⟩ := Prog.runs_bind_iff.mp hframe
    obtain ⟨rfl, rfl, -⟩ := Prog.runs_ret_iff.mp hend
    obtain ⟨y, flag, v, later, hy, rfl, hopen⟩ := Prog.runs_perform_iff.mp hwrite
    obtain ⟨rfl, rfl⟩ := Prod.mk.inj (Option.some.inj hy)
    rw [(calm_of_runs hopen ht).2] at hopen
    obtain ⟨first, last, w, direct, rfl, hdirect, hloop⟩ := Prog.runs_bind_iff.mp hopen
    obtain ⟨rfl, -⟩ := attempt_runs hdirect
    have hdest := pwriteServer_runs hloop ht.2 (Nat.zero_le _)
    rw [hdest, Dest.fill_add]
    rfl
  silent := by
    intro pos len
    refine Prog.Keeps.bind keeps_attempt fun b => ?_
    split
    · trivial
    · refine Prog.Keeps.bind ?_ fun _ => trivial
      refine Prog.Keeps.call trivial fun r _ => ?_
      split
      · trivial
      · exact Prog.Keeps.bind keeps_attempt fun direct => keeps_pwriteServer _ _ _ _ _

theorem Looks.always (known : Bool) (remote : Prop) : Looks known remote (return true) where
  same := by
    intro s t tr b h
    obtain ⟨-, rfl, rfl⟩ := Prog.runs_ret_iff.mp h
    exact ⟨rfl, fun _ => rfl⟩
  silent := trivial

/-- Who sees no request has left everything as it was. -/
theorem stopped_runs {b : Bool} (h : stopped.Runs (answer known) s tr t b) :
    t.dest = s.dest ∧ (t.Calm → b = false) := by
  obtain ⟨x, r, u, rest, hx, rfl, hrun⟩ := Prog.runs_perform_iff.mp h
  obtain ⟨rfl, rfl, rfl⟩ := Prog.runs_ret_iff.mp hrun
  simp only [answer, looks] at hx
  split_ifs at hx with hset
  · obtain ⟨rfl, rfl⟩ := Prod.mk.inj (Option.some.inj hx)
    exact ⟨rfl, fun ht => (Bool.false_ne_true (ht.1.symm.trans hset)).elim⟩
  · obtain ⟨rfl, rfl⟩ := Prod.mk.inj (Option.some.inj hx)
    exact ⟨rfl, fun _ => rfl⟩
  · obtain ⟨rfl, rfl⟩ := Prod.mk.inj (Option.some.inj hx)
    exact ⟨rfl, fun ht => (nomatch ht.1)⟩

theorem keeps_stopped : stopped.Keeps ReadsNothing fun _ _ => True :=
  Prog.Keeps.call trivial fun _ _ => trivial

theorem Looks.running (known : Bool) : Looks known True (do return !(← stopped)) where
  same := by
    intro s t tr b h
    obtain ⟨before, after, u, c, rfl, hlook, hend⟩ := Prog.runs_bind_iff.mp h
    obtain ⟨-, rfl, rfl⟩ := Prog.runs_ret_iff.mp hend
    obtain ⟨hdest, hno⟩ := stopped_runs hlook
    refine ⟨hdest, fun hcalm => ?_⟩
    rw [hno (hcalm trivial)]
    rfl
  silent := Prog.Keeps.bind keeps_stopped fun _ => trivial

/-- How far the blocks went, and how the log tells it. -/
structure Reached (d : Dest) (asked : ℕ → ℕ) (stop pos : ℕ) (tr : List Event) (d' : Dest)
    (reach : ℕ) : Prop where
  le : pos ≤ reach
  dest : d' = d.fill pos reach
  early : tr.any early = true ↔ reach < stop
  beyond : tr.any (beyond stop) = true ↔ stop < reach
  within : reach ≤ stop ∨ ∃ p < stop, reach ≤ p + asked p

theorem copyBlocks_runs {remote : Prop} {more : Action Bool} {asked : ℕ → ℕ}
    {pass : (pos len : ℕ) → Action Bool} {stop pos : ℕ} (hmore : Looks known remote more)
    (hpass : Hands known remote pass) (hpos : pos ≤ stop)
    (h : (copyBlocks more asked pass stop fuel pos).Runs (answer known) s tr t true)
    (hcalm : remote → t.Calm) :
    ∃ reach, Reached s.dest asked stop pos tr t.dest reach := by
  suffices hgen : ∀ {fuel pos : ℕ} {s : World} {tr : List Event}, pos < stop →
      (copyBlocks more asked pass stop fuel pos).Runs (answer known) s tr t true →
      ∃ reach, Reached s.dest asked stop pos tr t.dest reach by
    rcases Nat.lt_or_eq_of_le hpos with hlt | rfl
    · exact hgen hlt h
    · cases fuel with
      | zero => cases (Prog.runs_ret_iff.mp h).2.2
      | succ fuel =>
        rw [copyBlocks, if_pos le_rfl] at h
        obtain ⟨rfl, rfl, -⟩ := Prog.runs_ret_iff.mp h
        exact ⟨pos, le_rfl, (Dest.fill_self _ _).symm, by simp, by simp, .inl le_rfl⟩
  intro fuel
  induction fuel with
  | zero =>
    intro pos s tr _ h
    cases (Prog.runs_ret_iff.mp h).2.2
  | succ fuel ih =>
  intro pos s tr hpos h
  rw [copyBlocks, if_neg (by omega)] at h
  obtain ⟨before, after, u, b, rfl, hlook, hblock⟩ := Prog.runs_bind_iff.mp h
  obtain ⟨hdest, hyes⟩ := hmore.same hlook
  obtain rfl := hyes fun hr => calm_of_runs hblock (hcalm hr)
  rw [Bool.not_true, if_neg Bool.false_ne_true] at hblock
  have hsilent := Silent.of_keeps hmore.silent hlook
  have hquiet := hsilent.early
  have hnear := hsilent.beyond stop
  obtain ⟨x, bytes, v, rest, hx, rfl, hrun⟩ := Prog.runs_perform_iff.mp hblock
  cases bytes with
  | error e => cases (Prog.runs_ret_iff.mp hrun).2.2
  | ok n =>
  obtain ⟨hn, rfl⟩ := moves_ok hx
  dsimp only at hrun
  split_ifs at hrun with hzero
  · obtain ⟨rfl, rfl, -⟩ := Prog.runs_ret_iff.mp hrun
    refine ⟨pos, le_rfl, ?_, ?_, ?_, .inl hpos.le⟩
    · rw [Dest.fill_self, hdest]
    · simp [hquiet, early, hzero, Except.toOption, hpos]
    · simp [hnear, beyond, hzero, Except.toOption]
  obtain ⟨mid, last, z, done, rfl, hhand, hend⟩ := Prog.runs_bind_iff.mp hrun
  cases done with
  | false => cases (Prog.runs_ret_iff.mp hend).2.2
  | true =>
  have hwritten := hpass.written hhand fun hr => calm_of_runs hend (hcalm hr)
  have hpassed := Silent.of_keeps (hpass.silent _ _) hhand
  have hmid := hpassed.early
  have hfar := hpassed.beyond stop
  by_cases hlt : pos + n < stop
  · obtain ⟨reach, hreach⟩ := ih hlt hend
    have hle := hreach.le
    refine ⟨reach, by omega, ?_, ?_, ?_, hreach.within⟩
    · rw [hreach.dest, hwritten, hdest, Dest.fill_fill _ (Nat.le_add_right _ _) hle]
    · simp [hquiet, hmid, early, hzero, Except.toOption, hreach.early]
    · simp [hnear, hfar, beyond, Except.toOption, hreach.beyond, hlt.not_gt]
  · have hover : stop ≤ pos + n := by omega
    cases fuel with
    | zero => cases (Prog.runs_ret_iff.mp hend).2.2
    | succ fuel =>
      rw [copyBlocks, if_pos hover] at hend
      obtain ⟨rfl, rfl, -⟩ := Prog.runs_ret_iff.mp hend
      refine ⟨pos + n, by omega, ?_, ?_, ?_, .inr ⟨pos, hpos, by omega⟩⟩
      · rw [hwritten, hdest]
      · simp [hquiet, hmid, early, hzero, Except.toOption, hover]
      · simp [hnear, hfar, beyond, Except.toOption]

end Loops

end Ecopy.Transfer
