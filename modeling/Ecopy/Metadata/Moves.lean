import Ecopy.Metadata.PutMode
import Ecopy.Workers.CallsMade
import Ecopy.Workers.OtherCopies

/-!
# Calls that leave a mode alone

Reading files changes nothing, and moving data takes away set-id bits at most. This stage
sorts the programs of a local copy by the calls they make; it says nothing about the bytes.
-/
namespace Ecopy.Metadata
open Protocol Ecopy.Path FileSystem Server Lib.Calls
open Workers.SmallCopy Workers.OtherCopies Workers.Events Workers.CallsMade

/-- Something was written to the object `i`. -/
def wrote (i : ℕ) : Event → Bool
  | ⟨.pwrite fd _ data, (r : Except (Errno × ℕ) Unit)⟩ => fd.ino == i && written data r != 0
  | _ => false

def chmodded : Event → Bool
  | ⟨.fchmod _ _, (r : Except Errno Unit)⟩ => r.isOk
  | _ => false

/-- The events after which the object `i` has no set-id bits. -/
def losesIds (who : Identity) (i : ℕ) (tr : List Event) : Bool :=
  (who.euid != 0 && tr.any (wrote i)) || tr.any chowned

/-- The calls that look up files and change nothing. -/
def Looks : Call → Prop
  | .openFile _ flags _ => flags.create = false ∧ flags.trunc = false
  | .fstat _ | .lstat _ | .stat _ | .close _ | .attempt => True
  | _ => False

/-- Those, and the calls that move data. -/
def Moves : Call → Prop
  | .pread _ _ _ | .pwrite _ _ _ | .ftruncate _ _ | .fallocate _ _ => True
  | c => Looks c

/-- Data is moved to one descriptor only. -/
def MovesTo (fd : Fd) : Call → Prop
  | .pwrite out _ _ | .ftruncate out _ | .fallocate out _ => out = fd
  | c => Moves c

section Data
variable {who : Identity} {w v u : World} {x : Choice} {tr : List Event} {i : ℕ}

theorem moded_modifyData {fd : Fd} {f : Bytes → Bytes} (hv : v.fs = w.fs.modifyData fd.ino f) (i : ℕ) :
    Moded w v i (w.fs.node i).mode := by
  unfold Fs.modifyData at hv
  split at hv
  · rename_i data hk
    by_cases hi : i = fd.ino
    · subst hi
      exact moded_setNode hv (by simp [Node.isDir, hk]) rfl
    · constructor
      · rw [hv]
        rfl
      · rw [hv]
        simp [Fs.setNode, Function.update_of_ne hi]
      · rw [hv]
        simp [Fs.setNode, Function.update_of_ne hi]
  · constructor
    · rw [hv]
    · rw [hv]
    · rw [hv]

theorem moded_same (hv : v.fs = w.fs) (i : ℕ) : Moded w v i (w.fs.node i).mode := by
  constructor
  · rw [hv]
  · rw [hv]
  · rw [hv]

theorem openFile_looks {p : Bytes} {flags : Fs.OpenFlags} {mode : UInt32} {r : Except Errno Fd}
    (hc : flags.create = false ∧ flags.trunc = false)
    (h : answerIds who w x (.openFile p flags mode) = some (r, v)) : v.fs = w.fs := by
  rcases answer_openFile h with ⟨e, -, rfl⟩ | ⟨j, fs, -, -, -, hopen, rfl⟩
  · rfl
  obtain ⟨-, ⟨-, hyes, -⟩ | ⟨-, -, ⟨data, -, rfl⟩ | ⟨-, -, rfl⟩⟩⟩ := Fs.openFile_eq_ok hopen
  · rw [hc.1] at hyes
    cases hyes
  · simp [hc.2]
  · rfl

theorem pwrite_other {fd : Fd} {off : ℤ} {data : Bytes} {r : Except (Errno × ℕ) Unit}
    (hi : fd.ino ≠ i) (h : answerIds who w x (.pwrite fd off data) = some (r, v)) :
    Moded w v i (w.fs.node i).mode := by
  obtain ⟨u, hanswer, hv⟩ := exists_drop (by simp) h
  have hu : Moded w u i (w.fs.node i).mode := by
    rcases answer_pwrite hanswer with ⟨e, -, rfl⟩ | ⟨e, n, -, rfl⟩ | ⟨-, -, rfl⟩
    · exact .refl _ _
    · exact moded_modifyData rfl i
    · exact moded_modifyData rfl i
  rcases hv with rfl | ⟨j, rfl, rfl⟩
  · exact hu
  · exact ⟨(dropIds_entry _ _).trans hu.entry, by rw [dropIds_other hi.symm]; exact hu.isDir,
      by rw [dropIds_other hi.symm]; exact hu.mode⟩

theorem losesIds_append (tr tr' : List Event) :
    losesIds who i (tr ++ tr') = (losesIds who i tr || losesIds who i tr') := by
  simp only [losesIds, List.any_append, Bool.and_or_distrib_left]
  generalize (who.euid != 0 && tr.any (wrote i)) = a
  generalize (who.euid != 0 && tr'.any (wrote i)) = b
  cases a <;> cases b <;> simp

theorem answerIds_looks {c : Call} {r : c.Result} (hc : Looks c)
    (h : answerIds who w x c = some (r, v)) : v.fs = w.fs := by
  cases c with
  | openFile p flags mode => exact openFile_looks hc h
  | fstat | lstat | stat | close => rw [query_eq (Option.some.inj h)]
  | attempt =>
    obtain ⟨-, rfl⟩ := Prod.mk.inj (Option.some.inj h)
    rfl
  | _ => exact hc.elim

/-- Looking at files changes nothing. -/
theorem looked {α : Type} {m : Handler α} {a : α} (hm : m.Keeps Looks fun _ _ => True)
    (h : m.Runs (answerIds who) w tr v a) :
    v.fs = w.fs ∧ losesIds who i tr = false ∧ tr.any chmodded = false := by
  induction h with
  | ret => exact ⟨rfl, by simp [losesIds], rfl⟩
  | @call c k s t u tr r a x hx _ ih =>
    have hstep := answerIds_looks hm.1 hx
    obtain ⟨hrest, hlost, hchmod⟩ := ih (hm.2 _ trivial)
    have hevent : losesIds who i [⟨c, r⟩] = false ∧ chmodded ⟨c, r⟩ = false := by
      have hc : Looks c := hm.1
      cases c with
      | openFile | fstat | lstat | stat | close | attempt =>
        simp [losesIds, wrote, chowned, chmodded]
      | _ => exact hc.elim
    refine ⟨hrest.trans hstep, ?_, by simp [hevent.2, hchmod]⟩
    rw [← List.singleton_append, losesIds_append, hevent.1, hlost]
    rfl

/-- What one such call does to the mode of an object. -/
theorem answerIds_moves {c : Call} {r : c.Result} (hc : Moves c)
    (h : answerIds who w x c = some (r, v)) (hdir : (w.fs.node i).isDir = false) :
    Moded w v i (afterLoss (losesIds who i [⟨c, r⟩]) (w.fs.node i).mode) ∧
      chowned ⟨c, r⟩ = false ∧ chmodded ⟨c, r⟩ = false := by
  cases c with
  | openFile p flags mode =>
    refine ⟨?_, rfl, rfl⟩
    simpa [losesIds, afterLoss, wrote, chowned] using moded_same (openFile_looks hc h) i
  | fstat | lstat | stat | close | pread =>
    obtain rfl := query_eq (Option.some.inj h)
    refine ⟨?_, rfl, rfl⟩
    simpa [losesIds, afterLoss, wrote, chowned] using Moded.refl v i
  | attempt =>
    obtain ⟨-, rfl⟩ := Prod.mk.inj (Option.some.inj h)
    refine ⟨?_, rfl, rfl⟩
    simpa [losesIds, afterLoss, wrote, chowned] using Moded.refl w i
  | ftruncate fd size =>
    refine ⟨?_, rfl, rfl⟩
    rcases answer_ftruncate (answer_of_plain rfl h) with ⟨e, -, rfl⟩ | ⟨-, -, rfl⟩
    · simpa [losesIds, afterLoss, wrote, chowned] using Moded.refl v i
    · simpa [losesIds, afterLoss, wrote, chowned] using moded_modifyData rfl i
  | fallocate fd size =>
    refine ⟨?_, rfl, rfl⟩
    rcases answer_fallocate (answer_of_plain rfl h) with ⟨e, -, rfl⟩ | ⟨-, rfl⟩
    · simpa [losesIds, afterLoss, wrote, chowned] using Moded.refl v i
    · simpa [losesIds, afterLoss, wrote, chowned] using moded_modifyData rfl i
  | pwrite fd off data =>
    refine ⟨?_, rfl, rfl⟩
    by_cases hi : fd.ino = i
    · subst hi
      simpa [losesIds, afterLoss, wrote, chowned] using answerIds_pwrite hdir h
    · have hsame : losesIds who i [⟨.pwrite fd off data, r⟩] = false := by
        simp [losesIds, wrote, chowned, hi]
      rw [hsame]
      exact pwrite_other hi h
  | _ => exact hc.elim

/-- What moving data does to the mode of an object. -/
theorem moved {α : Type} {m : Handler α} {a : α} (hm : m.Keeps Moves fun _ _ => True)
    (h : m.Runs (answerIds who) w tr v a) (hdir : (w.fs.node i).isDir = false) :
    Moded w v i (afterLoss (losesIds who i tr) (w.fs.node i).mode) ∧
      tr.any chowned = false ∧ tr.any chmodded = false := by
  induction h with
  | ret => exact ⟨by simpa [losesIds, afterLoss] using Moded.refl _ i, rfl, rfl⟩
  | @call c k s t u tr r a x hx _ ih =>
    obtain ⟨hstep, hchown, hchmod⟩ := answerIds_moves hm.1 hx hdir
    obtain ⟨hrest, hchowns, hchmods⟩ := ih (hm.2 _ trivial) (hstep.isDir.trans hdir)
    refine ⟨?_, by simp [hchown, hchowns], by simp [hchmod, hchmods]⟩
    rw [hstep.mode, afterLoss_afterLoss, ← losesIds_append] at hrest
    exact hstep.trans hrest

end Data

section Programs
variable {cfg : Tuning} {t : Task}

abbrev LooksOnly {α : Type} (m : Handler α) : Prop := m.Keeps Looks fun _ _ => True

abbrev MovesData {α : Type} (m : Handler α) : Prop := m.Keeps Moves fun _ _ => True

theorem Looks.moves {c : Call} (h : Looks c) : Moves c := by
  cases c with
  | pread | pwrite | ftruncate | fallocate => trivial
  | _ => exact h

theorem moves_of_looks {α : Type} {m : Handler α} (h : LooksOnly m) : MovesData m :=
  h.weaken (fun _ => Looks.moves) fun _ _ => id

abbrev MovesDataTo {α : Type} (fd : Fd) (m : Handler α) : Prop :=
  m.Keeps (MovesTo fd) fun _ _ => True

theorem moves_of_movesTo {α : Type} {fd : Fd} {m : Handler α} (h : MovesDataTo fd m) :
    MovesData m := by
  apply h.weaken
  · intro c hc
    cases c with
    | pwrite | ftruncate | fallocate => trivial
    | _ => exact hc
  · exact fun _ _ => id

theorem looks_openReadAtBuffered : LooksOnly (openReadAtBuffered t) :=
  keeps_openReadAtBuffered ⟨rfl, rfl⟩ (fun _ => trivial) fun _ => trivial

theorem looks_openReadAtMaybeDirect : LooksOnly (openReadAtMaybeDirect cfg t) :=
  keeps_openReadAtMaybeDirect ⟨rfl, rfl⟩ trivial (fun _ => trivial) fun _ => trivial

theorem looks_openSource (r : Route) : LooksOnly (r.openSource cfg t) := by
  cases r with
  | small | large => exact looks_openReadAtMaybeDirect
  | sparse => exact looks_openReadAtBuffered

/-- A copy that succeeds has opened both files. -/
theorem opened_of_copy {who : Identity} {w v : World} {tr : List Event} {r : Route}
    {kernel : World → Choice → (c : Call) → Option (c.Result × World)}
    (h : (r.copy who cfg t).Runs kernel w tr v true) :
    ∃ opening making rest u z source target, tr = opening ++ (making ++ rest) ∧
      (r.openSource cfg t).Runs kernel w opening u (some source) ∧
      (r.create who cfg t).Runs kernel u making z (some target) ∧
      (r.finish who cfg t source target).Runs kernel z rest v true := by
  rw [r.copy_eq] at h
  obtain ⟨opening, after, u, opened, rfl, hsource, hrun⟩ := Prog.runs_bind_iff.mp h
  cases opened with
  | none => cases (Prog.runs_ret_iff.mp hrun).2.2
  | some source =>
  obtain ⟨making, rest, z, created, rfl, hcreate, hend⟩ := Prog.runs_bind_iff.mp hrun
  cases created with
  | none =>
    obtain ⟨x, closed, s, last, -, -, hret⟩ := Prog.runs_perform_iff.mp hend
    cases (Prog.runs_ret_iff.mp hret).2.2
  | some target =>
    exact ⟨opening, making, rest, u, z, source, target, rfl, hsource, hcreate, hend⟩

theorem looks_keepTarget (path : Bytes) (direct : Bool) (opened : Except Errno Fd) :
    LooksOnly (keepTarget path direct opened) :=
  keeps_keepTarget trivial (fun _ => trivial) (fun _ => trivial) path direct opened

theorem looks_openTempWriteExisting (path : Bytes) :
    LooksOnly (openTempWriteExistingAtBuffered path) :=
  keeps_openTempWriteExisting trivial (fun _ => trivial) (fun _ => trivial) ⟨rfl, rfl⟩

theorem movesTo_copyTailBufferedFds (fdIn fdOut : Fd) (start stop : ℕ) :
    MovesDataTo fdOut (copyTailBufferedFds fdIn fdOut start stop) :=
  keeps_copyTailBufferedFds (fun _ _ => trivial) (fun _ _ => rfl) start stop

theorem moves_copyTailBufferedAt (path : Bytes) (start stop : ℕ) :
    MovesData (copyTailBufferedAt t path start stop) := by
  unfold copyTailBufferedAt
  split
  · trivial
  refine Prog.Keeps.bind (moves_of_looks looks_openReadAtBuffered) ?_
  intro source
  cases source with
  | none => trivial
  | some source =>
    refine Prog.Keeps.bind (moves_of_looks (looks_openTempWriteExisting path)) ?_
    intro target
    cases target with
    | error e => exact Prog.Keeps.call (c := Call.close _) trivial fun _ _ => trivial
    | ok target =>
      refine Prog.Keeps.bind (moves_of_movesTo (movesTo_copyTailBufferedFds _ _ start stop)) ?_
      intro done
      exact Prog.Keeps.call (c := Call.close _) trivial fun _ _ =>
        Prog.Keeps.call (c := Call.close _) trivial fun _ _ => trivial

theorem movesTo_copyLoop (fdIn fdOut : Fd) (fuel copyEnd pos offset : ℕ) (range bulkDirect : Bool) :
    MovesDataTo fdOut (copyLoop cfg t fdIn fdOut fuel copyEnd pos offset range bulkDirect) :=
  keeps_copyLoop (fun _ _ => trivial) (fun _ _ => rfl) trivial fuel copyEnd pos offset range bulkDirect

theorem movesTo_copyDataExtents (seek : ℕ → Seek) (fdIn fdOut : Fd) (size fuel pos : ℕ) :
    MovesDataTo fdOut (copyDataExtentsBuffered cfg seek fdIn fdOut size fuel pos) :=
  keeps_copyDataExtents (fun _ _ => trivial) (fun _ _ => rfl) seek size fuel pos

theorem movesTo_moveRanges (fdIn fdOut : Fd) (ranges : List (ℕ × ℕ)) :
    MovesDataTo fdOut (moveRanges fdIn fdOut ranges) :=
  keeps_moveRanges (fun _ _ => trivial) (fun _ _ => rfl) ranges

theorem movesTo_presize (sparse : Bool) (fd : Fd) : MovesDataTo fd (presize t sparse fd) :=
  keeps_presize (fun _ => rfl) (fun _ => rfl) sparse

end Programs

end Ecopy.Metadata
