import Ecopy.Workers.Creation

/-!
# Destinations that are opened again by name

The tail and the metadata of a copy whose source or destination bypasses the page cache go
through descriptors that are opened by name. A destination that is made for this gets the
scratch mode, which lets its owner in. Whether the scratch mode is used depends on the
destination alone, whether the name is opened again on the source too: a small file from a
source with direct I/O to a destination without it is made with the mode of the source, and
that mode can shut its owner out. In place a destination that refuses direct I/O when it has
made the file keeps the scratch mode. Sparse and large files are never shut out.
-/
namespace Ecopy.Workers.Reopening
open Protocol Ecopy.Path FileSystem Server Lib.Calls
open SmallCopy OtherCopies Events CallsMade Metadata Contents Access Creation

section Runs
variable (who : Identity) (cfg : Tuning) (t : Task) (src dst : DirectIo) (r : Route)

/-- The runs of a copy from one kind of file system to another. Only the phase that creates the
destination opens files for direct I/O there. -/
inductive RunsOn (w : World) : List Event → World → Bool → Prop
  | unopened {opening : List Event} {v : World} :
      (r.openSource cfg t).Runs (answerAccess who) w opening v none → src.Met opening →
      RunsOn w opening v false
  | unmade {opening making closing : List Event} {u z v : World} {source : Fd × Bool} {done : Bool} :
      (r.openSource cfg t).Runs (answerAccess who) w opening u (some source) → src.Met opening →
      (r.create who cfg t).Runs (answerCreating dst.leaves who) u making z none →
      dst.Met making →
      (do
        let _ ← Sys.close source.1
        return false : Handler Bool).Runs (answerAccess who) z closing v done →
      RunsOn w (opening ++ (making ++ closing)) v done
  | made {opening making rest : List Event} {u z v : World} {source : Fd × Bool} {target : Target}
      {done : Bool} :
      (r.openSource cfg t).Runs (answerAccess who) w opening u (some source) → src.Met opening →
      (r.create who cfg t).Runs (answerCreating dst.leaves who) u making z (some target) →
      dst.Met making →
      (r.finish who cfg t source target).Runs (answerAccess who) z rest v done →
      RunsOn w (opening ++ (making ++ rest)) v done

end Runs

/-- A file was made at the path. -/
def made (path : Bytes) : Event → Bool
  | ⟨.openFile p flags _, (r : Except Errno Fd)⟩ => p == path && flags.create && r.isOk
  | _ => false

/-- The file at the path was not opened again, for its mode. -/
def shut (path : Bytes) : Event → Bool
  | ⟨.openFile p flags _, (.error e : Except Errno Fd)⟩ =>
    p == path && !flags.create && e == .eacces
  | _ => false

/-- A file that the copy has made itself cannot be opened again. -/
def ReopenRefused (t : Task) (tr : List Event) : Prop :=
  ∃ path, path ≠ t.src ∧ tr.any (made path) = true ∧ tr.any (shut path) = true

/-- A source that the user can read. -/
structure Readable (who : Identity) (t : Task) (w : World) : Prop where
  sane : w.fs.Sane
  source : Reaches w.fs t.src t.ino
  regular : Node.isRegular (w.fs.node t.ino) = true
  readable : permits who (w.fs.node t.ino) false = true
  same : sameOpenedSource t t.ino (w.fs.node t.ino) = true

/-- A source that an unprivileged user can read, no destination, and a temporary name that is
not taken. -/
structure Ready (who : Identity) (t : Task) (w : World) : Prop extends Readable who t w where
  unprivileged : who.euid ≠ 0
  absent : Free w.fs t.dst
  fresh : Free w.fs (atDir t.dstDir (makeTempName who.pid (w.seq .put + 1)))

section Inputs
variable (cfg : Tuning) (t : Task)

/-- The source bypasses the page cache. -/
def ReadsDirect (src : DirectIo) : Prop :=
  cfg.readDirect = true ∧ directIoWorthwhile cfg t.size = true ∧ src = .active

/-- The mode of the source keeps its owner from writing a tail, or from reading. -/
def ShutsOwnerOut : Prop :=
  t.attr.mode &&& 0xC00 = 0 ∧
    (t.size % alignment ≠ 0 ∧ t.attr.mode &&& 0x80 = 0 ∨ t.attr.mode &&& 0x100 = 0)

def Stuck (src dst : DirectIo) : Route → Prop
  | .small => ReadsDirect cfg t src ∧ ¬ MadeForDirect cfg t dst cfg.inplace ∧ ShutsOwnerOut t
  | _ => False

end Inputs

/-- The call does not open the file at the path again. -/
def Elsewhere (path : Bytes) : Call → Prop
  | .openFile p flags _ => p ≠ path ∨ flags.create = true
  | _ => True

section Quiet
variable {who : Identity} {cfg : Tuning} {t : Task} {w v : World} {tr : List Event} {path : Bytes}

theorem not_shut {e : Event} (h : Elsewhere path e.1) : shut path e = false := by
  obtain ⟨c, r⟩ := e
  cases c with
  | openFile p flags mode =>
    cases r with
    | ok fd => rfl
    | error e =>
      rcases h with hne | hcreate
      · simp [shut, hne]
      · simp [shut, hcreate]
  | _ => rfl

theorem quiet {α : Type} {m : Handler α} {a : α}
    {kernel : World → Choice → (c : Call) → Option (c.Result × World)}
    (hm : m.Keeps (Elsewhere path) fun _ _ => True) (h : m.Runs kernel w tr v a) :
    tr.any (shut path) = false := by
  rw [List.any_eq_false]
  exact fun e he => Bool.not_eq_true _ ▸ not_shut ((hm.calls h).1 e he)

/-- One open of the name, which the mode allows. -/
theorem quiet_reopen {α : Type} {target : Target} {mode m : UInt32} {flags : Fs.OpenFlags}
    {k : Except Errno Fd → Handler α} {a : α} (ho : Owned who w target mode)
    (hok : permits who (w.fs.node target.fd.ino) flags.write = true)
    (hk : ∀ opened, (k opened).Keeps (Elsewhere path) fun _ _ => True)
    (h : (Sys.openFile target.path flags m >>= k).Runs (answerAccess who) w tr v a) :
    tr.any (shut path) = false := by
  obtain ⟨x, opened, u, rest, hopen, rfl, hrun⟩ := Prog.runs_perform_iff.mp h
  have hfirst : shut path ⟨.openFile target.path flags m, opened⟩ = false := by
    cases opened with
    | ok fd => rfl
    | error e =>
      by_contra hshut
      rw [Bool.not_eq_false] at hshut
      simp only [shut, Bool.and_eq_true, beq_iff_eq] at hshut
      obtain ⟨-, rfl⟩ := hshut
      exact ho.opens hok hopen
  rw [List.any_cons, hfirst, quiet (hk opened) hrun]
  rfl

section Steps
variable (hsrc : path ≠ t.src)
include hsrc

theorem elsewhere_openReadAtBuffered : (openReadAtBuffered t).Keeps (Elsewhere path) fun _ _ => True :=
  keeps_openReadAtBuffered (.inl hsrc.symm) (fun _ => trivial) fun _ => trivial

theorem elsewhere_openSource (r : Route) :
    (r.openSource cfg t).Keeps (Elsewhere path) fun _ _ => True := by
  have hdirect : (openReadAtMaybeDirect cfg t).Keeps (Elsewhere path) fun _ _ => True :=
    keeps_openReadAtMaybeDirect (.inl hsrc.symm) trivial (fun _ => trivial) fun _ => trivial
  cases r with
  | small => exact hdirect
  | sparse seek => exact elsewhere_openReadAtBuffered hsrc
  | large holes ranges => exact hdirect

end Steps

theorem elsewhere_createTempAt (mode : UInt32) (attempts : ℕ) :
    (createTempAt mode who cfg t attempts).Keeps (Elsewhere path) fun _ _ => True :=
  keeps_createTempAt trivial (fun _ => trivial) (fun _ => trivial) mode trivial (fun _ _ _ => .inr rfl)
    (fun _ => trivial) attempts

theorem elsewhere_create (r : Route) :
    (r.create who cfg t).Keeps (Elsewhere path) fun _ _ => True := by
  cases r with
  | small =>
    change (createTarget who cfg t).Keeps _ _
    unfold createTarget
    split
    · exact keeps_createFinal trivial (fun _ => trivial) (fun _ => trivial) (fun _ _ => .inr rfl)
        trivial fun _ _ => trivial
    · rw [createTempAt_buffered]
      exact elsewhere_createTempAt _ _
  | sparse seek =>
    change (createTempWriteAtMaybeDirect who cfg t 100).Keeps _ _
    rw [createTempAt_buffered]
    exact elsewhere_createTempAt _ _
  | large holes ranges => exact elsewhere_createTempAt _ _

theorem elsewhere_rename (p : Bytes) :
    (renameTempToFinalAt t p).Keeps (Elsewhere path) fun _ _ => True :=
  keeps_renameTempToFinalAt (fun _ => trivial) trivial

theorem elsewhere_leaveTarget (fdIn : Fd) (target : Target) (done stillOpen : Bool) :
    (leaveTarget fdIn target done stillOpen).Keeps (Elsewhere path) fun _ _ => True :=
  keeps_leaveTarget (fun _ => trivial) trivial done stillOpen

theorem elsewhere_placed {target : Target} :
    (if cfg.inplace then return (true, false)
      else do return (← renameTempToFinalAt t target.path, false) : Handler (Bool × Bool)).Keeps
        (Elsewhere path) fun _ _ => True := by
  split
  · trivial
  · exact Prog.Keeps.bind (elsewhere_rename _) fun _ => trivial

theorem elsewhere_finishBuffered (fdIn : Fd) (target : Target) (pos : ℕ) (bulkDirect : Bool) :
    (finishBuffered who cfg t fdIn target pos bulkDirect).Keeps (Elsewhere path) fun _ _ => True := by
  refine Prog.Keeps.bind (Prog.Keeps.last (c := Call.attempt) trivial) ?_
  intro again
  split
  · trivial
  refine Prog.Keeps.bind (keeps_copyTailBufferedFds (fun _ _ => trivial) (fun _ _ => trivial) _ _) ?_
  intro copied
  split
  · trivial
  refine Prog.Keeps.bind
    (keeps_preserveFdMetadata (fun _ _ => trivial) (fun _ => trivial) (fun _ _ => trivial) _ _) ?_
  intro passed
  split
  · trivial
  refine Prog.Keeps.call (c := Call.close target.fd) trivial ?_
  intro closed _
  cases closed with
  | error e => trivial
  | ok _ => exact elsewhere_placed

theorem elsewhere_finishTemp (target : Target) :
    (finishTemp who cfg t target).Keeps (Elsewhere path) fun _ _ => True := by
  refine Prog.Keeps.bind
    (keeps_preserveFdMetadata (fun _ _ => trivial) (fun _ => trivial) (fun _ _ => trivial) _ _) ?_
  intro passed
  split
  · trivial
  refine Prog.Keeps.call (c := Call.close target.fd) trivial ?_
  intro closed _
  cases closed with
  | error e => trivial
  | ok _ => exact Prog.Keeps.bind (elsewhere_rename _) fun _ => trivial

theorem elsewhere_sparseContent (seek : ℕ → Seek) (fdIn : Fd) (target : Target) :
    (sparseContent who cfg t seek fdIn target).Keeps (Elsewhere path) fun _ _ => True := by
  refine Prog.Keeps.call (c := Call.attempt) trivial ?_
  intro free _
  cases free with
  | false => trivial
  | true =>
  refine Prog.Keeps.bind (keeps_copyDataExtents (fun _ _ => trivial) (fun _ _ => trivial) _ _ _ _) ?_
  intro copied
  split
  · trivial
  refine Prog.Keeps.call (c := Call.ftruncate target.fd t.size) trivial ?_
  intro sized _
  cases sized with
  | error e => trivial
  | ok _ => exact elsewhere_finishTemp target

/-- The mode allows what a copy through reopened descriptors needs. -/
structure LetsIn (t : Task) (mode : UInt32) : Prop where
  tail : t.bulkEnd < t.size → mode &&& 0x80 ≠ 0
  read : mode &&& 0x100 ≠ 0

theorem letsIn_copyDataMode (mode : UInt32) : LetsIn t (copyDataMode mode) :=
  ⟨fun _ => (copyDataMode_and mode).1, (copyDataMode_and mode).2⟩

theorem quiet_openAgain {target : Target} {mode : UInt32} {res : Except Errno Target}
    (ho : Owned who w target mode) (hok : permits who (w.fs.node target.fd.ino) true = true)
    (h : (openTempWriteExistingAtBuffered target.path).Runs (answerAccess who) w tr v res) :
    tr.any (shut path) = false := by
  change (Sys.openFile target.path ⟨true, false, false, false, false, false⟩ 0 >>= fun opened =>
    keepTarget target.path false opened).Runs (answerAccess who) w tr v res at h
  apply quiet_reopen ho _ _ h
  · exact hok
  · exact fun opened => keeps_keepTarget trivial (fun _ => trivial) (fun _ => trivial) _ _ opened

section Content
variable {target : Target} {mode : UInt32} (huser : who.euid ≠ 0) (hsrc : path ≠ t.src)
include huser hsrc

theorem quiet_copyTailBufferedAt {done : Bool} (ho : Owned who w target mode) (hin : LetsIn t mode)
    (h : (copyTailBufferedAt t target.path t.bulkEnd t.size).Runs (answerAccess who) w tr v done) :
    tr.any (shut path) = false := by
  unfold copyTailBufferedAt at h
  split at h
  · obtain ⟨rfl, -, -⟩ := Prog.runs_ret_iff.mp h
    rfl
  rename_i htail
  obtain ⟨before, after, u, source, rfl, hsource, hrun⟩ := Prog.runs_bind_iff.mp h
  have hbefore := quiet (elsewhere_openReadAtBuffered hsrc) hsource
  have hu := ho.moved (moves_of_looks looks_openReadAtBuffered) hsource
  cases source with
  | none =>
    obtain ⟨rfl, -, -⟩ := Prog.runs_ret_iff.mp hrun
    simp [hbefore]
  | some source =>
  obtain ⟨mid, last, s, again, rfl, hopen, hend⟩ := Prog.runs_bind_iff.mp hrun
  have hallowed := (hu.permits_iff huser true).mpr (hin.tail (not_le.mp htail))
  have hmid : mid.any (shut path) = false := quiet_openAgain hu hallowed hopen
  have hlast : last.any (shut path) = false := by
    cases again with
    | error e =>
      refine quiet ?_ hend
      exact Prog.Keeps.call (c := Call.close _) trivial fun _ _ => trivial
    | ok again =>
      refine quiet ?_ hend
      refine Prog.Keeps.bind (keeps_copyTailBufferedFds (fun _ _ => trivial)
        (fun _ _ => trivial) _ _) ?_
      exact fun done => Prog.Keeps.call (c := Call.close _) trivial fun _ _ =>
        Prog.Keeps.call (c := Call.close _) trivial fun _ _ => trivial
  simp [hbefore, hmid, hlast]

theorem quiet_finishDirect {res : Bool × Bool} (ho : Owned who w target mode) (hin : LetsIn t mode)
    (h : (finishDirect who cfg t target).Runs (answerAccess who) w tr v res) :
    tr.any (shut path) = false := by
  obtain ⟨first, rest, u, closed, rfl, hclose, hrun⟩ := Prog.runs_bind_iff.mp h
  have hfirst : first.any (shut path) = false :=
    quiet (m := Sys.close target.fd) (Prog.Keeps.last trivial) hclose
  have hu := ho.moved (m := Sys.close target.fd) (Prog.Keeps.last trivial) hclose
  obtain ⟨before, after, s, copied, rfl, htail, hrun⟩ := Prog.runs_bind_iff.mp hrun
  have hbefore := quiet_copyTailBufferedAt huser hsrc hu hin htail
  have hs := hu.moved (moves_copyTailBufferedAt ..) htail
  split at hrun
  · obtain ⟨rfl, -, -⟩ := Prog.runs_ret_iff.mp hrun
    simp [hfirst, hbefore]
  obtain ⟨mid, last, z, passed, rfl, hpass, hend⟩ := Prog.runs_bind_iff.mp hrun
  have hopens : ∃ k, preservePathMetadataAt who cfg target.path t.attr =
      Sys.openFile target.path (readFlags false) 0 >>= k ∧
        ∀ opened, (k opened).Keeps (Elsewhere path) fun _ _ => True :=
    preservePath_opens (fun _ => trivial) (fun _ => trivial) (fun _ _ _ => trivial)
      (fun _ _ => trivial) (fun _ _ _ => trivial) _
  obtain ⟨k, heq, hk⟩ := hopens
  rw [heq] at hpass
  have hallowed := (hs.permits_iff huser false).mpr hin.read
  have hmid : mid.any (shut path) = false := by
    apply quiet_reopen hs _ hk hpass
    exact hallowed
  have hlast : last.any (shut path) = false := by
    split at hend
    · obtain ⟨rfl, -, -⟩ := Prog.runs_ret_iff.mp hend
      rfl
    · exact quiet elsewhere_placed hend
  simp [hfirst, hbefore, hmid, hlast]

theorem quiet_copyContent {fdIn : Fd} {inDirect : Bool} {res : Bool × Bool}
    (ho : Owned who w target mode) (hin : inDirect = true ∨ target.direct = true → LetsIn t mode)
    (h : (copyContent who cfg t fdIn inDirect target).Runs (answerAccess who) w tr v res) :
    tr.any (shut path) = false := by
  obtain ⟨x, free, u, rest, htry, rfl, hrun⟩ := Prog.runs_perform_iff.mp h
  have hu : Owned who u target mode :=
    ho.moved (m := Sys.attempt) (Prog.Keeps.last trivial) (.call x htry (.ret _ _))
  have hfirst : shut path ⟨.attempt, free⟩ = false := rfl
  rw [List.any_cons, hfirst, Bool.false_or]
  cases free with
  | false =>
    obtain ⟨rfl, -, -⟩ := Prog.runs_ret_iff.mp hrun
    rfl
  | true =>
  obtain ⟨before, after, s, bulk, rfl, hswitch, hrun⟩ := Prog.runs_bind_iff.mp hrun
  have hbefore : before.any (shut path) = false := quiet (keeps_attemptIf trivial _) hswitch
  have hs := hu.moved (keeps_attemptIf trivial _) hswitch
  obtain ⟨mid, last, z, copied, rfl, hloop, hend⟩ := Prog.runs_bind_iff.mp hrun
  have hmid : mid.any (shut path) = false := quiet
    (keeps_copyLoop (fun _ _ => trivial) (fun _ _ => trivial) trivial _ _ _ _ _ _) hloop
  have hz := hs.moved (moves_of_movesTo (movesTo_copyLoop ..)) hloop
  have hlast : last.any (shut path) = false := by
    cases copied with
    | none =>
      obtain ⟨rfl, -, -⟩ := Prog.runs_ret_iff.mp hend
      rfl
    | some copied =>
      obtain ⟨pos, bulkDirect⟩ := copied
      dsimp only at hend
      split at hend
      · rename_i hdirect
        exact quiet_finishDirect huser hsrc hz (hin (by simpa using hdirect)) hend
      · exact quiet (elsewhere_finishBuffered ..) hend
  simp [hbefore, hmid, hlast]

theorem quiet_largeContent {fdIn : Fd} {holes : Bool} {ranges : List (ℕ × ℕ)} {res : Bool × Bool}
    (ho : Owned who w target mode) (hin : LetsIn t mode)
    (h : (largeContent who cfg t holes ranges fdIn target).Runs (answerAccess who) w tr v res) :
    tr.any (shut path) = false := by
  obtain ⟨first, rest, u, sized, rfl, hsize, hrun⟩ := Prog.runs_bind_iff.mp h
  have hfirst : first.any (shut path) = false :=
    quiet (keeps_presize (fun _ => trivial) (fun _ => trivial) holes) hsize
  have hu := ho.moved (moves_of_movesTo (movesTo_presize ..)) hsize
  split at hrun
  · obtain ⟨rfl, -, -⟩ := Prog.runs_ret_iff.mp hrun
    simp [hfirst]
  obtain ⟨second, rest, u', free, rfl, htry, hrun⟩ := Prog.runs_bind_iff.mp hrun
  have hsecond : second.any (shut path) = false :=
    quiet (m := Sys.attempt) (Prog.Keeps.last trivial) htry
  have hu' := hu.moved (m := Sys.attempt) (Prog.Keeps.last trivial) htry
  split at hrun
  · obtain ⟨rfl, -, -⟩ := Prog.runs_ret_iff.mp hrun
    simp [hfirst, hsecond]
  obtain ⟨bulk, rest, s, copied, rfl, hmove, hrun⟩ := Prog.runs_bind_iff.mp hrun
  have hbulk : bulk.any (shut path) = false :=
    quiet (keeps_moveRanges (fun _ _ => trivial) (fun _ _ => trivial) _) hmove
  have hs := hu'.moved (moves_of_movesTo (movesTo_moveRanges ..)) hmove
  split at hrun
  · obtain ⟨rfl, -, -⟩ := Prog.runs_ret_iff.mp hrun
    simp [hfirst, hsecond, hbulk]
  obtain ⟨tail, last, z, done, rfl, htail, hend⟩ := Prog.runs_bind_iff.mp hrun
  have hquiet := quiet_copyTailBufferedAt huser hsrc hs hin htail
  have hlast : last.any (shut path) = false := by
    split at hend
    · obtain ⟨rfl, -, -⟩ := Prog.runs_ret_iff.mp hend
      rfl
    · exact quiet (elsewhere_finishTemp target) hend
  simp [hfirst, hsecond, hbulk, hquiet, hlast]

/-- What the mode has to be when both files are open. -/
def Suits (t : Task) (sourceDirect targetDirect : Bool) (mode : UInt32) : Route → Prop
  | .small => sourceDirect = true ∨ targetDirect = true → LetsIn t mode
  | .sparse _ => targetDirect = true → mode = copyDataMode t.attr.mode
  | .large _ _ => mode = copyDataMode t.attr.mode

theorem quiet_finish {r : Route} {source : Fd × Bool} {done : Bool} (ho : Owned who w target mode)
    (hin : Suits t source.2 target.direct mode r)
    (h : (r.finish who cfg t source target).Runs (answerAccess who) w tr v done) :
    tr.any (shut path) = false := by
  have hleave : ∀ (target : Target) (out : Bool × Bool),
      (leaveTarget source.1 target out.1 out.2).Keeps (Elsewhere path) fun _ _ => True :=
    fun target out => elsewhere_leaveTarget _ _ _ _
  cases r with
  | small =>
    obtain ⟨first, last, u, out, rfl, hcontent, hend⟩ := Prog.runs_bind_iff.mp h
    have hfirst := quiet_copyContent huser hsrc ho hin hcontent
    have hlast := quiet (hleave target out) hend
    simp [hfirst, hlast]
  | large holes ranges =>
    obtain ⟨first, last, u, out, rfl, hcontent, hend⟩ := Prog.runs_bind_iff.mp h
    have hmode : LetsIn t mode := by
      rw [show mode = copyDataMode t.attr.mode from hin]
      exact letsIn_copyDataMode _
    have hfirst := quiet_largeContent huser hsrc ho hmode hcontent
    have hlast := quiet (hleave target out) hend
    simp [hfirst, hlast]
  | sparse seek =>
    have hcontent : ∀ target : Target, (sparseContent who cfg t seek source.1 target >>= fun out =>
        leaveTarget source.1 target out.1 out.2).Keeps (Elsewhere path) fun _ _ => True := by
      intro target
      refine Prog.Keeps.bind (elsewhere_sparseContent seek source.1 target) ?_
      exact fun out => hleave target out
    simp only [Route.finish] at h
    split at h
    · rename_i hdirect
      obtain ⟨x, closed, u, rest, hclose, rfl, hrun⟩ := Prog.runs_perform_iff.mp h
      have hu : Owned who u target mode :=
        ho.moved (m := Sys.close target.fd) (Prog.Keeps.last trivial) (.call x hclose (.ret _ _))
      have hallowed := (hu.permits_iff huser true).mpr
        (by rw [show mode = copyDataMode t.attr.mode from hin hdirect]; exact (copyDataMode_and _).1)
      obtain ⟨mid, last, s, again, rfl, hopen, hend⟩ := Prog.runs_bind_iff.mp hrun
      have hmid : mid.any (shut path) = false := quiet_openAgain hu hallowed hopen
      have hlast : last.any (shut path) = false := by
        cases again with
        | error e => exact quiet (hleave target (false, false)) hend
        | ok again => exact quiet (hcontent _) hend
      have hfirst : shut path ⟨.close target.fd, closed⟩ = false := rfl
      simp [hfirst, hmid, hlast]
    · exact quiet (hcontent target) h

end Content

end Quiet

section Opening
variable {who : Identity} {cfg : Tuning} {t : Task} {w v u : World} {tr : List Event} {target : Target}
  {src dst : DirectIo} {path : Bytes} {mode : UInt32} {x : Choice}

theorem keepSource_direct {fd fd' : Fd} {direct direct' : Bool}
    (h : (keepSource t fd direct).Runs (answerIds who) w tr v (some (fd', direct'))) :
    direct' = direct := by
  obtain ⟨before, after, u, valid, rfl, -, hrun⟩ := Prog.runs_bind_iff.mp h
  split at hrun
  · exact (Prod.mk.inj (Option.some.inj (Prog.runs_ret_iff.mp hrun).2.2)).2
  · obtain ⟨x, closed, z, rest, -, -, hret⟩ := Prog.runs_perform_iff.mp hrun
    cases (Prog.runs_ret_iff.mp hret).2.2

theorem openReadAtBuffered_direct {fd : Fd} {direct : Bool}
    (h : (openReadAtBuffered t).Runs (answerIds who) w tr v (some (fd, direct))) : direct = false := by
  obtain ⟨x, opened, u, rest, -, -, hrun⟩ := Prog.runs_perform_iff.mp h
  cases opened with
  | error e => cases (Prog.runs_ret_iff.mp hrun).2.2
  | ok fd => exact keepSource_direct hrun

/-- A source bypasses the page cache when it can. -/
theorem readsDirect_of_source {fd : Fd}
    (h : (openReadAtMaybeDirect cfg t).Runs (answerIds who) w tr v (some (fd, true)))
    (hmet : src.Met tr) : ReadsDirect cfg t src := by
  unfold openReadAtMaybeDirect at h
  split at h
  · rename_i hwanted
    rw [Bool.and_eq_true] at hwanted
    obtain ⟨x, opened, u, rest, -, rfl, hrun⟩ := Prog.runs_perform_iff.mp h
    cases opened with
    | error e =>
      dsimp only at hrun
      split at hrun
      · cases openReadAtBuffered_direct hrun
      · cases (Prog.runs_ret_iff.mp hrun).2.2
    | ok fd' =>
      obtain ⟨y, direct, s, last, -, rfl, hkeep⟩ := Prog.runs_perform_iff.mp hrun
      obtain rfl := keepSource_direct hkeep
      refine ⟨hwanted.1, hwanted.2, ?_⟩
      cases src with
      | active => rfl
      | refused | unswitched =>
        have hyes := hmet.1
        simp [switched] at hyes
  · cases openReadAtBuffered_direct h

/-- The mode of a file that goes through the page cache. -/
def bufferedMode (t : Task) : Route → UInt32
  | .small | .sparse _ => bufferedCreateMode t.attr.mode
  | .large _ _ => copyDataMode t.attr.mode

/-- The file is made under its final name. -/
def madeInplace (cfg : Tuning) : Route → Bool
  | .small => cfg.inplace
  | _ => false

theorem create_madeWith {r : Route} (huser : who.euid ≠ 0) (hs : w.fs.Sane)
    (hfree : w.fs.entry (resolve t.dst) = none) (hmet : dst.Met tr)
    (h : (r.create who cfg t).Runs (answerCreating dst.leaves who) w tr v (some target)) :
    MadeWith who cfg t dst (madeInplace cfg r) (bufferedMode t r) v target := by
  have hseen : MadeForDirect cfg t dst false → tr.any fellBack = false := by
    rintro ⟨-, -, hrefuses⟩
    cases dst with
    | refused => exact absurd (hrefuses rfl).1 Bool.false_ne_true
    | unswitched | active => exact hmet.2
  have htemp : (createTempWriteAtMaybeDirect who cfg t 100).Runs (answerCreating dst.leaves who) w
      tr v (some target) → MadeWith who cfg t dst false (bufferedCreateMode t.attr.mode) v target := by
    rw [createTempAt_buffered]
    exact fun hrun => createTempAt_madeWith hseen hrun
  cases r with
  | small =>
    change (createTarget who cfg t).Runs _ _ _ _ _ at h
    change MadeWith who cfg t dst cfg.inplace _ v target
    unfold createTarget at h
    split at h
    · rename_i hin
      rw [hin]
      exact createFinal_madeWith huser hs hfree hmet h
    · rename_i hin
      rw [Bool.eq_false_of_not_eq_true hin]
      exact htemp h
  | sparse seek => exact htemp h
  | large holes ranges => exact createTempAt_madeWith hseen h

theorem bulkEnd_lt_iff : t.bulkEnd < t.size ↔ t.size % alignment ≠ 0 := by
  have hsplit := Nat.div_add_mod t.size alignment
  unfold Task.bulkEnd
  rw [Nat.mul_comm]
  omega

theorem letsIn_buffered (h : ¬ ShutsOwnerOut t) : LetsIn t (bufferedCreateMode t.attr.mode) := by
  unfold bufferedCreateMode
  split
  · exact letsIn_copyDataMode _
  · rename_i hids
    have hmask : ∀ bit : UInt32, 0xFFF &&& bit = bit →
        t.attr.mode &&& 0xFFF &&& bit = t.attr.mode &&& bit := by
      intro bit hbit
      rw [UInt32.and_assoc, hbit]
    have hnot : ¬ (t.size % alignment ≠ 0 ∧ t.attr.mode &&& 0x80 = 0 ∨ t.attr.mode &&& 0x100 = 0) :=
      fun hshut => h ⟨not_not.mp hids, hshut⟩
    constructor
    · intro htail hzero
      rw [hmask 0x80 rfl] at hzero
      exact hnot (.inl ⟨bulkEnd_lt_iff.mp htail, hzero⟩)
    · intro hzero
      rw [hmask 0x100 rfl] at hzero
      exact hnot (.inr hzero)

/-- The mode that a destination was made with lets the copy go on. -/
theorem suits_of_not_stuck {r : Route} {source : Fd × Bool} {tr' : List Event}
    (huser : who.euid ≠ 0) (hs : w.fs.Sane) (hstuck : ¬ Stuck cfg t src dst r)
    (hsource : (r.openSource cfg t).Runs (answerAccess who) u tr' w (some source)) (hsrc : src.Met tr')
    (hfree : w.fs.entry (resolve t.dst) = none) (hmet : dst.Met tr)
    (h : (r.create who cfg t).Runs (answerCreating dst.leaves who) w tr v (some target)) :
    ∃ mode, Owned who v target mode ∧ Suits t source.2 target.direct mode r := by
  rcases create_madeWith huser hs hfree hmet h with howned | ⟨howned, hdirect, hnot⟩
  · refine ⟨_, howned, ?_⟩
    cases r with
    | small => exact fun _ => letsIn_copyDataMode _
    | sparse seek => exact fun _ => rfl
    | large holes ranges => rfl
  · cases r with
    | small =>
      refine ⟨_, howned, ?_⟩
      rintro (hyes | hyes)
      · obtain ⟨fd, direct⟩ := source
        obtain rfl : direct = true := hyes
        apply letsIn_buffered
        exact fun hshut => hstuck ⟨readsDirect_of_source (ids_of_access hsource) hsrc, hnot, hshut⟩
      · rw [hdirect] at hyes
        cases hyes
    | sparse seek =>
      refine ⟨_, howned, fun hyes => ?_⟩
      rw [hdirect] at hyes
      cases hyes
    | large holes ranges => exact ⟨_, howned, rfl⟩

theorem not_refused_of_not_stuck {r : Route} {done : Bool} (hw : Ready who t w)
    (hstuck : ¬ Stuck cfg t src dst r) (h : RunsOn who cfg t src dst r w tr v done) :
    ¬ ReopenRefused t tr := by
  rintro ⟨path, hne, -, hshut⟩
  cases h with
  | unopened hopen _ =>
    rw [quiet (elsewhere_openSource hne r) hopen] at hshut
    cases hshut
  | @unmade opening making closing u z v source done hopen _ hcreate _ hclose =>
    have hlast : closing.any (shut path) = false := by
      refine quiet ?_ hclose
      exact Prog.Keeps.call (c := Call.close source.1) trivial fun _ _ => trivial
    rw [List.any_append, List.any_append, quiet (elsewhere_openSource hne r) hopen,
      quiet (elsewhere_create r) hcreate, hlast] at hshut
    cases hshut
  | made hopen hsrc hcreate hdst hfinish =>
    have hfs := (looked (i := 0) (looks_openSource r) (ids_of_access hopen)).1
    obtain ⟨mode, howned, hsuits⟩ :=
      suits_of_not_stuck hw.unprivileged (hfs ▸ hw.sane) hstuck hopen hsrc
        (by rw [hfs, hw.absent.entry]) hdst hcreate
    rw [List.any_append, List.any_append, quiet (elsewhere_openSource hne r) hopen,
      quiet (elsewhere_create r) hcreate,
      quiet_finish hw.unprivileged hne howned hsuits hfinish] at hshut
    cases hshut

end Opening

/-- Both files while the bytes are copied. -/
structure Copying (who : Identity) (t : Task) (target : Target) (w : World) : Prop
    extends Readable who t w where
  dest : Reaches w.fs target.path target.fd.ino
  named : target.fd.path = target.path
  bytes : ∃ b, Holds w target.fd.ino b
  owned : Owned who w target t.attr.mode
  apart : target.fd.ino ≠ t.ino

section Shut
variable {who : Identity} {cfg : Tuning} {t : Task} {w v u : World} {target : Target}

theorem within_dropIds (fs : Fs) (i : ℕ) : Fs.Within (fun _ => False) fs (dropIds fs i) := by
  refine ⟨fun _ _ => by rw [dropIds_entry], ?_, ?_⟩
  · intro j _
    simp only [Node.isDir, dropIds_kind]
  · rw [dropIds_entry, dropIds_next]
    exact id

/-- New names change nothing for the source. -/
theorem Readable.within {P : Loc → Prop} (h : Readable who t w) (hw : Fs.Within P w.fs v.fs)
    (hP : ∀ k, P k → w.fs.entry k = none) (hsrc : v.fs.node t.ino = w.fs.node t.ino) :
    Readable who t v where
  sane := by
    refine h.sane.within hw fun htop => ?_
    have hdir := h.sane.top
    rw [Fs.isDir, hP [] htop] at hdir
    cases hdir
  source := h.source.within h.sane hw hP
  regular := by rw [hsrc, h.regular]
  readable := by rw [hsrc, h.readable]
  same := by rw [hsrc, h.same]

theorem Copying.kept (h : Copying who t target w) (hw : Fs.Within (fun _ => False) w.fs v.fs)
    (hsrc : v.fs.node t.ino = w.fs.node t.ino) (hbytes : ∃ b, Holds v target.fd.ino b)
    (howned : Owned who v target t.attr.mode) : Copying who t target v where
  toReadable := h.toReadable.within hw nofun hsrc
  dest := h.dest.within h.sane hw nofun
  named := h.named
  bytes := hbytes
  owned := howned
  apart := h.apart

theorem Copying.congr (h : Copying who t target w) (hfs : v.fs = w.fs) : Copying who t target v := by
  obtain ⟨b, hb⟩ := h.bytes
  refine h.kept (hfs ▸ .refl _ _) (by rw [hfs]) ⟨b, hb.of_kind (by rw [hfs])⟩ ?_
  exact ⟨hfs ▸ h.owned.entry, hfs ▸ h.owned.isDir, hfs ▸ h.owned.uid, hfs ▸ h.owned.mode⟩

theorem Copying.data (h : Copying who t target w) :
    ∃ data, Holds w t.ino data ∧ data.length = t.size := by
  have hreg := h.regular
  unfold Node.isRegular at hreg
  split at hreg
  · rename_i data hk
    have hsame := h.same
    simp only [sameOpenedSource, Bool.and_eq_true, beq_iff_eq, statSize, hk] at hsame
    exact ⟨data, hk, by exact_mod_cast hsame.1.2⟩
  · cases hreg

theorem Copying.destRegular (h : Copying who t target w) :
    Node.isRegular (w.fs.node target.fd.ino) = true := by
  obtain ⟨b, hb⟩ := h.bytes
  have hk : (w.fs.node target.fd.ino).kind = .regular b := hb
  simp [Node.isRegular, hk]

theorem read_calmly {fd : Fd} {data : Bytes} {off len : ℕ} (hdata : Holds w fd.ino data)
    (hlen : off + len ≤ data.length) :
    answerAccess who w calmly (.pread fd len off) = some (.ok ((data.drop off).take len), w) := by
  have hk : (w.fs.node fd.ino).kind = .regular data := hdata
  exact answer_pread_ok who off rfl hk hlen

theorem Copying.write (h : Copying who t target w) (off : ℕ) (data : Bytes) :
    ∃ v, answerAccess who w calmly (.pwrite target.fd off data) = some (.ok (), v) ∧
      Copying who t target v := by
  have hnot : ¬ ((off : ℤ) < 0) := by omega
  have hanswer : answer who w calmly (.pwrite target.fd off data) =
      some (.ok (), w.writeData target.fd off data) := by
    simp only [answer, if_neg hnot, calmly, Int.toNat_natCast]
  have hids : answerIds who w calmly (.pwrite target.fd off data) = some (.ok (),
      if who.euid ≠ 0 ∧ written data (.ok ()) ≠ 0
        then { w.writeData target.fd off data with
          fs := dropIds (w.writeData target.fd off data).fs target.fd.ino }
        else w.writeData target.fd off data) := by
    rw [answerIds_pwrite_eq, hanswer]
    rfl
  refine ⟨_, hids, ?_⟩
  obtain ⟨b, hb⟩ := h.bytes
  have hwithin := (answer_calm rfl hanswer).within
  apply h.kept
  · split
    · have hdrop := within_dropIds (w.writeData target.fd off data).fs target.fd.ino
      refine ⟨fun l hl => (hdrop.entry l hl).trans (hwithin.entry l hl), ?_,
        fun hb => hdrop.bounded (hwithin.bounded hb)⟩
      intro i hi
      simp only [Node.isDir, dropIds_kind]
      exact hwithin.dirs i hi
    · exact hwithin
  · apply answerIds_untouched (h.sane.bounded _ _ h.source.entry) _ hids
    exact h.apart
  · exact ⟨_, (pwrite_holds hb hids).1⟩
  · exact h.owned.moved (m := Sys.pwrite target.fd off data) (Prog.Keeps.last trivial)
      (.call calmly hids (.ret _ _))

/-- The bulk is copied. -/
theorem loop_calmly (cfg : Tuning) {fdIn : Fd} (hino : fdIn.ino = t.ino) {fuel pos : ℕ}
    (h : Copying who t target w)
    (hfuel : t.bulkEnd - pos < fuel) (hpos : pos ≤ t.bulkEnd) :
    ∃ tr v, (copyLoop cfg t fdIn target.fd fuel t.bulkEnd pos pos false false).Runs (answerAccess who)
      w tr v (some (t.bulkEnd, false)) ∧ Copying who t target v := by
  induction fuel generalizing pos w with
  | zero => omega
  | succ fuel ih =>
    rw [copyLoop]
    split
    · rename_i hdone
      obtain rfl : pos = t.bulkEnd := le_antisymm hpos hdone
      exact ⟨[], w, .ret _ _, h⟩
    rename_i hmore
    have hchunk := cfg.chunkSize_pos
    obtain ⟨data, hdata, hlen⟩ := h.data
    have hbulk : t.bulkEnd ≤ t.size := Nat.div_mul_le_self _ _
    dsimp only
    generalize hl : min cfg.chunkSize (t.bulkEnd - pos) = len
    have hread : answerAccess who w calmly (.pread fdIn len pos) =
        some (.ok ((data.drop pos).take len), w) :=
      read_calmly (hino ▸ hdata) (by omega)
    have hne : (data.drop pos).take len ≠ [] := by
      apply List.ne_nil_of_length_pos
      simp only [List.length_take, List.length_drop]
      omega
    obtain ⟨v, hwrite, hv⟩ := h.write pos ((data.drop pos).take len)
    obtain ⟨tr, z, hrest, hz⟩ := ih hv (by omega : t.bulkEnd - (pos + len) < fuel) (by omega)
    refine ⟨⟨.pread fdIn len pos, .ok ((data.drop pos).take len)⟩ ::
      ⟨.pwrite target.fd pos ((data.drop pos).take len), .ok ()⟩ :: tr, z, .call calmly hread ?_, hz⟩
    change (pwriteAll target.fd pos ((data.drop pos).take len) >>= _).Runs _ _ _ _ _
    rw [pwriteAll, if_neg hne]
    exact .call calmly hwrite hrest

/-- A source that is as it was is kept. -/
theorem keepSource_calmly (who : Identity) (hreg : Node.isRegular (w.fs.node t.ino) = true)
    (hsame : sameOpenedSource t t.ino (w.fs.node t.ino) = true) (direct : Bool) :
    (keepSource t ⟨t.src, t.ino⟩ direct).Runs (answerAccess who) w
      [⟨.fstat ⟨t.src, t.ino⟩, .ok (t.ino, w.fs.node t.ino)⟩] w (some (⟨t.src, t.ino⟩, direct)) := by
  refine .call calmly rfl ?_
  change (if Node.isRegular (w.fs.node t.ino) && sameOpenedSource t t.ino (w.fs.node t.ino) then _
    else _ : Handler (Option (Fd × Bool))).Runs _ _ _ _ _
  rw [hreg, hsame]
  exact .ret _ _

theorem Copying.openSource (h : Copying who t target w) :
    ∃ tr v, (openReadAtBuffered t).Runs (answerAccess who) w tr v (some (⟨t.src, t.ino⟩, false)) ∧
      Copying who t target v := by
  obtain ⟨v, hopen, hfs, -⟩ := open_reached who (readFlags false) 0 h.source h.regular h.readable
    rfl rfl rfl
  have hv := h.congr hfs
  exact ⟨_, v, .call calmly hopen (keepSource_calmly who hv.regular hv.same false), hv⟩

/-- A regular file is kept. -/
theorem keepTarget_calmly {path : Bytes} {fd : Fd} (hreg : Node.isRegular (w.fs.node fd.ino) = true) :
    (keepTarget path false (.ok fd)).Runs (answerAccess who) w
      [⟨.fstat fd, .ok (fd.ino, w.fs.node fd.ino)⟩] w
        (.ok ⟨path, fd, false, (w.fs.node fd.ino).mode &&& 0xFFF⟩) := by
  refine .call calmly rfl ?_
  change Prog.Runs _ (keepValidated path fd false (if Node.isRegular (w.fs.node fd.ino) then
    .ok ((w.fs.node fd.ino).mode &&& 0xFFF) else .error .eexist)) _ _ _ _
  rw [if_pos hreg]
  exact .ret _ _

theorem Copying.openAgain (h : Copying who t target w)
    (hok : permits who (w.fs.node target.fd.ino) true = true) :
    ∃ again tr v, (openTempWriteExistingAtBuffered target.path).Runs (answerAccess who) w tr v
      (.ok again) ∧ again.fd = target.fd ∧ Copying who t target v := by
  have hopens : ∃ v, answerAccess who w calmly
      (.openFile target.path ⟨true, false, false, false, false, false⟩ 0) =
        some (.ok ⟨target.path, target.fd.ino⟩, v) ∧ v.fs = w.fs ∧ v.seq = w.seq :=
    open_reached who _ 0 h.dest h.destRegular hok rfl rfl rfl
  obtain ⟨v, hopen, hfs, -⟩ := hopens
  have hv := h.congr hfs
  have hfd : (⟨target.path, target.fd.ino⟩ : Fd) = target.fd := by rw [← h.named]
  rw [hfd] at hopen
  exact ⟨_, _, v, .call calmly hopen (keepTarget_calmly hv.destRegular), rfl, hv⟩

/-- The tail cannot be written. -/
theorem tail_shut (huser : who.euid ≠ 0) (h : Copying who t target w) (htail : t.bulkEnd < t.size)
    (hno : t.attr.mode &&& 0x80 = 0) :
    ∃ tr v, (copyTailBufferedAt t target.path t.bulkEnd t.size).Runs (answerAccess who) w tr v false ∧
      tr.any (shut target.path) = true := by
  obtain ⟨before, v, hsource, hv⟩ := h.openSource
  have hdenied : permits who (v.fs.node target.fd.ino) true = false := by
    rw [Bool.eq_false_iff]
    exact fun hyes => (hv.owned.permits_iff huser true).mp hyes hno
  have hopen : answerAccess who v calmly (.openFile target.path ⟨true, false, false, false, false, false⟩ 0) =
      some (.error .eacces, v) := open_denied hv.dest rfl hv.destRegular hdenied
  have hagain : (openTempWriteExistingAtBuffered target.path).Runs (answerAccess who) v
      [⟨.openFile target.path ⟨true, false, false, false, false, false⟩ 0, .error .eacces⟩] v
        (.error .eacces) := .call calmly hopen (.ret _ _)
  have hclose : answerAccess who v calmly (.close ⟨t.src, t.ino⟩) = some (.ok (), v) := rfl
  rw [copyTailBufferedAt, if_neg (not_le.mpr htail)]
  refine ⟨_, v, hsource.bind (.bind hagain (.call calmly hclose (.ret _ _))), ?_⟩
  simp [shut]

/-- The tail is written, or there is none. -/
theorem tail_calmly (huser : who.euid ≠ 0) (h : Copying who t target w)
    (hyes : t.bulkEnd < t.size → t.attr.mode &&& 0x80 ≠ 0) :
    ∃ tr v, (copyTailBufferedAt t target.path t.bulkEnd t.size).Runs (answerAccess who) w tr v true ∧
      Copying who t target v := by
  rw [copyTailBufferedAt]
  split
  · exact ⟨[], w, .ret _ _, h⟩
  rename_i htail
  obtain ⟨before, v, hsource, hv⟩ := h.openSource
  have hallowed : permits who (v.fs.node target.fd.ino) true = true :=
    (hv.owned.permits_iff huser true).mpr (hyes (not_le.mp htail))
  obtain ⟨again, mid, u, hagain, hfd, hu⟩ := hv.openAgain hallowed
  obtain ⟨data, hdata, hlen⟩ := hu.data
  have hread : answerAccess who u calmly (.pread ⟨t.src, t.ino⟩ (t.size - t.bulkEnd) t.bulkEnd) =
      some (.ok ((data.drop t.bulkEnd).take (t.size - t.bulkEnd)), u) :=
    read_calmly hdata (by omega)
  obtain ⟨z, hwrite, hz⟩ := hu.write t.bulkEnd ((data.drop t.bulkEnd).take (t.size - t.bulkEnd))
  have hfds : ∃ tr, (copyTailBufferedFds ⟨t.src, t.ino⟩ again.fd t.bulkEnd t.size).Runs
      (answerAccess who) u tr z true := by
    rw [copyTailBufferedFds, if_neg htail, hfd]
    exact ⟨_, .call calmly hread (.call calmly hwrite (.ret _ _))⟩
  obtain ⟨tr, hfds⟩ := hfds
  have hclose : ∀ fd, answerAccess who z calmly (.close fd) = some (.ok (), z) := fun _ => rfl
  exact ⟨_, z, hsource.bind (.bind hagain (.bind hfds
    (.call calmly (hclose _) (.call calmly (hclose _) (.ret _ _))))), hz⟩

/-- The metadata cannot be read. -/
theorem pass_shut (cfg : Tuning) (huser : who.euid ≠ 0) (h : Copying who t target w)
    (hno : t.attr.mode &&& 0x100 = 0) :
    ∃ tr, (preservePathMetadataAt who cfg target.path t.attr).Runs (answerAccess who) w tr w false ∧
      tr.any (shut target.path) = true := by
  have hdenied : permits who (w.fs.node target.fd.ino) false = false := by
    rw [Bool.eq_false_iff]
    exact fun hyes => (h.owned.permits_iff huser false).mp hyes hno
  have hopen : answerAccess who w calmly (.openFile target.path (readFlags false) 0) =
      some (.error .eacces, w) := open_denied h.dest rfl h.destRegular hdenied
  refine ⟨_, .call calmly hopen (.ret _ _), ?_⟩
  simp [shut, readFlags]

/-- The end of a copy through reopened descriptors. -/
theorem finishDirect_shut (cfg : Tuning) (huser : who.euid ≠ 0) (h : Copying who t target w)
    (hshut : t.bulkEnd < t.size ∧ t.attr.mode &&& 0x80 = 0 ∨ t.attr.mode &&& 0x100 = 0) :
    ∃ tr v, (finishDirect who cfg t target).Runs (answerAccess who) w tr v (false, false) ∧
      tr.any (shut target.path) = true := by
  have hclose : answerAccess who w calmly (.close target.fd) = some (.ok (), w) := rfl
  by_cases htail : t.bulkEnd < t.size ∧ t.attr.mode &&& 0x80 = 0
  · obtain ⟨tr, v, hrun, hseen⟩ := tail_shut huser h htail.1 htail.2
    refine ⟨_, v, .perform calmly hclose (.bind hrun (.ret _ _)), ?_⟩
    simp [hseen]
  · obtain ⟨tr, v, hrun, hv⟩ := tail_calmly huser h fun hmore hno => htail ⟨hmore, hno⟩
    obtain ⟨last, hpass, hseen⟩ := pass_shut cfg huser hv (hshut.resolve_left htail)
    refine ⟨_, v, .perform calmly hclose (.bind hrun (.bind hpass (.ret _ _))), ?_⟩
    simp [hseen]

theorem copyContent_shut (cfg : Tuning) (huser : who.euid ≠ 0) (h : Copying who t target w)
    (hshut : t.bulkEnd < t.size ∧ t.attr.mode &&& 0x80 = 0 ∨ t.attr.mode &&& 0x100 = 0) :
    ∃ tr v, (copyContent who cfg t ⟨t.src, t.ino⟩ true target).Runs (answerAccess who) w tr v
      (false, false) ∧ tr.any (shut target.path) = true := by
  have hattempt : answerAccess who w calmly .attempt = some (true, w) := rfl
  have hbulk : t.bulkEnd ≤ t.size := Nat.div_mul_le_self _ _
  obtain ⟨bulk, v, hloop, hv⟩ := loop_calmly cfg (by rfl : (⟨t.src, t.ino⟩ : Fd).ino = t.ino) h
    (by omega : t.bulkEnd - 0 < t.size + 2) (Nat.zero_le _)
  obtain ⟨last, z, hfinish, hseen⟩ := finishDirect_shut cfg huser hv hshut
  refine ⟨_, z, .perform calmly hattempt (.bind (.ret false w) (.bind hloop hfinish)), ?_⟩
  simp [hseen]

variable {src dst : DirectIo} {path : Bytes} {tr : List Event}

/-- A source that bypasses the page cache. -/
theorem source_calmly (hw : Ready who t w) (hreads : ReadsDirect cfg t src) :
    ∃ tr v, (openReadAtMaybeDirect cfg t).Runs (answerAccess who) w tr v
      (some (⟨t.src, t.ino⟩, true)) ∧ src.Met tr ∧ v.fs = w.fs ∧ v.seq = w.seq := by
  obtain ⟨hread, hworth, rfl⟩ := hreads
  have hopens : ∃ v, answerAccess who w calmly (.openFile t.src (readFlags false) 0) =
      some (.ok ⟨t.src, t.ino⟩, v) ∧ v.fs = w.fs ∧ v.seq = w.seq :=
    open_reached who _ 0 hw.source hw.regular hw.readable rfl rfl rfl
  obtain ⟨v, hopen, hfs, hseq⟩ := hopens
  have hattempt : answerAccess who v calmly .attempt = some (true, v) := rfl
  have hkeep := keepSource_calmly who (hfs ▸ hw.regular) (hfs ▸ hw.same) true
  rw [openReadAtMaybeDirect, if_pos (by rw [hread, hworth]; rfl)]
  refine ⟨_, v, .perform calmly hopen (.perform calmly hattempt hkeep), ?_, hfs, hseq⟩
  simp [DirectIo.Met, switched, fellBack]

/-- A new destination that goes through the page cache. -/
structure Began (who : Identity) (t : Task) (w u : World) (target : Target) (tr : List Event) :
    Prop where
  free : Free w.fs target.path
  fd : target.fd = ⟨target.path, w.fs.next⟩
  fs : u.fs = w.fs.create (resolve target.path)
    (newNode who (.regular []) (bufferedCreateMode t.attr.mode))
  made : tr.any (made target.path) = true
  tried : tr.any (switched true) = false ∧ tr.any (switched false) = false
  smooth : tr.any fellBack = false

theorem Began.met (h : Began who t w u target tr) (dst : DirectIo) : dst.Met tr := by
  cases dst with
  | refused => exact h.tried
  | unswitched => exact ⟨h.tried.1, h.smooth⟩
  | active => exact ⟨h.tried.2, h.smooth⟩

theorem open_calmly (who : Identity) (t : Task) (inplace : Bool) (hfree : Free w.fs path) :
    ∃ u target opened, answerAccess who w calmly
        (.openFile path (createFlags inplace false) (bufferedCreateMode t.attr.mode)) =
          some (.ok opened, u) ∧
      (keepTarget path false (.ok opened)).Runs (answerAccess who) u
        [⟨.fstat opened, .ok (opened.ino, u.fs.node opened.ino)⟩] u (.ok target) ∧
      Began who t w u target
        [⟨.openFile path (createFlags inplace false) (bufferedCreateMode t.attr.mode), .ok opened⟩,
          ⟨.fstat opened, .ok (opened.ino, u.fs.node opened.ino)⟩] := by
  obtain ⟨u, hopen, hfs, -⟩ := open_free who (createFlags inplace false)
    (bufferedCreateMode t.attr.mode) hfree rfl
  have hreg : Node.isRegular (u.fs.node w.fs.next) = true := by
    simp [hfs, Fs.create, newNode, Node.isRegular]
  refine ⟨u, _, _, hopen, keepTarget_calmly hreg, ?_⟩
  constructor
  · exact hfree
  · rfl
  · exact hfs
  · simp [made, createFlags, Except.isOk, Except.toBool]
  · simp [switched]
  · simp [fellBack]

/-- What the environment answers when it does not know `O_DIRECT`. -/
def refusing : Choice := ⟨some .invalid, 0, true⟩

/-- An open with `O_DIRECT` is refused, and leaves a file or not. -/
theorem open_refusing (left : Bool) (who : Identity) (w : World) (path : Bytes) (inplace : Bool)
    (mode : UInt32) :
    answerCreating left who w refusing (.openFile path (createFlags inplace true) mode) =
      some (.error .einval, if left then w.makeFirst who path mode else w) := by
  have hno : ¬ (refusing.fault = none ∨ refusing.fault = some .access) := by decide
  have hworld : creationWorld left who w refusing (.openFile path (createFlags inplace true) mode) =
      if left then w.makeFirst who path mode else w := by
    cases left <;> rfl
  rw [answerCreating, hworld, answerAccess, if_neg hno]
  rfl

theorem refused_of_wanted {inplace : Bool}
    (hwanted : (cfg.writeDirect && directIoWorthwhile cfg t.size) = true)
    (hnot : ¬ MadeForDirect cfg t dst inplace) :
    ∃ left, dst = .refused left ∧ (inplace = true → left = false) := by
  rw [Bool.and_eq_true] at hwanted
  cases dst with
  | refused left =>
    refine ⟨left, rfl, fun hin => ?_⟩
    by_contra hleft
    exact hnot ⟨hwanted.1, hwanted.2, fun _ => ⟨hin, Bool.eq_true_of_not_eq_false hleft⟩⟩
  | unswitched | active => exact absurd ⟨hwanted.1, hwanted.2, nofun⟩ hnot

/-- In place: the final name. -/
theorem createFinal_calmly (hfree : Free w.fs t.dst) (hnot : ¬ MadeForDirect cfg t dst true) :
    ∃ before tr u target, (createFinalWriteAtMaybeDirect cfg t).Runs (answerCreating dst.leaves who)
      w (before ++ tr) u (some target) ∧ dst.Met before ∧ Began who t w u target tr := by
  obtain ⟨u, target, opened, hopen, hkeep, hbegan⟩ := open_calmly who t true hfree
  have hbuffered : ∃ tr, (do
      return (← openFinalCreatedOnce t.dst (bufferedCreateMode t.attr.mode) false).toOption :
        Handler (Option Target)).Runs (answerCreating dst.leaves who) w tr u (some target) ∧
          Began who t w u target tr := by
    have honce : (openFinalCreatedOnce t.dst (bufferedCreateMode t.attr.mode) false).Runs
        (answerAccess who) w _ u (.ok target) := .perform calmly hopen hkeep
    refine ⟨_, creating_of_access ?_ (honce.bind (.ret _ _)), ?_⟩
    · refine Prog.Keeps.bind ?_ fun _ => trivial
      exact keeps_openFinalCreatedOnce trivial (fun _ => trivial) (fun _ => trivial) _ _ rfl trivial
        fun _ => trivial
    · rw [List.append_nil]
      exact hbegan
  obtain ⟨tr, hrun, hbegan⟩ := hbuffered
  rw [createFinalWriteAtMaybeDirect]
  split
  · rename_i hwanted
    obtain ⟨left, rfl, hleft⟩ := refused_of_wanted hwanted hnot
    obtain rfl := hleft rfl
    have hrefused : (openFinalCreatedOnce t.dst (copyDataMode t.attr.mode) true).Runs
        (answerCreating false who) w _ w (.error .einval) :=
      .perform refusing (open_refusing ..) (.ret _ _)
    refine ⟨_, tr, u, target, hrefused.bind hrun, ?_, hbegan⟩
    simp [DirectIo.Met, switched]
  · refine ⟨[], tr, u, target, hrun, ?_, hbegan⟩
    cases dst <;> exact ⟨rfl, rfl⟩

/-- What a refused open has left is removed. -/
theorem discard_calmly (left : Bool) (mode : UInt32) (hw : Readable who t w) (hfree : Free w.fs path) :
    ∃ gone v, answerCreating left who (if left then w.makeFirst who path mode else w) calmly
      (.unlink path) = some (gone, v) ∧ Readable who t v ∧ Free v.fs path := by
  have hlocate : locate path = .ok (resolve path) := if_neg hfree.ne_nil
  cases left with
  | false =>
    have hgone : answerAccess who w calmly (.unlink path) = some (.error .enoent, w) := by
      change some (World.change _ _ _ (World.withLoc path w.fs.unlink)) = _
      simp only [World.withLoc, hlocate, Fs.unlink, hfree.parents, hfree.entry]
      rfl
    exact ⟨_, w, hgone, hw, hfree⟩
  | true =>
    have htop : resolve path ≠ [] := by
      intro hnil
      have hdir := hw.sane.top
      rw [Fs.isDir, ← hnil, hfree.entry] at hdir
      cases hdir
    have hadd : w.fs.add (resolve path) (newNode who (.regular []) mode) =
        .ok (w.fs.create (resolve path) (newNode who (.regular []) mode)) := by
      simp [Fs.add, htop, hfree.parents, hfree.entry]
    have hmade := hfree.create hw.sane (newNode who (.regular []) mode)
    have hunlink : ∃ fs, (w.fs.create (resolve path) (newNode who (.regular []) mode)).unlink
        (resolve path) = .ok fs ∧ fs.entry (resolve path) = none ∧
        fs.node = (w.fs.create (resolve path) (newNode who (.regular []) mode)).node := by
      have hfile : ((w.fs.create (resolve path) (newNode who (.regular []) mode)).node
          w.fs.next).isDir = false := by
        simp [Fs.create, newNode, Node.isDir]
      simp only [Fs.unlink, hmade.parents, hmade.entry, hfile, Bool.false_eq_true, if_false]
      exact ⟨_, rfl, Function.update_self .., rfl⟩
    obtain ⟨fs, hunlink, hnone, hnode⟩ := hunlink
    have hfirst := Fs.within_create w.fs (resolve path) (newNode who (.regular []) mode)
    have hthen := (Fs.within_unlink hunlink).2
    have hwithin : Fs.Within (· = resolve path) w.fs fs := by
      refine ⟨fun k hk => (hthen.entry k hk).trans (hfirst.entry k hk), ?_,
        fun hb => hthen.bounded (hfirst.bounded hb)⟩
      intro i hi
      rw [hnode]
      exact hfirst.dirs i hi
    have hP : ∀ k, k = resolve path → w.fs.entry k = none := by
      rintro k rfl
      exact hfree.entry
    have hgone : ∃ v, answerCreating true who (w.makeFirst who path mode) calmly (.unlink path) =
        some (.ok (), v) ∧ v.fs = fs := by
      have hleft : (w.makeFirst who path mode).fs =
          w.fs.create (resolve path) (newNode who (.regular []) mode) := by
        simp [World.makeFirst, World.withLoc, hlocate, hadd]
      change ∃ v, some (World.change _ _ _ (World.withLoc path
        (w.makeFirst who path mode).fs.unlink)) = some (.ok (), v) ∧ v.fs = fs
      simp only [hleft, World.withLoc, hlocate, hunlink]
      exact ⟨_, rfl, rfl⟩
    obtain ⟨v, hgone, rfl⟩ := hgone
    refine ⟨_, v, hgone, hw.within hwithin hP ?_, hfree.ne_nil, ?_, hnone⟩
    · rw [hnode]
      exact Function.update_of_ne (hw.sane.bounded _ _ hw.source.entry).ne _ _
    · exact parents_within hfree.parents hw.sane hwithin hP

/-- Otherwise the next temporary name. -/
theorem createTemp_calmly (hw : Ready who t w) (hnot : ¬ MadeForDirect cfg t dst false)
    (attempts : ℕ) :
    ∃ s before tr u target, (createTempWriteAtMaybeDirect who cfg t (attempts + 1)).Runs
      (answerCreating dst.leaves who) w (before ++ tr) u (some target) ∧ dst.Met before ∧
        Readable who t s ∧ Began who t s u target tr := by
  have hfree := hw.fresh
  generalize hpath : atDir t.dstDir (makeTempName who.pid (w.seq .put + 1)) = path at hfree
  have hseq : ∃ v, answerCreating dst.leaves who w calmly (.nextSeq .put) =
      some (w.seq .put + 1, v) ∧ v.fs = w.fs := ⟨_, rfl, rfl⟩
  obtain ⟨v, hnext, hfs⟩ := hseq
  rw [← hfs] at hfree
  have hv : Readable who t v :=
    hw.toReadable.within (P := fun _ => False) (hfs ▸ .refl _ _) nofun (by rw [hfs])
  have hbuffered : ∀ {s : World}, Free s.fs path → ∃ tr u target,
      (createBuffered path (bufferedCreateMode t.attr.mode)
        (createTempWriteAtMaybeDirect who cfg t attempts)).Runs (answerCreating dst.leaves who) s
          tr u (some target) ∧ Began who t s u target tr := by
    intro s hs
    obtain ⟨u, target, opened, hopen, hkeep, hbegan⟩ := open_calmly who t false hs
    have honce : (openTempCreatedOnce path (bufferedCreateMode t.attr.mode) false).Runs
        (answerAccess who) s _ u (.ok target) := .perform calmly hopen hkeep
    have hplain : (openTempCreatedOnce path (bufferedCreateMode t.attr.mode) false).Keeps Plain
        fun _ _ => True :=
      Prog.Keeps.call (c := Call.openFile path (createFlags false false) _) rfl fun _ _ =>
        keeps_keepTarget trivial (fun _ => trivial) (fun _ => trivial) _ _ _
    refine ⟨_, u, target, (creating_of_access hplain honce).bind (.ret _ _), ?_⟩
    rw [List.append_nil]
    exact hbegan
  rw [createTempWriteAtMaybeDirect]
  by_cases hwanted : (cfg.writeDirect && directIoWorthwhile cfg t.size) = true
  · obtain ⟨left, rfl, -⟩ := refused_of_wanted hwanted hnot
    have hrefused : (openTempCreatedOnce path (copyDataMode t.attr.mode) true).Runs
        (answerCreating left who) v _ _ (.error .einval) :=
      .perform refusing (open_refusing ..) (.ret _ _)
    obtain ⟨gone, s, hgone, hs, hagain⟩ := discard_calmly left (copyDataMode t.attr.mode) hv hfree
    obtain ⟨tr, u, target, hrun, hbegan⟩ := hbuffered hagain
    refine ⟨s, ⟨.nextSeq .put, w.seq .put + 1⟩ ::
      ⟨.openFile path (createFlags false true) (copyDataMode t.attr.mode), .error .einval⟩ ::
        [⟨.unlink path, gone⟩], tr, u, target, .perform calmly hnext ?_, ?_, hs, hbegan⟩
    · dsimp only
      rw [if_pos hwanted]
      subst hpath
      exact hrefused.bind (.perform calmly hgone hrun)
    · simp [DirectIo.Met, switched]
  · obtain ⟨tr, u, target, hrun, hbegan⟩ := hbuffered hfree
    refine ⟨v, [⟨.nextSeq .put, w.seq .put + 1⟩], tr, u, target, .perform calmly hnext ?_, ?_, hv,
      hbegan⟩
    · dsimp only
      rw [if_neg hwanted]
      subst hpath
      exact hrun
    · cases dst <;> exact ⟨rfl, rfl⟩

theorem createTarget_calmly (hw : Ready who t w) (hnot : ¬ MadeForDirect cfg t dst cfg.inplace) :
    ∃ s before tr u target, (createTarget who cfg t).Runs (answerCreating dst.leaves who) w
      (before ++ tr) u (some target) ∧ dst.Met before ∧ Readable who t s ∧
        Began who t s u target tr := by
  rw [createTarget]
  split
  · rename_i hin
    rw [hin] at hnot
    obtain ⟨before, tr, u, target, hrun, hmet, hbegan⟩ := createFinal_calmly hw.absent hnot
    exact ⟨w, before, tr, u, target, hrun, hmet, hw.toReadable, hbegan⟩
  · rename_i hin
    rw [Bool.eq_false_of_not_eq_true hin] at hnot
    exact createTemp_calmly hw hnot 99

/-- Both files are open. -/
theorem Began.copying (h : Began who t w u target tr) (hw : Readable who t w)
    (hids : t.attr.mode &&& 0xC00 = 0) : Copying who t target u := by
  have hwithin := Fs.within_create w.fs (resolve target.path)
    (newNode who (.regular []) (bufferedCreateMode t.attr.mode))
  rw [← h.fs] at hwithin
  have hold : t.ino < w.fs.next := hw.sane.bounded _ _ hw.source.entry
  have hsrc : u.fs.node t.ino = w.fs.node t.ino := by
    rw [h.fs]
    exact Function.update_of_ne hold.ne _ _
  have hino : target.fd.ino = w.fs.next := by rw [h.fd]
  have hnew : u.fs.node target.fd.ino =
      newNode who (.regular []) (bufferedCreateMode t.attr.mode) := by
    rw [h.fs, hino]
    exact Function.update_self ..
  have hnone : ∀ k, k = resolve target.path → w.fs.entry k = none := by
    rintro k rfl
    exact h.free.entry
  have hdest : Reaches u.fs target.path w.fs.next := by
    rw [h.fs]
    exact h.free.create hw.sane _
  have hmode : bufferedCreateMode t.attr.mode = t.attr.mode &&& 0xFFF := if_neg (not_not.mpr hids)
  have howner : (0xFFF : UInt32) &&& 0xFFF &&& 0x1FF = 0x1FF := rfl
  constructor
  · exact hw.within hwithin hnone hsrc
  · rw [hino]
    exact hdest
  · rw [h.fd]
  · refine ⟨[], ?_⟩
    change (u.fs.node target.fd.ino).kind = .regular []
    rw [hnew]
    rfl
  · constructor
    · rw [hino]
      exact hdest.entry
    · rw [hnew]
      rfl
    · rw [hnew]
      rfl
    · rw [hnew, newNode, hmode]
      simp only [UInt32.and_assoc]
      rw [← UInt32.and_assoc 0xFFF 0xFFF, howner]
  · rw [hino]
    exact hold.ne'

theorem Ready.congr (h : Ready who t w) (hfs : v.fs = w.fs) (hseq : v.seq = w.seq) :
    Ready who t v where
  toReadable := h.toReadable.within (P := fun _ => False) (hfs ▸ .refl _ _) nofun (by rw [hfs])
  unprivileged := h.unprivileged
  absent := hfs ▸ h.absent
  fresh := by
    rw [hfs, hseq]
    exact h.fresh

/-- Files that are given up. -/
theorem leave_calmly (who : Identity) (w : World) (fdIn : Fd) (target : Target) :
    ∃ tr v, (leaveTarget fdIn target false false).Runs (answerAccess who) w tr v false := by
  have hclose : answerAccess who w calmly (.close fdIn) = some (.ok (), w) := rfl
  have hunlink : ∃ r v, answerAccess who w calmly (.unlink target.path) = some (r, v) :=
    ⟨_, _, rfl⟩
  obtain ⟨r, v, hunlink⟩ := hunlink
  exact ⟨_, v, .perform calmly hclose (.perform calmly hunlink (.ret _ _))⟩

theorem refused_of_stuck {r : Route} (hw : Ready who t w) (hstuck : Stuck cfg t src dst r) :
    ∃ tr v, RunsOn who cfg t src dst r w tr v false ∧ ReopenRefused t tr := by
  cases r with
  | sparse | large => exact hstuck.elim
  | small =>
  obtain ⟨hreads, hnot, hids, hshut⟩ := hstuck
  obtain ⟨opening, u, hopen, hsrc, hfs, hseq⟩ := source_calmly hw hreads
  have hu := hw.congr hfs hseq
  obtain ⟨s, before, last, z, target, hcreate, hmet, hs, hbegan⟩ := createTarget_calmly hu hnot
  have hz := hbegan.copying hs hids
  rw [← bulkEnd_lt_iff] at hshut
  obtain ⟨mid, p, hcontent, hseen⟩ := copyContent_shut cfg hu.unprivileged hz hshut
  obtain ⟨rest, v, hleave⟩ := leave_calmly who p ⟨t.src, t.ino⟩ target
  refine ⟨opening ++ ((before ++ last) ++ (mid ++ rest)), v, ?_, target.path, ?_, ?_, ?_⟩
  · exact .made hopen hsrc hcreate (hmet.append (hbegan.met dst)) (hcontent.bind hleave)
  · intro heq
    have hentry := hbegan.free.entry
    rw [heq, hs.source.entry] at hentry
    cases hentry
  · simp [hbegan.made]
  · simp [hseen]

/-- Exactly when a copy can fail so. -/
theorem reopening_iff (who : Identity) (cfg : Tuning) (t : Task) (w : World) (src dst : DirectIo)
    (r : Route) (hw : Ready who t w) :
    (∀ tr v, RunsOn who cfg t src dst r w tr v false → ¬ ReopenRefused t tr) ↔
      ¬ Stuck cfg t src dst r := by
  constructor
  · intro hnever hstuck
    obtain ⟨tr, v, hrun, hrefused⟩ := refused_of_stuck hw hstuck
    exact hnever tr v hrun hrefused
  · exact fun hstuck tr v hrun => not_refused_of_not_stuck hw hstuck hrun

end Shut

def user : Identity := ⟨1000, 1000, [], 1⟩

/-- `/a` has mode 0444. -/
def readOnlyFile : Fs :=
  .flat [([97], 1)]
    (fun i => ⟨if i = 0 then .directory else .regular [7], if i = 0 then 0x1ED else 0x124, 1000, 1000,
      (0, 0), (0, 0)⟩) 2

/-- `/a` is copied to `/b`. -/
def readOnlyTask : Task where
  src := [47, 97]
  dstDir := [47]
  name := [98]
  ino := 1
  size := 1
  attr := ⟨1000, 1000, 0x124, (0, 0), (0, 0)⟩
  name_ordinary := ordinary_b

/-- Only reads bypass the page cache. -/
def readsOnly : Tuning := { plain with readDirect := true }

theorem free_readOnlyFile {c : Bytes} (hc : Ordinary c) (hne : c ≠ [97]) :
    Free readOnlyFile (atDir [47] c) := by
  have hresolve : resolve (atDir (render []) c) = [] ++ [c] := resolve_atDir (by simp) hc
  change resolve (atDir [47] c) = [c] at hresolve
  constructor
  · rw [atDir, if_neg hc.1.1]
    simp
  · rw [hresolve]
    rfl
  · rw [hresolve]
    change [([97], 1)].lookup c = none
    rw [List.lookup_cons, show (c == [97]) = false by simpa using hne]
    rfl

theorem ready_readOnlyFile : Ready user readOnlyTask (.initial readOnlyFile) where
  sane := (Fs.flat_tree rfl (by decide) (by simp)).toSane
  source := ⟨by decide, by decide +kernel, by decide +kernel⟩
  regular := by decide
  readable := by decide
  same := by decide
  unprivileged := by decide
  absent := free_readOnlyFile ⟨⟨by decide, by decide⟩, by decide⟩ (by decide)
  fresh := by
    refine free_readOnlyFile ?_ ?_
    · rw [makeTempName, List.append_assoc]
      apply ordinary_tmp
      simp only [List.mem_append, List.mem_cons, not_or]
      exact ⟨slash_notMem_decimal _, by decide, slash_notMem_decimal _⟩
    · intro heq
      have hlen := congrArg List.length heq
      simp [makeTempName, tmpPrefix] at hlen

theorem stuck_readOnlyFile : Stuck readsOnly readOnlyTask .active .active .small :=
  ⟨⟨rfl, rfl, rfl⟩, fun hmade => Bool.false_ne_true hmade.1, rfl, .inl ⟨by decide, rfl⟩⟩

theorem readOnly_not_stuck : ¬ Stuck plain readOnlyTask .active .active .small ∧
    ∀ tr v, RunsOn user plain readOnlyTask .active .active .small (.initial readOnlyFile) tr v false →
      ¬ ReopenRefused readOnlyTask tr := by
  have hnot : ¬ Stuck plain readOnlyTask .active .active .small :=
    fun hstuck => Bool.false_ne_true hstuck.1.1
  exact ⟨hnot, (reopening_iff user plain readOnlyTask (.initial readOnlyFile) .active .active .small
    ready_readOnlyFile).mpr hnot⟩

/-- The copy of a read-only file can fail. -/
theorem readOnly_refused :
    ¬ ∀ (who : Identity) (cfg : Tuning) (t : Task) (w : World) (src dst : DirectIo) (r : Route),
      Ready who t w → ∀ tr v, RunsOn who cfg t src dst r w tr v false → ¬ ReopenRefused t tr := by
  intro hall
  obtain ⟨tr, v, hrun, hrefused⟩ := refused_of_stuck ready_readOnlyFile stuck_readOnlyFile
  exact hall user readsOnly readOnlyTask _ .active .active .small ready_readOnlyFile tr v hrun hrefused

end Ecopy.Workers.Reopening
