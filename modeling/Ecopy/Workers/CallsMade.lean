import Ecopy.Workers.OtherCopies

/-!
# Which calls the programs of a copy make

A program of a local copy makes only calls of a given kind when those that are written in
it are of that kind. The lemmas hold for every kind, so that each property of calls is
carried over to whole programs by naming the few calls that matter.
-/
namespace Ecopy.Workers.CallsMade
open Protocol Ecopy.Path FileSystem Server Lib.Calls
open SmallCopy OtherCopies

variable {ok : Call → Prop} {resp : (c : Call) → c.Result → Prop} {who : Identity} {cfg : Tuning}
  {t : Task} {fd fdIn fdOut : Fd} {path : Bytes}

theorem keeps_attemptIf (h : ok .attempt) (wanted : Bool) : (attemptIf wanted).Keeps ok resp := by
  unfold attemptIf
  split
  · exact Prog.Keeps.last (c := Call.attempt) h
  · trivial

section Source

theorem keeps_keepSource (hstat : ok (.fstat fd)) (hclose : ok (.close fd)) (direct : Bool) :
    (keepSource t fd direct).Keeps ok resp := by
  refine Prog.Keeps.call (c := Call.fstat fd) hstat ?_
  intro st _
  cases st with
  | error e => exact Prog.Keeps.call (c := Call.close fd) hclose fun _ _ => trivial
  | ok n =>
    change Prog.Keeps _ _ (if Node.isRegular n.2 && sameOpenedSource t n.1 n.2 then _ else _)
    split
    · trivial
    · exact Prog.Keeps.call (c := Call.close fd) hclose fun _ _ => trivial

theorem keeps_openReadAtBuffered (hopen : ok (.openFile t.src (readFlags false) 0))
    (hstat : ∀ fd, ok (.fstat fd)) (hclose : ∀ fd, ok (.close fd)) :
    (openReadAtBuffered t).Keeps ok resp := by
  refine Prog.Keeps.call (c := Call.openFile t.src (readFlags false) 0) hopen ?_
  intro opened _
  cases opened with
  | error e => trivial
  | ok fd => exact keeps_keepSource (hstat fd) (hclose fd) false

theorem keeps_openReadAtMaybeDirect (hopen : ok (.openFile t.src (readFlags false) 0))
    (hattempt : ok .attempt) (hstat : ∀ fd, ok (.fstat fd)) (hclose : ∀ fd, ok (.close fd)) :
    (openReadAtMaybeDirect cfg t).Keeps ok resp := by
  unfold openReadAtMaybeDirect
  split
  · refine Prog.Keeps.call (c := Call.openFile t.src (readFlags false) 0) hopen ?_
    intro opened _
    cases opened with
    | ok fd =>
      exact Prog.Keeps.call (c := Call.attempt) hattempt fun direct _ =>
        keeps_keepSource (hstat fd) (hclose fd) direct
    | error e =>
      dsimp only
      split
      · exact keeps_openReadAtBuffered hopen hstat hclose
      · trivial
  · exact keeps_openReadAtBuffered hopen hstat hclose

end Source

section Target
variable (hattempt : ok .attempt) (hstat : ∀ fd, ok (.fstat fd)) (hclose : ∀ fd, ok (.close fd))
include hattempt hstat hclose

theorem keeps_keepTarget (path : Bytes) (direct : Bool) (opened : Except Errno Fd) :
    (keepTarget path direct opened).Keeps ok resp := by
  cases opened with
  | error e => trivial
  | ok fd =>
    refine Prog.Keeps.bind (keeps_attemptIf hattempt direct) ?_
    intro direct
    refine Prog.Keeps.bind ?_ ?_
    · refine Prog.Keeps.call (c := Call.fstat fd) (hstat fd) ?_
      intro st _
      cases st <;> trivial
    · intro mode
      cases mode with
      | ok mode => trivial
      | error e => exact Prog.Keeps.call (c := Call.close fd) (hclose fd) fun _ _ => trivial

theorem keeps_openTempWriteExisting
    (hopen : ok (.openFile path ⟨true, false, false, false, false, false⟩ 0)) :
    (openTempWriteExistingAtBuffered path).Keeps ok resp :=
  Prog.Keeps.call (c := Call.openFile path _ 0) hopen fun opened _ =>
    keeps_keepTarget hattempt hstat hclose path false opened

theorem keeps_openFinalCreatedOnce (mode : UInt32) (direct : Bool)
    (hopen : ok (.openFile path (createFlags true direct) mode)) (hfind : ok (.stat path))
    (hchmod : ∀ i, ok (.fchmod ⟨path, i⟩ (copyDataMode mode))) :
    (openFinalCreatedOnce path mode direct).Keeps ok resp := by
  refine Prog.Keeps.call (c := Call.openFile path (createFlags true direct) mode) hopen ?_
  intro opened _
  by_cases hacces : opened = .error .eacces
  · subst hacces
    refine Prog.Keeps.call (c := Call.stat path) hfind ?_
    intro found _
    cases found with
    | error e => trivial
    | ok found =>
      refine Prog.Keeps.call (c := Call.fchmod ⟨path, found.1⟩ _) (hchmod found.1) ?_
      intro r _
      cases r with
      | error e => trivial
      | ok _ =>
        refine Prog.Keeps.call (c := Call.openFile path (createFlags true direct) mode) hopen ?_
        exact fun again _ => keeps_keepTarget hattempt hstat hclose path direct again
  · have hkeep : (keepTarget path direct opened).Keeps ok resp :=
      keeps_keepTarget hattempt hstat hclose path direct opened
    cases opened with
    | ok fd => exact hkeep
    | error e =>
      cases e with
      | eacces => exact absurd rfl hacces
      | _ => exact hkeep

theorem keeps_createFinal (hopen : ∀ mode direct, ok (.openFile t.dst (createFlags true direct) mode))
    (hfind : ok (.stat t.dst)) (hchmod : ∀ i mode, ok (.fchmod ⟨t.dst, i⟩ mode)) :
    (createFinalWriteAtMaybeDirect cfg t).Keeps ok resp := by
  have honce : ∀ mode direct, (openFinalCreatedOnce t.dst mode direct).Keeps ok resp :=
    fun mode direct => keeps_openFinalCreatedOnce hattempt hstat hclose mode direct (hopen mode direct)
      hfind fun i => hchmod i _
  have hbuffered : (do
      return (← openFinalCreatedOnce t.dst (bufferedCreateMode t.attr.mode) false).toOption :
        Handler (Option Target)).Keeps ok resp :=
    Prog.Keeps.bind (honce _ _) fun _ => trivial
  unfold createFinalWriteAtMaybeDirect
  dsimp only
  split
  · refine Prog.Keeps.bind (honce _ _) ?_
    intro opened
    cases opened with
    | ok target => trivial
    | error e =>
      dsimp only
      split
      · exact hbuffered
      · trivial
  · exact hbuffered

theorem keeps_createTempAt (mode : UInt32) (hseq : ok (.nextSeq .put))
    (hopen : ∀ path mode direct, ok (.openFile path (createFlags false direct) mode))
    (hunlink : ∀ path, ok (.unlink path)) (attempts : ℕ) :
    (createTempAt mode who cfg t attempts).Keeps ok resp := by
  have honce : ∀ path mode direct, (openTempCreatedOnce path mode direct).Keeps ok resp := by
    intro path mode direct
    refine Prog.Keeps.call (c := Call.openFile path (createFlags false direct) mode)
      (hopen path mode direct) ?_
    exact fun opened _ => keeps_keepTarget hattempt hstat hclose path direct opened
  induction attempts with
  | zero => trivial
  | succ attempts ih =>
    refine Prog.Keeps.call (c := Call.nextSeq .put) hseq ?_
    intro n _
    have hbuffered : (createBuffered (atDir t.dstDir (makeTempName who.pid n)) mode
        (createTempAt mode who cfg t attempts)).Keeps ok resp := by
      refine Prog.Keeps.bind (honce _ _ _) ?_
      intro opened
      cases opened with
      | ok target => trivial
      | error e =>
        cases e with
        | eexist => exact ih
        | _ => trivial
    dsimp only
    split
    · refine Prog.Keeps.bind (honce _ _ _) ?_
      intro opened
      cases opened with
      | ok target => trivial
      | error e =>
        have hother : (createFallback (atDir t.dstDir (makeTempName who.pid n)) mode e
            (createTempAt mode who cfg t attempts)).Keeps ok resp := by
          unfold createFallback
          split
          · exact Prog.Keeps.call (c := Call.unlink _) (hunlink _) fun _ _ => hbuffered
          · trivial
        cases e with
        | eexist => exact ih
        | _ => exact hother
    · exact hbuffered

end Target

section Data
variable (hread : ∀ len off, ok (.pread fdIn len off)) (hwrite : ∀ off data, ok (.pwrite fdOut off data))
include hread hwrite

theorem keeps_copyTailBufferedFds (start stop : ℕ) :
    (copyTailBufferedFds fdIn fdOut start stop).Keeps ok resp := by
  unfold copyTailBufferedFds
  split
  · trivial
  refine Prog.Keeps.call (c := Call.pread fdIn _ _) (hread _ _) ?_
  intro data _
  cases data with
  | error e => trivial
  | ok data =>
    refine Prog.Keeps.call (c := Call.pwrite fdOut _ _) (hwrite _ _) ?_
    intro r _
    cases r <;> trivial

theorem keeps_copyLoop (hattempt : ok .attempt) (fuel copyEnd pos offset : ℕ)
    (range bulkDirect : Bool) :
    (copyLoop cfg t fdIn fdOut fuel copyEnd pos offset range bulkDirect).Keeps ok resp := by
  induction fuel generalizing copyEnd pos offset range bulkDirect with
  | zero => trivial
  | succ fuel ih =>
    unfold copyLoop
    split
    · trivial
    cases range with
    | true =>
      refine Prog.Keeps.bind ?_ ?_
      · refine Prog.Keeps.call (c := Call.pread fdIn _ _) (hread _ _) ?_
        intro data _
        cases data with
        | error e => trivial
        | ok data =>
          refine Prog.Keeps.call (c := Call.pwrite fdOut _ _) (hwrite _ _) ?_
          intro r _
          cases r <;> trivial
      · intro outcome
        cases outcome with
        | copied => exact ih _ _ _ _ _
        | failed => trivial
        | unsupported =>
          exact Prog.Keeps.bind (keeps_attemptIf hattempt _) fun switched => ih _ _ _ _ _
    | false =>
      refine Prog.Keeps.call (c := Call.pread fdIn _ _) (hread _ _) ?_
      intro data _
      cases data with
      | error e => trivial
      | ok data =>
        refine Prog.Keeps.bind ?_ ?_
        · unfold pwriteAll
          split
          · trivial
          · exact Prog.Keeps.last (c := Call.pwrite fdOut _ _) (hwrite _ _)
        · intro r
          cases r with
          | error e => trivial
          | ok _ => exact ih _ _ _ _ _

theorem keeps_copyByteRange (fuel pos stop : ℕ) :
    (copyByteRangeBuffered cfg fdIn fdOut fuel pos stop).Keeps ok resp := by
  induction fuel generalizing pos with
  | zero => trivial
  | succ fuel ih =>
    unfold copyByteRangeBuffered
    split
    · trivial
    refine Prog.Keeps.call (c := Call.pread fdIn _ _) (hread _ _) ?_
    intro data _
    cases data with
    | error e => trivial
    | ok data =>
      refine Prog.Keeps.call (c := Call.pwrite fdOut _ _) (hwrite _ _) ?_
      intro r _
      cases r with
      | error e => trivial
      | ok _ => exact ih _

theorem keeps_copyDataExtents (seek : ℕ → Seek) (size fuel pos : ℕ) :
    (copyDataExtentsBuffered cfg seek fdIn fdOut size fuel pos).Keeps ok resp := by
  induction fuel generalizing pos with
  | zero => trivial
  | succ fuel ih =>
    unfold copyDataExtentsBuffered
    split
    · trivial
    cases seek pos with
    | noData => trivial
    | unsupported => exact keeps_copyByteRange hread hwrite _ _ _
    | failed => trivial
    | run data hole =>
      dsimp only
      split
      · trivial
      refine Prog.Keeps.bind (keeps_copyByteRange hread hwrite _ _ _) ?_
      intro copied
      cases copied with
      | false => trivial
      | true => exact ih _

theorem keeps_moveRanges (ranges : List (ℕ × ℕ)) : (moveRanges fdIn fdOut ranges).Keeps ok resp := by
  induction ranges with
  | nil => trivial
  | cons range ranges ih =>
    obtain ⟨pos, len⟩ := range
    refine Prog.Keeps.call (c := Call.pread fdIn _ _) (hread _ _) ?_
    intro data _
    cases data with
    | error e => trivial
    | ok data =>
      refine Prog.Keeps.call (c := Call.pwrite fdOut _ _) (hwrite _ _) ?_
      intro r _
      cases r with
      | error e => trivial
      | ok _ => exact ih

end Data

theorem keeps_presize (hsize : ∀ size, ok (.ftruncate fd size)) (halloc : ∀ size, ok (.fallocate fd size))
    (sparse : Bool) : (presize t sparse fd).Keeps ok resp := by
  unfold presize
  split
  · trivial
  split
  · exact Prog.Keeps.call (c := Call.ftruncate fd _) (hsize _) fun _ _ => trivial
  refine Prog.Keeps.call (c := Call.fallocate fd _) (halloc _) ?_
  intro r _
  cases r with
  | ok _ => trivial
  | error e =>
    dsimp only
    split
    · exact Prog.Keeps.call (c := Call.ftruncate fd _) (hsize _) fun _ _ => trivial
    · trivial

theorem keeps_preserveFdMetadata (hchown : ∀ uid gid, ok (.fchown fd uid gid))
    (hchmod : ∀ mode, ok (.fchmod fd mode)) (htimes : ∀ atime mtime, ok (.futimens fd atime mtime))
    (m : Meta) (known : Option UInt32) : (preserveFdMetadata who cfg fd m known).Keeps ok resp := by
  have hset : ∀ moded : Except Errno Unit, (do
      if moded.isOk then
        if cfg.preserveTimes then return (← Sys.futimens fd m.atime m.mtime).isOk else return true
      else return false : Handler Bool).Keeps ok resp := by
    intro moded
    split
    · split
      · exact Prog.Keeps.call (c := Call.futimens fd _ _) (htimes _ _) fun _ _ => trivial
      · trivial
    · trivial
  refine Prog.Keeps.bind ?_ ?_
  · unfold applyOwner
    split
    · trivial
    dsimp only
    split
    · trivial
    · refine Prog.Keeps.call (c := Call.fchown fd _ _) (hchown _ _) ?_
      intro r _
      cases r <;> trivial
  · intro owned
    split
    · trivial
    by_cases hknown : known = some (m.mode &&& 0xFFF)
    · simp only [if_pos hknown]
      exact hset (.ok ())
    · simp only [if_neg hknown]
      exact Prog.Keeps.call (c := Call.fchmod fd _) (hchmod _) fun r _ => hset r

/-- After the file was opened by its name. -/
theorem preservePath_opens (hstat : ∀ fd, ok (.fstat fd)) (hclose : ∀ fd, ok (.close fd))
    (hchown : ∀ fd uid gid, ok (.fchown fd uid gid)) (hchmod : ∀ fd mode, ok (.fchmod fd mode))
    (htimes : ∀ fd atime mtime, ok (.futimens fd atime mtime)) (m : Meta) :
    ∃ k, preservePathMetadataAt who cfg path m = Sys.openFile path (readFlags false) 0 >>= k ∧
      ∀ opened, (k opened).Keeps ok resp := by
  refine ⟨_, rfl, ?_⟩
  intro opened
  cases opened with
  | error e => trivial
  | ok fd =>
    refine Prog.Keeps.call (c := Call.fstat fd) (hstat fd) ?_
    intro st _
    cases st with
    | error e => exact Prog.Keeps.call (c := Call.close fd) (hclose fd) fun _ _ => trivial
    | ok n =>
      obtain ⟨j, n⟩ := n
      have hend : ∀ done : Bool, (do
          let _ ← Sys.close fd
          return done : Handler Bool).Keeps ok resp :=
        fun done => Prog.Keeps.call (c := Call.close fd) (hclose fd) fun _ _ => trivial
      dsimp only
      split
      · exact Prog.Keeps.bind
          (keeps_preserveFdMetadata (hchown fd) (hchmod fd) (htimes fd) m none) hend
      · exact hend false

theorem keeps_preservePathMetadataAt (hopen : ok (.openFile path (readFlags false) 0))
    (hstat : ∀ fd, ok (.fstat fd)) (hclose : ∀ fd, ok (.close fd))
    (hchown : ∀ fd uid gid, ok (.fchown fd uid gid)) (hchmod : ∀ fd mode, ok (.fchmod fd mode))
    (htimes : ∀ fd atime mtime, ok (.futimens fd atime mtime)) (m : Meta) :
    (preservePathMetadataAt who cfg path m).Keeps ok resp := by
  have hopens : ∃ k, preservePathMetadataAt who cfg path m = Sys.openFile path (readFlags false) 0 >>= k ∧
      ∀ opened, (k opened).Keeps ok resp := preservePath_opens hstat hclose hchown hchmod htimes m
  obtain ⟨k, heq, hk⟩ := hopens
  rw [heq]
  exact Prog.Keeps.call (c := Call.openFile path _ 0) hopen fun opened _ => hk opened

theorem keeps_renameTempToFinalAt (hfind : ∀ p, ok (.lstat p)) (hrename : ok (.rename path t.dst)) :
    (renameTempToFinalAt t path).Keeps ok resp := by
  refine Prog.Keeps.call (c := Call.lstat path) (hfind path) ?_
  intro found _
  cases found with
  | error e => trivial
  | ok found =>
    obtain ⟨i, n⟩ := found
    dsimp only
    split
    · trivial
    have hmove : ∀ free : Bool, (renameIfFree t path free).Keeps ok resp := by
      intro free
      unfold renameIfFree
      split
      · trivial
      · refine Prog.Keeps.call (c := Call.rename path t.dst) hrename ?_
        intro r _
        cases r <;> trivial
    refine Prog.Keeps.call (c := Call.lstat t.dst) (hfind t.dst) ?_
    intro there _
    cases there with
    | ok m => exact hmove _
    | error e => exact hmove _

theorem keeps_leaveTarget {target : Target} (hclose : ∀ fd, ok (.close fd))
    (hunlink : ok (.unlink target.path)) (done stillOpen : Bool) :
    (leaveTarget fdIn target done stillOpen).Keeps ok resp := by
  have hlast : (if done then return true else do
      let _ ← Sys.unlink target.path
      return false : Handler Bool).Keeps ok resp := by
    split
    · trivial
    · exact Prog.Keeps.call (c := Call.unlink target.path) hunlink fun _ _ => trivial
  refine Prog.Keeps.call (c := Call.close fdIn) (hclose fdIn) ?_
  intro _ _
  cases stillOpen with
  | false => exact hlast
  | true => exact Prog.Keeps.call (c := Call.close target.fd) (hclose target.fd) fun _ _ => hlast

/-- A target that is kept has the path it was opened with. -/
theorem keepTarget_path (path : Bytes) (direct : Bool) (opened : Except Errno Fd) :
    (keepTarget path direct opened).Safe (fun _ => True) (fun _ _ => True)
      fun kept => ∀ target, kept = .ok target → target.path = path := by
  unfold keepTarget
  cases opened with
  | error e => exact fun target h => by cases h
  | ok fd =>
    refine Prog.Safe.bind (keeps_attemptIf trivial direct) fun switched _ => ?_
    refine Prog.Safe.perform (c := Call.fstat fd) trivial fun st _ => ?_
    cases st with
    | error e =>
      exact Prog.Safe.perform (c := Call.close fd) trivial fun _ _ target h => by cases h
    | ok n =>
      change Prog.Safe _ _ _ (keepValidated path fd switched (if Node.isRegular n.2 then
        .ok (n.2.mode &&& 0xFFF) else .error .eexist))
      unfold keepValidated
      split
      · exact Prog.Safe.perform (c := Call.close fd) trivial fun _ _ => fun target h => by cases h
      · intro target h
        rw [← Except.ok.inj h]

theorem openFinalCreatedOnce_path (path : Bytes) (mode : UInt32) (direct : Bool) :
    (openFinalCreatedOnce path mode direct).Safe (fun _ => True) (fun _ _ => True)
      fun kept => ∀ target, kept = .ok target → target.path = path := by
  refine Prog.Safe.perform (c := Call.openFile path (createFlags true direct) mode) trivial ?_
  intro opened _
  by_cases hacces : opened = .error .eacces
  · subst hacces
    have hmod : (fchmodat path (copyDataMode mode)).Keeps (fun _ => True) fun _ _ => True := by
      refine Prog.Keeps.call (c := Call.stat path) trivial fun found _ => ?_
      cases found with
      | error e => trivial
      | ok n => exact Prog.Keeps.last (c := Call.fchmod ⟨path, n.1⟩ (copyDataMode mode)) trivial
    refine Prog.Safe.bind hmod fun moded _ => ?_
    cases moded with
    | error e => exact fun target h => nomatch h
    | ok a =>
      exact Prog.Safe.perform (c := Call.openFile path (createFlags true direct) mode) trivial
        fun again _ => keepTarget_path path direct again
  · have hkeep := keepTarget_path path direct opened
    cases opened with
    | ok fd => exact hkeep
    | error e =>
      cases e with
      | eacces => exact absurd rfl hacces
      | _ => exact hkeep

theorem createFinal_path : (createFinalWriteAtMaybeDirect cfg t).Safe (fun _ => True)
    (fun _ _ => True) fun created => ∀ target, created = some target → target.path = t.dst := by
  have hbuffered : (do
      return (← openFinalCreatedOnce t.dst (bufferedCreateMode t.attr.mode) false).toOption :
        Handler (Option Target)).Safe (fun _ => True) (fun _ _ => True)
      fun created => ∀ target, created = some target → target.path = t.dst := by
    refine (openFinalCreatedOnce_path _ _ _).bind fun kept hkept => ?_
    intro target heq
    cases kept with
    | error e => cases heq
    | ok kept => exact hkept target (by rw [Option.some.inj heq])
  unfold createFinalWriteAtMaybeDirect
  dsimp only
  split
  · refine (openFinalCreatedOnce_path _ _ _).bind fun kept hkept => ?_
    cases kept with
    | ok kept =>
      intro target heq
      exact hkept target (by rw [Option.some.inj heq])
    | error e =>
      dsimp only
      split
      · exact hbuffered
      · exact fun target heq => nomatch heq
  · exact hbuffered

end Ecopy.Workers.CallsMade
