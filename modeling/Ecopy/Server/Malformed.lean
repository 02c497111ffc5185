import Ecopy.Remote.Agreement
import Ecopy.Server.ConfinedRuns

/-!
# Frames that cannot be decoded

A frame is malformed when reading its fields sets the decoder's error flag. Most
handlers test the flag before they act. `FTRUNCATE`, `COMMIT` and `ABORT` do not:
they act on the file whose identifier they have read, or on file 0 when the
identifier itself is missing. Such a frame is harmless exactly when there is no
file it could act on.
-/
namespace Ecopy.Server
open Protocol Ecopy.Path FileSystem Lib.Calls Lib.Runs
open Remote.Agreement (result)

def flagged {α : Type} (m : Decoder α) (payload : Bytes) : Bool :=
  (m.run (pdecInit payload)).2.error

/-- The requests that change something, apart from `WRITE`, with their fields. -/
def malformed (f : Frame) : Bool :=
  match f.type with
  | .mkdir => flagged Remote.Agreement.readMkdir f.payload
  | .open => flagged Remote.Agreement.readOpen f.payload
  | .ftruncate => flagged Remote.Agreement.readFtruncate f.payload
  | .commit => flagged Remote.Agreement.readCommit f.payload
  | .abort => flagged Remote.Agreement.readAbort f.payload
  | .setmeta => flagged Remote.Agreement.readSetmeta f.payload
  | .putfile => flagged Remote.Agreement.readPutfile f.payload
  | .symlink => flagged Remote.Agreement.readSymlink f.payload
  | .link => flagged Remote.Agreement.readLink f.payload
  | .unlink => flagged (Decoder.str pathMax) f.payload
  | _ => false

/-- Whatever the system calls do, handling the frame changes neither the file
system nor the table of open files. -/
def Inert (cfg : Config) (w : World) (f : Frame) : Prop :=
  (handle cfg f).Alone (answer cfg.who) (fun v _ => v.fs = w.fs ∧ v.files = w.files) w

/-- A file that `WRITE` and `FTRUNCATE` act on. -/
def OpenFile.live (f : OpenFile) : Bool := f.failed.isNone && f.fd.isSome

/-- There is no file that a handler which ignores the flag could act on. -/
def offTarget (w : World) (f : Frame) : Bool :=
  match f.type with
  | .ftruncate =>
    match w.files.find? (·.id == (decodeFtruncate f.payload).1) with
    | none => true
    | some g => !g.live
  | .commit => (w.files.find? (·.id == (decodeCommit f.payload).1)).isNone
  | .abort => (w.files.find? (·.id == decodeFid f.payload)).isNone
  | _ => true

theorem result_of_flagged {α : Type} {m : Decoder α} {payload : Bytes}
    (h : flagged m payload = true) : result m (pdecInit payload) = none :=
  if_pos h

/-- A handler that ends without a call is inert. -/
theorem inert_of_ret {cfg : Config} {w : World} {f : Frame} {r : Option Frame}
    (h : handle cfg f = .ret r) : Inert cfg w f := by
  rw [Inert, h]
  exact ⟨rfl, rfl⟩

theorem decodePath_of_flagged {payload : Bytes} (h : flagged (Decoder.str pathMax) payload = true) :
    decodePath payload = none := by
  have hflag : (pdecStr (pdecInit payload) pathMax).2.error = true := h
  unfold decodePath
  cases hr : pdecU32 (pdecInit payload) with
  | mk n d =>
    simp only [pdecStr, hr] at hflag ⊢
    by_cases hcond : d.error ∨ n.toNat ≥ pathMax ∨ d.rest.length < n.toNat
    · rw [if_pos hcond]
    · rw [if_neg hcond] at hflag
      exact absurd (.inl hflag) hcond

theorem handle_flagged {cfg : Config} {f : Frame} (h : malformed f = true)
    (htrunc : f.type ≠ .ftruncate) (hcommit : f.type ≠ .commit) (habort : f.type ≠ .abort) :
    handle cfg f = .ret none := by
  unfold malformed at h
  unfold handle
  split at h
  · next ht =>
    have hnone := result_of_flagged h
    rw [Remote.Agreement.readMkdir_result, Option.map_eq_none_iff] at hnone
    simp only [ht]
    unfold handleMkdir
    rw [hnone]
    rfl
  · next ht =>
    have hnone := result_of_flagged h
    rw [Remote.Agreement.readOpen_result, Option.map_eq_none_iff] at hnone
    simp only [ht]
    unfold handleOpen
    rw [hnone]
    rfl
  · next ht => exact absurd ht htrunc
  · next ht => exact absurd ht hcommit
  · next ht => exact absurd ht habort
  · next ht =>
    have hnone := result_of_flagged h
    rw [Remote.Agreement.readSetmeta_result, Option.map_eq_none_iff] at hnone
    simp only [ht]
    unfold handleSetmeta
    rw [hnone]
    rfl
  · next ht =>
    have hnone := result_of_flagged h
    rw [Remote.Agreement.readPutfile_result, Option.map_eq_none_iff] at hnone
    simp only [ht]
    unfold handlePutfile
    rw [hnone]
    rfl
  · next ht =>
    have hnone := result_of_flagged h
    rw [Remote.Agreement.readSymlink_result, Option.map_eq_none_iff] at hnone
    simp only [ht]
    unfold handleSymlink
    rw [hnone]
    rfl
  · next ht =>
    have hnone := result_of_flagged h
    rw [Remote.Agreement.readLink_result, Option.map_eq_none_iff] at hnone
    simp only [ht]
    unfold handleLink
    rw [hnone]
    rfl
  · next ht =>
    have hnone : decodePath f.payload = none := decodePath_of_flagged h
    simp only [ht]
    unfold handleUnlink
    rw [hnone]
    rfl
  · cases h

theorem pdecU64_of_error {d : Pdec} (h : (pdecU64 d).2.error = true) : (pdecU64 d).1 = 0 := by
  simp only [pdecU64, pdecBytes] at h ⊢
  by_cases hcond : d.error ∨ d.rest.length < 8
  · simp only [if_pos hcond]
  · rw [if_neg hcond] at h
    exact absurd (.inl h) hcond

/-- A size that is cut off is zero. -/
theorem size_of_flagged {payload : Bytes}
    (h : flagged Remote.Agreement.readFtruncate payload = true) :
    (decodeFtruncate payload).2 = 0 := by
  have hflag : (pdecU64 (pdecU64 (pdecInit payload)).2).2.error = true := h
  have hsize : (decodeFtruncate payload).2 =
      signed64 (pdecU64 (pdecU64 (pdecInit payload)).2).1 := rfl
  rw [hsize, pdecU64_of_error hflag]
  rfl

section Table
variable {files : List OpenFile} {id : UInt64} {f g : OpenFile}

/-- Storing a changed file changes the table. -/
theorem replaceFile_ne (h : files.find? (·.id == id) = some f) (hne : g ≠ f) (hid : g.id = f.id) :
    replaceFile g files ≠ files := by
  induction files with
  | nil => cases h
  | cons a files ih =>
    by_cases ha : a.id = id
    · have haf : a = f := by simpa [ha] using h
      subst haf
      simp only [replaceFile, if_pos hid.symm, ne_eq, List.cons.injEq, not_and]
      exact fun heq => absurd heq hne
    · have hf : files.find? (·.id == id) = some f := by simpa [ha] using h
      have hfid : f.id = id := by simpa using List.find?_some hf
      have hag : a.id ≠ g.id := by
        rw [hid, hfid]
        exact ha
      simp only [replaceFile, if_neg hag, ne_eq, List.cons.injEq, true_and]
      exact ih hf

theorem eraseP_ne (h : files.find? (·.id == id) = some f) :
    files.eraseP (·.id == id) ≠ files := by
  intro heq
  have hmem := List.mem_of_find?_eq_some h
  have hfid : (f.id == id) = true := by simpa using List.find?_some h
  have hlen : (files.eraseP (·.id == id)).length = files.length - 1 :=
    List.length_eraseP_of_mem hmem hfid
  have hpos := List.length_pos_of_mem hmem
  rw [heq] at hlen
  omega

end Table

/-- A system call that fails for a reason of its own. -/
def refused : Choice := ⟨some .io, 0, false⟩

section Cases
variable {cfg : Config} {w : World} {f : Frame}

/-- What is left of a program after the table has been searched. -/
theorem alone_findFile {α : Type} {who : Identity} {post : World → α → Prop} {id : UInt64}
    {k : Option OpenFile → Handler α} :
    (Sys.findFile id >>= k).Alone (answer who) post w ↔
      (k (w.files.find? (·.id == id))).Alone (answer who) post w := by
  constructor
  · exact fun h => h success _ _ rfl
  · intro h x r t hr
    obtain ⟨rfl, rfl⟩ := Prod.mk.inj (Option.some.inj hr)
    exact h

theorem inert_ftruncate_iff (ht : f.type = .ftruncate) (h : malformed f = true) :
    Inert cfg w f ↔ offTarget w f = true := by
  have hsize : (decodeFtruncate f.payload).2 = 0 := by
    apply size_of_flagged
    simpa [malformed, ht] using h
  simp only [offTarget, Inert, handle, ht, silent]
  rw [Prog.alone_bind_iff]
  unfold handleFtruncate
  rw [alone_findFile]
  cases hg : w.files.find? (·.id == (decodeFtruncate f.payload).1) with
  | none => exact iff_of_true ⟨rfl, rfl⟩ rfl
  | some g =>
    cases hfailed : g.failed with
    | some e =>
      simp only [hfailed]
      exact iff_of_true ⟨rfl, rfl⟩ (by simp [OpenFile.live, hfailed])
    | none =>
      cases hfd : g.fd with
      | none =>
        simp only [hfailed, hfd]
        exact iff_of_true ⟨rfl, rfl⟩ (by simp [OpenFile.live, hfd])
      | some fd =>
        simp only [hfailed, hfd]
        refine iff_of_false (fun hall => ?_) (by simp [OpenFile.live, hfailed, hfd])
        rw [hsize] at hall
        -- the call fails and the file is marked
        have hend := hall refused _ _ rfl success _ _ rfl
        have hne : (⟨g.id, some fd, g.inplace, g.direct, some Fault.io.errno, g.tmpPath,
            g.finalPath⟩ : OpenFile) ≠ g := by
          intro heq
          have hmark := congrArg OpenFile.failed heq
          rw [hfailed] at hmark
          cases hmark
        exact replaceFile_ne hg hne rfl hend.2

/-- The end of `COMMIT` and `ABORT`: the entry leaves the table. -/
theorem not_alone_removeFile {α : Type} {who : Identity} {post : World → α → Prop} {a : α}
    {g : OpenFile} {id : UInt64} (hpost : ∀ v a, post v a → v.files = w.files)
    (hg : w.files.find? (·.id == id) = some g) :
    ¬ (Sys.removeFile id >>= fun _ => pure a).Alone (answer who) post w := by
  intro hall
  have hend := hpost _ _ (hall success _ _ rfl)
  exact eraseP_ne hg hend

theorem inert_abort_iff (ht : f.type = .abort) :
    Inert cfg w f ↔ offTarget w f = true := by
  simp only [offTarget, Inert, handle, ht, silent]
  rw [Prog.alone_bind_iff]
  unfold handleAbort
  rw [alone_findFile]
  cases hg : w.files.find? (·.id == decodeFid f.payload) with
  | none => exact iff_of_true ⟨rfl, rfl⟩ rfl
  | some g =>
    refine iff_of_false (fun hall => ?_) (by simp)
    have hremove : ¬ (Sys.removeFile (decodeFid f.payload)).Alone (answer cfg.who)
        (fun t _ => t.fs = w.fs ∧ t.files = w.files) w :=
      not_alone_removeFile (a := ()) (fun v _ h => h.2) hg
    -- closing and unlinking may fail, which leaves everything as it is
    cases hfd : g.fd with
    | none =>
      cases hin : g.inplace with
      | true =>
        simp only [hfd, hin] at hall
        exact hremove hall
      | false =>
        simp only [hfd, hin] at hall
        exact hremove (hall refused _ _ rfl)
    | some fd =>
      cases hin : g.inplace with
      | true =>
        simp only [hfd, hin] at hall
        exact hremove (hall refused _ _ rfl)
      | false =>
        simp only [hfd, hin] at hall
        exact hremove (hall refused _ _ rfl refused _ _ rfl)

/-- The end of `COMMIT` after a failure. -/
theorem not_alone_fail {g : OpenFile} {fid : UInt64} {status : Option Errno} {id : UInt64}
    (hstatus : status.isSome = true) (hg : w.files.find? (·.id == fid) = some g) :
    ¬ Prog.Alone (answer cfg.who) (fun t _ => t.fs = w.fs ∧ t.files = w.files) (do
        if status.isSome && !g.inplace then
          let _ ← Sys.unlink g.tmpPath
        Sys.removeFile fid
        return replyStatus id status) w := by
  have hremove : ¬ Prog.Alone (answer cfg.who) (fun t _ => t.fs = w.fs ∧ t.files = w.files) (do
      Sys.removeFile fid
      return replyStatus id status) w :=
    not_alone_removeFile (fun v _ h => h.2) hg
  intro hall
  cases hin : g.inplace with
  | true =>
    simp only [hin, Bool.not_true, Bool.and_false] at hall
    exact hremove hall
  | false =>
    simp only [hin, hstatus, Bool.not_false, Bool.and_self] at hall
    exact hremove (hall refused _ _ rfl)

theorem inert_commit_iff (ht : f.type = .commit) :
    Inert cfg w f ↔ offTarget w f = true := by
  simp only [offTarget, Inert, handle, ht, answering]
  rw [Prog.alone_bind_iff]
  unfold handleCommit
  rw [alone_findFile]
  cases hg : w.files.find? (·.id == (decodeCommit f.payload).1) with
  | none => exact iff_of_true ⟨rfl, rfl⟩ rfl
  | some g =>
    refine iff_of_false (fun hall => ?_) (by simp)
    cases hfailed : g.failed with
    | some e =>
      cases hfd : g.fd with
      | none =>
        simp only [hfailed, hfd] at hall
        exact not_alone_fail rfl hg hall
      | some fd =>
        simp only [hfailed, hfd] at hall
        exact not_alone_fail rfl hg (hall refused _ _ rfl)
    | none =>
      cases hfd : g.fd with
      | none =>
        simp only [hfailed, hfd] at hall
        exact not_alone_fail rfl hg hall
      | some fd =>
        simp only [hfailed, hfd] at hall
        -- the file cannot be flushed
        exact not_alone_fail rfl hg (hall refused _ _ rfl refused _ _ rfl)

end Cases

/-- A malformed frame is inert exactly when there is no file that a handler which
ignores the flag could act on. -/
theorem malformed_inert_iff (cfg : Config) (w : World) (f : Frame) (h : malformed f = true) :
    Inert cfg w f ↔ offTarget w f = true := by
  by_cases htrunc : f.type = .ftruncate
  · exact inert_ftruncate_iff htrunc h
  by_cases hcommit : f.type = .commit
  · exact inert_commit_iff hcommit
  by_cases habort : f.type = .abort
  · exact inert_abort_iff habort
  refine iff_of_true (inert_of_ret (handle_flagged h htrunc hcommit habort)) ?_
  unfold offTarget
  split
  · next ht => exact absurd ht htrunc
  · next ht => exact absurd ht hcommit
  · next ht => exact absurd ht habort
  · rfl

/-- `OPEN /r/f` as file 7, sparse. -/
def openFrame : Frame :=
  ⟨.open, 0, [7, 0, 0, 0, 0, 0, 0, 0, 0xA4, 1, 0, 0, 0, 0, 0, 0, 0, 0, 0, 0, 1, 0, 0, 0, 0xED, 1, 0, 0,
    4, 0, 0, 0, 47, 114, 47, 102]⟩

/-- `OPEN` without the last byte of its path, sent to the server for `/r`. -/
theorem malformed_inert_iff_open : Inert (superuser.config homeRoot true) homeServing.world
    ⟨.open, 0, openFrame.payload.dropLast⟩ ↔ True := by
  rw [malformed_inert_iff (superuser.config homeRoot true) homeServing.world
    ⟨.open, 0, openFrame.payload.dropLast⟩ (by decide +kernel)]
  decide

/-- Three bytes for file 7. -/
def writeFrame : Frame := ⟨.write, 0, [7, 0, 0, 0, 0, 0, 0, 0, 0, 0, 0, 0, 0, 0, 0, 0, 1, 2, 3]⟩

/-- `FTRUNCATE` of file 7 whose size is cut off. -/
def cutFtruncate : Frame := ⟨.ftruncate, 0, [7, 0, 0, 0, 0, 0, 0, 0]⟩

/-- Handle a frame with every call succeeding. -/
def handled (f : Frame) (calls : ℕ) : List Action :=
  .receive f :: List.replicate calls (.inline success) ++ [.inlineDone]

def contentAt (w : World) (l : Loc) : Option Kind := (w.fs.entry l).map fun i => (w.fs.node i).kind

/-- The temporary file of file 7. -/
def tmpSeven : Loc := [[114], tmpNameOpen 1 7]

def Process.ended (s : Process) : Bool :=
  match s.phase with
  | .ended => true
  | _ => false

theorem Process.ended_of_phase {s : Process} (h : s.phase = .ended) : s.ended = true := by
  simp [Process.ended, h]

/-- The server for `/r` keeps serving until it has ended. -/
theorem homeServing_phase {as : List Action} {s : Process}
    (h : exec (next superuser) homeServing as = some s) (hend : s.ended = false) :
    s.phase = .serving (superuser.config homeRoot true) := by
  have hinit : homeServing.phase = .serving (superuser.config homeRoot true) := rfl
  have hinv : s.phase = .serving (superuser.config homeRoot true) ∨ s.phase = .ended := by
    refine Reachable.invariant (I := fun s => s.phase = .serving (superuser.config homeRoot true) ∨
      s.phase = .ended) ⟨as, h⟩ (.inl hinit) fun s a u hs hn => ?_
    have hstart : ∀ m, s.phase ≠ .starting m := by
      intro m
      rcases hs with hs | hs <;> simp [hs]
    rcases next_phase hstart hn with heq | heq
    · rwa [heq]
    · exact .inr heq
  rcases hinv with hphase | hphase
  · exact hphase
  · rw [Process.ended_of_phase hphase] at hend
    cases hend

theorem reachable_homeServing :
    Reachable (next superuser) (Process.boot homeFs homeRoot false) homeServing := by
  have hbooted : Reachable (next superuser) (Process.boot homeFs homeRoot false) homeBooted :=
    ⟨_, (Option.some_get _).symm⟩
  have hserve : exec (next superuser) homeBooted [.serve] = some homeServing :=
    exec_cons_eq_some.mpr ⟨homeServing, (Option.some_get _).symm, rfl⟩
  exact hbooted.exec hserve

/-- A size that is cut off empties the file. -/
theorem cut_ftruncate_empties_file :
    ∃ s u, Reachable (next superuser) (Process.boot homeFs homeRoot false) s ∧
      s.phase = .serving (superuser.config homeRoot true) ∧ malformed cutFtruncate = true ∧
      exec (next superuser) s (handled cutFtruncate 2) = some u ∧
      contentAt s.world tmpSeven = some (.regular [1, 2, 3]) ∧
      contentAt u.world tmpSeven = some (.regular []) ∧
      ¬ Inert (superuser.config homeRoot true) s.world cutFtruncate := by
  have hrun : (exec (next superuser) homeServing (handled openFrame 8 ++ handled writeFrame 2)).map
      (fun s => (s.ended, contentAt s.world tmpSeven, offTarget s.world cutFtruncate,
        (exec (next superuser) s (handled cutFtruncate 2)).map fun u => contentAt u.world tmpSeven)) =
      some (false, some (.regular [1, 2, 3]), false, some (some (.regular []))) := by
    decide +kernel
  obtain ⟨s, hs, heq⟩ := Option.map_eq_some_iff.mp hrun
  simp only [Prod.mk.injEq, Option.map_eq_some_iff] at heq
  obtain ⟨hend, hbefore, htarget, u, hu, hafter⟩ := heq
  have hbad : malformed cutFtruncate = true := by decide +kernel
  refine ⟨s, u, reachable_homeServing.exec hs, homeServing_phase hs hend, hbad, hu, hbefore, hafter,
    fun hinert => ?_⟩
  rw [inert_ftruncate_iff rfl hbad, htarget] at hinert
  cases hinert

end Ecopy.Server
