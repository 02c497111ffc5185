import Ecopy.Server.ConfinedRuns

/-!
# The read-only server

A server that is started read-only creates no root. Its message loop is the one
of every server: no handler knows about the mode. It leaves the file system
alone as long as every frame that asks for a change is malformed or names a
path outside the root, which the handlers refuse; files in the table are then
dead, and the later frames that use them have nothing to write to or remove.
-/
namespace Ecopy.Server
open Protocol Ecopy.Path FileSystem Lib.Calls Lib.Runs

/-- The frame asks for a change below the root. -/
def mutates (root : Bytes) (f : Frame) : Bool :=
  match f.type with
  | .mkdir =>
    match decodeMkdir f.payload with
    | none => false
    | some (path, _) => (resolvePath root path).isOk
  | .open =>
    match decodeOpen f.payload with
    | none => false
    | some q => (resolvePath root q.path).isOk
  | .putfile =>
    match decodePutfile f.payload with
    | none => false
    | some q => (resolvePath root q.path).isOk
  | .setmeta =>
    match decodeSetmeta f.payload with
    | none => false
    | some (path, _, _) => (resolvePath root path).isOk
  | .symlink =>
    match decodeSymlink f.payload with
    | none => false
    | some q => (resolvePath root q.path).isOk
  | .link =>
    match decodeLink f.payload with
    | none => false
    | some (primary, path) => (resolvePath root primary).isOk && (resolvePath root path).isOk
  | .unlink =>
    match decodePath f.payload with
    | none => false
    | some path => (resolvePath root path).isOk
  | _ => false

section Quiet

/-- A file that was refused: there is nothing behind it. -/
structure Dead (f : OpenFile) : Prop where
  failed : f.failed.isSome = true
  fd : f.fd = none
  tmp : f.tmpPath = []

/-- Calls that leave the file system alone when all files are dead. -/
def Quiet : Call → Prop
  | .unlink p => p = []
  | .addFile f => Dead f
  | .findFile _ | .removeFile _ | .takeFiles => True
  | c => Passive c

def DeadFiles : (c : Call) → c.Result → Prop
  | .findFile _, res => ∀ f, res = some f → Dead f
  | .takeFiles, (res : List OpenFile) => ∀ f ∈ res, Dead f
  | _, _ => True

structure Untouched (fs : Fs) (w : World) : Prop where
  fs : w.fs = fs
  files : ∀ f ∈ w.files, Dead f

variable {fs : Fs} {w v : World} {x : Choice} {cfg : Config}

theorem openFile_passive {l : Loc} {flags : Fs.OpenFlags} {n : Node} {i : ℕ} {fs' : Fs}
    (hcreate : flags.create = false) (htrunc : flags.trunc = false)
    (h : fs.openFile l flags n = .ok (i, fs')) : fs' = fs := by
  unfold Fs.openFile at h
  split at h
  · cases h
  split at h
  · simp [hcreate] at h
  split at h
  · cases h
  split at h
  · split at h
    · cases h
    · exact (Prod.mk.inj (Except.ok.inj h)).2.symm
  · cases h
  · split at h
    · cases h
    · exact (Prod.mk.inj (Except.ok.inj h)).2.symm
  · split at h
    · cases h
    · rw [htrunc] at h
      exact (Prod.mk.inj (Except.ok.inj h)).2.symm

theorem Untouched.query {α : Type} {res out : Except Errno α} (hw : Untouched fs w)
    (h : (out, v) = w.query x res) : Untouched fs v := by
  unfold World.query at h
  split at h
  · obtain ⟨-, rfl⟩ := Prod.mk.inj h
    exact hw
  · obtain ⟨-, rfl⟩ := Prod.mk.inj h
    exact hw

theorem Untouched.change {α : Type} {paths : List Bytes} {res : Except Errno (α × Fs)}
    {out : Except Errno α} (hw : Untouched fs w) (h : (out, v) = w.change x paths res)
    (hfs : ∀ a fs', res = .ok (a, fs') → fs' = w.fs) : Untouched fs v := by
  unfold World.change at h
  split at h
  · obtain ⟨-, rfl⟩ := Prod.mk.inj h
    exact hw
  split at h
  · obtain ⟨-, rfl⟩ := Prod.mk.inj h
    exact hw
  · obtain ⟨-, rfl⟩ := Prod.mk.inj h
    constructor
    · exact (hfs _ _ rfl).trans hw.fs
    · exact hw.files

theorem answer_quiet {who : Identity} {c : Call} {res : c.Result} (hw : Untouched fs w)
    (hc : Quiet c) (h : answer who w x c = some (res, v)) :
    DeadFiles c res ∧ Untouched fs v := by
  cases c with
  | openFile p flags mode =>
    refine ⟨trivial, hw.change (Option.some.inj h).symm ?_⟩
    intro a fs' ha
    split at ha
    · cases ha
    split at ha
    · cases ha
    · rename_i hopen
      obtain ⟨-, rfl⟩ := Prod.mk.inj (Except.ok.inj ha)
      exact openFile_passive hc.2.1 hc.2.2 hopen
  | unlink p =>
    obtain rfl : p = [] := hc
    refine ⟨trivial, hw.change (Option.some.inj h).symm ?_⟩
    intro a fs' ha
    exact absurd rfl (withLoc_ok ha).1
  | lstat p => exact ⟨trivial, hw.query (Option.some.inj h).symm⟩
  | stat p => exact ⟨trivial, hw.query (Option.some.inj h).symm⟩
  | openDir p => exact ⟨trivial, hw.query (Option.some.inj h).symm⟩
  | pread fd len offset => exact ⟨trivial, hw.query (Option.some.inj h).symm⟩
  | fstat fd => exact ⟨trivial, hw.query (Option.some.inj h).symm⟩
  | fsync fd => exact ⟨trivial, hw.query (Option.some.inj h).symm⟩
  | close fd => exact ⟨trivial, hw.query (Option.some.inj h).symm⟩
  | findFile id =>
    obtain ⟨rfl, rfl⟩ := Prod.mk.inj (Option.some.inj h)
    exact ⟨fun f hf => hw.files f (List.mem_of_find?_eq_some hf), hw⟩
  | addFile f =>
    obtain ⟨-, rfl⟩ := Prod.mk.inj (Option.some.inj h)
    refine ⟨trivial, hw.fs, ?_⟩
    intro g hg
    rcases List.mem_cons.mp hg with rfl | hg
    · exact hc
    · exact hw.files g hg
  | removeFile id =>
    obtain ⟨-, rfl⟩ := Prod.mk.inj (Option.some.inj h)
    exact ⟨trivial, hw.fs, fun g hg => hw.files g (List.mem_of_mem_eraseP hg)⟩
  | takeFiles =>
    obtain ⟨rfl, rfl⟩ := Prod.mk.inj (Option.some.inj h)
    exact ⟨hw.files, hw.fs, by simp⟩
  | sync | settings | attempt | report =>
    obtain ⟨-, rfl⟩ := Prod.mk.inj (Option.some.inj h)
    exact ⟨trivial, hw⟩
  | setSettings settings =>
    obtain ⟨-, rfl⟩ := Prod.mk.inj (Option.some.inj h)
    exact ⟨trivial, hw.fs, hw.files⟩
  | logError p e =>
    obtain ⟨-, rfl⟩ := Prod.mk.inj (Option.some.inj h)
    exact ⟨trivial, hw.fs, hw.files⟩
  | logVerify kind p e =>
    obtain ⟨-, rfl⟩ := Prod.mk.inj (Option.some.inj h)
    exact ⟨trivial, hw.fs, hw.files⟩
  | noteUnpreserved =>
    obtain ⟨-, rfl⟩ := Prod.mk.inj (Option.some.inj h)
    exact ⟨trivial, hw.fs, hw.files⟩
  | mkdir | fallocate | ftruncate | pwrite | fchown | fchmod | futimens | rename | symlink | link
  | lchown | lutimes | updateFile | claimDir | settleDir | dirMode | nextSeq => exact hc.elim

/-- Programs that make quiet calls only. -/
abbrev Silent {α : Type} (m : Handler α) : Prop := m.Keeps Quiet DeadFiles

theorem quiet_of_passive {c : Call} (h : Passive c) : Quiet c := by
  cases c with
  | unlink | addFile => exact h.elim
  | findFile | removeFile | takeFiles => trivial
  | _ => exact h

theorem Reads.silent {α : Type} {m : Handler α} (h : Reads m) : Silent m :=
  h.weaken (fun _ => quiet_of_passive) fun _ _ _ => trivial

/-- A path that is not confined is refused. -/
theorem exists_refused {root path : Bytes} (h : (resolvePath root path).isOk = false) :
    ∃ e, resolvePath root path = .error e := by
  cases hp : resolvePath root path with
  | error e => exact ⟨e, rfl⟩
  | ok norm =>
    rw [hp] at h
    cases h

variable {f : Frame}

theorem silent_handleMkdir (htype : f.type = .mkdir) (hnot : mutates cfg.root f = false) :
    Silent (handleMkdir cfg f.payload) := by
  simp only [mutates, htype] at hnot
  unfold handleMkdir
  cases hq : decodeMkdir f.payload with
  | none => trivial
  | some q =>
    simp only [hq] at hnot
    obtain ⟨e, he⟩ := exists_refused hnot
    simp only [he]
    exact (reads_logError _ e).silent

theorem silent_handleOpen (htype : f.type = .open) (hnot : mutates cfg.root f = false) :
    Silent (handleOpen cfg f.payload) := by
  simp only [mutates, htype] at hnot
  unfold handleOpen
  cases hq : decodeOpen f.payload with
  | none => trivial
  | some q =>
    simp only [hq] at hnot
    obtain ⟨e, he⟩ := exists_refused hnot
    apply Prog.Keeps.call (c := Call.attempt) trivial
    intro enough _
    simp only [he]
    split
    · trivial
    · exact Prog.Keeps.last (c := Call.addFile _) ⟨rfl, rfl, rfl⟩

theorem silent_handlePutfile (htype : f.type = .putfile) (hnot : mutates cfg.root f = false) :
    Silent (handlePutfile cfg f.payload) := by
  simp only [mutates, htype] at hnot
  unfold handlePutfile
  cases hq : decodePutfile f.payload with
  | none => trivial
  | some q =>
    simp only [hq] at hnot
    obtain ⟨e, he⟩ := exists_refused hnot
    simp only [he]
    exact (reads_logError _ e).silent

theorem silent_handleSetmeta (htype : f.type = .setmeta) (hnot : mutates cfg.root f = false) :
    Silent (handleSetmeta cfg f.payload) := by
  simp only [mutates, htype] at hnot
  unfold handleSetmeta
  cases hq : decodeSetmeta f.payload with
  | none => trivial
  | some q =>
    simp only [hq] at hnot
    obtain ⟨e, he⟩ := exists_refused hnot
    simp only [he]
    exact (reads_logError _ e).silent

theorem silent_handleSymlink (htype : f.type = .symlink) (hnot : mutates cfg.root f = false) :
    Silent (handleSymlink cfg f.payload) := by
  simp only [mutates, htype] at hnot
  unfold handleSymlink
  cases hq : decodeSymlink f.payload with
  | none => trivial
  | some q =>
    simp only [hq] at hnot
    obtain ⟨e, he⟩ := exists_refused hnot
    simp only [he]
    exact (reads_logError _ e).silent

theorem silent_handleUnlink (htype : f.type = .unlink) (hnot : mutates cfg.root f = false) :
    Silent (handleUnlink cfg f.payload) := by
  simp only [mutates, htype] at hnot
  unfold handleUnlink
  cases hq : decodePath f.payload with
  | none => trivial
  | some path =>
    simp only [hq] at hnot
    obtain ⟨e, he⟩ := exists_refused hnot
    simp only [he]
    trivial

/-- One of the two paths of a link is refused. -/
theorem silent_handleLink (htype : f.type = .link) (hnot : mutates cfg.root f = false) :
    Silent (handleLink cfg f.payload) := by
  simp only [mutates, htype] at hnot
  unfold handleLink
  cases hq : decodeLink f.payload with
  | none => trivial
  | some q =>
    simp only [hq] at hnot
    cases hp : resolvePath cfg.root q.1 with
    | error e =>
      simp only [hp]
      exact (reads_logError _ e).silent
    | ok primary =>
      simp only [hp, Except.isOk, Except.toBool, Bool.true_and] at hnot
      obtain ⟨e, he⟩ := exists_refused hnot
      simp only [hp, he]
      exact (reads_logError _ e).silent

/-- A dead file takes no data. -/
theorem silent_handleWrite (payload : Bytes) : Silent (handleWrite payload) := by
  unfold handleWrite
  cases decodeWrite payload with
  | none => trivial
  | some q =>
    apply Prog.Keeps.call (c := Call.findFile q.1) trivial
    intro found hfound
    cases found with
    | none => trivial
    | some f =>
      obtain ⟨e, he⟩ := Option.isSome_iff_exists.mp (hfound f rfl).failed
      simp only [he]
      trivial

theorem silent_handleFtruncate (payload : Bytes) : Silent (handleFtruncate payload) := by
  apply Prog.Keeps.call (c := Call.findFile _) trivial
  intro found hfound
  cases found with
  | none => trivial
  | some f =>
    obtain ⟨e, he⟩ := Option.isSome_iff_exists.mp (hfound f rfl).failed
    simp only [he]
    trivial

/-- The temporary name of a dead file is empty, so nothing is removed. -/
theorem silent_unlink {f : OpenFile} (hf : Dead f) : Silent (Sys.unlink f.tmpPath) :=
  Prog.Keeps.last (c := Call.unlink f.tmpPath) hf.tmp

theorem silent_handleCommit (id : UInt64) (payload : Bytes) :
    Silent (handleCommit cfg id payload) := by
  apply Prog.Keeps.call (c := Call.findFile _) trivial
  intro found hfound
  cases found with
  | none => trivial
  | some f =>
    have hf := hfound f rfl
    obtain ⟨e, he⟩ := Option.isSome_iff_exists.mp hf.failed
    have hremove : Silent (do
        Sys.removeFile (decodeCommit payload).1
        return replyStatus id (some e)) :=
      Prog.Keeps.call (c := Call.removeFile _) trivial fun _ _ => trivial
    simp only [he, hf.fd]
    exact Prog.Keeps.optional (silent_unlink hf) hremove

theorem silent_handleAbort (payload : Bytes) : Silent (handleAbort payload) := by
  apply Prog.Keeps.call (c := Call.findFile _) trivial
  intro found hfound
  cases found with
  | none => trivial
  | some f =>
    have hf := hfound f rfl
    simp only [hf.fd]
    exact Prog.Keeps.optional (silent_unlink hf) (Prog.Keeps.last (c := Call.removeFile _) trivial)

theorem silent_discardFiles {files : List OpenFile} (h : ∀ f ∈ files, Dead f) :
    Silent (discardFiles files) := by
  induction files with
  | nil => trivial
  | cons f files ih =>
    have hf := h f List.mem_cons_self
    have hrest := ih fun g hg => h g (List.mem_cons_of_mem f hg)
    unfold discardFiles
    simp only [hf.fd]
    exact Prog.Keeps.optional (silent_unlink hf) hrest

theorem silent_cleanup : Silent cleanup := by
  apply Prog.Keeps.call (c := Call.takeFiles) trivial
  intro files hfiles
  exact Prog.Keeps.bind (silent_discardFiles hfiles) fun _ => trivial

theorem silent_silent {m : Handler Unit} (h : Silent m) : Silent (silent m) :=
  Prog.Keeps.bind h fun _ => trivial

theorem silent_answering {m : Handler Frame} (h : Silent m) : Silent (answering m) :=
  Prog.Keeps.bind h fun _ => trivial

theorem silent_handle (hnot : mutates cfg.root f = false) : Silent (handle cfg f) := by
  unfold handle
  split
  · exact silent_answering (reads_handleHello _ _).silent
  · rename_i htype
    exact silent_silent (silent_handleOpen htype hnot)
  · exact silent_silent (silent_handleWrite _)
  · exact silent_silent (silent_handleFtruncate _)
  · exact silent_answering (silent_handleCommit _ _)
  · exact silent_silent (silent_handleAbort _)
  · rename_i htype
    exact silent_silent (silent_handlePutfile htype hnot)
  · rename_i htype
    exact silent_silent (silent_handleMkdir htype hnot)
  · exact silent_answering (reads_handleStat _ _).silent
  · exact silent_answering (reads_handleStatBulk _ _).silent
  · rename_i htype
    exact silent_silent (silent_handleSetmeta htype hnot)
  · exact silent_silent (reads_handleVerifyPath _).silent
  · exact silent_answering (reads_handleBarrier _ _).silent
  · rename_i htype
    exact silent_silent (silent_handleUnlink htype hnot)
  · rename_i htype
    exact silent_silent (silent_handleSymlink htype hnot)
  · rename_i htype
    exact silent_silent (silent_handleLink htype hnot)
  all_goals trivial

/-- A read-only server starts with one look at its root. -/
theorem reads_serverStart (root : Bytes) : Reads (serverStart root true) := by
  unfold serverStart
  split
  · trivial
  apply Prog.Keeps.call (c := Call.lstat root) trivial
  intro res _
  have hend : ∀ present : Bool, Reads (servedRoot root present present) := by
    intro present
    unfold servedRoot
    split
    · trivial
    split
    · trivial
    · trivial
  exact hend _

end Quiet

section Runs
variable {host : Host} {fs : Fs} {root : Bytes} {s u : Process} {a : Action}

/-- The step does not bring in a frame that asks for a change below the root. -/
def Harmless (s : Process) (a : Action) : Prop :=
  ∀ cfg f, s.phase = .serving cfg → a = .receive f → mutates cfg.root f = false

structure StaysUntouched (fs : Fs) (s : Process) : Prop where
  world : Untouched fs s.world
  handlers : Guarded Quiet DeadFiles s

theorem staysUntouched_boot (fs : Fs) (root : Bytes) :
    StaysUntouched fs (Process.boot fs root true) := by
  constructor
  · exact ⟨rfl, fun f hf => nomatch hf⟩
  · constructor
    · intro m hm
      rw [← Phase.starting.inj hm]
      exact (reads_serverStart root).silent
    · exact fun m hm => nomatch hm
    · exact fun m hm => nomatch hm

theorem next_staysUntouched (hin : Harmless s a) (h : StaysUntouched fs s)
    (hs : next host s a = some u) : StaysUntouched fs u := by
  have hanswer : ∀ w x c res v, Untouched fs w → Quiet c → answer host.who w x c = some (res, v) →
      DeadFiles c res ∧ Untouched fs v := fun w x c res v hw hc ha => answer_quiet hw hc ha
  have hhandle : ∀ cfg f, s.phase = .serving cfg → a = .receive f → Silent (handle cfg f) :=
    fun cfg f hphase ha => silent_handle (hin cfg f hphase ha)
  have hserve : ∀ m, s.phase = .starting m → Untouched fs { s.world with touched := [] } :=
    fun _ _ => ⟨h.world.fs, h.world.files⟩
  obtain ⟨hw, hg⟩ := next_guarded hanswer hhandle silent_cleanup hserve h.world h.handlers hs
  exact ⟨hw, hg⟩

/-- A read-only server that receives no request for a change below its root
never changes a name, an object or its metadata: from the start to the cleanup
at the end, whatever else it receives. -/
theorem readOnly_preserves {as : List Action}
    (hin : Along (next host) Harmless (Process.boot fs root true) as)
    (hrun : exec (next host) (Process.boot fs root true) as = some s) : s.world.fs = fs := by
  have hend := hin.invariant (fun s a u hg hi hs => next_staysUntouched hg hi hs)
    (staysUntouched_boot fs root) hrun
  exact hend.world.fs

end Runs

/-- `OPEN x`, a relative path -/
def openRelative : Frame := ⟨.open, 0, List.replicate 28 0 ++ [1, 0, 0, 0, 120]⟩

/-- `COMMIT` of the file that was refused -/
def commitRefused : Frame := ⟨.commit, 0, List.replicate 52 0⟩

def readOnlyRun : List Action :=
  [.start success, .serve, .receive openRelative, .inline success, .inline success, .inlineDone,
    .receive commitRefused] ++ List.replicate 3 (.inline success) ++ [.inlineDone]

theorem readOnly_preserves_homeFs :
    ∃ s, exec (next superuser) (Process.boot homeFs homeRoot true) readOnlyRun = some s ∧
      s.sent = [replyStatus 0 (some .einval)] ∧ s.world.fs = homeFs := by
  have hrun : (exec (next superuser) (Process.boot homeFs homeRoot true) readOnlyRun).map (·.sent) =
      some [replyStatus 0 (some .einval)] := by decide +kernel
  obtain ⟨s, hs, hsent⟩ := Option.map_eq_some_iff.mp hrun
  have hin : Along (next superuser) Harmless (Process.boot homeFs homeRoot true) readOnlyRun := by
    apply Along.of_forall
    intro a ha s cfg f _ heq
    subst heq
    simp only [readOnlyRun, List.cons_append, List.nil_append, List.mem_cons, List.mem_append,
      List.mem_replicate] at ha
    have hcases : f = openRelative ∨ f = commitRefused := by
      simpa using ha
    rcases hcases with rfl | rfl
    · rfl
    · rfl
  exact ⟨s, hs, hsent, readOnly_preserves hin hs⟩

/-- The read-only server creates the directory it is asked for. -/
theorem readOnly_mkdir :
    ∃ s, exec (next superuser) (Process.boot homeFs homeRoot true)
        (.start success :: .serve :: .receive mkdirFrame :: List.replicate 3 (.inline success)) =
          some s ∧ homeFs.entry [[114], [97]] = none ∧
      (s.world.fs.entry [[114], [97]]).isSome = true := by
  have hrun : (exec (next superuser) (Process.boot homeFs homeRoot true)
      (.start success :: .serve :: .receive mkdirFrame :: List.replicate 3 (.inline success))).map
      (fun s => (s.world.fs.entry [[114], [97]]).isSome) = some true := by decide +kernel
  obtain ⟨s, hs, heq⟩ := Option.map_eq_some_iff.mp hrun
  exact ⟨s, hs, by decide, heq⟩

end Ecopy.Server
