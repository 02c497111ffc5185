import Ecopy.Server.Process

/-!
# Handlers that only read

A passive call changes neither the file system nor the table of open files. The
handlers of `STAT`, `STAT_BULK`, `VERIFY_PATH`, `BARRIER` and `HELLO` make
passive calls only, whatever the answers are.
-/
namespace Ecopy.Server
open Protocol Ecopy.Path FileSystem Lib.Calls

def Passive : Call → Prop
  | .openFile _ flags _ => flags.write = false ∧ flags.create = false ∧ flags.trunc = false
  | .lstat _ | .stat _ | .openDir _ | .pread _ _ _ | .fstat _ | .fsync _ | .close _ | .sync
  | .settings | .setSettings _ | .attempt | .logError _ _ | .logVerify _ _ _ | .noteUnpreserved
  | .report => True
  | _ => False

/-- What `apply_meta` calls. -/
structure Applies (ok : Call → Prop) (fd : Fd) : Prop where
  fchown : ∀ uid gid, ok (.fchown fd uid gid)
  fchmod : ∀ mode, ok (.fchmod fd mode)
  futimens : ∀ atime mtime, ok (.futimens fd atime mtime)
  settings : ok .settings

section Applies
variable {ok : Call → Prop} {resp : (c : Call) → c.Result → Prop} {who : Identity} {fd : Fd}

theorem keeps_applyOwner (h : Applies ok fd) (m : Meta) :
    (applyOwner who fd m).Keeps ok resp := by
  unfold applyOwner
  split
  · trivial
  split
  split
  · trivial
  refine Prog.Keeps.call (c := Call.fchown fd _ _) (h.fchown _ _) ?_
  intro res _
  cases res with
  | ok a => trivial
  | error e => trivial

theorem keeps_applyMeta (h : Applies ok fd) (m : Meta) (modeIsSet : Bool) :
    (applyMeta who fd m modeIsSet).Keeps ok resp := by
  have htimes : ∀ first : Option (Errno × MetaOp), (applyTimes fd m first).Keeps ok resp := by
    intro first
    refine Prog.Keeps.call (c := Call.settings) h.settings ?_
    intro settings _
    split
    · refine Prog.Keeps.call (c := Call.futimens fd _ _) (h.futimens _ _) ?_
      intro res _
      cases res <;> trivial
    · trivial
  refine Prog.Keeps.bind (keeps_applyOwner h m) ?_
  intro owner
  cases modeIsSet with
  | true => exact htimes _
  | false =>
    refine Prog.Keeps.call (c := Call.fchmod fd _) (h.fchmod _) ?_
    intro res _
    cases res with
    | ok a => exact htimes _
    | error e => exact htimes _

end Applies

/-- What the creation of the directory `cs` and its parents calls. -/
structure Ensures (ok : Call → Prop) (cs : Loc) : Prop where
  claimDir : ∀ dir, ok (.claimDir dir)
  lstat : ∀ path, ok (.lstat path)
  settleDir : ∀ dir state, ok (.settleDir dir state)
  mkdir : ∀ ds, ds <+: cs → ∀ mode, ok (.mkdir (render ds) mode)

section Ensures
variable {ok : Call → Prop} {resp : (c : Call) → c.Result → Prop} {cs : Loc}

theorem keeps_settle (h : Ensures ok cs) (dir : Bytes) (r : Except Errno (Option UInt32)) :
    (settle dir r).Keeps ok resp := by
  cases r with
  | ok mode => exact Prog.Keeps.call (c := Call.settleDir dir _) (h.settleDir _ _) fun _ _ => trivial
  | error e => exact Prog.Keeps.call (c := Call.settleDir dir _) (h.settleDir _ _) fun _ _ => trivial

theorem keeps_mkdirOutcome (h : Ensures ok cs) (dir : Bytes) (mode : UInt32)
    (r : Except Errno Unit) : (mkdirOutcome dir mode r).Keeps ok resp := by
  cases r with
  | ok a => trivial
  | error e =>
    cases e with
    | eexist =>
      apply Prog.Keeps.bind
      · refine Prog.Keeps.call (c := Call.lstat dir) (h.lstat _) ?_
        intro res _
        cases res <;> trivial
      · intro e
        cases e <;> trivial
    | _ => trivial

theorem keeps_ensureDirBounded (h : Ensures ok cs) (hcs : ∀ c ∈ cs, Ordinary c) (fuel : ℕ)
    (mode : UInt32) : (ensureDirBounded fuel (render cs) mode).Keeps ok resp := by
  induction fuel generalizing cs mode with
  | zero => trivial
  | succ fuel ih =>
    have hother : ∀ r : Except Errno Unit,
        (mkdirOutcome (render cs) mode r >>= settle (render cs)).Keeps ok resp :=
      fun r => Prog.Keeps.bind (keeps_mkdirOutcome h _ _ r) fun out => keeps_settle h _ out
    have hmkdir : ok (.mkdir (render cs) mode) := h.mkdir cs (List.prefix_refl cs) mode
    refine Prog.Keeps.call (c := Call.claimDir (render cs)) (h.claimDir _) ?_
    intro claim _
    cases claim with
    | ready => trivial
    | failed e => trivial
    | claimed =>
      refine Prog.Keeps.call (c := Call.mkdir (render cs) mode) hmkdir ?_
      intro res _
      cases res with
      | ok a => exact hother (.ok a)
      | error e =>
        cases e with
        | enoent =>
          change Prog.Keeps _ _ (if _ then _ else _)
          rcases cs.eq_nil_or_concat' with rfl | ⟨init, c, rfl⟩
          · rw [splitDirBase_slash, if_pos (show ([slash], ([] : Bytes)).1 = render [] from rfl)]
            exact keeps_settle h _ _
          rw [splitDirBase_render (hcs c (by simp))]
          split
          · exact keeps_settle h _ _
          have hinit : Ensures ok init := ⟨h.claimDir, h.lstat, h.settleDir,
            fun ds hds => h.mkdir ds (hds.trans (List.prefix_append init [c]))⟩
          refine Prog.Keeps.bind (ih hinit (fun d hd => hcs d (by simp [hd])) 0x1FF) ?_
          intro e
          cases e with
          | some e => exact keeps_settle h _ _
          | none =>
            exact Prog.Keeps.call (c := Call.mkdir _ mode) hmkdir fun r _ => hother r
        | _ => exact hother (.error _)

end Ensures

abbrev Reads {α : Type} (m : Handler α) : Prop := m.Keeps Passive fun _ _ => True

section Reads
variable {cfg : Config}

theorem reads_close (fd : Fd) : Reads (Sys.close fd) :=
  Prog.Keeps.last (c := Call.close fd) trivial

theorem reads_logError (path : Bytes) (e : Errno) : Reads (Sys.logError path e) :=
  Prog.Keeps.last (c := Call.logError path e) trivial

theorem reads_encodeStat (path : Bytes) : Reads (encodeStat path) := by
  refine Prog.Keeps.call (c := Call.lstat path) trivial ?_
  intro res _
  cases res <;> trivial

theorem reads_handleStat (id : UInt64) (payload : Bytes) :
    Reads (handleStat cfg id payload) := by
  unfold handleStat
  cases decodePath payload with
  | none => trivial
  | some path =>
    cases h : resolvePath cfg.root path with
    | error e =>
      simp only [h]
      trivial
    | ok norm =>
      simp only [h]
      exact Prog.Keeps.bind (reads_encodeStat norm) fun _ => trivial

theorem reads_bulkEntry (base : Except Errno Bytes) (name : Bytes) :
    Reads (bulkEntry base name) := by
  unfold bulkEntry
  split
  · trivial
  split
  · trivial
  · exact reads_encodeStat _

theorem reads_bulkEntries (base : Except Errno Bytes) (count : ℕ) (d : Pdec) :
    Reads (bulkEntries base count d) := by
  induction count generalizing d with
  | zero => trivial
  | succ count ih =>
    unfold bulkEntries
    split
    · trivial
    · exact Prog.Keeps.bind (reads_bulkEntry base _) fun _ => Prog.Keeps.bind (ih _) fun _ => trivial

theorem reads_handleStatBulk (id : UInt64) (payload : Bytes) :
    Reads (handleStatBulk cfg id payload) := by
  unfold handleStatBulk
  cases decodeStatBulk payload with
  | none => trivial
  | some q =>
    refine Prog.Keeps.call (c := Call.attempt) trivial ?_
    intro enough _
    change Reads (if _ then _ else _)
    split
    · trivial
    refine Prog.Keeps.bind (reads_bulkEntries _ _ _) ?_
    intro entries
    cases entries <;> trivial

theorem reads_sameInode (primary name : Bytes) : Reads (sameInode primary name) := by
  refine Prog.Keeps.call (c := Call.stat primary) trivial ?_
  intro res _
  cases res with
  | error e => trivial
  | ok p =>
    refine Prog.Keeps.call (c := Call.lstat name) trivial ?_
    intro res _
    cases res <;> trivial

theorem reads_logVerify (kind : VerifyError) (path : Bytes) (e : Errno) :
    Reads (Sys.logVerify kind path e) :=
  Prog.Keeps.last (c := Call.logVerify kind path e) trivial

theorem reads_verifyMetadataOnly (q : VerifyRequest) (path : Bytes) :
    Reads (verifyMetadataOnly cfg q path) := by
  refine Prog.Keeps.call (c := Call.lstat path) trivial ?_
  intro res _
  cases res with
  | error e => exact reads_logVerify _ _ _
  | ok st =>
    dsimp only
    split
    · trivial
    split
    · exact Prog.Keeps.last (c := Call.noteUnpreserved) trivial
    · exact reads_logVerify _ _ _

theorem reads_verifySamples (q : VerifyRequest) (fd : Fd) (count : ℕ) (d : Pdec)
    (v : VerifyState) : Reads (verifySamples cfg q fd count d v) := by
  induction count generalizing d v with
  | zero => trivial
  | succ count ih =>
    unfold verifySamples
    split
    · trivial
    dsimp only
    split
    · trivial
    split
    · trivial
    split
    · exact ih _ _
    refine Prog.Keeps.call (c := Call.pread fd _ _) trivial ?_
    intro res _
    cases res with
    | error e => exact ih _ _
    | ok data =>
      -- a digest or a run of zeros, found to differ or not
      dsimp only
      split
      · split
        · exact ih _ _
        · exact ih _ _
      · split
        · exact ih _ _
        · exact ih _ _

theorem reads_logVerifyState (v : VerifyState) (path : Bytes) :
    Reads (logVerifyState v path) := by
  have hio : ∀ text, Reads (if v.ioBad then Sys.logVerify .io text .eio else pure ()) := by
    intro text
    split
    · exact reads_logVerify _ _ _
    · trivial
  refine Prog.Keeps.optional (reads_logVerify _ _ _) ?_
  refine Prog.Keeps.optional (reads_logVerify _ _ _) ?_
  exact Prog.Keeps.optional (reads_logVerify _ _ _) (hio _)

theorem reads_verifyWithData (q : VerifyRequest) (path : Bytes) (fd : Fd) :
    Reads (verifyWithData cfg q path fd) := by
  have hclose : ∀ v : VerifyState, Reads (do
      let _ ← Sys.close fd
      if v.failed then logVerifyState v path) := by
    intro v
    refine Prog.Keeps.bind (reads_close fd) ?_
    intro _
    split
    · exact reads_logVerifyState v path
    · trivial
  refine Prog.Keeps.call (c := Call.fstat fd) trivial ?_
  intro st _
  refine Prog.Keeps.bind (reads_verifySamples q fd _ _ _) ?_
  intro sampled
  dsimp only
  refine Prog.Keeps.optional (reads_logVerify _ _ _) ?_
  split
  · exact hclose _
  · split
    · exact Prog.Keeps.call (c := Call.noteUnpreserved) trivial fun _ _ => hclose _
    · exact hclose _

theorem reads_handleVerifyPath (payload : Bytes) :
    Reads (handleVerifyPath cfg payload) := by
  unfold handleVerifyPath
  split
  · exact reads_logVerify _ _ _
  · exact reads_logVerify _ _ _
  split
  · exact reads_logVerify _ _ _
  split
  · exact reads_verifyMetadataOnly _ _
  refine Prog.Keeps.call (c := Call.openFile _ (readFlags _) 0) ⟨rfl, rfl, rfl⟩ ?_
  intro res _
  cases res with
  | error e => exact reads_logVerify _ _ _
  | ok fd => exact reads_verifyWithData _ _ _

theorem reads_handleBarrier (id : UInt64) (payload : Bytes) :
    Reads (handleBarrier id payload) := by
  have hsync : Reads Sys.sync := Prog.Keeps.last (c := Call.sync) trivial
  exact Prog.Keeps.optional hsync (Prog.Keeps.call (c := Call.report) trivial fun _ _ => trivial)

theorem reads_handleHello (id : UInt64) (payload : Bytes) :
    Reads (handleHello cfg id payload) :=
  Prog.Keeps.call (c := Call.settings) trivial fun _ _ =>
    Prog.Keeps.call (c := Call.setSettings _) trivial fun _ _ => trivial

end Reads

end Ecopy.Server
