import Ecopy.Metadata.Moves

/-!
# The mode of a file that is copied under a temporary name

A new file never starts with set-id bits, so that a `chmod` which is left out because the
file has its mode already was not needed. Sparse and large files always take this way.
-/
namespace Ecopy.Metadata
open Protocol Ecopy.Path FileSystem Server Lib.Calls
open Workers.SmallCopy Workers.OtherCopies Workers.Events

section Metadata
variable {who : Identity} {cfg : Tuning} {t : Task} {w v u : World} {tr : List Event} {fd : Fd}
  {m : Meta}

/-- The end of a pass: the times. -/
theorem times_moded {res : Bool}
    (h : (if cfg.preserveTimes then do return (← Sys.futimens fd m.atime m.mtime).isOk
      else return true : Handler Bool).Runs (answerIds who) w tr v res) :
    Moded w v fd.ino (w.fs.node fd.ino).mode ∧ tr.any chowned = false ∧ tr.any chmodded = false ∧
      ∀ i, tr.any (wrote i) = false := by
  split at h
  · obtain ⟨x, r, u, rest, htimes, rfl, hret⟩ := Prog.runs_perform_iff.mp h
    obtain ⟨rfl, rfl, -⟩ := Prog.runs_ret_iff.mp hret
    exact ⟨answerIds_futimens htimes, rfl, rfl, fun _ => rfl⟩
  · obtain ⟨rfl, rfl, -⟩ := Prog.runs_ret_iff.mp h
    exact ⟨.refl _ _, rfl, rfl, fun _ => rfl⟩

/-- The owner part neither writes nor sets a mode. -/
theorem applyOwner_quiet {res : Option Errno}
    (h : (applyOwner who fd m).Runs (answerIds who) w tr v res) :
    tr.any chmodded = false ∧ ∀ i, tr.any (wrote i) = false := by
  unfold applyOwner at h
  split at h
  · obtain ⟨rfl, -, -⟩ := Prog.runs_ret_iff.mp h
    exact ⟨rfl, fun _ => rfl⟩
  dsimp only at h
  split at h
  · obtain ⟨rfl, -, -⟩ := Prog.runs_ret_iff.mp h
    exact ⟨rfl, fun _ => rfl⟩
  · obtain ⟨x, r, u, rest, hchown, rfl, hrun⟩ := Prog.runs_perform_iff.mp h
    have hrest : rest = [] := by
      cases r with
      | ok _ => exact (Prog.runs_ret_iff.mp hrun).1
      | error e => exact (Prog.runs_ret_iff.mp hrun).1
    subst hrest
    exact ⟨rfl, fun _ => rfl⟩

/-- A successful pass sets the mode, unless the mode is known to be right. -/
theorem preserveFdMetadata_moded {known : Option UInt32} (hdir : (w.fs.node fd.ino).isDir = false)
    (h : (preserveFdMetadata who cfg fd m known).Runs (answerIds who) w tr v true) :
    Moded w v fd.ino (if known = some (m.mode &&& 0xFFF) then
        afterLoss (losesIds who fd.ino tr) (w.fs.node fd.ino).mode else m.mode &&& 0xFFF) ∧
      (tr.any chmodded = true ↔ known ≠ some (m.mode &&& 0xFFF)) := by
  obtain ⟨before, after, u, owned, rfl, howner, hrun⟩ := Prog.runs_bind_iff.mp h
  have hu := applyOwner_moded hdir howner
  obtain ⟨hchmod, hwrote⟩ := applyOwner_quiet howner
  split at hrun
  · cases (Prog.runs_ret_iff.mp hrun).2.2
  by_cases hknown : known = some (m.mode &&& 0xFFF)
  · simp only [if_pos hknown] at hrun
    obtain ⟨hv, hchown, hchmod', hwrote'⟩ := times_moded hrun
    rw [hu.mode] at hv
    have hlost : losesIds who fd.ino (before ++ after) = before.any chowned := by
      simp [losesIds, hwrote, hwrote', hchown]
    rw [if_pos hknown, hlost]
    exact ⟨hu.trans hv, by simp [hchmod, hchmod', hknown]⟩
  · simp only [if_neg hknown] at hrun
    obtain ⟨x, r, s, rest, hset, rfl, hend⟩ := Prog.runs_perform_iff.mp hrun
    have hs := answerIds_fchmod hset
    cases r with
    | error e => cases (Prog.runs_ret_iff.mp hend).2.2
    | ok _ =>
      obtain ⟨hv, -⟩ := times_moded hend
      rw [hs.mode] at hv
      have hmoded : Moded w v fd.ino (m.mode &&& 0xFFF &&& 0xFFF) := (hu.trans hs).trans hv
      rw [and_mask] at hmoded
      rw [if_neg hknown]
      exact ⟨hmoded, by simp [chmodded, Except.isOk, Except.toBool, hknown]⟩

theorem not_isDir_of_isRegular {n : Node} (h : Node.isRegular n = true) : n.isDir = false := by
  unfold Node.isRegular at h
  split at h
  · rename_i data hk
    simp [Node.isDir, hk]
  · cases h

/-- The pass over a file that is opened by its name always sets the mode. -/
theorem preservePath_moded {path : Bytes}
    (h : (preservePathMetadataAt who cfg path m).Runs (answerIds who) w tr v true) :
    ∃ i, w.fs.entry (resolve path) = some i ∧ Moded w v i (m.mode &&& 0xFFF) ∧
      tr.any chmodded = true := by
  obtain ⟨x, opened, u, rest, hopen, rfl, hrun⟩ := Prog.runs_perform_iff.mp h
  cases opened with
  | error e => cases (Prog.runs_ret_iff.mp hrun).2.2
  | ok fd =>
  have hfs := openFile_looks ⟨rfl, rfl⟩ hopen
  have hi := openFile_entry hopen
  obtain ⟨y, found, s, last, hstat, rfl, hend⟩ := Prog.runs_perform_iff.mp hrun
  obtain rfl := query_eq (Option.some.inj hstat)
  cases found with
  | error e =>
    obtain ⟨z, c, p, tail, -, -, hret⟩ := Prog.runs_perform_iff.mp hend
    cases (Prog.runs_ret_iff.mp hret).2.2
  | ok found =>
  obtain ⟨j, n⟩ := found
  have hn : n = s.fs.node fd.ino := by
    have hout := congrArg Prod.fst (Option.some.inj hstat)
    simp only [World.query] at hout
    split at hout
    · cases hout
    · exact (Prod.mk.inj (Except.ok.inj hout)).2.symm
  dsimp only at hend
  split at hend
  · rename_i hreg
    obtain ⟨mid, close, z, done, rfl, hpass, hclose⟩ := Prog.runs_bind_iff.mp hend
    obtain ⟨y', closed, z', tail, hclosed, rfl, hret⟩ := Prog.runs_perform_iff.mp hclose
    obtain rfl := query_eq (Option.some.inj hclosed)
    obtain ⟨rfl, rfl, rfl⟩ := Prog.runs_ret_iff.mp hret
    obtain ⟨hv, hset⟩ := preserveFdMetadata_moded (not_isDir_of_isRegular (hn ▸ hreg)) hpass
    rw [if_neg (by simp)] at hv
    refine ⟨fd.ino, hfs ▸ hi, ?_, ?_⟩
    · exact ⟨by rw [hv.entry, hfs], by rw [hv.isDir, hfs], hv.mode⟩
    · have hany := hset.mpr (by simp)
      simp [hany]
  · obtain ⟨y', closed, z', tail, hclosed, rfl, hret⟩ := Prog.runs_perform_iff.mp hend
    cases (Prog.runs_ret_iff.mp hret).2.2

/-- A rename into place. -/
theorem renameTempToFinalAt_entry {path : Bytes} {i : ℕ}
    (h : (renameTempToFinalAt t path).Runs (answerIds who) w tr v true)
    (hi : w.fs.entry (resolve path) = some i) :
    v.fs.entry (resolve t.dst) = some i ∧ v.fs.node = w.fs.node ∧ losesIds who i tr = false ∧
      tr.any chmodded = false := by
  obtain ⟨x, found, u, rest, hstat, rfl, hrun⟩ := Prog.runs_perform_iff.mp h
  obtain rfl := query_eq (Option.some.inj hstat)
  cases found with
  | error e => cases (Prog.runs_ret_iff.mp hrun).2.2
  | ok found =>
  obtain ⟨j, n⟩ := found
  dsimp only at hrun
  split at hrun
  · cases (Prog.runs_ret_iff.mp hrun).2.2
  obtain ⟨y, there, s, last, hthere, rfl, hend⟩ := Prog.runs_perform_iff.mp hrun
  obtain rfl := query_eq (Option.some.inj hthere)
  have hmove : ∀ free : Bool, (renameIfFree t path free).Runs (answerIds who) s last v true →
      v.fs.entry (resolve t.dst) = some i ∧ v.fs.node = s.fs.node ∧ losesIds who i last = false ∧
        last.any chmodded = false := by
    intro free hfree
    unfold renameIfFree at hfree
    split at hfree
    · cases (Prog.runs_ret_iff.mp hfree).2.2
    obtain ⟨z, renamed, p, tail, hrename, rfl, hret⟩ := Prog.runs_perform_iff.mp hfree
    cases renamed with
    | error e => cases (Prog.runs_ret_iff.mp hret).2.2
    | ok _ =>
      obtain ⟨rfl, rfl, -⟩ := Prog.runs_ret_iff.mp hret
      obtain ⟨-, hentry, hnode⟩ := rename_entry hrename hi
      exact ⟨hentry, hnode, by simp [losesIds, wrote, chowned], rfl⟩
  have hdone : v.fs.entry (resolve t.dst) = some i ∧ v.fs.node = s.fs.node ∧
      losesIds who i last = false ∧ last.any chmodded = false := by
    cases there with
    | ok m => exact hmove _ hend
    | error e => exact hmove _ hend
  obtain ⟨hentry, hnode, hlost, hchmod⟩ := hdone
  refine ⟨hentry, hnode, ?_, by simpa [chmodded] using hchmod⟩
  simpa [losesIds, wrote, chowned] using hlost

end Metadata

theorem noIds_afterLoss {lost : Bool} {mode : UInt32} (h : mode &&& 0xFFF &&& 0xC00 = 0) :
    afterLoss lost mode &&& 0xFFF = mode &&& 0xFFF := by
  have hids : mode &&& 0xC00 = 0 := by
    have hmask : (0xFFF : UInt32) &&& 0xC00 = 0xC00 := rfl
    rwa [UInt32.and_assoc, hmask] at h
  cases lost
  · rfl
  · rw [afterLoss_and]
    exact (and_eq_iff_noIds mode).mpr hids

theorem copyDataMode_noIds (mode : UInt32) : copyDataMode mode &&& 0xC00 = 0 := by
  have hsplit : ((mode &&& 0x1FF) ||| 0x180) &&& 0xC00 =
      (mode &&& 0x1FF &&& 0xC00) ||| (0x180 &&& 0xC00) := by
    apply UInt32.toBitVec_inj.1
    simp only [UInt32.toBitVec_and, UInt32.toBitVec_or]
    exact BitVec.and_or_distrib_right
  have hlow : (0x1FF : UInt32) &&& 0xC00 = 0 := rfl
  rw [copyDataMode, hsplit, UInt32.and_assoc, hlow, UInt32.and_zero]
  rfl

theorem bufferedCreateMode_noIds (mode : UInt32) : bufferedCreateMode mode &&& 0xC00 = 0 := by
  unfold bufferedCreateMode
  split
  · exact copyDataMode_noIds mode
  · rename_i h
    have hids : mode &&& 0xC00 = 0 := not_not.mp h
    have hmask : (0xFFF : UInt32) &&& 0xC00 = 0xC00 := rfl
    rw [UInt32.and_assoc, hmask, hids]

/-- A file under its temporary name, while it is written. -/
structure TempAt (w : World) (target : Target) : Prop where
  entry : w.fs.entry (resolve target.path) = some target.fd.ino
  isDir : (w.fs.node target.fd.ino).isDir = false
  mode : (w.fs.node target.fd.ino).mode &&& 0xFFF = target.mode
  noIds : target.mode &&& 0xC00 = 0

/-- The final name stands for a file with the mode of the source. -/
def ModeSet (t : Task) (v : World) : Prop :=
  ∃ i, v.fs.entry (resolve t.dst) = some i ∧ (v.fs.node i).mode &&& 0xFFF = t.attr.mode &&& 0xFFF

section Temp
variable {who : Identity} {cfg : Tuning} {t : Task} {w v : World} {tr : List Event} {target : Target}

theorem TempAt.moved {α : Type} {m : Handler α} {a : α} (h : TempAt w target) (hm : MovesData m)
    (hrun : m.Runs (answerIds who) w tr v a) : TempAt v target := by
  obtain ⟨hv, -⟩ := Metadata.moved hm hrun h.isDir
  refine ⟨by rw [hv.entry, h.entry], hv.isDir.trans h.isDir, ?_, h.noIds⟩
  have hids : (w.fs.node target.fd.ino).mode &&& 0xFFF &&& 0xC00 = 0 := by
    rw [h.mode]
    exact h.noIds
  rw [hv.mode, noIds_afterLoss hids, h.mode]

variable {path : Bytes} {direct : Bool}

theorem keepTarget_ok {fd : Fd}
    (h : (keepTarget path direct (.ok fd)).Runs (answerIds who) w tr v (.ok target)) :
    v.fs = w.fs ∧ target.path = path ∧ target.fd = fd ∧
      target.mode = (w.fs.node fd.ino).mode &&& 0xFFF ∧
      Node.isRegular (w.fs.node fd.ino) = true := by
  obtain ⟨before, after, u, switched, rfl, hswitch, hkeep⟩ := Prog.runs_bind_iff.mp h
  have hu : u.fs = w.fs := by
    unfold attemptIf at hswitch
    split at hswitch
    · obtain ⟨x, r, s, rest, htry, rfl, hret⟩ := Prog.runs_perform_iff.mp hswitch
      obtain ⟨rfl, rfl, -⟩ := Prog.runs_ret_iff.mp hret
      rw [← (Prod.mk.inj (Option.some.inj htry)).2]
    · obtain ⟨rfl, rfl, -⟩ := Prog.runs_ret_iff.mp hswitch
      rfl
  obtain ⟨mid, last, z, res, rfl, hvalid, hend⟩ := Prog.runs_bind_iff.mp hkeep
  obtain ⟨x, st, s, rest, hst, rfl, hret⟩ := Prog.runs_perform_iff.mp hvalid
  obtain rfl := query_eq (Option.some.inj hst)
  cases st with
  | error e =>
    obtain ⟨rfl, rfl, rfl⟩ := Prog.runs_ret_iff.mp hret
    obtain ⟨y, closed, p, tail, hclose, rfl, hlast⟩ := Prog.runs_perform_iff.mp hend
    cases (Prog.runs_ret_iff.mp hlast).2.2
  | ok n =>
    have hn : n = (fd.ino, s.fs.node fd.ino) := by
      have hout := congrArg Prod.fst (Option.some.inj hst)
      simp only [World.query] at hout
      split at hout
      · cases hout
      · exact (Except.ok.inj hout).symm
    obtain ⟨rfl, rfl, rfl⟩ := Prog.runs_ret_iff.mp hret
    rw [hn] at hend
    by_cases hreg : Node.isRegular (z.fs.node fd.ino) = true
    · rw [if_pos hreg] at hend
      obtain ⟨rfl, rfl, heq⟩ := Prog.runs_ret_iff.mp hend
      obtain rfl := Except.ok.inj heq
      rw [← hu]
      exact ⟨rfl, rfl, rfl, rfl, hreg⟩
    · rw [if_neg hreg] at hend
      obtain ⟨y, closed, p, tail, hclose, rfl, hlast⟩ := Prog.runs_perform_iff.mp hend
      cases (Prog.runs_ret_iff.mp hlast).2.2

theorem reopened_entry {again : Target}
    (h : (openTempWriteExistingAtBuffered path).Runs (answerIds who) w tr v (.ok again)) :
    v.fs = w.fs ∧ w.fs.entry (resolve path) = some again.fd.ino := by
  obtain ⟨hfs, -⟩ := looked (i := 0) (looks_openTempWriteExisting path) h
  obtain ⟨x, opened, u, rest, hopen, rfl, hkeep⟩ := Prog.runs_perform_iff.mp h
  cases opened with
  | error e => cases (Prog.runs_ret_iff.mp hkeep).2.2
  | ok fd =>
  obtain ⟨hu, -, hfd, -⟩ := keepTarget_ok hkeep
  have hi := openFile_entry hopen
  exact ⟨hfs, by rw [← hfs, hu, hi, hfd]⟩

/-- A temporary file that is opened again by its name. -/
theorem TempAt.reopened {again : Target} (h : TempAt w target)
    (hrun : (openTempWriteExistingAtBuffered target.path).Runs (answerIds who) w tr v (.ok again)) :
    TempAt v { target with fd := again.fd } := by
  obtain ⟨hfs, hi⟩ := reopened_entry hrun
  have hsame : again.fd.ino = target.fd.ino := Option.some.inj (hi.symm.trans h.entry)
  constructor
  · rw [hfs, h.entry, hsame]
  · rw [hfs, hsame, h.isDir]
  · rw [hfs, hsame, h.mode]
  · exact h.noIds

theorem finishTemp_modeSet {stillOpen : Bool} (ht : TempAt w target)
    (h : (finishTemp who cfg t target).Runs (answerIds who) w tr v (true, stillOpen)) :
    ModeSet t v := by
  obtain ⟨before, after, u, passed, rfl, hpass, hrun⟩ := Prog.runs_bind_iff.mp h
  cases passed with
  | false => cases (Prog.runs_ret_iff.mp hrun).2.2
  | true =>
  obtain ⟨hu, -⟩ := preserveFdMetadata_moded ht.isDir hpass
  obtain ⟨x, closed, s, rest, hclose, rfl, hend⟩ := Prog.runs_perform_iff.mp hrun
  obtain rfl := query_eq (Option.some.inj hclose)
  cases closed with
  | error e => cases (Prog.runs_ret_iff.mp hend).2.2
  | ok _ =>
  obtain ⟨mid, last, z, renamed, rfl, hrename, hret⟩ := Prog.runs_bind_iff.mp hend
  obtain ⟨rfl, rfl, heq⟩ := Prog.runs_ret_iff.mp hret
  obtain ⟨rfl, rfl⟩ := Prod.mk.inj heq
  obtain ⟨hentry, hnode, -⟩ := renameTempToFinalAt_entry hrename (by rw [hu.entry, ht.entry])
  refine ⟨_, hentry, ?_⟩
  rw [hnode, hu.mode]
  split
  · rename_i hknown
    have hsame := Option.some.inj hknown
    have hids : (w.fs.node target.fd.ino).mode &&& 0xFFF &&& 0xC00 = 0 := by
      rw [ht.mode]
      exact ht.noIds
    rw [noIds_afterLoss hids, ht.mode, hsame]
  · exact and_mask _

/-- A target that was just opened: an empty regular file at its path. -/
structure OpenAt (w : World) (target : Target) : Prop where
  entry : w.fs.entry (resolve target.path) = some target.fd.ino
  empty : (w.fs.node target.fd.ino).kind = .regular []
  mode : target.mode = (w.fs.node target.fd.ino).mode &&& 0xFFF

theorem OpenAt.regular (h : OpenAt w target) : Node.isRegular (w.fs.node target.fd.ino) = true := by
  simp [Node.isRegular, h.empty]

theorem OpenAt.isDir (h : OpenAt w target) : (w.fs.node target.fd.ino).isDir = false :=
  not_isDir_of_isRegular h.regular

theorem OpenAt.temp (h : OpenAt w target) (hids : target.mode &&& 0xC00 = 0) : TempAt w target :=
  ⟨h.entry, h.isDir, h.mode.symm, hids⟩

theorem opened_empty {inplace : Bool} {mode : UInt32} {x : Choice} {fd : Fd}
    (h : answerIds who w x (.openFile path (createFlags inplace direct) mode) = some (.ok fd, v))
    (hreg : Node.isRegular (v.fs.node fd.ino) = true) : (v.fs.node fd.ino).kind = .regular [] := by
  rcases answer_openFile h with ⟨e, herr, -⟩ | ⟨j, fs, -, -, heq, hopen, rfl⟩
  · cases herr
  obtain rfl := Except.ok.inj heq
  obtain ⟨-, ⟨hfree, -, rfl, rfl⟩ | ⟨hi, hexcl, hfile⟩⟩ := Fs.openFile_eq_ok hopen
  · simp [Fs.create, newNode]
  · have hin : inplace = true := by simpa [createFlags] using hexcl
    rcases hfile with ⟨data, hk, rfl⟩ | ⟨hkind, -, rfl⟩
    · have htrunc : (createFlags inplace direct).trunc = true := hin
      rw [if_pos htrunc]
      simp [Fs.setNode]
    · unfold Node.isRegular at hreg
      split at hreg
      · rename_i data hk
        exact absurd hk (hkind data)
      · cases hreg

theorem openAt_keepTarget {inplace bypass : Bool} {mode : UInt32} {x : Choice}
    {opened : Except Errno Fd} {u : World}
    (hopen : answerIds who w x (.openFile path (createFlags inplace bypass) mode) = some (opened, u))
    (h : (keepTarget path direct opened).Runs (answerIds who) u tr v (.ok target)) :
    OpenAt v target := by
  cases opened with
  | error e => cases (Prog.runs_ret_iff.mp h).2.2
  | ok fd =>
    obtain ⟨hentry, -⟩ := open_startMode hopen
    obtain ⟨hfs, rfl, rfl, hmode, hreg⟩ := keepTarget_ok h
    constructor
    · rw [hfs, hentry]
    · rw [hfs, opened_empty hopen hreg]
    · rw [hfs, hmode]

theorem openTempCreatedOnce_openAt {mode : UInt32} (hids : mode &&& 0xC00 = 0)
    (h : (openTempCreatedOnce path mode direct).Runs (answerIds who) w tr v (.ok target)) :
    OpenAt v target ∧ target.mode &&& 0xC00 = 0 := by
  obtain ⟨x, opened, u, rest, hopen, rfl, hkeep⟩ := Prog.runs_perform_iff.mp h
  have hat := openAt_keepTarget hopen hkeep
  refine ⟨hat, ?_⟩
  cases opened with
  | error e => cases (Prog.runs_ret_iff.mp hkeep).2.2
  | ok fd =>
    obtain ⟨-, -, hmode, hfree⟩ := open_startMode hopen
    obtain ⟨-, -, -, htarget, -⟩ := keepTarget_ok hkeep
    rw [startMode, hfree rfl] at hmode
    have hmask : (0xFFF : UInt32) &&& 0xC00 = 0xC00 := rfl
    rw [htarget, hmode, and_mask, UInt32.and_assoc, hmask, hids]

theorem createTempAt_openAt {bufferedMode : UInt32} (hids : bufferedMode &&& 0xC00 = 0) {attempts : ℕ}
    (h : (createTempAt bufferedMode who cfg t attempts).Runs (answerIds who) w tr v (some target)) :
    OpenAt v target ∧ target.mode &&& 0xC00 = 0 := by
  induction attempts generalizing w tr with
  | zero => cases (Prog.runs_ret_iff.mp h).2.2
  | succ attempts ih =>
  obtain ⟨x, n, u, rest, -, rfl, hrun⟩ := Prog.runs_perform_iff.mp h
  have hbuffered : ∀ {s : World} {last : List Event},
      (createBuffered (atDir t.dstDir (makeTempName who.pid n)) bufferedMode
        (createTempAt bufferedMode who cfg t attempts)).Runs (answerIds who) s last v
          (some target) → OpenAt v target ∧ target.mode &&& 0xC00 = 0 := by
    intro s last hlast
    obtain ⟨before, after, z, opened, rfl, hopen, hend⟩ := Prog.runs_bind_iff.mp hlast
    cases opened with
    | ok made =>
      obtain ⟨-, rfl, heq⟩ := Prog.runs_ret_iff.mp hend
      obtain rfl := Option.some.inj heq
      exact openTempCreatedOnce_openAt hids hopen
    | error e =>
      cases e with
      | eexist => exact ih hend
      | _ => cases (Prog.runs_ret_iff.mp hend).2.2
  dsimp only at hrun
  split at hrun
  · obtain ⟨before, after, z, opened, rfl, hopen, hend⟩ := Prog.runs_bind_iff.mp hrun
    cases opened with
    | ok made =>
      obtain ⟨-, rfl, heq⟩ := Prog.runs_ret_iff.mp hend
      obtain rfl := Option.some.inj heq
      exact openTempCreatedOnce_openAt (copyDataMode_noIds _) hopen
    | error e =>
      have hother : (createFallback (atDir t.dstDir (makeTempName who.pid n)) bufferedMode e
          (createTempAt bufferedMode who cfg t attempts)).Runs (answerIds who) z after v
            (some target) → OpenAt v target ∧ target.mode &&& 0xC00 = 0 := by
        intro hfall
        unfold createFallback at hfall
        split at hfall
        · obtain ⟨y, gone, p, tail, -, rfl, hagain⟩ := Prog.runs_perform_iff.mp hfall
          exact hbuffered hagain
        · cases (Prog.runs_ret_iff.mp hfall).2.2
      cases e with
      | eexist => exact ih hend
      | _ => exact hother hend
  · exact hbuffered hrun

/-- A copy that is left with success had reached its end. -/
theorem leaveTarget_true {fdIn : Fd} {done stillOpen : Bool}
    (h : (leaveTarget fdIn target done stillOpen).Runs (answerIds who) w tr v true) :
    done = true ∧ v.fs = w.fs ∧ (∀ i, losesIds who i tr = false) ∧ tr.any chmodded = false := by
  have hdone : done = true := by
    obtain ⟨x, closed, u, rest, -, rfl, hrun⟩ := Prog.runs_perform_iff.mp h
    by_contra hnot
    rw [Bool.not_eq_true] at hnot
    subst hnot
    cases stillOpen with
    | false =>
      obtain ⟨y, gone, s, last, -, rfl, hend⟩ := Prog.runs_perform_iff.mp hrun
      cases (Prog.runs_ret_iff.mp hend).2.2
    | true =>
      obtain ⟨y, closed', s, last, -, rfl, hagain⟩ := Prog.runs_perform_iff.mp hrun
      obtain ⟨y', gone, s', last', -, rfl, hend⟩ := Prog.runs_perform_iff.mp hagain
      cases (Prog.runs_ret_iff.mp hend).2.2
  subst hdone
  have hlooks : LooksOnly (leaveTarget fdIn target true stillOpen) := by
    refine Prog.Keeps.call (c := Call.close fdIn) trivial ?_
    intro _ _
    cases stillOpen with
    | false => trivial
    | true => exact Prog.Keeps.call (c := Call.close target.fd) trivial fun _ _ => trivial
  refine ⟨rfl, (looked (i := 0) hlooks h).1, fun i => (looked hlooks h).2.1, ?_⟩
  exact (looked (i := 0) hlooks h).2.2

theorem ModeSet.of_eq (h : ModeSet t w) (hfs : v.fs = w.fs) : ModeSet t v := by
  obtain ⟨i, hi, hmode⟩ := h
  refine ⟨i, ?_, ?_⟩
  · rw [hfs, hi]
  · rw [hfs, hmode]

end Temp

section Others
variable {who : Identity} {cfg : Tuning} {t : Task} {w v : World} {tr : List Event} {target : Target}

theorem sparseContent_modeSet {seek : ℕ → Seek} {fdIn : Fd} {stillOpen : Bool} (ht : TempAt w target)
    (h : (sparseContent who cfg t seek fdIn target).Runs (answerIds who) w tr v (true, stillOpen)) :
    ModeSet t v := by
  obtain ⟨x, free, u, rest, htry, rfl, hrun⟩ := Prog.runs_perform_iff.mp h
  have hu : TempAt u target := by
    have hfs := answerIds_looks (c := .attempt) trivial htry
    exact ⟨by rw [hfs, ht.entry], by rw [hfs, ht.isDir], by rw [hfs, ht.mode], ht.noIds⟩
  split at hrun
  · cases (Prog.runs_ret_iff.mp hrun).2.2
  obtain ⟨mid, last, s, copied, rfl, hcopy, hend⟩ := Prog.runs_bind_iff.mp hrun
  have hs := hu.moved (moves_of_movesTo (movesTo_copyDataExtents ..)) hcopy
  split at hend
  · cases (Prog.runs_ret_iff.mp hend).2.2
  obtain ⟨y, sized, z, tail, hsize, rfl, hfin⟩ := Prog.runs_perform_iff.mp hend
  cases sized with
  | error e => cases (Prog.runs_ret_iff.mp hfin).2.2
  | ok _ =>
    have hz : TempAt z target :=
      hs.moved (m := Sys.ftruncate target.fd t.size) (Prog.Keeps.last trivial)
        (Prog.runs_call_iff.mpr ⟨y, .ok (), z, [], hsize, rfl, Prog.runs_ret_iff.mpr ⟨rfl, rfl, rfl⟩⟩)
    exact finishTemp_modeSet hz hfin

/-- A sparse copy sets the mode. -/
theorem copyFileSparse_modeSet {seek : ℕ → Seek}
    (h : (copyFileSparse who cfg t seek).Runs (answerIds who) w tr v true) : ModeSet t v := by
  obtain ⟨opening, making, rest, u, s, ⟨fdIn, direct⟩, target, -, -, hcreate, hend⟩ :=
    opened_of_copy (r := .sparse seek) h
  simp only [Route.create, createTempAt_buffered] at hcreate
  obtain ⟨hat, hids⟩ := createTempAt_openAt (bufferedCreateMode_noIds _) hcreate
  have ht := hat.temp hids
  have hfinish : ∀ {z : World} {rest : List Event} {target : Target}, TempAt z target →
      (copySparse who cfg t seek fdIn target).Runs (answerIds who) z rest v true →
      ModeSet t v := by
    intro z rest target hz hcontent
    unfold copySparse at hcontent
    obtain ⟨first, leave, p, ⟨done, stillOpen⟩, rfl, hfirst, hleave⟩ := Prog.runs_bind_iff.mp hcontent
    obtain ⟨rfl, hfs, -⟩ := leaveTarget_true hleave
    exact (sparseContent_modeSet hz hfirst).of_eq hfs
  simp only [Route.finish] at hend
  split at hend
  · obtain ⟨x, closed, z, rest, hclose, rfl, hagain⟩ := Prog.runs_perform_iff.mp hend
    obtain rfl := query_eq (Option.some.inj hclose)
    obtain ⟨first, leave, p, again, rfl, hopen, hleave⟩ := Prog.runs_bind_iff.mp hagain
    cases again with
    | error e => cases (leaveTarget_true hleave).1
    | ok again => exact hfinish (ht.reopened hopen) hleave
  · exact hfinish ht hend

theorem largeContent_modeSet {sparse stillOpen : Bool} {ranges : List (ℕ × ℕ)} {fdIn : Fd}
    (ht : TempAt w target)
    (h : (largeContent who cfg t sparse ranges fdIn target).Runs (answerIds who) w tr v
      (true, stillOpen)) : ModeSet t v := by
  obtain ⟨before, after, u, sized, rfl, hsize, hrun⟩ := Prog.runs_bind_iff.mp h
  have hu := ht.moved (moves_of_movesTo (movesTo_presize ..)) hsize
  split at hrun
  · cases (Prog.runs_ret_iff.mp hrun).2.2
  obtain ⟨mid, rest, u', free, rfl, htry, hrun⟩ := Prog.runs_bind_iff.mp hrun
  have hu' := hu.moved (m := Sys.attempt) (Prog.Keeps.last trivial) htry
  split at hrun
  · cases (Prog.runs_ret_iff.mp hrun).2.2
  obtain ⟨bulk, rest, s, copied, rfl, hmove, hrun⟩ := Prog.runs_bind_iff.mp hrun
  have hs := hu'.moved (moves_of_movesTo (movesTo_moveRanges ..)) hmove
  split at hrun
  · cases (Prog.runs_ret_iff.mp hrun).2.2
  obtain ⟨tail, last, z, copied', rfl, htail, hend⟩ := Prog.runs_bind_iff.mp hrun
  have hz := hs.moved (moves_copyTailBufferedAt ..) htail
  split at hend
  · cases (Prog.runs_ret_iff.mp hend).2.2
  · exact finishTemp_modeSet hz hend

/-- A large copy sets the mode. -/
theorem copyFileLarge_modeSet {sparse : Bool} {ranges : List (ℕ × ℕ)}
    (h : (copyFileLarge who cfg t sparse ranges).Runs (answerIds who) w tr v true) : ModeSet t v := by
  obtain ⟨opening, making, rest, u, s, ⟨fdIn, direct⟩, target, -, -, hcreate, hend⟩ :=
    opened_of_copy (r := .large sparse ranges) h
  obtain ⟨hat, hids⟩ := createTempAt_openAt (copyDataMode_noIds _) hcreate
  have ht := hat.temp hids
  obtain ⟨first, leave, p, ⟨done, stillOpen⟩, rfl, hfirst, hleave⟩ := Prog.runs_bind_iff.mp hend
  obtain ⟨rfl, hfs, -⟩ := leaveTarget_true hleave
  exact (largeContent_modeSet ht hfirst).of_eq hfs

end Others

end Ecopy.Metadata
