import Ecopy.Metadata.TempMode

/-!
# The mode of a file that is copied locally

A copy leaves out the final `chmod` when the mode that was read right after opening is the
mode of the source already. The writes and the `chown` that follow can take its set-id bits
away. Only a file that is written in place can have such bits when it is opened.
-/
namespace Ecopy.Metadata
open Protocol Ecopy.Path FileSystem Server Lib.Calls
open Workers.SmallCopy Workers.OtherCopies Workers.Events Workers.CallsMade

/-- The final name stands for the target, whose mode was set, or was right at the start and
has lost what the writes and the owner took. -/
structure Written (who : Identity) (t : Task) (target : Target) (w v : World) (tr : List Event) :
    Prop where
  entry : v.fs.entry (resolve t.dst) = some target.fd.ino
  mode : (v.fs.node target.fd.ino).mode = if tr.any chmodded then t.attr.mode &&& 0xFFF
    else afterLoss (losesIds who target.fd.ino tr) (w.fs.node target.fd.ino).mode
  known : tr.any chmodded = false → target.mode = t.attr.mode &&& 0xFFF

section Content
variable {who : Identity} {cfg : Tuning} {t : Task} {w v u : World} {tr tr' : List Event}
  {target : Target}

theorem Written.after {α : Type} {m : Handler α} {a : α} (hm : MovesData m)
    (hrun : m.Runs (answerIds who) w tr u a) (hdir : (w.fs.node target.fd.ino).isDir = false)
    (h : Written who t target u v tr') : Written who t target w v (tr ++ tr') := by
  obtain ⟨hu, -, hchmod⟩ := moved hm hrun hdir
  have hany : (tr ++ tr').any chmodded = tr'.any chmodded := by simp [hchmod]
  constructor
  · exact h.entry
  · rw [h.mode, hany, hu.mode, afterLoss_afterLoss, losesIds_append]
  · rw [hany]
    exact h.known

/-- Closing, and the rename of a temporary file. -/
theorem Written.before (h : Written who t target w u tr)
    (hentry : v.fs.entry (resolve t.dst) = some target.fd.ino) (hnode : v.fs.node = u.fs.node)
    (hlost : losesIds who target.fd.ino tr' = false) (hchmod : tr'.any chmodded = false) :
    Written who t target w v (tr ++ tr') := by
  have hany : (tr ++ tr').any chmodded = tr.any chmodded := by simp [hchmod]
  constructor
  · exact hentry
  · rw [hnode, h.mode, hany, losesIds_append, hlost, Bool.or_false]
  · rw [hany]
    exact h.known

/-- The last step of both endings. -/
theorem placed {last : List Event} (hinplace : cfg.inplace = true → target.path = t.dst)
    (hi : u.fs.entry (resolve target.path) = some target.fd.ino) {stillOpen : Bool}
    (h : (if cfg.inplace then return (true, false)
      else do return (← renameTempToFinalAt t target.path, false) : Handler (Bool × Bool)).Runs
        (answerIds who) u last v (true, stillOpen)) :
    v.fs.entry (resolve t.dst) = some target.fd.ino ∧ v.fs.node = u.fs.node ∧
      losesIds who target.fd.ino last = false ∧ last.any chmodded = false := by
  split at h
  · rename_i hin
    obtain ⟨rfl, rfl, -⟩ := Prog.runs_ret_iff.mp h
    rw [hinplace hin] at hi
    exact ⟨hi, rfl, by simp [losesIds], rfl⟩
  · obtain ⟨before, after, s, renamed, rfl, hrename, hret⟩ := Prog.runs_bind_iff.mp h
    obtain ⟨rfl, rfl, heq⟩ := Prog.runs_ret_iff.mp hret
    obtain ⟨rfl, -⟩ := Prod.mk.inj heq
    rw [List.append_nil]
    exact renameTempToFinalAt_entry hrename hi

theorem finishDirect_written {stillOpen : Bool} (hinplace : cfg.inplace = true → target.path = t.dst)
    (hi : w.fs.entry (resolve target.path) = some target.fd.ino)
    (hdir : (w.fs.node target.fd.ino).isDir = false)
    (h : (finishDirect who cfg t target).Runs (answerIds who) w tr v (true, stillOpen)) :
    Written who t target w v tr := by
  obtain ⟨x, closed, u, rest, hclose, rfl, hrun⟩ := Prog.runs_perform_iff.mp h
  obtain rfl := query_eq (Option.some.inj hclose)
  obtain ⟨before, after, s, copied, rfl, htail, hrun⟩ := Prog.runs_bind_iff.mp hrun
  obtain ⟨hs, -, hchmod⟩ := moved (moves_copyTailBufferedAt ..) htail hdir
  split at hrun
  · cases (Prog.runs_ret_iff.mp hrun).2.2
  obtain ⟨mid, last, z, passed, rfl, hpass, hend⟩ := Prog.runs_bind_iff.mp hrun
  split at hend
  · cases (Prog.runs_ret_iff.mp hend).2.2
  rename_i hdone
  obtain rfl : passed = true := by simpa using hdone
  obtain ⟨i, hentry, hz, hset⟩ := preservePath_moded hpass
  have hsi : s.fs.entry (resolve target.path) = some target.fd.ino := by rw [hs.entry, hi]
  obtain rfl : i = target.fd.ino := Option.some.inj (hentry.symm.trans hsi)
  obtain ⟨hfinal, hnode, -⟩ := placed hinplace (by rw [hz.entry, hsi]) hend
  have hany : (⟨.close target.fd, closed⟩ :: (before ++ (mid ++ last)) : List Event).any chmodded =
      true := by
    simp [hset]
  constructor
  · exact hfinal
  · rw [hnode, hz.mode, hany, if_pos rfl]
  · rw [hany]
    exact nofun

theorem finishBuffered_written {fdIn : Fd} {pos : ℕ} {bulkDirect stillOpen : Bool}
    (hinplace : cfg.inplace = true → target.path = t.dst)
    (hi : w.fs.entry (resolve target.path) = some target.fd.ino)
    (hdir : (w.fs.node target.fd.ino).isDir = false)
    (h : (finishBuffered who cfg t fdIn target pos bulkDirect).Runs (answerIds who) w tr v
      (true, stillOpen)) : Written who t target w v tr := by
  have hrest : ∀ {s : World} {rest : List Event},
      (finishOpen who cfg t fdIn target pos).Runs (answerIds who) s rest v (true, stillOpen) →
      s.fs.entry (resolve target.path) = some target.fd.ino →
      (s.fs.node target.fd.ino).isDir = false → Written who t target s v rest := by
    intro s rest hrun hsi hsdir
    obtain ⟨before, after, u, copied, rfl, htail, hrun⟩ := Prog.runs_bind_iff.mp hrun
    obtain ⟨hu, -⟩ := moved (moves_of_movesTo (movesTo_copyTailBufferedFds ..)) htail hsdir
    have hui : u.fs.entry (resolve target.path) = some target.fd.ino := by rw [hu.entry, hsi]
    have hudir := hu.isDir.trans hsdir
    apply Written.after (moves_of_movesTo (movesTo_copyTailBufferedFds ..)) htail hsdir
    split at hrun
    · cases (Prog.runs_ret_iff.mp hrun).2.2
    obtain ⟨mid, last, z, passed, rfl, hpass, hend⟩ := Prog.runs_bind_iff.mp hrun
    split at hend
    · cases (Prog.runs_ret_iff.mp hend).2.2
    rename_i hdone
    obtain rfl : passed = true := by simpa using hdone
    obtain ⟨hz, hset⟩ := preserveFdMetadata_moded hudir hpass
    obtain ⟨y, closed, p, tail, hclose, rfl, hplace⟩ := Prog.runs_perform_iff.mp hend
    obtain rfl := query_eq (Option.some.inj hclose)
    cases closed with
    | error e => cases (Prog.runs_ret_iff.mp hplace).2.2
    | ok _ =>
    obtain ⟨hfinal, hnode, hlost, hchmod⟩ := placed hinplace (by rw [hz.entry, hui]) hplace
    have hany : (mid ++ ⟨.close target.fd, .ok ()⟩ :: tail : List Event).any chmodded =
        mid.any chmodded := by
      simp [hchmod, chmodded]
    constructor
    · exact hfinal
    · have hlosses : losesIds who target.fd.ino (mid ++ ⟨.close target.fd, .ok ()⟩ :: tail) =
          losesIds who target.fd.ino mid := by
        rw [← List.singleton_append (l := tail), losesIds_append, losesIds_append, hlost]
        simp [losesIds, wrote, chowned]
      rw [hnode, hz.mode, hany, hlosses]
      by_cases hknown : target.mode = t.attr.mode &&& 0xFFF
      · have hnot : mid.any chmodded = false := by
          rw [← Bool.not_eq_true, hset]
          simp [hknown]
        rw [if_pos (congrArg some hknown), hnot]
        rfl
      · have hyes : mid.any chmodded = true := hset.mpr fun heq => hknown (Option.some.inj heq)
        rw [if_neg fun heq => hknown (Option.some.inj heq), hyes, if_pos rfl]
    · rw [hany]
      intro hnot
      by_contra hknown
      rw [hset.mpr fun heq => hknown (Option.some.inj heq)] at hnot
      cases hnot
  obtain ⟨x, free, u, rest, htry, rfl, hrun⟩ := Prog.runs_perform_iff.mp h
  have hfs := answerIds_looks (c := .attempt) trivial htry
  split at hrun
  · cases (Prog.runs_ret_iff.mp hrun).2.2
  · have hwritten := hrest hrun (by rw [hfs, hi]) (by rw [hfs, hdir])
    exact Written.after (m := Sys.attempt) (Prog.Keeps.last trivial)
      (Prog.runs_call_iff.mpr ⟨x, free, u, [], htry, rfl, Prog.runs_ret_iff.mpr ⟨rfl, rfl, rfl⟩⟩)
      hdir hwritten

theorem copyContent_written {fdIn : Fd} {inDirect stillOpen : Bool}
    (hinplace : cfg.inplace = true → target.path = t.dst)
    (hi : w.fs.entry (resolve target.path) = some target.fd.ino)
    (hdir : (w.fs.node target.fd.ino).isDir = false)
    (h : (copyContent who cfg t fdIn inDirect target).Runs (answerIds who) w tr v
      (true, stillOpen)) : Written who t target w v tr := by
  obtain ⟨first, rest, u, free, rfl, htry, hrun⟩ := Prog.runs_bind_iff.mp h
  have hattempt : MovesData Sys.attempt := Prog.Keeps.last trivial
  obtain ⟨hu, -⟩ := moved hattempt htry hdir
  apply Written.after hattempt htry hdir
  split at hrun
  · cases (Prog.runs_ret_iff.mp hrun).2.2
  obtain ⟨switch, rest, s, switched, rfl, hswitch, hrun⟩ := Prog.runs_bind_iff.mp hrun
  have hudir := hu.isDir.trans hdir
  have hswitches : MovesData (attemptIf
      (!(inDirect || target.direct) && !cfg.copyFileRange && smallBulkWantsDirect cfg t)) :=
    keeps_attemptIf trivial _
  obtain ⟨hs, -⟩ := moved hswitches hswitch hudir
  apply Written.after hswitches hswitch hudir
  obtain ⟨bulk, last, z, looped, rfl, hloop, hend⟩ := Prog.runs_bind_iff.mp hrun
  have hsdir := hs.isDir.trans hudir
  obtain ⟨hz, -⟩ := moved (moves_of_movesTo (movesTo_copyLoop ..)) hloop hsdir
  apply Written.after (moves_of_movesTo (movesTo_copyLoop ..)) hloop hsdir
  have hzi : z.fs.entry (resolve target.path) = some target.fd.ino := by
    rw [hz.entry, hs.entry, hu.entry, hi]
  have hzdir := hz.isDir.trans hsdir
  cases looped with
  | none => cases (Prog.runs_ret_iff.mp hend).2.2
  | some reached =>
    obtain ⟨pos, bulkDirect⟩ := reached
    dsimp only at hend
    split at hend
    · exact finishDirect_written hinplace hzi hzdir hend
    · exact finishBuffered_written hinplace hzi hzdir hend

end Content

/-- What opening in place leaves of set-id bits: a regular file that has some was there
before, under the same name and with the same mode. -/
structure Opened (who : Identity) (l : Loc) (w v : World) (tr : List Event) : Prop where
  entry : ∀ i, w.fs.entry l = some i → v.fs.entry l = some i
  ids : ∀ i, v.fs.entry l = some i → Node.isRegular (v.fs.node i) = true →
    (v.fs.node i).mode &&& 0xFFF &&& 0xC00 ≠ 0 →
      w.fs.entry l = some i ∧ Node.isRegular (w.fs.node i) = true ∧
        (v.fs.node i).mode = (w.fs.node i).mode ∧ tr.any chmodded = false
  keepsIds : ∀ i, losesIds who i tr = false

section InPlace
variable {who : Identity} {cfg : Tuning} {t : Task} {w v u : World} {tr tr' : List Event} {l : Loc}
  {target : Target}

theorem Opened.refl (w : World) (l : Loc) : Opened who l w w [] :=
  ⟨fun _ => id, fun _ hi hreg _ => ⟨hi, hreg, rfl, rfl⟩, fun i => by simp [losesIds]⟩

theorem Opened.trans (h : Opened who l w u tr) (h' : Opened who l u v tr') :
    Opened who l w v (tr ++ tr') := by
  constructor
  · exact fun i hi => h'.entry i (h.entry i hi)
  · intro i hi hreg hids
    obtain ⟨hui, hureg, hmode, hnot⟩ := h'.ids i hi hreg hids
    obtain ⟨hwi, hwreg, hmode', hnot'⟩ := h.ids i hui hureg (hmode ▸ hids)
    exact ⟨hwi, hwreg, hmode.trans hmode', by simp [hnot, hnot']⟩
  · intro i
    rw [losesIds_append, h.keepsIds, h'.keepsIds, Bool.or_false]

theorem Opened.looked {α : Type} {m : Handler α} {a : α} (hm : LooksOnly m)
    (hrun : m.Runs (answerIds who) w tr v a) : Opened who l w v tr := by
  obtain ⟨hfs, -, hnot⟩ := Metadata.looked (i := 0) hm hrun
  constructor
  · intro i hi
    rw [hfs, hi]
  · intro i hi hreg _
    rw [hfs] at hi hreg
    exact ⟨hi, hreg, by rw [hfs], hnot⟩
  · exact fun i => (Metadata.looked hm hrun).2.1

theorem opened_same {ev : Event} (hfs : v.fs = w.fs) (hev : chmodded ev = false)
    (hids : ∀ i, losesIds who i [ev] = false) : Opened who l w v [ev] := by
  constructor
  · intro i hi
    rw [hfs, hi]
  · intro i hi hreg _
    rw [hfs] at hi hreg
    exact ⟨hi, hreg, by rw [hfs], by simp [hev]⟩
  · exact hids

variable {path : Bytes} {mode : UInt32}

theorem opened_openFile {direct : Bool} {x : Choice} {r : Except Errno Fd}
    (hmode : mode &&& 0xC00 = 0)
    (h : answerIds who w x (.openFile path (createFlags true direct) mode) = some (r, v)) :
    Opened who (resolve path) w v [⟨.openFile path (createFlags true direct) mode, r⟩] := by
  have hquiet : ∀ i, losesIds who i [⟨.openFile path (createFlags true direct) mode, r⟩] = false := by
    simp [losesIds, wrote, chowned]
  rcases answer_openFile h with ⟨e, -, rfl⟩ | ⟨j, fs, -, -, -, hopen, rfl⟩
  · exact opened_same rfl rfl hquiet
  obtain ⟨-, ⟨hfree, -, rfl, rfl⟩ | ⟨hj, -, ⟨data, hk, rfl⟩ | ⟨-, -, rfl⟩⟩⟩ := Fs.openFile_eq_ok hopen
  · -- a new file has no set-id bits
    constructor
    · intro i hi
      rw [hfree] at hi
      cases hi
    · intro i hi _ hids
      have hnew : w.fs.next = i := by simpa [Fs.create] using hi
      subst hnew
      have hmask : (0xFFF : UInt32) &&& 0xC00 = 0xC00 := rfl
      simp [Fs.create, newNode, UInt32.and_assoc, hmask, hmode] at hids
    · exact hquiet
  · have htrunc : (createFlags true direct).trunc = true := rfl
    rw [if_pos htrunc]
    constructor
    · exact fun _ => id
    · intro i hi _ _
      obtain rfl : j = i := Option.some.inj (hj.symm.trans hi)
      exact ⟨hj, by simp [Node.isRegular, hk], by simp [Fs.setNode], rfl⟩
    · exact hquiet
  · exact opened_same rfl rfl hquiet

/-- `fchmodat` reaches the regular file at the path. -/
theorem opened_fchmodat {res : Except Errno Unit} (hmode : mode &&& 0xC00 = 0)
    (h : (fchmodat path mode).Runs (answerIds who) w tr v res) :
    Opened who (resolve path) w v tr := by
  obtain ⟨x, found, u, rest, hstat, rfl, hrun⟩ := Prog.runs_perform_iff.mp h
  obtain rfl := query_eq (Option.some.inj hstat)
  cases found with
  | error e =>
    obtain ⟨rfl, rfl, -⟩ := Prog.runs_ret_iff.mp hrun
    exact opened_same rfl rfl (by simp [losesIds, wrote, chowned])
  | ok found =>
  obtain ⟨j, n⟩ := found
  obtain ⟨y, r, s, last, hchmod, rfl, hret⟩ := Prog.runs_call_iff.mp hrun
  obtain ⟨rfl, rfl, -⟩ := Prog.runs_ret_iff.mp hret
  have hfirst : Opened who (resolve path) u u [⟨.stat path, .ok (j, n)⟩] :=
    opened_same rfl rfl (by simp [losesIds, wrote, chowned])
  apply hfirst.trans
  rcases answer_node hchmod with ⟨e, rfl, rfl⟩ | ⟨rfl, hv⟩
  · exact opened_same rfl rfl (by simp [losesIds, wrote, chowned])
  constructor
  · intro i hi
    rw [hv]
    exact hi
  · intro i hi hreg hids
    rw [hv] at hi
    have hsame : i = j := by
      have hplain : answer who u x (.stat path) = some (.ok (j, n), u) := hstat
      have hino := answer_stat hplain
      by_contra hne
      rw [hv] at hreg
      simp only [Fs.setNode, Function.update_of_ne hne] at hreg hi
      unfold Node.isRegular at hreg
      split at hreg
      · rename_i data hk
        simp only [statIno, follow, hi, hk] at hino
        exact hne (Option.some.inj hino)
      · cases hreg
    subst hsame
    rw [hv] at hids
    have hmask : (0xFFF : UInt32) &&& 0xC00 = 0xC00 := rfl
    simp [Fs.setNode, UInt32.and_assoc, hmask, hmode] at hids
  · simp [losesIds, wrote, chowned]

theorem opened_openFinal {direct : Bool} {res : Except Errno Target} (hmode : mode &&& 0xC00 = 0)
    (h : (openFinalCreatedOnce path mode direct).Runs (answerIds who) w tr v res) :
    Opened who (resolve path) w v tr := by
  obtain ⟨x, opened, u, rest, hopen, rfl, hrun⟩ := Prog.runs_perform_iff.mp h
  have hfirst := opened_openFile hmode hopen
  rw [← List.singleton_append]
  apply hfirst.trans
  by_cases hacces : opened = .error .eacces
  · subst hacces
    obtain ⟨mid, last, s, moded, rfl, hchmod, hend⟩ := Prog.runs_bind_iff.mp hrun
    apply (opened_fchmodat (copyDataMode_noIds mode) hchmod).trans
    cases moded with
    | error e =>
      obtain ⟨rfl, rfl, -⟩ := Prog.runs_ret_iff.mp hend
      exact .refl _ _
    | ok _ =>
      obtain ⟨y, again, z, tail, hagain, rfl, hkeep⟩ := Prog.runs_perform_iff.mp hend
      rw [← List.singleton_append]
      exact (opened_openFile hmode hagain).trans (.looked (looks_keepTarget ..) hkeep)
  · have hkeep : (keepTarget path direct opened).Runs (answerIds who) u rest v res := by
      cases opened with
      | ok fd => exact hrun
      | error e =>
        cases e with
        | eacces => exact absurd rfl hacces
        | _ => exact hrun
    exact .looked (looks_keepTarget ..) hkeep

theorem openFinal_openAt {direct : Bool}
    (h : (openFinalCreatedOnce path mode direct).Runs (answerIds who) w tr v (.ok target)) :
    OpenAt v target := by
  obtain ⟨x, opened, u, rest, hopen, rfl, hrun⟩ := Prog.runs_perform_iff.mp h
  by_cases hacces : opened = .error .eacces
  · subst hacces
    obtain ⟨mid, last, s, moded, rfl, -, hend⟩ := Prog.runs_bind_iff.mp hrun
    cases moded with
    | error e => cases (Prog.runs_ret_iff.mp hend).2.2
    | ok _ =>
      obtain ⟨y, again, z, tail, hagain, rfl, hkeep⟩ := Prog.runs_perform_iff.mp hend
      exact openAt_keepTarget hagain hkeep
  · have hkeep : (keepTarget path direct opened).Runs (answerIds who) u rest v (.ok target) := by
      cases opened with
      | ok fd => exact hrun
      | error e =>
        cases e with
        | eacces => exact absurd rfl hacces
        | _ => exact hrun
    exact openAt_keepTarget hopen hkeep

theorem createFinal_opened
    (h : (createFinalWriteAtMaybeDirect cfg t).Runs (answerIds who) w tr v (some target)) :
    Opened who (resolve t.dst) w v tr ∧ OpenAt v target := by
  have hbuffered : ∀ {s : World} {rest : List Event},
      (do return (← openFinalCreatedOnce t.dst (bufferedCreateMode t.attr.mode) false).toOption :
        Handler (Option Target)).Runs (answerIds who) s rest v (some target) →
      Opened who (resolve t.dst) s v rest ∧ OpenAt v target := by
    intro s rest hrun
    obtain ⟨before, after, u, res, rfl, hfinal, hend⟩ := Prog.runs_bind_iff.mp hrun
    obtain ⟨rfl, rfl, hsome⟩ := Prog.runs_ret_iff.mp hend
    rw [List.append_nil]
    cases res with
    | error e => cases hsome
    | ok made =>
      obtain rfl := Option.some.inj hsome
      exact ⟨opened_openFinal (bufferedCreateMode_noIds _) hfinal, openFinal_openAt hfinal⟩
  unfold createFinalWriteAtMaybeDirect at h
  dsimp only at h
  split at h
  · obtain ⟨before, after, u, res, rfl, hfinal, hend⟩ := Prog.runs_bind_iff.mp h
    have hfirst := opened_openFinal (copyDataMode_noIds _) hfinal
    cases res with
    | ok made =>
      obtain ⟨rfl, rfl, hsome⟩ := Prog.runs_ret_iff.mp hend
      obtain rfl := Option.some.inj hsome
      rw [List.append_nil]
      exact ⟨hfirst, openFinal_openAt hfinal⟩
    | error e =>
      dsimp only at hend
      split at hend
      · obtain ⟨hrest, hat⟩ := hbuffered hend
        exact ⟨hfirst.trans hrest, hat⟩
      · cases (Prog.runs_ret_iff.mp hend).2.2
  · exact hbuffered h

end InPlace

/-- The file that is written in place has the mode of the source from the start, so that no
`chmod` follows, and loses set-id bits on the way. -/
def StaleIds (who : Identity) (cfg : Tuning) (t : Task) (w : World) (tr : List Event) : Prop :=
  cfg.inplace = true ∧ ∃ i, w.fs.entry (resolve t.dst) = some i ∧
    (w.fs.node i).mode &&& 0xFFF = t.attr.mode &&& 0xFFF ∧ t.attr.mode &&& 0xC00 ≠ 0 ∧
    losesIds who i tr = true ∧ tr.any chmodded = false

section Small
variable {who : Identity} {cfg : Tuning} {t : Task} {w v u : World} {tr before content : List Event}
  {target : Target}

theorem lossless_iff (lost : Bool) (mode : UInt32) :
    afterLoss lost mode &&& 0xFFF = mode &&& 0xFFF ↔ (lost = true → mode &&& 0xC00 = 0) := by
  cases lost
  · simp [afterLoss]
  · rw [afterLoss_and]
    simpa using and_eq_iff_noIds mode

theorem ids_mask (mode : UInt32) : mode &&& 0xFFF &&& 0xC00 = mode &&& 0xC00 := by
  have hmask : (0xFFF : UInt32) &&& 0xC00 = 0xC00 := rfl
  rw [UInt32.and_assoc, hmask]

/-- What was written shows in the mode of the final file. -/
theorem Written.modeSet_iff (h : Written who t target u v content)
    (hmode : target.mode = (u.fs.node target.fd.ino).mode &&& 0xFFF) :
    ModeSet t v ↔ (content.any chmodded = false → losesIds who target.fd.ino content = true →
      target.mode &&& 0xC00 = 0) := by
  have hiff : ModeSet t v ↔
      (v.fs.node target.fd.ino).mode &&& 0xFFF = t.attr.mode &&& 0xFFF := by
    constructor
    · rintro ⟨i, hi, hset⟩
      rwa [← Option.some.inj (h.entry.symm.trans hi)] at hset
    · exact fun hset => ⟨_, h.entry, hset⟩
  rw [hiff, h.mode]
  cases hany : content.any chmodded with
  | true => simp [and_mask]
  | false =>
    have hknown := h.known hany
    rw [← hknown, hmode, if_neg Bool.false_ne_true, lossless_iff, ids_mask]
    simp

/-- A target that was opened in place. -/
theorem Written.inPlace_iff (h : Written who t target u v content) (hat : OpenAt u target)
    (hpath : target.path = t.dst) (hopen : Opened who (resolve t.dst) w u before)
    (hin : cfg.inplace = true) : ModeSet t v ↔ ¬ StaleIds who cfg t w (before ++ content) := by
  rw [h.modeSet_iff hat.mode]
  constructor
  · rintro hfine ⟨-, i, hi, hmode, hids, hlost, hnot⟩
    rw [List.any_append, Bool.or_eq_false_iff] at hnot
    obtain rfl : i = target.fd.ino := by
      have hentry := hat.entry
      rw [hpath, hopen.entry i hi] at hentry
      exact Option.some.inj hentry
    rw [losesIds_append, hopen.keepsIds, Bool.false_or] at hlost
    apply hids
    rw [← ids_mask, ← h.known hnot.2]
    exact hfine hnot.2 hlost
  · intro hfine hnot hlost
    by_contra hids
    apply hfine
    have hentry := hat.entry
    rw [hpath] at hentry
    obtain ⟨hi, -, hmode, hfirst⟩ := hopen.ids _ hentry hat.regular (by rwa [← hat.mode])
    refine ⟨hin, _, hi, ?_, ?_, ?_, ?_⟩
    · rw [← hmode, ← hat.mode, h.known hnot]
    · rwa [h.known hnot, ids_mask] at hids
    · rw [losesIds_append, hlost, Bool.or_true]
    · rw [List.any_append, hfirst, hnot]
      rfl

theorem copyFileSerialSmall_modeSet
    (h : (copyFileSerialSmall who cfg t).Runs (answerIds who) w tr v true) :
    ModeSet t v ↔ ¬ StaleIds who cfg t w tr := by
  obtain ⟨first, mid, last, u, s, ⟨fdIn, inDirect⟩, target, rfl, hsource, hcreate, hend⟩ :=
    opened_of_copy (r := .small) h
  obtain ⟨content, leave, z, ⟨done, stillOpen⟩, rfl, hcontent, hleave⟩ := Prog.runs_bind_iff.mp hend
  obtain ⟨rfl, hfs, hlost, hnot⟩ := leaveTarget_true hleave
  have hleft : Written who t target s z content → Written who t target s v (content ++ leave) := by
    intro hwritten
    refine hwritten.before ?_ (by rw [hfs]) (hlost _) hnot
    rw [hfs]
    exact hwritten.entry
  by_cases hin : cfg.inplace = true
  · rw [Route.create, createTarget, if_pos hin] at hcreate
    obtain ⟨hopen, hat⟩ := createFinal_opened hcreate
    have hpath : target.path = t.dst := (createFinal_path.calls hcreate).2 target rfl
    have hwritten := copyContent_written (fun _ => hpath) hat.entry
      hat.isDir hcontent
    have hiff := (hleft hwritten).inPlace_iff hat hpath
      ((Opened.looked looks_openReadAtMaybeDirect hsource).trans hopen) hin
    rwa [List.append_assoc] at hiff
  · rw [Route.create, createTarget, if_neg hin, createTempAt_buffered] at hcreate
    obtain ⟨hat, hids⟩ := createTempAt_openAt (bufferedCreateMode_noIds _) hcreate
    have ht := hat.temp hids
    have hwritten := copyContent_written (fun hyes => absurd hyes hin) ht.entry ht.isDir hcontent
    refine iff_of_true ?_ fun hstale => hin hstale.1
    exact (hwritten.modeSet_iff ht.mode.symm).mpr (fun _ _ => ht.noIds) |>.of_eq hfs

end Small

/-- Which successful copies end with the mode of the source. -/
theorem local_copy_mode (who : Identity) (cfg : Tuning) (t : Task) (w v : World) (tr : List Event) :
    ((copyFileSerialSmall who cfg t).Runs (answerIds who) w tr v true →
      (ModeSet t v ↔ ¬ StaleIds who cfg t w tr)) ∧
    (∀ seek, (copyFileSparse who cfg t seek).Runs (answerIds who) w tr v true → ModeSet t v) ∧
    ∀ sparse ranges, (copyFileLarge who cfg t sparse ranges).Runs (answerIds who) w tr v true →
      ModeSet t v :=
  ⟨copyFileSerialSmall_modeSet, fun _ => copyFileSparse_modeSet, fun _ _ => copyFileLarge_modeSet⟩

/-- `/a` is the source and `/b` the destination, both with mode 04755. -/
def setuidFiles : Fs :=
  .flat [([97], 1), ([98], 2)]
    (fun i => ⟨if i = 0 then .directory else .regular [7], 0x9ED, 0, 0, (0, 0), (0, 0)⟩) 3

theorem ordinary_b : Ordinary [98] := ⟨⟨by decide, by decide⟩, by decide⟩

def setuidTask (uid : UInt32) : Task where
  src := [47, 97]
  dstDir := [47]
  name := [98]
  ino := 1
  size := 1
  attr := ⟨uid, 0, 0x9ED, (0, 0), (0, 0)⟩
  name_ordinary := ordinary_b

def inPlace : Tuning := { plain with inplace := true }

theorem exists_refresh_in_place {uid : UInt32} (h : uid = 0 ∨ uid = 5) : ∃ tr v,
    (copyFileSerialSmall root inPlace (setuidTask uid)).Runs (answerIds root) (.initial setuidFiles)
      tr v true ∧ losesIds root 2 tr = (uid != 0) ∧ tr.any chmodded = false := by
  have hplay : ((copyFileSerialSmall root inPlace (setuidTask uid)).play (answerIds root)
      (.initial setuidFiles) (List.replicate 20 ⟨none, 0, false⟩)).map
        (fun out => (losesIds root 2 out.1, out.1.any chmodded, out.2.2)) =
          some (uid != 0, false, true) := by
    rcases h with rfl | rfl
    · decide +kernel
    · decide +kernel
  obtain ⟨⟨tr, v, a⟩, hout, heq⟩ := Option.map_eq_some_iff.mp hplay
  obtain ⟨hlost, hrest⟩ := Prod.mk.inj heq
  obtain ⟨hnot, rfl⟩ := Prod.mk.inj hrest
  exact ⟨tr, v, Prog.runs_of_play hout, hlost, hnot⟩

theorem setuidFiles_dst (uid : UInt32) :
    setuidFiles.entry (resolve (setuidTask uid).dst) = some 2 := by
  have hdst : resolve (atDir [47] [98]) = [[98]] := by decide +kernel
  rw [setuidTask, Task.dst, hdst]
  rfl

/-- A file of the process's own keeps its bits. -/
theorem local_copy_mode_own : ∃ tr v,
    (copyFileSerialSmall root inPlace (setuidTask 0)).Runs (answerIds root) (.initial setuidFiles)
      tr v true ∧ ModeSet (setuidTask 0) v := by
  obtain ⟨tr, v, hrun, hlost, -⟩ := exists_refresh_in_place (.inl rfl)
  refine ⟨tr, v, hrun, ((local_copy_mode ..).1 hrun).mpr ?_⟩
  rintro ⟨-, i, hi, -, -, hyes, -⟩
  obtain rfl : 2 = i := Option.some.inj ((setuidFiles_dst 0).symm.trans hi)
  rw [hlost] at hyes
  cases hyes

/-- A file that is given to its owner loses them. -/
theorem refreshed_setuid_lost : ¬ ∀ (who : Identity) (cfg : Tuning) (t : Task) (w v : World)
    (tr : List Event), (∀ i, w.fs.entry (resolve t.dst) = some i → Node.isRegular (w.fs.node i)) →
    (copyFileSerialSmall who cfg t).Runs (answerIds who) w tr v true → ModeSet t v := by
  intro hclaim
  obtain ⟨tr, v, hrun, hlost, hnot⟩ := exists_refresh_in_place (.inr rfl)
  have hregular : ∀ i, setuidFiles.entry (resolve (setuidTask 5).dst) = some i →
      Node.isRegular (setuidFiles.node i) := by
    intro i hi
    obtain rfl : 2 = i := Option.some.inj ((setuidFiles_dst 5).symm.trans hi)
    rfl
  apply (copyFileSerialSmall_modeSet hrun).mp (hclaim _ _ _ _ v tr hregular hrun)
  exact ⟨rfl, 2, setuidFiles_dst 5, rfl, by decide, hlost, hnot⟩

end Ecopy.Metadata
