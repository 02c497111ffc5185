import Ecopy.Metadata.SetIds
import Ecopy.HardLinks.Create

/-!
# The mode of a file that arrives in one frame

`PUTFILE` leaves out the final `chmod` when the owner may write, because the file was created
with its mode. A file that was there, a write and a change of owner each spoil this.
-/
namespace Ecopy.Metadata
open Protocol Ecopy.Path FileSystem Server Lib.Calls
open Workers.Events

/-- Whether set-id bits of the file are taken away before the end. -/
def stripped (who : Identity) (data : Bytes) (tr : List Event) : Bool :=
  (who.euid != 0 && data != []) || tr.any chowned

/-- A mode after such a loss. -/
def afterLoss (lost : Bool) (mode : UInt32) : UInt32 := if lost then withoutIds mode else mode

theorem afterLoss_afterLoss (lost lost' : Bool) (mode : UInt32) :
    afterLoss lost' (afterLoss lost mode) = afterLoss (lost || lost') mode := by
  cases lost <;> cases lost' <;> simp [afterLoss]

section Content
variable {who : Identity} {w v : World} {tr : List Event} {fd : Fd} {m : Meta}

theorem applyMeta_moded {modeIsSet : Bool} (hdir : (w.fs.node fd.ino).isDir = false)
    (h : (applyMeta who fd m modeIsSet).Runs (answerIds who) w tr v none) :
    Moded w v fd.ino (if modeIsSet then afterLoss (tr.any chowned) (w.fs.node fd.ino).mode
      else m.mode &&& 0xFFF) := by
  have htimes : ∀ {s : World} {rest : List Event} {first : Option (Errno × MetaOp)},
      (applyTimes fd m first).Runs (answerIds who) s rest v none →
      first = none ∧ rest.any chowned = false ∧ Moded s v fd.ino (s.fs.node fd.ino).mode := by
    intro s rest first hrun
    obtain ⟨x, settings, z, tail, hsettings, rfl, hrun⟩ := Prog.runs_perform_iff.mp hrun
    obtain ⟨-, rfl⟩ := Prod.mk.inj (Option.some.inj hsettings)
    split at hrun
    · obtain ⟨y, timed, u, last, htimed, rfl, hend⟩ := Prog.runs_perform_iff.mp hrun
      have hu := answerIds_futimens htimed
      cases timed with
      | ok _ =>
        obtain ⟨rfl, rfl, rfl⟩ := Prog.runs_ret_iff.mp hend
        exact ⟨rfl, rfl, hu⟩
      | error e =>
        obtain ⟨-, -, hnone⟩ := Prog.runs_ret_iff.mp hend
        cases first <;> cases hnone
    · obtain ⟨rfl, rfl, rfl⟩ := Prog.runs_ret_iff.mp hrun
      exact ⟨rfl, rfl, .refl _ _⟩
  obtain ⟨before, after, u, r, rfl, howner, hrun⟩ := Prog.runs_bind_iff.mp h
  have hu := applyOwner_moded hdir howner
  cases modeIsSet with
  | true =>
    obtain ⟨-, hany, hv⟩ := htimes hrun
    rw [hu.mode] at hv
    rw [List.any_append, hany, Bool.or_false]
    exact hu.trans hv
  | false =>
    obtain ⟨x, res, s, rest, hchmod, rfl, hend⟩ := Prog.runs_perform_iff.mp hrun
    have hs := answerIds_fchmod hchmod
    cases res with
    | ok _ =>
      obtain ⟨-, -, hv⟩ := htimes hend
      rw [hs.mode] at hv
      have hset : Moded w v fd.ino (m.mode &&& 0xFFF &&& 0xFFF) := (hu.trans hs).trans hv
      rwa [and_mask] at hset
    | error e =>
      obtain ⟨hnone, -⟩ := htimes hend
      cases r <;> cases hnone

theorem pwriteAll_moded {data : Bytes} {off : ℤ} (hdir : (w.fs.node fd.ino).isDir = false)
    (h : (pwriteAll fd off data).Runs (answerIds who) w tr v (.ok ())) :
    tr.any chowned = false ∧
      Moded w v fd.ino (afterLoss (who.euid != 0 && data != []) (w.fs.node fd.ino).mode) := by
  unfold pwriteAll at h
  split at h
  · rename_i hnil
    obtain ⟨rfl, rfl, -⟩ := Prog.runs_ret_iff.mp h
    exact ⟨rfl, by simpa [afterLoss, hnil] using Moded.refl v fd.ino⟩
  · rename_i hne
    obtain ⟨x, r, u, rest, hwrite, rfl, hrun⟩ := Prog.runs_call_iff.mp h
    obtain ⟨rfl, rfl, rfl⟩ := Prog.runs_ret_iff.mp hrun
    have hlen : data.length ≠ 0 := by simpa using hne
    exact ⟨rfl, by simpa [afterLoss, written, hlen, hne] using answerIds_pwrite hdir hwrite⟩

/-- Data, metadata and close of a file that is open for writing. -/
theorem putContent_moded {q : PutRequest} {modeIsSet : Bool}
    (hdir : (w.fs.node fd.ino).isDir = false)
    (h : (putContent who fd q modeIsSet).Runs (answerIds who) w tr v none) :
    Moded w v fd.ino (if modeIsSet then afterLoss (stripped who q.data tr) (w.fs.node fd.ino).mode
      else q.attr.mode &&& 0xFFF) := by
  obtain ⟨before, after, u, wrote, rfl, hwrite, hrun⟩ := Prog.runs_bind_iff.mp h
  cases wrote with
  | error e =>
    obtain ⟨x, closed, s, rest, -, -, hend⟩ := Prog.runs_perform_iff.mp hrun
    cases (Prog.runs_ret_iff.mp hend).2.2
  | ok _ =>
  obtain ⟨hany, hu⟩ := pwriteAll_moded hdir hwrite
  obtain ⟨mid, last, s, r, rfl, happly, hclose⟩ := Prog.runs_bind_iff.mp hrun
  obtain ⟨x, closed, z, rest, hclosed, rfl, hend⟩ := Prog.runs_perform_iff.mp hclose
  obtain rfl := query_eq (Option.some.inj hclosed)
  have hnone : r = none ∧ rest = [] ∧ v = z := by
    cases r with
    | some e => cases (Prog.runs_ret_iff.mp hend).2.2
    | none =>
      cases closed with
      | error e => cases (Prog.runs_ret_iff.mp hend).2.2
      | ok _ => exact ⟨rfl, (Prog.runs_ret_iff.mp hend).1, (Prog.runs_ret_iff.mp hend).2.1⟩
  obtain ⟨rfl, rfl, rfl⟩ := hnone
  have hv := applyMeta_moded (hu.isDir.trans hdir) happly
  rw [hu.mode, afterLoss_afterLoss] at hv
  have hlost : stripped who q.data (before ++ (mid ++ [⟨.close fd, closed⟩])) =
      ((who.euid != 0 && q.data != []) || mid.any chowned) := by
    simp [stripped, hany, chowned]
  rw [hlost]
  exact hu.trans hv

end Content

/-- What making the directory `cs` may change. -/
structure Made (cs : Loc) (fs fs' : Fs) : Prop where
  entry : ∀ l, ¬ l <+: cs → fs'.entry l = fs.entry l
  node : ∀ i, i < fs.next → fs'.node i = fs.node i
  next : fs.next ≤ fs'.next

/-- The calls that make directories on the way to `cs`. -/
def Makes (cs : Loc) : Call → Prop
  | .claimDir _ | .lstat _ | .settleDir _ _ => True
  | .mkdir path _ => resolve path <+: cs
  | _ => False

section Directory
variable {who : Identity} {w v : World} {tr : List Event} {cs : Loc}

theorem makes_ensures (hcs : ∀ c ∈ cs, Ordinary c) : Ensures (Makes cs) cs := by
  refine ⟨fun _ => trivial, fun _ => trivial, fun _ _ => trivial, ?_⟩
  intro ds hds mode
  change resolve (render ds) <+: cs
  rwa [resolve_render fun c hc => hcs c (hds.subset hc)]

theorem answerIds_makes {c : Call} {x : Choice} {r : c.Result} (hc : Makes cs c)
    (h : answerIds who w x c = some (r, v)) : Made cs w.fs v.fs := by
  have hsame : Made cs w.fs w.fs := ⟨fun _ _ => rfl, fun _ _ => rfl, le_refl _⟩
  cases c with
  | claimDir dir =>
    have hfs : v.fs = w.fs := answer_claimDir (answer_of_plain rfl h)
    rw [hfs]
    exact hsame
  | lstat path =>
    obtain rfl := query_eq (Option.some.inj h)
    exact hsame
  | settleDir dir state =>
    obtain ⟨-, rfl⟩ := Prod.mk.inj (Option.some.inj h)
    exact hsame
  | mkdir path mode =>
    rcases answer_mkdir h with ⟨e, -, rfl⟩ | ⟨fs, -, hadd, rfl⟩
    · exact hsame
    · obtain ⟨-, rfl⟩ := add_eq_ok hadd
      refine ⟨?_, ?_, Nat.le_succ _⟩
      · intro l hl
        refine Function.update_of_ne ?_ _ _
        rintro rfl
        exact hl hc
      · intro i hi
        exact Function.update_of_ne (Nat.ne_of_lt hi) _ _
  | _ => exact hc.elim

theorem made_of_runs {α : Type} {m : Handler α} {a : α} (hm : m.Keeps (Makes cs) fun _ _ => True)
    (h : m.Runs (answerIds who) w tr v a) : Made cs w.fs v.fs ∧ tr.any chowned = false := by
  induction h with
  | ret => exact ⟨⟨fun _ _ => rfl, fun _ _ => rfl, le_refl _⟩, rfl⟩
  | @call c k s t u tr r a x hx _ ih =>
    have hstep := answerIds_makes hm.1 hx
    obtain ⟨hrest, hany⟩ := ih (hm.2 _ trivial)
    refine ⟨⟨?_, ?_, hstep.next.trans hrest.next⟩, ?_⟩
    · exact fun l hl => (hrest.entry l hl).trans (hstep.entry l hl)
    · exact fun i hi => (hrest.node i (hi.trans_le hstep.next)).trans (hstep.node i hi)
    · rw [List.any_cons, hany, Bool.or_false]
      cases c with
      | fchown => exact hm.1.elim
      | _ => rfl

end Directory

/-- The mode of the open file. -/
def startMode (fs : Fs) (l : Loc) (createMode : UInt32) : UInt32 :=
  match fs.entry l with
  | none => createMode &&& 0xFFF
  | some i => (fs.node i).mode

section Request
variable {cfg : Config} {who : Identity} {w v : World} {tr : List Event} {q : PutRequest}

theorem open_startMode {name : Bytes} {inplace direct : Bool} {mode : UInt32} {x : Choice} {fd : Fd}
    (h : answerIds who w x (.openFile name (createFlags inplace direct) mode) = some (.ok fd, v)) :
    v.fs.entry (resolve name) = some fd.ino ∧ (v.fs.node fd.ino).isDir = false ∧
      (v.fs.node fd.ino).mode = startMode w.fs (resolve name) mode ∧
      (inplace = false → w.fs.entry (resolve name) = none) := by
  rcases answer_openFile h with ⟨e, herr, -⟩ | ⟨i, fs, -, -, heq, hopen, rfl⟩
  · cases herr
  obtain rfl := Except.ok.inj heq
  refine ⟨Fs.openFile_entry hopen, ?_⟩
  obtain ⟨-, ⟨hfree, -, rfl, rfl⟩ | ⟨hi, hexcl, hfile⟩⟩ := Fs.openFile_eq_ok hopen
  · simp [startMode, hfree, Fs.create, newNode, Node.isDir]
  · have hin : inplace = true := by simpa [createFlags] using hexcl
    rcases hfile with ⟨data, hk, rfl⟩ | ⟨-, hnodir, rfl⟩
    · have htrunc : (createFlags inplace direct).trunc = true := hin
      rw [if_pos htrunc]
      simp [startMode, hi, hin, Fs.setNode, Node.isDir]
    · refine ⟨hnodir rfl, by simp [startMode, hi], ?_⟩
      simp [hin]

theorem startMode_mask (fs : Fs) (l : Loc) (mode : UInt32) :
    startMode fs l (mode &&& 0xFFF) = startMode fs l mode := by
  unfold startMode
  split
  · exact and_mask mode
  · rfl

theorem openFile_ne_nil {p : Bytes} {flags : Fs.OpenFlags} {mode : UInt32} {x : Choice} {fd : Fd}
    (h : answerIds who w x (.openFile p flags mode) = some (.ok fd, v)) : p ≠ [] := by
  rcases answer_openFile h with ⟨e, herr, -⟩ | ⟨i, fs, -, hne, -⟩
  · cases herr
  · exact hne

theorem finishPut_loud {finalPath name : Bytes} {e : Errno × Option MetaOp}
    (h : (finishPut q finalPath name (some e)).Runs (answerIds who) w tr v ()) :
    ∃ ev ∈ tr, Logs ev := by
  unfold finishPut at h
  obtain ⟨e, op⟩ := e
  dsimp only at h
  split at h
  · obtain ⟨x, gone, u, rest, -, rfl, hrun⟩ := Prog.runs_perform_iff.mp h
    obtain ⟨y, r, s, last, -, rfl, -⟩ := Prog.runs_call_iff.mp hrun
    exact ⟨⟨.logError _ e, r⟩, by simp, trivial⟩
  · obtain ⟨y, r, s, last, -, rfl, -⟩ := Prog.runs_call_iff.mp h
    exact ⟨⟨.logError _ e, r⟩, by simp, trivial⟩

/-- A successful rename of an existing name. -/
theorem rename_entry {a b : Bytes} {x : Choice} {i : ℕ}
    (h : answerIds who w x (.rename a b) = some (.ok (), v)) (hi : w.fs.entry (resolve a) = some i) :
    b ≠ [] ∧ v.fs.entry (resolve b) = some i ∧ v.fs.node = w.fs.node := by
  rcases answer_rename (answer_of_plain rfl h) with ⟨e, herr, -⟩ | ⟨fs, -, -, hne, hr, rfl⟩
  · cases herr
  refine ⟨hne, ?_⟩
  obtain ⟨-, -, j, hj, ⟨rfl, hb⟩ | ⟨rfl, -⟩⟩ := Fs.rename_eq_ok hr
  · exact ⟨hb.trans (hj.symm.trans hi), rfl⟩
  · refine ⟨?_, rfl⟩
    rw [Fs.move_entry_below _ _ (List.prefix_refl _)]
    simpa using hi

/-- The mode of the final file. -/
def putMode (who : Identity) (fs : Fs) (q : PutRequest) (l : Loc) (tr : List Event) : UInt32 :=
  if q.attr.mode &&& 0x80 ≠ 0 then
    afterLoss (stripped who q.data tr)
      (if q.inplace then startMode fs l q.attr.mode else q.attr.mode &&& 0xFFF)
  else q.attr.mode &&& 0xFFF

/-- A request that logs nothing leaves a file with this mode. -/
theorem putAt_mode {finalPath name target : Bytes}
    (h : (putAt cfg q finalPath name target).Runs (answerIds cfg.who) w tr v ())
    (hname : q.inplace = true → name = target) (hquiet : ∀ e ∈ tr, ¬ Logs e) :
    target ≠ [] ∧ ∃ i, v.fs.entry (resolve target) = some i ∧
      (v.fs.node i).mode = putMode cfg.who w.fs q (resolve target) tr := by
  obtain ⟨x, opened, u, rest, hopen, rfl, hrun⟩ := Prog.runs_perform_iff.mp h
  cases opened with
  | error e =>
    obtain ⟨ev, hev, hlog⟩ := not_quiet hrun
    exact absurd hlog (hquiet ev (by simp [hev]))
  | ok fd =>
  obtain ⟨hi, hdir, hmode, hfree⟩ := open_startMode hopen
  obtain ⟨mid, last, s, err, rfl, hcontent, hend⟩ := Prog.runs_bind_iff.mp hrun
  have hloud : ∀ {e : Errno × Option MetaOp} {s' : World} {rest : List Event},
      (finishPut q finalPath name (some e)).Runs (answerIds cfg.who) s' rest v () →
      (∀ ev ∈ rest, ev ∈ last) → False := by
    intro e s' rest hfin hsub
    obtain ⟨ev, hev, hlog⟩ := finishPut_loud hfin
    exact hquiet ev (by simp [hsub ev hev]) hlog
  cases err with
  | some e => exact (hloud hend fun _ => id).elim
  | none =>
  have hs := putContent_moded hdir hcontent
  have hsi : s.fs.entry (resolve name) = some fd.ino := by
    rw [hs.entry]
    exact hi
  -- what the file looks like once its contents are there
  have hkey : ∀ {z : World} {first : Event}, z.fs.node = s.fs.node → chowned first = false →
      last.any chowned = false → (z.fs.node fd.ino).mode =
        putMode cfg.who w.fs q (resolve target) (first :: (mid ++ last)) := by
    intro z first hnode hfirst hlast
    have hlost : stripped cfg.who q.data (first :: (mid ++ last)) =
        stripped cfg.who q.data mid := by
      simp [stripped, hfirst, hlast]
    rw [hnode, hs.mode, hmode, putMode, hlost]
    by_cases hset : q.attr.mode &&& 0x80 = 0
    · simp [hset]
    · simp only [bne_iff_ne, ne_eq, hset, not_false_eq_true, if_true]
      congr 1
      rw [startMode_mask]
      split
      · rename_i hin
        rw [hname hin]
      · rename_i hin
        simp [startMode, hfree (Bool.eq_false_iff.mpr hin)]
  by_cases hin : q.inplace = true
  · simp only [hin] at hend
    obtain ⟨rfl, rfl, -⟩ := Prog.runs_ret_iff.mp hend
    have hne := openFile_ne_nil hopen
    rw [hname hin] at hne hsi
    exact ⟨hne, fd.ino, hsi, hkey rfl rfl rfl⟩
  · simp only [Bool.eq_false_iff.mpr hin] at hend
    obtain ⟨y, renamed, z, tail, hrename, rfl, hfin⟩ := Prog.runs_perform_iff.mp hend
    cases renamed with
    | error e => exact (hloud hfin fun _ hev => by simp [hev]).elim
    | ok _ =>
      obtain ⟨rfl, rfl, -⟩ := Prog.runs_ret_iff.mp hfin
      obtain ⟨hne, hentry, hnode⟩ := rename_entry hrename hsi
      exact ⟨hne, fd.ino, hentry, hkey hnode rfl rfl⟩

theorem startMode_made {fs fs' : Fs} (ht : fs.Tree) {l cs : Loc} (hm : Made cs fs fs')
    (hl : ¬ l <+: cs) (mode : UInt32) : startMode fs' l mode = startMode fs l mode := by
  unfold startMode
  rw [hm.entry l hl]
  split
  · rfl
  · rename_i i hi
    rw [hm.node i (ht.bounded l i hi)]

theorem handlePutfile_mode {payload : Bytes} (ht : w.fs.Tree)
    (hdec : decodePutfile payload = some q)
    (h : (handlePutfile cfg payload).Runs (answerIds cfg.who) w tr v ())
    (hquiet : ∀ e ∈ tr, ¬ Logs e) : ∃ i, v.fs.entry (resolve q.path) = some i ∧
      (v.fs.node i).mode = putMode cfg.who w.fs q (resolve q.path) tr := by
  have hloud : ∀ {s : World} {rest : List Event} {p : Bytes} {e : Errno},
      (Sys.logError p e).Runs (answerIds cfg.who) s rest v () → (∀ ev ∈ rest, ev ∈ tr) → False := by
    intro s rest p e hrun hsub
    obtain ⟨ev, hev, hlog⟩ := not_quiet hrun
    exact hquiet ev (hsub ev hev) hlog
  unfold handlePutfile at h
  rw [hdec] at h
  dsimp only at h
  cases hpath : resolvePath cfg.root q.path with
  | error e =>
    rw [hpath] at h
    exact (hloud h fun _ => id).elim
  | ok finalPath =>
  rw [hpath] at h
  obtain ⟨hdir, hat, hnil⟩ := resolve_split hpath
  obtain ⟨before, rest, u, made, rfl, hensure, hrun⟩ := Prog.runs_bind_iff.mp h
  cases made with
  | some e => exact (hloud hrun fun _ hev => List.mem_append_right _ hev).elim
  | none =>
  obtain ⟨x, opened, s, last, hopen, rfl, hend⟩ := Prog.runs_perform_iff.mp hrun
  obtain rfl := query_eq (Option.some.inj hopen)
  cases opened with
  | error e => exact (hloud hend fun _ hev => by simp [hev]).elim
  | ok _ =>
  have hnames : ∀ c ∈ (resolve q.path).dropLast, Ordinary c :=
    fun c hc => ordinary_of_mem_resolve ((List.dropLast_prefix _).subset hc)
  rw [hdir] at hensure
  obtain ⟨hmade, hany⟩ := made_of_runs (keeps_ensureDirBounded (makes_ensures hnames) hnames _ _) hensure
  have hput : ∀ {z : World} {rest : List Event} {name : Bytes},
      (putAt cfg q finalPath name (atDir (splitDirBase finalPath).1 (splitDirBase finalPath).2)).Runs
        (answerIds cfg.who) z rest v () → z.fs = s.fs → (∀ ev ∈ rest, ¬ Logs ev) →
      (q.inplace = true →
        name = atDir (splitDirBase finalPath).1 (splitDirBase finalPath).2) →
      ∃ i, v.fs.entry (resolve q.path) = some i ∧
        (v.fs.node i).mode = putMode cfg.who w.fs q (resolve q.path) rest := by
    intro z rest name hrun hz hq hname
    obtain ⟨hne, i, hi, hmode⟩ := putAt_mode hrun hname hq
    rw [hat] at hi hmode
    have hlast : ¬ resolve q.path <+: (resolve q.path).dropLast := by
      rcases (resolve q.path).eq_nil_or_concat' with hcs | ⟨init, c, hcs⟩
      · exact absurd (hnil hcs) hne
      · rw [hcs, List.dropLast_concat]
        intro hpre
        have hlen := hpre.length_le
        simp at hlen
    refine ⟨i, hi, ?_⟩
    rw [hmode, putMode, putMode, hz, startMode_made ht hmade hlast]
  have hlost : ∀ {rest : List Event}, last.any chowned = rest.any chowned →
      putMode cfg.who w.fs q (resolve q.path) rest =
        putMode cfg.who w.fs q (resolve q.path)
          (before ++ ⟨.openDir (splitDirBase finalPath).1, .ok ()⟩ :: last) := by
    intro rest heq
    simp [putMode, stripped, hany, chowned, heq]
  by_cases hin : q.inplace = true
  · simp only [hin, if_true] at hend
    rw [← hlost rfl]
    exact hput hend rfl (fun ev hev => hquiet ev (by simp [hev])) fun _ => rfl
  · simp only [Bool.eq_false_iff.mpr hin] at hend
    obtain ⟨y, n, z, tail, hseq, rfl, hfin⟩ := Prog.runs_perform_iff.mp hend
    obtain ⟨rfl, rfl⟩ := Prod.mk.inj (Option.some.inj hseq)
    rw [← hlost (by simp [chowned] : _ = tail.any chowned)]
    exact hput hfin rfl (fun ev hev => hquiet ev (by simp [hev])) fun hyes => absurd hyes hin

/-- When the mode comes out right although there is no final `chmod`: a new file must not
lose set-id bits that are asked for, and a file that is written in place must have the mode
already, up to the bits it loses. -/
def PutModeRight (fs : Fs) (q : PutRequest) (lost : Bool) : Prop :=
  q.attr.mode &&& 0x80 ≠ 0 →
    match if q.inplace then fs.entry (resolve q.path) else none with
    | none => lost = true → q.attr.mode &&& 0xC00 = 0
    | some i => (fs.node i).mode &&& (if lost then 0x3FF else 0xFFF) = q.attr.mode &&& 0xFFF

theorem afterLoss_and (lost : Bool) (mode : UInt32) :
    afterLoss lost mode &&& 0xFFF = mode &&& (if lost then 0x3FF else 0xFFF) := by
  cases lost
  · rfl
  · exact withoutIds_and mode

theorem afterLoss_new (lost : Bool) (mode : UInt32) :
    afterLoss lost (mode &&& 0xFFF) &&& 0xFFF = mode &&& 0xFFF ↔
      (lost = true → mode &&& 0xC00 = 0) := by
  cases lost
  · simp [afterLoss, and_mask]
  · have hmask : (0xFFF : UInt32) &&& 0x3FF = 0x3FF := rfl
    rw [afterLoss_and, if_pos rfl, UInt32.and_assoc, hmask]
    simpa using and_eq_iff_noIds mode

theorem putMode_iff {fs : Fs} : putMode who fs q (resolve q.path) tr &&& 0xFFF =
    q.attr.mode &&& 0xFFF ↔ PutModeRight fs q (stripped who q.data tr) := by
  unfold putMode PutModeRight
  by_cases hset : q.attr.mode &&& 0x80 = 0
  · simp [hset, and_mask]
  simp only [ne_eq, hset, not_false_eq_true, if_true, true_imp_iff]
  by_cases hin : q.inplace = true
  · rw [if_pos hin, if_pos hin, startMode]
    cases fs.entry (resolve q.path) with
    | none => exact afterLoss_new _ _
    | some i => rw [afterLoss_and]
  · rw [if_neg hin, if_neg hin]
    exact afterLoss_new _ _

/-- Exactly when a `PUTFILE` request that logs nothing sets the mode it asks for. -/
theorem putfile_mode {payload : Bytes} (ht : w.fs.Tree) (hdec : decodePutfile payload = some q)
    (h : (handlePutfile cfg payload).Runs (answerIds cfg.who) w tr v ())
    (hquiet : ∀ e ∈ tr, ¬ Logs e) : ∃ i, v.fs.entry (resolve q.path) = some i ∧
      ((v.fs.node i).mode &&& 0xFFF = q.attr.mode &&& 0xFFF ↔
        PutModeRight w.fs q (stripped cfg.who q.data tr)) := by
  obtain ⟨i, hi, hmode⟩ := handlePutfile_mode ht hdec h hquiet
  refine ⟨i, hi, ?_⟩
  rw [hmode]
  exact putMode_iff

end Request

/-- `/a`, in place, with mode 0644 and no data -/
def putFrame : Bytes :=
  [0xA4, 1, 0, 0] ++ List.replicate 40 0 ++ [2, 0, 0, 0] ++ [0xED, 1, 0, 0] ++ [2, 0, 0, 0, 47, 97]

def putRequest : PutRequest := ⟨⟨0, 0, 0x1A4, (0, 0), (0, 0)⟩, 2, 0x1ED, [47, 97], []⟩

theorem putFrame_decodes : decodePutfile putFrame = some putRequest := by decide +kernel

/-- The file exists with the given mode. -/
def modedFile (mode : UInt32) : Fs :=
  .flat [([97], 1)] (fun i => ⟨if i = 0 then .directory else .regular [], mode, 0, 0, (0, 0), (0, 0)⟩) 2

theorem modedFile_tree (mode : UInt32) : (modedFile mode).Tree :=
  Fs.flat_tree rfl (by decide) (by simp)

def logs : Event → Bool
  | ⟨.logError _ _, _⟩ => true
  | _ => false

theorem logs_iff (e : Event) : Logs e ↔ logs e = true := by
  obtain ⟨c, r⟩ := e
  cases c <;> simp [Logs, logs]

theorem exists_put {mode : UInt32} (h : mode = 0x180 ∨ mode = 0x1A4) : ∃ tr v,
    (handlePutfile HardLinks.linker putFrame).Runs (answerIds HardLinks.linker.who)
      (.initial (modedFile mode)) tr v () ∧ (∀ e ∈ tr, ¬ Logs e) ∧
      stripped HardLinks.linker.who putRequest.data tr = false := by
  have hplay : ((handlePutfile HardLinks.linker putFrame).play (answerIds HardLinks.linker.who)
      (.initial (modedFile mode)) (List.replicate 10 ⟨none, 0, false⟩)).map
        (fun out => (out.1.any logs, stripped HardLinks.linker.who putRequest.data out.1)) =
          some (false, false) := by
    rcases h with rfl | rfl
    · decide +kernel
    · decide +kernel
  obtain ⟨⟨tr, v, a⟩, hout, heq⟩ := Option.map_eq_some_iff.mp hplay
  obtain ⟨hlogs, hlost⟩ := Prod.mk.inj heq
  refine ⟨tr, v, Prog.runs_of_play hout, ?_, hlost⟩
  intro e he hlog
  rw [logs_iff] at hlog
  exact absurd (List.any_eq_true.mpr ⟨e, he, hlog⟩) (by simp [hlogs])

/-- A file with that mode keeps it. -/
theorem putfile_mode_same : ∃ tr v,
    (handlePutfile HardLinks.linker putFrame).Runs (answerIds HardLinks.linker.who)
      (.initial (modedFile 0x1A4)) tr v () ∧ ∃ i, v.fs.entry [[97]] = some i ∧
        (v.fs.node i).mode &&& 0xFFF = 0x1A4 := by
  obtain ⟨tr, v, hrun, hquiet, hlost⟩ := exists_put (.inr rfl)
  obtain ⟨i, hi, hiff⟩ := putfile_mode (modedFile_tree 0x1A4) putFrame_decodes hrun hquiet
  refine ⟨tr, v, hrun, i, hi, hiff.mpr ?_⟩
  rw [hlost]
  exact fun _ => rfl

/-- A file with mode 0600 keeps that one. -/
theorem putfile_keeps_old_mode : ¬ ∀ (cfg : Config) (w v : World) (tr : List Event) payload q,
    w.fs.Tree → decodePutfile payload = some q →
    (handlePutfile cfg payload).Runs (answerIds cfg.who) w tr v () → (∀ e ∈ tr, ¬ Logs e) →
    ∀ i, v.fs.entry (resolve q.path) = some i →
      (v.fs.node i).mode &&& 0xFFF = q.attr.mode &&& 0xFFF := by
  intro hclaim
  obtain ⟨tr, v, hrun, hquiet, hlost⟩ := exists_put (.inl rfl)
  obtain ⟨i, hi, hmode⟩ := handlePutfile_mode (modedFile_tree 0x180) putFrame_decodes hrun hquiet
  have hset := hclaim _ _ v tr _ _ (modedFile_tree 0x180) putFrame_decodes hrun hquiet i hi
  rw [hmode, putMode_iff, hlost] at hset
  have hwrong : (0x180 : UInt32) &&& 0xFFF = 0x1A4 &&& 0xFFF := hset (by decide)
  exact absurd hwrong (by decide)

end Ecopy.Metadata
