import Ecopy.Server.ConfinedHandlers
import Ecopy.Server.TempFiles

/-!
# The handlers and their temporary files

The handlers that create temporary files are dutiful: what they create they rename,
remove or put into the table.
-/
namespace Ecopy.Server
open Protocol Ecopy.Path FileSystem Lib.Calls

/-- Programs that make calm calls only, whatever the answers are. -/
abbrev Calms {α : Type} (m : Handler α) : Prop := m.Keeps (fun c => c.calm = true) fun _ _ => True

section Calms
variable {cfg : Config} {who : Identity}

theorem Reads.calms {α : Type} {m : Handler α} (h : Reads m) : Calms m :=
  h.weaken (fun _ => calm_of_passive) fun _ _ _ => trivial

theorem calms_close (fd : Fd) : Calms (Sys.close fd) := (reads_close fd).calms

theorem calms_logError (path : Bytes) (e : Errno) : Calms (Sys.logError path e) :=
  (reads_logError path e).calms

theorem calms_applyMeta (fd : Fd) (m : Meta) (modeIsSet : Bool) :
    Calms (applyMeta who fd m modeIsSet) := by
  have happlies : Applies (fun c => c.calm = true) fd :=
    ⟨fun _ _ => rfl, fun _ => rfl, fun _ _ => rfl, rfl⟩
  exact keeps_applyMeta happlies m modeIsSet

theorem calms_pwriteAll (fd : Fd) (offset : ℤ) (data : Bytes) : Calms (pwriteAll fd offset data) := by
  unfold pwriteAll
  split
  · trivial
  · exact Prog.Keeps.last (c := Call.pwrite fd offset data) rfl

theorem calms_preallocate (q : OpenRequest) (fd : Fd) : Calms (preallocate q fd) := by
  unfold preallocate
  split
  · refine Prog.Keeps.call (c := Call.fallocate fd _) rfl ?_
    intro res _
    cases res with
    | ok a => trivial
    | error e =>
      dsimp only
      split
      · exact Prog.Keeps.call (c := Call.ftruncate fd _) rfl fun _ _ => trivial
      · trivial
  · trivial

theorem calms_putContent (fd : Fd) (q : PutRequest) (modeIsSet : Bool) :
    Calms (putContent who fd q modeIsSet) := by
  have hclose : ∀ err : Option (Errno × Option MetaOp), Calms (closeContent fd err) := by
    intro err
    refine Prog.Keeps.bind (calms_close fd) ?_
    intro closed
    cases err with
    | some e => trivial
    | none => cases closed <;> trivial
  refine Prog.Keeps.bind (calms_pwriteAll fd 0 q.data) ?_
  intro written
  cases written with
  | error e =>
    obtain ⟨e, n⟩ := e
    exact hclose (some (e, none))
  | ok a => exact Prog.Keeps.bind (calms_applyMeta fd q.attr modeIsSet) fun r => hclose _

theorem calms_chownSymlink (path logged : Bytes) (uid gid : UInt32) :
    Calms (chownSymlink who path logged uid gid) := by
  unfold chownSymlink
  split
  · trivial
  dsimp only
  split
  · trivial
  refine Prog.Keeps.call (c := Call.lchown path _ _) rfl ?_
  intro res _
  cases res with
  | ok a => trivial
  | error e =>
    dsimp only
    split
    · trivial
    · exact calms_logError _ _

theorem calms_openForMeta (path : Bytes) : Calms (openForMeta path) := by
  refine Prog.Keeps.call (c := Call.openFile path (readFlags false) 0) rfl ?_
  intro res _
  cases res with
  | ok fd => trivial
  | error e => exact Prog.Keeps.last (c := Call.openFile path (readFlags true) 0) rfl

theorem calms_openTarget (path : Bytes) : Calms (openTarget cfg path) := by
  unfold openTarget
  dsimp only
  split
  · refine Prog.Keeps.call (c := Call.openDir _) rfl ?_
    intro res _
    cases res with
    | error e => exact calms_openForMeta _
    | ok a =>
      refine Prog.Keeps.bind (calms_openForMeta _) ?_
      intro fd
      cases fd with
      | ok fd => trivial
      | error e => exact calms_openForMeta _
  · exact calms_openForMeta _

theorem calms_handleSetmeta (payload : Bytes) : Calms (handleSetmeta cfg payload) := by
  unfold handleSetmeta
  split
  · trivial
  split
  · exact calms_logError _ _
  refine Prog.Keeps.bind (calms_openTarget _) ?_
  intro fd
  cases fd with
  | error e => exact calms_logError _ _
  | ok fd =>
    refine Prog.Keeps.call (c := Call.dirMode _) rfl ?_
    intro known _
    refine Prog.Keeps.bind (calms_applyMeta fd _ _) ?_
    intro r
    refine Prog.Keeps.bind (calms_close fd) ?_
    intro closed
    cases r with
    | some p => exact calms_logError _ _
    | none =>
      cases closed with
      | error e => exact calms_logError _ _
      | ok a => trivial

end Calms

def unreserved (path : Bytes) : Bool := (resolve path).all fun name => !reserved name

theorem reserved_append (rest : Bytes) : reserved (tmpPrefix ++ rest) = true := by
  simp [reserved]

theorem reserved_tmpNameOpen (pid : ℕ) (fid : UInt64) : reserved (tmpNameOpen pid fid) = true := by
  rw [tmpNameOpen, List.append_assoc]
  exact reserved_append _

theorem reserved_tmpNamePut (pid seq : ℕ) : reserved (tmpNamePut pid seq) = true := by
  rw [tmpNamePut, List.append_assoc]
  exact reserved_append _

theorem reserved_tmpNameSym (pid seq : ℕ) : reserved (tmpNameSym pid seq) = true := by
  rw [tmpNameSym, List.append_assoc, List.append_assoc]
  exact reserved_append _

theorem reserved_tmpNameLnk (pid seq : ℕ) : reserved (tmpNameLnk pid seq) = true := by
  rw [tmpNameLnk, List.append_assoc, List.append_assoc]
  exact reserved_append _

/-- A location that a server may be asked to create. -/
def Unreserved (cs : Loc) : Prop := ∀ c ∈ cs, Ordinary c ∧ reserved c = false

theorem Unreserved.not_temp {cs : Loc} (h : Unreserved cs) : isTemp cs = false := by
  unfold isTemp
  cases hl : cs.getLast? with
  | none => rfl
  | some c => exact (h c (List.mem_of_getLast? hl)).2

/-- The directory and the name that a handler derives from an accepted path. -/
structure Place (norm dir base : Bytes) (parent : Loc) : Prop where
  parent_ok : Unreserved parent
  dir_eq : dir = render parent
  norm_ok : isTemp (resolve norm) = false
  base_ok : isTemp (resolve (atDir dir base)) = false

variable {norm path : Bytes}
variable {root : Bytes}

theorem resolvePath_norm (h : resolvePath root path = .ok norm) : norm = render (resolve path) := by
  unfold resolvePath at h
  by_cases habs : path.head? = some slash
  · by_cases hlen : path.length < pathMax
    · rw [normalizeAbs_eq habs hlen] at h
      simp only at h
      split_ifs at h
      exact (Except.ok.inj h).symm
    · rw [normalizeAbs_long habs (Nat.not_lt.mp hlen)] at h
      cases h
  · rw [normalizeAbs_relative habs] at h
    cases h

theorem resolve_norm (h : resolvePath root path = .ok norm) : resolve norm = resolve path := by
  rw [resolvePath_norm h]
  exact resolve_render fun c hc => ordinary_of_mem_resolve hc

/-- The directory and the name of an accepted path. -/
theorem resolve_split (h : resolvePath root path = .ok norm) :
    (splitDirBase norm).1 = render (resolve path).dropLast ∧
      resolve (atDir (splitDirBase norm).1 (splitDirBase norm).2) = resolve path ∧
      (resolve path = [] → atDir (splitDirBase norm).1 (splitDirBase norm).2 = []) := by
  have hnames : ∀ c ∈ resolve path, Ordinary c := fun c hc => ordinary_of_mem_resolve hc
  obtain rfl := resolvePath_norm h
  rcases (resolve path).eq_nil_or_concat' with hnil | ⟨init, c, hcs⟩
  · rw [hnil, splitDirBase_slash]
    decide
  · rw [hcs] at hnames ⊢
    have hinit : ∀ d ∈ init, Ordinary d := fun d hd => hnames d (by simp [hd])
    have hc : Ordinary c := hnames c (by simp)
    rw [splitDirBase_render hc, List.dropLast_concat]
    exact ⟨rfl, resolve_atDir hinit hc, by simp⟩

theorem resolve_render_dropLast (path : Bytes) :
    resolve (render (resolve path).dropLast) = (resolve path).dropLast :=
  resolve_render fun _ hc => ordinary_of_mem_resolve ((List.dropLast_prefix _).subset hc)

theorem render_ne_nil (cs : List Bytes) : render cs ≠ [] := by
  intro hnil
  have hhead := head_render cs
  rw [hnil] at hhead
  cases hhead

theorem unreserved_resolve (h : unreserved path = true) : Unreserved (resolve path) := by
  intro c hc
  refine ⟨ordinary_of_mem_resolve hc, ?_⟩
  have := List.all_eq_true.mp h c hc
  simpa using this

theorem exists_place (h : resolvePath root path = .ok norm) (hu : unreserved path = true) :
    ∃ parent, Place norm (splitDirBase norm).1 (splitDirBase norm).2 parent := by
  have hnames := unreserved_resolve hu
  obtain rfl := resolvePath_norm h
  rcases (resolve path).eq_nil_or_concat' with hnil | ⟨init, c, hcs⟩
  · rw [hnil, splitDirBase_slash]
    exact ⟨[], by simp [Unreserved], rfl, rfl, rfl⟩
  · rw [hcs] at hnames ⊢
    have hc : Ordinary c := (hnames c (by simp)).1
    have hinit : Unreserved init := fun d hd => hnames d (by simp [hd])
    have hbase : resolve (atDir (render init) c) = init ++ [c] :=
      resolve_atDir (fun d hd => (hinit d hd).1) hc
    rw [splitDirBase_render hc]
    refine ⟨init, hinit, rfl, ?_, ?_⟩
    · rw [resolve_render fun d hd => (hnames d hd).1]
      exact hnames.not_temp
    · change isTemp (resolve (atDir (render init) c)) = false
      rw [hbase]
      exact hnames.not_temp

theorem Place.temp {dir base name : Bytes} {parent : Loc} (h : Place norm dir base parent)
    (hname : Ordinary name) (hres : reserved name = true) :
    isTemp (resolve (atDir dir name)) = true := by
  rw [h.dir_eq, resolve_atDir (fun c hc => (h.parent_ok c hc).1) hname, isTemp_concat]
  exact hres

/-- Calls that create directories at most, and none with a reserved name. -/
def Gentle : Call → Prop
  | .mkdir p _ => isTemp (resolve p) = false
  | c => c.calm = true

abbrev Neat (N : Loc → Prop) {α : Type} (m : Handler α) : Prop :=
  m.Dutiful tempDuty (TempOk N) (TempResp N)

section Neat
variable {N : Loc → Prop} {cfg : Config}

theorem Gentle.tempOk {c : Call} (h : Gentle c) : TempOk N c := by
  cases c with
  | openFile p flags mode =>
    intro hcreate
    exact absurd hcreate (Bool.eq_false_iff.mp (calm_openFile.mp h))
  | mkdir p mode => exact h
  | rename | addFile | updateFile | removeFile | takeFiles => cases h
  | _ => trivial

theorem Gentle.incurs {c : Call} (h : Gentle c) (r : c.Result) (l : Loc) :
    ¬ tempDuty.incurs c r l := by
  cases c with
  | openFile p flags mode =>
    rintro ⟨-, hcreate, -⟩
    exact absurd hcreate (Bool.eq_false_iff.mp (calm_openFile.mp h))
  | symlink | link => cases h
  | _ => exact fun hf => hf

theorem gentle_of_calm {c : Call} (h : c.calm = true) : Gentle c := by
  cases c with
  | mkdir => cases h
  | _ => exact h

theorem neat_of_gentle {α : Type} {m : Handler α} (h : m.Keeps Gentle fun _ _ => True) :
    Neat N m :=
  Prog.Dutiful.of_keeps (h.weaken (fun _ hc => hc) fun _ _ _ => trivial)
    (fun _ hc => hc.tempOk) fun _ hc => hc.incurs

theorem Calms.neat {α : Type} {m : Handler α} (h : Calms m) : Neat N m :=
  neat_of_gentle (h.weaken (fun _ => gentle_of_calm) fun _ _ hr => hr)

theorem neat_calm {α : Type} {c : Call} {f : c.Result → Handler α} (hc : c.calm = true)
    (hf : ∀ r, Neat N (f r)) : Neat N (Prog.perform c >>= f) :=
  Prog.Dutiful.call (gentle_of_calm hc).tempOk
    (fun r _ l hl => absurd hl ((gentle_of_calm hc).incurs r l)) fun r _ => hf r

theorem gentle_ensures {cs : Loc} (hcs : Unreserved cs) : Ensures Gentle cs := by
  refine ⟨fun _ => rfl, fun _ => rfl, fun _ _ => rfl, ?_⟩
  intro ds hds mode
  have hnames : Unreserved ds := fun c hc => hcs c (hds.subset hc)
  change isTemp (resolve (render ds)) = false
  rw [resolve_render fun c hc => (hnames c hc).1]
  exact hnames.not_temp

variable {base dir : Bytes}

theorem Place.ensure {norm : Bytes} {parent : Loc} (h : Place norm dir base parent)
    (mode : UInt32) : Neat N (ensureDirCachedMode dir mode) := by
  rw [h.dir_eq]
  exact neat_of_gentle
    (keeps_ensureDirBounded (gentle_ensures h.parent_ok) (fun c hc => (h.parent_ok c hc).1) _ mode)

/-- An accepted path without reserved names. -/
theorem neat_resolved {α : Type} {path : Bytes} {bad : Errno → Handler α} {good : Bytes → Handler α}
    (hu : unreserved path = true) (hbad : ∀ e, Neat N (bad e))
    (hgood : ∀ norm parent, Place norm (splitDirBase norm).1 (splitDirBase norm).2 parent →
      Neat N (good norm)) :
    Neat N (match resolvePath cfg.root path with
      | .error e => bad e
      | .ok norm => good norm) := by
  cases h : resolvePath cfg.root path with
  | error e => exact hbad e
  | ok norm =>
    obtain ⟨parent, hp⟩ := exists_place h hu
    exact hgood norm parent hp

theorem neat_addFailed {q : OpenRequest} (finalPath tmpPath : Bytes) (e : Errno) :
    Neat N (Sys.addFile (failedFile q finalPath tmpPath e)) := by
  refine ⟨?_, fun r _ => ⟨fun l hl => hl.elim, trivial⟩⟩
  intro hs
  simp [OpenFile.streams, failedFile] at hs

/-- The file that `handle_open` puts into the table stands for its temporary name. -/
theorem neat_openAndAdd {q : OpenRequest} {finalPath tmpPath : Bytes} (wantDirect : Bool)
    (hfinal : isTemp (resolve finalPath) = false)
    (htmp : isTemp (resolve tmpPath) = !q.inplace) :
    Neat N (openAndAdd q finalPath tmpPath wantDirect) := by
  -- after a successful open: preallocation and the table
  have hadd : ∀ (fd : Fd) (direct : Bool),
      (isTemp (resolve tmpPath) = true → N (resolve tmpPath)) →
      Neat N (do
        preallocate q fd
        Sys.addFile ⟨q.fid, some fd, q.inplace, direct, none, tmpPath, finalPath⟩) := by
    intro fd direct hN
    refine Prog.Dutiful.bind (calms_preallocate q fd).neat fun _ => ?_
    refine ⟨?_, fun r _ => ⟨fun l hl => hl.elim, trivial⟩⟩
    intro hs
    have hin : q.inplace = false := by simpa [OpenFile.streams] using hs
    rw [hin] at htmp
    exact ⟨htmp, hN htmp, hfinal⟩
  have hdis : ∀ (fd : Fd) (direct : Bool) (l : Loc), resolve tmpPath = l → isTemp l = true →
      Prog.Discharges tempDuty l (do
        preallocate q fd
        Sys.addFile ⟨q.fid, some fd, q.inplace, direct, none, tmpPath, finalPath⟩) := by
    intro fd direct l hl ht
    refine Prog.Discharges.bind_right fun _ r => .inl ⟨?_, hl⟩
    rw [← hl, htmp] at ht
    simpa using ht
  -- the entry of a failed open stands for what the open has left
  have hfail : ∀ (e : Errno) (l : Loc), resolve tmpPath = l → isTemp l = true →
      Prog.Discharges tempDuty l (Sys.addFile (failedFile q finalPath tmpPath e)) := by
    intro e l hl ht r
    refine .inl ⟨?_, hl⟩
    rw [← hl, htmp] at ht
    simpa [failedFile] using ht
  have hagain : ∀ (l : Loc), resolve tmpPath = l → isTemp l = true →
      Prog.Discharges tempDuty l (openBuffered q finalPath tmpPath) := by
    intro l hl ht r
    cases r with
    | error e => exact .inr (hfail e l hl ht)
    | ok fd => exact .inr (hdis fd false l hl ht)
  have hopen : ∀ direct, TempOk N
      (.openFile tmpPath (createFlags q.inplace direct) (copyDataMode q.mode)) := fun _ _ => rfl
  have hbuffered : Neat N (openBuffered q finalPath tmpPath) := by
    refine Prog.Dutiful.call (hopen false) ?_ ?_
    · rintro r - l ⟨⟨fd, rfl⟩ | hdirect, -, hl, ht⟩
      · exact hdis fd false l hl ht
      · cases hdirect
    · intro r hr
      cases r with
      | error e => exact neat_addFailed _ _ _
      | ok fd => exact hadd fd false fun ht => hr ⟨fd, rfl⟩ rfl ht
  unfold openAndAdd
  split
  · refine Prog.Dutiful.call (hopen true) ?_ ?_
    · rintro r - l ⟨-, -, hl, ht⟩
      cases r with
      | ok fd => exact fun direct => .inr (hdis fd direct l hl ht)
      | error e =>
        dsimp only
        split
        · exact hagain l hl ht
        · exact hfail e l hl ht
    · intro r hr
      cases r with
      | error e =>
        dsimp only
        split
        · exact hbuffered
        · exact neat_addFailed _ _ _
      | ok fd =>
        exact neat_calm (c := Call.attempt) rfl fun direct =>
          hadd fd direct fun ht => hr ⟨fd, rfl⟩ rfl ht
  · exact hbuffered

variable {payload : Bytes}

theorem neat_handleOpen (hu : ∀ q, decodeOpen payload = some q → unreserved q.path = true) :
    Neat N (handleOpen cfg payload) := by
  unfold handleOpen
  cases hq : decodeOpen payload with
  | none => trivial
  | some q =>
    refine neat_calm (c := Call.attempt) rfl fun enough => ?_
    change Neat N (if _ then _ else _)
    split
    · trivial
    refine neat_resolved (hu q hq) (fun e => neat_addFailed _ _ _) ?_
    intro norm parent hp
    refine Prog.Dutiful.bind (hp.ensure _) fun err => ?_
    cases err with
    | some e => exact neat_addFailed _ _ _
    | none =>
      refine neat_calm (c := Call.settings) rfl fun settings => ?_
      change Neat N (if _ then _ else _)
      split
      · rename_i hin
        exact neat_openAndAdd _ hp.norm_ok (by rw [hp.norm_ok, hin]; rfl)
      rename_i hin
      change Neat N (if _ then _ else _)
      split
      · exact neat_addFailed _ _ _
      · have hname := ordinary_tmpNameOpen cfg.who.pid q.fid
        have htemp := hp.temp hname (reserved_tmpNameOpen _ _)
        rw [atDir, if_neg hname.1.1] at htemp
        exact neat_openAndAdd _ hp.norm_ok (by rw [htemp, Bool.eq_false_iff.mpr hin]; rfl)

/-- A failure discards the temporary name. -/
theorem discharges_finishPut {q : PutRequest} (finalPath : Bytes) {name : Bytes} {l : Loc}
    (hin : q.inplace = false) (hl : resolve name = l) (err : Errno × Option MetaOp) :
    Prog.Discharges tempDuty l (finishPut q finalPath name (some err)) := by
  simp only [finishPut, hin]
  exact fun r => .inl hl

theorem neat_finishPut {q : PutRequest} (finalPath name : Bytes)
    (err : Option (Errno × Option MetaOp)) : Neat N (finishPut q finalPath name err) := by
  cases err with
  | none => trivial
  | some err =>
    have hlog : Neat N (Sys.logError (diagnostic finalPath err.2) err.1) :=
      (calms_logError _ _).neat
    change Neat N (if _ then _ else _)
    split
    · exact Prog.Dutiful.call (c := Call.unlink name) trivial (fun r _ l hl => hl.elim) fun r _ => hlog
    · exact hlog

theorem neat_putAt {q : PutRequest} {name target : Bytes} (finalPath : Bytes)
    (hname : isTemp (resolve name) = !q.inplace) (htarget : isTemp (resolve target) = false) :
    Neat N (putAt cfg q finalPath name target) := by
  unfold putAt
  refine Prog.Dutiful.call (c := Call.openFile name _ _) (fun _ => rfl) ?_ ?_
  · rintro r - l ⟨⟨fd, rfl⟩ | hdirect, -, hl, ht⟩
    swap
    · cases hdirect
    have hin : q.inplace = false := by
      rw [← hl, hname] at ht
      simpa using ht
    refine Prog.Discharges.bind_right fun err => ?_
    cases err with
    | none =>
      simp only [hin]
      intro r
      cases r with
      | ok a => exact .inl ⟨rfl, hl⟩
      | error e => exact .inr (discharges_finishPut finalPath hin hl (e, none))
    | some err => exact discharges_finishPut finalPath hin hl err
  · intro r hr
    cases r with
    | error e => exact (calms_logError _ _).neat
    | ok fd =>
      refine Prog.Dutiful.bind (calms_putContent fd q _).neat fun err => ?_
      change Neat N (if _ then _ else _)
      split
      · rename_i hgood
        have hin : q.inplace = false := by
          simp only [Bool.and_eq_true, Bool.not_eq_true'] at hgood
          exact hgood.2
        rw [hin] at hname
        refine Prog.Dutiful.call (c := Call.rename name target)
          ⟨hname, hr ⟨fd, rfl⟩ rfl hname, htarget⟩ (fun r _ l hl => hl.elim) fun r _ => ?_
        cases r with
        | error e => exact neat_finishPut _ _ _
        | ok a => exact neat_finishPut _ _ _
      · exact neat_finishPut _ _ _

theorem neat_handlePutfile (hu : ∀ q, decodePutfile payload = some q → unreserved q.path = true) :
    Neat N (handlePutfile cfg payload) := by
  unfold handlePutfile
  cases hq : decodePutfile payload with
  | none => trivial
  | some q =>
    refine neat_resolved (hu q hq) (fun e => (calms_logError _ _).neat) ?_
    intro norm parent hp
    refine Prog.Dutiful.bind (hp.ensure _) fun err => ?_
    cases err with
    | some e => exact (calms_logError _ _).neat
    | none =>
      refine neat_calm (c := Call.openDir _) rfl fun opened => ?_
      cases opened with
      | error e => exact (calms_logError _ _).neat
      | ok a =>
        change Neat N (if _ then _ else _)
        split
        · rename_i hin
          have hname : isTemp (resolve (atDir (splitDirBase norm).1 (splitDirBase norm).2)) =
              !q.inplace := by
            rw [hp.base_ok, hin]
            rfl
          exact neat_putAt _ hname hp.base_ok
        · rename_i hin
          have hname : ∀ seq, isTemp (resolve (atDir (splitDirBase norm).1
              (tmpNamePut cfg.who.pid seq))) = !q.inplace := by
            intro seq
            rw [hp.temp (ordinary_tmpNamePut _ _) (reserved_tmpNamePut _ _),
              Bool.eq_false_iff.mpr hin]
            rfl
          exact neat_calm (c := Call.nextSeq .put) rfl fun seq =>
            neat_putAt _ (hname seq) hp.base_ok

theorem neat_handleMkdir
    (hu : ∀ path mode, decodeMkdir payload = some (path, mode) → unreserved path = true) :
    Neat N (handleMkdir cfg payload) := by
  unfold handleMkdir
  cases hq : decodeMkdir payload with
  | none => trivial
  | some q =>
    obtain ⟨path, mode⟩ := q
    have hpath := hu path mode hq
    change Neat N (match resolvePath cfg.root path with
      | .error e => _
      | .ok norm => _)
    cases h : resolvePath cfg.root path with
    | error e => exact (calms_logError _ _).neat
    | ok norm =>
      obtain rfl := resolvePath_norm h
      refine Prog.Dutiful.bind ?_ fun err => ?_
      · exact neat_of_gentle (keeps_ensureDirBounded (gentle_ensures (unreserved_resolve hpath))
          (fun c hc => (unreserved_resolve hpath c hc).1) _ _)
      · cases err with
        | none => trivial
        | some e => exact (calms_logError _ _).neat

theorem neat_handleUnlink (payload : Bytes) : Neat N (handleUnlink cfg payload) := by
  unfold handleUnlink
  split
  · trivial
  split
  · trivial
  · exact Prog.Dutiful.call (c := Call.unlink _) trivial (fun r _ l hl => hl.elim) fun _ _ => trivial

/-- The end of `handle_symlink` and of `handle_link`. -/
theorem neat_renameOrDiscard {tmp : Bytes} (logged : Bytes)
    (htmp : isTemp (resolve (atDir dir tmp)) = true) (hN : N (resolve (atDir dir tmp)))
    (hbase : isTemp (resolve (atDir dir base)) = false) :
    Neat N (renameOrDiscard dir tmp base logged) := by
  refine Prog.Dutiful.call (c := Call.rename _ _) ⟨htmp, hN, hbase⟩ (fun r _ l hl => hl.elim)
    fun r _ => ?_
  cases r with
  | ok a => trivial
  | error e =>
    refine neat_calm (c := Call.logError logged e) rfl fun _ => ?_
    exact Prog.Dutiful.call (c := Call.unlink _) trivial (fun r _ l hl => hl.elim) fun _ _ => trivial

theorem discharges_renameOrDiscard {tmp logged : Bytes} {l : Loc}
    (hl : resolve (atDir dir tmp) = l) :
    Prog.Discharges tempDuty l (renameOrDiscard dir tmp base logged) := by
  intro r
  cases r with
  | ok a => exact .inl ⟨rfl, hl⟩
  | error e => exact .inr fun _ => .inr fun _ => .inl hl

theorem neat_handleSymlink (hu : ∀ q, decodeSymlink payload = some q → unreserved q.path = true) :
    Neat N (handleSymlink cfg payload) := by
  unfold handleSymlink
  cases hq : decodeSymlink payload with
  | none => trivial
  | some q =>
    refine neat_resolved (hu q hq) (fun e => (calms_logError _ _).neat) ?_
    intro norm parent hp
    refine Prog.Dutiful.bind (hp.ensure _) fun err => ?_
    cases err with
    | some e => exact (calms_logError _ _).neat
    | none =>
      refine neat_calm (c := Call.openDir _) rfl fun opened => ?_
      cases opened with
      | error e => exact (calms_logError _ _).neat
      | ok a =>
        refine neat_calm (c := Call.nextSeq .sym) rfl fun seq => ?_
        have htemp := hp.temp (ordinary_tmpNameSym cfg.who.pid seq) (reserved_tmpNameSym _ _)
        refine Prog.Dutiful.call (c := Call.symlink _ _) trivial ?_ ?_
        · rintro r - l ⟨rfl, hl, -⟩
          refine Prog.Discharges.bind_right fun _ settings => .inr ?_
          change Prog.Discharges _ _ (if _ then _ else _)
          split
          · exact fun _ => .inr (discharges_renameOrDiscard hl)
          · exact discharges_renameOrDiscard hl
        · intro r hr
          cases r with
          | error e => exact (calms_logError _ _).neat
          | ok a =>
            have hend := neat_renameOrDiscard (N := N) norm htemp (hr rfl htemp) hp.base_ok
            refine Prog.Dutiful.bind (calms_chownSymlink _ _ _ _).neat fun _ => ?_
            refine neat_calm (c := Call.settings) rfl fun settings => ?_
            change Neat N (if _ then _ else _)
            split
            · exact neat_calm (c := Call.lutimes _ _ _) rfl fun _ => hend
            · exact hend

theorem neat_replaceByLink {primary linkPath : Bytes} {parent : Loc} {norm : Bytes}
    (hp : Place norm dir base parent) : Neat N (replaceByLink cfg primary dir base linkPath) := by
  refine neat_calm (c := Call.nextSeq .lnk) rfl fun seq => ?_
  have htemp := hp.temp (ordinary_tmpNameLnk cfg.who.pid seq) (reserved_tmpNameLnk _ _)
  refine Prog.Dutiful.call (c := Call.link _ _) trivial ?_ ?_
  · rintro r - l ⟨rfl, hl, -⟩
    exact discharges_renameOrDiscard hl
  · intro r hr
    cases r with
    | error e => exact (calms_logError _ _).neat
    | ok a => exact neat_renameOrDiscard _ htemp (hr rfl htemp) hp.base_ok

theorem neat_handleLink
    (hu : ∀ primary path, decodeLink payload = some (primary, path) → unreserved path = true) :
    Neat N (handleLink cfg payload) := by
  unfold handleLink
  cases hq : decodeLink payload with
  | none => trivial
  | some q =>
    obtain ⟨primaryIn, pathIn⟩ := q
    change Neat N (match resolvePath cfg.root primaryIn with
      | .error e => _
      | .ok primary => _)
    cases resolvePath cfg.root primaryIn with
    | error e => exact (calms_logError _ _).neat
    | ok primary =>
      refine neat_resolved (hu _ _ hq) (fun e => (calms_logError _ _).neat) ?_
      intro norm parent hp
      refine Prog.Dutiful.bind (hp.ensure _) fun err => ?_
      cases err with
      | some e => exact (calms_logError _ _).neat
      | none =>
        refine neat_calm (c := Call.openDir _) rfl fun opened => ?_
        cases opened with
        | error e => exact (calms_logError _ _).neat
        | ok a =>
          refine Prog.Dutiful.call (c := Call.link _ _) trivial ?_ ?_
          · rintro r - l ⟨-, rfl, ht⟩
            exact absurd (hp.base_ok.symm.trans ht) Bool.false_ne_true
          · intro r _
            cases r with
            | ok a => trivial
            | error e =>
              cases e with
              | eexist =>
                refine Prog.Dutiful.bind (reads_sameInode _ _).calms.neat fun same => ?_
                change Neat N (if _ then _ else _)
                split
                · trivial
                · exact neat_replaceByLink hp
              | _ => exact (calms_logError _ _).neat

theorem neat_silent {m : Handler Unit} (h : Neat N m) : Neat N (silent m) :=
  Prog.Dutiful.bind h fun _ => trivial

theorem neat_answering {m : Handler Frame} (h : Neat N m) : Neat N (answering m) :=
  Prog.Dutiful.bind h fun _ => trivial

end Neat

end Ecopy.Server
