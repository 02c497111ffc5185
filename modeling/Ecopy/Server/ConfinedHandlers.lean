import Ecopy.Server.Confinement
import Ecopy.Server.Passive

/-!
# The handlers are confined

Every handler is shown to make allowed calls only. The proofs follow the
programs; what they need from the paths is collected first.
-/
namespace Ecopy.Server
open Protocol Ecopy.Path FileSystem Lib.Calls Lib.Runs

theorem slash_notMem_decimal (n : ℕ) : slash ∉ decimal n := by
  unfold decimal
  split
  · decide
  · intro h
    obtain ⟨d, hd, heq⟩ := List.mem_map.mp h
    have hlt : d < 10 := Nat.digits_lt_base (by decide) (List.mem_reverse.mp hd)
    have hnat := congrArg UInt8.toNat heq
    rw [UInt8.toNat_ofNat', show slash.toNat = 47 from rfl] at hnat
    omega

/-- Everything that starts like a temporary name and holds no slash can be the
name of a file. -/
theorem ordinary_tmp {rest : Bytes} (h : slash ∉ rest) : Ordinary (tmpPrefix ++ rest) := by
  refine ⟨⟨by simp [tmpPrefix], ?_⟩, ?_, ?_⟩
  · rw [List.mem_append, not_or]
    exact ⟨by decide, h⟩
  · intro heq
    have := congrArg List.length heq
    simp [tmpPrefix, dot] at this
  · intro heq
    have := congrArg List.length heq
    simp [tmpPrefix, dotdot] at this

theorem ordinary_tmpNameOpen (pid : ℕ) (fid : UInt64) : Ordinary (tmpNameOpen pid fid) := by
  rw [tmpNameOpen, List.append_assoc]
  refine ordinary_tmp ?_
  simp only [List.mem_append, List.mem_cons, not_or]
  exact ⟨slash_notMem_decimal _, by decide, slash_notMem_decimal _⟩

theorem ordinary_tmpNamePut (pid seq : ℕ) : Ordinary (tmpNamePut pid seq) := by
  rw [tmpNamePut, List.append_assoc]
  refine ordinary_tmp ?_
  simp only [List.mem_append, List.mem_cons, not_or]
  exact ⟨slash_notMem_decimal _, by decide, by decide, slash_notMem_decimal _⟩

theorem ordinary_tmpNameSym (pid seq : ℕ) : Ordinary (tmpNameSym pid seq) := by
  rw [tmpNameSym, List.append_assoc, List.append_assoc]
  refine ordinary_tmp ?_
  simp only [List.mem_append, List.mem_cons, not_or]
  exact ⟨by decide, slash_notMem_decimal _, by decide, slash_notMem_decimal _⟩

theorem ordinary_tmpNameLnk (pid seq : ℕ) : Ordinary (tmpNameLnk pid seq) := by
  rw [tmpNameLnk, List.append_assoc, List.append_assoc]
  refine ordinary_tmp ?_
  simp only [List.mem_append, List.mem_cons, not_or]
  exact ⟨by decide, slash_notMem_decimal _, by decide, slash_notMem_decimal _⟩

/-- The calls of a program are allowed whenever the answers are honest. -/
abbrev Good (r : Loc) (rootIsDir : Bool) {α : Type} (m : Handler α) : Prop :=
  m.Keeps (Allowed r rootIsDir) (Honest r rootIsDir)

section Good
variable {r : Loc} {rootIsDir : Bool}

theorem allowed_of_passive {c : Call} (h : Passive c) : Allowed r rootIsDir c := by
  cases c with
  | openFile p flags mode => exact .inl ⟨h.1, h.2.1⟩
  | mkdir | fallocate | ftruncate | pwrite | fchown | fchmod | futimens | rename | unlink | symlink
  | link | lchown | lutimes | addFile | updateFile | settleDir => exact h.elim
  | _ => trivial

theorem Reads.good {α : Type} {m : Handler α} (h : Reads m) : Good r rootIsDir m :=
  h.weaken (fun _ => allowed_of_passive) fun _ _ _ => trivial

theorem existingPathIsDir_safe {cs : Loc} (hcs : ∀ c ∈ cs, Ordinary c) :
    (existingPathIsDir (render cs)).Safe (Allowed r rootIsDir) (Honest r rootIsDir)
      fun e => e = none → cs = r → rootIsDir = true := by
  refine Prog.Safe.perform (c := Call.lstat (render cs)) trivial ?_
  intro res hres
  cases res with
  | error e => exact fun h => (nomatch h)
  | ok st =>
    intro hnone heq
    refine hres st.1 st.2 rfl ?_ ?_
    · rw [resolve_render hcs, heq]
    · by_contra hdir
      simp [hdir] at hnone

theorem mkdirOutcome_safe {cs : Loc} (hcs : ∀ c ∈ cs, Ordinary c) {mode : UInt32}
    {res : Except Errno Unit} (hres : Honest r rootIsDir (.mkdir (render cs) mode) res) :
    (mkdirOutcome (render cs) mode res).Safe (Allowed r rootIsDir) (Honest r rootIsDir)
      fun out => ∀ m, out = .ok m → cs = r → rootIsDir = true := by
  have hmkdir : cs = r → res ≠ .ok () := by
    intro heq
    refine (hres ?_).1
    rewrite [resolve_render hcs, heq]
    exact List.prefix_refl r
  cases res with
  | ok a => exact fun _ _ heq => absurd rfl (hmkdir heq)
  | error e =>
    cases e with
    | eexist =>
      refine Prog.Safe.bind (existingPathIsDir_safe hcs) ?_
      intro e' he'
      cases e' with
      | none => exact fun _ _ heq => he' rfl heq
      | some e' => exact fun _ h => (nomatch h)
    | _ => exact fun _ h => (nomatch h)

theorem settle_safe {cs : Loc} (hcs : ∀ c ∈ cs, Ordinary c) (hr : ∀ c ∈ r, Ordinary c)
    {out : Except Errno (Option UInt32)} (h : ∀ m, out = .ok m → cs = r → rootIsDir = true) :
    (settle (render cs) out).Safe (Allowed r rootIsDir) (Honest r rootIsDir)
      fun e => e = none → cs = r → rootIsDir = true := by
  have hcr : render cs = render r → cs = r := by
    intro heq
    rw [← resolve_render hcs, heq, resolve_render hr]
  cases out with
  | ok m =>
    refine Prog.Safe.perform (c := Call.settleDir (render cs) (.ready m)) ?_ ?_
    · exact fun heq => h m rfl (hcr heq)
    · exact fun _ _ _ heq => h m rfl heq
  | error e =>
    refine Prog.Safe.perform (c := Call.settleDir (render cs) (.failed e)) trivial ?_
    exact fun _ _ he => (nomatch he)

/-- The chain of `mkdir` calls: at or below the root its parent is still at or
below the root, and at the root or above it nothing is missing. -/
theorem ensureDirBounded_safe (hr : ∀ c ∈ r, Ordinary c) {cs : Loc} (hcs : ∀ c ∈ cs, Ordinary c)
    (hpos : r <+: cs ∨ cs <+: r) (fuel : ℕ) (mode : UInt32) :
    (ensureDirBounded fuel (render cs) mode).Safe (Allowed r rootIsDir) (Honest r rootIsDir)
      fun e => e = none → cs = r → rootIsDir = true := by
  induction fuel generalizing cs mode with
  | zero => exact fun h => (nomatch h)
  | succ fuel ih =>
    have hmkdir : Allowed r rootIsDir (.mkdir (render cs) mode) := by
      refine ⟨?_, ?_⟩
      · intro h
        have := head_render cs
        simp [h] at this
      · rwa [resolve_render hcs]
    refine Prog.Safe.perform (c := Call.claimDir (render cs)) trivial ?_
    intro claim hclaim
    cases claim with
    | ready => exact fun _ heq => hclaim rfl (by rw [heq])
    | failed e => exact fun h => (nomatch h)
    | claimed =>
      refine Prog.Safe.perform (c := Call.mkdir (render cs) mode) hmkdir ?_
      intro res hres
      have hother : (mkdirOutcome (render cs) mode res >>= settle (render cs)).Safe
          (Allowed r rootIsDir) (Honest r rootIsDir)
          fun e => e = none → cs = r → rootIsDir = true :=
        Prog.Safe.bind (mkdirOutcome_safe hcs hres) fun out hout => settle_safe hcs hr hout
      cases res with
      | ok a => exact hother
      | error e =>
        cases e with
        | enoent =>
          -- a parent is missing, so `cs` is strictly below the root
          have hbelow : ¬ cs <+: r := by
            intro hle
            rw [← resolve_render hcs] at hle
            exact (hres hle).2 rfl
          have hunder : r <+: cs := hpos.resolve_right hbelow
          obtain ⟨init, c, rfl⟩ : ∃ init c, cs = init ++ [c] := by
            rcases cs.eq_nil_or_concat with rfl | ⟨init, c, rfl⟩
            · exact absurd List.nil_prefix hbelow
            · exact ⟨init, c, by simp⟩
          have hinit : ∀ d ∈ init, Ordinary d := fun d hd => hcs d (by simp [hd])
          have hparent : r <+: init := by
            refine (List.prefix_concat_iff.mp hunder).resolve_left ?_
            intro heq
            exact hbelow (by rewrite [heq]; exact List.prefix_refl _)
          have hfail : ∀ e, (settle (render (init ++ [c])) (.error e)).Safe
              (Allowed r rootIsDir) (Honest r rootIsDir)
              fun e => e = none → init ++ [c] = r → rootIsDir = true :=
            fun e => settle_safe hcs hr fun m h => (nomatch h)
          change Prog.Safe _ _ _ (if (splitDirBase (render (init ++ [c]))).1 = _ then _ else _)
          rw [splitDirBase_render (hcs c (by simp))]
          split
          · exact hfail _
          · refine Prog.Safe.bind (ih hinit (.inl hparent) 0x1FF) ?_
            intro e _
            cases e with
            | some e => exact hfail e
            | none =>
              refine Prog.Safe.perform (c := Call.mkdir _ mode) hmkdir ?_
              intro res' hres'
              exact Prog.Safe.bind (mkdirOutcome_safe hcs hres') fun out hout =>
                settle_safe hcs hr hout
        | _ => exact hother

/-- A path after confinement, with the directory and the name that a handler
derives from it. The parent lies at or below the root unless the path is the
root itself. -/
structure Target (r : Loc) (norm dir base : Bytes) (parent : Loc) : Prop where
  ordinary : ∀ c ∈ parent, Ordinary c
  dir_eq : dir = render parent
  position : r <+: parent ∨ parent <+: r
  inside : norm ≠ render r ∨ r = [] → r <+: parent
  base_ok : Confined r (atDir dir base)
  norm_ok : r <+: resolve norm
  short : dir.length + 3 ≤ pathMax

theorem exists_target (hr : ∀ c ∈ r, Ordinary c) {path norm : Bytes}
    (h : resolvePath (render r) path = .ok norm) :
    ∃ parent, Target r norm (splitDirBase norm).1 (splitDirBase norm).2 parent := by
  obtain ⟨rfl, hunder, hlen⟩ := resolvePath_eq_ok hr h
  have hord : ∀ c ∈ resolve path, Ordinary c := fun c hc => ordinary_of_mem_resolve hc
  rcases (resolve path).eq_nil_or_concat with hnil | ⟨init, c, hcs⟩
  · -- the path is `/`, and so is the root
    rw [hnil] at hunder ⊢
    have hrnil : r = [] := List.prefix_nil.mp hunder
    subst hrnil
    rw [splitDirBase_slash]
    exact ⟨[], by simp, rfl, .inl List.nil_prefix, fun _ => List.nil_prefix, .inl rfl,
      List.nil_prefix, by decide⟩
  · rw [List.concat_eq_append] at hcs
    rw [hcs] at hunder hlen hord ⊢
    have hc : Ordinary c := hord c (by simp)
    have hinit : ∀ d ∈ init, Ordinary d := fun d hd => hord d (by simp [hd])
    rw [splitDirBase_render hc]
    have hpos := List.prefix_concat_iff.mp hunder
    refine ⟨init, hinit, rfl, ?_, ?_, ?_, ?_, ?_⟩
    · rcases hpos with heq | hle
      · exact .inr (by rw [heq]; exact List.prefix_append init [c])
      · exact .inl hle
    · intro hne
      rcases hpos with heq | hle
      · rcases hne with hne | hnil
        · exact absurd (by rw [heq]) hne
        · rw [hnil]
          exact List.nil_prefix
      · exact hle
    · exact .inr (by rwa [resolve_atDir hinit hc])
    · rwa [resolve_render hord]
    · have hpos : 0 < c.length := List.length_pos_iff.mpr hc.1.1
      have hjoin : (render (init ++ [c])).length = (Lib.Fields.join slash init).length + 1 + c.length := by
        rw [render_eq_join (by simp)]
        simp only [Lib.Fields.join_append, Lib.Fields.join_cons, Lib.Fields.join_nil,
          List.length_append, List.length_cons, List.append_nil]
        omega
      have hdir : (render init).length ≤ max (Lib.Fields.join slash init).length 1 := by
        unfold render
        split
        · simp
        · exact Nat.le_max_left _ _
      have hmax : pathMax = 4096 := rfl
      change (render init).length + 3 ≤ pathMax
      omega

theorem Target.strict {norm dir base name : Bytes} {parent : Loc} (t : Target r norm dir base parent)
    (h : norm ≠ render r ∨ r = []) (hname : Ordinary name) :
    StrictlyConfined r (atDir dir name) := by
  have hle := t.inside h
  rw [t.dir_eq]
  refine .inr ?_
  rw [resolve_atDir t.ordinary hname]
  refine ⟨hle.trans (List.prefix_append parent [name]), ?_⟩
  intro heq
  have := hle.length_le
  rw [← heq] at this
  simp at this

theorem Target.ensure (hr : ∀ c ∈ r, Ordinary c) {norm dir base : Bytes} {parent : Loc}
    (t : Target r norm dir base parent) (mode : UInt32) :
    (ensureDirCachedMode dir mode).Safe (Allowed r rootIsDir) (Honest r rootIsDir)
      fun e => e = none → parent = r → rootIsDir = true := by
  rw [t.dir_eq]
  exact ensureDirBounded_safe hr t.ordinary t.position _ mode

theorem FileOk.dead {f : OpenFile} (hfd : f.fd = none) (hfinal : Confined r f.finalPath)
    (htmp : f.inplace = false → Removable r rootIsDir f.tmpPath) : FileOk r rootIsDir f := by
  refine ⟨?_, hfinal, htmp, ?_⟩
  · intro fd h
    rw [hfd] at h
    cases h
  · intro _ h
    rw [hfd] at h
    cases h

theorem removable_nil : Removable r rootIsDir [] := .inl (.inl rfl)

/-- The flags of a file do not matter for its paths. -/
theorem FileOk.congr {f g : OpenFile} (h : FileOk r rootIsDir f) (hfd : g.fd = f.fd)
    (hin : g.inplace = f.inplace) (htmp : g.tmpPath = f.tmpPath)
    (hfinal : g.finalPath = f.finalPath) : FileOk r rootIsDir g := by
  refine ⟨?_, ?_, ?_, ?_⟩
  · rw [hfd]
    exact h.fd
  · rw [hfinal]
    exact h.final
  · rw [hin, htmp]
    exact h.tmp
  · rw [hin, hfd, htmp]
    exact h.renamed

theorem good_applyMeta {who : Identity} {fd : Fd} (hfd : r <+: resolve fd.path) (m : Meta)
    (modeIsSet : Bool) : Good r rootIsDir (applyMeta who fd m modeIsSet) :=
  keeps_applyMeta ⟨fun _ _ => hfd, fun _ => hfd, fun _ _ => hfd, trivial⟩ m modeIsSet

theorem good_pwriteAll {fd : Fd} (hfd : r <+: resolve fd.path) (offset : ℤ) (data : Bytes) :
    Good r rootIsDir (pwriteAll fd offset data) := by
  unfold pwriteAll
  split
  · trivial
  · exact Prog.Keeps.last (c := Call.pwrite fd offset data) hfd

theorem good_close (fd : Fd) : Good r rootIsDir (Sys.close fd) := (reads_close fd).good

theorem good_logError (path : Bytes) (e : Errno) : Good r rootIsDir (Sys.logError path e) :=
  (reads_logError path e).good

theorem good_preallocate {q : OpenRequest} {fd : Fd} (hfd : r <+: resolve fd.path) :
    Good r rootIsDir (preallocate q fd) := by
  unfold preallocate
  split
  · refine Prog.Keeps.call (c := Call.fallocate fd _) hfd ?_
    intro res _
    cases res with
    | ok a => trivial
    | error e =>
      change Good r rootIsDir (if _ then _ else _)
      split
      · refine Prog.Keeps.call (c := Call.ftruncate fd _) hfd ?_
        exact fun _ _ => trivial
      · trivial
  · trivial

/-- A file is opened at its temporary path, or in place at its final one. -/
theorem good_openAndAdd {q : OpenRequest} {finalPath tmpPath : Bytes} (wantDirect : Bool)
    (hfinal : Confined r finalPath) (htmp : Confined r tmpPath)
    (hstrict : q.inplace = false → StrictlyConfined r tmpPath) :
    Good r rootIsDir (openAndAdd q finalPath tmpPath wantDirect) := by
  have hopen : ∀ direct, Allowed r rootIsDir
      (.openFile tmpPath (createFlags q.inplace direct) (copyDataMode q.mode)) := fun _ => .inr htmp
  have hfailed : ∀ e, Good r rootIsDir (Sys.addFile (failedFile q finalPath tmpPath e)) := by
    intro e
    refine Prog.Keeps.last (c := Call.addFile _) ?_
    exact FileOk.dead rfl hfinal fun h => .inl (hstrict h)
  have hadd : ∀ fd direct, fd.path = tmpPath ∧ tmpPath ≠ [] → Good r rootIsDir (do
      preallocate q fd
      Sys.addFile ⟨q.fid, some fd, q.inplace, direct, none, tmpPath, finalPath⟩) := by
    intro fd direct ⟨hpath, hne⟩
    have hfd : r <+: resolve fd.path := by
      rw [hpath]
      exact htmp.under hne
    refine Prog.Keeps.bind (good_preallocate hfd) fun _ => Prog.Keeps.last (c := Call.addFile _) ?_
    refine ⟨?_, hfinal, fun h => .inl (hstrict h), fun h _ => hstrict h⟩
    intro fd' heq
    obtain rfl := Option.some.inj heq
    exact hfd
  have hbuffered : Good r rootIsDir (openBuffered q finalPath tmpPath) := by
    refine Prog.Keeps.call (c := Call.openFile _ _ _) (hopen _) ?_
    intro res hres
    cases res with
    | error e => exact hfailed e
    | ok fd => exact hadd fd false (hres fd rfl)
  unfold openAndAdd
  split
  · refine Prog.Keeps.call (c := Call.openFile _ _ _) (hopen _) ?_
    intro res hres
    cases res with
    | error e =>
      change Good r rootIsDir (if _ then _ else _)
      split
      · exact hbuffered
      · exact hfailed e
    | ok fd =>
      refine Prog.Keeps.call (c := Call.attempt) trivial ?_
      exact fun direct _ => hadd fd direct (hres fd rfl)
  · exact hbuffered

end Good

section Handlers
variable {r : Loc} {rootIsDir : Bool} {cfg : Config}

/-- Confinement of a decoded path. -/
theorem good_resolved {α : Type} (hr : ∀ c ∈ r, Ordinary c) (hroot : cfg.root = render r)
    {path : Bytes} {bad : Errno → Handler α} {good : Bytes → Handler α}
    (hbad : ∀ e, Good r rootIsDir (bad e))
    (hgood : ∀ norm parent, resolvePath cfg.root path = .ok norm →
      Target r norm (splitDirBase norm).1 (splitDirBase norm).2 parent →
      Good r rootIsDir (good norm)) :
    Good r rootIsDir (match resolvePath cfg.root path with
      | .error e => bad e
      | .ok norm => good norm) := by
  cases h : resolvePath cfg.root path with
  | error e => exact hbad e
  | ok norm =>
    rw [hroot] at h
    obtain ⟨parent, ht⟩ := exists_target hr h
    exact hgood norm parent (by rw [hroot, h]) ht

/-- A path that does not name the root has its parent inside. -/
theorem inside_of_not_namesRoot (hr : ∀ c ∈ r, Ordinary c) (hroot : cfg.root = render r)
    {path norm : Bytes} (h : resolvePath cfg.root path = .ok norm)
    (hnot : namesRoot cfg.root path = false) : norm ≠ render r ∨ r = [] := by
  by_cases hnil : r = []
  · exact .inr hnil
  · refine .inl ?_
    intro heq
    have hslash : render r ≠ [slash] := fun hs => hnil ((render_eq_slash_iff hr).mp hs)
    rw [hroot] at h hnot
    simp [namesRoot, h, hslash, heq] at hnot

/-- A temporary name that did not fit is cut somewhere: in a dot, which is the
directory itself, or in an ordinary name. -/
theorem cut_removable {norm dir base rest : Bytes} {parent : Loc}
    (t : Target r norm dir base parent) (hin : norm ≠ render r ∨ r = [])
    (hdir : parent = r → rootIsDir = true) (hrest : slash ∉ rest) :
    Removable r rootIsDir ((dir ++ slash :: 46 :: 101 :: rest).take (pathMax - 1)) := by
  have hle := t.inside hin
  obtain ⟨k, hk⟩ : ∃ k, pathMax - 1 = dir.length + (k + 2) := by
    have := t.short
    exact ⟨pathMax - 3 - dir.length, by omega⟩
  rw [hk, List.take_length_add_append, List.take_succ_cons, List.take_succ_cons, t.dir_eq]
  cases k with
  | zero =>
    have hres : resolve (render parent ++ slash :: [46]) = parent := by
      rw [resolve_append t.ordinary]
      rfl
    rw [List.take_zero]
    by_cases heq : parent = r
    · exact .inr ⟨by rw [hres, heq], hdir heq⟩
    · exact .inl (.inr (by rw [hres]; exact ⟨hle, heq⟩))
  | succ k =>
    have hname : Ordinary (46 :: 101 :: rest.take k) := by
      refine ⟨⟨by simp, ?_⟩, by simp [dot], by simp [dotdot]⟩
      simp only [List.mem_cons, not_or]
      exact ⟨by decide, by decide, fun h => hrest (List.mem_of_mem_take h)⟩
    have hstrict := t.strict hin hname
    rw [t.dir_eq, atDir, if_neg (by simp)] at hstrict
    exact .inl hstrict

theorem good_handleOpen (hr : ∀ c ∈ r, Ordinary c) (hroot : cfg.root = render r) {f : Frame}
    (htype : f.type = .open) (hnot : aims cfg.root rootIsDir f = false) :
    Good r rootIsDir (handleOpen cfg f.payload) := by
  simp only [aims, htype] at hnot
  unfold handleOpen
  cases hq : decodeOpen f.payload with
  | none => trivial
  | some q =>
    simp only [hq, Bool.and_eq_false_imp, Bool.not_eq_true'] at hnot
    refine Prog.Keeps.call (c := Call.attempt) trivial ?_
    intro enough _
    change Good r rootIsDir (if _ then _ else _)
    split
    · trivial
    refine good_resolved hr hroot ?_ ?_
    · intro e
      exact Prog.Keeps.last (c := Call.addFile _) (FileOk.dead rfl (.inl rfl) fun _ => removable_nil)
    intro norm parent hnorm t
    have hfinal : Confined r norm := .inr t.norm_ok
    refine Prog.Keeps.bind_safe (t.ensure hr _) ?_
    intro err herr
    cases err with
    | some e =>
      exact Prog.Keeps.last (c := Call.addFile _) (FileOk.dead rfl hfinal fun _ => removable_nil)
    | none =>
      refine Prog.Keeps.call (c := Call.settings) trivial ?_
      intro settings _
      change Good r rootIsDir (if _ then _ else _)
      split
      · rename_i hinplace
        exact good_openAndAdd _ hfinal hfinal fun h => by simp [hinplace] at h
      rename_i hinplace
      have hin := inside_of_not_namesRoot hr hroot hnorm (hnot (by simpa using hinplace))
      have hname := ordinary_tmpNameOpen cfg.who.pid q.fid
      change Good r rootIsDir (if _ then _ else _)
      split
      · refine Prog.Keeps.last (c := Call.addFile _) (FileOk.dead rfl hfinal fun _ => ?_)
        refine cut_removable t hin (herr rfl) ?_
        intro h
        exact hname.1.2 (List.mem_cons_of_mem _ (List.mem_cons_of_mem _ h))
      · have hstrict := t.strict hin hname
        rw [atDir, if_neg hname.1.1] at hstrict
        exact good_openAndAdd _ hfinal hstrict.confined fun _ => hstrict

/-- A change of a file's flags is a change of the table. -/
theorem good_updateFile {f : OpenFile} (hf : FileOk r rootIsDir f) :
    Good r rootIsDir (Sys.updateFile f) :=
  Prog.Keeps.last (c := Call.updateFile f) hf

theorem good_writeBuffered {f : OpenFile} {fd : Fd} (hf : FileOk r rootIsDir f)
    (hfd : r <+: resolve fd.path) (offset : ℤ) (data : Bytes) :
    Good r rootIsDir (writeBuffered f fd offset data) := by
  refine Prog.Keeps.bind (good_pwriteAll hfd offset data) ?_
  intro res
  rcases res with ⟨e, n⟩ | a
  · exact good_updateFile (hf.congr rfl rfl rfl rfl)
  · trivial

theorem good_handleWrite (payload : Bytes) : Good r rootIsDir (handleWrite payload) := by
  unfold handleWrite
  cases decodeWrite payload with
  | none => trivial
  | some q =>
    refine Prog.Keeps.call (c := Call.findFile q.1) trivial ?_
    intro found hfound
    cases found with
    | none => trivial
    | some f =>
      have hf := hfound f rfl
      dsimp only
      split
      · rename_i fd _ hfd
        have hunder := hf.fd fd hfd
        -- the fallback to buffered writes
        have hback : Good r rootIsDir (do
            Sys.updateFile { f with direct := false }
            writeBuffered { f with direct := false } fd q.2.1 q.2.2) := by
          have hf' : FileOk r rootIsDir { f with direct := false } :=
            hf.congr rfl rfl rfl rfl
          exact Prog.Keeps.bind (good_updateFile hf') fun _ => good_writeBuffered hf' hunder _ _
        split
        · refine Prog.Keeps.call (c := Call.attempt) trivial ?_
          intro ready _
          change Good r rootIsDir (if _ then _ else _)
          split
          · refine Prog.Keeps.bind (good_pwriteAll hunder _ _) ?_
            intro res
            split
            · trivial
            · exact hback
            · exact good_updateFile (hf.congr rfl rfl rfl rfl)
          · exact hback
        · exact good_writeBuffered hf hunder _ _
      · trivial

theorem good_handleFtruncate (payload : Bytes) : Good r rootIsDir (handleFtruncate payload) := by
  refine Prog.Keeps.call (c := Call.findFile _) trivial ?_
  intro found hfound
  cases found with
  | none => trivial
  | some f =>
    have hf := hfound f rfl
    dsimp only
    split
    · rename_i fd _ hfd
      refine Prog.Keeps.call (c := Call.ftruncate fd _) (hf.fd fd hfd) ?_
      intro res _
      cases res with
      | ok a => trivial
      | error e => exact good_updateFile (hf.congr rfl rfl rfl rfl)
    · trivial

theorem good_unlink_tmp {f : OpenFile} (hf : FileOk r rootIsDir f) (hin : f.inplace = false) :
    Good r rootIsDir (Sys.unlink f.tmpPath) :=
  Prog.Keeps.last (c := Call.unlink f.tmpPath) (hf.tmp hin)

theorem good_commitOpen {who : Identity} {f : OpenFile} {fd : Fd} (hf : FileOk r rootIsDir f)
    (hfd : f.fd = some fd) (m : Meta) : Good r rootIsDir (commitOpen who f fd m) := by
  have hrename : ∀ status : Option Errno, Good r rootIsDir (commitRename f status) := by
    intro status
    unfold commitRename
    split
    · trivial
    · rename_i hgo
      have hin : f.inplace = false := by
        simp only [Bool.or_eq_true, not_or] at hgo
        simpa using hgo.2
      refine Prog.Keeps.call (c := Call.rename _ _) ⟨hf.renamed hin (by simp [hfd]), hf.final⟩ ?_
      intro res _
      cases res <;> trivial
  have hclose : ∀ status : Option Errno, Good r rootIsDir (commitClose f fd status) :=
    fun status => Prog.Keeps.bind (good_close fd) fun closed => hrename _
  refine Prog.Keeps.call (c := Call.fsync fd) trivial ?_
  intro synced _
  cases synced with
  | error e => exact hclose (some e)
  | ok a => exact Prog.Keeps.bind (good_applyMeta (hf.fd fd hfd) m false) fun res => hclose _

theorem good_handleCommit (id : UInt64) (payload : Bytes) :
    Good r rootIsDir (handleCommit cfg id payload) := by
  refine Prog.Keeps.call (c := Call.findFile _) trivial ?_
  intro found hfound
  cases found with
  | none => trivial
  | some f =>
    have hf := hfound f rfl
    have hend : ∀ status : Option Errno, Good r rootIsDir (do
        if status.isSome && !f.inplace then
          let _ ← Sys.unlink f.tmpPath
        Sys.removeFile (decodeCommit payload).1
        return replyStatus id status) := by
      intro status
      split
      · rename_i hgo
        have hin : f.inplace = false := by
          simp only [Bool.and_eq_true, Bool.not_eq_true'] at hgo
          exact hgo.2
        exact Prog.Keeps.bind (good_unlink_tmp hf hin) fun _ =>
          Prog.Keeps.call (c := Call.removeFile _) trivial fun _ _ => trivial
      · exact Prog.Keeps.call (c := Call.removeFile _) trivial fun _ _ => trivial
    dsimp only
    split
    · exact Prog.Keeps.bind (good_close _) fun _ => hend _
    · exact hend _
    · exact hend _
    · rename_i fd _ hfd
      exact Prog.Keeps.bind (good_commitOpen hf hfd _) hend

theorem good_handleAbort (payload : Bytes) : Good r rootIsDir (handleAbort payload) := by
  refine Prog.Keeps.call (c := Call.findFile _) trivial ?_
  intro found hfound
  cases found with
  | none => trivial
  | some f =>
    have hf := hfound f rfl
    have hend : Good r rootIsDir (do
        if !f.inplace then
          let _ ← Sys.unlink f.tmpPath
        Sys.removeFile (decodeFid payload)) := by
      split
      · rename_i hin
        exact Prog.Keeps.bind (good_unlink_tmp hf (by simpa using hin)) fun _ =>
          Prog.Keeps.last (c := Call.removeFile _) trivial
      · exact Prog.Keeps.last (c := Call.removeFile _) trivial
    dsimp only
    split
    · exact Prog.Keeps.bind (good_close _) fun _ => hend
    · exact hend

theorem good_handleMkdir (hr : ∀ c ∈ r, Ordinary c) (hroot : cfg.root = render r)
    (payload : Bytes) : Good r rootIsDir (handleMkdir cfg payload) := by
  unfold handleMkdir
  cases decodeMkdir payload with
  | none => trivial
  | some q =>
    refine good_resolved hr hroot (fun e => good_logError _ e) ?_
    intro norm parent hnorm t
    rw [hroot] at hnorm
    obtain ⟨rfl, hunder, -⟩ := resolvePath_eq_ok hr hnorm
    refine Prog.Keeps.bind (Prog.Keeps.of_safe (ensureDirBounded_safe hr ?_ (.inl hunder) _ _)) ?_
    · exact fun c hc => ordinary_of_mem_resolve hc
    · intro err
      cases err with
      | none => trivial
      | some e => exact good_logError _ e

/-- Opening for reading changes nothing; the descriptor is at the path. -/
theorem openForMeta_safe (path : Bytes) :
    (openForMeta path).Safe (Allowed r rootIsDir) (Honest r rootIsDir)
      fun res => ∀ fd, res = .ok fd → fd.path = path ∧ path ≠ [] := by
  refine Prog.Safe.perform (c := Call.openFile path (readFlags false) 0) (.inl ⟨rfl, rfl⟩) ?_
  intro res hres
  cases res with
  | ok fd => exact hres
  | error e =>
    refine ⟨.inl ⟨rfl, rfl⟩, ?_⟩
    exact fun res hres => hres

theorem openTarget_safe {norm : Bytes} {parent : Loc}
    (t : Target r norm (splitDirBase norm).1 (splitDirBase norm).2 parent) :
    (openTarget cfg norm).Safe (Allowed r rootIsDir) (Honest r rootIsDir)
      fun res => ∀ fd, res = .ok fd → r <+: resolve fd.path := by
  have hpath : (openForMeta norm).Safe (Allowed r rootIsDir) (Honest r rootIsDir)
      fun res => ∀ fd, res = .ok fd → r <+: resolve fd.path := by
    refine (openForMeta_safe norm).mono ?_
    intro res hres fd hfd
    rw [(hres fd hfd).1]
    exact t.norm_ok
  unfold openTarget
  dsimp only
  split
  · refine Prog.Safe.perform (c := Call.openDir _) trivial ?_
    intro res _
    cases res with
    | error e => exact hpath
    | ok a =>
      refine Prog.Safe.bind (openForMeta_safe _) ?_
      intro res hres
      cases res with
      | error e => exact hpath
      | ok fd =>
        intro fd' heq
        obtain rfl := Except.ok.inj heq
        obtain ⟨hp, hne⟩ := hres fd rfl
        rw [hp]
        exact t.base_ok.under hne
  · exact hpath

theorem good_handleSetmeta (hr : ∀ c ∈ r, Ordinary c) (hroot : cfg.root = render r)
    (payload : Bytes) : Good r rootIsDir (handleSetmeta cfg payload) := by
  unfold handleSetmeta
  cases decodeSetmeta payload with
  | none => trivial
  | some q =>
    refine good_resolved hr hroot (fun e => good_logError _ e) ?_
    intro norm parent _ t
    refine Prog.Keeps.bind_safe (openTarget_safe t) ?_
    intro res hres
    cases res with
    | error e => exact good_logError _ e
    | ok fd =>
      refine Prog.Keeps.call (c := Call.dirMode norm) trivial ?_
      intro known _
      refine Prog.Keeps.bind (good_applyMeta (hres fd rfl) _ _) ?_
      intro failed
      refine Prog.Keeps.bind (good_close fd) ?_
      intro closed
      split
      · exact good_logError _ _
      · exact good_logError _ _
      · trivial

theorem good_putContent {who : Identity} {fd : Fd} (hfd : r <+: resolve fd.path) (q : PutRequest)
    (modeIsSet : Bool) : Good r rootIsDir (putContent who fd q modeIsSet) := by
  have hclose : ∀ err : Option (Errno × Option MetaOp), Good r rootIsDir (closeContent fd err) := by
    intro err
    refine Prog.Keeps.bind (good_close fd) ?_
    intro closed
    split <;> trivial
  refine Prog.Keeps.bind (good_pwriteAll hfd 0 q.data) ?_
  intro written
  rcases written with ⟨e, n⟩ | a
  · exact hclose (some (e, none))
  · exact Prog.Keeps.bind (good_applyMeta hfd _ _) fun _ => hclose _

theorem good_finishPut {q : PutRequest} {name : Bytes} (finalPath : Bytes)
    (hname : q.inplace = false → StrictlyConfined r name)
    (err : Option (Errno × Option MetaOp)) :
    Good r rootIsDir (finishPut q finalPath name err) := by
  cases err with
  | none => trivial
  | some p =>
    simp only [finishPut]
    split
    · rename_i hin
      refine Prog.Keeps.call (c := Call.unlink name) ?_ fun _ _ => good_logError _ _
      exact .inl (hname (by simpa using hin))
    · exact good_logError _ _

theorem good_putAt {q : PutRequest} {name target : Bytes} (finalPath : Bytes)
    (hname : Confined r name) (hstrict : q.inplace = false → StrictlyConfined r name)
    (htarget : Confined r target) : Good r rootIsDir (putAt cfg q finalPath name target) := by
  refine Prog.Keeps.call (c := Call.openFile name _ _) (.inr hname) ?_
  intro res hres
  cases res with
  | error e => exact good_logError _ e
  | ok fd =>
    obtain ⟨hpath, hne⟩ := hres fd rfl
    have hfd : r <+: resolve fd.path := by
      rw [hpath]
      exact hname.under hne
    refine Prog.Keeps.bind (good_putContent hfd q _) ?_
    intro err
    split
    · rename_i hgo
      have hin : q.inplace = false := by
        simp only [Bool.and_eq_true, Bool.not_eq_true'] at hgo
        exact hgo.2
      refine Prog.Keeps.call (c := Call.rename name target) ⟨hstrict hin, htarget⟩ ?_
      intro res _
      cases res with
      | error e => exact good_finishPut finalPath hstrict _
      | ok a => exact good_finishPut finalPath hstrict none
    · exact good_finishPut finalPath hstrict err

theorem good_handlePutfile (hr : ∀ c ∈ r, Ordinary c) (hroot : cfg.root = render r) {f : Frame}
    (htype : f.type = .putfile) (hnot : aims cfg.root rootIsDir f = false) :
    Good r rootIsDir (handlePutfile cfg f.payload) := by
  simp only [aims, htype] at hnot
  unfold handlePutfile
  cases hq : decodePutfile f.payload with
  | none => trivial
  | some q =>
    simp only [hq, Bool.and_eq_false_imp, Bool.not_eq_true'] at hnot
    refine good_resolved hr hroot (fun e => good_logError _ e) ?_
    intro norm parent hnorm t
    refine Prog.Keeps.bind_safe (t.ensure hr _) ?_
    intro err _
    cases err with
    | some e => exact good_logError _ e
    | none =>
      refine Prog.Keeps.call (c := Call.openDir _) trivial ?_
      intro opened _
      cases opened with
      | error e => exact good_logError _ e
      | ok a =>
        dsimp only
        split
        · rename_i hin
          exact good_putAt norm t.base_ok (fun h => by simp [hin] at h) t.base_ok
        · rename_i hin
          have hinside := inside_of_not_namesRoot hr hroot hnorm (hnot (by simpa using hin))
          refine Prog.Keeps.call (c := Call.nextSeq .put) trivial ?_
          intro seq _
          have hstrict := t.strict hinside (ordinary_tmpNamePut cfg.who.pid seq)
          exact good_putAt norm hstrict.confined (fun _ => hstrict) t.base_ok

theorem good_handleUnlink (hr : ∀ c ∈ r, Ordinary c) (hroot : cfg.root = render r)
    (htop : r = [] → rootIsDir = true) {f : Frame} (htype : f.type = .unlink)
    (hnot : aims cfg.root rootIsDir f = false) :
    Good r rootIsDir (handleUnlink cfg f.payload) := by
  simp only [aims, htype] at hnot
  unfold handleUnlink
  cases hq : decodePath f.payload with
  | none => trivial
  | some path =>
    simp only [hq, Bool.and_eq_false_imp, Bool.not_eq_true'] at hnot
    refine good_resolved hr hroot (fun _ => trivial) ?_
    intro norm parent hnorm t
    refine Prog.Keeps.call (c := Call.unlink norm) ?_ fun _ _ => trivial
    by_cases heq : resolve norm = r
    · cases hdir : rootIsDir with
      | true => exact .inr ⟨heq, rfl⟩
      | false =>
        have hin := inside_of_not_namesRoot hr hroot hnorm (hnot hdir)
        rw [hroot] at hnorm
        obtain ⟨rfl, -, -⟩ := resolvePath_eq_ok hr hnorm
        rw [resolve_render fun c hc => ordinary_of_mem_resolve hc] at heq
        rcases hin with hne | hnil
        · exact absurd (by rw [heq]) hne
        · rw [htop hnil] at hdir
          cases hdir
    · exact .inl (.inr ⟨t.norm_ok, heq⟩)

/-- A temporary name takes the place of the final one. -/
theorem good_renameOrDiscard {dir tmp base : Bytes} (logged : Bytes)
    (htmp : StrictlyConfined r (atDir dir tmp)) (hbase : Confined r (atDir dir base)) :
    Good r rootIsDir (renameOrDiscard dir tmp base logged) := by
  refine Prog.Keeps.call (c := Call.rename _ _) ⟨htmp, hbase⟩ ?_
  intro res _
  cases res with
  | ok a => trivial
  | error e =>
    refine Prog.Keeps.bind (good_logError _ _) fun _ => ?_
    exact Prog.Keeps.call (c := Call.unlink _) (.inl htmp) fun _ _ => trivial

theorem good_chownSymlink {who : Identity} {path : Bytes} (logged : Bytes) (uid gid : UInt32)
    (hpath : Confined r path) : Good r rootIsDir (chownSymlink who path logged uid gid) := by
  unfold chownSymlink
  split
  · trivial
  split
  split
  · trivial
  refine Prog.Keeps.call (c := Call.lchown path _ _) hpath ?_
  intro res _
  cases res with
  | ok a => trivial
  | error e =>
    dsimp only
    split
    · trivial
    · exact good_logError _ _

theorem good_handleSymlink (hr : ∀ c ∈ r, Ordinary c) (hroot : cfg.root = render r) {f : Frame}
    (htype : f.type = .symlink) (hnot : aims cfg.root rootIsDir f = false) :
    Good r rootIsDir (handleSymlink cfg f.payload) := by
  simp only [aims, htype] at hnot
  unfold handleSymlink
  cases hq : decodeSymlink f.payload with
  | none => trivial
  | some q =>
    simp only [hq] at hnot
    refine good_resolved hr hroot (fun e => good_logError _ e) ?_
    intro norm parent hnorm t
    have hinside := inside_of_not_namesRoot hr hroot hnorm hnot
    refine Prog.Keeps.bind_safe (t.ensure hr _) ?_
    intro err _
    cases err with
    | some e => exact good_logError _ e
    | none =>
      refine Prog.Keeps.call (c := Call.openDir _) trivial ?_
      intro opened _
      cases opened with
      | error e => exact good_logError _ e
      | ok a =>
        refine Prog.Keeps.call (c := Call.nextSeq .sym) trivial ?_
        intro seq _
        have hstrict := t.strict hinside (ordinary_tmpNameSym cfg.who.pid seq)
        refine Prog.Keeps.call (c := Call.symlink _ _) hstrict ?_
        intro made _
        cases made with
        | error e => exact good_logError _ e
        | ok a =>
          refine Prog.Keeps.bind (good_chownSymlink norm _ _ hstrict.confined) fun _ => ?_
          refine Prog.Keeps.call (c := Call.settings) trivial ?_
          intro settings _
          have hlast : Good r rootIsDir (renameOrDiscard _ _ _ norm) :=
            good_renameOrDiscard norm hstrict t.base_ok
          dsimp only
          split
          · exact Prog.Keeps.call (c := Call.lutimes _ _ _) hstrict.confined fun _ _ => hlast
          · exact hlast

theorem good_handleLink (hr : ∀ c ∈ r, Ordinary c) (hroot : cfg.root = render r) {f : Frame}
    (htype : f.type = .link) (hnot : aims cfg.root rootIsDir f = false) :
    Good r rootIsDir (handleLink cfg f.payload) := by
  simp only [aims, htype] at hnot
  unfold handleLink
  cases hq : decodeLink f.payload with
  | none => trivial
  | some q =>
    simp only [hq] at hnot
    refine good_resolved hr hroot (fun e => good_logError _ e) ?_
    intro primary _ hprimary tp
    refine good_resolved hr hroot (fun e => good_logError _ e) ?_
    intro norm parent hnorm t
    have hinside := inside_of_not_namesRoot hr hroot hnorm (by
      simpa [hprimary, Except.isOk, Except.toBool] using hnot)
    refine Prog.Keeps.bind_safe (t.ensure hr _) ?_
    intro err _
    cases err with
    | some e => exact good_logError _ e
    | none =>
      refine Prog.Keeps.call (c := Call.openDir _) trivial ?_
      intro opened _
      cases opened with
      | error e => exact good_logError _ e
      | ok a =>
        refine Prog.Keeps.call (c := Call.link _ _) ⟨.inr tp.norm_ok, t.base_ok⟩ ?_
        intro linked _
        dsimp only
        split
        · trivial
        · refine Prog.Keeps.bind (reads_sameInode _ _).good ?_
          intro same
          split
          · trivial
          · refine Prog.Keeps.call (c := Call.nextSeq .lnk) trivial ?_
            intro seq _
            have hstrict := t.strict hinside (ordinary_tmpNameLnk cfg.who.pid seq)
            refine Prog.Keeps.call (c := Call.link _ _) ⟨.inr tp.norm_ok, hstrict.confined⟩ ?_
            intro linked _
            cases linked with
            | error e => exact good_logError _ e
            | ok a => exact good_renameOrDiscard norm hstrict t.base_ok
        · exact good_logError _ _

theorem good_discardFiles {files : List OpenFile} (h : ∀ f ∈ files, FileOk r rootIsDir f) :
    Good r rootIsDir (discardFiles files) := by
  induction files with
  | nil => trivial
  | cons f files ih =>
    have hrest := ih fun g hg => h g (List.mem_cons_of_mem f hg)
    have hf := h f List.mem_cons_self
    have hunlink : Good r rootIsDir (do
        if !f.inplace && f.tmpPath ≠ [] then
          let _ ← Sys.unlink f.tmpPath
        discardFiles files) := by
      split
      · rename_i hgo
        have hin : f.inplace = false := by
          simp only [Bool.and_eq_true, Bool.not_eq_true'] at hgo
          exact hgo.1
        exact Prog.Keeps.bind (good_unlink_tmp hf hin) fun _ => hrest
      · exact hrest
    unfold discardFiles
    dsimp only
    split
    · exact Prog.Keeps.bind (good_close _) fun _ => hunlink
    · exact hunlink

theorem good_cleanup : Good r rootIsDir cleanup := by
  refine Prog.Keeps.call (c := Call.takeFiles) trivial ?_
  intro files hfiles
  exact Prog.Keeps.bind (good_discardFiles hfiles) fun _ => trivial

theorem good_silent {m : Handler Unit} (h : Good r rootIsDir m) : Good r rootIsDir (silent m) :=
  Prog.Keeps.bind h fun _ => trivial

theorem good_answering {m : Handler Frame} (h : Good r rootIsDir m) :
    Good r rootIsDir (answering m) :=
  Prog.Keeps.bind h fun _ => trivial

/-- Every frame that does not aim out of the root is handled inside it. -/
theorem good_handle (hr : ∀ c ∈ r, Ordinary c) (hroot : cfg.root = render r)
    (htop : r = [] → rootIsDir = true) {f : Frame} (hnot : aims cfg.root rootIsDir f = false) :
    Good r rootIsDir (handle cfg f) := by
  unfold handle
  split
  · exact good_answering (reads_handleHello _ _).good
  · rename_i htype
    exact good_silent (good_handleOpen hr hroot htype hnot)
  · exact good_silent (good_handleWrite _)
  · exact good_silent (good_handleFtruncate _)
  · exact good_answering (good_handleCommit _ _)
  · exact good_silent (good_handleAbort _)
  · rename_i htype
    exact good_silent (good_handlePutfile hr hroot htype hnot)
  · exact good_silent (good_handleMkdir hr hroot _)
  · exact good_answering (reads_handleStat _ _).good
  · exact good_answering (reads_handleStatBulk _ _).good
  · exact good_silent (good_handleSetmeta hr hroot _)
  · exact good_silent (reads_handleVerifyPath _).good
  · exact good_answering (reads_handleBarrier _ _).good
  · rename_i htype
    exact good_silent (good_handleUnlink hr hroot htop htype hnot)
  · rename_i htype
    exact good_silent (good_handleSymlink hr hroot htype hnot)
  · rename_i htype
    exact good_silent (good_handleLink hr hroot htype hnot)
  all_goals trivial

end Handlers

end Ecopy.Server
