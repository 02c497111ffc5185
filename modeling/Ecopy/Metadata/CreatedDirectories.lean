import Ecopy.Metadata.DirStages

/-!
# The modes of the directories that a copy makes

Every directory of the walk gets the mode of its source at the end. The directories on the way to
the destination root do not belong to the walk: they keep the mode they were made with, `0777`.
-/
namespace Ecopy.Metadata.DirMakers
open Protocol Ecopy.Path FileSystem Server Lib.Calls Lib.Runs
open Traversal (Maker Roots View)

section Modes
variable {n : ℕ} {S : Setup n} {s : State n} {l : Loc} {i : ℕ}

/-- Every directory that was not there before has the permission bits of its counterpart, or it has
none and no bit that the source root lacks. -/
def SourceModes (S : Setup n) (fs : Fs) : Prop :=
  ∀ l i, DirSteps.DirAt fs l i → S.base.isDir l = false →
    match S.plan.want l with
    | some mode => bits (fs.node i).mode = mode
    | none => bits (fs.node i).mode &&& ~~~S.top.mode = 0

/-- No directory is missing on the way to the destination root but such that have a counterpart,
as the root itself has. -/
def Setup.WayThere (S : Setup n) : Prop :=
  ∀ l ∈ S.way, S.base.entry l = none → (S.plan.want l).isSome = true

theorem Setup.base_tree (S : Setup n) : S.base.Tree := by
  unfold Setup.base
  split
  · exact S.client.tree
  · assumption

theorem lacks_no_bit (mode : UInt32) : (0x1FF : UInt32) &&& ~~~mode = 0 ↔ bits mode = 0x1FF := by
  unfold bits
  constructor
  · intro h
    have hsplit : (0x1FF : UInt32) &&& (mode ||| ~~~mode) =
        (0x1FF &&& mode) ||| (0x1FF &&& ~~~mode) :=
      UInt32.toBitVec_inj.mp BitVec.and_or_distrib_left
    rw [UInt32.or_not_self, UInt32.and_neg_one, h, UInt32.or_zero, UInt32.and_comm] at hsplit
    exact hsplit.symm
  · intro h
    rw [← h, UInt32.and_comm mode, UInt32.and_assoc, UInt32.and_not_self, UInt32.and_zero]

/-- What is known when a run has succeeded. -/
theorem underway_of_succeeded (h : Stage S s) (hok : s.succeeded) :
    Underway S s ∧ ∀ rel, (S.source.lookup rel).isSome = true →
      Settled S.plan s.shared (S.root ++ rel) := by
  obtain ⟨hphase, herr⟩ := hok
  unfold Stage at h
  split at hphase
  · rename_i hfinished
    rw [hfinished] at h
    obtain ⟨hway, hcomplete, hdone⟩ := h.2 hphase
    refine ⟨hway, fun rel hrel => ?_⟩
    obtain ⟨e, he, hkey⟩ := List.lookup_isSome_iff.mp hrel
    obtain ⟨r, hr, heq⟩ := hcomplete e he
    rw [beq_iff_eq.mp hkey, ← heq]
    rcases hdone r hr with ⟨c, hc⟩ | hset
    · exact absurd (herr c) hc
    · exact hset
  · exact hphase.elim

theorem want_eq_some {mode : UInt32} (h : S.plan.want l = some mode) :
    ∃ rel, l = S.root ++ rel ∧ (S.source.lookup rel).isSome = true := by
  by_cases hin : S.root <+: l
  · obtain ⟨rel, rfl⟩ := hin
    refine ⟨rel, rfl, ?_⟩
    rw [want_append] at h
    obtain ⟨m, hm, -⟩ := Option.map_eq_some_iff.mp h
    rw [hm]
    rfl
  · have hnone : S.plan.want l = none := if_neg hin
    rw [hnone] at h
    cases h

/-- A directory that the run has made has the right mode, or it was made on the way. -/
theorem created_cases (h : Underway S s)
    (hset : ∀ rel, (S.source.lookup rel).isSome = true → Settled S.plan s.shared (S.root ++ rel))
    (hi : DirSteps.DirAt s.shared.fs l i) (hnew : S.base.isDir l = false) :
    S.plan.want l = some (bits (s.shared.fs.node i).mode) ∨
      S.plan.want l = none ∧ l ∈ S.way ∧ S.base.entry l = none ∧
        bits (s.shared.fs.node i).mode = 0x1FF := by
  obtain ⟨s₀, hpaved, -, hsince⟩ := h.since
  rcases hsince.fresh l i hi with hold | ⟨hnext, rel, hrel, rfl⟩
  · rcases hpaved.fresh l i hold.1 with hbase | ⟨hnext, hway, hnone, -, hmode⟩
    · have hdir : (S.base.node i).isDir = true :=
        (hpaved.kinds i (S.base_tree.bounded l i hbase)).symm.trans hold.2
      rw [Fs.isDir_iff_entry.mpr ⟨i, hbase, hdir⟩] at hnew
      cases hnew
    · cases hwant : S.plan.want l with
      | some mode =>
        left
        obtain ⟨rel, rfl, hrel⟩ := want_eq_some hwant
        rw [← hwant]
        exact hset rel hrel i hnext hi
      | none =>
        right
        refine ⟨rfl, hway, hnone, ?_⟩
        rcases hsince.mode l i hnext hold with heq | hright
        · rw [heq]
          exact hmode
        · unfold Plan.Right at hright
          rw [hwant] at hright
          cases hright
  · left
    exact hset rel (h.begun rel hrel) i hnext hi

/-- What is missing on the way is made. -/
theorem created_on_way (h : Underway S s) (hl : l ∈ S.way) (hnone : S.base.entry l = none) :
    S.base.isDir l = false ∧ ∃ i, DirSteps.DirAt s.shared.fs l i := by
  obtain ⟨s₀, hpaved, hall, hsince⟩ := h.since
  refine ⟨DirSteps.isDir_eq_false_of_none hnone, ?_⟩
  obtain ⟨i, hi⟩ := Option.ne_none_iff_exists'.mp (hall l hl)
  rcases hpaved.fresh l i hi with hbase | ⟨-, -, -, hdir, -⟩
  · rw [hnone] at hbase
    cases hbase
  · exact ⟨i, hsince.kept l i ⟨hi, hdir⟩⟩

/-- When a copy has succeeded, all directories that it made have modes of the source exactly when
nothing was missing on the way to the destination root, or the source root has all bits itself. -/
theorem created_directories_exact (S : Setup n) {as : List (Action n)} {s : State n}
    (hrun : exec (next S) S.start as = some s) (hok : s.succeeded) :
    SourceModes S s.shared.fs ↔ S.WayThere ∨ bits S.top.mode = 0x1FF := by
  have hstage : Stage S s :=
    Reachable.invariant ⟨as, hrun⟩ (stage_start S) fun _ _ _ => next_stage
  obtain ⟨hway, hset⟩ := underway_of_succeeded hstage hok
  constructor
  · intro hmodes
    by_contra hnot
    obtain ⟨hmissing, hbits⟩ := not_or.mp hnot
    unfold Setup.WayThere at hmissing
    push Not at hmissing
    obtain ⟨l, hl, hnone, hwant⟩ := hmissing
    obtain ⟨hnew, i, hi⟩ := created_on_way hway hl hnone
    rcases created_cases hway hset hi hnew with hsome | ⟨hwant, -, -, hmode⟩
    · rw [hsome] at hwant
      exact hwant rfl
    · have hmodes' := hmodes l i hi hnew
      rw [hwant] at hmodes'
      dsimp only at hmodes'
      rw [hmode] at hmodes'
      exact hbits ((lacks_no_bit _).mp hmodes')
  · intro hcond l i hi hnew
    rcases created_cases hway hset hi hnew with hsome | ⟨hwant, hl, hnone, hmode⟩
    · rw [hsome]
    · rw [hwant]
      dsimp only
      rw [hmode, lacks_no_bit]
      refine hcond.resolve_left fun hthere => ?_
      have hsome := hthere l hl hnone
      rw [hwant] at hsome
      cases hsome

end Modes

-- `/s` is copied to `/a/b`, and `/a` is missing.
def sourceFs (mode : UInt32) : Fs :=
  Fs.flat [([115], 1)] (fun _ => ⟨.directory, mode, 0, 0, (0, 0), (0, 0)⟩) 2

def sourceView (mode : UInt32) : View :=
  .free (sourceFs mode) (Fs.flat_tree rfl (by decide) (by simp))

/-- The superuser, with the umask `022`. -/
def shell : Maker := ⟨⟨0, 0, [], 1⟩, 0x12, fun _ _ => none⟩

def plainTuning : Workers.SmallCopy.Tuning :=
  ⟨false, false, 0, false, 1, 0, false, false, false, Nat.one_pos⟩

/-- `ecopy /s /a/b` -/
def deepSetup (mode : UInt32) : Setup 1 where
  client := sourceView mode
  cwd := none
  src := [slash, 115]
  top := ⟨0, 0, mode, (0, 0), (0, 0)⟩
  below := []
  destination := .path shell plainTuning [slash, 97, slash, 98]

def madeDir : Node := newNode shell.who .directory 0x1FF

def rootsMade (mode : UInt32) : Fs :=
  ((sourceFs mode).create [[97]] madeDir).create [[97], [98]] madeDir

/-- The loop looks at `/a/b`, at `/a` and at `/`. -/
theorem deepSetup_destination (mode : UInt32) :
    Traversal.toCanonicalRequestedDirPath (sourceView mode) none [slash, 97, slash, 98] pathMax =
      .ok [slash, 97, slash, 98] := by
  have habs : Traversal.toAbsPath none [slash, 97, slash, 98] pathMax =
      some [slash, 97, slash, 98] := Traversal.toAbsPath_of_ne rfl (by decide) (by decide)
  have hnormal : normalizeAbsPathLexically [slash, 97, slash, 98] pathMax =
      .ok [slash, 97, slash, 98] := rfl
  have hloop : ∀ probe rest suffix longer k, (sourceView mode).stat probe = .error .enoent →
      (sourceView mode).lstat probe = .error .enoent → probe ≠ [slash] →
      Lib.CStrings.strrchr slash probe = some k → probe.drop (k + 1) ≠ [] →
      Traversal.prependSuffixComponent suffix pathMax (probe.drop (k + 1)) = some longer →
      (if k = 0 then probe.take 1 else probe.take k) = rest →
      Traversal.requestedLoop (sourceView mode) [slash, 97, slash, 98] pathMax probe suffix =
        Traversal.requestedLoop (sourceView mode) [slash, 97, slash, 98] pathMax rest longer := by
    intro probe rest suffix longer k hstat hlstat hne hcut hdrop hlonger hrest
    rw [Traversal.requestedLoop, hstat]
    dsimp only
    rw [if_neg (by decide), hlstat]
    dsimp only
    rw [if_neg (by decide), if_neg hne, hcut]
    dsimp only
    rw [if_neg hdrop, hlonger]
    dsimp only
    rw [hrest]
  unfold Traversal.toCanonicalRequestedDirPath
  rw [habs]
  dsimp only
  rw [hnormal]
  dsimp only
  rw [if_neg (by decide)]
  rw [hloop [slash, 97, slash, 98] [slash, 97] [] [98] 2 rfl rfl (by decide) rfl (by decide) rfl rfl]
  rw [hloop [slash, 97] [slash] [98] [97, slash, 98] 0 rfl rfl (by decide) rfl (by decide) rfl rfl]
  rw [Traversal.requestedLoop]
  rfl

theorem deepSetup_local (mode : UInt32) :
    (deepSetup mode).localStart shell [slash, 97, slash, 98] =
      (rootsMade mode, some (⟨[slash, 115], [slash, 97, slash, 98]⟩, true)) := by
  have hsrc : Traversal.toCanonicalDirPath (sourceView mode) none [slash, 115] pathMax =
      some [slash, 115] := by
    have habs : Traversal.toAbsPath none [slash, 115] pathMax = some [slash, 115] :=
      Traversal.toAbsPath_of_ne rfl (by decide) (by decide)
    unfold Traversal.toCanonicalDirPath
    rw [habs]
    rfl
  have hdst : Traversal.canonicalDst (sourceView mode) none false [slash, 97, slash, 98] =
      some [slash, 97, slash, 98] := congrArg Except.toOption (deepSetup_destination mode)
  have habs : Traversal.toAbsPath none [slash, 97, slash, 98] pathMax =
      some [slash, 97, slash, 98] := Traversal.toAbsPath_of_ne rfl (by decide) (by decide)
  have hmade : Traversal.ensureDestinationRoot { shell with umask := 0 } (sourceFs mode) none
      [slash, 97, slash, 98] = (rootsMade mode, .ok true) := by
    unfold Traversal.ensureDestinationRoot
    rw [habs]
    rfl
  change Traversal.localRoots { shell with umask := 0 } (sourceView mode) none false [slash, 115]
    [slash, 97, slash, 98] = _
  unfold Traversal.localRoots
  rw [hsrc]
  dsimp only
  rw [hdst]
  dsimp only
  rw [if_neg (by decide), if_neg (by decide)]
  have hview : (sourceView mode).fs = sourceFs mode := rfl
  rw [hview, hmade]

/-- The one connection. -/
def client : Fin 1 := ⟨0, Nat.one_pos⟩

/-- The client makes the roots and sets the mode of `/a/b`, which is there. -/
def deepRun : List (Action 1) :=
  [.begin 0 client, .advance 0 success, .advance 0 success, .ended 0, .finalize, .settle 0 client [],
    .advance 0 success, .advance 0 success, .advance 0 success, .ended 0, .finish]

theorem deepSetup_start (mode : UInt32) : (deepSetup mode).start =
    copying (blank (rootsMade mode)) (fun _ => none) [slash, 115] [slash, 97, slash, 98] :=
  start_local rfl (deepSetup_local mode)

theorem deepSetup_root (mode : UInt32) : (deepSetup mode).root = [[97], [98]] := by
  rw [root_local rfl (deepSetup_local mode)]
  rfl

/-- How the run ends. -/
def State.summary (s : State 1) : Bool × Bool × List (Bytes × Errno) :=
  ((match s.phase with
    | .finished => true
    | _ => false), s.failed, (s.shared.mem client).errors)

theorem succeeded_of_summary {s : State 1} (h : s.summary = (true, false, [])) : s.succeeded := by
  unfold State.summary at h
  obtain ⟨hphase, hrest⟩ := Prod.mk.inj h
  obtain ⟨hfailed, herr⟩ := Prod.mk.inj hrest
  refine ⟨?_, fun c => by rw [Subsingleton.elim c client]; exact herr⟩
  cases hs : s.phase with
  | finished => exact hfailed
  | _ =>
    rw [hs] at hphase
    cases hphase

/-- A source root that all may write to has no bit less. -/
theorem deep_copy_shared : ∃ s, exec (next (deepSetup 0x1FF)) (deepSetup 0x1FF).start deepRun = some s ∧
    s.succeeded ∧ SourceModes (deepSetup 0x1FF) s.shared.fs := by
  have hrun : ((exec (next (deepSetup 0x1FF)) (deepSetup 0x1FF).start deepRun).map State.summary) =
      some (true, false, []) := by
    rw [deepSetup_start]
    decide +kernel
  obtain ⟨s, hs, hsummary⟩ := Option.map_eq_some_iff.mp hrun
  have hok := succeeded_of_summary hsummary
  exact ⟨s, hs, hok, (created_directories_exact _ hs hok).mpr (.inr (by decide))⟩

/-- From a source root of mode `0700`, `/a` is left with `0777`. -/
theorem deep_copy_open : ¬ ∀ (as : List (Action 1)) (s : State 1),
    exec (next (deepSetup 0x1C0)) (deepSetup 0x1C0).start as = some s → s.succeeded →
      SourceModes (deepSetup 0x1C0) s.shared.fs := by
  intro h
  have hrun : ((exec (next (deepSetup 0x1C0)) (deepSetup 0x1C0).start deepRun).map State.summary) =
      some (true, false, []) := by
    rw [deepSetup_start]
    decide +kernel
  have hfound : ((exec (next (deepSetup 0x1C0)) (deepSetup 0x1C0).start deepRun).map fun s =>
      (s.shared.fs.entry [[97]], (s.shared.fs.node 2).isDir, (s.shared.fs.node 2).mode)) =
      some (some 2, true, 0x1FF) := by
    rw [deepSetup_start]
    decide +kernel
  obtain ⟨s, hs, hsummary⟩ := Option.map_eq_some_iff.mp hrun
  rw [hs] at hfound
  obtain ⟨hentry, hrest⟩ := Prod.mk.inj (Option.some.inj hfound)
  obtain ⟨hdir, hmode⟩ := Prod.mk.inj hrest
  have hmodes := h _ s hs (succeeded_of_summary hsummary) [[97]] 2 ⟨hentry, hdir⟩ rfl
  have hwant : (deepSetup 0x1C0).plan.want [[97]] = none := by
    refine if_neg ?_
    change ¬ (deepSetup 0x1C0).root <+: _
    rw [deepSetup_root]
    decide
  rw [hwant] at hmodes
  dsimp only at hmodes
  rw [hmode] at hmodes
  revert hmodes
  decide

end Ecopy.Metadata.DirMakers
