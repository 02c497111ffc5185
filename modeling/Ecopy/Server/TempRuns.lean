import Ecopy.Server.ConfinedRuns
import Ecopy.Server.TempTable

/-!
# No temporary file outlives the server

The invariant of a run: every temporary file that the server has created is in the
table of open files, or a job that is under way will remove or rename it. At the end of
the input the table is emptied and its temporary files are removed; after `BYE` it is
not, so that a file which is in the table then keeps its temporary name. An entry whose
open has failed can have one too: `handle_open` does not remove what an open with direct
I/O leaves behind before it tries again.
-/
namespace Ecopy.Server
open Protocol Ecopy.Path FileSystem Lib.Calls Lib.Runs

/-- The path that a frame asks the server to create. -/
def createdPath (f : Frame) : Option Bytes :=
  match f.type with
  | .open => (decodeOpen f.payload).map (·.path)
  | .putfile => (decodePutfile f.payload).map (·.path)
  | .mkdir => (decodeMkdir f.payload).map (·.1)
  | .symlink => (decodeSymlink f.payload).map (·.path)
  | .link => (decodeLink f.payload).map (·.2)
  | _ => none

/-- The next call of a program is answered obligingly. -/
def obligingStep (w : World) (x : Choice) : Handler (Option Frame) → Bool
  | .ret _ => true
  | .call c _ => obliging w.fs x c

/-- The condition on the steps of a run: no frame asks for a reserved name, `BYE` comes
only when no file of the table has its temporary name any more, and calls are answered
obligingly. -/
def leavesNoTemp (s : Process) : Action → Bool
  | .receive f =>
    (createdPath f).all unreserved && (f.type != .bye ||
      s.world.files.all fun g => g.inplace || !s.world.fs.isFile (resolve g.tmpPath))
  | .job i x =>
    match s.jobs[i]? with
    | some m => obligingStep s.world x m
    | none => true
  | .inline x =>
    match s.inline with
    | some m => obligingStep s.world x m
    | none => true
  | _ => true

section Frames
variable {N : Loc → Prop} {fs₀ : Fs} {who : Identity} {cfg : Config} {w v : World} {x : Choice}
  {f : Frame}

/-- The frames whose handlers work on entries of the table. -/
def usesTable : MsgType → Bool
  | .write | .ftruncate | .commit | .abort => true
  | _ => false

theorem unreserved_of_createdPath {path : Bytes} (h : (createdPath f).all unreserved = true)
    (hp : createdPath f = some path) : unreserved path = true := by
  simpa [hp] using h

theorem neat_handle (h : (createdPath f).all unreserved = true) (ht : usesTable f.type = false) :
    Neat N (handle cfg f) := by
  unfold handle
  split
  · exact neat_answering (reads_handleHello _ _).calms.neat
  · rename_i htype
    refine neat_silent (neat_handleOpen fun q hq => unreserved_of_createdPath h ?_)
    simp [createdPath, htype, hq]
  · rename_i htype
    simp [usesTable, htype] at ht
  · rename_i htype
    simp [usesTable, htype] at ht
  · rename_i htype
    simp [usesTable, htype] at ht
  · rename_i htype
    simp [usesTable, htype] at ht
  · rename_i htype
    refine neat_silent (neat_handlePutfile fun q hq => unreserved_of_createdPath h ?_)
    simp [createdPath, htype, hq]
  · rename_i htype
    refine neat_silent (neat_handleMkdir fun path mode hq => unreserved_of_createdPath h ?_)
    simp [createdPath, htype, hq]
  · exact neat_answering (reads_handleStat _ _).calms.neat
  · exact neat_answering (reads_handleStatBulk _ _).calms.neat
  · exact neat_silent (calms_handleSetmeta _).neat
  · exact neat_silent (reads_handleVerifyPath _).calms.neat
  · exact neat_answering (reads_handleBarrier _ _).calms.neat
  · exact neat_silent (neat_handleUnlink _)
  · rename_i htype
    refine neat_silent (neat_handleSymlink fun q hq => unreserved_of_createdPath h ?_)
    simp [createdPath, htype, hq]
  · rename_i htype
    refine neat_silent (neat_handleLink fun primary path hq => unreserved_of_createdPath h ?_)
    simp [createdPath, htype, hq]
  all_goals trivial

theorem Neat.alone {m : Handler (Option Frame)} (hm : Neat N m) (hw : Kept N fs₀ w) :
    m.Alone (answerObliging who) (fun v _ => Kept N fs₀ v) w := by
  have hrun : m.Alone (answerObliging who)
      (fun v _ => Orderly N v ∧ ∀ l, Stray fs₀ v l → False) w :=
    Prog.Dutiful.alone (fun _ _ _ _ _ => answer_temp fs₀) hw.orderly hm
      fun l hl => (hw.none l hl).elim
  exact hrun.mono fun v _ hv => ⟨hv.1, hv.2⟩

/-- A frame that the reader handles alone. -/
theorem alone_handle (hwho : cfg.who = who) (h : (createdPath f).all unreserved = true)
    (hw : Kept N fs₀ w) :
    (handle cfg f).Alone (answerObliging who) (fun v _ => Kept N fs₀ v) w := by
  by_cases ht : usesTable f.type = true
  · unfold handle
    split
    case h_3 => exact (alone_handleWrite _ hw).bind fun v _ hv => hv
    case h_4 => exact (alone_handleFtruncate _ hw).bind fun v _ hv => hv
    case h_5 => exact (alone_handleCommit hwho _ _ hw).bind fun v _ hv => hv
    case h_6 => exact (alone_handleAbort _ hw).bind fun v _ hv => hv
    all_goals
      rename_i htype
      simp [usesTable, htype] at ht
  · exact (neat_handle h (Bool.eq_false_iff.mpr ht)).alone hw

/-- A step that is answered obligingly. -/
theorem advance_obliging {m m' : Handler (Option Frame)} (hx : obligingStep w x m = true)
    (h : Prog.advance (answer who) (nextWorld who w x m) x m = some (v, m')) :
    Prog.advance (answerObliging who) w x m = some (v, m') := by
  rw [advance_nextWorld] at h
  cases m with
  | ret a => cases h
  | call c k =>
    have hc : obliging w.fs x c = true := hx
    simpa [Prog.advance, answerObliging, hc] using h

end Frames

/-- The calls before the main loop. -/
def Boots : Call → Prop
  | .mkdir _ _ | .lstat _ => True
  | _ => False

section Start
variable {fs₀ : Fs} {who : Identity} {w v : World} {x : Choice}

theorem boots_mkdirAll (ps : List Bytes) : (mkdirAll ps).Keeps Boots fun _ _ => True := by
  induction ps with
  | nil => trivial
  | cons p ps ih =>
    refine Prog.Keeps.call (c := Call.mkdir p 0x1FF) trivial ?_
    intro res _
    cases res with
    | ok a => exact ih
    | error e =>
      cases e with
      | eexist => exact ih
      | _ => trivial

theorem boots_serverStart (root : Bytes) (readOnly : Bool) :
    (serverStart root readOnly).Keeps Boots fun _ _ => True := by
  have hend : ∀ (present ready : Bool),
      (servedRoot root present ready).Keeps Boots fun _ _ => True := by
    intro present ready
    unfold servedRoot
    split
    · trivial
    · split <;> trivial
  have hmkdirP : (mkdirP root).Keeps Boots fun _ _ => True := by
    unfold mkdirP
    split
    · trivial
    · exact boots_mkdirAll _
  unfold serverStart
  split
  · trivial
  refine Prog.Keeps.call (c := Call.lstat root) trivial ?_
  intro res _
  dsimp only
  split
  · exact hend _ _
  · exact Prog.Keeps.bind hmkdirP fun r => hend _ _

/-- Before the main loop the server only creates directories. -/
structure Unused (fs₀ : Fs) (w : World) : Prop where
  tree : w.fs.Tree
  files : w.files = []
  none : ∀ l, ¬ Stray fs₀ w l

theorem Unused.answer {c : Call} {r : c.Result} (hw : Unused fs₀ w) (hc : Boots c)
    (h : Server.answer who w x c = some (r, v)) : True ∧ Unused fs₀ v := by
  refine ⟨trivial, ?_⟩
  cases c with
  | mkdir p mode =>
    rcases answer_mkdir h with ⟨e, -, rfl⟩ | ⟨fs, -, hadd, rfl⟩
    · exact hw
    refine ⟨hw.tree.add hadd, hw.files, fun l hl => ?_⟩
    obtain ⟨-, rfl⟩ := add_eq_ok hadd
    have hne : l ≠ resolve p := by
      rintro rfl
      have := hl.file
      simp [Fs.isFile, Fs.create, newNode, Node.isDir] at this
    have hP : ¬ (l = resolve p ∧ w.fs.entry l = Option.none) := fun hk => hne hk.1
    refine hw.none l (hl.back ?_ ((Fs.within_add hadd).entry l hP) fun _ hk => hk)
    rw [← Fs.Within.isFile (Fs.within_add hadd) hw.tree.bounded hP]
    exact hl.file
  | lstat p =>
    obtain rfl := query_eq (Option.some.inj h)
    exact hw
  | _ => exact hc.elim

/-- The main loop starts without any duty. -/
theorem Unused.kept (hw : Unused fs₀ w) (t : List Bytes) :
    Kept (fun l => w.fs.isDir l = false) fs₀ { w with touched := t } where
  orderly := ⟨hw.tree, by simp, by simp [hw.files]⟩
  none l hl := hw.none l ⟨hl.temp, hl.file, hl.new, hl.lost⟩

end Start

section Runs
variable {host : Host} {fs₀ : Fs} {s u : Process} {a : Action}

/-- Every temporary file is in the table, or some job disposes of it. -/
structure Covered (N : Loc → Prop) (fs₀ : Fs) (s : Process) : Prop where
  orderly : Orderly N s.world
  neat : ∀ m ∈ s.jobs, Neat N m
  covered : ∀ l, Stray fs₀ s.world l → ∃ m ∈ s.jobs, m.Discharges tempDuty l

/-- The program of the reader, which runs alone, leads to `post`. -/
def Finishes (host : Host) (s : Process) (m : Handler (Option Frame)) (post : World → Prop) : Prop :=
  s.jobs = [] ∧ m.Alone (answerObliging host.who) (fun v _ => post v) s.world

def TempInv (host : Host) (fs₀ : Fs) (s : Process) : Prop :=
  match s.phase, s.inline with
  | .starting m, i => Unused fs₀ s.world ∧ s.jobs = [] ∧ i = none ∧ m.Keeps Boots fun _ _ => True
  | .serving cfg, none => cfg.who = host.who ∧ ∃ N, Covered N fs₀ s
  | .serving cfg, some m => cfg.who = host.who ∧ ∃ N, Finishes host s m (Kept N fs₀)
  | .ended, none => s.jobs = [] ∧ Clean fs₀ s.world
  | .ended, some m => Finishes host s m (Clean fs₀)

variable {N : Loc → Prop} {m : Handler (Option Frame)}

theorem Covered.kept (h : Covered N fs₀ s) (hj : s.jobs = []) : Kept N fs₀ s.world := by
  refine ⟨h.orderly, fun l hl => ?_⟩
  obtain ⟨m, hm, -⟩ := h.covered l hl
  rw [hj] at hm
  cases hm

theorem Covered.of_kept (h : Kept N fs₀ s.world) (hj : s.jobs = []) : Covered N fs₀ s :=
  ⟨h.orderly, by simp [hj], fun l hl => (h.none l hl).elim⟩

/-- A job makes a call. -/
theorem Covered.job {i : ℕ} {x : Choice} {m' : Handler (Option Frame)} {w : World}
    (h : Covered N fs₀ s) (hm : s.jobs[i]? = some m)
    (hadv : Prog.advance (answerObliging host.who) s.world x m = some (w, m')) :
    Covered N fs₀ { s with world := w, jobs := s.jobs.set i m' } := by
  obtain ⟨ho, hneat, hdue⟩ := Prog.dutiful_advance (fun _ _ _ _ _ => answer_temp fs₀) h.orderly
    (h.neat m (List.mem_of_getElem? hm)) hadv
  have hi : i < s.jobs.length := (List.getElem?_eq_some_iff.mp hm).1
  refine ⟨ho, fun k hk => ?_, fun l hl => ?_⟩
  · rcases List.mem_or_eq_of_mem_set hk with hk | rfl
    · exact h.neat k hk
    · exact hneat
  · rcases hdue l hl with ⟨hold, hnot⟩ | hnew
    · obtain ⟨k, hk, hdis⟩ := h.covered l hold
      obtain ⟨j, hj⟩ := List.mem_iff_getElem?.mp hk
      have hji : i ≠ j := by
        rintro rfl
        rw [hm] at hj
        exact hnot (Option.some.inj hj ▸ hdis)
      exact ⟨k, List.mem_iff_getElem?.mpr ⟨j, by rw [List.getElem?_set_ne hji, hj]⟩, hdis⟩
    · exact ⟨m', List.mem_iff_getElem?.mpr ⟨i, by simp [hi]⟩, hnew⟩

/-- A job that has ended has no duty left. -/
theorem Covered.jobDone {i : ℕ} {reply : Option Frame} (h : Covered N fs₀ s)
    (hm : s.jobs[i]? = some (.ret reply)) : Covered N fs₀ { s with jobs := s.jobs.eraseIdx i } := by
  refine ⟨h.orderly, fun k hk => h.neat k (List.mem_of_mem_eraseIdx hk), fun l hl => ?_⟩
  obtain ⟨k, hk, hdis⟩ := h.covered l hl
  obtain ⟨j, hj⟩ := List.mem_iff_getElem?.mp hk
  have hji : j ≠ i := by
    rintro rfl
    rw [hm] at hj
    rw [← Option.some.inj hj] at hdis
    exact hdis.elim
  exact ⟨k, List.mem_eraseIdx_iff_getElem?.mpr ⟨j, hji, hj⟩, hdis⟩

theorem tempInv_starting {m : Handler (Option (Bytes × Bool))} (hp : s.phase = .starting m) :
    TempInv host fs₀ s ↔
      Unused fs₀ s.world ∧ s.jobs = [] ∧ s.inline = none ∧ m.Keeps Boots fun _ _ => True := by
  simp only [TempInv, hp]

theorem tempInv_serving {cfg : Config} (hp : s.phase = .serving cfg) (hi : s.inline = none) :
    TempInv host fs₀ s ↔ cfg.who = host.who ∧ ∃ N, Covered N fs₀ s := by
  simp only [TempInv, hp, hi]

theorem tempInv_handling {cfg : Config} (hp : s.phase = .serving cfg) (hi : s.inline = some m) :
    TempInv host fs₀ s ↔ cfg.who = host.who ∧ ∃ N, Finishes host s m (Kept N fs₀) := by
  simp only [TempInv, hp, hi]

theorem tempInv_ended (hp : s.phase = .ended) (hi : s.inline = none) :
    TempInv host fs₀ s ↔ s.jobs = [] ∧ Clean fs₀ s.world := by
  simp only [TempInv, hp, hi]

theorem tempInv_cleaning (hp : s.phase = .ended) (hi : s.inline = some m) :
    TempInv host fs₀ s ↔ Finishes host s m (Clean fs₀) := by
  simp only [TempInv, hp, hi]

/-- Jobs are only there while the reader waits for frames. -/
theorem TempInv.of_job {i : ℕ} (h : TempInv host fs₀ s) (hm : s.jobs[i]? = some m) :
    ∃ cfg, s.phase = .serving cfg ∧ s.inline = none ∧ cfg.who = host.who ∧ ∃ N, Covered N fs₀ s := by
  have hne : s.jobs ≠ [] := by
    intro hnil
    simp [hnil] at hm
  cases hp : s.phase with
  | starting k => exact absurd ((tempInv_starting hp).mp h).2.1 hne
  | serving cfg =>
    cases hi : s.inline with
    | none =>
      obtain ⟨hwho, hN⟩ := (tempInv_serving hp hi).mp h
      exact ⟨cfg, rfl, rfl, hwho, hN⟩
    | some k =>
      obtain ⟨-, N, hjobs, -⟩ := (tempInv_handling hp hi).mp h
      exact absurd hjobs hne
  | ended =>
    cases hi : s.inline with
    | none => exact absurd ((tempInv_ended hp hi).mp h).1 hne
    | some k => exact absurd ((tempInv_cleaning hp hi).mp h).1 hne

theorem TempInv.receive {f : Frame} {cfg : Config} (hp : s.phase = .serving cfg)
    (hi : s.inline = none) (h : TempInv host fs₀ s)
    (hok : leavesNoTemp s (.receive f) = true) (hs : nextDirect host s (.receive f) = some u) :
    TempInv host fs₀ u := by
  obtain ⟨hwho, N, hc⟩ := (tempInv_serving hp hi).mp h
  simp only [leavesNoTemp, Bool.and_eq_true] at hok
  simp only [nextDirect, Process.before, next, hp, hi] at hs
  split at hs
  · rename_i hpool
    obtain rfl := Option.some.inj hs
    have htype : usesTable f.type = false := by
      cases ht : f.type <;> simp_all [pooled, usesTable]
    refine (tempInv_serving (by rfl) (by rfl)).mpr ⟨hwho, N, hc.orderly, fun m hm => ?_, fun l hl => ?_⟩
    · rcases List.mem_append.mp hm with hm | hm
      · exact hc.neat m hm
      · rw [List.mem_singleton.mp hm]
        exact neat_handle hok.1 htype
    · obtain ⟨m, hm, hdis⟩ := hc.covered l hl
      exact ⟨m, List.mem_append_left _ hm, hdis⟩
  split at hs
  · rename_i hjobs
    have hempty : s.jobs = [] := List.isEmpty_iff.mp hjobs
    have hkept : Kept N fs₀ s.world := hc.kept hempty
    split at hs
    · rename_i hbye
      obtain rfl := Option.some.inj hs
      refine (tempInv_ended (by rfl) (by rfl)).mpr
        ⟨hempty, clean_of_none hkept.none fun g hg hin => ?_⟩
      have hall : (s.world.files.all fun g =>
          g.inplace || !s.world.fs.isFile (resolve g.tmpPath)) = true := by simpa [hbye] using hok.2
      simpa [hin] using List.all_eq_true.mp hall g hg
    · obtain rfl := Option.some.inj hs
      exact (tempInv_handling (by rfl) (by rfl)).mpr ⟨hwho, N, hempty, alone_handle hwho hok.1 hkept⟩
  · cases hs

theorem tempInv_next (h : TempInv host fs₀ s) (hok : leavesNoTemp s a = true)
    (hs : nextDirect host s a = some u) : TempInv host fs₀ u := by
  cases a with
  | start x =>
    simp only [nextDirect, Process.before, next] at hs
    split at hs
    · rename_i m hm
      obtain ⟨⟨w, m'⟩, hadv, rfl⟩ := Option.map_eq_some_iff.mp hs
      obtain ⟨hunused, hjobs, hinline, hkeeps⟩ := (tempInv_starting hm).mp h
      obtain ⟨hw, hm'⟩ := Prog.advance_safe (fun _ _ _ _ _ => Unused.answer) hunused hkeeps hadv
      exact (tempInv_starting (by rfl)).mpr ⟨hw, hjobs, hinline, hm'⟩
    · cases hs
  | serve =>
    simp only [nextDirect, Process.before, next] at hs
    split at hs
    · rename_i hm
      obtain rfl := Option.some.inj hs
      obtain ⟨hunused, hjobs, hinline, -⟩ := (tempInv_starting hm).mp h
      refine (tempInv_ended (by rfl) (by exact hinline)).mpr ⟨hjobs, clean_of_none hunused.none ?_⟩
      simp [hunused.files]
    · rename_i hm
      obtain rfl := Option.some.inj hs
      obtain ⟨hunused, hjobs, hinline, -⟩ := (tempInv_starting hm).mp h
      exact (tempInv_serving (by rfl) (by exact hinline)).mpr ⟨rfl, _, Covered.of_kept (by exact hunused.kept []) hjobs⟩
    · cases hs
  | receive f =>
    have hphase : ∃ cfg, s.phase = .serving cfg ∧ s.inline = none := by
      simp only [nextDirect, Process.before, next] at hs
      split at hs
      · exact ⟨_, ‹_›, ‹_›⟩
      · cases hs
    obtain ⟨cfg, hp, hi⟩ := hphase
    exact TempInv.receive hp hi h hok hs
  | endOfInput =>
    simp only [nextDirect, Process.before, next] at hs
    split at hs
    · rename_i cfg hp hi
      split at hs
      · rename_i hjobs
        obtain rfl := Option.some.inj hs
        obtain ⟨-, N, hc⟩ := (tempInv_serving hp hi).mp h
        have hempty : s.jobs = [] := List.isEmpty_iff.mp hjobs
        exact (tempInv_cleaning (by rfl) (by rfl)).mpr ⟨hempty, alone_cleanup (hc.kept hempty)⟩
      · cases hs
    · cases hs
  | job i x =>
    simp only [nextDirect, next] at hs
    split at hs
    · rename_i m hm
      obtain ⟨⟨w, m'⟩, hadv, rfl⟩ := Option.map_eq_some_iff.mp hs
      obtain ⟨cfg, hp, hi, hwho, N, hc⟩ := h.of_job hm
      rw [Process.before_job hm] at hadv
      simp only [leavesNoTemp, hm] at hok
      exact (tempInv_serving (by exact hp) (by exact hi)).mpr ⟨hwho, N, hc.job hm (advance_obliging hok hadv)⟩
    · cases hs
  | jobDone i =>
    simp only [nextDirect, Process.before, next] at hs
    split at hs
    · rename_i reply hm
      obtain rfl := Option.some.inj hs
      obtain ⟨cfg, hp, hi, hwho, N, hc⟩ := h.of_job hm
      exact (tempInv_serving (by exact hp) (by exact hi)).mpr ⟨hwho, N, hc.jobDone hm⟩
    · cases hs
  | inline x =>
    simp only [nextDirect, next] at hs
    split at hs
    · rename_i m hm
      obtain ⟨⟨w, m'⟩, hadv, rfl⟩ := Option.map_eq_some_iff.mp hs
      rw [Process.before_inline hm] at hadv
      simp only [leavesNoTemp, hm] at hok
      have hadv := advance_obliging hok hadv
      cases hp : s.phase with
      | starting k =>
        obtain ⟨-, -, hinline, -⟩ := (tempInv_starting hp).mp h
        rw [hinline] at hm
        cases hm
      | serving cfg =>
        obtain ⟨hwho, N, hjobs, halone⟩ := (tempInv_handling hp hm).mp h
        exact (tempInv_handling (by rfl) (by rfl)).mpr ⟨hwho, N, hjobs, halone.advance hadv⟩
      | ended =>
        obtain ⟨hjobs, halone⟩ := (tempInv_cleaning hp hm).mp h
        exact (tempInv_cleaning (by rfl) (by rfl)).mpr ⟨hjobs, halone.advance hadv⟩
    · cases hs
  | inlineDone =>
    simp only [nextDirect, Process.before, next] at hs
    split at hs
    · rename_i reply hm
      obtain rfl := Option.some.inj hs
      cases hp : s.phase with
      | starting k =>
        obtain ⟨-, -, hinline, -⟩ := (tempInv_starting hp).mp h
        rw [hinline] at hm
        cases hm
      | serving cfg =>
        obtain ⟨hwho, N, hjobs, halone⟩ := (tempInv_handling hp hm).mp h
        exact (tempInv_serving (by rfl) (by rfl)).mpr ⟨hwho, N, Covered.of_kept (by exact halone) hjobs⟩
      | ended =>
        obtain ⟨hjobs, halone⟩ := (tempInv_cleaning hp hm).mp h
        exact (tempInv_ended (by rfl) (by rfl)).mpr ⟨hjobs, halone⟩
    · cases hs

theorem tempInv_boot {fs : Fs} (hfs : fs.Tree) (root : Bytes) (readOnly : Bool) :
    TempInv host fs (Process.boot fs root readOnly) := by
  refine (tempInv_starting (by rfl)).mpr ⟨⟨hfs, rfl, fun l hl => ?_⟩, rfl, rfl, boots_serverStart _ _⟩
  exact hl.new rfl

/-- When the server has ended, every file with a temporary name is from before its start,
provided that every step of the run met the condition. -/
theorem no_temp_outlives_server {fs : Fs} {root : Bytes} {readOnly : Bool} {as : List Action}
    (hfs : fs.Tree)
    (hsteps : Along (nextDirect host) (fun s a => leavesNoTemp s a = true)
      (Process.boot fs root readOnly) as)
    (hrun : exec (nextDirect host) (Process.boot fs root readOnly) as = some s)
    (hended : s.phase = .ended) (hreturned : s.inline = none) :
    ∀ l, isTemp l = true → s.world.fs.isFile l = true → s.world.fs.entry l = fs.entry l := by
  have hinv : TempInv host fs s :=
    Along.invariant (I := TempInv host fs) (fun _ _ _ hok h hs => tempInv_next h hok hs) hsteps
      (tempInv_boot hfs root readOnly) hrun
  exact ((tempInv_ended hended hreturned).mp hinv).2

end Runs

/-- `OPEN /r/a` under id 0, not in place -/
def streamFrame : Frame := ⟨.open, 0, List.replicate 28 0 ++ [4, 0, 0, 0, 47, 114, 47, 97]⟩

def byeFrame : Frame := ⟨.bye, 0, []⟩

/-- The start of the server for `/r`, and the nine calls that open the file. -/
def streamRun : List Action :=
  [.start success, .start success, .serve, .receive streamFrame] ++
    List.replicate 9 (.inline success) ++ [.inlineDone]

/-- The name under which the file is open. -/
def streamTemp : Loc := [[114], tmpNameOpen 1 0]

theorem homeFs_tree : homeFs.Tree := by
  refine Fs.tree_of_prefix homeFs_sane ?_
  intro l hl d hd hne
  by_cases hnil : l = []
  · subst hnil
    exact absurd (List.prefix_nil.mp hd) hne
  · by_cases hroot : l = [[114]]
    · subst hroot
      rcases List.prefix_cons_iff.mp hd with rfl | ⟨t, rfl, ht⟩
      · decide
      · exact absurd (by rw [List.prefix_nil.mp ht]) hne
    · simp [homeFs, hnil, hroot] at hl

/-- At the end of the input the temporary file is removed. -/
theorem no_temp_outlives_server_streamed :
    ∃ s, exec (nextDirect superuser) (Process.boot homeFs homeRoot false)
        (streamRun ++ [.endOfInput] ++ List.replicate 3 (.inline success) ++ [.inlineDone]) =
          some s ∧
      streamTemp ∈ s.world.touched.map resolve ∧
      ∀ l, isTemp l = true → s.world.fs.isFile l = true →
        s.world.fs.entry l = homeFs.entry l := by
  have hrun : (exec (nextDirect superuser) (Process.boot homeFs homeRoot false)
      (streamRun ++ [.endOfInput] ++ List.replicate 3 (.inline success) ++ [.inlineDone])).map
        (fun s => (decide (streamTemp ∈ s.world.touched.map resolve),
          match s.phase with | .ended => s.inline.isNone | _ => false)) = some (true, true) := by
    decide +kernel
  obtain ⟨s, hs, heq⟩ := Option.map_eq_some_iff.mp hrun
  simp only [Prod.mk.injEq, decide_eq_true_eq] at heq
  obtain ⟨htouched, hend⟩ := heq
  split at hend
  · rename_i hphase
    exact ⟨s, hs, htouched, no_temp_outlives_server homeFs_tree (by decide +kernel) hs hphase
      (Option.isNone_iff_eq_none.mp hend)⟩
  · cases hend

/-- After `BYE` it is still there. -/
theorem bye_leaves_temp :
    ∃ s, exec (nextDirect superuser) (Process.boot homeFs homeRoot false)
        (streamRun ++ [.receive byeFrame]) = some s ∧
      s.phase = .ended ∧ s.inline = none ∧ s.jobs = [] ∧
      isTemp streamTemp = true ∧ s.world.fs.isFile streamTemp = true ∧
      homeFs.entry streamTemp = none := by
  have hrun : (exec (nextDirect superuser) (Process.boot homeFs homeRoot false)
      (streamRun ++ [.receive byeFrame])).map
        (fun s => (s.world.fs.isFile streamTemp, s.jobs.isEmpty,
          match s.phase with | .ended => s.inline.isNone | _ => false)) =
      some (true, true, true) := by
    decide +kernel
  obtain ⟨s, hs, heq⟩ := Option.map_eq_some_iff.mp hrun
  simp only [Prod.mk.injEq] at heq
  obtain ⟨hfile, hjobs, hend⟩ := heq
  split at hend
  · rename_i hphase
    exact ⟨s, hs, hphase, Option.isNone_iff_eq_none.mp hend, List.isEmpty_iff.mp hjobs,
      by decide +kernel, hfile, by decide +kernel⟩
  · cases hend

end Ecopy.Server
