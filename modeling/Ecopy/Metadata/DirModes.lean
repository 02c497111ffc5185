import Ecopy.Lib.Runs
import Ecopy.Metadata.DirProgress
import Ecopy.Metadata.DirSteps
import Ecopy.Server.PoolReport
import Ecopy.Server.TempRuns

/-!
# Modes of directories on the server

`MKDIR`, and every frame that creates a missing parent, records the mode it asked for in
the directory cache; `SETMETA` leaves a directory alone whose recorded mode is the one
requested. The record is not what the kernel applied when set-id bits were asked for, and
it is not renewed by `SETMETA`.

Handlers run as jobs that advance one call at a time. The frames of the apply pool may be
under way together, in any order; every other frame waits until no job is left, and
nothing starts before it has ended. With each job goes what it has done so far.
-/
namespace Ecopy.Metadata.DirModes
open Protocol Ecopy.Path FileSystem Server Lib.Calls Lib.Runs
open DirSteps
open Workers.Events (Event Logs)

structure Job where
  frame : Frame
  rest : Handler (Option Frame)
  events : List Event

/-- `past` has the objects whose mode was settled by handlers that have ended, with these
modes, the last one first. -/
structure State where
  world : World
  jobs : List Job
  past : List (ℕ × UInt32)

inductive Action where
  | receive (f : Frame)
  | advance (i : ℕ) (x : Choice)
  | finish (i : ℕ)
deriving DecidableEq, Repr

def mayStart (s : State) (f : Frame) : Bool :=
  served f.type && (s.jobs.isEmpty || pooled f.type && s.jobs.all fun j => pooled j.frame.type)

/-- One call of one job. -/
def Job.advance (who : Identity) (w : World) (x : Choice) (j : Job) : Option (World × Job) :=
  match j.rest with
  | .ret _ => none
  | .call c k => (answerIds who w x c).map fun out =>
    (out.2, ⟨j.frame, k out.1, j.events ++ [⟨c, out.1⟩]⟩)

def Job.ended (j : Job) : Bool :=
  match j.rest with
  | .ret _ => true
  | .call _ _ => false

def Job.progress (cfg : Config) (j : Job) : Progress := progressOf cfg j.frame j.events

def next (cfg : Config) (s : State) : Action → Option State
  | .receive f =>
    if mayStart s f then some ⟨s.world, s.jobs ++ [⟨f, handle cfg f, []⟩], s.past⟩ else none
  | .advance i x =>
    match s.jobs[i]? with
    | none => none
    | some j =>
      (j.advance cfg.who s.world x).map fun out => ⟨out.1, s.jobs.set i out.2, s.past⟩
  | .finish i =>
    match s.jobs[i]? with
    | none => none
    | some j =>
      if j.ended then
        some ⟨s.world, s.jobs.eraseIdx i, (j.progress cfg).settled.toList ++ s.past⟩
      else none

/-- The directory that a `SETMETA` has opened has the mode that it asks for. -/
def RightMode (cfg : Config) (w : World) (j : Job) : Prop :=
  ∀ path m, dirSetting cfg j.frame = some (path, m) →
    ∃ fd, (j.progress cfg).opened = some fd ∧
      ((w.fs.node fd.ino).isDir = true → (w.fs.node fd.ino).mode = m.mode &&& 0xFFF)

/-- A server that has just started, over any file system and with any settings. -/
def start (fs : Fs) (settings : Remote.Handshake.Settings) : State where
  world := { World.initial fs with settings := settings }
  jobs := []
  past := []

/-- Whenever a handler has made its last call and no error has been logged, the mode is
the one requested. -/
def ModesAsRequested (cfg : Config) (s₀ : State) : Prop :=
  ∀ as i x s j, exec (next cfg) s₀ (as ++ [.advance i x]) = some s → s.jobs[i]? = some j →
    j.ended = true → s.world.errors = [] → RightMode cfg s.world j

/-- The mode that the cache has recorded. -/
def recorded (w : World) (dir : Bytes) : Option UInt32 :=
  match w.dirCache dir with
  | some (.ready mode) => mode
  | _ => none

/-- The mode that was last settled for an object. -/
def lastMode (cfg : Config) (s : State) (i : ℕ) : Option UInt32 :=
  (s.jobs.filterMap (fun j => (j.progress cfg).settled) ++ s.past).lookup i

/-- A recorded mode that makes the handler leave the mode alone is the one that was last settled
for the directory. Before the first such mode it has no set-id bit, which `mkdir` would have
dropped. -/
def believable (cfg : Config) (s : State) (j : Job) : Bool :=
  match dirSetting cfg j.frame, (j.progress cfg).opened with
  | some (path, m), some fd =>
    !keepsMode cfg m (recorded s.world path) || !(s.world.fs.node fd.ino).isDir ||
      match lastMode cfg s fd.ino with
      | some mode => mode == m.mode &&& 0xFFF
      | none => m.mode &&& 0xC00 == 0
  | _, _ => true

/-- No handler under way has settled another mode. -/
def agreed (cfg : Config) (s : State) (fd : Fd) (mode : UInt32) : Bool :=
  !(s.world.fs.node fd.ino).isDir || s.jobs.all fun j =>
    match (j.progress cfg).settled with
    | some (i, settled) => i != fd.ino || settled == mode &&& 0xFFF
    | none => true

/-- The steps that do no harm: a recorded mode is believed only where no `SETMETA` and no
set-id bit has made it wrong, and a directory gets no other mode while a handler that has settled
its mode is still under way. -/
def harmless (cfg : Config) (s : State) : Action → Bool
  | .advance i _ =>
    match s.jobs[i]? with
    | none => true
    | some j =>
      match j.rest with
      | .call (.dirMode _) _ => believable cfg s j
      | .call (.fchmod fd mode) _ => agreed cfg s fd mode
      | .call (.rename a _) _ => !s.world.fs.isDir (resolve a)
      | _ => true
  | _ => true

section Setmeta
variable {cfg : Config} {f : Frame} {p : Progress} {tr : List Event}

/-- Any answer at all. -/
def anything (_ : Unit) (x : Event) (c : Call) : Option (c.Result × Unit) :=
  if h : x.1 = c then some (h ▸ x.2, ()) else none

theorem anything_self (c : Call) (r : c.Result) : anything () ⟨c, r⟩ c = some (r, ()) := by
  simp [anything]

/-- The events of a program from start to end, whatever the answers are. -/
abbrev Completes {α : Type} (m : Handler α) (tr : List Event) (a : α) : Prop :=
  m.Runs anything () tr () a

variable {α : Type} {path : Bytes} {fd : Fd}

theorem completes_ret {a b : α} (h : Completes (.ret a) tr b) : tr = [] ∧ b = a := by
  obtain ⟨htr, -, hb⟩ := Prog.runs_ret_iff.mp h
  exact ⟨htr, hb⟩

theorem completes_call {c : Call} {k : c.Result → Handler α} {a : α}
    (h : Completes (Prog.perform c >>= k) tr a) :
    ∃ r rest, tr = ⟨c, r⟩ :: rest ∧ Completes (k r) rest a := by
  obtain ⟨-, r, _, rest, -, htr, hrest⟩ := Prog.runs_perform_iff.mp h
  exact ⟨r, rest, htr, hrest⟩

theorem completes_bind {β : Type} {m : Handler α} {k : α → Handler β} {b : β}
    (h : Completes (m >>= k) tr b) :
    ∃ before after a, tr = before ++ after ∧ Completes m before a ∧ Completes (k a) after b := by
  obtain ⟨before, after, _, a, htr, hm, hk⟩ := Prog.runs_bind_iff.mp h
  exact ⟨before, after, a, htr, hm, hk⟩

/-- The calls of an easy program leave the progress as it is. -/
theorem easy_progress {m : Handler α} {a : α} (hm : m.Keeps Easy fun _ _ => True)
    (h : Completes m tr a) : tr.foldl (note cfg f) p = p :=
  foldl_idle fun e he => idle_of_easy ((Prog.Safe.calls hm h).1 e he)

theorem openForMeta_ok (h : Completes (openForMeta path) tr (.ok fd)) :
    tr.foldl (note cfg f) p = { p with opened := some fd } := by
  obtain ⟨r, rest, rfl, hrest⟩ := completes_call h
  cases r with
  | ok _ =>
    obtain ⟨rfl, heq⟩ := completes_ret hrest
    cases heq
    rfl
  | error e =>
    obtain ⟨r, rest, rfl, hend⟩ := completes_call hrest
    obtain ⟨rfl, heq⟩ := completes_ret hend
    cases heq
    rfl

theorem openForMeta_error {e : Errno} (h : Completes (openForMeta path) tr (.error e)) :
    tr.foldl (note cfg f) p = p := by
  obtain ⟨r, rest, rfl, hrest⟩ := completes_call h
  cases r with
  | ok _ =>
    obtain ⟨-, heq⟩ := completes_ret hrest
    cases heq
  | error e =>
    obtain ⟨r, rest, rfl, hend⟩ := completes_call hrest
    obtain ⟨rfl, heq⟩ := completes_ret hend
    cases heq
    rfl

theorem openTarget_ok (h : Completes (openTarget cfg path) tr (.ok fd)) :
    tr.foldl (note cfg f) p = { p with opened := some fd } := by
  unfold openTarget at h
  dsimp only at h
  split at h
  · obtain ⟨r, rest, rfl, hrest⟩ := completes_call h
    cases r with
    | ok _ =>
      obtain ⟨before, after, r, rfl, hopen, hrest⟩ := completes_bind hrest
      rw [List.foldl_cons, List.foldl_append]
      cases r with
      | ok _ =>
        obtain ⟨rfl, heq⟩ := completes_ret hrest
        cases heq
        exact openForMeta_ok hopen
      | error e =>
        rw [openForMeta_error hopen]
        exact openForMeta_ok hrest
    | error e =>
      rw [List.foldl_cons]
      exact openForMeta_ok hrest
  · exact openForMeta_ok h

/-- The end of `apply_meta`: without a failure there was none before. -/
theorem times_none {m : Meta} {first : Option (Errno × MetaOp)}
    (h : Completes (applyTimes fd m first) tr none) :
    first = none ∧ tr.foldl (note cfg f) p = p := by
  obtain ⟨settings, rest, rfl, hrest⟩ := completes_call h
  split at hrest
  · obtain ⟨r, rest, rfl, hend⟩ := completes_call hrest
    cases r with
    | ok _ =>
      obtain ⟨rfl, heq⟩ := completes_ret hend
      exact ⟨heq.symm, rfl⟩
    | error e =>
      obtain ⟨rfl, heq⟩ := completes_ret hend
      cases first <;> cases heq
  · obtain ⟨rfl, heq⟩ := completes_ret hrest
    exact ⟨heq.symm, rfl⟩

/-- What is known of the mode when `apply_meta` has not failed. -/
theorem applyMeta_none {m : Meta} {modeIsSet : Bool} (hp : p.opened = some fd)
    (h : Completes (applyMeta cfg.who fd m modeIsSet) tr none) :
    tr.foldl (note cfg f) p =
      if modeIsSet then p else { p with settled := some (fd.ino, m.mode &&& 0xFFF) } := by
  obtain ⟨before, after, owner, rfl, howner, hrest⟩ := completes_bind h
  rw [List.foldl_append, easy_progress (easy_applyOwner ..) howner]
  cases modeIsSet with
  | true => exact (times_none hrest).2
  | false =>
    obtain ⟨r, rest, rfl, hend⟩ := completes_call hrest
    cases r with
    | ok _ =>
      rw [List.foldl_cons, (times_none hend).2]
      simp [note, hp, Except.isOk, Except.toBool, UInt32.and_assoc]
    | error e =>
      obtain ⟨hnone, -⟩ : _ ∧ rest.foldl (note cfg f) p = p := times_none hend
      cases owner <;> cases hnone

theorem logError_logs {e : Errno} {k : Unit → Handler α} {a : α}
    (h : Completes (Prog.call (.logError path e) k) tr a) : ∃ e ∈ tr, Logs e := by
  obtain ⟨-, r, _, rest, -, rfl, -⟩ := Prog.runs_call_iff.mp h
  exact ⟨_, .head _, trivial⟩

/-- The end of `handle_setmeta`: a failure is logged. -/
theorem closing_none {r : Option (Errno × MetaOp)} {u : Unit} (h : Completes (do
      let closed ← Sys.close fd
      match r, closed with
      | some (e, op), _ => Sys.logError (diagnostic path (some op)) e
      | none, .error e => Sys.logError path e
      | none, .ok _ => return) tr u)
    (hlog : ∀ e ∈ tr, ¬ Logs e) : r = none ∧ tr.foldl (note cfg f) p = p := by
  obtain ⟨closed, rest, rfl, hend⟩ := completes_call h
  have hquiet : ¬ ∃ e ∈ rest, Logs e := by
    rintro ⟨e, he, hlogs⟩
    exact hlog e (.tail _ he) hlogs
  cases r with
  | some e => exact absurd (logError_logs hend) hquiet
  | none =>
    cases closed with
    | error e => exact absurd (logError_logs hend) hquiet
    | ok _ =>
      obtain ⟨rfl, -⟩ := completes_ret hend
      exact ⟨rfl, rfl⟩

/-- A `SETMETA` that has logged nothing has opened the directory and settled its mode. -/
theorem handle_settled {m : Meta} {a : Option Frame} (hset : dirSetting cfg f = some (path, m))
    (h : Completes (handle cfg f) tr a) (hlog : ∀ e ∈ tr, ¬ Logs e) :
    ∃ fd, tr.foldl (note cfg f) ⟨none, none⟩ = ⟨some fd, some (fd.ino, m.mode &&& 0xFFF)⟩ := by
  have hset' := hset
  unfold dirSetting at hset
  split at hset
  swap
  · cases hset
  rename_i htype
  split at hset
  swap
  · cases hset
  rename_i name m' hdecode
  split at hset
  swap
  · cases hset
  rename_i norm hnorm
  cases hset
  unfold handle at h
  rw [htype] at h
  obtain ⟨events, after, u, rfl, hrun, hafter⟩ := completes_bind h
  obtain ⟨rfl, -⟩ := completes_ret hafter
  rw [List.append_nil] at hlog ⊢
  unfold handleSetmeta at hrun
  rw [hdecode] at hrun
  dsimp only at hrun
  rw [hnorm] at hrun
  obtain ⟨opening, rest, r, rfl, hopen, hrest⟩ := completes_bind hrun
  cases r with
  | error e =>
    obtain ⟨e, he, hlogs⟩ := logError_logs hrest
    exact absurd hlogs (hlog e (List.mem_append_right _ he))
  | ok fd =>
    refine ⟨fd, ?_⟩
    rw [List.foldl_append, openTarget_ok hopen]
    obtain ⟨known, rest, rfl, hknown⟩ := completes_call hrest
    obtain ⟨applying, closing, r, rfl, happly, hclose⟩ := completes_bind hknown
    obtain ⟨rfl, hlast⟩ : _ ∧ closing.foldl (note cfg f)
        ⟨some fd, some (fd.ino, m.mode &&& 0xFFF)⟩ = _ :=
      closing_none hclose fun e he => hlog e (by simp [he])
    rw [List.foldl_cons, List.foldl_append]
    cases hkeep : keepsMode cfg m known with
    | true =>
      have hnote : note cfg f ⟨some fd, none⟩ ⟨.dirMode path, known⟩ =
          ⟨some fd, some (fd.ino, m.mode &&& 0xFFF)⟩ := by
        simp only [note, hset', hkeep, if_true]
      rw [hnote]
      have happly' : Completes (applyMeta cfg.who fd m true) applying none := by
        rw [← hkeep]
        exact happly
      rw [applyMeta_none rfl happly', if_pos rfl]
      exact hlast
    | false =>
      have hnote : note cfg f ⟨some fd, none⟩ ⟨.dirMode path, known⟩ = ⟨some fd, none⟩ := by
        simp [note, hset', hkeep]
      rw [hnote]
      have happly' : Completes (applyMeta cfg.who fd m false) applying none := by
        rw [← hkeep]
        exact happly
      rw [applyMeta_none rfl happly', if_neg (by decide)]
      exact hlast

end Setmeta

theorem answer_errors {who : Identity} {w v : World} {x : Choice} {c : Call} {r : c.Result}
    (h : answer who w x c = some (r, v)) (hw : w.errors ≠ []) : v.errors ≠ [] := by
  cases he : Pool.entryOf c with
  | none =>
    rw [(Pool.answer_sameLog he h).errors]
    exact hw
  | some e =>
    cases c with
    | logError | logVerify | noteUnpreserved =>
      obtain ⟨-, rfl⟩ := Prod.mk.inj (Option.some.inj h)
      simp [hw]
    | _ => cases he

theorem answerIds_errors {who : Identity} {w v : World} {x : Choice} {c : Call} {r : c.Result}
    (h : answerIds who w x c = some (r, v)) (hw : w.errors ≠ []) : v.errors ≠ [] := by
  obtain ⟨c', r', u, hanswer, -, hv⟩ := exists_answer h
  have hu := answer_errors hanswer hw
  rcases hv with rfl | ⟨k, -, rfl⟩
  · exact hu
  · exact hu

section Runs
variable {cfg : Config} {w v : World} {j : Job} {s u : State} {a : Action}

/-- What is known of a job that is under way: what it did is the beginning of its handler, whose
calls are in order, and the mode that it has settled is still there. -/
structure OnCourse (cfg : Config) (w : World) (j : Job) : Prop where
  follows : ∀ tr r, Completes j.rest tr r → Completes (handle cfg j.frame) (j.events ++ tr) r
  logged : (∃ e ∈ j.events, Logs e) → w.errors ≠ []
  inOrder : j.rest.Mindful (InOrder cfg j.frame) (fun _ _ => True) j.events
  opened : ∀ fd, (j.progress cfg).opened = some fd → fd.ino < w.fs.next
  placed : ∀ path m fd, dirSetting cfg j.frame = some (path, m) →
    (j.progress cfg).opened = some fd → (w.fs.node fd.ino).isDir = true →
      DirAt w.fs (resolve path) fd.ino
  aimed : ∀ i mode, (j.progress cfg).settled = some (i, mode) →
    ∃ fd, (j.progress cfg).opened = some fd ∧ fd.ino = i
  settled : ∀ i mode, (j.progress cfg).settled = some (i, mode) →
    (w.fs.node i).isDir = true → (w.fs.node i).mode = mode

theorem OnCourse.settled_lt (h : OnCourse cfg w j) {i : ℕ} {mode : UInt32}
    (hset : (j.progress cfg).settled = some (i, mode)) : i < w.fs.next := by
  obtain ⟨fd, hopened, rfl⟩ := h.aimed i mode hset
  exact h.opened fd hopened

theorem OnCourse.new (w : World) {f : Frame} (hf : served f.type = true) :
    OnCourse cfg w ⟨f, handle cfg f, []⟩ where
  follows := fun _ _ h => h
  logged := by simp
  inOrder := handle_inOrder cfg hf
  opened := by simp [Job.progress]
  placed := by simp [Job.progress]
  aimed := by simp [Job.progress]
  settled := by simp [Job.progress]

/-- A call of any job, which may be another one. -/
theorem OnCourse.answer {who : Identity} {x : Choice} {c : Call} {r : c.Result}
    (h : OnCourse cfg w j) (ht : w.fs.Tree) (hfile : MovesFile w.fs c)
    (hanswer : answerIds who w x c = some (r, v))
    (hagreed : ∀ fd mode, c = .fchmod fd mode → (w.fs.node fd.ino).isDir = true →
      ∀ settled, (j.progress cfg).settled = some (fd.ino, settled) → settled = mode &&& 0xFFF) :
    OnCourse cfg v j where
  follows := h.follows
  logged := fun hlog => answerIds_errors hanswer (h.logged hlog)
  inOrder := h.inOrder
  opened := fun fd hfd => (h.opened fd hfd).trans_le (answerIds_lasting hanswer).next
  placed := by
    intro path m fd hsetting hfd hd
    have hsteps := steps_of_answer ht hfile hanswer
    exact hsteps.kept _ _ (h.placed path m fd hsetting hfd
      ((hsteps.kinds fd.ino (h.opened fd hfd)).symm.trans hd))
  aimed := h.aimed
  settled := by
    intro i mode hset hd
    have hold := h.settled i mode hset
    have hi := h.settled_lt hset
    have hd' : (w.fs.node i).isDir = true := ((answerIds_lasting hanswer).dirs i hi).symm.trans hd
    by_cases hc : ∃ fd mode, c = .fchmod fd mode ∧ fd.ino = i
    · obtain ⟨fd, mode', rfl, rfl⟩ := hc
      rw [(answerIds_fchmod hanswer).mode]
      split
      · exact (hagreed fd mode' rfl hd' mode hset).symm
      · exact hold hd'
    · rw [answerIds_dir_mode hi hd' _ hanswer]
      · exact hold hd'
      · rintro fd mode' rfl rfl
        exact hc ⟨fd, mode', rfl, rfl⟩

/-- What a call in order settles is the file that is open. -/
theorem note_aimed {p : Progress} {c : Call} {r : c.Result} {f : Frame} {es : List Event}
    (hp : p = progressOf cfg f es) (horder : InOrder cfg f es c)
    (haimed : ∀ i mode, p.settled = some (i, mode) → ∃ fd, p.opened = some fd ∧ fd.ino = i) :
    ∀ i mode, (note cfg f p ⟨c, r⟩).settled = some (i, mode) →
      ∃ fd, (note cfg f p ⟨c, r⟩).opened = some fd ∧ fd.ino = i := by
  intro i mode hset
  cases c with
  | openFile q flags mode' =>
    rw [note_openFile_settled, hp, horder.1] at hset
    cases hset
  | fchmod fd mode' =>
    rw [note_fchmod_opened]
    simp only [note] at hset
    split at hset
    · cases hset
      exact ⟨fd, by rw [hp]; exact horder, rfl⟩
    · exact haimed i mode hset
  | dirMode dir =>
    rw [note_dirMode_opened]
    simp only [note] at hset
    split at hset
    · rename_i path m fd hsetting hopened
      split at hset
      · cases hset
        exact ⟨fd, hopened, rfl⟩
      · exact haimed i mode hset
    · exact haimed i mode hset
  | _ => exact haimed i mode hset

/-- What has been settled stays so. -/
theorem note_settled {p : Progress} {e : Event} {f : Frame}
    (haimed : ∀ i mode, (note cfg f p e).settled = some (i, mode) →
      ∃ fd, (note cfg f p e).opened = some fd ∧ fd.ino = i)
    (haimed' : ∀ i mode, p.settled = some (i, mode) → ∃ fd, p.opened = some fd ∧ fd.ino = i)
    {i : ℕ} {mode : UInt32} (hset : p.settled = some (i, mode)) :
    ∃ mode', (note cfg f p e).settled = some (i, mode') := by
  obtain ⟨c, r⟩ := e
  obtain ⟨fd, hopened, rfl⟩ := haimed' i mode hset
  have hkept : (note cfg f p ⟨c, r⟩).opened = some fd →
      (note cfg f p ⟨c, r⟩).settled ≠ none →
        ∃ mode', (note cfg f p ⟨c, r⟩).settled = some (fd.ino, mode') := by
    intro hfd hsome
    obtain ⟨⟨k, mode'⟩, hk⟩ := Option.ne_none_iff_exists'.mp hsome
    obtain ⟨fd', hfd', rfl⟩ := haimed k mode' hk
    rw [hfd] at hfd'
    cases hfd'
    exact ⟨mode', hk⟩
  cases c with
  | openFile => exact ⟨mode, by rw [note_openFile_settled, hset]⟩
  | fchmod fd' mode' =>
    refine hkept (by rw [note_fchmod_opened, hopened]) ?_
    simp only [note]
    split
    · exact Option.some_ne_none _
    · rw [hset]
      exact Option.some_ne_none _
  | dirMode dir =>
    refine hkept (by rw [note_dirMode_opened, hopened]) ?_
    simp only [note]
    split
    · split
      · exact Option.some_ne_none _
      · rw [hset]
        exact Option.some_ne_none _
    · rw [hset]
      exact Option.some_ne_none _
  | _ => exact ⟨mode, hset⟩

/-- What a call of the job itself adds to what is known of it. -/
theorem OnCourse.extend {who : Identity} {x : Choice} {c : Call} {k : c.Result → Handler (Option Frame)}
    {r : c.Result} (h : OnCourse cfg w j) (hrest : j.rest = .call c k)
    (hanswer : answerIds who w x c = some (r, v)) (hv : OnCourse cfg v j) (ht : w.fs.Tree)
    (hbelief : ∀ dir path m fd, c = .dirMode dir → dirSetting cfg j.frame = some (path, m) →
      (j.progress cfg).opened = some fd → keepsMode cfg m (recorded w dir) = true →
        (w.fs.node fd.ino).isDir = true → (w.fs.node fd.ino).mode = m.mode &&& 0xFFF) :
    OnCourse cfg v ⟨j.frame, k r, j.events ++ [⟨c, r⟩]⟩ := by
  have hprog : Job.progress cfg ⟨j.frame, k r, j.events ++ [⟨c, r⟩]⟩ =
      note cfg j.frame (j.progress cfg) ⟨c, r⟩ := progressOf_concat _
  have hmindful : InOrder cfg j.frame j.events c ∧ ∀ r, (k r).Mindful (InOrder cfg j.frame)
      (fun _ _ => True) (j.events ++ [⟨c, r⟩]) := by
    have hall := h.inOrder
    rw [hrest] at hall
    exact hall
  constructor
  · intro tr a hrun
    rw [List.append_assoc, List.singleton_append]
    apply h.follows
    rw [hrest]
    exact .call ⟨c, r⟩ (anything_self c r) hrun
  · rintro ⟨e, he, hlogs⟩
    rcases List.mem_append.mp he with he | he
    · exact hv.logged ⟨e, he, hlogs⟩
    · rw [List.mem_singleton.mp he] at hlogs
      cases c with
      | logError path err =>
        obtain ⟨-, rfl⟩ := Prod.mk.inj (Option.some.inj hanswer)
        simp
      | _ => exact hlogs.elim
  · exact hmindful.2 r
  · rw [hprog]
    intro fd hfd
    cases c with
    | openFile p flags mode =>
      cases r with
      | ok fd' =>
        cases hfd
        exact openFile_bounded ht hanswer
      | error e => exact hv.opened fd hfd
    | fchmod fd' mode => exact hv.opened fd (note_fchmod_opened ▸ hfd)
    | dirMode dir => exact hv.opened fd (note_dirMode_opened ▸ hfd)
    | _ => exact hv.opened fd hfd
  · rw [hprog]
    intro path m fd hsetting hfd hd
    cases c with
    | openFile p flags mode =>
      cases r with
      | ok fd' =>
        cases hfd
        rw [← hmindful.1.2 path m hsetting]
        exact ⟨openFile_entry hanswer, hd⟩
      | error e => exact hv.placed path m fd hsetting hfd hd
    | fchmod fd' mode => exact hv.placed path m fd hsetting (note_fchmod_opened ▸ hfd) hd
    | dirMode dir => exact hv.placed path m fd hsetting (note_dirMode_opened ▸ hfd) hd
    | _ => exact hv.placed path m fd hsetting hfd hd
  · rw [hprog]
    exact note_aimed rfl hmindful.1 hv.aimed
  · rw [hprog]
    intro i mode hset
    cases c with
    | openFile p flags mode => exact hv.settled i _ (note_openFile_settled ▸ hset)
    | fchmod fd' mode' =>
      simp only [note] at hset
      split at hset
      · rename_i hok
        rw [Bool.and_eq_true, beq_iff_eq] at hok
        cases hset
        intro _
        rw [(answerIds_fchmod hanswer).mode, if_pos hok.1]
      · exact hv.settled i _ hset
    | dirMode dir =>
      obtain ⟨hr, rfl⟩ := Prod.mk.inj (Option.some.inj hanswer)
      simp only [note] at hset
      split at hset
      · rename_i path m fd hsetting hopened
        split at hset
        · rename_i hkeep
          cases hset
          rw [← hr] at hkeep
          exact hbelief dir path m fd rfl hsetting hopened hkeep
        · exact hv.settled i _ hset
      · exact hv.settled i _ hset
    | _ => exact hv.settled i _ hset

/-- No handler under way has settled a mode for the object. -/
def Unsettled (cfg : Config) (s : State) (i : ℕ) : Prop :=
  ∀ j ∈ s.jobs, ∀ mode, (j.progress cfg).settled ≠ some (i, mode)

theorem lastMode_of_unsettled {i : ℕ} (h : Unsettled cfg s i) :
    lastMode cfg s i = s.past.lookup i := by
  have hnone : (s.jobs.filterMap fun j => (j.progress cfg).settled).lookup i = none := by
    rw [List.lookup_eq_none_iff]
    rintro ⟨k, mode⟩ hk
    obtain ⟨j, hj, hset⟩ := List.mem_filterMap.mp hk
    rw [bne_iff_ne]
    rintro rfl
    exact h j hj mode hset
  rw [lastMode, List.lookup_append, hnone, Option.none_or]

/-- A handler under way that has settled a mode was the last one to do so. -/
theorem lastMode_of_settled {i : ℕ} {mode : UInt32} (hjobs : ∀ j ∈ s.jobs, OnCourse cfg s.world j)
    (hd : (s.world.fs.node i).isDir = true) (hj : j ∈ s.jobs)
    (hset : (j.progress cfg).settled = some (i, mode)) :
    lastMode cfg s i = some (s.world.fs.node i).mode := by
  have hmem : (i, mode) ∈ s.jobs.filterMap fun j => (j.progress cfg).settled :=
    List.mem_filterMap.mpr ⟨j, hj, hset⟩
  have hsome : ((s.jobs.filterMap fun j => (j.progress cfg).settled).lookup i).isSome = true :=
    List.lookup_isSome_iff.mpr ⟨_, hmem, beq_self_eq_true i⟩
  obtain ⟨mode', hlook⟩ := Option.isSome_iff_exists.mp hsome
  obtain ⟨l₁, l₂, hl, -⟩ := List.lookup_eq_some_iff.mp hlook
  obtain ⟨j', hj', hset'⟩ := List.mem_filterMap.mp (by rw [hl]; simp :
    (i, mode') ∈ s.jobs.filterMap fun j => (j.progress cfg).settled)
  rw [lastMode, List.lookup_append, hlook, (hjobs j' hj').settled i mode' hset' hd]
  rfl

/-- The directory at `dir` was made with the mode `m`, and it has what the kernel made of that or
the mode that was last settled for it. -/
def Born (cfg : Config) (s : State) (dir : Bytes) (m : UInt32) : Prop :=
  ∃ i, DirAt s.world.fs (resolve dir) i ∧
    (s.world.fs.node i).mode = (lastMode cfg s i).getD (m &&& 0x3FF)

theorem Born.onward {dir : Bytes} {m : UInt32} (h : Born cfg s dir m)
    (hkept : ∀ l i, DirAt s.world.fs l i → DirAt u.world.fs l i)
    (hjobs : ∀ j ∈ u.jobs, OnCourse cfg u.world j)
    (hrest : ∀ i, (s.world.fs.node i).isDir = true → i < s.world.fs.next → Unsettled cfg u i →
      (s.world.fs.node i).mode = (lastMode cfg s i).getD (m &&& 0x3FF) →
        (u.world.fs.node i).mode = (lastMode cfg u i).getD (m &&& 0x3FF))
    (ht : s.world.fs.Tree) : Born cfg u dir m := by
  obtain ⟨i, hi, hmode⟩ := h
  have hi' := hkept _ _ hi
  refine ⟨i, hi', ?_⟩
  by_cases hset : ∃ j ∈ u.jobs, ∃ mode, (j.progress cfg).settled = some (i, mode)
  · obtain ⟨j, hj, mode, hset⟩ := hset
    rw [lastMode_of_settled hjobs hi'.2 hj hset]
    rfl
  · refine hrest i hi.2 (hi.bounded ht) (fun j hj mode hset' => ?_) hmode
    exact hset ⟨j, hj, mode, hset'⟩

structure OnTrack (cfg : Config) (s : State) : Prop where
  tree : s.world.fs.Tree
  jobs : ∀ j ∈ s.jobs, OnCourse cfg s.world j
  past : ∀ i mode, (i, mode) ∈ s.past → i < s.world.fs.next
  cached : ∀ dir m, s.world.dirCache dir = some (.ready (some m)) → Born cfg s dir m
  made : ∀ j ∈ s.jobs, ∀ dir mode, (⟨.mkdir dir mode, .ok ()⟩ : Event) ∈ j.events →
    Born cfg s dir (mode &&& 0xFFF)

theorem OnTrack.start {fs : Fs} {settings : Remote.Handshake.Settings} (ht : fs.Tree) :
    OnTrack cfg (start fs settings) :=
  ⟨ht, by simp [DirModes.start], by simp [DirModes.start],
    by simp [DirModes.start, World.initial], by simp [DirModes.start]⟩

theorem OnTrack.receive {f : Frame} (h : OnTrack cfg s)
    (hs : next cfg s (.receive f) = some u) : OnTrack cfg u := by
  simp only [next] at hs
  split at hs
  swap
  · cases hs
  rename_i hstart
  cases hs
  have hserved : served f.type = true := (Bool.and_eq_true_iff.mp hstart).1
  have hlast : ∀ i, lastMode cfg ⟨s.world, s.jobs ++ [⟨f, handle cfg f, []⟩], s.past⟩ i =
      lastMode cfg s i := by
    intro i
    simp [lastMode, Job.progress, List.filterMap_cons]
  have hborn : ∀ dir m, Born cfg s dir m →
      Born cfg ⟨s.world, s.jobs ++ [⟨f, handle cfg f, []⟩], s.past⟩ dir m := by
    rintro dir m ⟨i, hi, hmode⟩
    exact ⟨i, hi, by rw [hlast]; exact hmode⟩
  refine ⟨h.tree, fun j hj => ?_, h.past, fun dir m hd => hborn _ _ (h.cached dir m hd), ?_⟩
  · rcases List.mem_append.mp hj with hj | hj
    · exact h.jobs j hj
    · rw [List.mem_singleton.mp hj]
      exact .new _ hserved
  · intro j hj dir mode he
    rcases List.mem_append.mp hj with hj | hj
    · exact hborn _ _ (h.made j hj dir mode he)
    · rw [List.mem_singleton.mp hj] at he
      cases he

/-- A handler that ends was the last one to settle its mode. -/
theorem lastMode_finish {k i : ℕ} (hk : s.jobs[k]? = some j)
    (hfree : Unsettled cfg ⟨s.world, s.jobs.eraseIdx k, (j.progress cfg).settled.toList ++ s.past⟩ i)
    (hjobs : ∀ j ∈ s.jobs, OnCourse cfg s.world j) (hd : (s.world.fs.node i).isDir = true) :
    lastMode cfg ⟨s.world, s.jobs.eraseIdx k, (j.progress cfg).settled.toList ++ s.past⟩ i =
      lastMode cfg s i := by
  have hmem : j ∈ s.jobs := List.mem_of_getElem? hk
  rw [lastMode_of_unsettled hfree]
  dsimp only
  cases hset : (j.progress cfg).settled with
  | none =>
    rw [Option.toList_none, List.nil_append]
    refine (lastMode_of_unsettled fun j' hj' mode hset' => ?_).symm
    obtain ⟨n, hn⟩ := List.getElem?_of_mem hj'
    by_cases hnk : n = k
    · subst hnk
      rw [Option.some.inj (hk.symm.trans hn), hset'] at hset
      cases hset
    · exact hfree j' (List.mem_eraseIdx_iff_getElem?.mpr ⟨n, hnk, hn⟩) mode hset'
  | some out =>
    obtain ⟨i', mode⟩ := out
    rw [Option.toList_some, List.singleton_append, List.lookup_cons]
    by_cases hi : i = i'
    · subst hi
      rw [lastMode_of_settled hjobs hd hmem hset, (hjobs j hmem).settled i mode hset hd]
      simp
    · rw [beq_false_of_ne hi]
      refine (lastMode_of_unsettled fun j' hj' mode' hset' => ?_).symm
      obtain ⟨n, hn⟩ := List.getElem?_of_mem hj'
      by_cases hnk : n = k
      · subst hnk
        rw [Option.some.inj (hk.symm.trans hn), hset'] at hset
        exact hi (Prod.mk.inj (Option.some.inj hset)).1
      · exact hfree j' (List.mem_eraseIdx_iff_getElem?.mpr ⟨n, hnk, hn⟩) mode' hset'

theorem OnTrack.finish {i : ℕ} (h : OnTrack cfg s) (hs : next cfg s (.finish i) = some u) :
    OnTrack cfg u := by
  simp only [next] at hs
  split at hs
  · cases hs
  rename_i j hj
  split at hs
  swap
  · cases hs
  cases hs
  have hjobs : ∀ j' ∈ s.jobs.eraseIdx i, OnCourse cfg s.world j' :=
    fun j' hj' => h.jobs j' (List.mem_of_mem_eraseIdx hj')
  have hborn : ∀ dir m, Born cfg s dir m →
      Born cfg ⟨s.world, s.jobs.eraseIdx i, (j.progress cfg).settled.toList ++ s.past⟩ dir m := by
    intro dir m hb
    refine hb.onward (fun _ _ hd => hd) hjobs (fun k hd _ hfree hmode => ?_) h.tree
    rw [lastMode_finish hj hfree h.jobs hd]
    exact hmode
  refine ⟨h.tree, hjobs, fun k mode hk => ?_, fun dir m hd => hborn _ _ (h.cached dir m hd),
    fun j' hj' dir mode he => hborn _ _ (h.made j' (List.mem_of_mem_eraseIdx hj') dir mode he)⟩
  rcases List.mem_append.mp hk with hk | hk
  · exact (h.jobs j (List.mem_of_getElem? hj)).settled_lt (Option.mem_toList.mp hk)
  · exact h.past k mode hk

/-- Without set-id bits nothing of the mode is lost in `mkdir`. -/
theorem mode_of_no_setid {m : UInt32} (h : m &&& 0xC00 = 0) : m &&& 0xFFF &&& 0x3FF = m &&& 0xFFF := by
  have hsplit : m &&& 0xFFF = m &&& 0x3FF ||| m &&& 0xC00 := by
    rw [← UInt32.toBitVec_inj]
    exact BitVec.and_or_distrib_left (y := 0x3FF#32) (z := 0xC00#32)
  rw [hsplit, h, UInt32.or_zero, UInt32.and_assoc]
  rfl

/-- Where the record is believed, the directory has the mode. -/
theorem OnTrack.believed {dir path : Bytes} {m : Meta} {fd : Fd} {k : Option UInt32 → Handler (Option Frame)}
    (h : OnTrack cfg s) (hj : j ∈ s.jobs) (hrest : j.rest = .call (.dirMode dir) k)
    (hbelief : believable cfg s j = true) (hsetting : dirSetting cfg j.frame = some (path, m))
    (hopened : (j.progress cfg).opened = some fd)
    (hkeep : keepsMode cfg m (recorded s.world dir) = true)
    (hd : (s.world.fs.node fd.ino).isDir = true) :
    (s.world.fs.node fd.ino).mode = m.mode &&& 0xFFF := by
  have horder : InOrder cfg j.frame j.events (.dirMode dir) := by
    have hall := (h.jobs j hj).inOrder
    rw [hrest] at hall
    exact hall.1
  obtain rfl := horder path m hsetting
  have hrecorded : recorded s.world dir = some (m.mode &&& 0xFFF) :=
    beq_iff_eq.mp (Bool.and_eq_true_iff.mp hkeep).1
  have hcache : s.world.dirCache dir = some (.ready (some (m.mode &&& 0xFFF))) := by
    unfold recorded at hrecorded
    split at hrecorded
    · rename_i heq
      rw [heq, hrecorded]
    · cases hrecorded
  obtain ⟨i, hi, hmode⟩ := h.cached dir _ hcache
  obtain rfl := hi.unique ((h.jobs j hj).placed dir m fd hsetting hopened hd)
  rw [hmode]
  simp only [believable, hsetting, hopened, hkeep, hd, Bool.not_true, Bool.false_or] at hbelief
  cases hlast : lastMode cfg s fd.ino with
  | some mode =>
    rw [hlast] at hbelief
    exact beq_iff_eq.mp hbelief
  | none =>
    rw [hlast] at hbelief
    exact mode_of_no_setid (beq_iff_eq.mp hbelief)

theorem OnTrack.advance {i : ℕ} {x : Choice} (h : OnTrack cfg s)
    (hharm : harmless cfg s (.advance i x) = true) (hs : next cfg s (.advance i x) = some u) :
    OnTrack cfg u := by
  simp only [next] at hs
  split at hs
  · cases hs
  rename_i j hj
  obtain ⟨⟨v, j'⟩, hadv, rfl⟩ := Option.map_eq_some_iff.mp hs
  unfold Job.advance at hadv
  split at hadv
  · cases hadv
  rename_i c k hrest
  obtain ⟨⟨r, v'⟩, hanswer, heq⟩ := Option.map_eq_some_iff.mp hadv
  obtain ⟨rfl, rfl⟩ := Prod.mk.inj heq
  have hmem : j ∈ s.jobs := List.mem_of_getElem? hj
  have horder : InOrder cfg j.frame j.events c := by
    have hall := (h.jobs j hmem).inOrder
    rw [hrest] at hall
    exact hall.1
  have hfile : MovesFile s.world.fs c := by
    cases c with
    | rename a b =>
      change s.world.fs.isDir (resolve a) = false
      simpa [harmless, hj, hrest] using hharm
    | _ => trivial
  have hsteps : Steps (makes c) (remodes c) s.world.fs v'.fs := steps_of_answer h.tree hfile hanswer
  have hall : ∀ other ∈ s.jobs, OnCourse cfg v' other := by
    intro other hother
    apply (h.jobs other hother).answer h.tree hfile hanswer
    rintro fd mode rfl hd settled hset
    have hag : agreed cfg s fd mode = true := by
      simpa only [harmless, hj, hrest] using hharm
    have hone := List.all_eq_true.mp (by simpa [agreed, hd] using hag) other hother
    simpa [hset] using hone
  have hself : OnCourse cfg v' ⟨j.frame, k r, j.events ++ [⟨c, r⟩]⟩ := by
    apply (h.jobs j hmem).extend hrest hanswer (hall j hmem) h.tree
    rintro dir path m fd rfl hsetting hopened hkeep hd
    exact h.believed hmem hrest (by simpa only [harmless, hj, hrest] using hharm) hsetting hopened
      hkeep hd
  have hjobs : ∀ other ∈ s.jobs.set i ⟨j.frame, k r, j.events ++ [⟨c, r⟩]⟩,
      OnCourse cfg v' other := by
    intro other hother
    rcases List.mem_or_eq_of_mem_set hother with hother | rfl
    · exact hall other hother
    · exact hself
  have hprog : Job.progress cfg ⟨j.frame, k r, j.events ++ [⟨c, r⟩]⟩ =
      note cfg j.frame (j.progress cfg) ⟨c, r⟩ := progressOf_concat _
  have hput : ∀ job : Job, job ∈ s.jobs.set i job := by
    intro job
    obtain ⟨hi, -⟩ := List.getElem?_eq_some_iff.mp hj
    exact List.mem_set hi job
  have hfree : ∀ n, Unsettled cfg
      ⟨v', s.jobs.set i ⟨j.frame, k r, j.events ++ [⟨c, r⟩]⟩, s.past⟩ n → Unsettled cfg s n := by
    intro n hn other hother mode hset
    obtain ⟨o, ho⟩ := List.getElem?_of_mem hother
    by_cases hoi : o = i
    · subst hoi
      obtain rfl := Option.some.inj (hj.symm.trans ho)
      obtain ⟨mode', hset'⟩ := note_settled (e := ⟨c, r⟩)
        (note_aimed rfl horder (h.jobs j hmem).aimed) (h.jobs j hmem).aimed hset
      exact hn _ (hput _) mode' (by rw [hprog]; exact hset')
    · refine hn other (List.mem_of_getElem? (i := o) ?_) mode hset
      rw [List.getElem?_set_ne (Ne.symm hoi)]
      exact ho
  have hborn : ∀ dir m, Born cfg s dir m →
      Born cfg ⟨v', s.jobs.set i ⟨j.frame, k r, j.events ++ [⟨c, r⟩]⟩, s.past⟩ dir m := by
    intro dir m hb
    refine hb.onward hsteps.kept hjobs (fun n hd hlt hn hmode => ?_) h.tree
    rw [lastMode_of_unsettled hn, ← lastMode_of_unsettled (hfree n hn)]
    rw [← hmode]
    by_cases hchange : remodes c n
    · cases c with
      | fchmod fd mode =>
        obtain rfl : fd.ino = n := hchange
        have hmoded := (answerIds_fchmod hanswer).mode
        cases hok : (r : Except Errno Unit).isOk with
        | false =>
          rw [hok] at hmoded
          exact hmoded
        | true =>
          refine absurd ?_ (hn _ (hput _) (mode &&& 0xFFF))
          have hopen : (j.progress cfg).opened = some fd := horder
          rw [hprog]
          simp [note, hok, hopen]
      | _ => exact hchange.elim
    · exact hsteps.mode n hlt hd hchange
  refine ⟨answerIds_tree h.tree hanswer, hjobs, fun n mode hn => (h.past n mode hn).trans_le hsteps.next,
    ?_, ?_⟩
  · intro dir m hd
    rcases recorded_of_answerIds hanswer hd with hbefore | rfl
    · exact hborn dir m (h.cached dir m hbefore)
    · obtain ⟨mode, he, rfl⟩ := horder
      exact hborn dir _ (h.made j hmem dir mode he)
  · intro other hother dir mode he
    rcases List.mem_or_eq_of_mem_set hother with hother | rfl
    · exact hborn dir _ (h.made other hother dir mode he)
    rcases List.mem_append.mp he with he | he
    · exact hborn dir _ (h.made j hmem dir mode he)
    · -- the directory has just been made
      obtain ⟨rfl, hr⟩ := Sigma.mk.inj (List.mem_singleton.mp he)
      obtain rfl := eq_of_heq hr
      obtain ⟨hdir, hmode⟩ := mkdir_made hanswer
      refine ⟨s.world.fs.next, hdir, ?_⟩
      have hnew : Unsettled cfg ⟨v', s.jobs.set i ⟨j.frame, k (.ok ()), j.events ++
          [⟨.mkdir dir mode, .ok ()⟩]⟩, s.past⟩ s.world.fs.next := by
        intro other hother mode' hset
        rcases List.mem_or_eq_of_mem_set hother with hother | rfl
        · exact absurd ((h.jobs other hother).settled_lt hset) (lt_irrefl _)
        · rw [hprog] at hset
          exact absurd ((h.jobs j hmem).settled_lt hset) (lt_irrefl _)
      have hpast : s.past.lookup s.world.fs.next = none := by
        rw [List.lookup_eq_none_iff]
        rintro ⟨n, mode'⟩ hn
        rw [bne_iff_ne]
        exact (h.past n mode' hn).ne'
      rw [lastMode_of_unsettled hnew, hpast, hmode, Option.getD_none, UInt32.and_assoc]
      rfl

theorem next_onTrack (hharm : harmless cfg s a = true) (h : OnTrack cfg s) (hs : next cfg s a = some u) :
    OnTrack cfg u := by
  cases a with
  | receive f => exact h.receive hs
  | advance i x => exact h.advance hharm hs
  | finish i => exact h.finish hs

end Runs

-- `MKDIR /r/a` asks for the set-group-id bit, and so does the `SETMETA` after it.
def mkdirSetgid : Frame := ⟨.mkdir, 0, [4, 0, 0, 0, 47, 114, 47, 97, 0xED, 5, 0, 0]⟩

/-- `SETMETA /r/a`, by the user of the server -/
def setmetaFrame (mode : UInt8) : Frame :=
  ⟨.setmeta, 0, [4, 0, 0, 0, 47, 114, 47, 97] ++ List.replicate 8 0 ++ [0xED, mode, 0, 0] ++
    List.replicate 32 0 ++ [1]⟩

def homeConfig : Config := superuser.config homeRoot true

/-- The directory is created and then the second frame is handled. -/
def setgidRun (mode : UInt8) (n : ℕ) : List Action :=
  [.receive mkdirSetgid, .advance 0 success, .advance 0 success, .advance 0 success, .finish 0,
    .receive (setmetaFrame mode)] ++ List.replicate n (.advance 0 success)

def setgidAfter (mode : UInt8) (n : ℕ) : Option State :=
  exec (next homeConfig) (start homeFs defaultSettings) (setgidRun mode n)

end Ecopy.Metadata.DirModes
