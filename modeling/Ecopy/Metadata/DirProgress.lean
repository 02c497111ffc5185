import Ecopy.Server.TempHandlers
import Ecopy.Workers.Events

/-!
# How far a handler has come with modes

The events of a handler under way tell which file it has opened, and whether it has settled
the mode of that file: with `fchmod`, or because the cache knows the mode. What it may do next
depends on them. A mode is recorded only for a directory that has been made with it, and
`SETMETA` opens the location it is about before it settles anything.
-/
namespace Ecopy.Metadata.DirModes
open Protocol Ecopy.Path FileSystem Server Lib.Calls
open Remote.Handshake (Settings)
open Workers.Events (Event Logs)

/-- The frames that create or change something and are not answered. -/
def served : MsgType → Bool
  | .mkdir | .putfile | .open | .symlink | .link | .setmeta => true
  | _ => false

/-- The path and the metadata of a `SETMETA` frame for a directory. -/
def dirSetting (cfg : Config) (f : Frame) : Option (Bytes × Meta) :=
  if f.type = .setmeta then
    match decodeSetmeta f.payload with
    | some (path, m, true) =>
      match resolvePath cfg.root path with
      | .ok norm => some (norm, m)
      | .error _ => none
    | _ => none
  else none

/-- What the cache knows makes the handler leave the mode as it is. -/
def keepsMode (cfg : Config) (m : Meta) (known : Option UInt32) : Bool :=
  known == some (m.mode &&& 0xFFF) &&
    !((m.uid != cfg.who.euid || m.gid != cfg.who.egid) && m.mode &&& 0xC00 != 0)

/-- How far a job has come: the file it opened, and the object whose mode it has settled,
with that mode. -/
structure Progress where
  opened : Option Fd
  settled : Option (ℕ × UInt32)

def note (cfg : Config) (f : Frame) (p : Progress) : Event → Progress
  | ⟨.openFile _ _ _, (r : Except Errno Fd)⟩ =>
    match r with
    | .ok fd => { p with opened := some fd }
    | .error _ => p
  | ⟨.fchmod fd mode, (r : Except Errno Unit)⟩ =>
    if r.isOk && p.opened == some fd then { p with settled := some (fd.ino, mode &&& 0xFFF) } else p
  | ⟨.dirMode _, (known : Option UInt32)⟩ =>
    match dirSetting cfg f, p.opened with
    | some (_, m), some fd =>
      if keepsMode cfg m known then { p with settled := some (fd.ino, m.mode &&& 0xFFF) } else p
    | _, _ => p
  | _ => p

def progressOf (cfg : Config) (f : Frame) (es : List Event) : Progress :=
  es.foldl (note cfg f) ⟨none, none⟩

/-- What a call of the handler of `f` may be, after the events `es`. -/
def InOrder (cfg : Config) (f : Frame) (es : List Event) : Call → Prop
  | .settleDir dir (.ready (some m)) =>
    ∃ mode, (⟨.mkdir dir mode, .ok ()⟩ : Event) ∈ es ∧ m = mode &&& 0xFFF
  | .openFile p _ _ => (progressOf cfg f es).settled = none ∧
      ∀ path m, dirSetting cfg f = some (path, m) → resolve p = resolve path
  | .fchmod fd _ => (progressOf cfg f es).opened = some fd
  | .dirMode dir => ∀ path m, dirSetting cfg f = some (path, m) → dir = path
  | _ => True

/-- The calls that say nothing about the progress. -/
def Idle : Call → Prop
  | .openFile _ _ _ | .fchmod _ _ | .dirMode _ => False
  | _ => True

/-- The calls that are always in order, besides. -/
def Easy : Call → Prop
  | .settleDir _ _ => False
  | c => Idle c

section Progress
variable {cfg : Config} {f : Frame} {p : Progress} {es tr : List Event} {α β : Type}

theorem note_idle {e : Event} (h : Idle e.1) : note cfg f p e = p := by
  obtain ⟨c, r⟩ := e
  cases c with
  | openFile | fchmod | dirMode => exact h.elim
  | _ => rfl

theorem foldl_idle (h : ∀ e ∈ tr, Idle e.1) : tr.foldl (note cfg f) p = p := by
  induction tr with
  | nil => rfl
  | cons e tr ih =>
    rw [List.foldl_cons, note_idle (h e (.head _))]
    exact ih fun e' he' => h e' (.tail _ he')

@[simp] theorem progressOf_nil : progressOf cfg f [] = ⟨none, none⟩ := rfl

@[simp] theorem progressOf_concat (e : Event) :
    progressOf cfg f (es ++ [e]) = note cfg f (progressOf cfg f es) e := by
  simp [progressOf]

theorem progressOf_idle {c : Call} {r : c.Result} (h : Idle c) :
    progressOf cfg f (es ++ [⟨c, r⟩]) = progressOf cfg f es := by
  rw [progressOf_concat]
  exact note_idle h

theorem note_openFile_settled {path : Bytes} {flags : Fs.OpenFlags} {mode : UInt32}
    {r : (Call.openFile path flags mode).Result} :
    (note cfg f p ⟨.openFile path flags mode, r⟩).settled = p.settled := by
  cases r with
  | ok fd => rfl
  | error e => rfl

theorem note_fchmod_opened {fd : Fd} {mode : UInt32} {r : (Call.fchmod fd mode).Result} :
    (note cfg f p ⟨.fchmod fd mode, r⟩).opened = p.opened := by
  simp only [note]
  split
  · rfl
  · rfl

theorem note_dirMode_opened {dir : Bytes} {known : (Call.dirMode dir).Result} :
    (note cfg f p ⟨.dirMode dir, known⟩).opened = p.opened := by
  simp only [note]
  split
  · split
    · rfl
    · rfl
  · rfl

theorem idle_of_easy {c : Call} (h : Easy c) : Idle c := by
  cases c with
  | settleDir => exact h.elim
  | _ => exact h

theorem inOrder_of_easy {c : Call} (h : Easy c) : InOrder cfg f es c := by
  cases c with
  | openFile | fchmod | dirMode | settleDir => exact h.elim
  | _ => trivial

/-- The events of a program that is in order, and the progress at its end. -/
abbrev Proper (cfg : Config) (f : Frame) (m : Handler α) (post : Progress → α → Prop)
    (es : List Event) : Prop :=
  m.Mindful (InOrder cfg f) (fun es' a => post (progressOf cfg f es') a) es

theorem Proper.ret {post : Progress → α → Prop} {a : α} (h : post (progressOf cfg f es) a) :
    Proper cfg f (.ret a) post es := h

theorem Proper.bind {mid : Progress → α → Prop} {post : Progress → β → Prop} {m : Handler α}
    {k : α → Handler β} (h : Proper cfg f m mid es)
    (hk : ∀ es' a, mid (progressOf cfg f es') a → Proper cfg f (k a) post es') :
    Proper cfg f (m >>= k) post es :=
  Prog.Mindful.bind h hk

/-- One easy call. -/
theorem Proper.easy {post : Progress → α → Prop} {c : Call} {k : c.Result → Handler α} (hc : Easy c)
    (hk : ∀ r es', progressOf cfg f es' = progressOf cfg f es → Proper cfg f (k r) post es') :
    Proper cfg f (Prog.perform c >>= k) post es := by
  exact ⟨inOrder_of_easy hc, fun r => hk r _ (progressOf_idle (idle_of_easy hc))⟩

/-- An easy program leaves the progress as it is. -/
theorem Proper.of_easy {m : Handler α} (h : m.Keeps Easy fun _ _ => True) :
    Proper cfg f m (fun p _ => p = progressOf cfg f es) es := by
  refine (Prog.Mindful.of_safe (fun _ _ => inOrder_of_easy) h).mono ?_
  rintro es' a ⟨⟨tr, rfl, htr⟩, -⟩
  unfold progressOf
  rw [List.foldl_append]
  exact foldl_idle fun e he => idle_of_easy (htr e he)

/-- An easy program at the end. -/
theorem Proper.ends {m : Handler α} (h : m.Keeps Easy fun _ _ => True) :
    Proper cfg f m (fun _ _ => True) es :=
  (Proper.of_easy h).mono fun _ _ _ => trivial

end Progress

section Directories
variable {cfg : Config} {f : Frame} {es : List Event} {dir : Bytes} {mode : UInt32}

/-- The mode that is going to be recorded is one that `mkdir` was called with. -/
def Earned (es : List Event) (dir : Bytes) (r : Except Errno (Option UInt32)) : Prop :=
  ∀ m, r = .ok (some m) → ∃ mode, (⟨.mkdir dir mode, .ok ()⟩ : Event) ∈ es ∧ m = mode &&& 0xFFF

theorem proper_settle {r : Except Errno (Option UInt32)} (hr : Earned es dir r) :
    Proper cfg f (settle dir r) (fun p _ => p = progressOf cfg f es) es := by
  cases r with
  | ok known =>
    refine ⟨?_, fun _ => Proper.ret (progressOf_idle trivial)⟩
    cases known with
    | none => trivial
    | some m => exact hr m rfl
  | error e => exact ⟨trivial, fun _ => Proper.ret (progressOf_idle trivial)⟩

theorem easy_existingPathIsDir (path : Bytes) :
    (existingPathIsDir path).Keeps Easy fun _ _ => True := by
  refine .call trivial fun r _ => ?_
  cases r with
  | ok found => trivial
  | error e => trivial

theorem mindful_mkdirOutcome {r : Except Errno Unit}
    (hr : r = .ok () → (⟨.mkdir dir mode, .ok ()⟩ : Event) ∈ es) :
    (mkdirOutcome dir mode r).Mindful (InOrder cfg f)
      (fun es' out => progressOf cfg f es' = progressOf cfg f es ∧ Earned es' dir out) es := by
  cases r with
  | ok _ =>
    refine ⟨rfl, fun m heq => ?_⟩
    cases heq
    exact ⟨mode, hr rfl, rfl⟩
  | error e =>
    cases e with
    | eexist =>
      refine Prog.Mindful.bind (Proper.of_easy (easy_existingPathIsDir dir)) ?_
      intro es' out hsame
      cases out with
      | none => exact ⟨hsame, fun m heq => by cases heq⟩
      | some e => exact ⟨hsame, fun m heq => by cases heq⟩
    | _ => exact ⟨rfl, fun m heq => by cases heq⟩

/-- After `mkdir`: what it has come to is recorded. -/
theorem proper_outcome {r : Except Errno Unit}
    (hr : r = .ok () → (⟨.mkdir dir mode, .ok ()⟩ : Event) ∈ es) :
    Proper cfg f (mkdirOutcome dir mode r >>= settle dir) (fun p _ => p = progressOf cfg f es)
      es := by
  refine Prog.Mindful.bind (mindful_mkdirOutcome hr) ?_
  rintro es' out ⟨hsame, hearned⟩
  rw [← hsame]
  exact proper_settle hearned

theorem proper_ensureDir (fuel : ℕ) (dir : Bytes) (mode : UInt32) (es : List Event) :
    Proper cfg f (ensureDirBounded fuel dir mode) (fun p _ => p = progressOf cfg f es) es := by
  induction fuel generalizing dir mode es with
  | zero => exact Proper.ret rfl
  | succ fuel ih =>
    refine Proper.easy trivial fun claim es₁ h₁ => ?_
    cases claim with
    | ready => exact Proper.ret h₁
    | failed e => exact Proper.ret h₁
    | claimed =>
      refine ⟨trivial, fun (r : Except Errno Unit) => ?_⟩
      have h₂ : progressOf cfg f (es₁ ++ [⟨.mkdir dir mode, r⟩]) = progressOf cfg f es :=
        (progressOf_idle (c := .mkdir dir mode) trivial).trans h₁
      have hdone : (∀ e, r = .error e → e ≠ .enoent) →
          Proper cfg f (mkdirOutcome dir mode r >>= settle dir)
            (fun p _ => p = progressOf cfg f es) (es₁ ++ [⟨.mkdir dir mode, r⟩]) := by
        intro _
        rw [← h₂]
        exact proper_outcome fun heq => by simp [heq]
      cases r with
      | ok _ => exact hdone nofun
      | error e =>
        cases e with
        | enoent =>
          have hrefused : ∀ e es', progressOf cfg f es' = progressOf cfg f es →
              Proper cfg f (settle dir (.error e)) (fun p _ => p = progressOf cfg f es)
                es' := by
            intro e es' hsame
            rw [← hsame]
            exact proper_settle fun m heq => by cases heq
          change Proper cfg f (if (splitDirBase dir).1 = dir then _ else _)
            (fun p _ => p = progressOf cfg f es) _
          split
          · exact hrefused _ _ h₂
          · refine Proper.bind (ih _ _ _) fun es₃ out h₃ => ?_
            cases out with
            | some e => exact hrefused e es₃ (h₃.trans h₂)
            | none =>
              refine ⟨trivial, fun (r : Except Errno Unit) => ?_⟩
              have h₄ : progressOf cfg f (es₃ ++ [⟨.mkdir dir mode, r⟩]) =
                  progressOf cfg f es :=
                (progressOf_idle (c := .mkdir dir mode) trivial).trans (h₃.trans h₂)
              rw [← h₄]
              exact proper_outcome fun heq => by simp [heq]
        | _ => exact hdone (by simp)

end Directories

section Pieces
variable {cfg : Config} {f : Frame} {es : List Event}

theorem easy_logError (path : Bytes) (e : Errno) :
    (Sys.logError path e).Keeps Easy fun _ _ => True :=
  Prog.Keeps.last (c := Call.logError path e) trivial

theorem easy_applyOwner (who : Identity) (fd : Fd) (m : Meta) :
    (applyOwner who fd m).Keeps Easy fun _ _ => True := by
  unfold applyOwner
  split
  · trivial
  · dsimp only
    split
    · trivial
    · refine .call trivial fun r _ => ?_
      cases r with
      | ok _ => trivial
      | error e =>
        dsimp only
        split <;> trivial

theorem easy_applyTimes (fd : Fd) (m : Meta) (first : Option (Errno × MetaOp)) :
    (applyTimes fd m first).Keeps Easy fun _ _ => True := by
  refine .call trivial fun settings _ => ?_
  split
  · refine .call trivial fun r _ => ?_
    cases r with
    | ok _ => trivial
    | error e => trivial
  · trivial

/-- `apply_meta` changes the file that has been opened. -/
theorem proper_applyMeta {who : Identity} {fd : Fd} {m : Meta} {modeIsSet : Bool}
    (hopened : (progressOf cfg f es).opened = some fd) :
    Proper cfg f (applyMeta who fd m modeIsSet) (fun _ _ => True) es := by
  refine Proper.bind (Proper.of_easy (easy_applyOwner who fd m)) fun es' owner hsame => ?_
  cases modeIsSet with
  | true => exact Proper.ends (easy_applyTimes fd m _)
  | false =>
    refine ⟨by rw [← hsame] at hopened; exact hopened, fun (r : Except Errno Unit) => ?_⟩
    cases r with
    | ok _ => exact Proper.ends (easy_applyTimes fd m _)
    | error e => exact Proper.ends (easy_applyTimes fd m _)

theorem easy_pwriteAll (fd : Fd) (offset : ℤ) (data : Bytes) :
    (pwriteAll fd offset data).Keeps Easy fun _ _ => True := by
  unfold pwriteAll
  split
  · trivial
  · exact Prog.Keeps.last (c := Call.pwrite fd offset data) trivial

theorem easy_preallocate (q : OpenRequest) (fd : Fd) :
    (preallocate q fd).Keeps Easy fun _ _ => True := by
  unfold preallocate
  split
  · refine .call trivial fun r _ => ?_
    cases r with
    | ok _ => trivial
    | error e =>
      dsimp only
      split
      · exact .call trivial fun _ _ => trivial
      · trivial
  · trivial

theorem easy_finishPut (q : PutRequest) (finalPath name : Bytes)
    (err : Option (Errno × Option MetaOp)) :
    (finishPut q finalPath name err).Keeps Easy fun _ _ => True := by
  cases err with
  | none => trivial
  | some err =>
    obtain ⟨e, op⟩ := err
    change Prog.Keeps _ _ (if (!q.inplace) = true then _ else _)
    split
    · exact .call trivial fun _ _ => easy_logError _ _
    · exact easy_logError _ _

theorem easy_renameOrDiscard (dir tmp base logged : Bytes) :
    (renameOrDiscard dir tmp base logged).Keeps Easy fun _ _ => True := by
  refine .call trivial fun r _ => ?_
  cases r with
  | ok _ => trivial
  | error e => exact .call trivial fun _ _ => .call trivial fun _ _ => trivial

theorem easy_chownSymlink (who : Identity) (path logged : Bytes) (uid gid : UInt32) :
    (chownSymlink who path logged uid gid).Keeps Easy fun _ _ => True := by
  unfold chownSymlink
  split
  · trivial
  · dsimp only
    split
    · trivial
    · refine .call trivial fun r _ => ?_
      cases r with
      | ok _ => trivial
      | error e =>
        dsimp only
        split
        · trivial
        · exact easy_logError _ _

theorem easy_sameInode (primary name : Bytes) :
    (sameInode primary name).Keeps Easy fun _ _ => True := by
  refine .call trivial fun r _ => ?_
  cases r with
  | error e => trivial
  | ok found =>
    refine .call trivial fun r _ => ?_
    cases r with
    | error e => trivial
    | ok _ => trivial

theorem easy_replaceByLink (cfg : Config) (primary dir base linkPath : Bytes) :
    (replaceByLink cfg primary dir base linkPath).Keeps Easy fun _ _ => True := by
  refine .call trivial fun seq _ => .call trivial fun r _ => ?_
  cases r with
  | error e => exact easy_logError _ _
  | ok _ => exact easy_renameOrDiscard _ _ _ _

/-- The end of `handle_symlink`. -/
theorem easy_placeSymlink (cfg : Config) (q : SymlinkRequest) (dir tmp base linkPath : Bytes) :
    (do
      chownSymlink cfg.who (atDir dir tmp) linkPath q.uid q.gid
      let settings ← Sys.settings
      if settings.preserveTimes then
        let _ ← Sys.lutimes (atDir dir tmp) q.atime q.mtime
      renameOrDiscard dir tmp base linkPath : Handler Unit).Keeps Easy fun _ _ => True := by
  refine .bind (easy_chownSymlink _ _ _ _ _) fun _ => .call trivial fun settings _ => ?_
  split
  · exact .call trivial fun _ _ => easy_renameOrDiscard _ _ _ _
  · exact easy_renameOrDiscard _ _ _ _

end Pieces

section Handlers
variable {cfg : Config} {f : Frame} {es : List Event}

theorem proper_logError (path : Bytes) (e : Errno) :
    Proper cfg f (Sys.logError path e) (fun _ _ => True) es :=
  Proper.ends (easy_logError path e)

/-- What every handler but that of `SETMETA` begins with. -/
theorem proper_parent {α : Type} {dir : Bytes} {mode : UInt32} {k : Option Errno → Handler α}
    (hk : ∀ out es', progressOf cfg f es' = progressOf cfg f es →
      Proper cfg f (k out) (fun _ _ => True) es') :
    Proper cfg f (ensureDirCachedMode dir mode >>= k) (fun _ _ => True) es :=
  Proper.bind (proper_ensureDir _ _ _ _) fun es' out hsame => hk out es' hsame

theorem proper_handleMkdir (payload : Bytes) :
    Proper cfg f (handleMkdir cfg payload) (fun _ _ => True) [] := by
  unfold handleMkdir
  split
  · exact Proper.ret trivial
  split
  · exact proper_logError _ _
  refine proper_parent fun out es' _ => ?_
  cases out with
  | none => exact Proper.ret trivial
  | some e => exact proper_logError _ _

/-- The frame is not a `SETMETA` for a directory, and nothing has been settled so far. -/
structure Blank (cfg : Config) (f : Frame) (es : List Event) : Prop where
  setting : dirSetting cfg f = none
  settled : (progressOf cfg f es).settled = none

theorem Blank.same {es' : List Event} (h : Blank cfg f es)
    (hsame : progressOf cfg f es' = progressOf cfg f es) : Blank cfg f es' :=
  ⟨h.setting, by rw [hsame]; exact h.settled⟩

theorem blank_nil (h : f.type ≠ .setmeta) : Blank cfg f [] :=
  ⟨by simp [dirSetting, h], rfl⟩

/-- An open of such a handler. -/
theorem Blank.openFile {α : Type} {path : Bytes} {flags : Fs.OpenFlags} {mode : UInt32}
    {k : Except Errno Fd → Handler α} (h : Blank cfg f es)
    (hok : ∀ fd es', (progressOf cfg f es').opened = some fd →
      Proper cfg f (k (.ok fd)) (fun _ _ => True) es')
    (herr : ∀ e es', Blank cfg f es' → Proper cfg f (k (.error e)) (fun _ _ => True) es') :
    Proper cfg f (Sys.openFile path flags mode >>= k) (fun _ _ => True) es := by
  refine ⟨⟨h.settled, by simp [h.setting]⟩, fun (r : Except Errno Fd) => ?_⟩
  cases r with
  | ok fd => exact hok fd _ (by simp [note])
  | error e => exact herr e _ (h.same (by simp [note]))

theorem Blank.openAndAdd {q : OpenRequest} {finalPath tmpPath : Bytes} (h : Blank cfg f es)
    (wantDirect : Bool) :
    Proper cfg f (openAndAdd q finalPath tmpPath wantDirect) (fun _ _ => True) es := by
  have hadd : ∀ file es', Proper cfg f (Sys.addFile file) (fun _ _ => True) es' :=
    fun file es' => Proper.ends (Prog.Keeps.last (c := Call.addFile file) trivial)
  have hkeep : ∀ fd direct es', Proper cfg f (do
      preallocate q fd
      Sys.addFile ⟨q.fid, some fd, q.inplace, direct, none, tmpPath, finalPath⟩)
      (fun _ _ => True) es' :=
    fun fd direct es' => Proper.bind (Proper.of_easy (easy_preallocate q fd)) fun _ _ _ => hadd _ _
  have hbuffered : ∀ es', Blank cfg f es' →
      Proper cfg f (openBuffered q finalPath tmpPath) (fun _ _ => True) es' :=
    fun es' h' => h'.openFile (fun fd es' _ => hkeep fd false es') fun e es' _ => hadd _ _
  unfold Server.openAndAdd
  dsimp only
  split
  · refine h.openFile (fun fd es' _ => Proper.easy trivial fun direct es'' _ => hkeep fd direct es'')
      fun e es' h' => ?_
    dsimp only
    split
    · exact hbuffered es' h'
    · exact hadd _ _
  · exact hbuffered es h

theorem proper_handleOpen (payload : Bytes) (hf : f.type ≠ .setmeta) :
    Proper cfg f (handleOpen cfg payload) (fun _ _ => True) [] := by
  have hadd : ∀ file es', Proper cfg f (Sys.addFile file) (fun _ _ => True) es' :=
    fun file es' => Proper.ends (Prog.Keeps.last (c := Call.addFile file) trivial)
  unfold handleOpen
  split
  · exact Proper.ret trivial
  refine Proper.easy trivial fun (ok : Bool) es₁ h₁ => ?_
  dsimp only
  split
  · exact Proper.ret trivial
  split
  · exact hadd _ _
  refine proper_parent fun out es₂ h₂ => ?_
  cases out with
  | some e => exact hadd _ _
  | none =>
    refine Proper.easy trivial fun (settings : Settings) es₃ h₃ => ?_
    have hblank : Blank cfg f es₃ := (blank_nil hf).same (h₃.trans (h₂.trans h₁))
    split
    · exact hblank.openAndAdd _
    split
    · exact hadd _ _
    · exact hblank.openAndAdd _

theorem Blank.putAt {q : PutRequest} {finalPath name target : Bytes} (h : Blank cfg f es) :
    Proper cfg f (putAt cfg q finalPath name target) (fun _ _ => True) es := by
  have hend : ∀ err es', Proper cfg f (finishPut q finalPath name err) (fun _ _ => True) es' :=
    fun err es' => Proper.ends (easy_finishPut q finalPath name err)
  refine h.openFile (fun fd es₁ hopened => ?_) fun e es' _ => proper_logError _ _
  have hcontent : Proper cfg f (putContent cfg.who fd q (q.attr.mode &&& 0x80 != 0))
      (fun _ _ => True) es₁ := by
    refine Proper.bind (Proper.of_easy (easy_pwriteAll fd 0 q.data)) fun es₂ written h₂ => ?_
    have hclose : ∀ err es', Proper cfg f (closeContent fd err) (fun _ _ => True) es' := by
      intro err es'
      refine Proper.easy trivial fun closed es'' _ => ?_
      cases err with
      | some e => exact Proper.ret trivial
      | none => cases closed <;> exact Proper.ret trivial
    cases written with
    | error err =>
      obtain ⟨e, n⟩ := err
      exact hclose (some (e, none)) es₂
    | ok _ =>
      refine Proper.bind (proper_applyMeta (by rw [h₂]; exact hopened)) fun es₃ r _ => ?_
      exact hclose (r.map fun out => (out.1, some out.2)) es₃
  refine Proper.bind hcontent fun es₂ err _ => ?_
  split
  · refine Proper.easy trivial fun (r : Except Errno Unit) es₃ _ => ?_
    cases r with
    | error e => exact hend _ _
    | ok _ => exact hend _ _
  · exact hend _ _

theorem proper_handlePutfile (payload : Bytes) (hf : f.type ≠ .setmeta) :
    Proper cfg f (handlePutfile cfg payload) (fun _ _ => True) [] := by
  unfold handlePutfile
  split
  · exact Proper.ret trivial
  dsimp only
  split
  · exact proper_logError _ _
  refine proper_parent fun out es₁ h₁ => ?_
  cases out with
  | some e => exact proper_logError _ _
  | none =>
    refine Proper.easy trivial fun (r : Except Errno Unit) es₂ h₂ => ?_
    have hblank : Blank cfg f es₂ := (blank_nil hf).same (h₂.trans h₁)
    cases r with
    | error e => exact proper_logError _ _
    | ok _ =>
      dsimp only
      split
      · exact hblank.putAt
      · exact Proper.easy trivial fun seq es₃ h₃ => (hblank.same h₃).putAt

theorem proper_handleSymlink (payload : Bytes) :
    Proper cfg f (handleSymlink cfg payload) (fun _ _ => True) [] := by
  unfold handleSymlink
  split
  · exact Proper.ret trivial
  dsimp only
  split
  · exact proper_logError _ _
  refine proper_parent fun out es₁ _ => ?_
  cases out with
  | some e => exact proper_logError _ _
  | none =>
    refine Proper.easy trivial fun (r : Except Errno Unit) es₂ _ => ?_
    cases r with
    | error e => exact proper_logError _ _
    | ok _ =>
      refine Proper.easy trivial fun seq es₃ _ => ?_
      refine Proper.easy trivial fun (r : Except Errno Unit) es₄ _ => ?_
      cases r with
      | error e => exact proper_logError _ _
      | ok _ => exact Proper.ends (easy_placeSymlink _ _ _ _ _ _)

theorem proper_handleLink (payload : Bytes) :
    Proper cfg f (handleLink cfg payload) (fun _ _ => True) [] := by
  unfold handleLink
  split
  · exact Proper.ret trivial
  dsimp only
  split
  · exact proper_logError _ _
  split
  · exact proper_logError _ _
  refine proper_parent fun out es₁ _ => ?_
  cases out with
  | some e => exact proper_logError _ _
  | none =>
    refine Proper.easy trivial fun (r : Except Errno Unit) es₂ _ => ?_
    cases r with
    | error e => exact proper_logError _ _
    | ok _ =>
      refine Proper.easy trivial fun (r : Except Errno Unit) es₃ _ => ?_
      cases r with
      | ok _ => exact Proper.ret trivial
      | error e =>
        cases e with
        | eexist =>
          refine Proper.bind (Proper.of_easy (easy_sameInode _ _)) fun es₄ same _ => ?_
          cases same with
          | true => exact Proper.ret trivial
          | false => exact Proper.ends (easy_replaceByLink _ _ _ _ _)
        | _ => exact proper_logError _ _

end Handlers

section Setmeta
variable {cfg : Config} {f : Frame} {es : List Event}

/-- The file that an attempt has opened, before anything is settled. -/
def Opening (p : Progress) (r : Except Errno Fd) : Prop :=
  p.settled = none ∧ ∀ fd, r = .ok fd → p.opened = some fd

theorem proper_openForMeta {path : Bytes} (hset : (progressOf cfg f es).settled = none)
    (hplace : ∀ q m, dirSetting cfg f = some (q, m) → resolve path = resolve q) :
    Proper cfg f (openForMeta path) Opening es := by
  refine ⟨⟨hset, hplace⟩, fun (r : Except Errno Fd) => ?_⟩
  cases r with
  | ok fd => exact ⟨by simp [note, hset], by simp [note]⟩
  | error e =>
    have hfailed : (progressOf cfg f (es ++ [⟨.openFile path (readFlags false) 0,
        (.error e : Except Errno Fd)⟩])).settled = none := by
      rw [progressOf_concat]
      exact note_openFile_settled.trans hset
    refine ⟨⟨hfailed, hplace⟩, fun (r : Except Errno Fd) => ?_⟩
    refine Proper.ret ?_
    rw [progressOf_concat]
    cases r with
    | ok fd => exact ⟨hfailed, by simp [note]⟩
    | error e => exact ⟨hfailed, by simp⟩

theorem proper_openTarget {path norm : Bytes} (hnorm : resolvePath cfg.root path = .ok norm)
    (hset : (progressOf cfg f es).settled = none)
    (hplace : ∀ q m, dirSetting cfg f = some (q, m) → q = norm) :
    Proper cfg f (openTarget cfg norm) Opening es := by
  have hdirect : ∀ es', (progressOf cfg f es').settled = none →
      Proper cfg f (openForMeta norm) Opening es' :=
    fun es' h => proper_openForMeta h fun q m heq => by rw [hplace q m heq]
  unfold openTarget
  dsimp only
  split
  · refine Proper.easy trivial fun (r : Except Errno Unit) es₁ h₁ => ?_
    have hset₁ : (progressOf cfg f es₁).settled = none := by rw [h₁]; exact hset
    cases r with
    | error e => exact hdirect es₁ hset₁
    | ok _ =>
      refine Proper.bind (proper_openForMeta hset₁ fun q m heq => ?_) fun es₂ r h₂ => ?_
      · rw [hplace q m heq, (resolve_split hnorm).2.1, resolve_norm hnorm]
      · cases r with
        | ok fd => exact Proper.ret h₂
        | error e => exact hdirect es₂ h₂.1
  · exact hdirect es hset

theorem proper_handleSetmeta (hf : f.type = .setmeta) :
    Proper cfg f (handleSetmeta cfg f.payload) (fun _ _ => True) [] := by
  unfold handleSetmeta
  cases hdecode : decodeSetmeta f.payload with
  | none => exact Proper.ret trivial
  | some q =>
    obtain ⟨path, m, isDir⟩ := q
    dsimp only
    cases hnorm : resolvePath cfg.root path with
    | error e => exact proper_logError _ _
    | ok norm =>
      have hplace : ∀ q m', dirSetting cfg f = some (q, m') → q = norm := by
        intro q m' heq
        unfold dirSetting at heq
        rw [if_pos hf, hdecode] at heq
        cases isDir with
        | false => cases heq
        | true =>
          simp only [hnorm] at heq
          exact (Prod.mk.inj (Option.some.inj heq)).1.symm
      refine Proper.bind (proper_openTarget hnorm rfl hplace) fun es₁ r h₁ => ?_
      cases r with
      | error e => exact proper_logError _ _
      | ok fd =>
        refine ⟨fun q m' heq => (hplace q m' heq).symm, fun (known : Option UInt32) => ?_⟩
        have hopened : (progressOf cfg f (es₁ ++ [⟨.dirMode norm, known⟩])).opened =
            some fd := by
          rw [progressOf_concat]
          exact note_dirMode_opened.trans (h₁.2 fd rfl)
        change Proper cfg f (applyMeta cfg.who fd m _ >>= _) (fun _ _ => True) _
        refine Proper.bind (proper_applyMeta hopened) fun es₂ r _ => ?_
        refine Proper.easy trivial fun (closed : Except Errno Unit) es₃ _ => ?_
        cases r with
        | some e => exact proper_logError _ _
        | none =>
          cases closed with
          | error e => exact proper_logError _ _
          | ok _ => exact Proper.ret trivial

/-- The calls of every handler are in order. -/
theorem handle_inOrder (cfg : Config) (h : served f.type = true) :
    (handle cfg f).Mindful (InOrder cfg f) (fun _ _ => True) [] := by
  have hsilent : ∀ m : Handler Unit, Proper cfg f m (fun _ _ => True) [] →
      Proper cfg f (silent m) (fun _ _ => True) [] :=
    fun m hm => Proper.bind hm fun _ _ _ => Proper.ret trivial
  unfold handle
  cases htype : f.type with
  | mkdir => exact hsilent _ (proper_handleMkdir _)
  | putfile => exact hsilent _ (proper_handlePutfile _ (by simp [htype]))
  | «open» => exact hsilent _ (proper_handleOpen _ (by simp [htype]))
  | symlink => exact hsilent _ (proper_handleSymlink _)
  | link => exact hsilent _ (proper_handleLink _)
  | setmeta => exact hsilent _ (proper_handleSetmeta htype)
  | _ => simp [htype, served] at h

end Setmeta

end Ecopy.Metadata.DirModes
