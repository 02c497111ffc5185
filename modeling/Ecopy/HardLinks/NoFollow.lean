import Ecopy.Workers.Bystanders
import Mathlib.Data.Fintype.Basic

/-!
# Symlinks at destination names

A whole local run: regular files are copied by threads, in any order and overlap, and when
all of them have ended the hard links are replayed. Files that are not copied keep their
names, contents and metadata, as long as three things do not happen. In place, no name is a
hard link to such a file. A name that could not be opened for want of permission does not
lead to such a file. And where a hard link would cross file systems, its name is no symlink.

The copy across file systems misses `O_NOFOLLOW`.
-/
namespace Ecopy.HardLinks
open Protocol Ecopy.Path FileSystem Server Lib.Calls
open Workers.SmallCopy Workers.OtherCopies Workers.Bystanders Workers.Contents Metadata

section Replay
variable {who : Identity} {cfg : Tuning} {w v u : World} {x : Choice} {plain : Bytes → Prop}
  {O : ℕ → Prop} {ours : Loc → Prop}

/-- A program that runs alone and spares what it has to. -/
abbrev Lonely (who : Identity) (plain : Bytes → Prop) (O : ℕ → Prop) (ours : Loc → Prop)
    {α : Type} (m : Handler α) (w : World) : Prop :=
  m.Amid (answerIds who) (fun v c => Sound O v.fs ∧ Watchful plain O v c) (· = ·)
    (fun w v => Spares O ours w.fs v.fs) (fun _ _ => True) w

theorem lonely_of_among {α : Type} {post : World → α → Prop} {m : Handler α}
    (h : Among who plain O ours post m w) : Lonely who plain O ours m w := by
  have hmono : Among who plain O ours (fun _ _ => True) m w := h.mono fun _ _ _ => trivial
  apply hmono.weaken
  · exact fun _ _ hG => hG
  · rintro v _ rfl
    exact Steady.refl v.fs
  · exact fun _ _ hv => hv.toSpares

theorem lonely_call {α : Type} {c : Call} {f : c.Result → Handler α}
    (hown : Own O ours w.fs c)
    (hf : ∀ x r u, Sound O w.fs → answerIds who w x c = some (r, u) →
      Lonely who plain O ours (f r) u) :
    Lonely who plain O ours (Prog.perform c >>= f) w := by
  rintro v rfl hG x r u hx
  exact ⟨answerIds_spares hG.1 hown hx, hf x r u hG.1 hx⟩

/-- The temporary name of a link can be moved: it is no directory. -/
theorem linked_file {a b : Bytes}
    (h : answerIds who w x (.link a b) = some (.ok (), v)) : v.fs.isDir (resolve b) = false := by
  rcases answer_link (answer_of_plain rfl h) with ⟨e, he, -⟩ | ⟨fs, -, hlink, rfl⟩
  · cases he
  obtain ⟨hfree, hfile, rfl⟩ := Fs.link_eq_ok hlink
  obtain ⟨i, hi, hd⟩ := Fs.isFile_iff.mp hfile
  simp [Fs.isDir, hi, hd]

theorem lonely_hardlinkCreate {primary link : Bytes} (hlink : ours (resolve link))
    (htmp : ∀ n, ours (resolve (tmpLink who link n))) :
    Lonely who plain O ours (hardlinkCreate who primary link) w := by
  refine lonely_call (c := Call.link primary link) hlink ?_
  intro x made u _ _
  cases made with
  | ok _ => exact fun _ _ => trivial
  | error e =>
    have hreplace : Lonely who plain O ours (replaceLink who primary link) u := by
      refine lonely_call (c := Call.nextSeq .put) trivial ?_
      intro y n z _ _
      dsimp only
      split
      · exact fun _ _ => trivial
      refine lonely_call (c := Call.link primary _) (htmp n) ?_
      intro y linked r _ hlinked
      cases linked with
      | error e => exact fun _ _ => trivial
      | ok _ =>
        refine lonely_call (c := Call.rename _ link)
          ⟨htmp n, hlink, linked_file hlinked⟩ ?_
        intro y renamed q _ _
        cases renamed with
        | ok _ => exact fun _ _ => trivial
        | error e =>
          refine lonely_call (c := Call.unlink _) (htmp n) ?_
          exact fun _ _ _ _ _ _ _ => trivial
    cases e with
    | eexist => exact hreplace
    | _ => exact fun _ _ => trivial

theorem among_openFallback {path : Bytes} {mode : UInt32} (hplain : plain path)
    (hours : ours (resolve path)) :
    Among who plain O ours (fun z opened => ∀ fd, opened = .ok fd →
        Held O z.fs (resolve path) ∧ ¬ O fd.ino)
      (Sys.openFile path fallbackFlags mode) w := by
  refine among_call (c := Call.openFile path fallbackFlags mode) ?_ ?_
  · intro v _ hwatch
    exact ⟨⟨fun _ => hours, fun ht i hi _ => hwatch ht i hi (.inr hplain)⟩, trivial⟩
  · intro v x opened u _ _ hs hwatch hopen z hz fd heq
    subst heq
    have hfree : ∀ i, v.fs.entry (resolve path) = some i → ¬ O i :=
      fun i hi => hwatch rfl i hi (.inr hplain)
    have htaken : Taken O u path fd := taken_openFile hs rfl (fun _ i hi _ => hfree i hi) hopen
    have hfd : ¬ O fd.ino := free_openFile hs hfree hopen
    refine ⟨Held.steady ?_ hz, hfd⟩
    intro i hi
    rcases htaken.entry i hi with rfl | hi
    · exact ⟨hfd, htaken.bounded, htaken.file⟩
    · exact hi

/-- An open that follows symlinks, of a path that is none. -/
theorem among_openLink {path : Bytes} {mode : UInt32} {fuel : ℕ} (hplain : plain path)
    (hours : ours (resolve path)) :
    Among who plain O ours (fun z opened => ∀ fd, opened = .ok fd →
        Held O z.fs (resolve path) ∧ ¬ O fd.ino)
      (openFollowing (fuel + 1) path fallbackFlags mode) w := by
  refine among_call (c := Call.lstat path) (fun _ _ _ => Gentle.own trivial) ?_
  intro v x found u _ _ _ hwatch hfound
  cases found with
  | error e => exact among_openFallback hplain hours
  | ok n =>
    obtain ⟨i, n⟩ := n
    obtain ⟨hi, rfl⟩ := lstat_found (answer_of_plain rfl hfound)
    have hlink := hwatch hplain i
    dsimp only
    split
    · rename_i target hk
      exact absurd hk (hlink target hi)
    · exact among_openFallback hplain hours

/-- A file that is opened to be read. -/
theorem among_openPrimary {path : Bytes} (fuel : ℕ) :
    Among who plain O ours (fun _ _ => True) (openFollowing fuel path (readFlags false) 0) w := by
  apply among_gentle
  induction fuel generalizing path with
  | zero => trivial
  | succ fuel ih =>
    refine Prog.Keeps.call (c := Call.lstat path) trivial ?_
    intro found _
    have hopen : (Sys.openFile path (readFlags false) 0).Keeps (Gentle O) fun _ _ => True :=
      Prog.Keeps.last (c := Call.openFile path (readFlags false) 0) ⟨rfl, rfl⟩
    cases found with
    | error e => exact hopen
    | ok n =>
      obtain ⟨i, n⟩ := n
      dsimp only
      split
      · exact ih
      · exact hopen

theorem gentle_readSome (fd : Fd) (len pos : ℕ) :
    (readSome fd len pos).Keeps (Gentle O) fun _ _ => True := by
  refine Prog.Keeps.call (c := Call.fstat fd) trivial ?_
  intro st _
  cases st with
  | error e => trivial
  | ok n =>
    obtain ⟨i, n⟩ := n
    dsimp only
    split
    · trivial
    · exact Prog.Keeps.last (c := Call.pread fd _ _) trivial

theorem gentle_copyAll {fdIn fdOut : Fd} (h : ¬ O fdOut.ino) (fuel pos : ℕ) :
    (copyAll fdIn fdOut fuel pos).Keeps (Gentle O) fun _ _ => True := by
  induction fuel generalizing pos with
  | zero => trivial
  | succ fuel ih =>
    refine Prog.Keeps.bind (gentle_readSome fdIn bufSize pos) ?_
    intro read
    cases read with
    | error e => trivial
    | ok data =>
      cases data with
      | nil => trivial
      | cons b data =>
        refine Prog.Keeps.call (c := Call.pwrite fdOut pos (b :: data)) h ?_
        intro r _
        cases r with
        | error e => trivial
        | ok _ => exact ih _

theorem gentle_fallbackContent {fdIn fdOut : Fd} (h : ¬ O fdOut.ino) :
    (fallbackContent fdIn fdOut).Keeps (Gentle O) fun _ _ => True := by
  refine Prog.Keeps.call (c := Call.fstat fdIn) trivial ?_
  intro st _
  cases st with
  | error e => trivial
  | ok n => exact gentle_copyAll h _ _

theorem among_preservePathMetadata {path : Bytes} (m : Meta) (h : Held O w.fs (resolve path)) :
    Among who plain O ours (fun _ _ => True) (preservePathMetadata who cfg path m) w := by
  refine among_call (c := Call.openFile path _ 0) (fun _ _ _ => Gentle.own ⟨rfl, rfl⟩) ?_
  intro v x opened u hv _ hs _ hopen
  cases opened with
  | error e => exact fun _ _ => trivial
  | ok fd =>
    have hfd : ¬ O fd.ino := free_openFile hs (fun i hi => (h.steady hv i hi).free) hopen
    exact (among_preserveFdMetadata m none hfd).bind fun _ done _ => among_lastClose fd done

theorem among_hardlinkFallbackCopy {j : Job} (hplain : plain j.link) (hours : ours (resolve j.link)) :
    Among who plain O ours (fun _ _ => True) (hardlinkFallbackCopy who cfg j) w := by
  refine (among_openPrimary 40).bind ?_
  intro v source _
  cases source with
  | error e => exact fun _ _ => trivial
  | ok fdIn =>
  refine (among_openLink hplain hours).bind ?_
  intro u opened hopened
  cases opened with
  | error e => exact among_lastClose _ _
  | ok fdOut =>
  obtain ⟨hheld, hfd⟩ := hopened fdOut rfl
  have hstay : ∀ y z, Moved O ours y z → Held O y.fs (resolve j.link) →
      Held O z.fs (resolve j.link) := fun _ _ hz hy => hy.steady hz
  refine among_seq hstay hheld (among_gentle (gentle_fallbackContent hfd) u) ?_
  intro z copied hz _
  refine among_call (c := Call.close fdIn) (fun _ _ _ => Gentle.own trivial) ?_
  intro _ _ _ r _ hr _ _ _
  refine among_call (c := Call.close fdOut) (fun _ _ _ => Gentle.own trivial) ?_
  intro _ _ closed q _ hq _ _ _
  split
  · refine (among_preservePathMetadata j.attr ((hz.steady hr).steady hq)).bind ?_
    exact fun _ _ _ _ _ => trivial
  · exact fun _ _ => trivial

theorem lonely_bind {α β : Type} {m : Handler α} {f : α → Handler β}
    (hm : Lonely who plain O ours m w) (hf : ∀ v a, Lonely who plain O ours (f a) v) :
    Lonely who plain O ours (m >>= f) w :=
  Prog.Amid.bind hm fun v a _ => hf v a

theorem lonely_hardlinksReplay {jobs : List Job} (hplain : ∀ j ∈ jobs, plain j.link)
    (hlink : ∀ j ∈ jobs, ours (resolve j.link))
    (htmp : ∀ j ∈ jobs, ∀ n, ours (resolve (tmpLink who j.link n))) :
    Lonely who plain O ours (hardlinksReplay who cfg jobs) w := by
  induction jobs generalizing w with
  | nil => exact fun _ _ => trivial
  | cons j jobs ih =>
    refine lonely_bind ?_ ?_
    · refine lonely_bind (lonely_hardlinkCreate (hlink j (by simp)) (htmp j (by simp))) ?_
      intro v made
      cases made with
      | exdev =>
        exact lonely_of_among
          (among_hardlinkFallbackCopy (hplain j (by simp)) (hlink j (by simp)))
      | _ => exact fun _ _ => trivial
    · intro v done
      refine lonely_bind (ih (fun j hj => hplain j (by simp [hj]))
        (fun j hj => hlink j (by simp [hj])) fun j hj => htmp j (by simp [hj])) ?_
      exact fun _ _ _ _ => trivial

end Replay

/-- The ways a regular file can take. -/
inductive Copy where
  | small (t : Task)
  | sparse (t : Task) (seek : ℕ → Seek)
  | large (t : Task) (holes : Bool) (ranges : List (ℕ × ℕ))

def Copy.task : Copy → Task
  | .small t | .sparse t _ | .large t _ _ => t

def Copy.program (who : Identity) (cfg : Tuning) : Copy → Handler Bool
  | .small t => copyFileSerialSmall who cfg t
  | .sparse t seek => copyFileSparse who cfg t seek
  | .large t holes ranges => copyFileLarge who cfg t holes ranges

/-- The copies that are under way, and the replay that waits for them. -/
structure Local (ι : Type) where
  copies : Prog.Crowd Call.Result Bool World ι
  replay : Handler Bool

def ended {α : Type} : Handler α → Bool
  | .ret _ => true
  | .call _ _ => false

inductive Act (ι : Type) where
  | copy (act : ι × Choice)
  | link (x : Choice)

section Runs
variable {ι : Type} {who : Identity} {cfg : Tuning} {files : ι → Copy} {jobs : List Job} {w : World}

def Local.start (who : Identity) (cfg : Tuning) (files : ι → Copy) (jobs : List Job) (w : World) :
    Local ι where
  copies := ⟨w, fun i => (files i).program who cfg⟩
  replay := hardlinksReplay who cfg jobs

/-- The names that are copied to. -/
def Copied (files : ι → Copy) (jobs : List Job) (l : Loc) : Prop :=
  (∃ i, l = resolve (files i).task.dst) ∨ ∃ j ∈ jobs, l = resolve j.link

/-- `.ecopy.tmp.<pid>.<counter>`, in any directory. -/
def Temporary (who : Identity) (l : Loc) : Prop :=
  ∃ dir n, l = resolve (dir ++ slash :: makeTempName who.pid n)

/-- The object has a name that is not copied to. -/
def Outside (fs : Fs) (copied : Loc → Prop) (i : ℕ) : Prop :=
  ∃ l, ¬ copied l ∧ fs.entry l = some i

/-- Files with other names are as they were. -/
structure Unharmed (copied temporary : Loc → Prop) (fs fs' : Fs) : Prop where
  node : ∀ i, Outside fs copied i → fs'.node i = fs.node i
  entry : ∀ l, ¬ copied l → ¬ temporary l → fs'.entry l = fs.entry l

/-- The names a run may touch. -/
def Ours (who : Identity) (files : ι → Copy) (jobs : List Job) (l : Loc) : Prop :=
  Copied files jobs l ∨ Temporary who l

theorem among_program {plain : Bytes → Prop} {O : ℕ → Prop} (i : ι) :
    Among who plain O (Ours who files jobs) (fun _ _ => True) ((files i).program who cfg) w := by
  have hdst : Ours who files jobs (resolve (files i).task.dst) := .inl (.inl ⟨i, rfl⟩)
  have htemp : ∀ n, Ours who files jobs
      (resolve (atDir (files i).task.dstDir (makeTempName who.pid n))) := by
    intro n
    refine .inr ⟨(files i).task.dstDir, n, ?_⟩
    unfold atDir
    rw [if_neg (by simp [makeTempName])]
  cases hfile : files i with
  | small t =>
    rw [hfile] at hdst htemp
    exact among_copy .small hdst htemp
  | sparse t seek =>
    rw [hfile] at hdst htemp
    exact among_copy (.sparse seek) hdst htemp
  | large t holes ranges =>
    rw [hfile] at hdst htemp
    exact among_copy (.large holes ranges) hdst htemp

theorem lonely_replay {O : ℕ → Prop} :
    Lonely who (fun p => ∃ j ∈ jobs, p = j.link) O (Ours who files jobs)
      (hardlinksReplay who cfg jobs) w := by
  apply lonely_hardlinksReplay
  · exact fun j hj => ⟨j, hj, rfl⟩
  · exact fun j hj => .inl (.inr ⟨j, hj, rfl⟩)
  · exact fun j hj n => .inr ⟨beforeSlash j.link, n, rfl⟩

/-- What holds in every state of a run: while files are copied, the replay has not begun;
afterwards it goes on alone. -/
structure Sparing (who : Identity) (cfg : Tuning) (files : ι → Copy) (jobs : List Job) (w : World)
    (O : ℕ → Prop) (s : Local ι) : Prop where
  spares : Spares O (Ours who files jobs) w.fs s.copies.shared.fs
  copying : (∀ i, ended (s.copies.left i)) ∨ s.replay = hardlinksReplay who cfg jobs ∧
    ∀ i, Among who (fun _ => False) O (Ours who files jobs) (fun _ _ => True) (s.copies.left i)
      s.copies.shared
  replay : Lonely who (fun p => ∃ j ∈ jobs, p = j.link) O (Ours who files jobs) s.replay
    s.copies.shared

variable {O : ℕ → Prop} {s s' : Local ι}

theorem sparing_start : Sparing who cfg files jobs w O (.start who cfg files jobs w) :=
  ⟨.refl w.fs, .inr ⟨rfl, among_program⟩, lonely_replay⟩

/-- The condition on a step: the copies follow no link to the objects `O`, and the replay
copies to no symlink. -/
def Heeds (O : ℕ → Prop) (jobs : List Job) (s : Local ι) : Act ι → Prop
  | .copy act => s.copies.Heeds (Watchful (fun _ => False) O) act
  | .link _ => ∀ c k, s.replay = .call c k →
      Watchful (fun p => ∃ j ∈ jobs, p = j.link) O s.copies.shared c

theorem Sparing.link {x : Choice} {out : World × Handler Bool}
    (h : Sparing who cfg files jobs w O s) (hs : Sound O w.fs)
    (hG : Heeds O jobs s (.link x)) (hended : ∀ i, ended (s.copies.left i))
    (hnext : Prog.advance (answerIds who) s.copies.shared x s.replay = some out) :
    Sparing who cfg files jobs w O ⟨{ s.copies with shared := out.1 }, out.2⟩ := by
  have hlonely := h.replay
  cases hreplay : s.replay with
  | ret b =>
    rw [hreplay] at hnext
    cases hnext
  | call c k =>
    rw [hreplay] at hnext hlonely
    obtain ⟨⟨r, u⟩, hr, rfl⟩ := Option.map_eq_some_iff.mp hnext
    obtain ⟨hspares, hrest⟩ :=
      hlonely s.copies.shared rfl ⟨h.spares.sound hs, hG c k hreplay⟩ x r u hr
    exact ⟨h.spares.trans hspares, .inl hended, hrest⟩

variable [DecidableEq ι]

theorem Sparing.copy {act : ι × Choice} {copies : Prog.Crowd Call.Result Bool World ι}
    (h : Sparing who cfg files jobs w O s) (hs : Sound O w.fs)
    (hG : s.copies.Heeds (Watchful (fun _ => False) O) act)
    (hnext : s.copies.next (answerIds who) act = some copies) :
    Sparing who cfg files jobs w O { s with copies := copies } := by
  rcases h.copying with hended | ⟨hreplay, hamong⟩
  · have hret := hended act.1
    unfold Prog.Crowd.next at hnext
    cases hleft : s.copies.left act.1 with
    | ret b =>
      rw [hleft] at hnext
      cases hnext
    | call c k =>
      rw [hleft] at hret
      cases hret
  · have hheeds : s.copies.Heeds
        (fun v c => Sound O v.fs ∧ Watchful (fun _ => False) O v c) act :=
      fun c k hc => ⟨h.spares.sound hs, hG c k hc⟩
    obtain ⟨hmoved, hrest⟩ := Prog.Crowd.next_amid hheeds hamong hnext
    refine ⟨h.spares.trans hmoved.toSpares, .inr ⟨hreplay, hrest⟩, ?_⟩
    dsimp only
    rw [hreplay]
    exact lonely_replay

variable [Fintype ι]

/-- A thread makes its next call; the replay does so when all copies have ended. -/
def Local.next (who : Identity) (s : Local ι) : Act ι → Option (Local ι)
  | .copy act => (s.copies.next (answerIds who) act).map fun copies => { s with copies := copies }
  | .link x =>
    if ∀ i, ended (s.copies.left i) then
      (Prog.advance (answerIds who) s.copies.shared x s.replay).map fun out =>
        ⟨{ s.copies with shared := out.1 }, out.2⟩
    else none

theorem Sparing.next {act : Act ι} (h : Sparing who cfg files jobs w O s) (hs : Sound O w.fs)
    (hG : Heeds O jobs s act) (hnext : s.next who act = some s') :
    Sparing who cfg files jobs w O s' := by
  cases act with
  | copy act =>
    obtain ⟨copies, hcopies, rfl⟩ := Option.map_eq_some_iff.mp hnext
    exact h.copy hs hG hcopies
  | link x =>
    simp only [Local.next] at hnext
    split at hnext
    · rename_i hended
      obtain ⟨out, hout, rfl⟩ := Option.map_eq_some_iff.mp hnext
      exact h.link hs hG hended hout
    · cases hnext

/-- In every run whose steps meet the condition, files that are not copied are as they
were. -/
theorem outside_unharmed (who : Identity) (cfg : Tuning) (files : ι → Copy) (jobs : List Job)
    (w : World) (acts : List (Act ι)) (s : Local ι) (ht : w.fs.Tree)
    (hG : Lib.Runs.Along (Local.next who) (Heeds (Outside w.fs (Copied files jobs)) jobs)
      (.start who cfg files jobs w) acts)
    (hrun : Lib.Runs.exec (Local.next who) (.start who cfg files jobs w) acts = some s) :
    Unharmed (Copied files jobs) (Temporary who) w.fs s.copies.shared.fs := by
  have hs : Sound (Outside w.fs (Copied files jobs)) w.fs := by
    refine ⟨ht, ?_⟩
    rintro i ⟨l, -, hl⟩
    exact ht.bounded l i hl
  have hfinal : Sparing who cfg files jobs w (Outside w.fs (Copied files jobs)) s :=
    hG.invariant (fun _ _ _ hheeds h hnext => h.next hs hheeds hnext) sparing_start hrun
  constructor
  · exact fun i hi => hfinal.spares.node i hi (hs.bounded i hi)
  · intro l hcopied htemp
    apply hfinal.spares.entry
    rintro (hl | hl)
    · exact hcopied hl
    · exact htemp hl

end Runs

/-- `/a` has been copied, `/b` is a symlink to `/x`, and `/x` is somebody else's. -/
def linkedAway : Fs :=
  .flat [([97], 1), ([98], 2), ([120], 3)]
    (fun i => ⟨match i with
      | 0 => .directory
      | 1 => .regular [1]
      | 2 => .symlink [120]
      | _ => .regular [7], 0x1A4, 0, 0, (0, 0), (0, 0)⟩) 4

theorem linkedAway_tree : linkedAway.Tree := Fs.flat_tree rfl (by decide) (by simp)

/-- `/b` is another name of the inode of `/a`. -/
def secondName : Job := ⟨[47, 97], [47, 98], ⟨0, 0, 0x1A4, (0, 0), (0, 0)⟩⟩

def noFiles : Fin 0 → Copy := fun i => i.elim0

def replayOnly : Local (Fin 0) := .start root plain noFiles [secondName] (.initial linkedAway)

/-- The replay makes a call that looks up no file. -/
def blind {ι : Type} (s : Local ι) : Act ι → Bool
  | .copy _ => false
  | .link _ =>
    match s.replay with
    | .call (.openFile _ _ _) _ | .call (.stat _) _ | .call (.lstat _) _ => false
    | _ => true

theorem heeds_of_blind {ι : Type} [Fintype ι] [DecidableEq ι] {O : ℕ → Prop} {jobs : List Job}
    {s : Local ι} {act : Act ι} (h : blind s act = true) : Heeds O jobs s act := by
  cases act with
  | copy act => cases h
  | link x =>
    intro c k hc
    unfold blind at h
    rw [hc] at h
    cases c with
    | openFile | stat | lstat => cases h
    | _ => trivial

/-- A symlink gives way to a hard link, and what it led to stays. -/
theorem outside_unharmed_linked : ∃ s : Local (Fin 0),
    Unharmed (Copied noFiles [secondName]) (Temporary root) linkedAway s.copies.shared.fs ∧
      s.copies.shared.fs.entry [[98]] = some 1 := by
  have hend : (Lib.Runs.exec (Local.next root) replayOnly
      (List.replicate 4 (.link ⟨none, 0, false⟩))).map
        (fun s => s.copies.shared.fs.entry [[98]]) = some (some 1) := by
    decide +kernel
  obtain ⟨s, hrun, hentry⟩ := Option.map_eq_some_iff.mp hend
  have hblind : Lib.Runs.Along (Local.next root) (fun s act => blind s act = true) replayOnly
      (List.replicate 4 (.link ⟨none, 0, false⟩)) := by
    decide +kernel
  exact ⟨s, outside_unharmed root plain noFiles [secondName] (.initial linkedAway) _ s
    linkedAway_tree (hblind.mono fun _ _ => heeds_of_blind) hrun, hentry⟩

/-- The link is refused, first because the name exists and then across file systems; the
copy empties and fills `/x`. -/
def crossing : List (Act (Fin 0)) :=
  .link ⟨none, 0, false⟩ :: .link ⟨none, 0, false⟩ :: .link ⟨some .crossDevice, 0, false⟩ ::
    List.replicate 13 (.link ⟨none, 0, false⟩)

theorem symlink_written_through : ¬ ∀ (who : Identity) (cfg : Tuning) (files : Fin 0 → Copy)
    (jobs : List Job) (w : World) (acts : List (Act (Fin 0))) (s : Local (Fin 0)), w.fs.Tree →
    Lib.Runs.exec (Local.next who) (.start who cfg files jobs w) acts = some s →
      Unharmed (Copied files jobs) (Temporary who) w.fs s.copies.shared.fs := by
  intro hclaim
  have hend : (Lib.Runs.exec (Local.next root) replayOnly crossing).map
      (fun s => (s.copies.shared.fs.node 3).kind) = some (.regular [1]) := by
    decide +kernel
  obtain ⟨s, hrun, hkind⟩ := Option.map_eq_some_iff.mp hend
  have hspared := (hclaim root plain noFiles [secondName] (.initial linkedAway) crossing s
    linkedAway_tree hrun).node 3 ⟨[[120]], ?_, rfl⟩
  · rw [hspared] at hkind
    revert hkind
    decide
  · rintro (⟨i, -⟩ | ⟨j, hj, hl⟩)
    · exact i.elim0
    · obtain rfl := List.mem_singleton.mp hj
      revert hl
      decide

end Ecopy.HardLinks
