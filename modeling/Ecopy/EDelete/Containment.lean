import Ecopy.EDelete.DeleterSteps
import Ecopy.Lib.Runs

/-!
# Nothing outside the tree is unlinked

Others may do anything to the file system between two system calls. What the
deleter holds on to are inodes: a node is queued with the inode that `fstatat`
saw, an open is accepted only if it leads to that inode, and a batch carries the
inode its names were read from. `Contained` is the set of inodes that are found
in this way, starting from the start directory; every descriptor that names are
read from or unlinked from belongs to it.
-/
namespace Ecopy.EDelete
open Protocol (Bytes)
open Ecopy.Path (dot dotdot slash Ordinary)
open DirWalk (DType)
open FileSystem Lib.Runs

variable {c : Config}

/-- The start directory, and every directory that was seen, not through a symbolic link, as an
entry of one that was contained already. -/
inductive Contained (c : Config) : List Event → ℕ → Prop
  | start : Contained c [] c.rootIno
  | later (log : List Event) (ev : Event) (d : ℕ) (before : Contained c log d) :
      Contained c (log ++ [ev]) d
  | entry (log : List Event) (fs : Fs) (l : Loc) (name : Bytes) (d child : ℕ)
      (parent : Contained c log d) (dir : fs.entry l = some d)
      (found : fs.entry (l ++ [name]) = some child) (is_dir : (fs.node child).isDir = true) :
      Contained c (log ++ [.found fs l name]) child

/-- The name was read from this directory, and was an entry of it at that time. -/
def WasRead (log : List Event) (d : ℕ) (name : Bytes) : Prop :=
  ∃ fs l names, .read fs l names ∈ log ∧ fs.entry l = some d ∧ name ∈ names ∧
    (fs.entry (l ++ [name])).isSome = true

variable {log : List Event} {s : State c}

theorem Contained.append {d : ℕ} (h : Contained c log d) (evs : List Event) :
    Contained c (log ++ evs) d := by
  induction evs using List.reverseRecOn with
  | nil => simpa using h
  | append_singleton evs ev ih =>
    rw [← List.append_assoc]
    exact .later _ ev d ih

theorem WasRead.append {d : ℕ} {name : Bytes} (h : WasRead log d name) (evs : List Event) :
    WasRead (log ++ evs) d name := by
  obtain ⟨fs, l, names, hmem, hrest⟩ := h
  exact ⟨fs, l, names, List.mem_append_left evs hmem, hrest⟩

/-- Names of one contained directory. -/
structure Names (c : Config) (log : List Event) (d : ℕ) (names : List Bytes) : Prop where
  dir : Contained c log d
  read : ∀ x ∈ names, WasRead log d x

theorem Names.append {d : ℕ} {names : List Bytes} (h : Names c log d names) (evs : List Event) :
    Names c (log ++ evs) d names :=
  ⟨h.dir.append evs, fun x hx => (h.read x hx).append evs⟩

theorem Names.nil {d : ℕ} (h : Contained c log d) : Names c log d [] :=
  ⟨h, nofun⟩

theorem Names.add {d : ℕ} {names b : List Bytes} {name : Bytes} {e : ℕ} (h : Names c log d names)
    (hname : WasRead log d name) (hb : Added names name b e) : Names c log d b := by
  cases hb with
  | added => exact ⟨h.dir, List.forall_mem_append.mpr ⟨h.read, by simpa using hname⟩⟩
  | tooLong => exact h

/-- The rest of a buffer. -/
def Buffered (log : List Event) (d : ℕ) (buf : List (Bytes × DType)) : Prop :=
  ∀ e ∈ buf, e.1 ≠ dot ∧ e.1 ≠ dotdot → WasRead log d e.1

theorem Buffered.append {d : ℕ} {buf : List (Bytes × DType)} (h : Buffered log d buf)
    (evs : List Event) : Buffered (log ++ evs) d buf :=
  fun e he hproper => (h e he hproper).append evs

/-- What is known at a walker thread, which has collected the names `b`. -/
def WalkPc.Holds (c : Config) (log : List Event) (b : List Bytes) : WalkPc → Prop
  | .opening n => Contained c log n.ino ∧ b = []
  | .checking n _ => Contained c log n.ino ∧ b = []
  | .reading n _ buf => Names c log n.ino b ∧ Buffered log n.ino buf
  | .pushing n child _ buf =>
    Names c log n.ino b ∧ Contained c log child.ino ∧ Buffered log n.ino buf
  | .submitting n name _ buf =>
    Names c log n.ino b ∧ WasRead log n.ino name ∧ Buffered log n.ino buf ∧ c.dryRun = false
  | .ending n => Names c log n.ino b
  | _ => b = []

def Item.Holds (c : Config) (log : List Event) (it : Item) : Prop := Names c log it.ino it.names

def WorkPc.Holds (c : Config) (log : List Event) : WorkPc → Prop
  | .working items => ∀ it ∈ items, it.Holds c log
  | .checking it _ items => it.Holds c log ∧ ∀ x ∈ items, x.Holds c log
  | .unlinking _ fd names items => Names c log fd names ∧ ∀ x ∈ items, x.Holds c log
  | _ => True

theorem WalkPc.Holds.append {b : List Bytes} {p : WalkPc} (h : p.Holds c log b) (evs : List Event) :
    p.Holds c (log ++ evs) b := by
  cases p with
  | top => exact h
  | opening n => exact ⟨h.1.append evs, h.2⟩
  | checking n fd => exact ⟨h.1.append evs, h.2⟩
  | reading n given buf => exact ⟨h.1.append evs, h.2.append evs⟩
  | pushing n child given buf => exact ⟨h.1.append evs, h.2.1.append evs, h.2.2.append evs⟩
  | submitting n name given buf =>
    exact ⟨h.1.append evs, h.2.1.append evs, h.2.2.1.append evs, h.2.2.2⟩
  | ending n => exact Names.append h evs
  | leaving => exact h
  | exited => exact h

theorem Item.Holds.append {it : Item} (h : it.Holds c log) (evs : List Event) :
    it.Holds c (log ++ evs) :=
  Names.append h evs

theorem WorkPc.Holds.append {p : WorkPc} (h : p.Holds c log) (evs : List Event) :
    p.Holds c (log ++ evs) := by
  cases p with
  | idle => trivial
  | working items => exact fun it hit => (h it hit).append evs
  | checking it fd items => exact ⟨h.1.append evs, fun x hx => (h.2 x hx).append evs⟩
  | unlinking dir fd names items => exact ⟨h.1.append evs, fun x hx => (h.2 x hx).append evs⟩
  | exited => trivial

structure Traced (s : State c) : Prop where
  queue : ∀ n ∈ s.queue, Contained c s.log n.ino
  walker : ∀ i, (s.walker i).Holds c s.log (s.batch i)
  chan : ∀ j, ∀ it ∈ s.chan j, it.Holds c s.log
  worker : ∀ j, (s.worker j).Holds c s.log
  dry : c.dryRun = true → ∀ i, s.batch i = []

theorem Traced.start (c : Config) : Traced (State.start c) where
  queue := by
    intro n hn
    rw [List.mem_singleton.mp hn]
    exact .start
  walker := fun _ => rfl
  chan := nofun
  worker := fun _ => trivial
  dry := fun _ _ => rfl

theorem Traced.walker_at (hs : Traced s) {i : Fin c.threads} {p : WalkPc} (h : s.walker i = p) :
    p.Holds c s.log (s.batch i) :=
  h ▸ hs.walker i

theorem Traced.worker_at (hs : Traced s) {j : Fin c.workers} {p : WorkPc} (h : s.worker j = p) :
    p.Holds c s.log :=
  h ▸ hs.worker j

theorem Traced.entry_done (hs : Traced s) {i : Fin c.threads} {n : Node} {given : List Bytes}
    {e : Bytes × DType} {buf : List (Bytes × DType)} (h : s.walker i = .reading n given (e :: buf)) :
    (WalkPc.reading n given buf).Holds c s.log (s.batch i) :=
  ⟨(hs.walker_at h).1, fun e he => (hs.walker_at h).2 e (List.mem_cons_of_mem _ he)⟩

/-- One entry is added to the log. -/
theorem Traced.note (hs : Traced s) (ev : Event) : Traced { s with log := s.log ++ [ev] } where
  queue := fun n hn => (hs.queue n hn).append [ev]
  walker := fun i => (hs.walker i).append [ev]
  chan := fun j it hit => (hs.chan j it hit).append [ev]
  worker := fun j => (hs.worker j).append [ev]
  dry := hs.dry

/-- A walker thread moves on. -/
theorem Traced.walk (hs : Traced s) {i : Fin c.threads} {p : WalkPc}
    (h : p.Holds c s.log (s.batch i)) :
    Traced { s with walker := Function.update s.walker i p } := by
  refine { hs with walker := fun k => ?_ }
  dsimp only
  by_cases hk : k = i
  · subst hk
    rw [Function.update_self]
    exact h
  · rw [Function.update_of_ne hk]
    exact hs.walker k

theorem Traced.walkBatch (hs : Traced s) {i : Fin c.threads} {p : WalkPc} {b : List Bytes}
    (h : p.Holds c s.log b) (hdry : c.dryRun = true → b = []) :
    Traced { s with
      batch := Function.update s.batch i b
      walker := Function.update s.walker i p } := by
  refine { hs with walker := fun k => ?_, dry := fun hd k => ?_ }
  · dsimp only
    by_cases hk : k = i
    · subst hk
      rw [Function.update_self, Function.update_self]
      exact h
    · rw [Function.update_of_ne hk, Function.update_of_ne hk]
      exact hs.walker k
  · dsimp only
    by_cases hk : k = i
    · subst hk
      rw [Function.update_self]
      exact hdry hd
    · rw [Function.update_of_ne hk]
      exact hs.dry hd k

theorem Traced.work (hs : Traced s) {j : Fin c.workers} {p : WorkPc} (h : p.Holds c s.log) :
    Traced { s with worker := Function.update s.worker j p } := by
  refine { hs with worker := fun k => ?_ }
  dsimp only
  by_cases hk : k = j
  · subst hk
    rw [Function.update_self]
    exact h
  · rw [Function.update_of_ne hk]
    exact hs.worker k

/-- The batch of a thread goes to the queue that is chosen for it. -/
theorem Traced.flush (hs : Traced s) {i : Fin c.threads} {n : Node}
    {chan : Fin c.workers → List Item} (h : Flushed s i n chan)
    (hnames : Names c s.log n.ino (s.batch i)) : Traced { s with chan := chan } := by
  cases h with
  | dropped off => exact hs
  | queued on =>
    refine { hs with chan := fun k => ?_ }
    dsimp only
    by_cases hk : k = queueIndex c n.path
    · subst hk
      rw [Function.update_self]
      exact List.forall_mem_append.mpr ⟨hs.chan _, List.forall_mem_singleton.mpr hnames⟩
    · rw [Function.update_of_ne hk]
      exact hs.chan k

theorem Traced.clearChan (hs : Traced s) (j : Fin c.workers) :
    Traced { s with chan := Function.update s.chan j [] } := by
  refine { hs with chan := fun k => ?_ }
  dsimp only
  by_cases hk : k = j
  · subst hk
    rw [Function.update_self]
    exact nofun
  · rw [Function.update_of_ne hk]
    exact hs.chan k

theorem Move.traced {u : State c} {a : Act c} (h : Move s a u) (hs : Traced s) : Traced u := by
  cases h with
  | popNode i n queue idle first =>
    have hat := hs.walker_at idle
    have hqueue := hs.queue
    rw [first] at hqueue
    have hn : (WalkPc.opening n).Holds c s.log (s.batch i) :=
      ⟨hqueue n List.mem_cons_self, hat⟩
    have hmoved := hs.walk hn
    exact { hmoved with queue := fun m hm => hqueue m (List.mem_cons_of_mem n hm) }
  | walkerExit i idle complete =>
    have hat := hs.walker_at idle
    exact hs.walk (p := .exited) hat
  | nodeOpened i n fd at_node opened =>
    have hat := hs.walker_at at_node
    exact hs.walk (p := .checking n fd) hat
  | nodeRefused i n fault at_node =>
    have hat := hs.walker_at at_node
    have hmoved := hs.walk (p := .leaving) hat.2
    exact { hmoved with }
  | nodeChanged i n fd streams at_node =>
    have hat := hs.walker_at at_node
    have hmoved := hs.walk (p := .leaving) hat.2
    exact { hmoved with }
  | nodeBegun i n k w at_node dir counted =>
    have hat := hs.walker_at at_node
    have hp : (WalkPc.reading n [] []).Holds c s.log (s.batch i) := by
      rw [hat.2]
      exact ⟨.nil hat.1, nofun⟩
    have hmoved := (hs.walk hp).note (.begun n)
    exact { hmoved with }
  | nodeUnread i n k w at_node =>
    have hat := hs.walker_at at_node
    have hp : (WalkPc.ending n).Holds c s.log (s.batch i) := by
      rw [hat.2]
      exact .nil hat.1
    have hmoved := (hs.walk hp).note (.begun n)
    exact { hmoved with }
  | readFailed i n given chunk at_end =>
    have hat := hs.walker_at at_end
    have hmoved := hs.walk (p := .ending n) hat.1
    exact { hmoved with }
  | filled i n given l chunk at_end dir real more =>
    have hat := hs.walker_at at_end
    have hnoted := hs.note (.read s.world.fs l (chunk.map Prod.fst))
    have hp : (WalkPc.reading n (given ++ chunk.map Prod.fst) chunk).Holds c
        (s.log ++ [.read s.world.fs l (chunk.map Prod.fst)]) (s.batch i) := by
      refine ⟨hat.1.append _, fun e he hproper => ?_⟩
      -- the name was an entry of the directory when it was read
      have hreal := (real e he).resolve_right (not_or.mpr hproper)
      exact ⟨s.world.fs, l, chunk.map Prod.fst, by simp, dir, List.mem_map_of_mem he, hreal⟩
    exact hnoted.walk hp
  | eof i n given l at_end dir =>
    have hat := hs.walker_at at_end
    exact hs.walk (p := .ending n) hat.1
  | stopReading i n given buf l at_entry stopping =>
    have hat := hs.walker_at at_entry
    exact hs.walk (p := .ending n) hat.1
  | skipDots i n given name t buf l at_entry dots =>
    have hp := hs.entry_done at_entry
    exact hs.walk hp
  | statFailed i n given name t buf l at_entry =>
    have hp := hs.entry_done at_entry
    have hmoved := hs.walk hp
    exact { hmoved with }
  | tooLong i n given name t buf l at_entry =>
    have hp := hs.entry_done at_entry
    have hmoved := (hs.walk hp).note (.found s.world.fs l name)
    exact { hmoved with }
  | descend i n given name t buf l child path at_entry proper dir entry is_dir joined =>
    have hat := hs.walker_at at_entry
    have hnoted := hs.note (.found s.world.fs l name)
    have hp : (WalkPc.pushing n ⟨path, child, n.depth + 1⟩ given buf).Holds c
        (s.log ++ [.found s.world.fs l name]) (s.batch i) := by
      refine ⟨hat.1.append _, ?_, fun e he hproper => ?_⟩
      · exact .entry s.log s.world.fs l name n.ino child hat.1.dir dir entry is_dir
      · exact (hat.2 e (List.mem_cons_of_mem _ he) hproper).append _
    exact hnoted.walk hp
  | keep i n given name t buf l st k w at_entry proper seen chosen counted =>
    have hp := hs.entry_done at_entry
    have hmoved := (hs.walk hp).note (.entry n name false)
    exact { hmoved with }
  | count i n given name t buf l st k w at_entry proper seen chosen counted dry =>
    have hp := hs.entry_done at_entry
    have hmoved := (hs.walk hp).note (.entry n name true)
    exact { hmoved with }
  | full i n given name t buf l st k w at_entry proper seen chosen counted delete =>
    have hat := hs.walker_at at_entry
    have hp : (WalkPc.submitting n name given buf).Holds c s.log (s.batch i) :=
      ⟨hat.1, hat.2 (name, t) List.mem_cons_self proper,
        fun e he => hat.2 e (List.mem_cons_of_mem _ he), delete⟩
    have hmoved := (hs.walk hp).note (.entry n name true)
    exact { hmoved with }
  | add i n given name t buf l st k w b e at_entry proper seen chosen counted delete kept =>
    have hat := hs.walker_at at_entry
    have hname := hat.2 (name, t) List.mem_cons_self proper
    have hp : (WalkPc.reading n given buf).Holds c s.log b :=
      ⟨hat.1.add hname kept, fun e he => hat.2 e (List.mem_cons_of_mem _ he)⟩
    have hmoved := (hs.walkBatch (i := i) hp fun hdry => absurd hdry (by simp [delete])).note (.entry n name true)
    exact { hmoved with }
  | pushed i n child given buf at_push =>
    have hat := hs.walker_at at_push
    have hp : (WalkPc.reading n given buf).Holds c s.log (s.batch i) := ⟨hat.1, hat.2.2⟩
    have hmoved := hs.walk hp
    exact { hmoved with
      queue := List.forall_mem_append.mpr ⟨hs.queue, by simpa using hat.2.1⟩ }
  | submitted i n name given buf chan b e at_push sent kept =>
    have hat := hs.walker_at at_push
    have hp : (WalkPc.reading n given buf).Holds c s.log b :=
      ⟨(Names.nil hat.1.dir).add hat.2.1 kept, hat.2.2.1⟩
    have hmoved := (hs.flush sent hat.1).walkBatch (i := i) hp fun hdry =>
      absurd hdry (by simp [hat.2.2.2])
    exact { hmoved with }
  | flushed i n chan at_end sent delete =>
    have hat := hs.walker_at at_end
    have hp : (WalkPc.ending n).Holds c s.log [] := .nil hat.dir
    have hmoved := (hs.flush sent hat).walkBatch (i := i) hp fun _ => rfl
    have hsame : Function.update s.walker i (.ending n) = s.walker := by
      rw [← at_end, Function.update_eq_self]
    rw [hsame] at hmoved
    exact hmoved
  | dirEnd i n at_end empty =>
    have hbatch : s.batch i = [] := by
      rcases empty with hdry | hempty
      · exact hs.dry hdry i
      · exact hempty
    have hmoved := hs.walk (p := .leaving) hbatch
    exact { hmoved with }
  | finish i done at_end last =>
    have hat := hs.walker_at at_end
    have hmoved := hs.walk (p := .top) hat
    exact { hmoved with }
  | taken j idle some_items =>
    have hp : (WorkPc.working (s.chan j)).Holds c s.log := hs.chan j
    exact (hs.clearChan j).work hp
  | workerExit j idle complete => exact hs.work (p := .exited) trivial
  | rested j fault at_end => exact hs.work (p := .idle) trivial
  | batchSkipped j fault it items e at_item why =>
    have hat := hs.worker_at at_item
    have hp : (WorkPc.working items).Holds c s.log :=
      fun x hx => hat x (List.mem_cons_of_mem it hx)
    have hmoved := hs.work (j := j) hp
    exact { hmoved with }
  | batchOpened j it fd items at_item opened =>
    have hat := hs.worker_at at_item
    have hp : (WorkPc.checking it fd items).Holds c s.log :=
      ⟨hat it List.mem_cons_self, fun x hx => hat x (List.mem_cons_of_mem it hx)⟩
    exact hs.work hp
  | batchChecked j it items at_item dir =>
    have hat := hs.worker_at at_item
    exact hs.work (p := .unlinking it.dir it.ino it.names items) hat
  | batchChanged j it fd items at_item =>
    have hat := hs.worker_at at_item
    have hmoved := hs.work (j := j) (p := .working items) hat.2
    exact { hmoved with }
  | batchDone j dir fd items l now fault at_end =>
    have hat := hs.worker_at at_end
    exact hs.work (p := .working items) hat.2
  | unlinkMissed j dir fd name names items l now fault e at_name why =>
    have hat := hs.worker_at at_name
    have hp : (WorkPc.unlinking dir fd names items).Holds c s.log :=
      ⟨⟨hat.1.dir, fun x hx => hat.1.read x (List.mem_cons_of_mem name hx)⟩, hat.2⟩
    have hmoved := hs.work (j := j) hp
    exact { hmoved with }
  | unlinked j dir fd name names items l now child at_name found entry file =>
    have hat := hs.worker_at at_name
    have hp : (WorkPc.unlinking dir fd names items).Holds c s.log :=
      ⟨⟨hat.1.dir, fun x hx => hat.1.read x (List.mem_cons_of_mem name hx)⟩, hat.2⟩
    have hmoved := hs.work (j := j) hp
    exact { hmoved with }
  | dryOver walking left dry => exact { hs with }
  | close walking left delete => exact { hs with }
  | interrupted draining left stopping => exact { hs with chan := nofun }
  | drained draining left => exact { hs with chan := nofun }
  | removalOver level removing joined => exact { hs with }
  | levelOver level later removing joined more => exact { hs with }
  | rmSkipped k l empty fault level later p d ds e removing at_rec why => exact { hs with }
  | rmOpened k l empty level later d ds fd removing at_rec opened => exact { hs with }
  | rmChecked k l empty fault level later d ds fd removing at_rec found entry dir =>
    exact { hs with }
  | removed k l level later d ds fd child removing at_rec found entry dir => exact { hs with }
  | shutdown => exact { hs with }
  | tamper w => exact { hs with }

theorem traced {c : Config} {as : List (Act c)} {s : State c}
    (hr : exec step (State.start c) as = some s) : Traced s :=
  Reachable.invariant ⟨as, hr⟩ (Traced.start c) fun _ _ _ hs h => (step_move h).traced hs

theorem unlink_entry_of_ne {w : World} {l x : Loc} (i : ℕ) (now : ℤ) (h : x ≠ l) :
    (w.unlink l i now).fs.entry x = w.fs.entry x :=
  Function.update_of_ne h _ _

/-- Whatever others do between two system calls: when a step of the deleter makes a non-directory
disappear, the directory is one that the walk found from the start directory, and the name was
read from that directory. -/
theorem unlinks_are_contained {c : Config} {as : List (Act c)} {s u : State c} {a : Act c}
    (hr : exec step (State.start c) as = some s) (h : step s a = some u)
    (hown : ∀ w, a ≠ .tamper w) {x : Loc} (hfile : s.world.fs.isFile x = true)
    (hgone : u.world.fs.entry x = none) :
    ∃ l name d, x = l ++ [name] ∧ s.world.fs.entry l = some d ∧ Contained c s.log d ∧
      WasRead s.log d name := by
  have hs := traced hr
  obtain ⟨i, hi, hkind⟩ := Fs.isFile_iff.mp hfile
  have hmove := step_move h
  cases hmove with
  | unlinked j dir fd name names items l now child at_name found entry file =>
    have hat := hs.worker_at at_name
    by_cases hx : x = l ++ [name]
    · exact ⟨l, name, fd, hx, found, hat.1.dir, hat.1.read name List.mem_cons_self⟩
    · rw [unlink_entry_of_ne child now hx, hi] at hgone
      cases hgone
  | removed k l level later d ds fd child removing at_rec found entry dir =>
    by_cases hx : x = l ++ [nameOf d.path]
    · -- what `AT_REMOVEDIR` removes is a directory
      rw [hx, entry] at hi
      cases hi
      rw [dir] at hkind
      cases hkind
    · rw [unlink_entry_of_ne child _ hx, hi] at hgone
      cases hgone
  | tamper w => exact absurd rfl (hown w)
  | _ =>
    rw [hi] at hgone
    cases hgone

/-- A world with the directories of a list, and files by their inodes. -/
def smallWorld (entries : List (Loc × ℕ)) (dirs : List ℕ) : World where
  fs := {
    entry := fun l => entries.lookup l
    node := fun i => ⟨if i ∈ dirs then .directory else .regular [], 0, 0, 0, (0, 0), (0, 0)⟩
    next := entries.length }
  ctime := fun _ => 0

theorem ordinary_top : ∀ x ∈ ([[116]] : Loc), Ordinary x := by
  simp [Ordinary, Lib.Fields.Proper, slash, dot, dotdot]

theorem top_ne_nil : ([[116]] : Loc) ≠ [] := List.cons_ne_nil _ _

/-- `/t/f`, all of `/t` is to be deleted. -/
def oneFile : Config where
  dryRun := false
  filter := ⟨none, none, true, 0, .mtime, 0⟩
  lazyStat := true
  threads := 1
  workers := 1
  top := [[116]]
  world := smallWorld [([], 0), ([[116]], 1), ([[116], [102]], 2)] [0, 1]
  rootIno := 1
  threads_pos := Nat.one_pos
  workers_pos := Nat.one_pos
  lazy := fun _ => ⟨rfl, rfl, rfl⟩
  ordinary := ordinary_top
  top_ne := top_ne_nil
  root_found := by decide

def oneWalker : Fin oneFile.threads := ⟨0, Nat.one_pos⟩

def oneWorker : Fin oneFile.workers := ⟨0, Nat.one_pos⟩

/-- After the worker has opened the directory, it is renamed to `/m` and another takes its place. -/
def swapped : List (Act oneFile) :=
  [.pop oneWalker, .openNode oneWalker false, .checkNode oneWalker true,
    .readDir oneWalker (some [[116]]) [([102], .other)], .readEntry oneWalker none,
    .readDir oneWalker (some [[116]]) [], .submit oneWalker, .take oneWorker,
    .openBatch oneWorker false, .checkBatch oneWorker,
    .tamper (smallWorld [([], 0), ([[109]], 1), ([[109], [102]], 2), ([[116]], 3),
      ([[116], [102]], 4)] [0, 1, 3])]

theorem unlinks_are_contained_swapped :
    ∃ s u, exec step (State.start oneFile) swapped = some s ∧
      step s (.unlinkName oneWorker (some [[109]]) 0 false) = some u ∧
      u.world.fs.entry [[109], [102]] = none ∧ u.world.fs.entry [[116], [102]] = some 4 ∧
      ∃ l name d, [[109], [102]] = l ++ [name] ∧ s.world.fs.entry l = some d ∧
        Contained oneFile s.log d ∧ WasRead s.log d name := by
  have hr : exec step (State.start oneFile) swapped =
      some ((exec step (State.start oneFile) swapped).getD (State.start oneFile)) := rfl
  have hu : step ((exec step (State.start oneFile) swapped).getD (State.start oneFile))
      (.unlinkName oneWorker (some [[109]]) 0 false) =
      some ((step ((exec step (State.start oneFile) swapped).getD (State.start oneFile))
        (.unlinkName oneWorker (some [[109]]) 0 false)).getD (State.start oneFile)) := rfl
  refine ⟨_, _, hr, hu, rfl, rfl, ?_⟩
  exact unlinks_are_contained hr hu (by simp) rfl rfl

end Ecopy.EDelete
