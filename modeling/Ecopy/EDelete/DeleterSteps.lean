import Ecopy.EDelete.Deleter

/-!
# Steps of the tree deleter

A transition is one of the moves listed in `Move`, with the action that it
belongs to. Whatever others do to the file system is a move as well, so the
relation says what a call returns only in terms of the state that it sees.
-/
namespace Ecopy.EDelete
open Protocol (Bytes)
open Ecopy.Path (Errno pathMax dot dotdot slash)
open Server (pathJoinFast)
open DirWalk (DType)
open FileSystem

variable {c : Config}

/-- The end of `batch_add`: the name is in the batch, or an error is counted. -/
inductive Added (names : List Bytes) (name : Bytes) : List Bytes → ℕ → Prop
  | added : Added names name (names ++ [name]) 0
  | tooLong : Added names name names 1

/-- The queues after `unlink_queue_push`. -/
inductive Flushed (s : State c) (i : Fin c.threads) (n : Node) :
    (Fin c.workers → List Item) → Prop
  | dropped (off : s.closed = true ∨ s.stop = true) : Flushed s i n s.chan
  | queued (on : s.closed = false) : Flushed s i n (Function.update s.chan (queueIndex c n.path)
      (s.chan (queueIndex c n.path) ++ [⟨n.path, n.ino, s.batch i⟩]))

/-- An entry is no directory: by its type, or by the stat, which is returned. -/
inductive Seen (s : State c) (n : Node) (name : Bytes) (t : DType) (l : Option Loc) :
    Option Stat → Prop
  | lazily (skip : skipStat c t = true) : Seen s n name t l none
  | stat (at_dir : Loc) (child : ℕ) (given : l = some at_dir)
      (dir : s.world.fs.entry at_dir = some n.ino)
      (entry : s.world.fs.entry (at_dir ++ [name]) = some child)
      (file : (s.world.fs.node child).isDir = false) :
      Seen s n name t l (some (s.world.stat child))

/-- A call relative to `fd` finds no entry of that name. -/
def Misses (fs : Fs) (l : Option Loc) (fd : ℕ) (name : Bytes) : Prop :=
  l = none ∨ ∃ at_dir, l = some at_dir ∧ fs.entry at_dir = some fd ∧
    fs.entry (at_dir ++ [name]) = none

/-- Why `rmdir_one` gives up on a directory without an error. -/
def Skips (s : State c) (d : DirRec) (l : Option Loc) (empty : Bool) : RmPc → Prop
  | .ready => d.path = [slash] ∨ openDir s.world.fs d.parent = .error .enoent
  | .opened fd => Misses s.world.fs l fd (nameOf d.path)
  | .checked fd => Misses s.world.fs l fd (nameOf d.path) ∨
      ∃ at_dir i, l = some at_dir ∧ s.world.fs.entry at_dir = some fd ∧
        s.world.fs.entry (at_dir ++ [nameOf d.path]) = some i ∧
        ((s.world.fs.node i).isDir = false ∨ empty = false)

inductive Move (s : State c) : Act c → State c → Prop
  | popNode (i : Fin c.threads) (n : Node) (queue : List Node) (idle : s.walker i = .top)
      (first : s.queue = n :: queue) :
      Move s (.pop i) { s with
        queue := queue
        active := s.active + 1
        walker := Function.update s.walker i (.opening n) }
  | walkerExit (i : Fin c.threads) (idle : s.walker i = .top)
      (complete : s.stop = true ∨ s.queue = [] ∧ s.done = true) :
      Move s (.pop i) { s with walker := Function.update s.walker i .exited }
  | nodeOpened (i : Fin c.threads) (n : Node) (fd : ℕ) (at_node : s.walker i = .opening n)
      (opened : openDir s.world.fs n.path = .ok fd) :
      Move s (.openNode i false) { s with
        walker := Function.update s.walker i (.checking n fd) }
  | nodeRefused (i : Fin c.threads) (n : Node) (fault : Bool) (at_node : s.walker i = .opening n) :
      Move s (.openNode i fault) { s with
        errors := s.errors + 1
        walker := Function.update s.walker i .leaving }
  | nodeChanged (i : Fin c.threads) (n : Node) (fd : ℕ) (streams : Bool)
      (at_node : s.walker i = .checking n fd) :
      Move s (.checkNode i streams) { s with
        errors := s.errors + 1
        walker := Function.update s.walker i .leaving }
  | nodeBegun (i : Fin c.threads) (n : Node) (k : Fin c.threads → Counters) (w : ℕ)
      (at_node : s.walker i = .checking n n.ino) (dir : (s.world.fs.node n.ino).isDir = true)
      (counted : countEntry s i = { s with counters := k, wouldDelete := w }) :
      Move s (.checkNode i true) { s with
        counters := k
        wouldDelete := w
        dirs := if c.dryRun then s.dirs else s.dirs ++ [⟨n.path, n.depth, n.ino⟩]
        walker := Function.update s.walker i (.reading n [] [])
        log := s.log ++ [.begun n] }
  | nodeUnread (i : Fin c.threads) (n : Node) (k : Fin c.threads → Counters) (w : ℕ)
      (at_node : s.walker i = .checking n n.ino) :
      Move s (.checkNode i false) { s with
        counters := k
        wouldDelete := w
        dirs := if c.dryRun then s.dirs else s.dirs ++ [⟨n.path, n.depth, n.ino⟩]
        errors := s.errors + 2
        walker := Function.update s.walker i (.ending n)
        log := s.log ++ [.begun n] }
  | readFailed (i : Fin c.threads) (n : Node) (given : List Bytes)
      (chunk : List (Bytes × DType)) (at_end : s.walker i = .reading n given []) :
      Move s (.readDir i none chunk) { s with
        errors := s.errors + 2
        walker := Function.update s.walker i (.ending n) }
  | filled (i : Fin c.threads) (n : Node) (given : List Bytes) (l : Loc)
      (chunk : List (Bytes × DType)) (at_end : s.walker i = .reading n given [])
      (dir : s.world.fs.entry l = some n.ino)
      (real : ∀ e ∈ chunk, (s.world.fs.entry (l ++ [e.1])).isSome = true ∨ e.1 = dot ∨
        e.1 = dotdot) (more : chunk ≠ []) :
      Move s (.readDir i (some l) chunk) { s with
        walker := Function.update s.walker i (.reading n (given ++ chunk.map Prod.fst) chunk)
        log := s.log ++ [.read s.world.fs l (chunk.map Prod.fst)] }
  | eof (i : Fin c.threads) (n : Node) (given : List Bytes) (l : Loc)
      (at_end : s.walker i = .reading n given []) (dir : s.world.fs.entry l = some n.ino) :
      Move s (.readDir i (some l) []) { s with
        walker := Function.update s.walker i (.ending n) }
  | stopReading (i : Fin c.threads) (n : Node) (given : List Bytes) (buf : List (Bytes × DType))
      (l : Option Loc) (at_entry : s.walker i = .reading n given buf) (stopping : s.stop = true) :
      Move s (.readEntry i l) { s with walker := Function.update s.walker i (.ending n) }
  | skipDots (i : Fin c.threads) (n : Node) (given : List Bytes) (name : Bytes) (t : DType)
      (buf : List (Bytes × DType)) (l : Option Loc)
      (at_entry : s.walker i = .reading n given ((name, t) :: buf))
      (dots : name = dot ∨ name = dotdot) :
      Move s (.readEntry i l) { s with
        walker := Function.update s.walker i (.reading n given buf) }
  | statFailed (i : Fin c.threads) (n : Node) (given : List Bytes) (name : Bytes) (t : DType)
      (buf : List (Bytes × DType)) (l : Option Loc)
      (at_entry : s.walker i = .reading n given ((name, t) :: buf)) :
      Move s (.readEntry i l) { s with
        errors := s.errors + 1
        walker := Function.update s.walker i (.reading n given buf) }
  | tooLong (i : Fin c.threads) (n : Node) (given : List Bytes) (name : Bytes) (t : DType)
      (buf : List (Bytes × DType)) (l : Loc)
      (at_entry : s.walker i = .reading n given ((name, t) :: buf)) :
      Move s (.readEntry i (some l)) { s with
        errors := s.errors + 1
        walker := Function.update s.walker i (.reading n given buf)
        log := s.log ++ [.found s.world.fs l name] }
  | descend (i : Fin c.threads) (n : Node) (given : List Bytes) (name : Bytes) (t : DType)
      (buf : List (Bytes × DType)) (l : Loc) (child : ℕ) (path : Bytes)
      (at_entry : s.walker i = .reading n given ((name, t) :: buf))
      (proper : name ≠ dot ∧ name ≠ dotdot) (dir : s.world.fs.entry l = some n.ino)
      (entry : s.world.fs.entry (l ++ [name]) = some child)
      (is_dir : (s.world.fs.node child).isDir = true)
      (joined : pathJoinFast n.path name pathMax = some path) :
      Move s (.readEntry i (some l)) { s with
        walker := Function.update s.walker i (.pushing n ⟨path, child, n.depth + 1⟩ given buf)
        log := s.log ++ [.found s.world.fs l name] }
  | keep (i : Fin c.threads) (n : Node) (given : List Bytes) (name : Bytes) (t : DType)
      (buf : List (Bytes × DType)) (l : Option Loc) (st : Option Stat)
      (k : Fin c.threads → Counters) (w : ℕ)
      (at_entry : s.walker i = .reading n given ((name, t) :: buf))
      (proper : name ≠ dot ∧ name ≠ dotdot) (seen : Seen s n name t l st)
      (chosen : st.all (eligible c.filter) = false)
      (counted : countEntry s i = { s with counters := k, wouldDelete := w }) :
      Move s (.readEntry i l) { s with
        counters := k
        wouldDelete := w
        walker := Function.update s.walker i (.reading n given buf)
        log := s.log ++ [.entry n name false] }
  | count (i : Fin c.threads) (n : Node) (given : List Bytes) (name : Bytes) (t : DType)
      (buf : List (Bytes × DType)) (l : Option Loc) (st : Option Stat)
      (k : Fin c.threads → Counters) (w : ℕ)
      (at_entry : s.walker i = .reading n given ((name, t) :: buf))
      (proper : name ≠ dot ∧ name ≠ dotdot) (seen : Seen s n name t l st)
      (chosen : st.all (eligible c.filter) = true)
      (counted : countEntry s i = { s with counters := k, wouldDelete := w })
      (dry : c.dryRun = true) :
      Move s (.readEntry i l) { s with
        counters := Function.update k i { k i with wouldDelete := (k i).wouldDelete + 1 }
        wouldDelete := w
        walker := Function.update s.walker i (.reading n given buf)
        log := s.log ++ [.entry n name true] }
  | full (i : Fin c.threads) (n : Node) (given : List Bytes) (name : Bytes) (t : DType)
      (buf : List (Bytes × DType)) (l : Option Loc) (st : Option Stat)
      (k : Fin c.threads → Counters) (w : ℕ)
      (at_entry : s.walker i = .reading n given ((name, t) :: buf))
      (proper : name ≠ dot ∧ name ≠ dotdot) (seen : Seen s n name t l st)
      (chosen : st.all (eligible c.filter) = true)
      (counted : countEntry s i = { s with counters := k, wouldDelete := w })
      (delete : c.dryRun = false) :
      Move s (.readEntry i l) { s with
        counters := k
        wouldDelete := w
        walker := Function.update s.walker i (.submitting n name given buf)
        log := s.log ++ [.entry n name true] }
  | add (i : Fin c.threads) (n : Node) (given : List Bytes) (name : Bytes) (t : DType)
      (buf : List (Bytes × DType)) (l : Option Loc) (st : Option Stat)
      (k : Fin c.threads → Counters) (w : ℕ) (b : List Bytes) (e : ℕ)
      (at_entry : s.walker i = .reading n given ((name, t) :: buf))
      (proper : name ≠ dot ∧ name ≠ dotdot) (seen : Seen s n name t l st)
      (chosen : st.all (eligible c.filter) = true)
      (counted : countEntry s i = { s with counters := k, wouldDelete := w })
      (delete : c.dryRun = false) (kept : Added (s.batch i) name b e) :
      Move s (.readEntry i l) { s with
        counters := k
        wouldDelete := w
        batch := Function.update s.batch i b
        errors := s.errors + e
        walker := Function.update s.walker i (.reading n given buf)
        log := s.log ++ [.entry n name true] }
  | pushed (i : Fin c.threads) (n child : Node) (given : List Bytes)
      (buf : List (Bytes × DType)) (at_push : s.walker i = .pushing n child given buf) :
      Move s (.push i) { s with
        queue := s.queue ++ [child]
        walker := Function.update s.walker i (.reading n given buf) }
  | submitted (i : Fin c.threads) (n : Node) (name : Bytes) (given : List Bytes)
      (buf : List (Bytes × DType)) (chan : Fin c.workers → List Item) (b : List Bytes) (e : ℕ)
      (at_push : s.walker i = .submitting n name given buf) (sent : Flushed s i n chan)
      (kept : Added [] name b e) :
      Move s (.submit i) { s with
        chan := chan
        batch := Function.update s.batch i b
        errors := s.errors + e
        walker := Function.update s.walker i (.reading n given buf) }
  | flushed (i : Fin c.threads) (n : Node) (chan : Fin c.workers → List Item)
      (at_end : s.walker i = .ending n) (sent : Flushed s i n chan)
      (delete : c.dryRun = false) :
      Move s (.submit i) { s with chan := chan, batch := Function.update s.batch i [] }
  | dirEnd (i : Fin c.threads) (n : Node) (at_end : s.walker i = .ending n)
      (empty : c.dryRun = true ∨ s.batch i = []) :
      Move s (.dirEnd i) { s with
        wouldDelete := s.wouldDelete + (s.counters i).wouldDelete
        counters := Function.update s.counters i ⟨0, 0⟩
        walker := Function.update s.walker i .leaving }
  | finish (i : Fin c.threads) (done : Bool) (at_end : s.walker i = .leaving)
      (last : done = s.done ∨ done = true ∧ s.queue = [] ∧ s.active - 1 = 0) :
      Move s (.finish i) { s with
        active := s.active - 1
        done := done
        walker := Function.update s.walker i .top }
  | taken (j : Fin c.workers) (idle : s.worker j = .idle) (some_items : s.chan j ≠ []) :
      Move s (.take j) { s with
        chan := Function.update s.chan j []
        worker := Function.update s.worker j (.working (s.chan j)) }
  | workerExit (j : Fin c.workers) (idle : s.worker j = .idle)
      (complete : s.stop = true ∨ s.chan j = [] ∧ s.closed = true) :
      Move s (.take j) { s with worker := Function.update s.worker j .exited }
  | rested (j : Fin c.workers) (fault : Bool) (at_end : s.worker j = .working []) :
      Move s (.openBatch j fault) { s with worker := Function.update s.worker j .idle }
  | batchSkipped (j : Fin c.workers) (fault : Bool) (it : Item) (items : List Item) (e : ℕ)
      (at_item : s.worker j = .working (it :: items))
      (why : s.stop = true ∨ e = 1 ∨ openDir s.world.fs it.dir = .error .enoent) :
      Move s (.openBatch j fault) { s with
        errors := s.errors + e
        worker := Function.update s.worker j (.working items) }
  | batchOpened (j : Fin c.workers) (it : Item) (fd : ℕ) (items : List Item)
      (at_item : s.worker j = .working (it :: items))
      (opened : openDir s.world.fs it.dir = .ok fd) :
      Move s (.openBatch j false) { s with
        worker := Function.update s.worker j (.checking it fd items) }
  | batchChecked (j : Fin c.workers) (it : Item) (items : List Item)
      (at_item : s.worker j = .checking it it.ino items)
      (dir : (s.world.fs.node it.ino).isDir = true) :
      Move s (.checkBatch j) { s with
        worker := Function.update s.worker j (.unlinking it.dir it.ino it.names items) }
  | batchChanged (j : Fin c.workers) (it : Item) (fd : ℕ) (items : List Item)
      (at_item : s.worker j = .checking it fd items) :
      Move s (.checkBatch j) { s with
        errors := s.errors + 1
        worker := Function.update s.worker j (.working items) }
  | batchDone (j : Fin c.workers) (dir : Bytes) (fd : ℕ) (items : List Item) (l : Option Loc)
      (now : ℤ) (fault : Bool) (at_end : s.worker j = .unlinking dir fd [] items) :
      Move s (.unlinkName j l now fault) { s with
        worker := Function.update s.worker j (.working items) }
  | unlinkMissed (j : Fin c.workers) (dir : Bytes) (fd : ℕ) (name : Bytes) (names : List Bytes)
      (items : List Item) (l : Option Loc) (now : ℤ) (fault : Bool) (e : ℕ)
      (at_name : s.worker j = .unlinking dir fd (name :: names) items)
      (why : e = 1 ∨ Misses s.world.fs l fd name) :
      Move s (.unlinkName j l now fault) { s with
        errors := s.errors + e
        worker := Function.update s.worker j (.unlinking dir fd names items) }
  | unlinked (j : Fin c.workers) (dir : Bytes) (fd : ℕ) (name : Bytes) (names : List Bytes)
      (items : List Item) (l : Loc) (now : ℤ) (child : ℕ)
      (at_name : s.worker j = .unlinking dir fd (name :: names) items)
      (found : s.world.fs.entry l = some fd)
      (entry : s.world.fs.entry (l ++ [name]) = some child)
      (file : (s.world.fs.node child).isDir = false) :
      Move s (.unlinkName j (some l) now false) { s with
        world := s.world.unlink (l ++ [name]) child now
        worker := Function.update s.worker j (.unlinking dir fd names items) }
  | dryOver (walking : s.main = .walking) (left : ∀ i, s.walker i = .exited)
      (dry : c.dryRun = true) : Move s .walkOver { s with main := .complete }
  | close (walking : s.main = .walking) (left : ∀ i, s.walker i = .exited)
      (delete : c.dryRun = false) : Move s .walkOver { s with closed := true, main := .draining }
  | interrupted (draining : s.main = .draining) (left : ∀ j, s.worker j = .exited)
      (stopping : s.stop = true) : Move s .drained { s with chan := fun _ => [], main := .complete }
  | drained (draining : s.main = .draining) (left : ∀ j, s.worker j = .exited) :
      Move s .drained { s with
        chan := fun _ => []
        main := .removing [] (s.dirs.mergeSort byDepth) }
  | removalOver (level : List (RmPc × List DirRec)) (removing : s.main = .removing level [])
      (joined : ∀ t ∈ level, t.2 = []) : Move s .levelOver { s with main := .complete }
  | levelOver (level : List (RmPc × List DirRec)) (later : List DirRec)
      (removing : s.main = .removing level later) (joined : ∀ t ∈ level, t.2 = [])
      (more : later ≠ []) :
      Move s .levelOver { s with
        main := .removing (nextLevel c later).1 (nextLevel c later).2 }
  | rmSkipped (k : ℕ) (l : Option Loc) (empty fault : Bool)
      (level : List (RmPc × List DirRec)) (later : List DirRec) (p : RmPc) (d : DirRec)
      (ds : List DirRec) (e : ℕ) (removing : s.main = .removing level later)
      (at_rec : level[k]? = some (p, d :: ds)) (why : e = 1 ∨ Skips s d l empty p) :
      Move s (.removeStep k l empty fault) { s with
        errors := s.errors + e
        main := .removing (level.set k (.ready, ds)) later }
  | rmOpened (k : ℕ) (l : Option Loc) (empty : Bool) (level : List (RmPc × List DirRec))
      (later : List DirRec) (d : DirRec) (ds : List DirRec) (fd : ℕ)
      (removing : s.main = .removing level later) (at_rec : level[k]? = some (.ready, d :: ds))
      (opened : openDir s.world.fs d.parent = .ok fd) :
      Move s (.removeStep k l empty false) { s with
        main := .removing (level.set k (.opened fd, d :: ds)) later }
  | rmChecked (k : ℕ) (l : Loc) (empty fault : Bool) (level : List (RmPc × List DirRec))
      (later : List DirRec) (d : DirRec) (ds : List DirRec) (fd : ℕ)
      (removing : s.main = .removing level later)
      (at_rec : level[k]? = some (.opened fd, d :: ds)) (found : s.world.fs.entry l = some fd)
      (entry : s.world.fs.entry (l ++ [nameOf d.path]) = some d.ino)
      (dir : (s.world.fs.node d.ino).isDir = true) :
      Move s (.removeStep k (some l) empty fault) { s with
        main := .removing (level.set k (.checked fd, d :: ds)) later }
  | removed (k : ℕ) (l : Loc) (level : List (RmPc × List DirRec)) (later : List DirRec)
      (d : DirRec) (ds : List DirRec) (fd child : ℕ) (removing : s.main = .removing level later)
      (at_rec : level[k]? = some (.checked fd, d :: ds)) (found : s.world.fs.entry l = some fd)
      (entry : s.world.fs.entry (l ++ [nameOf d.path]) = some child)
      (dir : (s.world.fs.node child).isDir = true) :
      Move s (.removeStep k (some l) true false) { s with
        world := s.world.unlink (l ++ [nameOf d.path]) child (s.world.ctime child)
        main := .removing (level.set k (.ready, ds)) later }
  | shutdown : Move s .shutdown { s with stop := true, done := true }
  | tamper (w : World) : Move s (.tamper w) { s with world := w }

theorem lookup_eq_some {fs : Fs} {l : Loc} {fd : ℕ} {name : Bytes} {r : Option ℕ}
    (h : lookup fs l fd name = some r) : fs.entry l = some fd ∧ fs.entry (l ++ [name]) = r := by
  unfold lookup at h
  split_ifs at h with hdir
  cases h
  exact ⟨hdir.1, rfl⟩

theorem countEntry_eq (s : State c) (i : Fin c.threads) :
    ∃ k w, countEntry s i = { s with counters := k, wouldDelete := w } := by
  unfold countEntry flushCounters
  dsimp only
  split_ifs
  · exact ⟨_, _, rfl⟩
  · exact ⟨_, s.wouldDelete, rfl⟩

variable {s u : State c} {i : Fin c.threads} {j : Fin c.workers} {l : Option Loc}

theorem pop_move (h : pop s i = some u) : Move s (.pop i) u := by
  unfold pop at h
  split at h
  · next hidle =>
    by_cases hstop : s.stop = true
    · rw [if_pos hstop] at h
      cases h
      exact .walkerExit i hidle (Or.inl hstop)
    · rw [if_neg hstop] at h
      split at h
      · next n queue hfirst =>
        cases h
        exact .popNode i n queue hidle hfirst
      · next hempty =>
        split_ifs at h with hdone
        cases h
        exact .walkerExit i hidle (Or.inr ⟨hempty, hdone⟩)
  · cases h

theorem openNode_move {fault : Bool} (h : openNode s i fault = some u) :
    Move s (.openNode i fault) u := by
  unfold openNode at h
  split at h
  · next n hat =>
    split at h
    · cases h
      exact .nodeRefused i n fault hat
    · next fd hopened =>
      cases fault with
      | true =>
        cases h
        exact .nodeRefused i n true hat
      | false =>
        cases h
        exact .nodeOpened i n fd hat hopened
  · cases h

theorem checkNode_move {streams : Bool} (h : checkNode s i streams = some u) :
    Move s (.checkNode i streams) u := by
  unfold checkNode at h
  split at h
  · next n fd hat =>
    split_ifs at h with hsame hstreams
    · obtain ⟨hdir, rfl⟩ := hsame
      subst hstreams
      cases h
      obtain ⟨k, w, hcounted⟩ := countEntry_eq s i
      have hmove := Move.nodeBegun i n k w hat hdir hcounted
      unfold dirBegin
      rw [hcounted]
      split_ifs with hdry
      · rw [if_pos hdry] at hmove
        exact hmove
      · rw [if_neg hdry] at hmove
        exact hmove
    · obtain ⟨hdir, rfl⟩ := hsame
      rw [Bool.not_eq_true] at hstreams
      subst hstreams
      cases h
      obtain ⟨k, w, hcounted⟩ := countEntry_eq s i
      have hmove := Move.nodeUnread (s := s) i n k w hat
      unfold dirBegin
      rw [hcounted]
      split_ifs with hdry
      · rw [if_pos hdry] at hmove
        exact hmove
      · rw [if_neg hdry] at hmove
        exact hmove
    · cases h
      exact .nodeChanged i n fd streams hat
  · cases h

theorem readDir_move {chunk : List (Bytes × DType)} (h : readDir s i l chunk = some u) :
    Move s (.readDir i l chunk) u := by
  unfold readDir at h
  split at h
  · next n given hat =>
    cases l with
    | none =>
      cases h
      exact .readFailed i n given chunk hat
    | some l =>
      dsimp only at h
      split_ifs at h with hfound hend
      · subst hend
        cases h
        exact .eof i n given l hat hfound.1
      · cases h
        exact .filled i n given l chunk hat hfound.1 hfound.2 hend
  · cases h

theorem addName_eq (s : State c) (i : Fin c.threads) (name : Bytes) :
    ∃ b e, Added (s.batch i) name b e ∧
      addName s i name = { s with
        batch := Function.update s.batch i b
        errors := s.errors + e } := by
  unfold addName
  split_ifs
  · refine ⟨s.batch i, 1, .tooLong, ?_⟩
    rw [Function.update_eq_self]
    rfl
  · exact ⟨s.batch i ++ [name], 0, .added, rfl⟩

theorem fileEntry_move {n : Node} {name : Bytes} {t : DType} {given : List Bytes}
    {buf : List (Bytes × DType)} {st : Option Stat}
    (hat : s.walker i = .reading n given ((name, t) :: buf)) (proper : name ≠ dot ∧ name ≠ dotdot)
    (seen : Seen s n name t l st) :
    Move s (.readEntry i l) (fileEntry s i n name given buf st) := by
  obtain ⟨k, w, hcounted⟩ := countEntry_eq s i
  unfold fileEntry
  rw [hcounted]
  dsimp only
  cases hchosen : st.all (eligible c.filter) with
  | false => exact .keep i n given name t buf l st k w hat proper seen hchosen hcounted
  | true =>
    rw [if_neg (by simp)]
    split_ifs with hdry hfull
    · exact .count i n given name t buf l st k w hat proper seen hchosen hcounted hdry
    · exact .full i n given name t buf l st k w hat proper seen hchosen hcounted
        (by simpa using hdry)
    · obtain ⟨b, e, hadded, heq⟩ := addName_eq
        (State.note { s with counters := k, wouldDelete := w } (.entry n name true)) i name
      rw [heq]
      exact .add i n given name t buf l st k w b e hat proper seen hchosen hcounted
        (by simpa using hdry) hadded

theorem readEntry_move (h : readEntry s i l = some u) : Move s (.readEntry i l) u := by
  unfold readEntry at h
  split at h
  · next n given name t buf hat =>
    split_ifs at h with hstop hdots hskip
    · cases h
      exact .stopReading i n given _ l hat hstop
    · cases h
      exact .skipDots i n given name t buf l hat hdots
    · cases h
      exact fileEntry_move hat (not_or.mp hdots) (.lazily hskip)
    · cases l with
      | none =>
        cases h
        exact .statFailed i n given name t buf none hat
      | some l =>
        obtain ⟨r, hr, rfl⟩ := Option.map_eq_some_iff.mp h
        obtain ⟨hdir, hentry⟩ := lookup_eq_some hr
        cases r with
        | none => exact .statFailed i n given name t buf (some l) hat
        | some child =>
          dsimp only
          unfold statEntry
          split_ifs with hisdir
          · dsimp only
            split
            · exact .tooLong i n given name t buf l hat
            · next path hpath =>
              exact .descend i n given name t buf l child path hat (not_or.mp hdots) hdir
                hentry hisdir hpath
          · exact fileEntry_move hat (not_or.mp hdots)
              (.stat l child rfl hdir hentry (Bool.eq_false_iff.mpr hisdir))
  · cases h

theorem flushBatch_eq {v : State c} {n : Node} (h : flushBatch s i n = some v) :
    ∃ chan, Flushed s i n chan ∧
      v = { s with chan := chan, batch := Function.update s.batch i [] } := by
  unfold flushBatch at h
  dsimp only at h
  split_ifs at h with hoff hfull
  · cases h
    exact ⟨s.chan, .dropped (by simpa using hoff), rfl⟩
  · cases h
    refine ⟨_, .queued ?_, rfl⟩
    simp only [Bool.or_eq_true, not_or, Bool.not_eq_true] at hoff
    exact hoff.1

theorem submit_move (h : submit s i = some u) : Move s (.submit i) u := by
  unfold submit at h
  split at h
  · next n name given buf hat =>
    obtain ⟨v, hv, rfl⟩ := Option.map_eq_some_iff.mp h
    obtain ⟨chan, hflushed, rfl⟩ := flushBatch_eq hv
    obtain ⟨b, e, hadded, heq⟩ := addName_eq
      { s with chan := chan, batch := Function.update s.batch i [] } i name
    rw [heq]
    dsimp only at hadded ⊢
    rw [Function.update_self] at hadded
    rw [Function.update_idem]
    exact .submitted i n name given buf chan b e hat hflushed hadded
  · next n hat =>
    split_ifs at h with hdelete
    obtain ⟨chan, hflushed, rfl⟩ := flushBatch_eq h
    exact .flushed i n chan hat hflushed hdelete.1
  · cases h

theorem dirEnd_move (h : dirEnd s i = some u) : Move s (.dirEnd i) u := by
  unfold dirEnd at h
  split at h
  · next n hat =>
    split_ifs at h with hempty
    cases h
    exact .dirEnd i n hat hempty
  · cases h

theorem finish_move (h : finish s i = some u) : Move s (.finish i) u := by
  unfold finish at h
  split at h
  · next hat =>
    dsimp only at h
    split_ifs at h with hlast
    · cases h
      exact .finish i true hat (Or.inr ⟨rfl, List.isEmpty_iff.mp hlast.1, hlast.2⟩)
    · cases h
      exact .finish i s.done hat (Or.inl rfl)
  · cases h

theorem take_move (h : take s j = some u) : Move s (.take j) u := by
  unfold take at h
  split at h
  · next hidle =>
    split_ifs at h with hstop hsome hclosed
    · cases h
      exact .workerExit j hidle (Or.inl hstop)
    · cases h
      exact .taken j hidle hsome
    · cases h
      exact .workerExit j hidle (Or.inr ⟨not_not.mp hsome, hclosed⟩)
  · cases h

theorem openBatch_move {fault : Bool} (h : openBatch s j fault = some u) :
    Move s (.openBatch j fault) u := by
  unfold openBatch at h
  split at h
  · next hat =>
    cases h
    exact .rested j fault hat
  · next it items hat =>
    by_cases hstop : s.stop = true
    · rw [if_pos hstop] at h
      cases h
      exact .batchSkipped j fault it items 0 hat (Or.inl hstop)
    · rw [if_neg hstop] at h
      split at h
      · next e he =>
        cases h
        by_cases hnoent : e = .enoent
        · rw [hnoent] at he ⊢
          exact .batchSkipped j fault it items 0 hat (Or.inr (Or.inr he))
        · rw [if_neg hnoent]
          exact .batchSkipped j fault it items 1 hat (Or.inr (Or.inl rfl))
      · next fd hopened =>
        cases fault with
        | true =>
          cases h
          exact .batchSkipped j true it items 1 hat (Or.inr (Or.inl rfl))
        | false =>
          cases h
          exact .batchOpened j it fd items hat hopened
  · cases h

theorem checkBatch_move (h : checkBatch s j = some u) : Move s (.checkBatch j) u := by
  unfold checkBatch at h
  split at h
  · next it fd items hat =>
    split_ifs at h with hsame
    · obtain ⟨hdir, rfl⟩ := hsame
      cases h
      exact .batchChecked j it items hat hdir
    · cases h
      exact .batchChanged j it fd items hat
  · cases h

theorem unlinkName_move {now : ℤ} {fault : Bool} (h : unlinkName s j l now fault = some u) :
    Move s (.unlinkName j l now fault) u := by
  unfold unlinkName at h
  split at h
  · next dir fd items hat =>
    cases h
    exact .batchDone j dir fd items l now fault hat
  · next dir fd name names items hat =>
    cases l with
    | none =>
      cases h
      exact .unlinkMissed j dir fd name names items none now fault 0 hat
        (Or.inr (Or.inl rfl))
    | some l =>
      obtain ⟨r, hr, rfl⟩ := Option.map_eq_some_iff.mp h
      obtain ⟨hdir, hentry⟩ := lookup_eq_some hr
      cases r with
      | none =>
        exact .unlinkMissed j dir fd name names items (some l) now fault 0 hat
          (Or.inr (Or.inr ⟨l, rfl, hdir, hentry⟩))
      | some child =>
        dsimp only
        split_ifs with hrefused
        · exact .unlinkMissed j dir fd name names items (some l) now fault 1 hat
            (Or.inl rfl)
        · rw [not_or] at hrefused
          obtain rfl : fault = false := by simpa using hrefused.2
          exact .unlinked j dir fd name names items l now child hat hdir hentry
            (Bool.eq_false_iff.mpr hrefused.1)
  · cases h

theorem removeStep_move {k : ℕ} {empty fault : Bool} (h : removeStep s k l empty fault = some u) :
    Move s (.removeStep k l empty fault) u := by
  unfold removeStep at h
  split at h
  · next level later hat =>
    dsimp only at h
    split at h
    · next d ds hrec =>
      cases h
      unfold rmOpen
      by_cases hroot : d.path = [slash]
      · rw [if_pos hroot]
        exact .rmSkipped k l empty fault level later .ready d ds 0 hat hrec
          (Or.inr (Or.inl hroot))
      · rw [if_neg hroot]
        split
        · next e he =>
          by_cases hnoent : e = .enoent
          · rw [hnoent] at he ⊢
            exact .rmSkipped k l empty fault level later .ready d ds 0 hat hrec
              (Or.inr (Or.inr he))
          · rw [if_neg hnoent]
            exact .rmSkipped k l empty fault level later .ready d ds 1 hat hrec
              (Or.inl rfl)
        · next fd hopened =>
          cases fault with
          | true =>
            exact .rmSkipped k l empty true level later .ready d ds 1 hat hrec (Or.inl rfl)
          | false => exact .rmOpened k l empty level later d ds fd hat hrec hopened
    · next fd d ds hrec =>
      cases l with
      | none =>
        cases h
        exact .rmSkipped k none empty fault level later (.opened fd) d ds 0 hat hrec
          (Or.inr (Or.inl rfl))
      | some l =>
        obtain ⟨r, hr, rfl⟩ := Option.map_eq_some_iff.mp h
        obtain ⟨hdir, hentry⟩ := lookup_eq_some hr
        cases r with
        | none =>
          exact .rmSkipped k (some l) empty fault level later (.opened fd) d ds 0 hat hrec
            (Or.inr (Or.inr ⟨l, rfl, hdir, hentry⟩))
        | some child =>
          dsimp only
          split_ifs with hsame
          · obtain ⟨hisdir, rfl⟩ := hsame
            exact .rmChecked k l empty fault level later d ds fd hat hrec hdir hentry hisdir
          · exact .rmSkipped k (some l) empty fault level later (.opened fd) d ds 1 hat hrec
              (Or.inl rfl)
    · next fd d ds hrec =>
      cases l with
      | none =>
        cases h
        exact .rmSkipped k none empty fault level later (.checked fd) d ds 0 hat hrec
          (Or.inr (Or.inl (Or.inl rfl)))
      | some l =>
        obtain ⟨r, hr, rfl⟩ := Option.map_eq_some_iff.mp h
        obtain ⟨hdir, hentry⟩ := lookup_eq_some hr
        cases r with
        | none =>
          exact .rmSkipped k (some l) empty fault level later (.checked fd) d ds 0 hat hrec
            (Or.inr (Or.inl (Or.inr ⟨l, rfl, hdir, hentry⟩)))
        | some child =>
          dsimp only
          split_ifs with hrefused hfault
          · exact .rmSkipped k (some l) empty fault level later (.checked fd) d ds 0 hat
              hrec (Or.inr (Or.inr ⟨l, child, rfl, hdir, hentry, hrefused⟩))
          · exact .rmSkipped k (some l) empty fault level later (.checked fd) d ds 1 hat hrec
              (Or.inl rfl)
          · rw [not_or] at hrefused
            obtain rfl : fault = false := by simpa using hfault
            obtain rfl : empty = true := by simpa using hrefused.2
            exact .removed k l level later d ds fd child hat hrec hdir hentry
              (by simpa using hrefused.1)
    · cases h
  · cases h

theorem step_move {a : Act c} (h : step s a = some u) : Move s a u := by
  cases a with
  | pop i => exact pop_move h
  | openNode i fault => exact openNode_move h
  | checkNode i streams => exact checkNode_move h
  | readDir i l chunk => exact readDir_move h
  | readEntry i l => exact readEntry_move h
  | push i =>
    simp only [step, push] at h
    split at h
    · next n child given buf hat =>
      cases h
      exact .pushed i n child given buf hat
    · cases h
  | submit i => exact submit_move h
  | dirEnd i => exact dirEnd_move h
  | finish i => exact finish_move h
  | take j => exact take_move h
  | openBatch j fault => exact openBatch_move h
  | checkBatch j => exact checkBatch_move h
  | unlinkName j l now fault => exact unlinkName_move h
  | walkOver =>
    simp only [step, walkOver] at h
    split_ifs at h with hleft hdry
    · cases h
      exact .dryOver hleft.1 hleft.2 hdry
    · cases h
      exact .close hleft.1 hleft.2 (by simpa using hdry)
  | drained =>
    simp only [step, EDelete.drained] at h
    split_ifs at h with hleft hstop
    · cases h
      exact .interrupted hleft.1 hleft.2 hstop
    · cases h
      exact .drained hleft.1 hleft.2
  | levelOver =>
    simp only [step, EDelete.levelOver] at h
    split at h
    · next level later hat =>
      split_ifs at h with hjoined hend
      · subst hend
        cases h
        exact .removalOver level hat hjoined
      · cases h
        exact .levelOver level later hat hjoined hend
    · cases h
  | removeStep k l empty fault => exact removeStep_move h
  | shutdown =>
    cases h
    exact .shutdown
  | tamper w =>
    cases h
    exact .tamper w

end Ecopy.EDelete
