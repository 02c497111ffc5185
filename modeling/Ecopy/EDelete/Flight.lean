import Ecopy.EDelete.Coverage

/-!
# What was chosen is removed

A chosen name is on its way, in a batch, in a queue or at a worker, until it is
gone. No boundary between two batches, no full queue and no queue that is closed
loses one.
-/
namespace Ecopy.EDelete
open Protocol (Bytes)
open Ecopy.Path (dot dotdot slash render resolve Ordinary pathMax Errno)
open DirWalk (DType)
open FileSystem Lib.Runs Lib.Threads

variable {c : Config}

def located (dir : Bytes) (names : List Bytes) : List Loc := names.map fun x => resolve dir ++ [x]

def WalkPc.locs (b : List Bytes) : WalkPc → List Loc
  | .reading n _ _ => located n.path b
  | .pushing n _ _ _ => located n.path b
  | .submitting n name _ _ => located n.path (b ++ [name])
  | .ending n => located n.path b
  | _ => []

def Item.locs (it : Item) : List Loc := located it.dir it.names

def WorkPc.locs : WorkPc → List Loc
  | .working items => items.flatMap Item.locs
  | .checking it _ items => it.locs ++ items.flatMap Item.locs
  | .unlinking dir _ names items => located dir names ++ items.flatMap Item.locs
  | _ => []

def InFlight (s : State c) (l : Loc) : Prop :=
  (∃ i, l ∈ (s.walker i).locs (s.batch i)) ∨ (∃ j, l ∈ (s.chan j).flatMap Item.locs) ∨
    ∃ j, l ∈ (s.worker j).locs

variable {s u : State c} {i : Fin c.threads} {j : Fin c.workers} {n : Node} {name : Bytes}
  {chan : Fin c.workers → List Item} {items : List Item} {buf : List (Bytes × DType)}
variable {given names : List Bytes}

theorem WorkPc.locs_unlinking {dir : Bytes} {fd : ℕ} {l : Loc}
    (h : l ∈ (WorkPc.unlinking dir fd (name :: names) items).locs) :
    l = resolve dir ++ [name] ∨ l ∈ (WorkPc.unlinking dir fd names items).locs := by
  simpa [WorkPc.locs, located, or_assoc] using h

theorem unlink_none {w : World} {l x : Loc} (i : ℕ) (now : ℤ) (h : w.fs.entry l = none) :
    (w.unlink x i now).fs.entry l = none := by
  by_cases hx : l = x
  · rw [hx]
    exact Function.update_self ..
  · rw [unlink_entry_of_ne i now hx]
    exact h

/-- What was chosen is on its way or gone. -/
def Flight (s : State c) : Prop :=
  c.dryRun = false → ∀ l ∈ picked s.log, s.world.fs.entry l = none ∨ InFlight s l

theorem Flight.start (c : Config) : Flight (State.start c) := by
  intro _ l hl
  cases hl

/-- A walker thread moves on with the names it had, and perhaps with one more. -/
theorem Flight.walk (hs : Flight s) {i : Fin c.threads} {p : WalkPc} {b : List Bytes}
    (hworld : u.world = s.world) (hwalker : u.walker = Function.update s.walker i p)
    (hbatch : u.batch = Function.update s.batch i b) (hworker : u.worker = s.worker)
    (hchan : ∀ j, ∀ it ∈ s.chan j, it ∈ u.chan j) (hkeeps : ∀ l ∈ (s.walker i).locs (s.batch i),
      l ∈ p.locs b ∨ ∃ j, l ∈ (u.chan j).flatMap Item.locs)
    (hnew : ∀ l ∈ picked u.log, l ∈ picked s.log ∨ l ∈ p.locs b) : Flight u := by
  intro hdelete l hl
  have hself : l ∈ p.locs b → InFlight u l := by
    intro hmem
    refine Or.inl ⟨i, ?_⟩
    rw [hwalker, hbatch, Function.update_self, Function.update_self]
    exact hmem
  rcases hnew l hl with hold | hmem
  · rw [hworld]
    rcases hs hdelete l hold with hnone | ⟨k, hk⟩ | ⟨j, hj⟩ | ⟨j, hj⟩
    · exact Or.inl hnone
    · refine Or.inr ?_
      by_cases hki : k = i
      · subst hki
        exact (hkeeps l hk).elim hself fun hqueued => Or.inr (Or.inl hqueued)
      · refine Or.inl ⟨k, ?_⟩
        rw [hwalker, hbatch, Function.update_of_ne hki, Function.update_of_ne hki]
        exact hk
    · obtain ⟨it, hit, hmem⟩ := List.mem_flatMap.mp hj
      exact Or.inr (Or.inr (Or.inl ⟨j, List.mem_flatMap.mpr ⟨it, hchan j it hit, hmem⟩⟩))
    · exact Or.inr (Or.inr (Or.inr ⟨j, by rw [hworker]; exact hj⟩))
  · exact Or.inr (hself hmem)

/-- A worker moves on; what it has no more is gone. -/
theorem Flight.work (hs : Flight s) {j : Fin c.workers} {q : WorkPc} {r : List Item}
    (hworld : ∀ l, s.world.fs.entry l = none → u.world.fs.entry l = none)
    (hwalker : u.walker = s.walker) (hbatch : u.batch = s.batch)
    (hworker : u.worker = Function.update s.worker j q)
    (hchan : u.chan = Function.update s.chan j r) (hlog : u.log = s.log)
    (hkeeps : ∀ l, l ∈ (s.chan j).flatMap Item.locs ∨ l ∈ (s.worker j).locs →
      u.world.fs.entry l = none ∨ l ∈ r.flatMap Item.locs ∨ l ∈ q.locs) : Flight u := by
  intro hdelete l hl
  rw [hlog] at hl
  have hself : l ∈ (s.chan j).flatMap Item.locs ∨ l ∈ (s.worker j).locs →
      u.world.fs.entry l = none ∨ InFlight u l := by
    intro hmem
    rcases hkeeps l hmem with hnone | hqueued | hheld
    · exact Or.inl hnone
    · refine Or.inr (Or.inr (Or.inl ⟨j, ?_⟩))
      rw [hchan, Function.update_self]
      exact hqueued
    · refine Or.inr (Or.inr (Or.inr ⟨j, ?_⟩))
      rw [hworker, Function.update_self]
      exact hheld
  rcases hs hdelete l hl with hnone | ⟨k, hk⟩ | ⟨k, hk⟩ | ⟨k, hk⟩
  · exact Or.inl (hworld l hnone)
  · exact Or.inr (Or.inl ⟨k, by rw [hwalker, hbatch]; exact hk⟩)
  · by_cases hkj : k = j
    · subst hkj
      exact hself (Or.inl hk)
    · exact Or.inr (Or.inr (Or.inl ⟨k, by rw [hchan, Function.update_of_ne hkj]; exact hk⟩))
  · by_cases hkj : k = j
    · subst hkj
      exact hself (Or.inr hk)
    · exact Or.inr (Or.inr (Or.inr ⟨k, by rw [hworker, Function.update_of_ne hkj]; exact hk⟩))

/-- The worker goes on with the same names, and nothing is taken from its queue. -/
theorem Flight.hold (hs : Flight s) {j : Fin c.workers} {q : WorkPc} (hworld : u.world = s.world)
    (hwalker : u.walker = s.walker) (hbatch : u.batch = s.batch)
    (hworker : u.worker = Function.update s.worker j q) (hchan : u.chan = s.chan)
    (hlog : u.log = s.log) (hlocs : (s.worker j).locs ⊆ q.locs) : Flight u := by
  apply hs.work (r := s.chan j) _ hwalker hbatch hworker _ hlog
  · intro l hl
    exact Or.inr (hl.imp_right fun hmem => hlocs hmem)
  · intro l hl
    rw [hworld]
    exact hl
  · rw [hchan, Function.update_eq_self]

/-- Nothing that is in flight is touched. -/
theorem Flight.frame (hs : Flight s)
    (hworld : ∀ l, s.world.fs.entry l = none → u.world.fs.entry l = none)
    (hwalker : u.walker = s.walker) (hbatch : u.batch = s.batch) (hworker : u.worker = s.worker)
    (hchan : u.chan = s.chan) (hlog : u.log = s.log) : Flight u := by
  intro hdelete l hl
  rw [hlog] at hl
  rcases hs hdelete l hl with hnone | hflight
  · exact Or.inl (hworld l hnone)
  · unfold InFlight at hflight ⊢
    rw [hwalker, hbatch, hworker, hchan]
    exact Or.inr hflight

theorem picked_note_of_none {log : List Event} {ev : Event} (h : ev.picks = none) :
    picked (log ++ [ev]) = picked log := by
  unfold picked
  rw [List.filterMap_append]
  simp [h]

theorem picked_note_entry (log : List Event) (n : Node) (name : Bytes) :
    picked (log ++ [.entry n name true]) = picked log ++ [resolve n.path ++ [name]] := by
  unfold picked
  rw [List.filterMap_append]
  rfl

theorem located_append (dir : Bytes) (xs ys : List Bytes) :
    located dir (xs ++ ys) = located dir xs ++ located dir ys :=
  List.map_append

/-- The batch is in its queue. -/
theorem Flushed.mem (h : Flushed s i n chan) (hopen : s.closed = false) (hstop : s.stop = false) :
    (∀ j, ∀ it ∈ s.chan j, it ∈ chan j) ∧
      ∀ l ∈ located n.path (s.batch i), ∃ j, l ∈ (chan j).flatMap Item.locs := by
  cases h with
  | dropped off =>
    rcases off with hclosed | hstopped
    · rw [hopen] at hclosed
      cases hclosed
    · rw [hstop] at hstopped
      cases hstopped
  | queued on =>
    constructor
    · intro j it hit
      by_cases hj : j = queueIndex c n.path
      · subst hj
        rw [Function.update_self]
        exact List.mem_append_left _ hit
      · rw [Function.update_of_ne hj]
        exact hit
    · intro l hl
      refine ⟨queueIndex c n.path, ?_⟩
      rw [Function.update_self, List.flatMap_append]
      exact List.mem_append_right _ (by simpa [Item.locs] using hl)

/-- The thread goes on with the same batch. -/
theorem Flight.same (hs : Flight s) {i : Fin c.threads} {p : WalkPc} (hworld : u.world = s.world)
    (hwalker : u.walker = Function.update s.walker i p) (hbatch : u.batch = s.batch)
    (hworker : u.worker = s.worker) (hchan : u.chan = s.chan) (hlog : picked u.log = picked s.log)
    (hlocs : (s.walker i).locs (s.batch i) ⊆ p.locs (s.batch i)) : Flight u := by
  apply hs.walk hworld hwalker (b := s.batch i)
  · rw [hbatch, Function.update_eq_self]
  · exact hworker
  · intro j it hit
    rw [hchan]
    exact hit
  · exact fun l hl => Or.inl (hlocs hl)
  · intro l hl
    rw [hlog] at hl
    exact Or.inl hl

/-- In a run without errors the directory of an item is still there when it is opened. -/
theorem Ground.openDir_item (hs : Ground s) (htree : c.Tree) (hphase : s.main.phase ≤ 1)
    {path : Bytes} {ino : ℕ} (h : At c path ino) : openDir s.world.fs path = .ok ino := by
  have hdir : c.world.fs.isDir (resolve path) = true := isDir_of_entry h.entry h.dir
  have hentry := hs.kept.dirs hphase _ hdir
  rw [h.entry] at hentry
  rw [h.rendered]
  exact hs.kept.openDir htree hentry h.dir

theorem Endgame.worker_phase (hs : Endgame s) (hdelete : c.dryRun = false) {j : Fin c.workers}
    (h : s.worker j ≠ .exited) : s.main.phase ≤ 1 := by
  by_contra hlate
  exact h (hs.workers (by omega) hdelete j).1

theorem Flight.full {t : DType} {k : Fin c.threads → Counters} {w : ℕ} (hs : Flight s)
    (at_entry : s.walker i = .reading n given ((name, t) :: buf)) :
    Flight { s with
      counters := k
      wouldDelete := w
      walker := Function.update s.walker i (.submitting n name given buf)
      log := s.log ++ [.entry n name true] } := by
  apply hs.walk (i := i) (p := .submitting n name given buf) (b := s.batch i)
  · rfl
  · rfl
  · exact (Function.update_eq_self ..).symm
  · rfl
  · exact fun j it hit => hit
  · intro x hx
    rw [at_entry] at hx
    simp only [WalkPc.locs, located_append, List.mem_append]
    exact Or.inl (Or.inl hx)
  · intro x hx
    rw [picked_note_entry] at hx
    simp only [WalkPc.locs, located_append, List.mem_append]
    exact (List.mem_append.mp hx).imp_right Or.inr

theorem Flight.add {t : DType} {k : Fin c.threads → Counters} {w : ℕ} {b : List Bytes} {e : ℕ}
    (hs : Flight s) (hzero : e = 0) (at_entry : s.walker i = .reading n given ((name, t) :: buf))
    (kept : Added (s.batch i) name b e) :
    Flight { s with
      counters := k
      wouldDelete := w
      batch := Function.update s.batch i b
      errors := s.errors + e
      walker := Function.update s.walker i (.reading n given buf)
      log := s.log ++ [.entry n name true] } := by
  have hb := kept.errors hzero
  apply hs.walk (i := i) (p := .reading n given buf) (b := b)
  · rfl
  · rfl
  · rfl
  · rfl
  · exact fun j it hit => hit
  · intro x hx
    rw [at_entry] at hx
    simp only [WalkPc.locs, hb, located_append, List.mem_append]
    exact Or.inl (Or.inl hx)
  · intro x hx
    rw [picked_note_entry] at hx
    simp only [WalkPc.locs, hb, located_append, List.mem_append]
    exact (List.mem_append.mp hx).imp_right Or.inr

theorem Flight.submitted {b : List Bytes} {e : ℕ} (hs : Flight s) (hstop : s.stop = false)
    (hopen : ∀ i, (s.walker i).busy = true → s.closed = false) (hzero : e = 0)
    (at_push : s.walker i = .submitting n name given buf) (sent : Flushed s i n chan)
    (kept : Added [] name b e) :
    Flight { s with
      chan := chan
      batch := Function.update s.batch i b
      errors := s.errors + e
      walker := Function.update s.walker i (.reading n given buf) } := by
  have hb := kept.errors hzero
  have hsent := sent.mem (hopen i (by rw [at_push]; rfl)) hstop
  apply hs.walk (i := i) (p := .reading n given buf) (b := b)
  · rfl
  · rfl
  · rfl
  · rfl
  · exact hsent.1
  · intro x hx
    rw [at_push] at hx
    simp only [WalkPc.locs, located_append, List.mem_append] at hx
    rcases hx with hx | hx
    · exact Or.inr (hsent.2 x hx)
    · rw [hb]
      exact Or.inl hx
  · exact fun x hx => Or.inl hx

theorem Flight.flushed (hs : Flight s) (hstop : s.stop = false)
    (hopen : ∀ i, (s.walker i).busy = true → s.closed = false) (at_end : s.walker i = .ending n)
    (sent : Flushed s i n chan) :
    Flight { s with chan := chan, batch := Function.update s.batch i [] } := by
  have hsent := sent.mem (hopen i (by rw [at_end]; rfl)) hstop
  apply hs.walk (i := i) (p := .ending n) (b := [])
  · rfl
  · rw [← at_end, Function.update_eq_self]
  · rfl
  · rfl
  · exact hsent.1
  · intro x hx
    rw [at_end] at hx
    exact Or.inr (hsent.2 x hx)
  · exact fun x hx => Or.inl hx

theorem Flight.dirEnd (hs : Flight s) (hground : Ground s) (at_end : s.walker i = .ending n)
    (empty : c.dryRun = true ∨ s.batch i = []) :
    Flight { s with
      wouldDelete := s.wouldDelete + (s.counters i).wouldDelete
      counters := Function.update s.counters i ⟨0, 0⟩
      walker := Function.update s.walker i .leaving } := by
  have hbatch : s.batch i = [] := by
    rcases empty with hdry | hempty
    · exact hground.traced.dry hdry i
    · exact hempty
  apply hs.same (i := i) (p := .leaving) <;> try rfl
  rw [at_end, hbatch]
  exact List.nil_subset _

theorem Flight.taken (hs : Flight s) (idle : s.worker j = .idle) :
    Flight { s with
      chan := Function.update s.chan j []
      worker := Function.update s.worker j (.working (s.chan j)) } := by
  apply hs.work (j := j) (q := .working (s.chan j)) (r := []) <;> try rfl
  · exact fun _ h => h
  · intro x hx
    rw [idle] at hx
    exact Or.inr (Or.inr (hx.resolve_right List.not_mem_nil))

theorem Flight.batchSkipped {it : Item} {e : ℕ} (hground : Ground s) (hendgame : Endgame s)
    (htree : c.Tree) (hstop : s.stop = false) (hzero : e = 0)
    (at_item : s.worker j = .working (it :: items))
    (why : s.stop = true ∨ e = 1 ∨ openDir s.world.fs it.dir = .error .enoent) :
    Flight { s with
      errors := s.errors + e
      worker := Function.update s.worker j (.working items) } := by
  intro hdelete
  have hat := hground.placed.worker_at at_item
  have hopened := hground.openDir_item htree
    (hendgame.worker_phase hdelete (j := j) (by rw [at_item]; simp))
    (hat it List.mem_cons_self).toAt
  exfalso
  rcases why with hstopped | he | hnoent
  · rw [hstop] at hstopped
    cases hstopped
  · omega
  · rw [hopened] at hnoent
    cases hnoent

theorem Flight.unlinkMissed {dir : Bytes} {fd : ℕ} {l : Option Loc} {e : ℕ} (hs : Flight s)
    (hground : Ground s) (htree : c.Tree) (hloc : l ≠ none) (hzero : e = 0)
    (at_name : s.worker j = .unlinking dir fd (name :: names) items)
    (why : e = 1 ∨ Misses s.world.fs l fd name) :
    Flight { s with
      errors := s.errors + e
      worker := Function.update s.worker j (.unlinking dir fd names items) } := by
  have hat := hground.placed.worker_at at_name
  have hgone : s.world.fs.entry (resolve dir ++ [name]) = none := by
    rcases why with he | hnone | ⟨at_dir, -, hfound, hnone⟩
    · omega
    · exact absurd hnone hloc
    · rwa [hground.kept.loc_eq htree hfound hat.1.entry hat.1.dir] at hnone
  apply hs.work (j := j) (q := .unlinking dir fd names items) (r := s.chan j) <;> try rfl
  · exact fun _ h => h
  · exact (Function.update_eq_self ..).symm
  · intro x hx
    rw [at_name] at hx
    rcases hx with hx | hx
    · exact Or.inr (Or.inl hx)
    · rcases WorkPc.locs_unlinking hx with rfl | hleft
      · exact Or.inl hgone
      · exact Or.inr (Or.inr hleft)

theorem Flight.unlinked {dir : Bytes} {fd : ℕ} {l : Loc} {now : ℤ} {child : ℕ} (hs : Flight s)
    (hground : Ground s) (htree : c.Tree)
    (at_name : s.worker j = .unlinking dir fd (name :: names) items)
    (found : s.world.fs.entry l = some fd) :
    Flight { s with
      world := s.world.unlink (l ++ [name]) child now
      worker := Function.update s.worker j (.unlinking dir fd names items) } := by
  have hat := hground.placed.worker_at at_name
  have hloc : l = resolve dir := hground.kept.loc_eq htree found hat.1.entry hat.1.dir
  apply hs.work (j := j) (q := .unlinking dir fd names items) (r := s.chan j) <;> try rfl
  · exact fun x hx => unlink_none child now hx
  · exact (Function.update_eq_self ..).symm
  · intro x hx
    rw [at_name] at hx
    rcases hx with hx | hx
    · exact Or.inr (Or.inl hx)
    · rcases WorkPc.locs_unlinking hx with rfl | hleft
      · rw [hloc]
        exact Or.inl (Function.update_self ..)
      · exact Or.inr (Or.inr hleft)

theorem Move.flight {a : Act c} (h : Move s a u) (htree : c.Tree) (hcalm : Calm s a)
    (hbefore : s.errors = 0) (herrors : u.errors = 0) (hstop : s.stop = false)
    (hground : Ground s) (hendgame : Endgame s) (hs : Flight s) : Flight u := by
  have hopen : ∀ i, (s.walker i).busy = true → s.closed = false := by
    intro i hbusy
    have hearly := (hendgame.busy_pos hbusy).2.2
    by_contra hclosed
    have hlate := hendgame.closed (by simpa using hclosed)
    omega
  cases h with
  | popNode i n queue idle first =>
    apply hs.same (i := i) (p := .opening n) <;> try rfl
    rw [idle]
    exact List.nil_subset _
  | walkerExit i idle complete =>
    apply hs.same (i := i) (p := .exited) <;> try rfl
    rw [idle]
    exact List.nil_subset _
  | nodeOpened i n fd at_node opened =>
    apply hs.same (i := i) (p := .checking n fd) <;> try rfl
    rw [at_node]
    exact List.nil_subset _
  | nodeBegun i n k w at_node dir counted =>
    apply hs.same (i := i) (p := .reading n [] []) <;> try rfl
    · exact picked_note_of_none rfl
    · rw [at_node]
      exact List.nil_subset _
  | filled i n given l chunk at_end dir real more =>
    apply hs.same (i := i) (p := .reading n (given ++ chunk.map Prod.fst) chunk) <;> try rfl
    · exact picked_note_of_none rfl
    · rw [at_end]
      exact List.Subset.refl _
  | eof i n given l at_end dir =>
    apply hs.same (i := i) (p := .ending n) <;> try rfl
    rw [at_end]
    exact List.Subset.refl _
  | stopReading i n given buf l at_entry stopping =>
    rw [hstop] at stopping
    cases stopping
  | skipDots i n given name t buf l at_entry dots =>
    apply hs.same (i := i) (p := .reading n given buf) <;> try rfl
    rw [at_entry]
    exact List.Subset.refl _
  | descend i n given name t buf l child path at_entry proper dir entry is_dir joined =>
    apply hs.same (i := i) (p := .pushing n ⟨path, child, n.depth + 1⟩ given buf) <;> try rfl
    · exact picked_note_of_none rfl
    · rw [at_entry]
      exact List.Subset.refl _
  | keep i n given name t buf l st k w at_entry proper seen chosen counted =>
    apply hs.same (i := i) (p := .reading n given buf) <;> try rfl
    · exact picked_note_of_none rfl
    · rw [at_entry]
      exact List.Subset.refl _
  | count i n given name t buf l st k w at_entry proper seen chosen counted dry =>
    intro hdelete
    rw [dry] at hdelete
    cases hdelete
  | full i n given name t buf l st k w at_entry proper seen chosen counted delete =>
    exact hs.full at_entry
  | add i n given name t buf l st k w b e at_entry proper seen chosen counted delete kept =>
    exact hs.add (by dsimp only at herrors; omega) at_entry kept
  | pushed i n child given buf at_push =>
    apply hs.same (i := i) (p := .reading n given buf) <;> try rfl
    rw [at_push]
    exact List.Subset.refl _
  | submitted i n name given buf chan b e at_push sent kept =>
    exact hs.submitted hstop hopen (by dsimp only at herrors; omega) at_push sent kept
  | flushed i n chan at_end sent delete => exact hs.flushed hstop hopen at_end sent
  | dirEnd i n at_end empty => exact hs.dirEnd hground at_end empty
  | finish i done at_end last =>
    apply hs.same (i := i) (p := .top) <;> try rfl
    rw [at_end]
    exact List.nil_subset _
  | taken j idle some_items => exact hs.taken idle
  | workerExit j idle complete =>
    apply hs.hold (j := j) (q := .exited) <;> try rfl
    rw [idle]
    exact List.nil_subset _
  | rested j fault at_end =>
    apply hs.hold (j := j) (q := .idle) <;> try rfl
    rw [at_end]
    exact List.nil_subset _
  | batchSkipped j fault it items e at_item why =>
    exact Flight.batchSkipped hground hendgame htree hstop (by dsimp only at herrors; omega) at_item why
  | batchOpened j it fd items at_item opened =>
    apply hs.hold (j := j) (q := .checking it fd items) <;> try rfl
    rw [at_item]
    exact fun x hx => hx
  | batchChecked j it items at_item dir =>
    apply hs.hold (j := j) (q := .unlinking it.dir it.ino it.names items) <;> try rfl
    rw [at_item]
    exact fun x hx => hx
  | batchDone j dir fd items l now fault at_end =>
    apply hs.hold (j := j) (q := .working items) <;> try rfl
    rw [at_end]
    exact fun x hx => hx
  | unlinkMissed j dir fd name names items l now fault e at_name why =>
    exact hs.unlinkMissed hground htree hcalm.1 (by dsimp only at herrors; omega) at_name why
  | unlinked j dir fd name names items l now child at_name found entry file =>
    exact hs.unlinked hground htree at_name found
  | dryOver walking left dry => exact hs.frame (fun _ h => h) rfl rfl rfl rfl rfl
  | close walking left delete => exact hs.frame (fun _ h => h) rfl rfl rfl rfl rfl
  | interrupted draining left stopping =>
    rw [hstop] at stopping
    cases stopping
  | drained draining left =>
    have hempty : ∀ j, s.chan j = [] := fun j => (hendgame.worker j (left j)).2
    exact hs.frame (fun _ h => h) rfl rfl rfl (funext fun j => (hempty j).symm) rfl
  | removalOver level removing joined => exact hs.frame (fun _ h => h) rfl rfl rfl rfl rfl
  | levelOver level later removing joined more => exact hs.frame (fun _ h => h) rfl rfl rfl rfl rfl
  | rmSkipped k l empty fault level later p d ds e removing at_rec why =>
    exact hs.frame (fun _ h => h) rfl rfl rfl rfl rfl
  | rmOpened k l empty level later d ds fd removing at_rec opened =>
    exact hs.frame (fun _ h => h) rfl rfl rfl rfl rfl
  | rmChecked k l empty fault level later d ds fd removing at_rec found entry dir =>
    exact hs.frame (fun _ h => h) rfl rfl rfl rfl rfl
  | removed k l level later d ds fd child removing at_rec found entry dir =>
    exact hs.frame (fun x hx => unlink_none child _ hx) rfl rfl rfl rfl rfl
  | shutdown => exact hcalm.elim
  | tamper w => exact hcalm.elim
  | nodeUnread i n k w at_node => cases hcalm
  | readFailed i n given chunk at_end => exact absurd rfl hcalm.1
  | _ =>
    dsimp only at herrors
    omega

end Ecopy.EDelete
