import Ecopy.EDelete.Flight

/-!
# What is chosen

Unlinking one name of an inode renews its change time, and a filter on the change
time judges the other names by the renewed one. Apart from that, an entry is
judged as the deleter found it in the beginning, however late the walk reaches it.
A dry run counts what is chosen and touches nothing.
-/
namespace Ecopy.EDelete
open Protocol (Bytes)
open Ecopy.Path (dot dotdot slash render resolve Ordinary pathMax Errno)
open DirWalk (DType)
open FileSystem Lib.Runs Lib.Threads

variable {c : Config}

/-- The filter looks at the change time. -/
def Filter.ByCtime (f : Filter) : Prop := f.basis = .ctime ∧ f.deleteAll = false

theorem eligible_congr {f : Filter} {a b : Stat} (huid : a.uid = b.uid) (hgid : a.gid = b.gid)
    (hatime : a.atime = b.atime) (hmtime : a.mtime = b.mtime)
    (hctime : f.ByCtime → a.ctime = b.ctime) : eligible f a = eligible f b := by
  unfold eligible
  rw [huid, hgid]
  by_cases hall : f.deleteAll = true
  · simp [hall]
  · have hts : pickTs f a = pickTs f b := by
      unfold pickTs
      cases hbasis : f.basis with
      | atime => exact hatime
      | mtime => exact hmtime
      | ctime => exact hctime ⟨hbasis, by simpa using hall⟩
    rw [hts]

/-- Another name of the inode has been removed, which renewed the time that the filter looks at. -/
def Renewed (s : State c) (l : Loc) (i : ℕ) : Prop :=
  c.filter.ByCtime ∧ ∃ l', l' ≠ l ∧ c.top <+: l' ∧ c.world.fs.entry l' = some i ∧
    s.world.fs.entry l' = none

/-- What `walk_entry` found out about an entry. -/
def Verdict (s : State c) (n : Node) (name : Bytes) (chosen : Bool) : Prop :=
  c.top <+: resolve n.path ∧ ∃ i, c.world.fs.entry (resolve n.path ++ [name]) = some i ∧
    (c.world.fs.node i).isDir = false ∧
    (chosen = eligible c.filter (c.world.stat i) ∨ Renewed s (resolve n.path ++ [name]) i)

/-- What is known about an event when it is logged. -/
def Fresh (s u : State c) : Event → Prop
  | .entry n name chosen => Verdict s n name chosen
  | .begun n => n.Ok c ∧ (c.dryRun = false → ⟨n.path, n.depth, n.ino⟩ ∈ u.dirs)
  | _ => True

structure Judged (s : State c) : Prop where
  ctime : ∀ i, s.world.ctime i = c.world.ctime i ∨
    ∃ l, c.top <+: l ∧ c.world.fs.entry l = some i ∧ s.world.fs.entry l = none
  log : ∀ ev ∈ s.log, Fresh s s ev

theorem Judged.start (c : Config) : Judged (State.start c) where
  ctime := fun _ => Or.inl rfl
  log := nofun

variable {s u : State c} {a : Act c}

/-- What a step does to the file system. -/
theorem Move.world (h : Move s a u) (htree : c.Tree) (hcalm : Calm s a) (hground : Ground s) :
    u.world = s.world ∨ ∃ x i now, u.world = s.world.unlink x i now ∧ c.top <+: x ∧
      s.world.fs.entry x = some i := by
  cases h with
  | unlinked j dir fd name names items l now child at_name found entry file =>
    have hat := hground.placed.worker_at at_name
    refine Or.inr ⟨l ++ [name], child, now, rfl, ?_, entry⟩
    rw [hground.kept.loc_eq htree found hat.1.entry hat.1.dir]
    exact hat.1.below.trans (List.prefix_append _ _)
  | removed k l level later d ds fd child removing at_rec found entry dir =>
    refine Or.inr ⟨l ++ [nameOf d.path], child, _, rfl, ?_, entry⟩
    have hat := hground.placed.main_at removing
    rw [hground.placed.held htree hground.kept removing at_rec (Or.inr rfl) found]
    exact ((hat.1 _ (List.mem_of_getElem? at_rec)).1 d List.mem_cons_self).below
  | tamper w => exact hcalm.elim
  | _ => exact Or.inl rfl

/-- What is gone stays away. -/
theorem Move.stays_gone (h : Move s a u) (htree : c.Tree) (hcalm : Calm s a) (hground : Ground s)
    {l : Loc} (hl : s.world.fs.entry l = none) : u.world.fs.entry l = none := by
  rcases h.world htree hcalm hground with hsame | ⟨x, i, now, hunlink, -⟩
  · rw [hsame]
    exact hl
  · rw [hunlink]
    exact unlink_none i now hl

theorem Seen.verdict (hground : Ground s) (htree : c.Tree) (hs : Judged s) {n : Node}
    {name : Bytes} {t : DType} {l : Option Loc} {st : Option Stat} (h : Seen s n name t l st)
    (hn : n.Ok c) {buf : List (Bytes × DType)} (hbuf : Entries c n.path ((name, t) :: buf))
    (hproper : name ≠ dot ∧ name ≠ dotdot) {chosen : Bool}
    (hchosen : st.all (eligible c.filter) = chosen) : Verdict s n name chosen := by
  obtain ⟨i, hi, hfile, -⟩ := h.entry hground.kept htree hn hbuf hproper
  refine ⟨hn.below, i, hi, hfile, ?_⟩
  rw [← hchosen]
  cases h with
  | lazily skip =>
    -- a stat is skipped only if everything is to be deleted
    simp only [skipStat, Bool.and_eq_true] at skip
    obtain ⟨hall, huid, hgid⟩ := c.lazy skip.1.1
    simp [eligible, hall, huid, hgid]
  | stat at_dir child given dir entry file =>
    have hloc : at_dir = resolve n.path :=
      hground.kept.loc_eq htree dir hn.entry hn.dir
    rw [hloc] at entry
    have hchild : child = i := Option.some.inj ((hground.kept.of_some entry).symm.trans hi)
    subst hchild
    have hnode := hground.kept.node
    by_cases hsame : c.filter.ByCtime → s.world.ctime child = c.world.ctime child
    · refine Or.inl (eligible_congr ?_ ?_ ?_ ?_ hsame)
      all_goals simp [World.stat, hnode]
    · obtain ⟨hby, hctime⟩ := Classical.not_imp.mp hsame
      obtain ⟨l', hbelow, hl', hgone⟩ := (hs.ctime child).resolve_left hctime
      refine Or.inr ⟨hby, l', ?_, hbelow, hl', hgone⟩
      rintro rfl
      rw [entry] at hgone
      cases hgone

theorem Move.fresh (h : Move s a u) (htree : c.Tree) (hcalm : Calm s a) (hground : Ground s)
    (hs : Judged s) : ∀ ev ∈ u.log, ev ∈ s.log ∨ Fresh s u ev := by
  have hnote : ∀ {ev : Event}, Fresh s u ev → ∀ ev' ∈ s.log ++ [ev], ev' ∈ s.log ∨ Fresh s u ev' := by
    intro ev hfresh ev' hmem
    refine (List.mem_append.mp hmem).imp_right fun hnew => ?_
    rw [List.mem_singleton.mp hnew]
    exact hfresh
  cases h with
  | nodeBegun i n k w at_node dir counted =>
    have hat := hground.placed.walker_at at_node
    refine hnote ⟨hat, fun hdelete => ?_⟩
    simp [hdelete]
  | nodeUnread i n k w at_node => cases hcalm
  | filled i n given l chunk at_end dir real more => exact hnote trivial
  | tooLong i n given name t buf l at_entry => exact hnote trivial
  | descend i n given name t buf l child path at_entry proper dir entry is_dir joined =>
    exact hnote trivial
  | keep i n given name t buf l st k w at_entry proper seen chosen counted =>
    have hat := hground.placed.walker_at at_entry
    exact hnote (seen.verdict hground htree hs hat.1 hat.2.2 proper chosen)
  | count i n given name t buf l st k w at_entry proper seen chosen counted dry =>
    have hat := hground.placed.walker_at at_entry
    exact hnote (seen.verdict hground htree hs hat.1 hat.2.2 proper chosen)
  | full i n given name t buf l st k w at_entry proper seen chosen counted delete =>
    have hat := hground.placed.walker_at at_entry
    exact hnote (seen.verdict hground htree hs hat.1 hat.2.2 proper chosen)
  | add i n given name t buf l st k w b e at_entry proper seen chosen counted delete kept =>
    have hat := hground.placed.walker_at at_entry
    exact hnote (seen.verdict hground htree hs hat.1 hat.2.2 proper chosen)
  | _ => exact fun ev hev => Or.inl hev

theorem Move.dirs_subset (h : Move s a u) : s.dirs ⊆ u.dirs := by
  cases h with
  | nodeBegun i n k w at_node dir counted =>
    dsimp only
    split_ifs
    · exact List.Subset.refl _
    · exact List.subset_append_left _ _
  | nodeUnread i n k w at_node =>
    dsimp only
    split_ifs
    · exact List.Subset.refl _
    · exact List.subset_append_left _ _
  | _ => exact List.Subset.refl _

theorem Move.judged (h : Move s a u) (htree : c.Tree) (hcalm : Calm s a) (hground : Ground s)
    (hs : Judged s) : Judged u := by
  have hnone : ∀ l, s.world.fs.entry l = none → u.world.fs.entry l = none :=
    fun _ hl => h.stays_gone htree hcalm hground hl
  constructor
  · intro i
    rcases h.world htree hcalm hground with hsame | ⟨x, k, now, hunlink, hbelow, hx⟩
    · rw [hsame]
      exact hs.ctime i
    · by_cases hi : i = k
      · subst hi
        refine Or.inr ⟨x, hbelow, hground.kept.of_some hx, ?_⟩
        rw [hunlink]
        exact Function.update_self ..
      · have hctime : u.world.ctime i = s.world.ctime i := by
          rw [hunlink]
          exact Function.update_of_ne hi ..
        rw [hctime]
        refine (hs.ctime i).imp_right ?_
        rintro ⟨l, htop, hl, hgone⟩
        exact ⟨l, htop, hl, hnone l hgone⟩
  · intro ev hev
    have hverdict : ∀ n name b, Verdict s n name b → Verdict u n name b := by
      rintro n name b ⟨hn, i, hi, hfile, hjudged⟩
      refine ⟨hn, i, hi, hfile, hjudged.imp_right ?_⟩
      rintro ⟨hby, l', hne, hbelow, hl', hgone⟩
      exact ⟨hby, l', hne, hbelow, hl', hnone l' hgone⟩
    rcases h.fresh htree hcalm hground hs ev hev with hold | hnew
    · have hbefore := hs.log ev hold
      cases ev with
      | entry n name b => exact hverdict n name b hbefore
      | begun n => exact ⟨hbefore.1, fun hdelete => h.dirs_subset (hbefore.2 hdelete)⟩
      | _ => trivial
    · cases ev with
      | entry n name b => exact hverdict n name b hnew
      | begun n => exact hnew
      | _ => trivial

def WalkPc.inside : WalkPc → Bool
  | .reading .. => true
  | .pushing .. => true
  | .submitting .. => true
  | .ending .. => true
  | _ => false

/-- A dry run unlinks nothing, and counts what it chooses. -/
structure Counting (s : State c) : Prop where
  world : s.world = c.world
  chan : ∀ j, s.chan j = []
  worker : ∀ j, s.worker j = .idle ∨ s.worker j = .exited
  main : s.main = .walking ∨ s.main = .complete
  counted : (picked s.log).length = s.wouldDelete + total Counters.wouldDelete s.counters
  outside : ∀ i, (s.walker i).inside = false → (s.counters i).wouldDelete = 0

theorem Counting.start (c : Config) : Counting (State.start c) where
  world := rfl
  chan := fun _ => rfl
  worker := fun _ => Or.inl rfl
  main := Or.inl rfl
  counted := by
    have hzero : total Counters.wouldDelete (State.start c).counters = 0 :=
      total_eq_zero_iff.mpr fun _ => rfl
    rw [hzero]
    rfl
  outside := fun _ _ => rfl

/-- What a thread has counted is in its own counter or has been added to the sum. -/
theorem countEntry_counted {i : Fin c.threads} {k : Fin c.threads → Counters} {w : ℕ}
    (h : countEntry s i = { s with counters := k, wouldDelete := w }) :
    w + total Counters.wouldDelete k = s.wouldDelete + total Counters.wouldDelete s.counters ∧
      ∀ j, j ≠ i → k j = s.counters j := by
  have hk : (countEntry s i).counters = k := by rw [h]
  have hw : (countEntry s i).wouldDelete = w := by rw [h]
  rw [← hk, ← hw]
  unfold countEntry flushCounters
  dsimp only
  have hmore := total_update Counters.wouldDelete s.counters i
    { s.counters i with entries := (s.counters i).entries + 1 }
  dsimp only at hmore
  split_ifs
  · dsimp only
    have hflush := total_update Counters.wouldDelete
      (Function.update s.counters i { s.counters i with entries := (s.counters i).entries + 1 })
      i ⟨0, 0⟩
    rw [Function.update_self] at hflush ⊢
    dsimp only at hflush ⊢
    refine ⟨by omega, fun j hj => ?_⟩
    rw [Function.update_of_ne hj, Function.update_of_ne hj]
  · dsimp only
    exact ⟨by omega, fun j hj => Function.update_of_ne hj ..⟩

/-- A walker thread moves on; its counters are zero where it is in no directory. -/
theorem Counting.walk (hs : Counting s) {i : Fin c.threads} {p : WalkPc}
    (hworld : u.world = s.world) (hchan : u.chan = s.chan) (hworker : u.worker = s.worker)
    (hmain : u.main = s.main) (hwalker : u.walker = Function.update s.walker i p)
    (hcounters : ∀ j, j ≠ i → u.counters j = s.counters j)
    (hself : p.inside = false → (u.counters i).wouldDelete = 0)
    (hcounted : (picked u.log).length + s.wouldDelete + total Counters.wouldDelete s.counters =
      (picked s.log).length + u.wouldDelete + total Counters.wouldDelete u.counters) :
    Counting u where
  world := hworld.trans hs.world
  chan := by
    rw [hchan]
    exact hs.chan
  worker := by
    rw [hworker]
    exact hs.worker
  main := by
    rw [hmain]
    exact hs.main
  counted := by
    have hbefore := hs.counted
    omega
  outside := by
    intro j hj
    rw [hwalker] at hj
    by_cases hji : j = i
    · subst hji
      rw [Function.update_self] at hj
      exact hself hj
    · rw [Function.update_of_ne hji] at hj
      rw [hcounters j hji]
      exact hs.outside j hj

/-- The thread goes on with the counters it had. -/
theorem Counting.same (hs : Counting s) {i : Fin c.threads} {p : WalkPc}
    (hworld : u.world = s.world) (hchan : u.chan = s.chan) (hworker : u.worker = s.worker)
    (hmain : u.main = s.main) (hwalker : u.walker = Function.update s.walker i p)
    (hcounters : u.counters = s.counters) (hwould : u.wouldDelete = s.wouldDelete)
    (hlog : picked u.log = picked s.log) (hp : p.inside = (s.walker i).inside ∨ p.inside = true) :
    Counting u := by
  apply hs.walk (i := i) (p := p) hworld hchan hworker hmain hwalker
  · intro j _
    rw [hcounters]
  · intro hout
    rw [hcounters]
    rcases hp with hsame | hinside
    · exact hs.outside i (hsame.symm.trans hout)
    · rw [hinside] at hout
      cases hout
  · rw [hcounters, hwould, hlog]

theorem Move.counting (h : Move s a u) (hdry : c.dryRun = true) (hcalm : Calm s a)
    (hbefore : s.errors = 0) (herrors : u.errors = 0) (hstop : s.stop = false)
    (htraced : Traced s) (hs : Counting s) : Counting u := by
  cases h with
  | popNode i n queue idle first =>
    apply hs.same (i := i) (p := .opening n) <;> try rfl
    exact Or.inl (by rw [idle]; rfl)
  | walkerExit i idle complete =>
    apply hs.same (i := i) (p := .exited) <;> try rfl
    exact Or.inl (by rw [idle]; rfl)
  | nodeOpened i n fd at_node opened =>
    apply hs.same (i := i) (p := .checking n fd) <;> try rfl
    exact Or.inl (by rw [at_node]; rfl)
  | nodeBegun i n k w at_node dir counted =>
    obtain ⟨hsum, hother⟩ := countEntry_counted counted
    apply hs.walk (i := i) (p := .reading n [] []) <;> try rfl
    · exact hother
    · exact nofun
    · rw [picked_note_of_none rfl]
      dsimp only
      omega
  | filled i n given l chunk at_end dir real more =>
    apply hs.same (i := i) (p := .reading n (given ++ chunk.map Prod.fst) chunk) <;> try rfl
    · exact picked_note_of_none rfl
    · exact Or.inr rfl
  | eof i n given l at_end dir =>
    apply hs.same (i := i) (p := .ending n) <;> try rfl
    exact Or.inr rfl
  | stopReading i n given buf l at_entry stopping =>
    rw [hstop] at stopping
    cases stopping
  | skipDots i n given name t buf l at_entry dots =>
    apply hs.same (i := i) (p := .reading n given buf) <;> try rfl
    exact Or.inr rfl
  | descend i n given name t buf l child path at_entry proper dir entry is_dir joined =>
    apply hs.same (i := i) (p := .pushing n ⟨path, child, n.depth + 1⟩ given buf) <;> try rfl
    · exact picked_note_of_none rfl
    · exact Or.inr rfl
  | keep i n given name t buf l st k w at_entry proper seen chosen counted =>
    obtain ⟨hsum, hother⟩ := countEntry_counted counted
    apply hs.walk (i := i) (p := .reading n given buf) <;> try rfl
    · exact hother
    · exact nofun
    · rw [picked_note_of_none rfl]
      dsimp only
      omega
  | count i n given name t buf l st k w at_entry proper seen chosen counted dry =>
    obtain ⟨hsum, hother⟩ := countEntry_counted counted
    have hone := total_update Counters.wouldDelete k i
      { k i with wouldDelete := (k i).wouldDelete + 1 }
    dsimp only at hone
    apply hs.walk (i := i) (p := .reading n given buf) <;> try rfl
    · intro j hj
      exact (Function.update_of_ne hj ..).trans (hother j hj)
    · exact nofun
    · rw [picked_note_entry, List.length_append, List.length_singleton]
      dsimp only
      omega
  | full i n given name t buf l st k w at_entry proper seen chosen counted delete =>
    rw [hdry] at delete
    cases delete
  | add i n given name t buf l st k w b e at_entry proper seen chosen counted delete kept =>
    rw [hdry] at delete
    cases delete
  | pushed i n child given buf at_push =>
    apply hs.same (i := i) (p := .reading n given buf) <;> try rfl
    exact Or.inr rfl
  | submitted i n name given buf chan b e at_push sent kept =>
    have hat := htraced.walker_at at_push
    rw [hat.2.2.2] at hdry
    cases hdry
  | flushed i n chan at_end sent delete =>
    rw [hdry] at delete
    cases delete
  | dirEnd i n at_end empty =>
    have hflush := total_update Counters.wouldDelete s.counters i ⟨0, 0⟩
    dsimp only at hflush
    apply hs.walk (i := i) (p := .leaving) <;> try rfl
    · exact fun j hj => Function.update_of_ne hj ..
    · intro _
      dsimp only
      rw [Function.update_self]
    · dsimp only
      omega
  | finish i done at_end last =>
    apply hs.same (i := i) (p := .top) <;> try rfl
    exact Or.inl (by rw [at_end]; rfl)
  | taken j idle some_items => exact absurd (hs.chan j) some_items
  | workerExit j idle complete =>
    refine { hs with worker := fun k => ?_ }
    dsimp only
    by_cases hk : k = j
    · rw [hk, Function.update_self]
      exact Or.inr rfl
    · rw [Function.update_of_ne hk]
      exact hs.worker k
  | dryOver walking left dry => exact { hs with main := Or.inr rfl }
  | close walking left delete =>
    rw [hdry] at delete
    cases delete
  | interrupted draining left stopping =>
    rw [hstop] at stopping
    cases stopping
  | drained draining left => rcases hs.main with hmain | hmain <;> simp [hmain] at draining
  | removalOver level removing joined =>
    rcases hs.main with hmain | hmain <;> simp [hmain] at removing
  | levelOver level later removing joined more =>
    rcases hs.main with hmain | hmain <;> simp [hmain] at removing
  | rmSkipped k l empty fault level later p d ds e removing at_rec why =>
    rcases hs.main with hmain | hmain <;> simp [hmain] at removing
  | rmOpened k l empty level later d ds fd removing at_rec opened =>
    rcases hs.main with hmain | hmain <;> simp [hmain] at removing
  | rmChecked k l empty fault level later d ds fd removing at_rec found entry dir =>
    rcases hs.main with hmain | hmain <;> simp [hmain] at removing
  | removed k l level later d ds fd child removing at_rec found entry dir =>
    rcases hs.main with hmain | hmain <;> simp [hmain] at removing
  | rested j fault at_end => rcases hs.worker j with hpc | hpc <;> simp [hpc] at at_end
  | batchSkipped j fault it items e at_item why =>
    rcases hs.worker j with hpc | hpc <;> simp [hpc] at at_item
  | batchOpened j it fd items at_item opened =>
    rcases hs.worker j with hpc | hpc <;> simp [hpc] at at_item
  | batchChecked j it items at_item dir =>
    rcases hs.worker j with hpc | hpc <;> simp [hpc] at at_item
  | batchDone j dir fd items l now fault at_end =>
    rcases hs.worker j with hpc | hpc <;> simp [hpc] at at_end
  | unlinkMissed j dir fd name names items l now fault e at_name why =>
    rcases hs.worker j with hpc | hpc <;> simp [hpc] at at_name
  | unlinked j dir fd name names items l now child at_name found entry file =>
    rcases hs.worker j with hpc | hpc <;> simp [hpc] at at_name
  | shutdown => exact hcalm.elim
  | tamper w => exact hcalm.elim
  | nodeUnread i n k w at_node => cases hcalm
  | readFailed i n given chunk at_end => exact absurd rfl hcalm.1
  | _ =>
    dsimp only at herrors
    omega

end Ecopy.EDelete
