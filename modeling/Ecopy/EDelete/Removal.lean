import Ecopy.EDelete.Verdicts
import Mathlib.Data.List.TakeWhile

/-!
# What the deleter removes

The removal pass goes from the deepest level up, a level at a time. A directory
that was tried is gone, or has an entry that nothing removes any more, since
whatever lies below it is deeper and was tried before. The slices of the threads
hold every directory of a level between them.
-/
namespace Ecopy.EDelete
open Protocol (Bytes)
open Ecopy.Path (dot dotdot slash render resolve Ordinary pathMax Errno)
open DirWalk (DType)
open FileSystem Lib.Runs Lib.Threads

variable {c : Config}

/-- Bounds that begin at most at `p` and end above it pass it somewhere. -/
theorem exists_passed (f : ℕ → ℕ) {p n : ℕ} (hfirst : f 0 ≤ p) (hlast : p < f n) :
    ∃ i < n, f i ≤ p ∧ p < f (i + 1) := by
  induction n with
  | zero => omega
  | succ n ih =>
    by_cases hn : p < f n
    · obtain ⟨i, hi, hpassed⟩ := ih hn
      exact ⟨i, Nat.lt_succ_of_lt hi, hpassed⟩
    · exact ⟨n, Nat.lt_succ_self n, by omega, hlast⟩

theorem snapToRunStart_zero (level : List DirRec) : snapToRunStart level 0 = 0 := by
  unfold snapToRunStart
  cases level with
  | nil => rfl
  | cons d ds => simp [snapLoop]

theorem snapToRunStart_length (level : List DirRec) :
    snapToRunStart level level.length = level.length := by
  unfold snapToRunStart
  cases hlen : level.length with
  | zero => rfl
  | succ n => simp [snapLoop, ← hlen]

theorem mem_some_slice {level : List DirRec} {count : ℕ} (hcount : 0 < count) {d : DirRec}
    (hd : d ∈ level) : ∃ idx < count, d ∈ slice level count idx := by
  obtain ⟨p, hp, rfl⟩ := List.mem_iff_getElem.mp hd
  have hfirst : snapToRunStart level (level.length * 0 / count) ≤ p := by
    rw [Nat.mul_zero, Nat.zero_div, snapToRunStart_zero]
    exact Nat.zero_le p
  have hlast : p < snapToRunStart level (level.length * count / count) := by
    rw [Nat.mul_div_cancel _ hcount, snapToRunStart_length]
    exact hp
  obtain ⟨idx, hidx, hlow, hhigh⟩ :=
    exists_passed (fun i => snapToRunStart level (level.length * i / count)) hfirst hlast
  refine ⟨idx, hidx, List.mem_iff_getElem?.mpr ⟨p - snapToRunStart level (level.length * idx / count), ?_⟩⟩
  unfold slice
  rw [List.getElem?_drop, Nat.add_sub_cancel' hlow, List.getElem?_take_of_lt hhigh]
  exact List.getElem?_eq_getElem hp

theorem byDepth_depth {a b : DirRec} (h : byDepth a b = true) : b.depth ≤ a.depth := by
  unfold byDepth at h
  split_ifs at h with hne
  · exact Nat.le_of_lt (by simpa using h)
  · omega

theorem byDepth_trans (a b d : DirRec) (hab : byDepth a b = true) (hbd : byDepth b d = true) :
    byDepth a d = true := by
  unfold byDepth at *
  split_ifs at * <;> simp only [decide_eq_true_eq] at * <;> first | omega | exact List.le_trans hab hbd

theorem byDepth_total (a b : DirRec) : (byDepth a b || byDepth b a) = true := by
  unfold byDepth
  rw [Bool.or_eq_true]
  split_ifs <;> simp only [decide_eq_true_eq] <;> first | omega | exact List.le_total _ _

/-- The sorted records fall by depth. -/
theorem sorted_depth (ds : List DirRec) :
    (ds.mergeSort byDepth).Pairwise fun a b => b.depth ≤ a.depth :=
  (List.pairwise_mergeSort byDepth_trans byDepth_total ds).imp byDepth_depth

/-- Every record of the next level is in a slice, and all others are less deep. -/
theorem nextLevel_cover (d : DirRec) (ds : List DirRec)
    (hsorted : (d :: ds).Pairwise fun a b => b.depth ≤ a.depth) :
    (∀ t ∈ (nextLevel c (d :: ds)).1, ∀ x ∈ t.2, x.depth = d.depth) ∧
      (∀ x ∈ (nextLevel c (d :: ds)).2, x.depth < d.depth) ∧
      ((nextLevel c (d :: ds)).2.Pairwise fun a b => b.depth ≤ a.depth) ∧
      ∀ x ∈ d :: ds, x ∈ (nextLevel c (d :: ds)).2 ∨
        ∃ t ∈ (nextLevel c (d :: ds)).1, x ∈ t.2 := by
  obtain ⟨hfirst, hrest⟩ := List.pairwise_cons.mp hsorted
  unfold nextLevel
  dsimp only
  refine ⟨?_, ?_, ?_, ?_⟩
  · intro t ht x hx
    obtain ⟨idx, -, rfl⟩ := List.mem_map.mp ht
    rcases List.mem_cons.mp (mem_slice hx) with rfl | hmem
    · rfl
    · simpa using List.mem_takeWhile_imp hmem
  · -- the first of the others is less deep, and the others are not deeper than that
    cases hothers : ds.dropWhile (·.depth = d.depth) with
    | nil => exact nofun
    | cons y ys =>
      have hy : y.depth ≠ d.depth := by
        have hhead := List.head?_dropWhile_not (fun e : DirRec => decide (e.depth = d.depth)) ds
        rw [hothers] at hhead
        simpa using hhead
      have hsub : (y :: ys).Sublist ds := hothers ▸ List.dropWhile_sublist _
      have hle : y.depth ≤ d.depth := hfirst y (hsub.subset List.mem_cons_self)
      intro x hx
      rcases List.mem_cons.mp hx with rfl | hmem
      · omega
      · have hbelow := (List.pairwise_cons.mp (hrest.sublist hsub)).1 x hmem
        omega
  · exact hrest.sublist (List.dropWhile_sublist _)
  · intro x hx
    have hsplit : x ∈ d :: ds.takeWhile (·.depth = d.depth) ∨
        x ∈ ds.dropWhile (·.depth = d.depth) := by
      rcases List.mem_cons.mp hx with rfl | hmem
      · exact Or.inl List.mem_cons_self
      · rw [← List.takeWhile_append_dropWhile (p := fun e : DirRec => decide (e.depth = d.depth))
          (l := ds)] at hmem
        exact (List.mem_append.mp hmem).imp_left (List.mem_cons_of_mem d)
    rcases hsplit with hlevel | hlater
    · refine Or.inr ?_
      have hcount : 0 < min (max c.threads 1) (d :: ds.takeWhile (·.depth = d.depth)).length := by
        simp
      obtain ⟨idx, hidx, hmem⟩ := mem_some_slice hcount hlevel
      exact ⟨_, List.mem_map.mpr ⟨idx, List.mem_range.mpr hidx, rfl⟩, hmem⟩
    · exact Or.inl hlater

/-- The directory is gone, or it is not empty. -/
def Settled (fs : Fs) (l : Loc) : Prop :=
  fs.entry l = none ∨ ∃ x, (fs.entry (l ++ [x])).isSome = true

/-- The threads are at the directories of depth `k`; deeper ones are settled. -/
structure Level (fs : Fs) (dirs : List DirRec) (k : ℕ) (level : List (RmPc × List DirRec))
    (later : List DirRec) : Prop where
  depth : ∀ t ∈ level, ∀ d ∈ t.2, d.depth = k
  shallower : ∀ d ∈ later, d.depth < k
  sorted : later.Pairwise fun a b => b.depth ≤ a.depth
  tried : ∀ d ∈ dirs, d ∈ later ∨ (∃ t ∈ level, d ∈ t.2) ∨
    k ≤ d.depth ∧ Settled fs (resolve d.path)

def Swept (s : State c) : Prop :=
  match s.main with
  | .removing level later => ∃ k, Level s.world.fs s.dirs k level later
  | .complete => ∀ d ∈ s.dirs, Settled s.world.fs (resolve d.path)
  | _ => True

variable {s : State c}

theorem Swept.early (h : s.main.phase ≤ 1) : Swept s := by
  unfold Swept
  split
  · next hmain =>
    rw [hmain] at h
    exact absurd h (by simp [MainPc.phase])
  · next hmain =>
    rw [hmain] at h
    exact absurd h (by simp [MainPc.phase])
  · trivial

theorem Swept.level (hs : Swept s) {level : List (RmPc × List DirRec)} {later : List DirRec}
    (hmain : s.main = .removing level later) : ∃ k, Level s.world.fs s.dirs k level later := by
  unfold Swept at hs
  rw [hmain] at hs
  exact hs

theorem Level.first (fs : Fs) (dirs : List DirRec) :
    ∃ k, Level fs dirs k [] (dirs.mergeSort byDepth) := by
  refine ⟨(dirs.map DirRec.depth).sum + 1, nofun, fun d hd => ?_, sorted_depth dirs, fun d hd => ?_⟩
  · have hmem := List.mem_map_of_mem (f := DirRec.depth) (List.mem_mergeSort.mp hd)
    exact Nat.lt_succ_of_le (List.le_sum_of_mem hmem)
  · exact Or.inl (List.mem_mergeSort.mpr hd)

variable {dirs later : List DirRec} {k : ℕ}

theorem Level.next {fs : Fs} {level : List (RmPc × List DirRec)} (h : Level fs dirs k level later)
    (hjoined : ∀ t ∈ level, t.2 = []) (hmore : later ≠ []) :
    ∃ k, Level fs dirs k (nextLevel c later).1 (nextLevel c later).2 := by
  obtain ⟨d, ds, rfl⟩ := List.exists_cons_of_ne_nil hmore
  obtain ⟨hdepth, hlater, hsorted, hcover⟩ := nextLevel_cover (c := c) d ds h.sorted
  refine ⟨d.depth, hdepth, hlater, hsorted, fun x hx => ?_⟩
  rcases h.tried x hx with hmem | ⟨t, ht, hmem⟩ | ⟨hdeep, hsettled⟩
  · exact (hcover x hmem).imp_right Or.inl
  · rw [hjoined t ht] at hmem
    cases hmem
  · have hshallow := h.shallower d List.mem_cons_self
    exact Or.inr (Or.inr ⟨by omega, hsettled⟩)

/-- A record is still with its thread, or it is one of those of the thread that moved. -/
theorem mem_set_or {level : List (RmPc × List DirRec)} {p q : RmPc} {d ds : List DirRec}
    (hrec : level[k]? = some (p, ds)) {t : RmPc × List DirRec} (ht : t ∈ level) {x : DirRec}
    (hx : x ∈ t.2) : (∃ t' ∈ level.set k (q, d), x ∈ t'.2) ∨ x ∈ ds := by
  obtain ⟨j, hj⟩ := List.mem_iff_getElem?.mp ht
  by_cases hjk : j = k
  · subst hjk
    rw [hrec] at hj
    cases hj
    exact Or.inr hx
  · refine Or.inl ⟨t, List.mem_iff_getElem?.mpr ⟨j, ?_⟩, hx⟩
    rw [List.getElem?_set_ne (Ne.symm hjk)]
    exact hj

theorem mem_set_self {level : List (RmPc × List DirRec)} {t t' : RmPc × List DirRec}
    (hrec : level[k]? = some t) : t' ∈ level.set k t' := by
  obtain ⟨hk, -⟩ := List.getElem?_eq_some_iff.mp hrec
  exact List.mem_set hk t'

/-- A thread goes on with the same record. -/
theorem Level.stay {fs : Fs} {level : List (RmPc × List DirRec)} (h : Level fs dirs k level later)
    {j : ℕ} {p : RmPc} {ds : List DirRec} (hrec : level[j]? = some (p, ds)) (q : RmPc) :
    Level fs dirs k (level.set j (q, ds)) later := by
  refine { h with depth := fun t ht d hd => ?_, tried := fun x hx => ?_ }
  · rcases List.mem_or_eq_of_mem_set ht with hmem | rfl
    · exact h.depth t hmem d hd
    · exact h.depth _ (List.mem_of_getElem? hrec) d hd
  · rcases h.tried x hx with hlater | ⟨t, ht, hmem⟩ | hsettled
    · exact Or.inl hlater
    · refine Or.inr (Or.inl ?_)
      rcases mem_set_or (q := q) (d := ds) hrec ht hmem with hthere | hown
      · exact hthere
      · exact ⟨_, mem_set_self hrec, hown⟩
    · exact Or.inr (Or.inr hsettled)

/-- A thread is done with its record. -/
theorem Level.done {fs fs' : Fs} {level : List (RmPc × List DirRec)}
    (h : Level fs dirs k level later) {j : ℕ} {p : RmPc} {d : DirRec} {ds : List DirRec}
    (hrec : level[j]? = some (p, d :: ds)) (hd : Settled fs' (resolve d.path))
    (hothers : ∀ x ∈ dirs, k ≤ x.depth → Settled fs (resolve x.path) →
      Settled fs' (resolve x.path)) : Level fs' dirs k (level.set j (.ready, ds)) later := by
  have hdepth := h.depth _ (List.mem_of_getElem? hrec)
  refine ⟨fun t ht x hx => ?_, h.shallower, h.sorted, fun x hx => ?_⟩
  · rcases List.mem_or_eq_of_mem_set ht with hmem | rfl
    · exact h.depth t hmem x hx
    · exact hdepth x (List.mem_cons_of_mem d hx)
  · rcases h.tried x hx with hlater | ⟨t, ht, hmem⟩ | ⟨hdeep, hsettled⟩
    · exact Or.inl hlater
    · refine Or.inr ?_
      rcases mem_set_or (q := .ready) (d := ds) hrec ht hmem with hthere | hown
      · exact Or.inl hthere
      · rcases List.mem_cons.mp hown with rfl | hleft
        · exact Or.inr ⟨(hdepth x List.mem_cons_self).ge, hd⟩
        · exact Or.inl ⟨_, mem_set_self hrec, hleft⟩
    · exact Or.inr (Or.inr ⟨hdeep, hothers x hx hdeep hsettled⟩)

/-- `rmdir_one` leaves a directory only if it is gone or not empty. -/
theorem Skips.settled {l : Option Loc} {empty fault : Bool}
    (hcalm : Calm s (.removeStep k l empty fault)) (htree : c.Tree) (hground : Ground s)
    {level : List (RmPc × List DirRec)} {later : List DirRec}
    (hmain : s.main = .removing level later) {p : RmPc} {d : DirRec} {ds : List DirRec}
    (hrec : level[k]? = some (p, d :: ds)) (h : Skips s d l empty p) :
    Settled s.world.fs (resolve d.path) := by
  have hmainok := hground.placed.main_at hmain
  have hd := (hmainok.1 _ (List.mem_of_getElem? hrec)).1 d List.mem_cons_self
  have hmisses : ∀ fd, p = .opened fd ∨ p = .checked fd →
      Misses s.world.fs l fd (nameOf d.path) → s.world.fs.entry (resolve d.path) = none := by
    rintro fd hp (hnone | ⟨at_dir, -, hfound, hentry⟩)
    · exact absurd hnone hcalm.1
    · rwa [hground.placed.held htree hground.kept hmain hrec hp hfound] at hentry
  cases p with
  | ready =>
    rcases h with hroot | hnoent
    · refine absurd ?_ hd.ne_nil
      rw [hroot]
      rfl
    · refine Or.inl ?_
      by_contra hsome
      -- the parent is there, so it can be opened
      have hparent := hground.kept.closed _ _ (List.dropLast_prefix (resolve d.path))
        (Option.isSome_iff_ne_none.mpr hsome)
      obtain ⟨i, hi⟩ := Option.isSome_iff_exists.mp hparent
      obtain ⟨j, hj, hkind⟩ := Fs.isDir_iff.mp
        (htree.parents _ (by rw [hd.entry]; rfl) _ (List.prefix_refl (resolve d.path).dropLast))
      rw [hground.kept.of_some hi] at hj
      cases hj
      rw [(hd.toAt.split htree).1, hground.kept.openDir htree hi hkind] at hnoent
      cases hnoent
  | opened fd => exact Or.inl (hmisses fd (Or.inl rfl) h)
  | checked fd =>
    rcases h with hmissed | ⟨at_dir, i, hat, hfound, hentry, hrefused⟩
    · exact Or.inl (hmisses fd (Or.inr rfl) hmissed)
    · have hloc := hground.placed.held htree hground.kept hmain hrec (Or.inr rfl) hfound
      rcases hrefused with hfile | hempty
      · -- the entry is the directory that was recorded
        rw [hloc] at hentry
        have hsame := hground.kept.of_some hentry
        rw [hd.entry] at hsame
        cases hsame
        rw [hground.kept.node, hd.dir] at hfile
        cases hfile
      · have hlist := hcalm.2.2 level later _ d ds at_dir hmain hrec hat
        rw [hempty, hloc] at hlist
        have hnot : ¬∀ x, s.world.fs.entry (resolve d.path ++ [x]) = none := by
          intro hall
          cases hlist.mpr hall
        obtain ⟨x, hx⟩ := not_forall.mp hnot
        exact Or.inr ⟨x, Option.isSome_iff_ne_none.mpr hx⟩

theorem Move.swept {u : State c} {a : Act c} (h : Move s a u) (hdelete : c.dryRun = false)
    (htree : c.Tree) (hcalm : Calm s a) (hbefore : s.errors = 0) (herrors : u.errors = 0)
    (hstop : s.stop = false) (hground : Ground s) (hendgame : Endgame s) (hs : Swept s) :
    Swept u := by
  cases h with
  | nodeBegun i n k w at_node dir counted =>
    have hphase := (hendgame.busy_pos (i := i) (by rw [at_node]; rfl)).2.2
    exact Swept.early (by dsimp only; omega)
  | nodeUnread i n k w at_node => cases hcalm
  | unlinked j dir fd name names items l now child at_name found entry file =>
    exact Swept.early (hendgame.worker_phase hdelete (j := j) (by rw [at_name]; simp))
  | dryOver walking left dry =>
    rw [dry] at hdelete
    cases hdelete
  | close walking left delete => exact Swept.early (le_refl 1)
  | interrupted draining left stopping =>
    rw [hstop] at stopping
    cases stopping
  | drained draining left => exact Level.first s.world.fs s.dirs
  | removalOver level removing joined =>
    obtain ⟨k, hlevel⟩ := hs.level removing
    intro d hd
    rcases hlevel.tried d hd with hlater | ⟨t, ht, hmem⟩ | ⟨-, hsettled⟩
    · cases hlater
    · rw [joined t ht] at hmem
      cases hmem
    · exact hsettled
  | levelOver level later removing joined more =>
    obtain ⟨k, hlevel⟩ := hs.level removing
    exact hlevel.next joined more
  | rmSkipped k l empty fault level later p d ds e removing at_rec why =>
    obtain ⟨m, hlevel⟩ := hs.level removing
    have hskips : Skips s d l empty p := why.resolve_left (by dsimp only at herrors; omega)
    exact ⟨m, hlevel.done at_rec (hskips.settled hcalm htree hground removing at_rec)
      fun _ _ _ hsettled => hsettled⟩
  | rmOpened k l empty level later d ds fd removing at_rec opened =>
    obtain ⟨m, hlevel⟩ := hs.level removing
    exact ⟨m, hlevel.stay at_rec (.opened fd)⟩
  | rmChecked k l empty fault level later d ds fd removing at_rec found entry dir =>
    obtain ⟨m, hlevel⟩ := hs.level removing
    exact ⟨m, hlevel.stay at_rec (.checked fd)⟩
  | removed k l level later d ds fd child removing at_rec found entry dir =>
    obtain ⟨m, hlevel⟩ := hs.level removing
    have hmain := hground.placed.main_at removing
    have hd := (hmain.1 _ (List.mem_of_getElem? at_rec)).1 d List.mem_cons_self
    have hm := hlevel.depth _ (List.mem_of_getElem? at_rec) d List.mem_cons_self
    rw [hground.placed.held htree hground.kept removing at_rec (Or.inr rfl) found]
    refine ⟨m, hlevel.done at_rec (Or.inl (Function.update_self ..)) fun x hx hdeep hsettled => ?_⟩
    rcases hsettled with hnone | ⟨y, hy⟩
    · exact Or.inl (unlink_none child _ hnone)
    · -- what lies below a deeper directory is not of this level
      have hx := (hground.placed.dirs x hx).depth
      have hlen := hd.depth
      have hne : resolve x.path ++ [y] ≠ resolve d.path := by
        intro heq
        rw [← heq, List.length_append, List.length_singleton] at hlen
        omega
      refine Or.inr ⟨y, ?_⟩
      dsimp only
      rw [unlink_entry_of_ne child _ hne]
      exact hy
  | shutdown => exact hcalm.elim
  | tamper w => exact hcalm.elim
  | _ => exact hs

structure Faultless (s : State c) : Prop where
  ground : Ground s
  endgame : Endgame s
  gone : Gone s
  covered : Covered s
  flight : Flight s
  judged : Judged s
  counting : c.dryRun = true → Counting s
  swept : c.dryRun = false → Swept s

theorem faultless (htree : c.Tree) {as : List (Act c)} {s : State c}
    (hcalm : Along step Calm (State.start c) as)
    (hr : exec step (State.start c) as = some s) (herrors : s.errors = 0) : Faultless s := by
  refine calm_invariant ?_ ?_ hcalm hr herrors
  · exact ⟨.start htree, .start c, .start c, .start c, .start c, .start c, fun _ => .start c,
      fun _ => .early (Nat.zero_le 1)⟩
  · intro s a u hmove ha hbefore hafter hstop hs
    constructor
    · exact hmove.ground htree ha hbefore hafter hstop hs.ground
    · exact hmove.endgame ha hstop hs.endgame
    · exact hmove.gone htree ha hs.ground hs.gone
    · exact hmove.covered htree ha hbefore hafter hstop hs.ground hs.endgame hs.gone hs.covered
    · exact hmove.flight htree ha hbefore hafter hstop hs.ground hs.endgame hs.flight
    · exact hmove.judged htree ha hs.ground hs.judged
    · exact fun hdry =>
        hmove.counting hdry ha hbefore hafter hstop hs.ground.traced (hs.counting hdry)
    · exact fun hdelete =>
        hmove.swept hdelete htree ha hbefore hafter hstop hs.ground hs.endgame (hs.swept hdelete)

/-- At the end every location at or below the start path has been dealt with. -/
theorem Faultless.mem_dealt (hs : Faultless s) (hover : s.main = .complete) {l : Loc}
    (htop : c.top <+: l) (hl : (c.world.fs.entry l).isSome = true) : (dealt s.log).count l = 1 := by
  have hexited := hs.endgame.phase (by rw [hover]; simp [MainPc.phase])
  have hdone := hs.endgame.exited ⟨0, c.threads_pos⟩ (hexited _)
  have hplaces := hs.covered l htop hl
  have hwalkers : total (WalkPc.cover l) s.walker = 0 := by
    refine total_eq_zero_iff.mpr fun i => ?_
    rw [hexited i]
    rfl
  unfold State.places at hplaces
  rw [(hs.endgame.done hdone).1, hwalkers] at hplaces
  simpa using hplaces

/-- A directory that was visited is recorded, and a non-directory was judged. -/
theorem Faultless.event (hs : Faultless s) (hover : s.main = .complete) {l : Loc}
    (htop : c.top <+: l) {i : ℕ} (hl : c.world.fs.entry l = some i) :
    if (c.world.fs.node i).isDir = true then
      c.dryRun = false → ∃ d ∈ s.dirs, resolve d.path = l
    else ∃ n name chosen, resolve n.path ++ [name] = l ∧ .entry n name chosen ∈ s.log := by
  have hcount := hs.mem_dealt hover htop (by rw [hl]; rfl)
  have hmem : l ∈ dealt s.log := List.count_pos_iff.mp (by omega)
  obtain ⟨ev, hev, hdeals⟩ := List.mem_filterMap.mp hmem
  have hfresh := hs.judged.log ev hev
  cases ev with
  | read fs at_dir names => cases hdeals
  | found fs at_dir name => cases hdeals
  | begun n =>
    cases hdeals
    have hsame := hfresh.1.entry
    rw [hl] at hsame
    cases hsame
    rw [if_pos hfresh.1.dir]
    exact fun hdelete => ⟨_, hfresh.2 hdelete, rfl⟩
  | entry n name chosen =>
    cases hdeals
    obtain ⟨-, j, hj, hfile, -⟩ := hfresh
    rw [hl] at hj
    cases hj
    rw [if_neg (by simp [hfile])]
    exact ⟨n, name, chosen, rfl, hev⟩

theorem mem_picked_iff {log : List Event} {l : Loc} :
    l ∈ picked log ↔ ∃ n name, resolve n.path ++ [name] = l ∧ .entry n name true ∈ log := by
  unfold picked
  rw [List.mem_filterMap]
  constructor
  · rintro ⟨ev, hev, hpicks⟩
    cases ev with
    | entry n name chosen =>
      cases chosen with
      | true =>
        cases hpicks
        exact ⟨n, name, rfl, hev⟩
      | false => cases hpicks
    | _ => cases hpicks
  · rintro ⟨n, name, rfl, hev⟩
    exact ⟨_, hev, rfl⟩

theorem picked_sublist (log : List Event) : (picked log).Sublist (dealt log) := by
  induction log with
  | nil => exact List.Sublist.slnil
  | cons ev log ih =>
    unfold picked dealt at ih ⊢
    rw [List.filterMap_cons, List.filterMap_cons]
    cases hpicks : ev.picks with
    | none =>
      cases ev.deals with
      | none => exact ih
      | some l => exact ih.cons l
    | some l =>
      rw [picks_deals hpicks]
      exact ih.cons_cons l

/-- What was chosen is what the filter selects. -/
theorem Faultless.picked_iff (hs : Faultless s) (hover : s.main = .complete) {l : Loc} {i : ℕ}
    (htop : c.top <+: l) (hl : c.world.fs.entry l = some i)
    (hfile : (c.world.fs.node i).isDir = false) :
    (l ∈ picked s.log ↔ eligible c.filter (c.world.stat i) = true) ∨ Renewed s l i := by
  by_cases hrenewed : Renewed s l i
  · exact Or.inr hrenewed
  have hverdict : ∀ n name chosen, resolve n.path ++ [name] = l → .entry n name chosen ∈ s.log →
      chosen = eligible c.filter (c.world.stat i) := by
    rintro n name chosen rfl hev
    obtain ⟨-, j, hj, -, hjudged⟩ := hs.judged.log _ hev
    rw [hl] at hj
    cases hj
    exact hjudged.resolve_right hrenewed
  refine Or.inl ⟨fun hpicked => ?_, fun heligible => ?_⟩
  · obtain ⟨n, name, hloc, hev⟩ := mem_picked_iff.mp hpicked
    exact (hverdict n name true hloc hev).symm
  · have hevent := hs.event hover htop hl
    rw [if_neg (by simp [hfile])] at hevent
    obtain ⟨n, name, chosen, hloc, hev⟩ := hevent
    have hchosen := hverdict n name chosen hloc hev
    rw [heligible] at hchosen
    rw [hchosen] at hev
    exact mem_picked_iff.mpr ⟨n, name, hloc, hev⟩

/-- At the end nothing is on its way any more. -/
theorem Faultless.gone_iff (hs : Faultless s) (hdelete : c.dryRun = false)
    (hover : s.main = .complete) {l : Loc} (hfile : c.world.fs.isFile l = true) :
    s.world.fs.entry l = none ↔ l ∈ picked s.log := by
  constructor
  · exact hs.gone l hfile
  · intro hpicked
    have hexited := hs.endgame.phase (by rw [hover]; simp [MainPc.phase])
    have hworkers := hs.endgame.workers (by rw [hover]; simp [MainPc.phase]) hdelete
    rcases hs.flight hdelete l hpicked with hnone | ⟨i, hi⟩ | ⟨j, hj⟩ | ⟨j, hj⟩
    · exact hnone
    · rw [hexited i] at hi
      cases hi
    · rw [(hworkers j).2] at hj
      cases hj
    · rw [(hworkers j).1] at hj
      cases hj

/-- Without errors, a shutdown or interference by others, a run that is over has removed the
non-directories that the filter selects, except where a name of the same inode was removed and the
filter looks at the change time, and the directories below which nothing is left. A dry run has
counted the former and changed nothing. -/
theorem removes_what_is_eligible {c : Config} (htree : c.Tree) {as : List (Act c)} {s : State c}
    (hcalm : Along step Calm (State.start c) as)
    (hr : exec step (State.start c) as = some s) (herrors : s.errors = 0)
    (hover : s.main = .complete) :
    (c.dryRun = false →
      (∀ l i, c.top <+: l → c.world.fs.entry l = some i → (c.world.fs.node i).isDir = false →
        (s.world.fs.entry l = none ↔ eligible c.filter (c.world.stat i) = true) ∨
          Renewed s l i) ∧
      (∀ l, c.top <+: l → c.world.fs.isDir l = true →
        (s.world.fs.entry l = none ↔ ∀ l', l <+: l' → l ≠ l' → s.world.fs.entry l' = none)) ∧
      (∀ l, ¬c.top <+: l → s.world.fs.entry l = c.world.fs.entry l) ∧
      (∀ l, s.world.fs.entry l = none ∨ s.world.fs.entry l = c.world.fs.entry l) ∧
      s.world.fs.node = c.world.fs.node) ∧
    (c.dryRun = true → s.world = c.world ∧ ∃ found : List Loc, found.Nodup ∧
      (∀ l, l ∈ found ↔ c.top <+: l ∧ ∃ i, c.world.fs.entry l = some i ∧
        (c.world.fs.node i).isDir = false ∧ eligible c.filter (c.world.stat i) = true) ∧
      s.wouldDelete = found.length) := by
  have hs := faultless htree hcalm hr herrors
  constructor
  · intro hdelete
    refine ⟨?_, ?_, hs.ground.kept.below, hs.ground.kept.entry, hs.ground.kept.node⟩
    · intro l i htop hl hfile
      rw [hs.gone_iff hdelete hover (Fs.isFile_iff.mpr ⟨i, hl, hfile⟩)]
      exact hs.picked_iff hover htop hl hfile
    · intro l htop hdir
      obtain ⟨i, hl, hkind⟩ := Fs.isDir_iff.mp hdir
      have hevent := hs.event hover htop hl
      rw [if_pos hkind] at hevent
      obtain ⟨d, hd, rfl⟩ := hevent hdelete
      have hswept := hs.swept hdelete
      unfold Swept at hswept
      rw [hover] at hswept
      constructor
      · intro hnone l' hle _
        by_contra hsome
        have hup := hs.ground.kept.closed _ l' hle (Option.isSome_iff_ne_none.mpr hsome)
        rw [hnone] at hup
        cases hup
      · intro hbelow
        rcases hswept d hd with hnone | ⟨x, hx⟩
        · exact hnone
        · rw [hbelow _ (List.prefix_append _ _) (by simp)] at hx
          cases hx
  · intro hdry
    have hcounting := hs.counting hdry
    refine ⟨hcounting.world, picked s.log, ?_, fun l => ?_, ?_⟩
    · refine List.nodup_iff_count_le_one.mpr fun l => ?_
      by_cases hpicked : l ∈ picked s.log
      · obtain ⟨n, name, rfl, hev⟩ := mem_picked_iff.mp hpicked
        obtain ⟨htop, i, hi, -⟩ := hs.judged.log _ hev
        have hone := hs.mem_dealt hover (htop.trans (List.prefix_append _ _)) (by rw [hi]; rfl)
        have hle := (picked_sublist s.log).count_le (resolve n.path ++ [name])
        omega
      · rw [List.count_eq_zero.mpr hpicked]
        exact Nat.zero_le 1
    · have hiff : ∀ i, c.top <+: l → c.world.fs.entry l = some i →
          (c.world.fs.node i).isDir = false →
          (l ∈ picked s.log ↔ eligible c.filter (c.world.stat i) = true) := by
        intro i htop hl hfile
        refine (hs.picked_iff hover htop hl hfile).resolve_right ?_
        rintro ⟨-, l', -, -, hl', hgone⟩
        rw [hcounting.world, hl'] at hgone
        cases hgone
      constructor
      · intro hpicked
        obtain ⟨n, name, rfl, hev⟩ := mem_picked_iff.mp hpicked
        obtain ⟨htop, i, hi, hfile, -⟩ := hs.judged.log _ hev
        have hbelow := htop.trans (List.prefix_append _ [name])
        exact ⟨hbelow, i, hi, hfile, (hiff i hbelow hi hfile).mp hpicked⟩
      · rintro ⟨htop, i, hi, hfile, heligible⟩
        exact (hiff i htop hi hfile).mpr heligible
    · have hexited := hs.endgame.phase (by rw [hover]; simp [MainPc.phase])
      have hzero : total Counters.wouldDelete s.counters = 0 := by
        refine total_eq_zero_iff.mpr fun i => hcounting.outside i ?_
        rw [hexited i]
        rfl
      have hcounted := hcounting.counted
      omega

-- In a world with a list of its entries, calm runs can be tested.
def typeOf (t : DType) (isDir : Bool) : Bool :=
  match t with
  | .unknown => true
  | .directory => isDir
  | .other => !isDir

theorem typeOf_iff {t : DType} {isDir : Bool} : typeOf t isDir = true ↔ TypeOf t isDir := by
  cases t <;> simp [typeOf, TypeOf]

def streamsIn (locs : List Loc) (fs : Fs) (l : Loc) (given : List Bytes)
    (chunk : List (Bytes × DType)) : Bool :=
  decide (chunk.map Prod.fst).Nodup && chunk.all (fun e => !given.contains e.1) &&
    (!chunk.isEmpty || locs.all fun k =>
      k.dropLast != l || (fs.entry k).isNone || given.any fun x => k == l ++ [x]) &&
    chunk.all fun e => (fs.entry (l ++ [e.1])).all fun i => typeOf e.2 (fs.node i).isDir

def calmIn (locs : List Loc) (s : State c) : Act c → Bool
  | .openNode _ fault => !fault
  | .checkNode _ streams => streams
  | .readDir _ none _ => false
  | .readDir i (some l) chunk =>
    match s.walker i with
    | .reading _ given [] => streamsIn locs s.world.fs l given chunk
    | _ => true
  | .readEntry _ l => l.isSome
  | .openBatch _ fault => !fault
  | .unlinkName _ l _ fault => l.isSome && !fault
  | .removeStep _ none _ _ => false
  | .removeStep k (some l) empty fault =>
    !fault &&
      match s.main with
      | .removing level _ =>
        match level[k]? with
        | some (_, d :: _) => empty == locs.all fun x =>
          x.dropLast != l ++ [nameOf d.path] || (s.world.fs.entry x).isNone
        | _ => true
      | _ => true
  | .shutdown => false
  | .tamper _ => false
  | _ => true

theorem streams_of_streamsIn {locs : List Loc} {fs : Fs}
    (hlocs : ∀ l, (fs.entry l).isSome = true → l ∈ locs) {l : Loc} {given : List Bytes}
    {chunk : List (Bytes × DType)} (h : streamsIn locs fs l given chunk = true) :
    Streams fs l given chunk := by
  simp only [streamsIn, Bool.and_eq_true, decide_eq_true_eq, List.all_eq_true] at h
  obtain ⟨⟨⟨honce, hfresh⟩, hall⟩, htruthful⟩ := h
  constructor
  · exact honce
  · intro e he
    simpa using hfresh e he
  · rintro rfl x hx
    rw [List.isEmpty_nil, Bool.not_true, Bool.false_or, List.all_eq_true] at hall
    have hthere := hall _ (hlocs _ hx)
    have hsome : (fs.entry (l ++ [x])).isNone = false := by
      rw [← Option.not_isSome, hx]
      rfl
    rw [List.dropLast_concat, hsome] at hthere
    simpa using hthere
  · intro e he i hi
    have htype := htruthful e he
    rw [hi] at htype
    exact typeOf_iff.mp htype

theorem calm_of_calmIn {locs : List Loc}
    (hlocs : ∀ l, (s.world.fs.entry l).isSome = true → l ∈ locs) {a : Act c}
    (h : calmIn locs s a = true) : Calm s a := by
  cases a with
  | openNode i fault => simpa [calmIn, Calm] using h
  | checkNode i streams => exact h
  | readDir i l chunk =>
    cases l with
    | none => cases h
    | some l =>
      refine ⟨by simp, fun n given at_dir hat hl => ?_⟩
      cases hl
      rw [calmIn, hat] at h
      exact streams_of_streamsIn hlocs h
  | readEntry i l =>
    rintro rfl
    cases h
  | openBatch j fault => simpa [calmIn, Calm] using h
  | unlinkName j l now fault =>
    rw [calmIn, Bool.and_eq_true, Bool.not_eq_true'] at h
    refine ⟨?_, h.2⟩
    rintro rfl
    cases h.1
  | removeStep k l empty fault =>
    cases l with
    | none => cases h
    | some l =>
      rw [calmIn, Bool.and_eq_true, Bool.not_eq_true'] at h
      refine ⟨by simp, h.1, fun level later p d ds at_dir hmain hrec hl => ?_⟩
      cases hl
      have hempty := h.2
      rw [hmain] at hempty
      dsimp only at hempty
      rw [hrec] at hempty
      dsimp only at hempty
      rw [beq_iff_eq.mp hempty, List.all_eq_true]
      constructor
      · intro hall x
        by_contra hsome
        have hthere := hall _ (hlocs _ (Option.isSome_iff_ne_none.mpr hsome))
        rw [List.dropLast_concat, bne_self_eq_false, Bool.false_or, Option.isNone_iff_eq_none]
          at hthere
        exact hsome hthere
      · intro hall x _
        by_cases hx : x.dropLast = l ++ [nameOf d.path]
        · have hne : x ≠ [] := by
            rintro rfl
            simp at hx
          have hnone := hall (x.getLast hne)
          rw [← hx, List.dropLast_append_getLast] at hnone
          simp [hnone]
        · simp [hx]
  | shutdown => cases h
  | tamper w => cases h
  | _ => trivial

theorem along_calm {locs : List Loc} {as : List (Act c)}
    (hlocs : ∀ l, (s.world.fs.entry l).isSome = true → l ∈ locs)
    (h : Along step (fun s a => calmIn locs s a = true) s as) : Along step Calm s as := by
  induction as generalizing s with
  | nil => trivial
  | cons a as ih =>
    have hcalm := calm_of_calmIn hlocs h.1
    refine ⟨hcalm, fun u hu => ih (fun l hl => hlocs l ?_) (h.2 u hu)⟩
    -- a calm step only takes entries away
    cases step_move hu with
    | unlinked j dir fd name names items x now child at_name found entry file =>
      by_contra hnone
      rw [Option.not_isSome_iff_eq_none] at hnone
      rw [unlink_none child now hnone] at hl
      cases hl
    | removed k x level later d ds fd child removing at_rec found entry dir =>
      by_contra hnone
      rw [Option.not_isSome_iff_eq_none] at hnone
      rw [unlink_none child _ hnone] at hl
      cases hl
    | tamper w => exact hcalm.elim
    | _ => exact hl

theorem smallWorld_mem {entries : List (Loc × ℕ)} {dirs : List ℕ} {l : Loc} {i : ℕ}
    (h : (smallWorld entries dirs).fs.entry l = some i) : (l, i) ∈ entries := by
  obtain ⟨before, after, heq, -⟩ := List.lookup_eq_some_iff.mp h
  rw [heq]
  simp

/-- `/t/f` and `/t/d/g` are the same file; what was changed a day ago is to be deleted. -/
def linkedNames : Config where
  dryRun := false
  filter := ⟨none, none, false, 1, .ctime, 172800⟩
  lazyStat := false
  threads := 1
  workers := 1
  top := [[116]]
  world := smallWorld [([], 0), ([[116]], 1), ([[116], [102]], 3), ([[116], [100]], 2),
    ([[116], [100], [103]], 3)] [0, 1, 2]
  rootIno := 1
  threads_pos := Nat.one_pos
  workers_pos := Nat.one_pos
  lazy := nofun
  ordinary := ordinary_top
  top_ne := top_ne_nil
  root_found := by decide

def linkedLocs : List Loc := [[], [[116]], [[116], [102]], [[116], [100]], [[116], [100], [103]]]

theorem linkedNames_locs (l : Loc) (h : (linkedNames.world.fs.entry l).isSome = true) :
    l ∈ linkedLocs := by
  obtain ⟨i, hi⟩ := Option.isSome_iff_exists.mp h
  have hmem := List.mem_map_of_mem (f := Prod.fst) (smallWorld_mem hi)
  exact hmem

theorem linkedNames_tree : linkedNames.Tree := by
  have hsane : linkedNames.world.fs.Sane := by
    refine ⟨by decide, fun l i hi => ?_⟩
    have hall : ∀ e ∈ [(([] : Loc), 0), ([[116]], 1), ([[116], [102]], 3), ([[116], [100]], 2),
        ([[116], [100], [103]], 3)], e.2 < 5 := by decide
    exact hall _ (smallWorld_mem hi)
  refine ⟨⟨Fs.tree_of_prefix hsane ?_, ?_, ?_⟩, by decide⟩
  · intro l hl d hd hne
    have hall : ∀ l ∈ linkedLocs, ∀ d ∈ l.inits, d ≠ l → linkedNames.world.fs.isDir d = true := by
      decide
    exact hall l (linkedNames_locs l hl) d ((List.mem_inits d l).mpr hd) hne
  · intro l l' i hl hl' hdir
    have hall : ∀ a ∈ linkedLocs, ∀ b ∈ linkedLocs,
        linkedNames.world.fs.entry a = linkedNames.world.fs.entry b →
          linkedNames.world.fs.isDir a = true → a = b := by decide
    exact hall l (linkedNames_locs l (by rw [hl]; rfl)) l' (linkedNames_locs l' (by rw [hl']; rfl))
      (hl.trans hl'.symm) (isDir_of_entry hl hdir)
  · intro l hl x hx
    have hmem := linkedNames_locs l hl
    simp only [linkedLocs, List.mem_cons, List.not_mem_nil, or_false] at hmem
    rcases hmem with rfl | rfl | rfl | rfl | rfl <;> simp at hx <;>
      (try rcases hx with rfl | rfl | rfl) <;>
      simp_all [Ordinary, Lib.Fields.Proper, slash, dot, dotdot]

def linkedWalker : Fin linkedNames.threads := ⟨0, Nat.one_pos⟩

def linkedWorker : Fin linkedNames.workers := ⟨0, Nat.one_pos⟩

/-- `/t/f` is unlinked before the walk comes to `/t/d`. -/
def linkedWalk : List (Act linkedNames) :=
  [.pop linkedWalker, .openNode linkedWalker false, .checkNode linkedWalker true,
    .readDir linkedWalker (some [[116]]) [([102], .other), ([100], .directory)],
    .readEntry linkedWalker (some [[116]]), .readEntry linkedWalker (some [[116]]),
    .push linkedWalker, .readDir linkedWalker (some [[116]]) [], .submit linkedWalker,
    .take linkedWorker, .openBatch linkedWorker false, .checkBatch linkedWorker,
    .unlinkName linkedWorker (some [[116]]) 172800 false, .dirEnd linkedWalker,
    .finish linkedWalker, .pop linkedWalker, .openNode linkedWalker false,
    .checkNode linkedWalker true,
    .readDir linkedWalker (some [[116], [100]]) [([103], .other)],
    .readEntry linkedWalker (some [[116], [100]]),
    .readDir linkedWalker (some [[116], [100]]) [], .dirEnd linkedWalker, .finish linkedWalker,
    .pop linkedWalker, .walkOver, .unlinkName linkedWorker (some []) 0 false,
    .openBatch linkedWorker false, .take linkedWorker]

/-- Neither directory is empty. -/
def linkedPass : List (Act linkedNames) :=
  [.levelOver, .removeStep 0 (some [[116]]) false false, .removeStep 0 (some [[116]]) false false,
    .removeStep 0 (some [[116]]) false false, .levelOver, .removeStep 0 (some []) false false,
    .removeStep 0 (some []) false false, .removeStep 0 (some []) false false, .levelOver]

def linkedWalked : State linkedNames :=
  (exec step (State.start linkedNames) linkedWalk).getD (State.start linkedNames)

def linkedDrained : State linkedNames :=
  { linkedWalked with
    chan := fun _ => []
    main := .removing [] [⟨[47, 116, 47, 100], 1, 2⟩, ⟨[47, 116], 0, 1⟩] }

def linkedEnd : State linkedNames := (exec step linkedDrained linkedPass).getD linkedDrained

theorem linked_walked : exec step (State.start linkedNames) linkedWalk = some linkedWalked := by
  obtain ⟨s, hs⟩ := Option.isSome_iff_exists.mp
    (show (exec step (State.start linkedNames) linkedWalk).isSome = true by decide +kernel)
  unfold linkedWalked
  rw [hs]
  rfl

theorem linked_drained : step linkedWalked .drained = some linkedDrained := by
  have hmain : linkedWalked.main = .draining := by decide +kernel
  have hleft : ∀ j, linkedWalked.worker j = .exited := by decide +kernel
  have hstop : linkedWalked.stop = false := by decide +kernel
  have hdirs : linkedWalked.dirs = [⟨[47, 116], 0, 1⟩, ⟨[47, 116, 47, 100], 1, 2⟩] := by
    decide +kernel
  have hsorted : linkedWalked.dirs.mergeSort byDepth =
      [⟨[47, 116, 47, 100], 1, 2⟩, ⟨[47, 116], 0, 1⟩] := by
    rw [hdirs]
    simp [List.mergeSort, byDepth]
  simp only [step, drained]
  rw [if_pos ⟨hmain, hleft⟩, hstop, hsorted]
  rfl

theorem linked_passed : exec step linkedDrained linkedPass = some linkedEnd := by
  obtain ⟨s, hs⟩ := Option.isSome_iff_exists.mp
    (show (exec step linkedDrained linkedPass).isSome = true by decide +kernel)
  unfold linkedEnd
  rw [hs]
  rfl

theorem linked_run :
    exec step (State.start linkedNames) (linkedWalk ++ .drained :: linkedPass) = some linkedEnd := by
  apply exec_append linked_walked
  exact exec_cons_eq_some.mpr ⟨linkedDrained, linked_drained, linked_passed⟩

theorem linked_calm :
    Along step Calm (State.start linkedNames) (linkedWalk ++ .drained :: linkedPass) := by
  apply along_calm linkedNames_locs
  apply Along.append
  · decide +kernel
  · intro u hu
    rw [linked_walked] at hu
    cases hu
    exact Along.cons rfl linked_drained (by decide +kernel)

/-- `/t/d/g` was to be deleted, and stays. -/
theorem linked_name_stays :
    linkedNames.Tree ∧ linkedNames.dryRun = false ∧
      ∃ as s, Along step Calm (State.start linkedNames) as ∧
        exec step (State.start linkedNames) as = some s ∧ s.errors = 0 ∧ s.main = .complete ∧
        linkedNames.top <+: [[116], [100], [103]] ∧
        linkedNames.world.fs.entry [[116], [100], [103]] = some 3 ∧
        (linkedNames.world.fs.node 3).isDir = false ∧
        eligible linkedNames.filter (linkedNames.world.stat 3) = true ∧
        s.world.fs.entry [[116], [100], [103]] = some 3 := by
  refine ⟨linkedNames_tree, rfl, _, _, linked_calm, linked_run, ?_⟩
  decide +kernel

theorem removes_what_is_eligible_linked : Renewed linkedEnd [[116], [100], [103]] 3 := by
  have h := (removes_what_is_eligible linkedNames_tree linked_calm linked_run (by decide +kernel)
    (by decide +kernel)).1 rfl
  refine (h.1 [[116], [100], [103]] 3 (by decide) rfl rfl).resolve_left fun hiff => ?_
  have hthere : linkedEnd.world.fs.entry [[116], [100], [103]] = some 3 := by decide +kernel
  rw [hiff.mpr (by decide)] at hthere
  cases hthere

end Ecopy.EDelete
