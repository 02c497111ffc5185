import Ecopy.Server.DirFlight
import Mathlib.Data.List.TakeWhile

/-!
# Waiting for a directory

A thread that waits for a path owns only paths below it. So along a chain of waiting threads
the paths go up, and the chain ends at a thread that can go on.
-/
namespace Ecopy.Server.DirCache
open Lib.Runs Lib.Threads
open Protocol (Bytes)
open Ecopy.Path (Errno splitDirBase slash dot pathMax)

/-- Falls from a path to its parent. -/
def rank (p : Bytes) : ℕ :=
  if p = dot ∨ p = [slash] then 0 else if slash ∈ p then p.length + 2 else 1

theorem rank_le (p : Bytes) : rank p ≤ p.length + 2 := by
  unfold rank
  split_ifs
  · exact Nat.zero_le _
  · exact Nat.le_refl _
  · omega

theorem rank_pos {p : Bytes} (hdot : p ≠ dot) (hslash : p ≠ [slash]) : 0 < rank p := by
  unfold rank
  rw [if_neg (not_or.mpr ⟨hdot, hslash⟩)]
  split_ifs
  · exact Nat.succ_pos _
  · exact Nat.one_pos

theorem rank_lt_of_parentOf {p d : Bytes} (h : ParentOf p d) : rank p < rank d := by
  obtain ⟨hp, hne⟩ := h
  unfold splitDirBase at hp
  dsimp only at hp
  generalize hbase : (d.reverse.takeWhile (· != slash)).reverse = base at hp
  by_cases hall : base.length = d.length
  · rw [if_pos hall] at hp
    have hslash : d ≠ [slash] := by
      rintro rfl
      rw [← hbase] at hall
      exact absurd hall (by decide)
    rw [hp, show rank dot = 0 from rfl]
    exact rank_pos (fun hd => hne (hp.trans hd.symm)) hslash
  · rw [if_neg hall] at hp
    have hdot : d ≠ dot := by
      rintro rfl
      rw [← hbase] at hall
      exact absurd rfl hall
    by_cases hdir : d.take (d.length - base.length - 1) = []
    · rw [if_pos hdir] at hp
      rw [hp, show rank [slash] = 0 from rfl]
      exact rank_pos hdot fun hd => hne (hp.trans hd.symm)
    · rw [if_neg hdir] at hp
      have hmem : slash ∈ d := by
        by_contra hno
        apply hall
        rw [← hbase, List.length_reverse, List.takeWhile_eq_self_iff.mpr, List.length_reverse]
        intro b hb
        rw [bne_iff_ne]
        rintro rfl
        exact hno (List.mem_reverse.mp hb)
      have hslash : d ≠ [slash] := by
        rintro rfl
        rw [← hbase] at hdir
        exact hdir rfl
      have hlen : p.length ≤ d.length - 1 := by
        rw [hp, List.length_take]
        omega
      have hpos : 0 < d.length := List.length_pos_of_mem hmem
      have hd : rank d = d.length + 2 := by
        unfold rank
        rw [if_neg (not_or.mpr ⟨hdot, hslash⟩), if_pos hmem]
      have hle := rank_le p
      omega

theorem rank_lt_of_ancestor {p d : Bytes} (h : Ancestor p d) : rank p < rank d := by
  induction h with
  | single h => exact rank_lt_of_parentOf h
  | tail _ h ih => exact Nat.lt_trans ih (rank_lt_of_parentOf h)

/-- Every path for which a thread waits with a nested call is a strict ancestor. -/
theorem Nested.ancestor {d : Bytes} {outer : List Outer} (h : Nested d outer) :
    ∀ o ∈ outer, Ancestor d o.dir := by
  induction outer generalizing d with
  | nil => exact fun o ho => (List.not_mem_nil ho).elim
  | cons x outer ih =>
    intro o ho
    rcases List.mem_cons.mp ho with rfl | ho
    · exact Relation.TransGen.single h.1
    · exact Relation.TransGen.head h.1 (ih h.2.2 o ho)

variable {ι : Type*}

/-- A thread sleeps until the entry of a path leaves `CREATING`. -/
def State.WaitsOn (s : State ι) (i : ι) (d : Bytes) : Prop :=
  ∃ e outer en, (s.thread i).running = some (.waiting d e, outer) ∧ s.entry e = some en ∧
    en.state = .creating

/-- A thread has claimed a path. -/
def State.Owns (s : State ι) (i : ι) (d : Bytes) : Prop := ∃ e, (d, e) ∈ (s.thread i).owned

def State.WaitsFor (s : State ι) (i j : ι) : Prop := ∃ d, s.WaitsOn i d ∧ s.Owns j d

/-- A thread is in one of the two `mkdir` calls for a path. -/
def State.Makes (s : State ι) (i : ι) (d : Bytes) : Prop :=
  ∃ mode e outer, (s.thread i).running = some (.making d mode e, outer) ∨
    (s.thread i).running = some (.again d mode e, outer)

theorem State.Makes.owns {s : State ι} {i : ι} {d : Bytes} (h : s.Makes i d) : s.Owns i d := by
  obtain ⟨mode, e, outer, hrun | hrun⟩ := h
  · exact ⟨e, by rw [owned_of_running hrun]; exact List.mem_cons_self⟩
  · exact ⟨e, by rw [owned_of_running hrun]; exact List.mem_cons_self⟩

variable [Fintype ι] [DecidableEq ι] {s s' : State ι} {i j : ι} {d d' p : Bytes}

omit [DecidableEq ι] in
theorem Sound.entry_of_owns (h : Sound s) {e : ℕ} (hown : (d, e) ∈ (s.thread i).owned) :
    ∃ en, s.entry e = some en ∧ en.path = d :=
  h.owned i (d, e) hown

omit [Fintype ι] [DecidableEq ι] in
theorem count_owned_pos {e : ℕ} (hown : (d, e) ∈ (s.thread i).owned) :
    0 < ((s.thread i).owned.map Prod.snd).count e :=
  List.count_pos_iff.mpr (List.mem_map.mpr ⟨(d, e), hown, rfl⟩)

/-- A path has one owner. -/
theorem Sound.owner_unique (h : Sound s) (hi : s.Owns i d) (hj : s.Owns j d) : i = j := by
  obtain ⟨e, hi⟩ := hi
  obtain ⟨e', hj⟩ := hj
  obtain ⟨en, hentry, hpath⟩ := h.entry_of_owns hi
  obtain ⟨en', hentry', hpath'⟩ := h.entry_of_owns hj
  have heq := h.table.unique e e' en en' hentry hentry' (hpath.trans hpath'.symm)
  subst heq
  by_contra hne
  have hsum := add_le_total (fun t : Thread => (t.owned.map Prod.snd).count e) s.thread hne
  have hi := count_owned_pos hi
  have hj := count_owned_pos hj
  have honce : total (fun t : Thread => (t.owned.map Prod.snd).count e) s.thread = _ := h.once e
  have hle := Bool.toNat_le (s.creating e)
  omega

omit [DecidableEq ι] in
/-- What a waiting thread owns lies below the path for which it waits. -/
theorem Sound.ancestor (h : Sound s) (hwait : s.WaitsOn i d) (hown : s.Owns i p) :
    Ancestor d p := by
  obtain ⟨e, outer, en, hrun, -, -⟩ := hwait
  obtain ⟨e', hown⟩ := hown
  rw [owned_of_running hrun] at hown
  obtain ⟨o, ho, heq⟩ := List.mem_map.mp hown
  cases heq
  exact ((h.thread i).nested _ _ hrun).ancestor o ho

omit [Fintype ι] [DecidableEq ι] in
theorem State.WaitsOn.unique (h : s.WaitsOn i d) (h' : s.WaitsOn i d') : d = d' := by
  obtain ⟨e, outer, en, hrun, -, -⟩ := h
  obtain ⟨e', outer', en', hrun', -, -⟩ := h'
  rw [hrun] at hrun'
  cases hrun'
  rfl

omit [DecidableEq ι] in
/-- Along the waiting threads the paths go up. -/
theorem Sound.ancestor_of_waits (h : Sound s) (hchain : Relation.TransGen s.WaitsFor i j)
    (hi : s.WaitsOn i d) (hj : s.WaitsOn j d') : Ancestor d' d := by
  induction hchain generalizing d' with
  | single hwait =>
    obtain ⟨p, hp, hown⟩ := hwait
    rw [hi.unique hp]
    exact h.ancestor hj hown
  | tail _ hwait ih =>
    obtain ⟨p, hp, hown⟩ := hwait
    exact (h.ancestor hj hown).trans (ih hp)

omit [DecidableEq ι] in
theorem Sound.no_cycle (h : Sound s) (i : ι) : ¬Relation.TransGen s.WaitsFor i i := by
  intro hcycle
  obtain ⟨j, ⟨d, hwait, -⟩, -⟩ := Relation.TransGen.head'_iff.mp hcycle
  exact Nat.lt_irrefl _ (rank_lt_of_ancestor (h.ancestor_of_waits hcycle hwait hwait))

/-- A call that does not sleep has a next step. -/
theorem Sound.can_advance (h : Sound s) {call : Call} {outer : List Outer}
    (hrun : (s.thread i).running = some (call, outer)) :
    (∃ answer s', advance s i answer call outer = some s') ∨ s.WaitsOn i call.dir := by
  have hread : ∀ state, state ≠ .creating → ∃ s', s.read i outer call.dir state = some s' := by
    intro state hstate
    cases state with
    | creating => exact absurd rfl hstate
    | ready => exact ⟨_, rfl⟩
    | failed err => exact ⟨_, rfl⟩
  cases call with
  | start dir mode =>
    left
    by_cases hlast : dir = (s.thread i).lastDir
    · exact ⟨.ok, _, if_pos hlast⟩
    · simp only [advance, if_neg hlast]
      cases hfind : s.dirCacheFindLocked dir with
      | none => exact ⟨.error .eio, _, rfl⟩
      | some e =>
        have hmem := List.mem_of_find?_eq_some hfind
        obtain ⟨en, hentry, -⟩ := (h.table.listed _ e).mp hmem
        refine ⟨.ok, ?_⟩
        dsimp only
        rw [hentry]
        dsimp only
        split_ifs with hstate
        · exact ⟨_, rfl⟩
        · exact hread en.state hstate
  | waiting dir e =>
    obtain ⟨en, hentry, -⟩ := (h.thread i).call _ _ hrun
    by_cases hstate : en.state = .creating
    · exact Or.inr ⟨e, outer, en, hrun, hentry, hstate⟩
    · refine Or.inl ⟨.ok, ?_⟩
      simp only [advance, hentry]
      exact hread en.state hstate
  | making dir mode e => exact Or.inl ⟨.error .eio, _, rfl⟩
  | again dir mode e => exact Or.inl ⟨.error .eio, _, rfl⟩
  | checking dir e => exact Or.inl ⟨.error .eio, _, rfl⟩
  | settling dir e result => exact Or.inl ⟨.ok, _, rfl⟩

omit [DecidableEq ι] in
/-- The path for which a thread sleeps has an owner. -/
theorem Sound.owner (h : Sound s) (hwait : s.WaitsOn i d) : ∃ j, s.Owns j d := by
  obtain ⟨e, outer, en, hrun, hentry, hstate⟩ := hwait
  obtain ⟨en', hentry', hpath⟩ := (h.thread i).call _ _ hrun
  rw [hentry] at hentry'
  cases hentry'
  have hone := h.once e
  unfold State.creating at hone
  rw [hentry, Option.any_some, decide_eq_true hstate, Bool.toNat_true] at hone
  have hpos : 0 < total (fun t : Thread => (t.owned.map Prod.snd).count e) s.thread := by
    show 0 < s.owners e
    omega
  obtain ⟨j, hj⟩ := exists_pos_of_total_pos hpos
  obtain ⟨⟨p, e'⟩, hmem, heq⟩ := List.mem_map.mp (List.count_pos_iff.mp hj)
  cases heq
  obtain ⟨en', hentry', hpath'⟩ := h.entry_of_owns hmem
  rw [hentry] at hentry'
  cases hentry'
  exact ⟨j, e', by rw [← hpath, hpath']; exact hmem⟩

/-- Behind every thread that sleeps there is one that can go on. -/
theorem Sound.someone_advances (h : Sound s) (hwait : s.WaitsOn i d) :
    ∃ j answer s', step s (.advance j answer) = some s' := by
  induction hn : rank d using Nat.strong_induction_on generalizing i d with
  | h n ih =>
    obtain ⟨j, hown⟩ := h.owner hwait
    cases hrun : (s.thread j).running with
    | none =>
      obtain ⟨e, hown⟩ := hown
      unfold Thread.owned at hown
      rw [hrun] at hown
      exact (List.not_mem_nil hown).elim
    | some r =>
      obtain ⟨call, outer⟩ := r
      rcases h.can_advance hrun with ⟨answer, s', hstep⟩ | hnext
      · refine ⟨j, answer, s', ?_⟩
        simp only [step, hrun]
        exact hstep
      · have hlt := rank_lt_of_ancestor (h.ancestor hnext hown)
        exact ih (rank call.dir) (by omega) hnext rfl

theorem Sound.progress (h : Sound s) (hrun : (s.thread i).running ≠ none) :
    ∃ j answer s', step s (.advance j answer) = some s' := by
  obtain ⟨⟨call, outer⟩, hcall⟩ := Option.ne_none_iff_exists'.mp hrun
  rcases h.can_advance hcall with ⟨answer, s', hstep⟩ | hwait
  · refine ⟨i, answer, s', ?_⟩
    simp only [step, hcall]
    exact hstep
  · exact h.someone_advances hwait

/-- Whoever returns for a path after its entry was settled returns what the entry says. -/
theorem Sound.settled_run (h : Sound s) {e : ℕ} {en : Entry} (hentry : s.entry e = some en)
    (hstate : en.state ≠ .creating) {as : List (Action ι)} (hrun : exec step s as = some s') :
    s'.entry e = some en ∧ ∃ new, s'.returned = new ++ s.returned ∧
      ∀ x ∈ new, x.dir = en.path → en.state = .ofResult x.result := by
  induction as generalizing s with
  | nil =>
    cases hrun
    exact ⟨hentry, [], rfl, fun x hx => (List.not_mem_nil hx).elim⟩
  | cons a as ih =>
    obtain ⟨u, hstep, hrest⟩ := exec_cons_eq_some.mp hrun
    obtain ⟨hsound, hfaithful⟩ := good_step h hstep
    have hentry' := hfaithful.stable e en hentry hstate
    obtain ⟨hfinal, new, hnew, hsame⟩ := ih hsound hentry' hrest
    refine ⟨hfinal, ?_⟩
    rcases hfaithful.same with heq | ⟨x, hx, hxstate⟩
    · exact ⟨new, by rw [hnew, heq], hsame⟩
    · refine ⟨new ++ [x], by rw [hnew, hx, List.append_assoc, List.singleton_append], ?_⟩
      intro y hy hpath
      rcases List.mem_append.mp hy with hy | hy
      · exact hsame y hy hpath
      · rw [List.mem_singleton] at hy
        subst hy
        exact hxstate e en hentry' hpath.symm

/-- Any number of threads, in any order: a path has one entry and one thread that makes it, a
call succeeds only when the directory exists, every call that returns for a path with an entry
returns what the settled entry says and it never says anything else, and whoever waits, waits
for a strict ancestor of what it has claimed, so no threads wait in a circle and some thread
can always go on. -/
theorem dirCache_sound (h : Reachable step init s) :
    (∀ e e' en en', s.entry e = some en → s.entry e' = some en' → en.path = en'.path → e = e') ∧
      (∀ i j d, s.Makes i d → s.Makes j d → i = j) ∧
      (∀ x ∈ s.returned, x.result = none → s.dirs x.dir = true) ∧
      (∀ a s', step s a = some s' → s'.returned = s.returned ∨ ∃ x, s'.returned = x :: s.returned ∧
        ∀ e en, s'.entry e = some en → en.path = x.dir → en.state = .ofResult x.result) ∧
      (∀ e en, s.entry e = some en → en.state ≠ .creating →
        ∀ as s', exec step s as = some s' → s'.entry e = some en ∧
          ∃ new, s'.returned = new ++ s.returned ∧
            ∀ x ∈ new, x.dir = en.path → en.state = .ofResult x.result) ∧
      (∀ i d p, s.WaitsOn i d → s.Owns i p → Ancestor d p) ∧
      (∀ i, ¬Relation.TransGen s.WaitsFor i i) ∧
      ∀ i, (s.thread i).running ≠ none →
        ∃ j answer s', step s (.advance j answer) = some s' := by
  have hsound := sound_reachable h
  refine ⟨hsound.table.unique, ?_, hsound.log, ?_, ?_, ?_, hsound.no_cycle, ?_⟩
  · intro i j d hi hj
    exact hsound.owner_unique hi.owns hj.owns
  · intro a s' hstep
    exact (good_step hsound hstep).2.same
  · intro e en hentry hstate as s' hrun
    exact hsound.settled_run hentry hstate hrun
  · intro i d p hwait hown
    exact hsound.ancestor hwait hown
  · intro i hrun
    exact hsound.progress hrun

/-- One thread makes `/a/b` and has to make `/a` for it; another one waits for `/a`. -/
def nestedRun : List (Action Bool) :=
  [.ensure true [slash, 97, slash, 98] 0o755, .advance true (.node 0), .advance true (.error .enoent),
    .advance true (.node 1), .ensure false [slash, 97] 0o755, .advance false .ok]

theorem dirCache_sound_nested :
    ∃ s, exec step (init : State Bool) nestedRun = some s ∧ s.WaitsFor false true ∧
      ¬Relation.TransGen s.WaitsFor false false := by
  have hrun : ((exec step (init : State Bool) nestedRun).any fun s =>
      decide ((s.thread false).running = some (.waiting [slash, 97] 1, [])) &&
      decide (s.entry 1 = some ⟨[slash, 97], .creating, none⟩) &&
      decide (([slash, 97], 1) ∈ (s.thread true).owned)) = true := by decide +kernel
  obtain ⟨s, hs, hstate⟩ := (Option.any_eq_true _ _).mp hrun
  rw [Bool.and_eq_true, Bool.and_eq_true, decide_eq_true_eq, decide_eq_true_eq, decide_eq_true_eq]
    at hstate
  obtain ⟨⟨hwait, hentry⟩, hown⟩ := hstate
  refine ⟨s, hs, ⟨[slash, 97], ⟨1, [], _, hwait, hentry, rfl⟩, 1, hown⟩, ?_⟩
  exact (dirCache_sound ⟨nestedRun, hs⟩).2.2.2.2.2.2.1 false

end Ecopy.Server.DirCache
