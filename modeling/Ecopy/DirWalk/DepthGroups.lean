import Ecopy.Lib.Runs
import Ecopy.Lib.Threads

/-!
# Deepest-first groups

`dirwalk_depth_groups_ex` runs a callback on every index, a group of equal depth after the
other, and joins its threads between two groups. In contiguous mode each thread of a group has
a slice; the nominal bounds of the slices are moved to the starts of runs. Otherwise the threads
take the next index under a lock.

One step is a critical section, the beginning or the end of a call, or a step of the calling
thread. Threads are created without failure and the callbacks return 0, so nothing fails.
`thread_start` is left out. Indices are those of an array in memory, and products of a length
and a number of threads are taken to fit.
-/
namespace Ecopy.DirWalk.DepthGroups
open Lib.Runs Lib.Threads

structure Config where
  n : ℕ
  threads : ℤ
  depthOf : ℕ → ℤ
  contiguous : Bool
  sameRun : Option (ℕ → ℕ → Bool)
  betweenGroups : Bool

/-- The most threads that a group has. -/
def Config.pool (c : Config) : ℕ := (max c.threads 1).toNat

/-- The loop that looks for the end of the group of this depth. -/
def Config.endFrom (c : Config) (depth : ℤ) (stop : ℕ) : ℕ :=
  if stop < c.n ∧ c.depthOf stop = depth then c.endFrom depth (stop + 1) else stop
termination_by c.n - stop

def Config.groupEnd (c : Config) (start : ℕ) : ℕ := c.endFrom (c.depthOf start) (start + 1)

def Config.count (c : Config) (start stop : ℕ) : ℕ := min c.pool (stop - start)

/-- The loop of `snap_to_run_start`. -/
def snapFrom (same : ℕ → ℕ → Bool) (start stop pos : ℕ) : ℕ :=
  if start < pos ∧ pos < stop ∧ same (pos - 1) pos = true then snapFrom same start stop (pos + 1)
  else pos
termination_by stop - pos

def Config.snapToRunStart (c : Config) (start stop pos : ℕ) : ℕ :=
  match c.sameRun with
  | none => pos
  | some same => snapFrom same start stop pos

/-- Where the slice of thread `idx` begins and that of the thread before it ends. -/
def Config.bound (c : Config) (start stop idx : ℕ) : ℕ :=
  c.snapToRunStart start stop (start + (stop - start) * idx / c.count start stop)

/-- In `serving i hi` the thread is at the head of its loop; a thread that takes its indices one
at a time has a loop of one round. -/
inductive Pc where
  | absent
  | binding
  | pulling
  | serving (i hi : ℕ)
  | calling (i hi : ℕ)
  | exited
deriving DecidableEq, Repr

inductive MainPc where
  | top
  | creating
  | joining
  | hooking
  | finished
deriving DecidableEq, Repr

variable {c : Config}

inductive Event (c : Config) where
  | began (k : Fin c.pool) (i : ℕ)
  | ended (k : Fin c.pool) (i : ℕ)
  | hookBegan (start stop : ℕ)
  | hookEnded (start stop : ℕ)
deriving DecidableEq

/-- `stop` is the start of the next group when there is no group. -/
structure State (c : Config) where
  main : MainPc
  start : ℕ
  stop : ℕ
  next : ℕ
  created : ℕ
  bindSeq : ℕ
  pc : Fin c.pool → Pc
  idx : Fin c.pool → ℕ
  log : List (Event c)

def State.init (c : Config) : State c where
  main := .top
  start := 0
  stop := 0
  next := 0
  created := 0
  bindSeq := 0
  pc := fun _ => .absent
  idx := fun _ => 0
  log := []

def State.set (s : State c) (k : Fin c.pool) (p : Pc) : State c :=
  { s with pc := Function.update s.pc k p }

def State.note (s : State c) (ev : Event c) : State c := { s with log := s.log ++ [ev] }

/-- The next step of the calling thread. -/
def mainStep (s : State c) : Option (State c) :=
  match s.main with
  | .top =>
    if s.stop < c.n then
      some { s with
        main := .creating
        start := s.stop
        stop := c.groupEnd s.stop
        next := s.stop
        created := 0
        bindSeq := 0
        pc := fun _ => .absent }
    else some { s with main := .finished }
  | .creating =>
    if h : s.created < c.count s.start s.stop then
      some { s.set ⟨s.created, h.trans_le (Nat.min_le_left _ _)⟩ .binding with
        created := s.created + 1 }
    else some { s with main := .joining }
  | .joining =>
    if ∀ k : Fin c.pool, k < s.created → s.pc k = .exited then
      if c.betweenGroups then some { s.note (.hookBegan s.start s.stop) with main := .hooking }
      else some { s with main := .top }
    else none
  | .hooking => some { s.note (.hookEnded s.start s.stop) with main := .top }
  | .finished => none

/-- The next step of `group_worker`. -/
def workerStep (s : State c) (k : Fin c.pool) : Option (State c) :=
  match s.pc k with
  | .binding =>
    let s' := { s with bindSeq := s.bindSeq + 1, idx := Function.update s.idx k s.bindSeq }
    if c.contiguous then
      some (s'.set k (.serving (c.bound s.start s.stop s.bindSeq)
        (c.bound s.start s.stop (s.bindSeq + 1))))
    else some (s'.set k .pulling)
  | .pulling =>
    if s.next ≥ s.stop then some (s.set k .exited)
    else some ({ s with next := s.next + 1 }.set k (.serving s.next (s.next + 1)))
  | .serving i hi =>
    if i < hi then some ((s.note (.began k i)).set k (.calling i hi))
    else some (s.set k (if c.contiguous then .exited else .pulling))
  | .calling i hi => some ((s.note (.ended k i)).set k (.serving (i + 1) hi))
  | .absent | .exited => none

inductive Act (c : Config) where
  | main
  | worker (k : Fin c.pool)

def step (s : State c) : Act c → Option (State c)
  | .main => mainStep s
  | .worker k => workerStep s k

theorem endFrom_spec (depth : ℤ) {stop : ℕ} (hstop : stop ≤ c.n) :
    stop ≤ c.endFrom depth stop ∧ c.endFrom depth stop ≤ c.n ∧
      (∀ i, stop ≤ i → i < c.endFrom depth stop → c.depthOf i = depth) ∧
      (c.endFrom depth stop < c.n → c.depthOf (c.endFrom depth stop) ≠ depth) := by
  fun_induction Config.endFrom c depth stop with
  | case1 stop hgo ih =>
    obtain ⟨hle, hn, hall, hend⟩ := ih hgo.1
    refine ⟨by omega, hn, ?_, hend⟩
    intro i hi hi'
    rcases Nat.lt_or_eq_of_le hi with hlt | rfl
    · exact hall i hlt hi'
    · exact hgo.2
  | case2 stop hgo =>
    refine ⟨le_rfl, hstop, fun i hi hi' => absurd hi' (by omega), ?_⟩
    intro hlt heq
    exact hgo ⟨hlt, heq⟩

/-- A group is the longest stretch of one depth from its start on. -/
theorem groupEnd_spec {start : ℕ} (hstart : start < c.n) :
    start < c.groupEnd start ∧ c.groupEnd start ≤ c.n ∧
      (∀ i, start ≤ i → i < c.groupEnd start → c.depthOf i = c.depthOf start) ∧
      (c.groupEnd start < c.n → c.depthOf (c.groupEnd start) ≠ c.depthOf start) := by
  obtain ⟨hle, hn, hall, hend⟩ := endFrom_spec (c.depthOf start) (show start + 1 ≤ c.n from hstart)
  refine ⟨hle, hn, ?_, hend⟩
  intro i hi hi'
  rcases Nat.lt_or_eq_of_le hi with hlt | rfl
  · exact hall i hlt hi'
  · rfl

theorem pool_pos : 0 < c.pool := by
  unfold Config.pool
  omega

theorem count_pos {start stop : ℕ} (h : start < stop) : 0 < c.count start stop := by
  unfold Config.count
  have := pool_pos (c := c)
  omega

theorem snapFrom_spec (same : ℕ → ℕ → Bool) (start stop pos : ℕ) :
    pos ≤ snapFrom same start stop pos ∧
      (pos ≤ stop → snapFrom same start stop pos ≤ stop) ∧
      (start < snapFrom same start stop pos → snapFrom same start stop pos < stop →
        same (snapFrom same start stop pos - 1) (snapFrom same start stop pos) = false) ∧
      ∀ q, pos ≤ q → q ≤ snapFrom same start stop pos →
        snapFrom same start stop q = snapFrom same start stop pos := by
  fun_induction snapFrom same start stop pos with
  | case1 pos hgo ih =>
    obtain ⟨hle, hstop, hbreak, hagree⟩ := ih
    refine ⟨by omega, fun _ => hstop (by omega), hbreak, ?_⟩
    intro q hq hq'
    rcases Nat.lt_or_eq_of_le hq with hlt | rfl
    · exact hagree q hlt hq'
    · conv_lhs => unfold snapFrom
      rw [if_pos hgo]
  | case2 pos hgo =>
    refine ⟨le_rfl, id, ?_, ?_⟩
    · intro hstart hstop
      by_contra hsame
      exact hgo ⟨hstart, hstop, by simpa using hsame⟩
    · intro q hq hq'
      rw [show q = pos by omega]
      unfold snapFrom
      rw [if_neg hgo]

variable (c) in
/-- Moving bounds to the starts of runs keeps their order. -/
theorem snapToRunStart_mono (start stop : ℕ) {p q : ℕ} (h : p ≤ q) :
    c.snapToRunStart start stop p ≤ c.snapToRunStart start stop q := by
  unfold Config.snapToRunStart
  cases c.sameRun with
  | none => exact h
  | some same =>
    dsimp only
    obtain ⟨-, -, -, hagree⟩ := snapFrom_spec same start stop p
    by_cases hq : q ≤ snapFrom same start stop p
    · rw [hagree q h hq]
    · have hle := (snapFrom_spec same start stop q).1
      omega

variable (c) in
theorem snapToRunStart_start (start stop : ℕ) : c.snapToRunStart start stop start = start := by
  unfold Config.snapToRunStart
  cases c.sameRun with
  | none => rfl
  | some same =>
    dsimp only
    unfold snapFrom
    rw [if_neg (by omega)]

variable (c) in
theorem snapToRunStart_stop (start stop : ℕ) : c.snapToRunStart start stop stop = stop := by
  unfold Config.snapToRunStart
  cases c.sameRun with
  | none => rfl
  | some same =>
    dsimp only
    unfold snapFrom
    rw [if_neg (by omega)]

variable {start stop : ℕ}

theorem bound_zero : c.bound start stop 0 = start := by
  unfold Config.bound
  rw [Nat.mul_zero, Nat.zero_div, Nat.add_zero, snapToRunStart_start]

theorem bound_count (h : start < stop) : c.bound start stop (c.count start stop) = stop := by
  unfold Config.bound
  rw [Nat.mul_div_cancel _ (count_pos h), Nat.add_sub_cancel' h.le, snapToRunStart_stop]

theorem bound_mono {i j : ℕ} (h : i ≤ j) : c.bound start stop i ≤ c.bound start stop j := by
  apply snapToRunStart_mono
  apply Nat.add_le_add_left
  exact Nat.div_le_div_right (Nat.mul_le_mul_left _ h)

theorem bound_le {idx : ℕ} (h : start < stop) (hidx : idx ≤ c.count start stop) :
    c.bound start stop idx ≤ stop :=
  (bound_mono hidx).trans_eq (bound_count h)

/-- No bound lies inside a run. -/
theorem not_same_bound {same : ℕ → ℕ → Bool} (hsame : c.sameRun = some same) {idx : ℕ}
    (hstart : start < c.bound start stop idx) (hstop : c.bound start stop idx < stop) :
    same (c.bound start stop idx - 1) (c.bound start stop idx) = false := by
  unfold Config.bound Config.snapToRunStart at *
  rw [hsame] at hstart hstop ⊢
  exact (snapFrom_spec same start stop _).2.2.1 hstart hstop

/-- The slices of a group. -/
structure Slices (c : Config) (start stop : ℕ) : Prop where
  once : ∀ i, start ≤ i → i < stop → ∃! idx, idx < c.count start stop ∧
    c.bound start stop idx ≤ i ∧ i < c.bound start stop (idx + 1)
  inside : ∀ idx < c.count start stop, start ≤ c.bound start stop idx ∧
    c.bound start stop idx ≤ c.bound start stop (idx + 1) ∧ c.bound start stop (idx + 1) ≤ stop
  whole : ∀ same, c.sameRun = some same → ∀ i idx, start ≤ i → i + 1 < stop →
    same i (i + 1) = true → idx < c.count start stop →
    (c.bound start stop idx ≤ i ∧ i < c.bound start stop (idx + 1) ↔
      c.bound start stop idx ≤ i + 1 ∧ i + 1 < c.bound start stop (idx + 1))

theorem bound_unique {i j k : ℕ} (hj : c.bound start stop j ≤ i)
    (hj' : i < c.bound start stop (j + 1)) (hk : c.bound start stop k ≤ i)
    (hk' : i < c.bound start stop (k + 1)) : j = k := by
  rcases Nat.lt_trichotomy j k with hlt | heq | hlt
  · have hmono : c.bound start stop (j + 1) ≤ c.bound start stop k := bound_mono hlt
    omega
  · exact heq
  · have hmono : c.bound start stop (k + 1) ≤ c.bound start stop j := bound_mono hlt
    omega

/-- Neighbours of a run are on the same side of every bound. -/
theorem bound_le_iff {same : ℕ → ℕ → Bool} (hsame : c.sameRun = some same) {i idx : ℕ}
    (hstart : start ≤ i) (hstop : i + 1 < stop) (hrun : same i (i + 1) = true) :
    c.bound start stop idx ≤ i ↔ c.bound start stop idx ≤ i + 1 := by
  constructor
  · intro h
    omega
  · intro h
    by_contra hlt
    have heq : c.bound start stop idx = i + 1 := by omega
    have hbreak : same (c.bound start stop idx - 1) (c.bound start stop idx) = false :=
      not_same_bound hsame (by omega) (by omega)
    rw [heq, Nat.add_sub_cancel, hrun] at hbreak
    cases hbreak

theorem exists_slice {i : ℕ} (h : start < stop) (hi : start ≤ i) (hi' : i < stop) :
    ∃ idx < c.count start stop, c.bound start stop idx ≤ i ∧ i < c.bound start stop (idx + 1) := by
  have hpass : ∀ m, i < c.bound start stop m →
      ∃ idx < m, c.bound start stop idx ≤ i ∧ i < c.bound start stop (idx + 1) := by
    intro m
    induction m with
    | zero =>
      intro hm
      rw [bound_zero] at hm
      omega
    | succ m ih =>
      intro hm
      by_cases hlast : i < c.bound start stop m
      · obtain ⟨idx, hidx, hin⟩ := ih hlast
        exact ⟨idx, Nat.lt_succ_of_lt hidx, hin⟩
      · exact ⟨m, Nat.lt_succ_self m, not_lt.mp hlast, hm⟩
  apply hpass
  rw [bound_count h]
  exact hi'

theorem slices (c : Config) {start stop : ℕ} (h : start < stop) : Slices c start stop where
  once := by
    intro i hi hi'
    obtain ⟨idx, hidx, hin⟩ := exists_slice (c := c) h hi hi'
    refine ⟨idx, ⟨hidx, hin⟩, ?_⟩
    intro j hj
    exact bound_unique hj.2.1 hj.2.2 hin.1 hin.2
  inside := by
    intro idx hidx
    refine ⟨?_, bound_mono (Nat.le_succ idx), bound_le h hidx⟩
    have hmono : c.bound start stop 0 ≤ c.bound start stop idx := bound_mono (Nat.zero_le idx)
    rw [bound_zero] at hmono
    exact hmono
  whole := by
    intro same hsame i idx hi hi' hrun _
    have hlow : c.bound start stop idx ≤ i ↔ _ := bound_le_iff hsame hi hi' hrun
    have hhigh : c.bound start stop (idx + 1) ≤ i ↔ _ := bound_le_iff hsame hi hi' hrun
    omega

/-- What a step can do. -/
inductive Move (s : State c) : State c → Prop
  | group (top : s.main = .top) (more : s.stop < c.n) :
      Move s { s with
        main := .creating
        start := s.stop
        stop := c.groupEnd s.stop
        next := s.stop
        created := 0
        bindSeq := 0
        pc := fun _ => .absent }
  | finish (top : s.main = .top) (complete : c.n ≤ s.stop) : Move s { s with main := .finished }
  | create (k : Fin c.pool) (creating : s.main = .creating) (here : (k : ℕ) = s.created)
      (more : s.created < c.count s.start s.stop) :
      Move s { s with pc := Function.update s.pc k .binding, created := s.created + 1 }
  | join (creating : s.main = .creating) (all : c.count s.start s.stop ≤ s.created) :
      Move s { s with main := .joining }
  | hook (joining : s.main = .joining)
      (joined : ∀ k : Fin c.pool, k < s.created → s.pc k = .exited) (given : c.betweenGroups = true) :
      Move s { s with main := .hooking, log := s.log ++ [.hookBegan s.start s.stop] }
  | complete (joining : s.main = .joining)
      (joined : ∀ k : Fin c.pool, k < s.created → s.pc k = .exited)
      (given : c.betweenGroups = false) : Move s { s with main := .top }
  | hooked (hooking : s.main = .hooking) :
      Move s { s with main := .top, log := s.log ++ [.hookEnded s.start s.stop] }
  | slice (k : Fin c.pool) (binding : s.pc k = .binding) (contiguous : c.contiguous = true) :
      Move s { s with
        bindSeq := s.bindSeq + 1
        idx := Function.update s.idx k s.bindSeq
        pc := Function.update s.pc k (.serving (c.bound s.start s.stop s.bindSeq)
          (c.bound s.start s.stop (s.bindSeq + 1))) }
  | bind (k : Fin c.pool) (binding : s.pc k = .binding) (contiguous : c.contiguous = false) :
      Move s { s with
        bindSeq := s.bindSeq + 1
        idx := Function.update s.idx k s.bindSeq
        pc := Function.update s.pc k .pulling }
  | pull (k : Fin c.pool) (pulling : s.pc k = .pulling) (more : s.next < s.stop) :
      Move s { s with
        next := s.next + 1
        pc := Function.update s.pc k (.serving s.next (s.next + 1)) }
  | empty (k : Fin c.pool) (pulling : s.pc k = .pulling) (none : s.stop ≤ s.next) :
      Move s { s with pc := Function.update s.pc k .exited }
  | begin (k : Fin c.pool) (i hi : ℕ) (serving : s.pc k = .serving i hi) (more : i < hi) :
      Move s { s with
        log := s.log ++ [.began k i]
        pc := Function.update s.pc k (.calling i hi) }
  | served (k : Fin c.pool) (i hi : ℕ) (serving : s.pc k = .serving i hi) (none : hi ≤ i) :
      Move s { s with
        pc := Function.update s.pc k (if c.contiguous then .exited else .pulling) }
  | finishCall (k : Fin c.pool) (i hi : ℕ) (calling : s.pc k = .calling i hi) :
      Move s { s with
        log := s.log ++ [.ended k i]
        pc := Function.update s.pc k (.serving (i + 1) hi) }

variable {s u : State c} {a : Act c}

theorem mainStep_move (h : mainStep s = some u) : Move s u := by
  unfold mainStep at h
  cases hmain : s.main with
  | top =>
    rw [hmain] at h
    dsimp only at h
    split at h
    · cases h
      exact .group hmain ‹_›
    · cases h
      exact .finish hmain (by omega)
  | creating =>
    rw [hmain] at h
    dsimp only at h
    split at h
    · cases h
      exact .create _ hmain rfl ‹_›
    · cases h
      exact .join hmain (by omega)
  | joining =>
    rw [hmain] at h
    dsimp only at h
    split at h
    · rename_i hjoined
      split at h
      · cases h
        exact .hook hmain hjoined ‹_›
      · rename_i hgiven
        cases h
        exact .complete hmain hjoined (eq_false_of_ne_true hgiven)
    · cases h
  | hooking =>
    rw [hmain] at h
    cases h
    exact .hooked hmain
  | finished =>
    rw [hmain] at h
    cases h

theorem workerStep_move {k : Fin c.pool} (h : workerStep s k = some u) : Move s u := by
  unfold workerStep at h
  cases hpc : s.pc k with
  | absent =>
    rw [hpc] at h
    cases h
  | binding =>
    rw [hpc] at h
    dsimp only at h
    split at h
    · cases h
      exact .slice k hpc ‹_›
    · rename_i hcontiguous
      cases h
      exact .bind k hpc (eq_false_of_ne_true hcontiguous)
  | pulling =>
    rw [hpc] at h
    dsimp only at h
    split at h
    · cases h
      exact .empty k hpc ‹_›
    · cases h
      exact .pull k hpc (by omega)
  | serving i hi =>
    rw [hpc] at h
    dsimp only at h
    split at h
    · cases h
      exact .begin k i hi hpc ‹_›
    · cases h
      exact .served k i hi hpc (by omega)
  | calling i hi =>
    rw [hpc] at h
    cases h
    exact .finishCall k i hi hpc
  | exited =>
    rw [hpc] at h
    cases h

theorem step_move (h : step s a = some u) : Move s u := by
  cases a with
  | main => exact mainStep_move h
  | worker k => exact workerStep_move h

end Ecopy.DirWalk.DepthGroups
