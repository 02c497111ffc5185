import Ecopy.DirWalk.Walker
import Mathlib.Data.List.Count

/-!
# Steps of the walker and the end of the walk

Without a stop request or a failed allocation a transition of the walker is one
of ten moves; `Step` lists them and the invariants below are proved against that
list. `g_active` counts the threads that work on a node, so the walk is declared
done exactly when the queue is empty and nobody works any more. Until then
either the queue holds a node or somebody works, and a node in the queue has a
thread awake to take it.
-/
namespace Ecopy.DirWalk
open Lib.Runs Lib.Threads

variable {c : Config}

/-- The thread works on a node. -/
def Pc.busy : Pc → Bool
  | .opening _ => true
  | .reading _ _ => true
  | .descending _ _ _ => true
  | .leaving => true
  | _ => false

/-- The thread is about to look at the queue under the lock. -/
def Pc.Idle (p : Pc) : Prop := p = .top ∨ p = .woken

def Pc.Awake (p : Pc) : Prop := p ≠ .parked ∧ p ≠ .exited

theorem Pc.Idle.busy_eq {p : Pc} (h : p.Idle) : p.busy = false := by
  rcases h with rfl | rfl <;> rfl

/-- The moves; the flag is set for a spurious wake. -/
inductive Step (s : State c) : Bool → State c → Prop
  | pop (i : Fin c.threads) (idle : (s.pc i).Idle) (n : Node) (rest : List Node)
      (first : s.queue = n :: rest) :
      Step s false { s with
        queue := rest, active := s.active + 1, pc := Function.update s.pc i (.opening n) }
  | park (i : Fin c.threads) (idle : (s.pc i).Idle) (empty : s.queue = [])
      (more : s.done = false) :
      Step s false { s with pc := Function.update s.pc i .parked }
  | exit (i : Fin c.threads) (idle : (s.pc i).Idle) (empty : s.queue = [])
      (complete : s.done = true) :
      Step s false { s with pc := Function.update s.pc i .exited }
  | openNode (i : Fin c.threads) (n : Node) (begins : Bool) (at_node : s.pc i = .opening n) :
      Step s false { s with
        pc := Function.update s.pc i (openNode n begins).1, log := s.log ++ (openNode n begins).2 }
  | readNode (i : Fin c.threads) (n : Node) (l : Listing) (descend : Bool)
      (at_node : s.pc i = .reading n l) :
      Step s false { s with
        issued := s.issued + (readNode c false s.issued n descend l).2.2
        pc := Function.update s.pc i (readNode c false s.issued n descend l).1
        log := s.log ++ (readNode c false s.issued n descend l).2.1 }
  | push (i : Fin c.threads) (n child : Node) (rest : Listing)
      (at_node : s.pc i = .descending n child rest) (pc : Fin c.threads → Pc)
      (wake : Option (Fin c.threads))
      (woke : signal .parked .woken (Function.update s.pc i (.reading n rest)) wake = some pc) :
      Step s false { s with queue := s.queue ++ [child], pc := pc }
  | finish (i : Fin c.threads) (leaving : s.pc i = .leaving)
      (more : ¬(s.queue = [] ∧ s.active - 1 = 0)) :
      Step s false { s with active := s.active - 1, pc := Function.update s.pc i .top }
  | lastFinish (i : Fin c.threads) (leaving : s.pc i = .leaving) (empty : s.queue = [])
      (last : s.active - 1 = 0) :
      Step s false { s with
        active := s.active - 1
        done := true
        pc := broadcast .parked .woken (Function.update s.pc i .top) }
  | spurious (i : Fin c.threads) (parked : s.pc i = .parked) :
      Step s true { s with pc := Function.update s.pc i .woken }

variable {f : Fin c.threads → Pc} {s u : State c}

theorem lockBody_step (hstop : s.stop = false) {i : Fin c.threads} (idle : (s.pc i).Idle) :
    Step s false (lockBody s i) := by
  unfold lockBody
  rw [if_neg (by simp [hstop])]
  split
  · next n rest hqueue => exact .pop i idle n rest hqueue
  · next hqueue =>
    split_ifs with hdone
    · exact .exit i idle hqueue hdone
    · exact .park i idle hqueue (by simpa using hdone)

theorem lockBody_stop (s : State c) (i : Fin c.threads) : (lockBody s i).stop = s.stop := by
  unfold lockBody
  by_cases hstop : s.stop = true
  · rw [if_pos hstop]
  · rw [if_neg hstop]
    split
    · rfl
    · split_ifs <;> rfl

def Act.isSpurious : Act c → Bool
  | .spurious _ => true
  | _ => false

/-- A calm action is one of the moves, and the stop flag stays as it is. -/
theorem step_step {a : Act c} (h : step s a = some u) (hcalm : a.Calm) (hstop : s.stop = false) :
    Step s a.isSpurious u ∧ u.stop = false := by
  cases a with
  | lock i =>
    simp only [step, lock] at h
    split at h
    · next htop =>
      cases h
      exact ⟨lockBody_step hstop (Or.inl htop), (lockBody_stop s i).trans hstop⟩
    · next hwoken =>
      cases h
      exact ⟨lockBody_step hstop (Or.inr hwoken), (lockBody_stop s i).trans hstop⟩
    · cases h
  | openDir i begins =>
    simp only [step, openDir] at h
    split at h
    · next n hat =>
      cases h
      exact ⟨.openNode i n begins hat, hstop⟩
    · cases h
  | readEntry i descend =>
    simp only [step, readEntry] at h
    split at h
    · next n l hat =>
      cases h
      have hsame : readNode c s.stop s.issued n descend l =
          readNode c false s.issued n descend l := by rw [hstop]
      rw [hsame]
      exact ⟨.readNode i n l descend hat, hstop⟩
    · cases h
  | push i ok wake =>
    simp only [step, push] at h
    split at h
    · next n child rest hat =>
      have hok : ok = true := hcalm
      rw [hok, if_pos rfl] at h
      obtain ⟨pc, hpc, rfl⟩ := Option.map_eq_some_iff.mp h
      exact ⟨.push i n child rest hat pc wake hpc, hstop⟩
    · cases h
  | finish i =>
    simp only [step, finish] at h
    split at h
    · next hleaving =>
      split_ifs at h with hlast
      · cases h
        rw [List.isEmpty_iff] at hlast
        exact ⟨.lastFinish i hleaving hlast.1 hlast.2, hstop⟩
      · cases h
        rw [List.isEmpty_iff] at hlast
        exact ⟨.finish i hleaving hlast, hstop⟩
    · cases h
  | spurious i =>
    simp only [step, Option.ite_none_right_eq_some, Option.some.injEq] at h
    obtain ⟨hparked, rfl⟩ := h
    exact ⟨.spurious i hparked, hstop⟩
  | setStop => exact hcalm.elim
  | requestStop => exact hcalm.elim

/-- A calm run keeps what every move keeps. -/
theorem calm_invariant {I : State c → Prop} (hstart : I (State.start c))
    (hstep : ∀ s b u, Step s b u → I s → I u) {as : List (Act c)} {s : State c}
    (hcalm : ∀ a ∈ as, a.Calm) (hr : exec step (State.start c) as = some s) :
    I s ∧ s.stop = false := by
  refine exec_invariant_of (I := fun s => I s ∧ s.stop = false) (P := Act.Calm) ?_ hcalm
    ⟨hstart, rfl⟩ hr
  intro s a u ha hs hu
  obtain ⟨hmove, hstop⟩ := step_step hu ha hs.2
  exact ⟨hstep s _ u hmove hs.1, hstop⟩

theorem openNode_busy (n : Node) (begins : Bool) : (openNode n begins).1.busy = true := by
  unfold openNode
  split_ifs <;> rfl

/-- Whether `entry` is called for an entry, and then whether with a stat. -/
def delivers (c : Config) (e : Entry) : Option Bool :=
  if e.name = Path.dot ∨ e.name = Path.dotdot then none
  else if skipStat c e then some false
  else if e.stat = .failed then none
  else some true

/-- The entry is one to descend into, if `entry` says so. -/
def descends (c : Config) (e : Entry) : Bool :=
  delivers c e = some true && e.stat = .directory

/-- One round of the loop of `process_node` when no stop was requested. -/
inductive Round (c : Config) (issued : ℕ) (n : Node) (descend : Bool) :
    Listing → Pc × List Event × ℕ → Prop
  | failed (error : Bool) (fails : readFails c error = true) :
      Round c issued n descend (.eof error) (.leaving, [.error n.path, .ended n false], 0)
  | complete (error : Bool) (fine : readFails c error = false) :
      Round c issued n descend (.eof error) (.leaving, [.ended n true], 0)
  | pass (e : Entry) (inside rest : Listing) (silent : delivers c e = none) (errors : List Event)
      (only : ∀ ev ∈ errors, ev = .error n.path) :
      Round c issued n descend (.entry e inside rest) (.reading n rest, errors, 0)
  | deliver (e : Entry) (inside rest : Listing) (withStat : Bool)
      (calls : delivers c e = some withStat)
      (leaf : descend = true → descends c e = true →
        Server.pathJoinFast n.path e.name Path.pathMax = none)
      (errors : List Event) (only : ∀ ev ∈ errors, ev = .error n.path) :
      Round c issued n descend (.entry e inside rest)
        (.reading n rest, .entry n e withStat descend none :: errors, 0)
  | descend (e : Entry) (inside rest : Listing) (calls : delivers c e = some true)
      (isDir : descends c e = true) (wanted : descend = true) (path : Protocol.Bytes)
      (fits : Server.pathJoinFast n.path e.name Path.pathMax = some path) :
      Round c issued n descend (.entry e inside rest)
        (.descending n (n.child issued path e inside) rest,
          [.entry n e true true (some (n.child issued path e inside))], 1)

theorem readNode_round (c : Config) (issued : ℕ) (n : Node) (descend : Bool) (l : Listing) :
    Round c issued n descend l (readNode c false issued n descend l) := by
  cases l with
  | eof error =>
    cases hfails : readFails c error with
    | true =>
      simp only [readNode, hfails, if_true]
      exact .failed error hfails
    | false =>
      simp only [readNode, hfails, Bool.false_eq_true, if_false]
      exact .complete error hfails
  | entry e inside rest =>
    simp only [readNode, Bool.false_eq_true, if_false]
    by_cases hdots : e.name = Path.dot ∨ e.name = Path.dotdot
    · rw [if_pos hdots]
      exact .pass e inside rest (if_pos hdots) [] (by simp)
    · rw [if_neg hdots]
      by_cases hskip : skipStat c e = true
      · have hcalls : delivers c e = some false := by simp [delivers, hdots, hskip]
        rw [if_pos hskip]
        exact .deliver e inside rest false hcalls (by simp [descends, hcalls]) [] (by simp)
      · rw [if_neg hskip]
        cases hstat : e.stat with
        | failed =>
          have hsilent : delivers c e = none := by simp [delivers, hskip, hstat]
          exact .pass e inside rest hsilent [.error n.path] (by simp)
        | other =>
          have hcalls : delivers c e = some true := by simp [delivers, hdots, hskip, hstat]
          exact .deliver e inside rest true hcalls (by simp [descends, hstat]) [] (by simp)
        | directory =>
          have hcalls : delivers c e = some true := by simp [delivers, hdots, hskip, hstat]
          dsimp only
          by_cases hwanted : descend = true
          · subst hwanted
            rw [if_neg (by decide)]
            cases hjoin : Server.pathJoinFast n.path e.name Path.pathMax with
            | none =>
              exact .deliver e inside rest true hcalls (fun _ _ => hjoin) [.error n.path]
                (by simp)
            | some path =>
              have hdir : descends c e = true := by simp [descends, hcalls, hstat]
              have htrue : true = true := rfl
              exact Round.descend e inside rest hcalls hdir htrue path hjoin
          · rw [if_pos (by simpa using hwanted)]
            exact .deliver e inside rest true hcalls (fun h => absurd h hwanted) [] (by simp)

theorem Round.busy {issued : ℕ} {n : Node} {descend : Bool} {l : Listing}
    {r : Pc × List Event × ℕ} (h : Round c issued n descend l r) : r.1.busy = true := by
  cases h <;> rfl

/-- Moving one thread changes the number of busy threads by its own term. -/
theorem busy_update (f : Fin c.threads → Pc) (i : Fin c.threads) (p : Pc) :
    count Pc.busy (Function.update f i p) + (f i).busy.toNat = count Pc.busy f + p.busy.toNat :=
  count_update _ f i p

theorem busy_pos {i : Fin c.threads} (h : (f i).busy = true) : 0 < count Pc.busy f :=
  count_pos_iff.mpr ⟨i, h⟩

theorem ne_of_update {p q : Pc} {Q : Prop} (h : ∀ k, f k = q → Q) (i : Fin c.threads)
    (hp : p = q → Q) (k : Fin c.threads) (hk : Function.update f i p k = q) : Q := by
  by_cases hki : k = i
  · rw [hki, Function.update_self] at hk
    exact hp hk
  · rw [Function.update_of_ne hki] at hk
    exact h k hk

/-- How the end of the walk is known. -/
structure Endgame (s : State c) : Prop where
  active : s.active = count Pc.busy s.pc
  complete : s.done = true → s.queue = [] ∧ s.active = 0
  left : s.done = false → s.queue ≠ [] ∨ s.active ≠ 0
  parked : ∀ i, s.pc i = .parked → s.done = false
  exited : ∀ i, s.pc i = .exited → s.done = true
  served : s.queue ≠ [] → ∃ i, (s.pc i).Awake

theorem Endgame.start (c : Config) : Endgame (State.start c) where
  active := by simp [State.start, count, total, Pc.busy]
  complete := nofun
  left := fun _ => Or.inl (List.cons_ne_nil _ _)
  parked := nofun
  exited := nofun
  served := fun _ => ⟨⟨0, c.threads_pos⟩, nofun, nofun⟩

theorem Pc.ne_of_busy {p q : Pc} (hp : p.busy = true) (hq : q.busy = false) : p ≠ q := by
  rintro rfl
  rw [hp] at hq
  cases hq

/-- A busy thread that goes on working changes nothing for the others. -/
theorem Endgame.work (hs : Endgame s) {i : Fin c.threads} {p : Pc} (hold : (s.pc i).busy = true)
    (hnew : p.busy = true) (hqueue : u.queue = s.queue) (hactive : u.active = s.active)
    (hdone : u.done = s.done) (hpc : u.pc = Function.update s.pc i p) : Endgame u := by
  constructor
  · have hcount := busy_update s.pc i p
    rw [hold, hnew] at hcount
    rw [hpc, hactive, hs.active]
    omega
  · rw [hqueue, hactive, hdone]
    exact hs.complete
  · rw [hqueue, hactive, hdone]
    exact hs.left
  · rw [hpc, hdone]
    exact ne_of_update hs.parked i fun h => absurd h (Pc.ne_of_busy hnew rfl)
  · rw [hpc, hdone]
    exact ne_of_update hs.exited i fun h => absurd h (Pc.ne_of_busy hnew rfl)
  · intro _
    refine ⟨i, ?_⟩
    rw [hpc, Function.update_self]
    exact ⟨Pc.ne_of_busy hnew rfl, Pc.ne_of_busy hnew rfl⟩

theorem Step.endgame {b : Bool} (h : Step s b u) (hs : Endgame s) : Endgame u := by
  cases h with
  | pop i idle n rest first =>
    have hnot : s.done = false := by
      by_contra hdone
      have hover := (hs.complete (by simpa using hdone)).1
      rw [first] at hover
      cases hover
    constructor
    · have hcount := busy_update s.pc i (.opening n)
      rw [idle.busy_eq] at hcount
      simp only [Pc.busy, Bool.toNat_false, Bool.toNat_true, Nat.add_zero] at hcount
      rw [hcount, hs.active]
    · intro hdone
      exact absurd (hnot.symm.trans hdone) nofun
    · exact fun _ => Or.inr (Nat.succ_ne_zero _)
    · exact ne_of_update hs.parked i nofun
    · exact ne_of_update hs.exited i nofun
    · exact fun _ => ⟨i, by simp [Pc.Awake]⟩
  | park i idle empty more =>
    constructor
    · have hcount := busy_update s.pc i .parked
      rw [idle.busy_eq] at hcount
      rw [hs.active]
      exact hcount.symm
    · exact hs.complete
    · exact hs.left
    · exact ne_of_update hs.parked i fun _ => more
    · exact ne_of_update hs.exited i nofun
    · exact fun hqueue => absurd empty hqueue
  | exit i idle empty complete =>
    constructor
    · have hcount := busy_update s.pc i .exited
      rw [idle.busy_eq] at hcount
      rw [hs.active]
      exact hcount.symm
    · exact hs.complete
    · exact hs.left
    · exact ne_of_update hs.parked i nofun
    · exact ne_of_update hs.exited i fun _ => complete
    · exact fun hqueue => absurd empty hqueue
  | openNode i n begins at_node =>
    exact hs.work (by rw [at_node]; rfl) (openNode_busy n begins) rfl rfl rfl rfl
  | readNode i n l descend at_node =>
    exact hs.work (by rw [at_node]; rfl) (readNode_round c s.issued n descend l).busy
      rfl rfl rfl rfl
  | push i n child rest at_node pc wake woke =>
    have hbusy : (s.pc i).busy = true := by rw [at_node]; rfl
    have hactive : s.active ≠ 0 := by
      have hpos := busy_pos hbusy
      rw [hs.active]
      omega
    have hself : pc i = .reading n rest := by
      obtain h | ⟨h, -⟩ := signal_apply woke i
      · rw [h, Function.update_self]
      · rw [Function.update_self] at h
        cases h
    constructor
    · have hcount := busy_update s.pc i (.reading n rest)
      have hsignal : count Pc.busy pc =
          count Pc.busy (Function.update s.pc i (.reading n rest)) := by
        apply total_signal _ woke
        rfl
      rw [hbusy] at hcount
      simp only [Pc.busy, Bool.toNat_true] at hcount
      dsimp only
      rw [hs.active, hsignal]
      omega
    · exact fun hdone => absurd (hs.complete hdone).2 hactive
    · exact fun _ => Or.inr hactive
    · intro k hk
      obtain h | ⟨-, h⟩ := signal_apply woke k
      · have hne : Pc.reading n rest = .parked → s.done = false := nofun
        exact ne_of_update hs.parked i hne k (h.symm.trans hk)
      · exact absurd (h.symm.trans hk) nofun
    · intro k hk
      obtain h | ⟨-, h⟩ := signal_apply woke k
      · have hne : Pc.reading n rest = .exited → s.done = true := nofun
        exact ne_of_update hs.exited i hne k (h.symm.trans hk)
      · exact absurd (h.symm.trans hk) nofun
    · exact fun _ => ⟨i, by simp [hself, Pc.Awake]⟩
  | finish i leaving more =>
    have hcount := busy_update s.pc i .top
    rw [leaving] at hcount
    simp only [Pc.busy, Bool.toNat_true, Bool.toNat_false, Nat.add_zero] at hcount
    constructor
    · dsimp only
      rw [hs.active]
      omega
    · intro hdone
      obtain ⟨hqueue, hzero⟩ := hs.complete hdone
      exact ⟨hqueue, by dsimp only; omega⟩
    · intro _
      by_cases hqueue : s.queue = []
      · exact Or.inr fun hzero => more ⟨hqueue, hzero⟩
      · exact Or.inl hqueue
    · exact ne_of_update hs.parked i nofun
    · exact ne_of_update hs.exited i nofun
    · exact fun _ => ⟨i, by simp [Pc.Awake]⟩
  | lastFinish i leaving empty last =>
    have hcount := busy_update s.pc i .top
    rw [leaving] at hcount
    simp only [Pc.busy, Bool.toNat_true, Bool.toNat_false, Nat.add_zero] at hcount
    have hbroadcast : count Pc.busy (broadcast .parked .woken (Function.update s.pc i .top)) =
        count Pc.busy (Function.update s.pc i .top) := by
      apply total_broadcast
      rfl
    constructor
    · dsimp only
      rw [hs.active, hbroadcast]
      omega
    · exact fun _ => ⟨empty, last⟩
    · exact fun hdone => absurd hdone nofun
    · exact fun k hk => absurd hk (broadcast_ne_parked (by decide) _ k)
    · exact fun _ _ => rfl
    · exact fun hqueue => absurd empty hqueue
  | spurious i parked =>
    constructor
    · have hcount := busy_update s.pc i .woken
      rw [parked] at hcount
      rw [hs.active]
      exact hcount.symm
    · exact hs.complete
    · exact hs.left
    · exact ne_of_update hs.parked i nofun
    · exact ne_of_update hs.exited i nofun
    · exact fun _ => ⟨i, by simp [Pc.Awake]⟩

/-- Somebody who can go on is always there. -/
theorem Endgame.not_stuck (hs : Endgame s) : ¬s.Stuck := by
  rintro ⟨⟨i, hi⟩, hall⟩
  have hparked : s.pc i = .parked := (hall i).resolve_left hi
  have hmore := hs.parked i hparked
  have hidle : s.active = 0 := by
    rw [hs.active]
    apply count_eq_zero_iff.mpr
    intro k
    rcases hall k with h | h <;> rw [h] <;> rfl
  obtain hqueue | hactive := hs.left hmore
  · obtain ⟨k, hk⟩ := hs.served hqueue
    rcases hall k with h | h
    · exact hk.2 h
    · exact hk.1 h
  · exact hactive hidle

/-- The walk is declared done only when nothing is queued and nobody works. -/
theorem Step.quiet_of_done {b : Bool} (h : Step s b u) (hs : Endgame s) (hdone : u.done = true) :
    u.queue = [] ∧ ∀ i, (u.pc i).busy = false := by
  have hu := h.endgame hs
  obtain ⟨hqueue, hzero⟩ := hu.complete hdone
  rw [hu.active] at hzero
  exact ⟨hqueue, fun i => count_eq_zero_iff.mp hzero i⟩

/-- Steps that a listing is good for: one for each entry, and for a directory the push, the
wake it may cause, and what its node takes. -/
def Listing.cost : Listing → ℕ
  | .eof _ => 1
  | .entry _ inside rest => inside.cost + rest.cost + 6

/-- From the queue: pop, open, the listing and the finish. -/
def Node.cost (n : Node) : ℕ := n.inside.cost + 3

def Pc.cost : Pc → ℕ
  | .top => 2
  | .parked => 1
  | .woken => 2
  | .opening n => n.cost + 1
  | .reading _ rest => rest.cost + 3
  | .descending _ child rest => child.cost + rest.cost + 5
  | .leaving => 3
  | .exited => 0

/-- An upper bound of the steps to come, spurious wakes apart. -/
def State.cost (s : State c) : ℕ :=
  (s.queue.map Node.cost).sum + total Pc.cost s.pc + if s.done then 0 else c.threads

theorem openNode_cost (n : Node) (begins : Bool) :
    (openNode n begins).1.cost + 1 ≤ (Pc.opening n).cost := by
  unfold openNode
  split_ifs <;> simp [Pc.cost, Node.cost]

theorem Round.cost_lt {issued : ℕ} {n : Node} {descend : Bool} {l : Listing}
    {r : Pc × List Event × ℕ} (h : Round c issued n descend l r) :
    r.1.cost + 1 ≤ (Pc.reading n l).cost := by
  cases h with
  | failed error fails => simp [Pc.cost, Listing.cost]
  | complete error fine => simp [Pc.cost, Listing.cost]
  | pass e inside rest silent errors only =>
    simp only [Pc.cost, Listing.cost]
    omega
  | deliver e inside rest withStat calls leaf errors only =>
    simp only [Pc.cost, Listing.cost]
    omega
  | descend e inside rest calls isDir wanted path fits =>
    simp only [Pc.cost, Listing.cost, Node.cost, Node.child]
    omega

theorem cost_update (f : Fin c.threads → Pc) (i : Fin c.threads) (p : Pc) :
    total Pc.cost (Function.update f i p) + (f i).cost = total Pc.cost f + p.cost :=
  total_update _ f i p

theorem cost_signal {f' : Fin c.threads → Pc} {wake : Option (Fin c.threads)}
    (h : signal .parked .woken f wake = some f') : total Pc.cost f' ≤ total Pc.cost f + 1 := by
  obtain ⟨j, -, hj, rfl⟩ | ⟨-, -, rfl⟩ := signal_cases h
  · have hcost := cost_update f j .woken
    rw [hj] at hcost
    simp only [Pc.cost] at hcost
    omega
  · exact Nat.le_succ _

theorem cost_broadcast (f : Fin c.threads → Pc) :
    total Pc.cost (broadcast .parked .woken f) ≤ total Pc.cost f + c.threads := by
  have hone : ∀ i, (broadcast .parked .woken f i).cost ≤ (f i).cost + 1 := by
    intro i
    obtain h | ⟨hp, h⟩ := broadcast_apply Pc.parked .woken f i
    · rw [h]
      exact Nat.le_succ _
    · rw [h, hp]
      decide
  unfold total
  calc ∑ i, (broadcast .parked .woken f i).cost ≤ ∑ i, ((f i).cost + 1) :=
        Finset.sum_le_sum fun i _ => hone i
    _ = ∑ i, (f i).cost + c.threads := by simp [Finset.sum_add_distrib]

/-- Every move but a spurious wake uses up some of the cost. -/
theorem Step.cost_lt {b : Bool} (h : Step s b u) (hs : Endgame s) :
    u.cost + 1 ≤ s.cost + 2 * b.toNat := by
  unfold State.cost
  cases h with
  | pop i idle n rest first =>
    have hcost := cost_update s.pc i (.opening n)
    have hidle : (s.pc i).cost = 2 := by rcases idle with h | h <;> rw [h] <;> rfl
    rw [hidle] at hcost
    simp only [Pc.cost] at hcost
    rw [first]
    simp only [List.map_cons, List.sum_cons, Bool.toNat_false]
    omega
  | park i idle empty more =>
    have hcost := cost_update s.pc i .parked
    have hidle : (s.pc i).cost = 2 := by rcases idle with h | h <;> rw [h] <;> rfl
    rw [hidle] at hcost
    simp only [Pc.cost] at hcost
    simp only [Bool.toNat_false]
    omega
  | exit i idle empty complete =>
    have hcost := cost_update s.pc i .exited
    have hidle : (s.pc i).cost = 2 := by rcases idle with h | h <;> rw [h] <;> rfl
    rw [hidle] at hcost
    simp only [Pc.cost] at hcost
    simp only [Bool.toNat_false]
    omega
  | openNode i n begins at_node =>
    have hcost := cost_update s.pc i (DirWalk.openNode n begins).1
    have hless := openNode_cost n begins
    rw [at_node] at hcost
    simp only [Bool.toNat_false]
    omega
  | readNode i n l descend at_node =>
    have hcost := cost_update s.pc i (DirWalk.readNode c false s.issued n descend l).1
    have hless := (readNode_round c s.issued n descend l).cost_lt
    rw [at_node] at hcost
    simp only [Bool.toNat_false]
    omega
  | push i n child rest at_node pc wake woke =>
    have hcost := cost_update s.pc i (.reading n rest)
    have hwake := cost_signal woke
    rw [at_node] at hcost
    simp only [Pc.cost] at hcost
    simp only [List.map_append, List.map_cons, List.map_nil, List.sum_append, List.sum_cons,
      List.sum_nil, Bool.toNat_false]
    omega
  | finish i leaving more =>
    have hcost := cost_update s.pc i .top
    rw [leaving] at hcost
    simp only [Pc.cost] at hcost
    simp only [Bool.toNat_false]
    omega
  | lastFinish i leaving empty last =>
    have hcost := cost_update s.pc i .top
    have hwakes := cost_broadcast (Function.update s.pc i .top)
    have hnot : s.done = false := by
      by_contra hdone
      have hzero := (hs.complete (by simpa using hdone)).2
      have hpos := busy_pos (show (s.pc i).busy = true by rw [leaving]; rfl)
      rw [hs.active] at hzero
      omega
    rw [leaving] at hcost
    simp only [Pc.cost] at hcost
    simp only [hnot, Bool.false_eq_true, if_true, if_false, Bool.toNat_false]
    omega
  | spurious i parked =>
    have hcost := cost_update s.pc i .woken
    rw [parked] at hcost
    simp only [Pc.cost] at hcost
    simp only [Bool.toNat_true]
    omega

/-- The number of steps of a walk is bounded by the tree, the threads and the spurious wakes. -/
theorem length_le_cost {as : List (Act c)} (hcalm : ∀ a ∈ as, a.Calm)
    (hr : exec step (State.start c) as = some s) :
    as.length + s.cost ≤ (State.start c).cost + 2 * as.countP Act.isSpurious := by
  have hgeneral : ∀ (as : List (Act c)) (t : State c), Endgame t → t.stop = false →
      (∀ a ∈ as, a.Calm) → exec step t as = some s →
      as.length + s.cost ≤ t.cost + 2 * as.countP Act.isSpurious := by
    intro as
    induction as with
    | nil =>
      intro t _ _ _ hr
      cases hr
      simp
    | cons a as ih =>
      intro t ht hstop hcalm hr
      obtain ⟨u, hu, hr⟩ := exec_cons_eq_some.mp hr
      obtain ⟨hmove, hstop'⟩ := step_step hu (hcalm a List.mem_cons_self) hstop
      have hrest := ih u (hmove.endgame ht) hstop' (fun b hb => hcalm b (List.mem_cons_of_mem a hb)) hr
      have hless := hmove.cost_lt ht
      rw [List.length_cons, List.countP_cons]
      cases ha : a.isSpurious with
      | false =>
        rw [ha] at hless
        simp only [Bool.toNat_false] at hless
        simp only [Bool.false_eq_true, if_false]
        omega
      | true =>
        rw [ha] at hless
        simp only [Bool.toNat_true] at hless
        simp only [if_true]
        omega
  exact hgeneral as _ (Endgame.start c) rfl hcalm hr

end Ecopy.DirWalk
