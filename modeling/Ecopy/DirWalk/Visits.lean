import Ecopy.DirWalk.WalkerSteps
import Mathlib.Data.List.Nodup

/-!
# Every directory is visited once

A node is announced by the `entry` callback that made it; the root is announced
from the start. From then on it is in exactly one place: in the queue, at a
thread, or closed by the last callback of its visit. The callbacks made for a
node are therefore those of one visit, as far as it has got, and when all
threads have left every announced node has had its whole visit.
-/
namespace Ecopy.DirWalk
open Lib.Runs Lib.Threads
open Server (pathJoinFast)
open Ecopy.Path (pathMax)

variable {c : Config}

def Event.node : Event → Option Node
  | .openFailed n => some n
  | .begun n _ => some n
  | .entry n _ _ _ _ => some n
  | .ended n _ => some n
  | .error _ => none

/-- The node that a callback leads to. -/
def Event.child : Event → Option Node
  | .entry _ _ _ _ child => child
  | _ => none

/-- No callback for this node follows. -/
def Event.closes (id : ℕ) : Event → Bool
  | .openFailed n => n.id = id
  | .begun n ok => n.id = id && !ok
  | .ended n _ => n.id = id
  | _ => false

/-- The nodes known after these callbacks. -/
def announced (c : Config) (log : List Event) : List Node :=
  c.rootNode :: log.filterMap Event.child

/-- The callbacks made for a node. -/
def history (log : List Event) (m : Node) : List Event := log.filter fun ev => ev.node = some m

/-- What follows from the answer of `entry`: a directory to descend into is queued if its path
is not too long, and nothing else is. -/
def Queued (c : Config) (n : Node) (e : Entry) (inside : Listing) (descend : Bool) :
    Option Node → Prop
  | none => descend = true → descends c e = true → pathJoinFast n.path e.name pathMax = none
  | some m => descend = true ∧ descends c e = true ∧
      ∃ id path, pathJoinFast n.path e.name pathMax = some path ∧ m = n.child id path e inside

/-- The calls of `entry` for a listing. -/
inductive Delivered (c : Config) (n : Node) : Listing → List Event → Prop
  | eof (error : Bool) : Delivered c n (.eof error) []
  | pass {e : Entry} {inside rest : Listing} {evs : List Event} (silent : delivers c e = none)
      (more : Delivered c n rest evs) : Delivered c n (.entry e inside rest) evs
  | call {e : Entry} {inside rest : Listing} {evs : List Event} {withStat : Bool}
      (calls : delivers c e = some withStat) (descend : Bool) (child : Option Node)
      (queued : Queued c n e inside descend child) (more : Delivered c n rest evs) :
      Delivered c n (.entry e inside rest) (.entry n e withStat descend child :: evs)

/-- The stream of the directory ends with an error that the reader notices. -/
def Listing.fails (c : Config) : Listing → Bool
  | .eof error => readFails c error
  | .entry _ _ rest => rest.fails c

/-- The callbacks of one whole visit. -/
inductive Visit (c : Config) (n : Node) : List Event → Prop
  | refused (closed : n.opens = false) : Visit c n [.openFailed n]
  | skipped (opens : n.opens = true) : Visit c n [.begun n false]
  | unread (opens : n.opens = true) (blocked : n.streams = false) :
      Visit c n [.begun n true, .ended n false]
  | full (opens : n.opens = true) (streams : n.streams = true) (evs : List Event)
      (entries : Delivered c n n.inside evs) :
      Visit c n (.begun n true :: (evs ++ [.ended n (!n.inside.fails c)]))

theorem exists_delivered (c : Config) (n : Node) (l : Listing) : ∃ evs, Delivered c n l evs := by
  induction l with
  | eof error => exact ⟨[], .eof error⟩
  | entry e inside rest _ ih =>
    obtain ⟨evs, hevs⟩ := ih
    cases hcalls : delivers c e with
    | none => exact ⟨evs, .pass hcalls hevs⟩
    | some withStat => exact ⟨_, .call hcalls false none nofun hevs⟩

theorem exists_visit (c : Config) (n : Node) : ∃ evs, Visit c n evs := by
  cases hopens : n.opens with
  | false => exact ⟨_, .refused hopens⟩
  | true => exact ⟨_, .skipped hopens⟩

/-- A visit that has delivered `evs` and goes on with `rest`. -/
structure Reading (c : Config) (n : Node) (rest : Listing) (evs : List Event) : Prop where
  opens : n.opens = true
  streams : n.streams = true
  finish : ∀ tail, Delivered c n rest tail → Delivered c n n.inside (evs ++ tail)
  fails : n.inside.fails c = rest.fails c

variable {s : State c} {evs log : List Event} {n : Node}

theorem Reading.exists_visit {rest : Listing} (h : Reading c n rest evs) :
    ∃ tail, Visit c n ((.begun n true :: evs) ++ tail) := by
  obtain ⟨tail, htail⟩ := exists_delivered c n rest
  have hvisit := Visit.full h.opens h.streams _ (h.finish tail htail)
  refine ⟨tail ++ [.ended n (!n.inside.fails c)], ?_⟩
  simpa using hvisit

theorem history_append (log evs : List Event) (m : Node) :
    history (log ++ evs) m = history log m ++ history evs m :=
  List.filter_append ..

theorem announced_append (c : Config) (log evs : List Event) :
    announced c (log ++ evs) = announced c log ++ evs.filterMap Event.child := by
  simp [announced]

theorem history_eq_nil {m : Node} (hne : m ≠ n)
    (hevs : ∀ ev ∈ evs, ev.node = some n ∨ ev.node = none) : history evs m = [] := by
  apply List.filter_eq_nil_iff.mpr
  intro ev hev
  rcases hevs ev hev with h | h
  · rw [h, decide_eq_true_eq, Option.some.injEq]
    exact hne.symm
  · simp [h]

variable {errors : List Event} {path : Protocol.Bytes}

theorem history_errors (m : Node) (h : ∀ ev ∈ errors, ev = .error path) :
    history errors m = [] := by
  apply List.filter_eq_nil_iff.mpr
  intro ev hev
  rw [h ev hev]
  simp [Event.node]

theorem children_errors (h : ∀ ev ∈ errors, ev = .error path) :
    errors.filterMap Event.child = [] := by
  apply List.filterMap_eq_nil_iff.mpr
  intro ev hev
  rw [h ev hev]
  rfl

theorem closes_errors (id : ℕ) (h : ∀ ev ∈ errors, ev = .error path) :
    errors.countP (Event.closes id) = 0 := by
  apply List.countP_eq_zero.mpr
  intro ev hev
  rw [h ev hev]
  simp [Event.closes]

/-- The nodes a thread holds, its directory first. -/
def Pc.nodes : Pc → List Node
  | .opening n => [n]
  | .reading n _ => [n]
  | .descending n child _ => [n, child]
  | _ => []

theorem Pc.Idle.nodes_eq {p : Pc} (h : p.Idle) : p.nodes = [] := by
  rcases h with rfl | rfl <;> rfl

/-- How often the number occurs in a list of nodes. -/
def tally (id : ℕ) (l : List Node) : ℕ := l.countP fun n => n.id = id

@[simp] theorem tally_nil (id : ℕ) : tally id [] = 0 := rfl

@[simp] theorem tally_cons (id : ℕ) (n : Node) (l : List Node) :
    tally id (n :: l) = tally id l + if n.id = id then 1 else 0 := by
  simp [tally, List.countP_cons]

@[simp] theorem tally_append (id : ℕ) (l m : List Node) :
    tally id (l ++ m) = tally id l + tally id m :=
  List.countP_append

theorem tally_pos {l : List Node} (h : n ∈ l) : 0 < tally n.id l :=
  List.countP_pos_iff.mpr ⟨n, h, by simp⟩

/-- How often it occurs at the threads. -/
def held (id : ℕ) (f : Fin c.threads → Pc) : ℕ := total (fun p => tally id p.nodes) f

def State.places (s : State c) (id : ℕ) : ℕ :=
  tally id s.queue + held id s.pc + s.log.countP (Event.closes id)

theorem held_update (f : Fin c.threads → Pc) (i : Fin c.threads) (p : Pc) (id : ℕ) :
    held id (Function.update f i p) + tally id (f i).nodes = held id f + tally id p.nodes :=
  total_update _ f i p

theorem held_signal {f f' : Fin c.threads → Pc} {wake : Option (Fin c.threads)}
    (h : signal .parked .woken f wake = some f') (id : ℕ) : held id f' = held id f := by
  apply total_signal _ h
  rfl

theorem held_broadcast (f : Fin c.threads → Pc) (id : ℕ) :
    held id (broadcast .parked .woken f) = held id f := by
  apply total_broadcast
  rfl

theorem openNode_places (n : Node) (begins : Bool) (id : ℕ) :
    tally id (openNode n begins).1.nodes + (openNode n begins).2.countP (Event.closes id) =
      tally id [n] := by
  unfold openNode
  split_ifs <;> simp [Pc.nodes, Event.closes, List.countP_cons]

theorem Round.places {issued : ℕ} {descend : Bool} {l : Listing} {r : Pc × List Event × ℕ}
    (h : Round c issued n descend l r) (id : ℕ) :
    tally id r.1.nodes + r.2.1.countP (Event.closes id) =
      tally id [n] + if issued ≤ id ∧ id < issued + r.2.2 then 1 else 0 := by
  cases h with
  | failed error fails => simp [Pc.nodes, Event.closes, List.countP_cons]
  | complete error fine => simp [Pc.nodes, Event.closes, List.countP_cons]
  | pass e inside rest silent errors only => simp [Pc.nodes, closes_errors id only]
  | deliver e inside rest withStat calls leaf errors only =>
    simp [Pc.nodes, closes_errors id only, Event.closes]
  | descend e inside rest calls isDir wanted path fits =>
    have hone : (issued ≤ id ∧ id < issued + 1) ↔ issued = id := by omega
    dsimp only
    rw [if_congr hone rfl rfl]
    simp [Pc.nodes, Event.closes, Node.child, Nat.add_comm]

/-- Every number that was given out is in one place. -/
def Unique (s : State c) : Prop := ∀ id, s.places id = if id < s.issued then 1 else 0

theorem Unique.start (c : Config) : Unique (State.start c) := by
  intro id
  have hzero : held id (State.start c).pc = 0 :=
    total_eq_zero_iff.mpr fun i => rfl
  have hroot : (c.rootNode.id = id) = (id < 1) := by
    apply propext
    change 0 = id ↔ id < 1
    omega
  unfold State.places
  rw [hzero]
  simp [State.start, hroot]

theorem Step.unique {u : State c} {b : Bool} (h : Step s b u) (hs : Unique s) : Unique u := by
  intro id
  have hid := hs id
  unfold State.places at hid ⊢
  cases h with
  | pop i idle n rest first =>
    have hmove := held_update s.pc i (.opening n) id
    rw [idle.nodes_eq] at hmove
    rw [first] at hid
    simp only [Pc.nodes, tally_nil, tally_cons] at hmove hid ⊢
    omega
  | park i idle empty more =>
    have hmove := held_update s.pc i .parked id
    rw [idle.nodes_eq] at hmove
    simp only [Pc.nodes, tally_nil] at hmove
    dsimp only
    omega
  | exit i idle empty complete =>
    have hmove := held_update s.pc i .exited id
    rw [idle.nodes_eq] at hmove
    simp only [Pc.nodes, tally_nil] at hmove
    dsimp only
    omega
  | openNode i n begins at_node =>
    have hmove := held_update s.pc i (DirWalk.openNode n begins).1 id
    have hsame := openNode_places n begins id
    have hnode : (s.pc i).nodes = [n] := by rw [at_node]; rfl
    rw [hnode] at hmove
    rw [List.countP_append]
    dsimp only
    omega
  | readNode i n l descend at_node =>
    have hmove := held_update s.pc i (DirWalk.readNode c false s.issued n descend l).1 id
    have hsame := (readNode_round c s.issued n descend l).places id
    have hnode : (s.pc i).nodes = [n] := by rw [at_node]; rfl
    rw [hnode] at hmove
    rw [List.countP_append]
    dsimp only
    split_ifs at hid hsame ⊢ <;> omega
  | push i n child rest at_node pc wake woke =>
    have hmove := held_update s.pc i (.reading n rest) id
    have hsignal := held_signal woke id
    rw [at_node] at hmove
    simp only [Pc.nodes, tally_nil, tally_cons, tally_append] at hmove ⊢
    omega
  | finish i leaving more =>
    have hmove := held_update s.pc i .top id
    rw [leaving] at hmove
    simp only [Pc.nodes, tally_nil] at hmove
    dsimp only
    omega
  | lastFinish i leaving empty last =>
    have hmove := held_update s.pc i .top id
    have hbroadcast := held_broadcast (Function.update s.pc i .top) id
    rw [leaving] at hmove
    simp only [Pc.nodes, tally_nil] at hmove
    dsimp only
    omega
  | spurious i parked =>
    have hmove := held_update s.pc i .woken id
    rw [parked] at hmove
    simp only [Pc.nodes, tally_nil] at hmove
    dsimp only
    omega

theorem held_ge (f : Fin c.threads → Pc) (i : Fin c.threads) (id : ℕ) :
    tally id (f i).nodes ≤ held id f := by
  have hmove := held_update f i .exited id
  have hnone : tally id Pc.exited.nodes = 0 := rfl
  omega

theorem held_ge_two (f : Fin c.threads → Pc) {i j : Fin c.threads} (hij : j ≠ i) (id : ℕ) :
    tally id (f i).nodes + tally id (f j).nodes ≤ held id f := by
  have hmove := held_update f i .exited id
  have hrest := held_ge (Function.update f i .exited) j id
  rw [Function.update_of_ne hij] at hrest
  have hnone : tally id Pc.exited.nodes = 0 := rfl
  omega

/-- A node at one thread is neither in the queue nor at another thread. -/
theorem Unique.alone (hs : Unique s) {i : Fin c.threads} {n : Node} (hn : n ∈ (s.pc i).nodes) :
    n ∉ s.queue ∧ ∀ j, j ≠ i → n ∉ (s.pc j).nodes := by
  have hone : s.places n.id ≤ 1 := by
    rw [hs n.id]
    split_ifs <;> omega
  have hi := tally_pos hn
  unfold State.places at hone
  constructor
  · intro hqueue
    have hq := tally_pos hqueue
    have hle := held_ge s.pc i n.id
    omega
  · intro j hij hj
    have hpos := tally_pos hj
    have hle := held_ge_two s.pc hij n.id
    omega

/-- Every callback is about a node that was announced before it. -/
def Ordered (c : Config) (log : List Event) : Prop :=
  ∀ k ev m, log[k]? = some ev → ev.node = some m → m ∈ announced c (log.take k)

theorem announced_mono {c : Config} {m : Node} (h : m ∈ announced c log) (evs : List Event) :
    m ∈ announced c (log ++ evs) := by
  rw [announced_append]
  exact List.mem_append_left _ h

theorem Ordered.append (h : Ordered c log)
    (hevs : ∀ ev ∈ evs, ∀ m, ev.node = some m → m ∈ announced c log) : Ordered c (log ++ evs) := by
  intro k ev m hk hm
  by_cases hlt : k < log.length
  · rw [List.getElem?_append_left hlt] at hk
    rw [List.take_append_of_le_length hlt.le]
    exact h k ev m hk hm
  · rw [List.getElem?_append_right (by omega)] at hk
    have hknown := hevs ev (List.mem_of_getElem? hk) m hm
    rw [List.take_append, List.take_of_length_le (by omega)]
    exact announced_mono hknown _

theorem Ordered.mem_announced (h : Ordered c log) {ev : Event} {m : Node} (hev : ev ∈ log)
    (hm : ev.node = some m) : m ∈ announced c log := by
  obtain ⟨k, hk⟩ := List.mem_iff_getElem?.mp hev
  have hknown := h k ev m hk hm
  have hmono := announced_mono hknown (log.drop k)
  rwa [List.take_append_drop] at hmono

/-- How far the callbacks are for the nodes at a thread. -/
def AtWork (c : Config) (log : List Event) : Pc → Prop
  | .opening n => n ∈ announced c log ∧ history log n = []
  | .reading n rest => n ∈ announced c log ∧
      ∃ evs, history log n = .begun n true :: evs ∧ Reading c n rest evs
  | .descending n child rest => n ∈ announced c log ∧
      (∃ evs, history log n = .begun n true :: evs ∧ Reading c n rest evs) ∧
      child ∈ announced c log ∧ history log child = []
  | _ => True

/-- Callbacks for one node leave what is known about the others. -/
theorem AtWork.append {p : Pc} (h : AtWork c log p) (hne : n ∉ p.nodes)
    (hevs : ∀ ev ∈ evs, ev.node = some n ∨ ev.node = none) : AtWork c (log ++ evs) p := by
  have hsame : ∀ m ∈ p.nodes, history (log ++ evs) m = history log m := by
    intro m hm
    have hmn : m ≠ n := by
      rintro rfl
      exact hne hm
    rw [history_append, history_eq_nil hmn hevs, List.append_nil]
  cases p with
  | opening m =>
    have hm := hsame m List.mem_cons_self
    exact ⟨announced_mono h.1 evs, hm.trans h.2⟩
  | reading m rest =>
    have hm := hsame m List.mem_cons_self
    obtain ⟨hknown, done, hhist, hreading⟩ := h
    exact ⟨announced_mono hknown evs, done, hm.trans hhist, hreading⟩
  | descending m child rest =>
    have hm := hsame m List.mem_cons_self
    have hc := hsame child (List.mem_cons_of_mem m List.mem_cons_self)
    obtain ⟨hknown, ⟨done, hhist, hreading⟩, hchild, hnew⟩ := h
    exact ⟨announced_mono hknown evs, ⟨done, hm.trans hhist, hreading⟩,
      announced_mono hchild evs, hc.trans hnew⟩
  | top => trivial
  | parked => trivial
  | woken => trivial
  | leaving => trivial
  | exited => trivial

structure Settled (s : State c) : Prop where
  ids : (announced c s.log).map Node.id = List.range s.issued
  queued : ∀ m ∈ s.queue, m ∈ announced c s.log ∧ history s.log m = []
  working : ∀ i, AtWork c s.log (s.pc i)
  somewhere : ∀ m ∈ announced c s.log,
    m ∈ s.queue ∨ (∃ i, m ∈ (s.pc i).nodes) ∨ Visit c m (history s.log m)
  ordered : Ordered c s.log

theorem Settled.start (c : Config) : Settled (State.start c) where
  ids := rfl
  queued := by
    intro m hm
    rw [List.mem_singleton.mp hm]
    exact ⟨List.mem_cons_self, rfl⟩
  working := fun i => trivial
  somewhere := fun m hm => Or.inl hm
  ordered := fun k ev m hk => by simp [State.start] at hk

/-- A thread without a node moves on. -/
theorem Settled.idle (hs : Settled s) {i : Fin c.threads} {p : Pc} (hold : (s.pc i).nodes = [])
    (hwork : AtWork c s.log p) (active : ℕ) (done : Bool) :
    Settled { s with active := active, done := done, pc := Function.update s.pc i p } := by
  refine ⟨hs.ids, hs.queued, fun j => ?_, fun m hm => ?_, hs.ordered⟩
  · dsimp only
    by_cases hj : j = i
    · rw [hj, Function.update_self]
      exact hwork
    · rw [Function.update_of_ne hj]
      exact hs.working j
  · obtain h | ⟨j, hj⟩ | h := hs.somewhere m hm
    · exact Or.inl h
    · have hji : j ≠ i := by
        rintro rfl
        rw [hold] at hj
        cases hj
      refine Or.inr (Or.inl ⟨j, ?_⟩)
      dsimp only
      rwa [Function.update_of_ne hji]
    · exact Or.inr (Or.inr h)

theorem AtWork.wake {p q : Pc} (h : AtWork c log p) (hq : q = p ∨ p = .parked ∧ q = .woken) :
    AtWork c log q := by
  rcases hq with rfl | ⟨-, rfl⟩
  · exact h
  · trivial

/-- Wakes change nothing about the nodes. -/
theorem Settled.wakes (hs : Settled s) {pc : Fin c.threads → Pc}
    (hpc : ∀ i, pc i = s.pc i ∨ s.pc i = .parked ∧ pc i = .woken) :
    Settled { s with pc := pc } := by
  refine ⟨hs.ids, hs.queued, fun i => (hs.working i).wake (hpc i), fun m hm => ?_, hs.ordered⟩
  obtain h | ⟨i, hi⟩ | h := hs.somewhere m hm
  · exact Or.inl h
  · refine Or.inr (Or.inl ⟨i, ?_⟩)
    dsimp only
    obtain h | ⟨h, -⟩ := hpc i
    · rwa [h]
    · rw [h] at hi
      cases hi
  · exact Or.inr (Or.inr h)

/-- A thread makes callbacks for its node. -/
theorem Settled.work (hs : Settled s) (hunique : Unique s) {i : Fin c.threads} {n : Node}
    (hnode : (s.pc i).nodes = [n]) (hknown : n ∈ announced c s.log) {p : Pc} {evs : List Event}
    {k : ℕ} (hevs : ∀ ev ∈ evs, ev.node = some n ∨ ev.node = none)
    (hids : (evs.filterMap Event.child).map Node.id = (List.range k).map (s.issued + ·))
    (hchild : ∀ m ∈ evs.filterMap Event.child, m ∈ p.nodes) (hwork : AtWork c (s.log ++ evs) p)
    (hplace : n ∈ p.nodes ∨ Visit c n (history (s.log ++ evs) n)) :
    Settled { s with
      issued := s.issued + k, pc := Function.update s.pc i p, log := s.log ++ evs } := by
  obtain ⟨hqueue, hothers⟩ := hunique.alone (i := i) (n := n) (by rw [hnode]; exact List.mem_cons_self)
  have hsame : ∀ m, m ≠ n → history (s.log ++ evs) m = history s.log m := by
    intro m hm
    rw [history_append, history_eq_nil hm hevs, List.append_nil]
  constructor
  · dsimp only
    rw [announced_append, List.map_append, hs.ids, hids, List.range_add]
  · intro m hm
    obtain ⟨hmem, hhist⟩ := hs.queued m hm
    have hmn : m ≠ n := by
      rintro rfl
      exact hqueue hm
    exact ⟨announced_mono hmem evs, (hsame m hmn).trans hhist⟩
  · intro j
    dsimp only
    by_cases hj : j = i
    · rw [hj, Function.update_self]
      exact hwork
    · rw [Function.update_of_ne hj]
      exact (hs.working j).append (hothers j hj) hevs
  · intro m hm
    dsimp only at hm ⊢
    rw [announced_append, List.mem_append] at hm
    rcases hm with hm | hm
    · by_cases hmn : m = n
      · subst hmn
        rcases hplace with h | h
        · refine Or.inr (Or.inl ⟨i, ?_⟩)
          rwa [Function.update_self]
        · exact Or.inr (Or.inr h)
      · rw [hsame m hmn]
        obtain h | ⟨j, hj⟩ | h := hs.somewhere m hm
        · exact Or.inl h
        · have hji : j ≠ i := by
            rintro rfl
            rw [hnode, List.mem_singleton] at hj
            exact hmn hj
          refine Or.inr (Or.inl ⟨j, ?_⟩)
          rwa [Function.update_of_ne hji]
        · exact Or.inr (Or.inr h)
    · refine Or.inr (Or.inl ⟨i, ?_⟩)
      rw [Function.update_self]
      exact hchild m hm
  · apply hs.ordered.append
    intro ev hev m hm
    rcases hevs ev hev with h | h
    · rw [h, Option.some.injEq] at hm
      rw [← hm]
      exact hknown
    · rw [h] at hm
      cases hm

theorem openNode_settles (begins : Bool) (hknown : n ∈ announced c log)
    (hnew : history log n = []) :
    AtWork c (log ++ (openNode n begins).2) (openNode n begins).1 ∧
      (n ∈ (openNode n begins).1.nodes ∨
        Visit c n (history (log ++ (openNode n begins).2) n)) ∧
      (∀ ev ∈ (openNode n begins).2, ev.node = some n ∨ ev.node = none) ∧
      (openNode n begins).2.filterMap Event.child = [] := by
  rw [history_append, hnew, List.nil_append]
  unfold openNode
  split_ifs with hopens hbegins hstreams
  · have hclosed : n.opens = false := by simpa using hopens
    refine ⟨trivial, Or.inr ?_, by simp [Event.node], rfl⟩
    simpa [history, Event.node] using Visit.refused (c := c) hclosed
  · have hopen : n.opens = true := by simpa using hopens
    refine ⟨trivial, Or.inr ?_, by simp [Event.node], rfl⟩
    simpa [history, Event.node] using Visit.skipped (c := c) hopen
  · have hopen : n.opens = true := by simpa using hopens
    have hblocked : n.streams = false := by simpa using hstreams
    refine ⟨trivial, Or.inr ?_, by simp [Event.node], rfl⟩
    simpa [history, Event.node] using Visit.unread (c := c) hopen hblocked
  · have hopen : n.opens = true := by simpa using hopens
    have hstream : n.streams = true := by simpa using hstreams
    refine ⟨⟨announced_mono hknown _, [], ?_, hopen, hstream, fun tail h => h, rfl⟩,
      Or.inl List.mem_cons_self, by simp [Event.node], rfl⟩
    rw [history_append, hnew]
    simp [history, Event.node]

/-- One more call of `entry`. -/
theorem Reading.call {e : Entry} {inside rest : Listing} {done : List Event}
    (h : Reading c n (.entry e inside rest) done) {withStat : Bool}
    (calls : delivers c e = some withStat) (descend : Bool) (child : Option Node)
    (queued : Queued c n e inside descend child) :
    Reading c n rest (done ++ [.entry n e withStat descend child]) := by
  refine ⟨h.opens, h.streams, fun tail htail => ?_, h.fails⟩
  rw [List.append_assoc]
  exact h.finish _ (.call calls descend child queued htail)

/-- The end of the stream completes the visit. -/
theorem Reading.eof {error : Bool} {done : List Event} (h : Reading c n (.eof error) done) :
    Visit c n (.begun n true :: (done ++ [.ended n (!readFails c error)])) := by
  have hall := h.finish [] (.eof error)
  rw [List.append_nil] at hall
  have hvisit := Visit.full h.opens h.streams done hall
  rwa [h.fails] at hvisit

theorem Round.settles {issued : ℕ} {descend : Bool} {l : Listing} {r : Pc × List Event × ℕ}
    (h : Round c issued n descend l r) (hknown : n ∈ announced c log)
    (hfresh : ∀ m : Node, m.id = issued → history log m = [] ∧ m ≠ n) {done : List Event}
    (hhist : history log n = .begun n true :: done) (hreading : Reading c n l done) :
    AtWork c (log ++ r.2.1) r.1 ∧
      (n ∈ r.1.nodes ∨ Visit c n (history (log ++ r.2.1) n)) ∧
      (∀ ev ∈ r.2.1, ev.node = some n ∨ ev.node = none) ∧
      (r.2.1.filterMap Event.child).map Node.id = (List.range r.2.2).map (issued + ·) ∧
      ∀ m ∈ r.2.1.filterMap Event.child, m ∈ r.1.nodes := by
  cases h with
  | failed error fails =>
    refine ⟨trivial, Or.inr ?_, by simp [Event.node], rfl, by simp [Event.child]⟩
    have hvisit := hreading.eof
    rw [fails] at hvisit
    rw [history_append, hhist]
    simpa [history, Event.node] using hvisit
  | complete error fine =>
    refine ⟨trivial, Or.inr ?_, by simp [Event.node], rfl, by simp [Event.child]⟩
    have hvisit := hreading.eof
    rw [fine] at hvisit
    rw [history_append, hhist]
    simpa [history, Event.node] using hvisit
  | pass e inside rest silent errors only =>
    have hnone : errors.filterMap Event.child = [] := children_errors only
    refine ⟨⟨announced_mono hknown _, done, ?_, ?_⟩, Or.inl List.mem_cons_self, ?_, ?_, ?_⟩
    · rw [history_append, history_errors n only, List.append_nil, hhist]
    · exact ⟨hreading.opens, hreading.streams,
        fun tail htail => hreading.finish tail (.pass silent htail), hreading.fails⟩
    · intro ev hev
      rw [only ev hev]
      exact Or.inr rfl
    · rw [hnone]
      rfl
    · rw [hnone]
      exact nofun
  | deliver e inside rest withStat calls leaf errors only =>
    have hnone : (Event.entry n e withStat descend none :: errors).filterMap Event.child = [] := by
      rw [List.filterMap_cons_none rfl]
      exact children_errors only
    refine ⟨⟨announced_mono hknown _, done ++ [.entry n e withStat descend none], ?_, ?_⟩,
      Or.inl List.mem_cons_self, ?_, ?_, ?_⟩
    · have herrors : history (.entry n e withStat descend none :: errors) n =
          [.entry n e withStat descend none] := by
        rw [← List.singleton_append, history_append, history_errors n only]
        simp [history, Event.node]
      rw [history_append, herrors, hhist, List.cons_append]
    · exact hreading.call calls descend none leaf
    · intro ev hev
      rw [List.mem_cons] at hev
      rcases hev with rfl | hev
      · exact Or.inl rfl
      · rw [only ev hev]
        exact Or.inr rfl
    · rw [hnone]
      rfl
    · rw [hnone]
      exact nofun
  | descend e inside rest calls isDir wanted path fits =>
    obtain ⟨hnew, hne⟩ := hfresh (n.child issued path e inside) rfl
    have hqueued : Queued c n e inside true (some (n.child issued path e inside)) :=
      ⟨rfl, isDir, issued, path, fits, rfl⟩
    have hcall := hreading.call calls true _ hqueued
    refine ⟨⟨announced_mono hknown _, ⟨_, ?_, hcall⟩, ?_, ?_⟩, Or.inl List.mem_cons_self,
      by simp [Event.node], by simp [Event.child, Node.child], by simp [Event.child, Pc.nodes]⟩
    · rw [history_append, hhist]
      simp [history, Event.node]
    · rw [announced_append]
      exact List.mem_append_right _ (by simp [Event.child])
    · rw [history_append, hnew]
      simp [history, Event.node, hne.symm]

theorem Settled.id_lt (hs : Settled s) {m : Node} (hm : m ∈ announced c s.log) :
    m.id < s.issued := by
  have hid := List.mem_map_of_mem (f := Node.id) hm
  rw [hs.ids] at hid
  exact List.mem_range.mp hid

/-- The next number has no callbacks yet. -/
theorem Settled.fresh (hs : Settled s) {m : Node} (hm : m.id = s.issued) :
    history s.log m = [] ∧ ∀ n ∈ announced c s.log, m ≠ n := by
  have hnot : m ∉ announced c s.log := by
    intro hknown
    have hlt := hs.id_lt hknown
    omega
  constructor
  · apply List.filter_eq_nil_iff.mpr
    intro ev hev hnode
    exact hnot (hs.ordered.mem_announced hev (by simpa using hnode))
  · rintro n hn rfl
    exact hnot hn

theorem Step.settled {u : State c} {b : Bool} (h : Step s b u) (hunique : Unique s)
    (hs : Settled s) : Settled u := by
  cases h with
  | pop i idle n rest first =>
    have hn := hs.queued n (by rw [first]; exact List.mem_cons_self)
    refine ⟨hs.ids, fun m hm => hs.queued m (by rw [first]; exact List.mem_cons_of_mem n hm),
      fun j => ?_, fun m hm => ?_, hs.ordered⟩
    · dsimp only
      by_cases hj : j = i
      · rw [hj, Function.update_self]
        exact hn
      · rw [Function.update_of_ne hj]
        exact hs.working j
    · obtain h | ⟨j, hj⟩ | h := hs.somewhere m hm
      · rw [first, List.mem_cons] at h
        rcases h with rfl | h
        · refine Or.inr (Or.inl ⟨i, ?_⟩)
          dsimp only
          rw [Function.update_self]
          exact List.mem_cons_self
        · exact Or.inl h
      · have hji : j ≠ i := by
          rintro rfl
          rw [idle.nodes_eq] at hj
          cases hj
        refine Or.inr (Or.inl ⟨j, ?_⟩)
        dsimp only
        rwa [Function.update_of_ne hji]
      · exact Or.inr (Or.inr h)
  | park i idle empty more => exact hs.idle (p := .parked) idle.nodes_eq trivial s.active s.done
  | exit i idle empty complete => exact hs.idle (p := .exited) idle.nodes_eq trivial s.active s.done
  | openNode i n begins at_node =>
    have hnode : (s.pc i).nodes = [n] := by rw [at_node]; rfl
    have hwork := hs.working i
    rw [at_node] at hwork
    obtain ⟨hknown, hnew⟩ := hwork
    obtain ⟨hnext, hplace, hevs, hnone⟩ := openNode_settles begins hknown hnew
    refine hs.work hunique (k := 0) hnode hknown hevs ?_ ?_ hnext hplace
    · rw [hnone]
      rfl
    · rw [hnone]
      exact nofun
  | readNode i n l descend at_node =>
    have hnode : (s.pc i).nodes = [n] := by rw [at_node]; rfl
    have hwork := hs.working i
    rw [at_node] at hwork
    obtain ⟨hknown, done, hhist, hreading⟩ := hwork
    have hfresh : ∀ m : Node, m.id = s.issued → history s.log m = [] ∧ m ≠ n := by
      intro m hm
      obtain ⟨hnew, hne⟩ := hs.fresh hm
      exact ⟨hnew, hne n hknown⟩
    obtain ⟨hnext, hplace, hevs, hids, hchild⟩ :=
      (readNode_round c s.issued n descend l).settles hknown hfresh hhist hreading
    exact hs.work hunique hnode hknown hevs hids hchild hnext hplace
  | push i n child rest at_node pc wake woke =>
    have hwork := hs.working i
    rw [at_node] at hwork
    obtain ⟨hknown, hreading, hchild, hnew⟩ := hwork
    have hmoved : Settled { s with
        queue := s.queue ++ [child], pc := Function.update s.pc i (.reading n rest) } := by
      refine ⟨hs.ids, fun m hm => ?_, fun j => ?_, fun m hm => ?_, hs.ordered⟩
      · dsimp only at hm
        rw [List.mem_append, List.mem_singleton] at hm
        rcases hm with hm | rfl
        · exact hs.queued m hm
        · exact ⟨hchild, hnew⟩
      · dsimp only
        by_cases hj : j = i
        · rw [hj, Function.update_self]
          exact ⟨hknown, hreading⟩
        · rw [Function.update_of_ne hj]
          exact hs.working j
      · obtain h | ⟨j, hj⟩ | h := hs.somewhere m hm
        · exact Or.inl (List.mem_append_left _ h)
        · by_cases hji : j = i
          · rw [hji, at_node] at hj
            rw [Pc.nodes, List.mem_cons, List.mem_singleton] at hj
            rcases hj with rfl | rfl
            · refine Or.inr (Or.inl ⟨i, ?_⟩)
              dsimp only
              rw [Function.update_self]
              exact List.mem_cons_self
            · exact Or.inl (List.mem_append_right _ List.mem_cons_self)
          · refine Or.inr (Or.inl ⟨j, ?_⟩)
            dsimp only
            rwa [Function.update_of_ne hji]
        · exact Or.inr (Or.inr h)
    exact hmoved.wakes fun k => signal_apply woke k
  | finish i leaving more =>
    exact hs.idle (p := .top) (by rw [leaving]; rfl) trivial _ s.done
  | lastFinish i leaving empty last =>
    have hmoved := hs.idle (i := i) (p := .top) (by rw [leaving]; rfl) trivial
      (s.active - 1) true
    exact hmoved.wakes fun k => broadcast_apply Pc.parked .woken _ k
  | spurious i parked =>
    exact hs.idle (p := .woken) (by rw [parked]; rfl) trivial s.active s.done

/-- All that is known about a calm run of the walker. -/
structure Walk (s : State c) : Prop where
  endgame : Endgame s
  unique : Unique s
  settled : Settled s

theorem walk_of_exec {as : List (Act c)} (hcalm : ∀ a ∈ as, a.Calm)
    (hr : exec step (State.start c) as = some s) : Walk s ∧ s.stop = false := by
  refine calm_invariant (I := Walk) ⟨.start c, .start c, .start c⟩ ?_ hcalm hr
  intro s b u hstep hs
  exact ⟨hstep.endgame hs.endgame, hstep.unique hs.unique, hstep.settled hs.unique hs.settled⟩

/-- At any time the callbacks of a node are those of one visit, as far as it has got. -/
theorem Walk.visit_prefix (hs : Walk s) {m : Node} (hm : m ∈ announced c s.log) :
    ∃ tail, Visit c m (history s.log m ++ tail) := by
  obtain h | ⟨i, hi⟩ | h := hs.settled.somewhere m hm
  · rw [(hs.settled.queued m h).2]
    exact exists_visit c m
  · have hwork := hs.settled.working i
    cases hpc : s.pc i with
    | opening n =>
      rw [hpc] at hi hwork
      rw [Pc.nodes, List.mem_singleton] at hi
      rw [hi, hwork.2]
      exact exists_visit c n
    | reading n rest =>
      rw [hpc] at hi hwork
      rw [Pc.nodes, List.mem_singleton] at hi
      obtain ⟨-, done, hhist, hreading⟩ := hwork
      rw [hi, hhist]
      exact hreading.exists_visit
    | descending n child rest =>
      rw [hpc] at hi hwork
      rw [Pc.nodes, List.mem_cons, List.mem_singleton] at hi
      obtain ⟨-, ⟨done, hhist, hreading⟩, -, hnew⟩ := hwork
      rcases hi with rfl | rfl
      · rw [hhist]
        exact hreading.exists_visit
      · rw [hnew]
        exact exists_visit c m
    | _ =>
      rw [hpc] at hi
      cases hi
  · exact ⟨[], by rwa [List.append_nil]⟩

/-- When all threads have left every announced node has had its visit. -/
theorem Walk.visit_of_over (hs : Walk s) (hover : s.Over) {m : Node} (hm : m ∈ announced c s.log) :
    Visit c m (history s.log m) := by
  obtain h | ⟨i, hi⟩ | h := hs.settled.somewhere m hm
  · have hdone := hs.endgame.exited ⟨0, c.threads_pos⟩ (hover _)
    rw [(hs.endgame.complete hdone).1] at h
    cases h
  · rw [hover i] at hi
    cases hi
  · exact h

theorem Delivered.queued {l : Listing} (h : Delivered c n l evs) {m : Node} {e : Entry}
    {withStat descend : Bool} {child : Option Node}
    (hev : Event.entry m e withStat descend child ∈ evs) :
    ∃ inside, Queued c m e inside descend child := by
  induction h with
  | eof error => cases hev
  | pass silent more ih => exact ih hev
  | call calls d k queued more ih =>
    rw [List.mem_cons] at hev
    rcases hev with heq | hev
    · cases heq
      exact ⟨_, queued⟩
    · exact ih hev

/-- A directory that is to be descended into is queued, unless its path is too long, and nothing
else is. -/
theorem Walk.queued (hs : Walk s) {n : Node} {e : Entry} {withStat descend : Bool}
    {child : Option Node} (hev : Event.entry n e withStat descend child ∈ s.log) :
    ∃ inside, Queued c n e inside descend child := by
  have hknown := hs.settled.ordered.mem_announced hev rfl
  obtain ⟨tail, hvisit⟩ := hs.visit_prefix hknown
  have hmem : Event.entry n e withStat descend child ∈ history s.log n ++ tail := by
    apply List.mem_append_left
    exact List.mem_filter.mpr ⟨hev, by simp [Event.node]⟩
  generalize history s.log n ++ tail = evs at hvisit hmem
  cases hvisit with
  | refused closed => simp at hmem
  | skipped opens => simp at hmem
  | unread opens blocked => simp at hmem
  | full opens streams evs entries =>
    simp only [List.mem_cons, reduceCtorEq, List.mem_append, List.not_mem_nil, or_false,
      false_or] at hmem
    exact entries.queued hmem

/-- The state of a walk in which every directory is visited once. -/
structure VisitsOnce (s : State c) : Prop where
  distinct : ((announced c s.log).map Node.id).Nodup
  so_far : ∀ m ∈ announced c s.log, ∃ tail, Visit c m (history s.log m ++ tail)
  all : s.Over → ∀ m ∈ announced c s.log, Visit c m (history s.log m)
  after_entry : Ordered c s.log
  queued : ∀ n e withStat descend child, Event.entry n e withStat descend child ∈ s.log →
    ∃ inside, Queued c n e inside descend child
  quiet : ∀ a u, a.Calm → step s a = some u → s.done = false → u.done = true →
    u.queue = [] ∧ ∀ i, (u.pc i).busy = false
  not_stuck : ¬s.Stuck

/-- In every calm run every directory is visited once, after the callback that announced it, the
walk is declared done when nothing is left to do, no wake is lost, and the walk ends. -/
theorem walk_visits_once (c : Config) (as : List (Act c)) (s : State c)
    (hr : exec step (State.start c) as = some s) (hcalm : ∀ a ∈ as, a.Calm) :
    VisitsOnce s ∧ as.length ≤ (State.start c).cost + 2 * as.countP Act.isSpurious := by
  obtain ⟨hs, hstop⟩ := walk_of_exec hcalm hr
  refine ⟨⟨?_, fun m hm => hs.visit_prefix hm, fun hover m hm => hs.visit_of_over hover hm,
    hs.settled.ordered, fun n e withStat descend child hev => hs.queued hev, ?_,
    hs.endgame.not_stuck⟩, ?_⟩
  · rw [hs.settled.ids]
    exact List.nodup_range
  · intro a u ha hu _ hdone
    exact (step_step hu ha hstop).1.quiet_of_done hs.endgame hdone
  · have hcost := length_le_cost hcalm hr
    omega

/-- A directory with one directory in it, and one thread. -/
def oneChild (root : Protocol.Bytes) : Config where
  threads := 1
  threads_pos := Nat.one_pos
  rawReads := true
  lazyStat := false
  root := root
  opens := true
  streams := true
  inside := .entry ⟨[98], .directory, .directory, true, true⟩ (.eof false) (.eof false)

def oneChildRun (root : Protocol.Bytes) : List (Act (oneChild root)) :=
  [.lock ⟨0, Nat.one_pos⟩, .openDir ⟨0, Nat.one_pos⟩ true, .readEntry ⟨0, Nat.one_pos⟩ true,
    .push ⟨0, Nat.one_pos⟩ true none, .readEntry ⟨0, Nat.one_pos⟩ true, .finish ⟨0, Nat.one_pos⟩,
    .lock ⟨0, Nat.one_pos⟩, .openDir ⟨0, Nat.one_pos⟩ true, .readEntry ⟨0, Nat.one_pos⟩ true,
    .finish ⟨0, Nat.one_pos⟩, .lock ⟨0, Nat.one_pos⟩]

theorem walk_visits_once_oneChild :
    ∃ s, exec step (State.start (oneChild [97])) (oneChildRun [97]) = some s ∧ s.Over ∧
      VisitsOnce s := by
  have hr : exec step (State.start (oneChild [97])) (oneChildRun [97]) =
      some ((exec step (State.start (oneChild [97])) (oneChildRun [97])).getD
        (State.start (oneChild [97]))) := rfl
  exact ⟨_, hr, by decide, (walk_visits_once _ _ _ hr (by decide)).1⟩

/-- The entry is announced to the caller, but its path does not fit. -/
def longPathRun (root : Protocol.Bytes) : List (Act (oneChild root)) :=
  [.lock ⟨0, Nat.one_pos⟩, .openDir ⟨0, Nat.one_pos⟩ true, .readEntry ⟨0, Nat.one_pos⟩ true,
    .readEntry ⟨0, Nat.one_pos⟩ true, .finish ⟨0, Nat.one_pos⟩, .lock ⟨0, Nat.one_pos⟩]

/-- A path of 2047 names, as long as a path to open can be less one byte. -/
def longPath : Protocol.Bytes := (List.replicate 2047 [47, 97]).flatten

theorem longPath_join : pathJoinFast longPath [98] pathMax = none := by
  have hlen : longPath.length = 4094 := by
    rw [longPath, List.length_flatten, List.map_replicate, List.sum_replicate]
    rfl
  have hroot : longPath ≠ [Path.slash] := by
    intro h
    rw [h] at hlen
    cases hlen
  unfold pathJoinFast
  rw [if_neg hroot]
  apply if_pos
  rw [hlen]
  decide

/-- With one more name the path is too long: `entry` returned `DIRWALK_DESCEND` for a directory
that no thread ever opens. -/
theorem long_path_not_visited :
    ∃ (s : State (oneChild longPath)) (e : Entry),
      exec step (State.start (oneChild longPath)) (longPathRun longPath) = some s ∧ s.Over ∧
      e.stat = .directory ∧
      Event.entry (oneChild longPath).rootNode e true true none ∈ s.log ∧
      ∀ m ok, Event.begun m ok ∈ s.log → m = (oneChild longPath).rootNode := by
  have hjoin := longPath_join
  generalize longPath = root at hjoin
  have hread : readNode (oneChild root) false 1 (oneChild root).rootNode true
      (oneChild root).inside = (.reading (oneChild root).rootNode (.eof false),
        [.entry (oneChild root).rootNode ⟨[98], .directory, .directory, true, true⟩ true true none,
          .error root], 0) := by
    simp [oneChild, readNode, skipStat, Path.dot, Path.dotdot, Config.rootNode, hjoin]
  let i : Fin (oneChild root).threads := ⟨0, Nat.one_pos⟩
  let r := (oneChild root).rootNode
  let e : Entry := ⟨[98], .directory, .directory, true, true⟩
  let opened : State (oneChild root) := ⟨[], 1, false, false, 1,
    Function.update (Function.update (fun _ => .top) i (.opening r)) i
      (.reading r (oneChild root).inside), [.begun r true]⟩
  let passed : State (oneChild root) := ⟨[], 1, false, false, 1,
    Function.update opened.pc i (.reading r (.eof false)),
    [.begun r true, .entry r e true true none, .error root]⟩
  have hopen : exec step (State.start (oneChild root)) [.lock i, .openDir i true] =
      some opened := rfl
  have hpass : exec step opened [.readEntry i true] = some passed := by
    have hpc : opened.pc i = .reading r (oneChild root).inside := rfl
    apply exec_cons_eq_some.mpr
    refine ⟨passed, ?_, rfl⟩
    simp only [step, readEntry, hpc]
    rw [show readNode (oneChild root) opened.stop opened.issued r true (oneChild root).inside = _
      from hread]
    rfl
  obtain ⟨s, hs, hover, hlog⟩ : ∃ s, exec step passed [.readEntry i true, .finish i, .lock i] =
      some s ∧ s.pc i = .exited ∧ s.log = passed.log ++ [.ended r true] := ⟨_, rfl, rfl, rfl⟩
  have hall : s.Over := by
    intro j
    have hj : j = i := @Subsingleton.elim (Fin 1) _ j i
    rw [hj, hover]
  refine ⟨s, e, exec_append hopen (exec_append hpass hs), hall, rfl, ?_, ?_⟩
  · rw [hlog]
    simp [passed, r]
  · intro m ok hm
    rw [hlog] at hm
    simp [passed] at hm
    exact hm.1

end Ecopy.DirWalk
