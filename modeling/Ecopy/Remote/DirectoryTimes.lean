import Ecopy.Remote.Finalize
import Mathlib.Data.Fin.VecNotation
import Mathlib.Data.List.TakeWhile

/-!
# Directory timestamps are final

After the drain that precedes the sorting no frame that changes an entry is
pending on any connection, and none is sent any more. The frames of one group are
about directories of one depth. When the next group starts, its drain has shown
that all deeper directories are done.
-/
namespace Ecopy.Remote.Finalize
open Lib.Runs

section Steps
variable {ν : Type*} {n : ℕ} [DecidableEq ν] (pool : Fin n → ApplyPool)

/-- Everything that a step can do. -/
inductive Step : State ν n → State ν n → Prop
  | push {s node name} (hm : s.main = .copying) (hn : node ∈ s.nodes) :
      Step s { s with nodes := ⟨node.path ++ [name], node.depth + 1⟩ :: s.nodes }
  | record {s node} (hm : s.main = .copying) (hn : node ∈ s.nodes) :
      Step s { s with records := s.records ++ [node] }
  | copy {s c m} (hm : s.main = .copying) (ho : ofCopy m = true) : Step s (s.sendOn c m)
  | verify (s c target) : Step s (s.sendOn c (.verifyPath target))
  | barrier (s c) : Step s (s.barrierOn c)
  | stop {s} (hm : s.main = .copying) : Step s { s with main := .sweeping .links 0 none }
  | interrupt {s} (hm : s.main = .copying) : Step s { s with main := .skipped }
  | sweepSend {s after c} (hm : s.main = .sweeping after c.val none) :
      Step s { s.barrierOn c with main := .sweeping after c.val (some (s.link c).nextId) }
  | sweepReply {s after id} {c : Fin n} (hm : s.main = .sweeping after c.val (some id))
      (hr : id ∈ (s.link c).replied) :
      Step s { s with main := .sweeping after (c.val + 1) none }
  | sweepDone {s after conn} (hm : s.main = .sweeping after conn none) (hc : n ≤ conn) :
      Step s { s with main := after.start }
  | link {s c} (hm : s.main = .linking) : Step s (s.sendOn c .other)
  | linksDone {s} (hm : s.main = .linking) (hr : s.records ≠ []) :
      Step s { s with main := .sweeping .sort 0 none }
  | noRecords {s} (hm : s.main = .linking) (hr : s.records = []) :
      Step s { s with main := .skipped }
  | sort {s sorted} (hm : s.main = .sorting) (hp : sorted.Perm s.records)
      (hd : DescDepth sorted) : Step s { s with main := .groups sorted }
  | startGroup {s r rest} (hm : s.main = .groups (r :: rest)) :
      Step s { s with main := .group (depthGroup r rest) [] false (afterGroup r rest) }
  | lastGroup {s rest} (hm : s.main = .groups rest) : Step s { s with main := .finished }
  | take {s r todo taken failed rest} (hm : s.main = .group (r :: todo) taken failed rest) :
      Step s { s with main := .group todo (r :: taken) failed rest }
  | sendMeta {s c r todo taken failed rest} (hm : s.main = .group todo taken failed rest)
      (hr : r ∈ taken) :
      Step s { s.sendOn c (setmetaDirectory r.path) with
        main := .group todo (taken.erase r) failed rest }
  | metaFails {s r todo taken failed rest} (hm : s.main = .group todo taken failed rest)
      (hr : r ∈ taken) : Step s { s with main := .group todo (taken.erase r) true rest }
  | groupFails {s todo taken failed rest} (hm : s.main = .group todo taken failed rest) :
      Step s { s with main := .group todo taken true rest }
  | joinedFailed {s todo rest} (hm : s.main = .group todo [] true rest) :
      Step s { s with main := .finished }
  | joined {s rest} (hm : s.main = .group [] [] false rest) :
      Step s { s with main := .sweeping (.groups rest) 0 none }
  | serve {s c a l} (hl : (s.link c).serve (pool c) a = some l) :
      Step s { s with
        link := Function.update s.link c l
        history := s.history ++ (event (pool c) c (s.link c) a).toList }

theorem next_step {s u : State ν n} {a : Action ν n} (h : next pool s a = some u) :
    Step pool s u := by
  cases a with simp only [next] at h
  | push node name =>
    split at h
    · split at h
      · obtain rfl := Option.some.inj h
        exact .push ‹_› ‹_›
      · cases h
    · cases h
  | record node =>
    split at h
    · split at h
      · obtain rfl := Option.some.inj h
        exact .record ‹_› ‹_›
      · cases h
    · cases h
  | copy c m =>
    split at h
    · split at h
      · obtain rfl := Option.some.inj h
        exact .copy ‹_› ‹_›
      · cases h
    · cases h
  | verify c target =>
    obtain rfl := Option.some.inj h
    exact .verify ..
  | barrier c =>
    obtain rfl := Option.some.inj h
    exact .barrier ..
  | stop =>
    split at h
    · obtain rfl := Option.some.inj h
      exact .stop ‹_›
    · cases h
  | interrupt =>
    split at h
    · obtain rfl := Option.some.inj h
      exact .interrupt ‹_›
    · cases h
  | sweepSend =>
    split at h
    · split at h
      · obtain rfl := Option.some.inj h
        exact .sweepSend ‹_›
      · cases h
    · cases h
  | sweepReply =>
    split at h
    · rename_i after conn id hm
      split at h
      · rename_i hc
        split at h
        · obtain rfl := Option.some.inj h
          exact .sweepReply (c := ⟨conn, hc⟩) hm ‹_›
        · cases h
      · cases h
    · cases h
  | sweepDone =>
    split at h
    · split at h
      · cases h
      · obtain rfl := Option.some.inj h
        exact .sweepDone ‹_› (by omega)
    · cases h
  | link c =>
    split at h
    · obtain rfl := Option.some.inj h
      exact .link ‹_›
    · cases h
  | linksDone =>
    split at h
    · obtain rfl := Option.some.inj h
      split
      · exact .noRecords ‹_› ‹_›
      · exact .linksDone ‹_› ‹_›
    · cases h
  | sort sorted =>
    split at h
    · split at h
      · rename_i hp
        obtain rfl := Option.some.inj h
        exact .sort ‹_› hp.1 hp.2
      · cases h
    · cases h
  | startGroup =>
    split at h
    · obtain rfl := Option.some.inj h
      exact .lastGroup ‹_›
    · obtain rfl := Option.some.inj h
      exact .startGroup ‹_›
    · cases h
  | giveUp =>
    split at h
    · obtain rfl := Option.some.inj h
      exact .lastGroup ‹_›
    · cases h
  | take =>
    split at h
    · obtain rfl := Option.some.inj h
      exact .take ‹_›
    · cases h
  | sendMeta c r =>
    split at h
    · split at h
      · obtain rfl := Option.some.inj h
        exact .sendMeta ‹_› ‹_›
      · cases h
    · cases h
  | metaFails r =>
    split at h
    · split at h
      · obtain rfl := Option.some.inj h
        exact .metaFails ‹_› ‹_›
      · cases h
    · cases h
  | groupFails =>
    split at h
    · obtain rfl := Option.some.inj h
      exact .groupFails ‹_›
    · cases h
  | joined =>
    split at h
    · obtain rfl := Option.some.inj h
      exact .joinedFailed ‹_›
    · obtain rfl := Option.some.inj h
      exact .joined ‹_›
    · cases h
  | serve c a =>
    split at h
    · obtain rfl := Option.some.inj h
      exact .serve ‹_›
    · cases h

end Steps

section Invariants
variable {ν : Type*} {n : ℕ} {pool : Fin n → ApplyPool} {s u : State ν n}
  {Q : Request (Target ν) → Prop} {k conn : ℕ} {wait : Option ℕ}
  {current rest unsent : List (Node ν)}

/-- The kinds of frames that neither barriers nor verification belong to. -/
structure OfRun (Q : Request (Target ν) → Prop) : Prop where
  barrier : ∀ id, ¬ Q (.barrier id)
  verifyPath : ∀ target, ¬ Q (.verifyPath target)

theorem ofRun_finalizes : OfRun (Finalizes (ν := ν)) where
  barrier id := by rintro ⟨path, h⟩; cases h
  verifyPath target := by rintro ⟨path, h⟩; cases h

theorem ofRun_changesEntries : OfRun (ChangesEntries (ν := ν)) where
  barrier _ := id
  verifyPath _ := id

/-- No directory has been finalised. -/
structure Blank (s : State ν n) : Prop where
  pending : ∀ c, (s.link c).Free Finalizes
  history : ∀ c path, .began c (setmetaDirectory path) ∉ s.history

/-- No frame that changes an entry is pending. -/
def Sealed (s : State ν n) : Prop := ∀ c, (s.link c).Free ChangesEntries

def Done (s : State ν n) (path : List ν) : Prop :=
  ∃ c, .ended c (setmetaDirectory path) ∈ s.history

/-- A drain has passed the connections below `conn`. -/
structure Swept (Q : Request (Target ν) → Prop) (conn : ℕ) (wait : Option ℕ)
    (s : State ν n) : Prop where
  passed : ∀ c : Fin n, c.val < conn → (s.link c).Free Q
  waiting : ∀ id, wait = some id → ∀ c : Fin n, c.val = conn → (s.link c).Behind Q id

/-- The directories of depth `k` are being finalised, or have just been. -/
structure Level (k : ℕ) (current rest : List (Node ν)) (s : State ν n) : Prop where
  pending : ∀ c path, setmetaDirectory path ∈ (s.link c).pending → path.length = k
  now : ∀ r ∈ current, r ∈ s.records ∧ r.depth = k
  later : ∀ r ∈ rest, r ∈ s.records ∧ r.depth < k
  sorted : DescDepth rest
  deeper : ∀ r ∈ s.records, k < r.depth → Done s r.path
  begun : ∀ c path, .began c (setmetaDirectory path) ∈ s.history → k ≤ path.length

/-- No record is lost. -/
def Tracked (unsent : List (Node ν)) (s : State ν n) : Prop :=
  ∀ r ∈ s.records, r ∈ unsent ∨ (∃ c, setmetaDirectory r.path ∈ (s.link c).pending) ∨
    Done s r.path

def Phase (s : State ν n) : Main ν → Prop
  | .copying | .linking | .skipped => Blank s
  | .sweeping .links _ _ => Blank s
  | .sweeping .sort conn wait => Blank s ∧ Swept ChangesEntries conn wait s
  | .sorting => Blank s ∧ Sealed s
  | .sweeping (.groups rest) conn wait =>
    (Sealed s ∧ ∃ k, Level k [] rest s) ∧ Tracked rest s ∧ Swept Finalizes conn wait s
  | .groups rest =>
    (Sealed s ∧ ∃ k, Level k [] rest s) ∧ Tracked rest s ∧ ∀ c, (s.link c).Free Finalizes
  | .group todo taken failed rest =>
    (Sealed s ∧ ∃ k, Level k (todo ++ taken) rest s) ∧
      (failed = false → Tracked (todo ++ taken ++ rest) s)
  | .finished => Sealed s ∧ ∃ k, Level k [] [] s

/-- The property of a history: once the handler for a directory is entered, no
entry changes any more, and its child directories are done before. -/
def Ordered (records : List (Node ν)) (history : List (Event ν n)) : Prop :=
  ∀ before after c path, history = before ++ .began c (setmetaDirectory path) :: after →
    (∀ e ∈ after, ¬ ChangesEntries e.request) ∧
    ∀ r ∈ records, ∀ name, r.path = path ++ [name] →
      (∃ c', .ended c' (setmetaDirectory r.path) ∈ before) ∧
      ∀ e ∈ after, e.request ≠ setmetaDirectory r.path

structure Inv (pool : Fin n → ApplyPool) (s : State ν n) : Prop where
  wf : ∀ c, (s.link c).Wf (pool c)
  depth : ∀ node ∈ s.nodes, node.depth = node.path.length
  recorded : ∀ r ∈ s.records, r ∈ s.nodes
  phase : Phase s s.main
  ordered : Ordered s.records s.history

theorem inv_start (pool : Fin n → ApplyPool) : Inv pool (State.start ν n) where
  wf c := Link.wf_empty _
  depth := by simp [State.start]
  recorded := by simp [State.start]
  phase := ⟨fun c => Link.free_empty _, by simp [State.start]⟩
  ordered := by simp [Ordered, State.start]

/-- What `u` has of `s` after a barrier, a frame of the verification or a step of
a server. -/
structure Quiet (s u : State ν n) : Prop where
  records : u.records = s.records
  free : ∀ Q, OfRun Q → ∀ c, (s.link c).Free Q → (u.link c).Free Q
  behind : ∀ Q, OfRun Q → ∀ c id, (s.link c).Behind Q id → (u.link c).Behind Q id
  pending : ∀ c path, setmetaDirectory path ∈ (u.link c).pending →
    setmetaDirectory path ∈ (s.link c).pending
  kept : ∀ e ∈ s.history, e ∈ u.history
  moved : ∀ c m, m ∈ (s.link c).pending → m ∈ (u.link c).pending ∨ .ended c m ∈ u.history
  began : ∀ c m, .began c m ∈ u.history → .began c m ∈ s.history ∨ m ∈ (s.link c).pending

theorem Done.quiet {path : List ν} (h : Done s path) (hq : Quiet s u) : Done u path := by
  obtain ⟨c, hc⟩ := h
  exact ⟨c, hq.kept _ hc⟩

theorem Blank.quiet (h : Blank s) (hq : Quiet s u) : Blank u := by
  refine ⟨fun c => hq.free _ ofRun_finalizes c (h.pending c), fun c path hb => ?_⟩
  rcases hq.began c _ hb with hb | hb
  · exact h.history c path hb
  · exact h.pending c _ hb ⟨path, rfl⟩

theorem Sealed.quiet (h : Sealed s) (hq : Quiet s u) : Sealed u :=
  fun c => hq.free _ ofRun_changesEntries c (h c)

theorem Swept.quiet (h : Swept Q conn wait s) (hQ : OfRun Q) (hq : Quiet s u) :
    Swept Q conn wait u where
  passed c hc := hq.free _ hQ c (h.passed c hc)
  waiting id hw c hc := hq.behind _ hQ c id (h.waiting id hw c hc)

theorem Level.quiet (h : Level k current rest s) (hq : Quiet s u) : Level k current rest u where
  pending c path hp := h.pending c path (hq.pending c path hp)
  now := by rw [hq.records]; exact h.now
  later := by rw [hq.records]; exact h.later
  sorted := h.sorted
  deeper := by
    rw [hq.records]
    exact fun r hr hk => (h.deeper r hr hk).quiet hq
  begun c path hb := by
    rcases hq.began c _ hb with hb | hb
    · exact h.begun c path hb
    · exact Nat.le_of_eq (h.pending c path hb).symm

theorem Tracked.quiet (h : Tracked unsent s) (hq : Quiet s u) : Tracked unsent u := by
  intro r hr
  rw [hq.records] at hr
  rcases h r hr with hu | ⟨c, hc⟩ | hd
  · exact .inl hu
  · rcases hq.moved c _ hc with hc | hc
    · exact .inr (.inl ⟨c, hc⟩)
    · exact .inr (.inr ⟨c, hc⟩)
  · exact .inr (.inr (hd.quiet hq))

theorem Phase.quiet {m : Main ν} (h : Phase s m) (hq : Quiet s u) : Phase u m := by
  have hlevel : ∀ {current rest}, (Sealed s ∧ ∃ k, Level k current rest s) →
      Sealed u ∧ ∃ k, Level k current rest u :=
    fun h => ⟨h.1.quiet hq, h.2.imp fun k hk => hk.quiet hq⟩
  cases m with
  | copying | linking | skipped => exact Blank.quiet h hq
  | sorting => exact ⟨h.1.quiet hq, h.2.quiet hq⟩
  | groups rest =>
    exact ⟨hlevel h.1, h.2.1.quiet hq, fun c => hq.free _ ofRun_finalizes c (h.2.2 c)⟩
  | group todo taken failed rest => exact ⟨hlevel h.1, fun hf => (h.2 hf).quiet hq⟩
  | finished => exact hlevel h
  | sweeping after conn wait =>
    cases after with
    | links => exact Blank.quiet h hq
    | sort => exact ⟨h.1.quiet hq, h.2.quiet ofRun_changesEntries hq⟩
    | groups rest => exact ⟨hlevel h.1, h.2.1.quiet hq, h.2.2.quiet ofRun_finalizes hq⟩

theorem link_sendOn_self (s : State ν n) (c : Fin n) (m : Request (Target ν)) :
    (s.sendOn c m).link c = (s.link c).send m := by
  simp [State.sendOn]

variable {r : Node ν} {c : Fin n} {rs : List (Node ν)} {l : Link (Target ν)} {a : ServerAction}
  {m : Request (Target ν)}
variable {taken todo : List (Node ν)} {d : Fin n}

theorem link_sendOn_of_ne (h : d ≠ c) (s : State ν n) (m : Request (Target ν)) :
    (s.sendOn c m).link d = s.link d := by
  simp [State.sendOn, h]

theorem free_sendOn (hm : ¬ Q m) (h : (s.link d).Free Q) : ((s.sendOn c m).link d).Free Q := by
  by_cases hd : d = c
  · subst hd
    rw [link_sendOn_self]
    exact h.send hm
  · rw [link_sendOn_of_ne hd]
    exact h

theorem behind_sendOn {id : ℕ} (hm : ¬ Q m) (h : (s.link d).Behind Q id) :
    ((s.sendOn c m).link d).Behind Q id := by
  by_cases hd : d = c
  · subst hd
    rw [link_sendOn_self]
    exact h.send hm
  · rw [link_sendOn_of_ne hd]
    exact h

theorem mem_pending_sendOn {x : Request (Target ν)} :
    x ∈ ((s.sendOn c m).link d).pending ↔ x ∈ (s.link d).pending ∨ (d = c ∧ x = m) := by
  by_cases hd : d = c
  · subst hd
    rw [link_sendOn_self, Link.mem_pending_send]
    simp
  · rw [link_sendOn_of_ne hd]
    simp [hd]

/-- A frame that belongs to no kind leaves everything as it is. -/
theorem quiet_sendOn (s : State ν n) (c : Fin n) {m : Request (Target ν)}
    (hm : ∀ Q, OfRun Q → ¬ Q m) : Quiet s (s.sendOn c m) where
  records := rfl
  free Q hQ d h := free_sendOn (hm Q hQ) h
  behind Q hQ d id h := behind_sendOn (hm Q hQ) h
  pending d path hp := by
    rcases mem_pending_sendOn.mp hp with hp | ⟨-, hp⟩
    · exact hp
    · exact absurd ⟨path, hp.symm⟩ (hm _ ofRun_finalizes)
  kept e he := he
  moved d x hx := .inl (mem_pending_sendOn.mpr (.inl hx))
  began d x hb := .inl hb

theorem quiet_barrierOn (s : State ν n) (c : Fin n) : Quiet s (s.barrierOn c) :=
  quiet_sendOn s c fun _ hQ => hQ.barrier _

theorem event_began {p : ApplyPool} (h : event p c l a = some (.began d m)) :
    d = c ∧ m ∈ l.pending := by
  unfold event at h
  split at h
  · rename_i x hx
    cases h
    exact ⟨rfl, Link.pending_of_enters hx⟩
  · obtain ⟨x, -, hx⟩ := Option.map_eq_some_iff.mp h
    cases hx

theorem event_request {p : ApplyPool} {e : Event ν n} (h : event p c l a = some e) :
    e.request ∈ l.pending := by
  unfold event at h
  split at h
  · rename_i x hx
    cases h
    exact Link.pending_of_enters hx
  · obtain ⟨x, hx, rfl⟩ := Option.map_eq_some_iff.mp h
    exact Link.pending_of_leaves hx

theorem event_leaves {p : ApplyPool} (h : l.leaves a = some m) :
    event p c l a = some (.ended c m) := by
  have hnone : l.enters p a = none := by
    cases a with
    | finish job => rfl
    | finishInline => rfl
    | read | readNoMemory | start => cases h
  simp [event, hnone, h]

/-- The state after a step of the server of connection `c`. -/
theorem quiet_serve (hw : (s.link c).Wf (pool c)) (hl : (s.link c).serve (pool c) a = some l) :
    Quiet s { s with
      link := Function.update s.link c l
      history := s.history ++ (event (pool c) c (s.link c) a).toList } where
  records := rfl
  free Q hQ d h := by
    by_cases hd : d = c
    · subst hd
      simpa using h.serve hl
    · simpa [hd] using h
  behind Q hQ d id h := by
    by_cases hd : d = c
    · subst hd
      simpa using h.serve (hQ.barrier id) hw hl
    · simpa [hd] using h
  pending d path hp := by
    by_cases hd : d = c
    · subst hd
      exact Link.pending_of_serve hl (by simpa using hp)
    · simpa [hd] using hp
  kept e he := List.mem_append_left _ he
  moved d m hm := by
    by_cases hd : d = c
    · subst hd
      rcases Link.pending_or_leaves hl hm with hm | hm
      · exact .inl (by simpa using hm)
      · exact .inr (by simp [event_leaves hm])
    · exact .inl (by simpa [hd] using hm)
  began d m hb := by
    rcases List.mem_append.mp hb with hb | hb
    · exact .inl hb
    · obtain ⟨rfl, hm⟩ := event_began (Option.mem_toList.mp hb)
      exact .inr hm

theorem Blank.ordered (h : Blank s) (records : List (Node ν)) : Ordered records s.history := by
  intro before after c path hs
  exact absurd (hs ▸ by simp) (h.history c path)

/-- What an event must satisfy to be added to a history. -/
theorem Ordered.snoc {records : List (Node ν)} {history : List (Event ν n)} {e : Event ν n}
    (h : Ordered records history)
    (hlater : ∀ c path, .began c (setmetaDirectory path) ∈ history →
      ¬ ChangesEntries e.request ∧ ∀ name, e.request ≠ setmetaDirectory (path ++ [name]))
    (hbegan : ∀ c path, e = .began c (setmetaDirectory path) → ∀ r ∈ records, ∀ name,
      r.path = path ++ [name] → ∃ c', .ended c' (setmetaDirectory r.path) ∈ history) :
    Ordered records (history ++ [e]) := by
  intro before after c path hs
  rcases List.eq_nil_or_concat' after with rfl | ⟨rest, x, rfl⟩
  · obtain ⟨rfl, hx⟩ := List.append_inj' hs rfl
    refine ⟨by simp, fun r hr name hname => ⟨?_, by simp⟩⟩
    exact hbegan c path (by simpa using hx) r hr name hname
  · have hs' : history ++ [e] = (before ++ .began c (setmetaDirectory path) :: rest) ++ [x] := by
      simpa using hs
    obtain ⟨hh, hx⟩ := List.append_inj' hs' rfl
    obtain rfl : e = x := by simpa using hx
    obtain ⟨hold, hchild⟩ := h before rest c path hh
    obtain ⟨hno, hname⟩ := hlater c path (by simp [hh])
    constructor
    · intro y hy
      rcases List.mem_append.mp hy with hy | hy
      · exact hold y hy
      · rwa [List.mem_singleton.mp hy]
    · intro r hr name hrn
      refine ⟨(hchild r hr name hrn).1, fun y hy => ?_⟩
      rcases List.mem_append.mp hy with hy | hy
      · exact (hchild r hr name hrn).2 y hy
      · rw [List.mem_singleton.mp hy, hrn]
        exact hname name

/-- Either no directory has been finalised or all that matters is at one depth. -/
theorem Phase.blank_or_level {m : Main ν} (h : Phase s m) :
    Blank s ∨ (Sealed s ∧ ∃ k current rest, Level k current rest s) := by
  have hlevel : ∀ {current rest}, (Sealed s ∧ ∃ k, Level k current rest s) →
      Blank s ∨ (Sealed s ∧ ∃ k current rest, Level k current rest s) := by
    intro current rest h
    obtain ⟨hs, k, hk⟩ := h
    exact .inr ⟨hs, k, current, rest, hk⟩
  cases m with
  | copying | linking | skipped => exact .inl h
  | sorting => exact .inl h.1
  | groups rest => exact hlevel h.1
  | group todo taken failed rest => exact hlevel h.1
  | finished => exact hlevel h
  | sweeping after conn wait =>
    cases after with
    | links => exact .inl h
    | sort => exact .inl h.1
    | groups rest => exact hlevel h.1

theorem Inv.length_of_record (h : Inv pool s) {r : Node ν} (hr : r ∈ s.records) :
    r.depth = r.path.length :=
  h.depth r (h.recorded r hr)

theorem Inv.ordered_event (h : Inv pool s) {c : Fin n} {a : ServerAction} :
    Ordered s.records (s.history ++ (event (pool c) c (s.link c) a).toList) := by
  cases he : event (pool c) c (s.link c) a with
  | none => simpa using h.ordered
  | some e =>
    have hp : e.request ∈ (s.link c).pending := event_request he
    rw [Option.toList_some]
    rcases h.phase.blank_or_level with hb | ⟨hs, k, current, rest, hk⟩
    · apply h.ordered.snoc
      · exact fun d path hd => absurd hd (hb.history d path)
      · rintro d path rfl
        exact absurd ⟨path, rfl⟩ (hb.pending c _ hp)
    · apply h.ordered.snoc
      · intro d path hd
        refine ⟨hs c _ hp, fun name hname => ?_⟩
        have hle : k ≤ path.length := hk.begun d path hd
        have heq : (path ++ [name]).length = k := hk.pending c _ (hname ▸ hp)
        simp only [List.length_append, List.length_singleton] at heq
        omega
      · rintro d path rfl r hr name hname
        apply hk.deeper r hr
        have heq : path.length = k := hk.pending c _ hp
        rw [h.length_of_record hr, hname, List.length_append, List.length_singleton]
        omega

theorem Blank.sendOn (h : Blank s) {c : Fin n} {m : Request (Target ν)} (hm : ¬ Finalizes m) :
    Blank (s.sendOn c m) where
  pending d := free_sendOn hm (h.pending d)
  history := h.history

theorem swept_zero (Q : Request (Target ν) → Prop) (s : State ν n) : Swept Q 0 none s where
  passed c hc := absurd hc (Nat.not_lt_zero _)
  waiting id hw := by cases hw

theorem Swept.barrierOn (h : Swept Q c.val none s) (hQ : OfRun Q) (hw : (s.link c).Wf (pool c)) :
    Swept Q c.val (some (s.link c).nextId) (s.barrierOn c) where
  passed d hd := (quiet_barrierOn s c).free Q hQ d (h.passed d hd)
  waiting id hid d hd := by
    obtain rfl := Fin.ext hd
    obtain rfl := Option.some.inj hid
    rw [State.barrierOn, link_sendOn_self]
    exact Link.behind_sendBarrier hw Q

theorem Swept.reply {id : ℕ} (h : Swept Q c.val (some id) s) (hr : id ∈ (s.link c).replied) :
    Swept Q (c.val + 1) none s where
  passed d hd := by
    by_cases hdc : d = c
    · subst hdc
      exact (h.waiting id rfl d rfl).free_of_replied hr
    · exact h.passed d (by have := Fin.val_ne_of_ne hdc; omega)
  waiting id hw := by cases hw

theorem Swept.all (h : Swept Q conn wait s) (hn : n ≤ conn) (c : Fin n) : (s.link c).Free Q :=
  h.passed c (Nat.lt_of_lt_of_le c.isLt hn)

/-- The first group is at the depth of its first record, the others are less deep. -/
theorem depth_of_mem_depthGroup {x : Node ν} (h : x ∈ depthGroup r rs) : x.depth = r.depth := by
  rcases List.mem_cons.mp h with rfl | h
  · rfl
  · simpa using List.mem_takeWhile_imp h

theorem depth_lt_of_mem_afterGroup {x : Node ν} (hs : DescDepth (r :: rs))
    (h : x ∈ afterGroup r rs) : x.depth < r.depth := by
  induction rs with
  | nil => cases h
  | cons y ys ih =>
    obtain ⟨hr, hys⟩ := List.pairwise_cons.mp hs
    by_cases hy : y.depth = r.depth
    · apply ih (hs.sublist (by simp))
      simpa [afterGroup, hy] using h
    · have hyr : y.depth ≤ r.depth := hr y (by simp)
      have hx : x ∈ y :: ys := by simpa [afterGroup, hy] using h
      rcases List.mem_cons.mp hx with rfl | hx
      · omega
      · have hxy : x.depth ≤ y.depth := (List.pairwise_cons.mp hys).1 x hx
        omega

theorem mem_depthGroup_or_afterGroup {x : Node ν} (h : x ∈ r :: rs) :
    x ∈ depthGroup r rs ++ afterGroup r rs := by
  have happ : depthGroup r rs ++ afterGroup r rs = r :: rs := by
    simp [depthGroup, afterGroup, List.takeWhile_append_dropWhile]
  rwa [happ]

theorem level_sorted {sorted : List (Node ν)} (h : Blank s) (hp : sorted.Perm s.records)
    (hd : DescDepth sorted) : ∃ k, Level k [] sorted s := by
  have hbound : ∃ k, ∀ r ∈ sorted, r.depth < k := by
    cases sorted with
    | nil => exact ⟨0, by simp⟩
    | cons r rs =>
      refine ⟨r.depth + 1, fun x hx => Nat.lt_succ_of_le ?_⟩
      rcases List.mem_cons.mp hx with rfl | hx
      · exact Nat.le_refl _
      · exact (List.pairwise_cons.mp hd).1 x hx
  obtain ⟨k, hk⟩ := hbound
  refine ⟨k, ?_, by simp, fun r hr => ⟨hp.subset hr, hk r hr⟩, hd, ?_, ?_⟩
  · exact fun c path hpath => absurd ⟨path, rfl⟩ (h.pending c _ hpath)
  · intro r hr hkr
    have := hk r (hp.symm.subset hr)
    omega
  · exact fun c path hb => absurd hb (h.history c path)

theorem Level.last (h : Level k current rest s) : Level k [] [] s where
  pending := h.pending
  now := by simp
  later := by simp
  sorted := .nil
  deeper := h.deeper
  begun := h.begun

/-- The drain has shown that everything deeper than the next group is done. -/
theorem Level.startGroup (h : Level k [] (r :: rs) s) (ht : Tracked (r :: rs) s)
    (hf : ∀ c, (s.link c).Free Finalizes) :
    Level r.depth (depthGroup r rs) (afterGroup r rs) s where
  pending c path hp := absurd ⟨path, rfl⟩ (hf c _ hp)
  now x hx := by
    refine ⟨?_, depth_of_mem_depthGroup hx⟩
    have hsub : (depthGroup r rs).Sublist (r :: rs) :=
      (List.takeWhile_sublist _).cons_cons r
    exact (h.later x (hsub.subset hx)).1
  later x hx := by
    refine ⟨?_, depth_lt_of_mem_afterGroup h.sorted hx⟩
    exact (h.later x (List.mem_cons_of_mem _ ((List.dropWhile_sublist _).subset hx))).1
  sorted := (List.pairwise_cons.mp h.sorted).2.sublist (List.dropWhile_sublist _)
  deeper x hx hlt := by
    rcases ht x hx with hu | ⟨c, hc⟩ | hd
    · rcases List.mem_cons.mp hu with rfl | hu
      · omega
      · have : x.depth ≤ r.depth := (List.pairwise_cons.mp h.sorted).1 x hu
        omega
    · exact absurd ⟨_, rfl⟩ (hf c _ hc)
    · exact hd
  begun c path hb := by
    have hk : k ≤ path.length := h.begun c path hb
    have hr : r.depth < k := (h.later r (by simp)).2
    omega

theorem Level.of_subset {current' : List (Node ν)} (h : Level k current rest s)
    (hsub : ∀ r ∈ current', r ∈ current) : Level k current' rest s where
  pending := h.pending
  now r hr := h.now r (hsub r hr)
  later := h.later
  sorted := h.sorted
  deeper := h.deeper
  begun := h.begun

theorem Level.sendMeta (h : Level k current rest s) (hr : r.path.length = k) :
    Level k current rest (s.sendOn c (setmetaDirectory r.path)) where
  pending d path hp := by
    rcases mem_pending_sendOn.mp hp with hp | ⟨-, hp⟩
    · exact h.pending d path hp
    · obtain rfl : path = r.path := by simpa [setmetaDirectory] using hp
      exact hr
  now := h.now
  later := h.later
  sorted := h.sorted
  deeper := h.deeper
  begun := h.begun

theorem Tracked.sendMeta {unsent' : List (Node ν)} (h : Tracked unsent s)
    (hsub : ∀ x ∈ unsent, x = r ∨ x ∈ unsent') :
    Tracked unsent' (s.sendOn c (setmetaDirectory r.path)) := by
  intro x hx
  rcases h x hx with hu | ⟨d, hd⟩ | hd
  · rcases hsub x hu with rfl | hu
    · exact .inr (.inl ⟨c, mem_pending_sendOn.mpr (.inr ⟨rfl, rfl⟩)⟩)
    · exact .inl hu
  · exact .inr (.inl ⟨d, mem_pending_sendOn.mpr (.inl hd)⟩)
  · exact .inr (.inr hd)

theorem Tracked.of_subset {unsent' : List (Node ν)} (h : Tracked unsent s)
    (hsub : ∀ x ∈ unsent, x ∈ unsent') : Tracked unsent' s :=
  fun x hx => (h x hx).imp_left (hsub x)

theorem wf_sendOn (h : ∀ c, (s.link c).Wf (pool c)) (d : Fin n) {m : Request (Target ν)}
    (hm : ∀ id, m = .barrier id → id = (s.link d).nextId) (c : Fin n) :
    ((s.sendOn d m).link c).Wf (pool c) := by
  by_cases hc : c = d
  · subst hc
    rw [link_sendOn_self]
    exact (h c).send hm
  · rw [link_sendOn_of_ne hc]
    exact h c

/-- A step that leaves the history, the nodes and the records as they are. -/
theorem Inv.of_phase (h : Inv pool s) (hn : u.nodes = s.nodes) (hr : u.records = s.records)
    (hh : u.history = s.history) (hw : ∀ c, (u.link c).Wf (pool c)) (hp : Phase u u.main) :
    Inv pool u where
  wf := hw
  depth := by rw [hn]; exact h.depth
  recorded := by rw [hn, hr]; exact h.recorded
  phase := hp
  ordered := by rw [hr, hh]; exact h.ordered

/-- Nothing that is said about a phase depends on the point reached by `main`. -/
theorem quiet_main (s : State ν n) (m : Main ν) : Quiet s { s with main := m } where
  records := rfl
  free _ _ _ h := h
  behind _ _ _ _ h := h
  pending _ _ h := h
  kept _ h := h
  moved _ _ h := .inl h
  began _ _ h := .inl h

theorem Inv.main (h : Inv pool s) {m : Main ν} (hp : Phase s m) :
    Inv pool { s with main := m } :=
  h.of_phase rfl rfl rfl h.wf (hp.quiet (quiet_main s m))

theorem Inv.sendOn (h : Inv pool s) (c : Fin n) {m : Request (Target ν)} {x : Main ν}
    (hm : ∀ id, m = .barrier id → id = (s.link c).nextId) (hp : Phase (s.sendOn c m) x) :
    Inv pool { s.sendOn c m with main := x } :=
  h.of_phase rfl rfl rfl (wf_sendOn h.wf c hm) (hp.quiet (quiet_main _ x))

theorem phase_sweepSend {after : After ν} (h : Inv pool s)
    (hm : s.main = .sweeping after c.val none) :
    Phase (s.barrierOn c) (.sweeping after c.val (some (s.link c).nextId)) := by
  have hq : Quiet s (s.barrierOn c) := quiet_barrierOn s c
  have hphase := h.phase
  rw [hm] at hphase
  cases after with
  | links => exact Blank.quiet hphase hq
  | sort => exact ⟨hphase.1.quiet hq, hphase.2.barrierOn ofRun_changesEntries (h.wf c)⟩
  | groups rest =>
    obtain ⟨⟨hs, k, hk⟩, ht, hw⟩ := hphase
    exact ⟨⟨hs.quiet hq, k, hk.quiet hq⟩, ht.quiet hq, hw.barrierOn ofRun_finalizes (h.wf c)⟩

theorem phase_sweepReply {after : After ν} {id : ℕ}
    (h : Phase s (.sweeping after c.val (some id))) (hr : id ∈ (s.link c).replied) :
    Phase s (.sweeping after (c.val + 1) none) := by
  cases after with
  | links => exact h
  | sort => exact ⟨h.1, h.2.reply hr⟩
  | groups rest => exact ⟨h.1, h.2.1, h.2.2.reply hr⟩

theorem phase_sweepDone {after : After ν} (h : Phase s (.sweeping after conn none))
    (hn : n ≤ conn) : Phase s after.start := by
  cases after with
  | links => exact h
  | sort => exact ⟨h.1, h.2.all hn⟩
  | groups rest => exact ⟨h.1, h.2.1, h.2.2.all hn⟩

theorem phase_startGroup (h : Phase s (.groups (r :: rs))) :
    Phase s (.group (depthGroup r rs) [] false (afterGroup r rs)) := by
  obtain ⟨⟨hs, k, hk⟩, ht, hf⟩ := h
  have hlevel : Level r.depth (depthGroup r rs ++ []) (afterGroup r rs) s := by
    rw [List.append_nil]
    exact hk.startGroup ht hf
  refine ⟨⟨hs, r.depth, hlevel⟩, fun _ => ht.of_subset fun x hx => ?_⟩
  rw [List.append_nil]
  exact mem_depthGroup_or_afterGroup hx

theorem phase_take {failed : Bool} (h : Phase s (.group (r :: todo) taken failed rest)) :
    Phase s (.group todo (r :: taken) failed rest) := by
  obtain ⟨⟨hs, k, hk⟩, ht⟩ := h
  refine ⟨⟨hs, k, hk.of_subset fun x hx => ?_⟩, fun hf => (ht hf).of_subset fun x hx => ?_⟩
  · simp only [List.mem_append, List.mem_cons] at hx ⊢
    tauto
  · simp only [List.mem_append, List.mem_cons] at hx ⊢
    tauto

theorem phase_fail {taken' : List (Node ν)} {failed : Bool}
    (h : Phase s (.group todo taken failed rest)) (hsub : ∀ r ∈ taken', r ∈ taken) :
    Phase s (.group todo taken' true rest) := by
  obtain ⟨⟨hs, k, hk⟩, -⟩ := h
  refine ⟨⟨hs, k, hk.of_subset fun x hx => ?_⟩, fun hf => by cases hf⟩
  rcases List.mem_append.mp hx with hx | hx
  · exact List.mem_append_left _ hx
  · exact List.mem_append_right _ (hsub x hx)

variable [DecidableEq ν]

theorem mem_erase_of_mem (r x : Node ν) (rs : List (Node ν)) (h : x ∈ rs) :
    x = r ∨ x ∈ rs.erase r := by
  by_cases hx : x = r
  · exact .inl hx
  · exact .inr ((List.mem_erase_of_ne hx).mpr h)

theorem phase_sendMeta {failed : Bool} (hi : Inv pool s)
    (h : Phase s (.group todo taken failed rest)) (hr : r ∈ taken) :
    Phase (s.sendOn c (setmetaDirectory r.path)) (.group todo (taken.erase r) failed rest) := by
  obtain ⟨⟨hs, k, hk⟩, ht⟩ := h
  obtain ⟨hrec, hdepth⟩ := hk.now r (List.mem_append_right _ hr)
  have hlen : r.path.length = k := by rw [← hi.length_of_record hrec, hdepth]
  refine ⟨⟨fun d => free_sendOn id (hs d), k, ?_⟩, fun hf => (ht hf).sendMeta fun x hx => ?_⟩
  · refine (hk.sendMeta hlen).of_subset fun x hx => ?_
    rcases List.mem_append.mp hx with hx | hx
    · exact List.mem_append_left _ hx
    · exact List.mem_append_right _ (List.mem_of_mem_erase hx)
  · have := mem_erase_of_mem r x taken
    simp only [List.mem_append] at hx ⊢
    tauto

omit [DecidableEq ν] in
theorem Inv.push {node : Node ν} {name : ν} (h : Inv pool s) (hn : node ∈ s.nodes) :
    Inv pool { s with nodes := ⟨node.path ++ [name], node.depth + 1⟩ :: s.nodes } where
  wf := h.wf
  depth x hx := by
    rcases List.mem_cons.mp hx with rfl | hx
    · simp [h.depth node hn]
    · exact h.depth x hx
  recorded r hr := List.mem_cons_of_mem _ (h.recorded r hr)
  phase := h.phase.quiet ⟨rfl, fun _ _ _ h => h, fun _ _ _ _ h => h, fun _ _ h => h,
    fun _ h => h, fun _ _ h => .inl h, fun _ _ h => .inl h⟩
  ordered := h.ordered

omit [DecidableEq ν] in
theorem Inv.record {node : Node ν} (h : Inv pool s) (hb : Blank s) (hm : s.main = .copying)
    (hn : node ∈ s.nodes) : Inv pool { s with records := s.records ++ [node] } where
  wf := h.wf
  depth := h.depth
  recorded r hr := by
    rcases List.mem_append.mp hr with hr | hr
    · exact h.recorded r hr
    · rwa [List.mem_singleton.mp hr]
  phase := by
    change Phase _ s.main
    rw [hm]
    exact ⟨hb.pending, hb.history⟩
  ordered := hb.ordered _

omit [DecidableEq ν] in
theorem Inv.serve (h : Inv pool s) (hl : (s.link c).serve (pool c) a = some l) :
    Inv pool { s with
      link := Function.update s.link c l
      history := s.history ++ (event (pool c) c (s.link c) a).toList } where
  wf d := by
    by_cases hd : d = c
    · subst hd
      simpa using (h.wf d).serve hl
    · simpa [hd] using h.wf d
  depth := h.depth
  recorded := h.recorded
  phase := h.phase.quiet (quiet_serve (h.wf c) hl)
  ordered := h.ordered_event

theorem Inv.step (h : Inv pool s) (hs : Step pool s u) : Inv pool u := by
  have hphase := h.phase
  cases hs with
  | push hm hn => exact h.push hn
  | record hm hn =>
    rw [hm] at hphase
    exact h.record hphase hm hn
  | copy hm ho =>
    rw [hm] at hphase
    refine h.of_phase rfl rfl rfl (wf_sendOn h.wf _ fun id hid => ?_) ?_
    · rw [hid] at ho
      cases ho
    · change Phase _ s.main
      rw [hm]
      exact Blank.sendOn hphase (not_finalizes_of_ofCopy ho)
  | verify c target =>
    have hq : Quiet s (s.sendOn c (.verifyPath target)) :=
      quiet_sendOn s c fun _ hQ => hQ.verifyPath _
    refine h.of_phase rfl rfl rfl (wf_sendOn h.wf _ fun id hid => ?_) (hphase.quiet hq)
    cases hid
  | barrier c =>
    refine h.of_phase rfl rfl rfl (wf_sendOn h.wf _ fun id hid => ?_)
      (hphase.quiet (quiet_barrierOn s c))
    exact (Request.barrier.inj hid).symm
  | stop hm => rw [hm] at hphase; exact h.main hphase
  | interrupt hm => rw [hm] at hphase; exact h.main hphase
  | sweepSend hm =>
    apply h.sendOn _ _ (phase_sweepSend h hm)
    exact fun id hid => (Request.barrier.inj hid).symm
  | sweepReply hm hr => rw [hm] at hphase; exact h.main (phase_sweepReply hphase hr)
  | sweepDone hm hc => rw [hm] at hphase; exact h.main (phase_sweepDone hphase hc)
  | link hm =>
    rw [hm] at hphase
    refine h.of_phase rfl rfl rfl (wf_sendOn h.wf _ fun id hid => ?_) ?_
    · cases hid
    · change Phase _ s.main
      rw [hm]
      exact Blank.sendOn hphase (by rintro ⟨path, hpath⟩; cases hpath)
  | linksDone hm hr => rw [hm] at hphase; exact h.main ⟨hphase, swept_zero _ _⟩
  | noRecords hm hr => rw [hm] at hphase; exact h.main hphase
  | sort hm hp hd =>
    rw [hm] at hphase
    refine h.main ⟨⟨hphase.2, level_sorted hphase.1 hp hd⟩, ?_, hphase.1.pending⟩
    exact fun r hr => .inl (hp.symm.subset hr)
  | startGroup hm => rw [hm] at hphase; exact h.main (phase_startGroup hphase)
  | lastGroup hm =>
    rw [hm] at hphase
    exact h.main ⟨hphase.1.1, hphase.1.2.imp fun k hk => hk.last⟩
  | take hm => rw [hm] at hphase; exact h.main (phase_take hphase)
  | sendMeta hm hr =>
    rw [hm] at hphase
    apply h.sendOn _ _ (phase_sendMeta h hphase hr)
    intro id hid
    cases hid
  | metaFails hm hr =>
    rw [hm] at hphase
    exact h.main (phase_fail hphase fun x hx => List.mem_of_mem_erase hx)
  | groupFails hm => rw [hm] at hphase; exact h.main (phase_fail hphase fun x hx => hx)
  | joinedFailed hm =>
    rw [hm] at hphase
    exact h.main ⟨hphase.1.1, hphase.1.2.imp fun k hk => hk.last⟩
  | joined hm =>
    rw [hm] at hphase
    exact h.main ⟨hphase.1, hphase.2 rfl, swept_zero _ _⟩
  | serve hl => exact h.serve hl

theorem inv_of_reachable (h : Reachable (next pool) (State.start ν n) s) : Inv pool s :=
  h.invariant (I := Inv pool) (inv_start pool) fun _ _ _ hi hs => hi.step (next_step pool hs)

/-- In every run, once a server has entered the handler of a directory's `SETMETA`,
no server enters or leaves a handler that changes an entry, and the handlers for
the directories directly below have all returned before. -/
theorem directory_times_final {before after : List (Event ν n)} {c : Fin n} {path : List ν}
    (h : Reachable (next pool) (State.start ν n) s)
    (hb : s.history = before ++ .began c (setmetaDirectory path) :: after) :
    (∀ e ∈ after, ¬ ChangesEntries e.request) ∧
    ∀ r ∈ s.records, ∀ name, r.path = path ++ [name] →
      (∃ c', .ended c' (setmetaDirectory r.path) ∈ before) ∧
      ∀ e ∈ after, e.request ≠ setmetaDirectory r.path :=
  (inv_of_reachable h).ordered before after c path hb

end Invariants

/-- A drain of two idle connections. -/
def drainTwo : List (Action ℕ 2) :=
  [.sweepSend, .serve 0 .read, .serve 0 .finishInline, .sweepReply,
    .sweepSend, .serve 1 .read, .serve 1 .finishInline, .sweepReply, .sweepDone]

/-- A directory with one file and its parent. The first server has one apply
thread, the second none; the child is finalised by the second. -/
def twoLevels : List (Action ℕ 2) :=
  [.push ⟨[], 0⟩ 7, .record ⟨[], 0⟩, .record ⟨[7], 1⟩, .copy 0 (.putfile (.entry [7, 8])),
    .serve 0 .read, .serve 0 .start, .serve 0 (.finish 0), .stop] ++ drainTwo ++
  [.linksDone] ++ drainTwo ++
  [.sort [⟨[7], 1⟩, ⟨[], 0⟩], .startGroup, .take, .sendMeta 1 ⟨[7], 1⟩, .joined,
    .serve 1 .read, .serve 1 .finishInline] ++ drainTwo ++
  [.startGroup, .take, .sendMeta 0 ⟨[], 0⟩, .serve 0 .read, .serve 0 .start]

theorem directory_times_final_twoLevels :
    ∃ (s : State ℕ 2) (before : List (Event ℕ 2)),
      Reachable (next ![⟨1, 4⟩, ⟨0, 4⟩]) (State.start ℕ 2) s ∧
      s.history = before ++ [.began 0 (setmetaDirectory [])] ∧
      ∃ c', .ended c' (setmetaDirectory [7]) ∈ before := by
  have hrun : (exec (next ![⟨1, 4⟩, ⟨0, 4⟩]) (State.start ℕ 2) twoLevels).map
      (fun s => (s.records, s.history.getLast?)) =
      some ([⟨[], 0⟩, ⟨[7], 1⟩], some (.began 0 (setmetaDirectory []))) := by
    decide +kernel
  obtain ⟨s, hs, hh⟩ := Option.map_eq_some_iff.mp hrun
  obtain ⟨hrecords, hlast⟩ := Prod.mk.inj hh
  obtain ⟨before, hb⟩ := List.getLast?_eq_some_iff.mp hlast
  have hreach : Reachable (next ![⟨1, 4⟩, ⟨0, 4⟩]) (State.start ℕ 2) s := ⟨_, hs⟩
  refine ⟨s, before, hreach, hb, ?_⟩
  exact ((directory_times_final hreach hb).2 ⟨[7], 1⟩ (by simp [hrecords]) 7 rfl).1

end Ecopy.Remote.Finalize
