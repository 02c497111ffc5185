import Ecopy.DirWalk.Visits

/-!
# What the walker leaves out

An entry that cannot be looked at gets no callback, and a directory whose path is too long
gets no node. Both are reported as errors of the directory they are in, as is a stream that
cannot be opened or read. So when no error of a directory was reported, every entry of it had
its callback, and every directory to descend into its visit.

An error of `readdir` is not noticed; the listing ends there.
-/
namespace Ecopy.DirWalk
open Lib.Runs Lib.Threads
open Server (pathJoinFast)
open Ecopy.Path (pathMax)

variable {c : Config}

/-- The entries of a directory, each with its own listing. -/
def Listing.entries : Listing → List (Entry × Listing)
  | .eof _ => []
  | .entry e inside rest => (e, inside) :: rest.entries

/-- The entry names something else than the directory itself or its parent. -/
def Entry.Proper (e : Entry) : Prop := e.name ≠ Path.dot ∧ e.name ≠ Path.dotdot

instance (e : Entry) : Decidable e.Proper :=
  inferInstanceAs (Decidable (e.name ≠ Path.dot ∧ e.name ≠ Path.dotdot))

/-- What was not delivered so far is still ahead or has been reported. -/
def Accounted (c : Config) (log : List Event) (n : Node) (rest : Listing) : Prop :=
  ∀ x ∈ n.inside.entries, x.1.Proper → delivers c x.1 = none →
    x ∈ rest.entries ∨ .error n.path ∈ log

def PcAccounted (c : Config) (log : List Event) : Pc → Prop
  | .reading n rest => Accounted c log n rest
  | .descending n _ rest => Accounted c log n rest
  | _ => True

/-- Errors that were noticed are in the log. -/
structure Reported (c : Config) (log : List Event) : Prop where
  unread : ∀ n, .ended n false ∈ log → .error n.path ∈ log
  missed : ∀ n, .ended n true ∈ log → Accounted c log n (.eof false)
  tooLong : ∀ n e withStat, .entry n e withStat true none ∈ log → descends c e = true →
    .error n.path ∈ log

structure Reporting (s : State c) : Prop where
  threads : ∀ i, PcAccounted c s.log (s.pc i)
  reported : Reported c s.log

section Logs
variable {log evs : List Event} {n : Node} {rest : Listing}

theorem Accounted.append (h : Accounted c log n rest) : Accounted c (log ++ evs) n rest :=
  fun x hx hproper hnone => (h x hx hproper hnone).imp_right (List.mem_append_left _)

theorem PcAccounted.append {p : Pc} (h : PcAccounted c log p) : PcAccounted c (log ++ evs) p := by
  cases p with
  | reading n rest => exact Accounted.append h
  | descending n child rest => exact Accounted.append h
  | _ => trivial

/-- New callbacks are accounted for when they are so together with the old ones. -/
theorem Reported.append (h : Reported c log)
    (hunread : ∀ n, .ended n false ∈ evs → .error n.path ∈ evs)
    (hmissed : ∀ n, .ended n true ∈ evs → Accounted c (log ++ evs) n (.eof false))
    (htooLong : ∀ n e withStat, .entry n e withStat true none ∈ evs → descends c e = true →
      .error n.path ∈ evs) : Reported c (log ++ evs) where
  unread n hn := by
    rw [List.mem_append] at hn ⊢
    exact hn.imp (h.unread n) (hunread n)
  missed n hn := by
    rcases List.mem_append.mp hn with hn | hn
    · exact (h.missed n hn).append
    · exact hmissed n hn
  tooLong n e withStat hev hdescends := by
    rw [List.mem_append] at hev ⊢
    exact hev.imp (fun hev => h.tooLong n e withStat hev hdescends) fun hev =>
      htooLong n e withStat hev hdescends

end Logs

theorem Reporting.start (c : Config) : Reporting (State.start c) where
  threads _ := trivial
  reported := ⟨fun _ h => (List.not_mem_nil h).elim, fun _ h => (List.not_mem_nil h).elim,
    fun _ _ _ h => (List.not_mem_nil h).elim⟩

variable {n : Node} {s : State c}

/-- The threads change, and no callback is made. -/
theorem Reporting.move (hs : Reporting s) {pc : Fin c.threads → Pc}
    (hpc : ∀ i, PcAccounted c s.log (pc i)) (queue : List Node) (active : ℕ) (done : Bool) :
    Reporting { s with queue := queue, active := active, done := done, pc := pc } :=
  ⟨hpc, hs.reported⟩

variable {evs log : List Event}

theorem accounted_update {f : Fin c.threads → Pc} (h : ∀ i, PcAccounted c log (f i))
    (i : Fin c.threads) {p : Pc} (hp : PcAccounted c log p) (j : Fin c.threads) :
    PcAccounted c log (Function.update f i p j) := by
  by_cases hj : j = i
  · rw [hj, Function.update_self]
    exact hp
  · rw [Function.update_of_ne hj]
    exact h j

theorem PcAccounted.wake {p q : Pc} (h : PcAccounted c log p)
    (hq : q = p ∨ p = .parked ∧ q = .woken) : PcAccounted c log q := by
  rcases hq with rfl | ⟨-, rfl⟩
  · exact h
  · trivial

/-- An entry has been dealt with. -/
theorem Accounted.pass {e : Entry} {inside rest : Listing}
    (h : Accounted c log n (.entry e inside rest))
    (hthis : e.Proper → delivers c e = none → .error n.path ∈ log ++ evs) :
    Accounted c (log ++ evs) n rest := by
  intro x hx hproper hnone
  rcases h x hx hproper hnone with hahead | herror
  · rcases List.mem_cons.mp hahead with rfl | hrest
    · exact .inr (hthis hproper hnone)
    · exact .inl hrest
  · exact .inr (List.mem_append_left _ herror)

/-- Callbacks of `entry` report a directory whose path is too long, and end nothing. -/
theorem Reported.entries (h : Reported c log) (hended : ∀ n ok, .ended n ok ∉ evs)
    (htooLong : ∀ n e withStat, .entry n e withStat true none ∈ evs → descends c e = true →
      .error n.path ∈ evs) : Reported c (log ++ evs) :=
  h.append (fun n hn => (hended n _ hn).elim) (fun n hn => (hended n _ hn).elim) htooLong

/-- One entry of the stream, or its end. -/
theorem readNode_reports {l : Listing} (issued : ℕ) (descend : Bool) (hwork : Accounted c log n l)
    (hlog : Reported c log) :
    PcAccounted c (log ++ (readNode c false issued n descend l).2.1)
        (readNode c false issued n descend l).1 ∧
      Reported c (log ++ (readNode c false issued n descend l).2.1) := by
  cases l with
  | eof error =>
    rw [readNode]
    by_cases hfails : readFails c error = true
    · rw [if_pos hfails]
      refine ⟨trivial, hlog.append ?_ ?_ ?_⟩
      · intro m hm
        have hmn : m = n := by simpa using hm
        rw [hmn]
        exact List.mem_cons_self
      · intro m hm
        simp at hm
      · intro m e withStat hm
        simp at hm
    · rw [if_neg hfails]
      refine ⟨trivial, hlog.append ?_ ?_ ?_⟩
      · intro m hm
        simp at hm
      · intro m hm
        have hmn : m = n := by simpa using hm
        rw [hmn]
        exact hwork.append
      · intro m e withStat hm
        simp at hm
  | entry e inside rest =>
    have hcalled : ∀ withStat, delivers c e = some withStat → ∀ evs : List Event,
        Accounted c (log ++ evs) n rest := by
      intro withStat hdelivers evs
      refine hwork.pass fun _ hnone => ?_
      rw [hdelivers] at hnone
      cases hnone
    rw [readNode, if_neg Bool.false_ne_true]
    by_cases hdots : e.name = Path.dot ∨ e.name = Path.dotdot
    · rw [if_pos hdots]
      refine ⟨hwork.pass fun hproper _ => ?_, ?_⟩
      · exact (hdots.elim hproper.1 hproper.2).elim
      · exact hlog.entries (by simp) (by simp)
    rw [if_neg hdots]
    by_cases hskip : skipStat c e = true
    · rw [if_pos hskip]
      have hdelivers : delivers c e = some false := by simp [delivers, hdots, hskip]
      refine ⟨hcalled false hdelivers _, hlog.entries (by simp) ?_⟩
      intro m e' withStat hm hdescends
      obtain ⟨-, rfl, -⟩ : m = n ∧ e' = e ∧ _ := by simpa using hm
      simp [descends, hdelivers] at hdescends
    rw [if_neg hskip]
    cases hstat : e.stat with
    | failed =>
      refine ⟨hwork.pass fun _ _ => ?_, hlog.entries (by simp) (by simp)⟩
      exact List.mem_append_right _ List.mem_cons_self
    | other =>
      have hdelivers : delivers c e = some true := by simp [delivers, hdots, hskip, hstat]
      refine ⟨hcalled true hdelivers _, hlog.entries (by simp) ?_⟩
      intro m e' withStat hm hdescends
      obtain ⟨-, rfl, -⟩ : m = n ∧ e' = e ∧ _ := by simpa using hm
      simp [descends, hstat] at hdescends
    | directory =>
      have hdelivers : delivers c e = some true := by simp [delivers, hdots, hskip, hstat]
      dsimp only
      cases descend with
      | false =>
        exact ⟨hcalled true hdelivers _, hlog.entries (by simp) (by simp)⟩
      | true =>
        rw [if_neg (by decide)]
        cases hjoin : pathJoinFast n.path e.name pathMax with
        | none =>
          refine ⟨hcalled true hdelivers _, hlog.entries (by simp) ?_⟩
          intro m e' withStat hm _
          obtain ⟨rfl, -⟩ : m = n ∧ _ := by simpa using hm
          exact List.mem_cons_of_mem _ List.mem_cons_self
        | some path =>
          exact ⟨hcalled true hdelivers _, hlog.entries (by simp) (by simp)⟩

theorem openNode_reports (begins : Bool) (hlog : Reported c log) :
    PcAccounted c (log ++ (openNode n begins).2) (openNode n begins).1 ∧
      Reported c (log ++ (openNode n begins).2) := by
  unfold openNode
  split
  · exact ⟨trivial, hlog.entries (by simp) (by simp)⟩
  split
  · exact ⟨trivial, hlog.entries (by simp) (by simp)⟩
  split
  · refine ⟨trivial, hlog.append ?_ (by simp) (by simp)⟩
    intro m hm
    have hmn : m = n := by simpa using hm
    rw [hmn]
    exact List.mem_cons_of_mem _ List.mem_cons_self
  · exact ⟨fun x hx _ _ => .inl hx, hlog.entries (by simp) (by simp)⟩

theorem Step.reporting {u : State c} {b : Bool} (h : Step s b u) (hs : Reporting s) :
    Reporting u := by
  cases h with
  | pop i idle n rest first =>
    exact hs.move (accounted_update hs.threads i (p := .opening n) trivial) _ _ _
  | park i idle empty more =>
    exact hs.move (accounted_update hs.threads i (p := .parked) trivial) _ _ _
  | exit i idle empty complete =>
    exact hs.move (accounted_update hs.threads i (p := .exited) trivial) _ _ _
  | openNode i n begins at_node =>
    obtain ⟨hpc, hlog⟩ := openNode_reports begins hs.reported
    exact ⟨accounted_update (fun j => (hs.threads j).append) i hpc, hlog⟩
  | readNode i n l descend at_node =>
    have hwork := hs.threads i
    rw [at_node] at hwork
    obtain ⟨hpc, hlog⟩ := readNode_reports s.issued descend hwork hs.reported
    exact ⟨accounted_update (fun j => (hs.threads j).append) i hpc, hlog⟩
  | push i n child rest at_node pc wake woke =>
    have hwork := hs.threads i
    rw [at_node] at hwork
    have hnext : PcAccounted c s.log (.reading n rest) := hwork
    refine hs.move (fun j => ?_) _ _ _
    exact (accounted_update hs.threads i hnext j).wake (signal_apply woke j)
  | finish i leaving more =>
    exact hs.move (accounted_update hs.threads i (p := .top) trivial) _ _ _
  | lastFinish i leaving empty last =>
    refine hs.move (fun j => ?_) _ _ _
    have hpc : PcAccounted c s.log (Function.update s.pc i .top j) :=
      accounted_update hs.threads i (p := .top) trivial j
    exact hpc.wake (broadcast_apply Pc.parked .woken _ j)
  | spurious i parked =>
    exact hs.move (accounted_update hs.threads i (p := .woken) trivial) _ _ _

theorem reporting_of_exec {as : List (Act c)} (hcalm : ∀ a ∈ as, a.Calm)
    (hr : exec step (State.start c) as = some s) : Reporting s :=
  (calm_invariant (Reporting.start c) (fun _ _ _ h hs => h.reporting hs) hcalm hr).1

theorem Delivered.mem_of_calls {l : Listing} (h : Delivered c n l evs) {x : Entry × Listing}
    (hx : x ∈ l.entries) {withStat : Bool} (hcalls : delivers c x.1 = some withStat) :
    ∃ descend child,
      .entry n x.1 withStat descend child ∈ evs ∧ Queued c n x.1 x.2 descend child := by
  induction h with
  | eof error => cases hx
  | pass silent more ih =>
    rcases List.mem_cons.mp hx with rfl | hx
    · rw [silent] at hcalls
      cases hcalls
    · exact ih hx
  | call calls descend child queued more ih =>
    rcases List.mem_cons.mp hx with rfl | hx
    · obtain rfl := Option.some.inj (calls.symm.trans hcalls)
      exact ⟨descend, child, List.mem_cons_self, queued⟩
    · obtain ⟨d, k, hev, hq⟩ := ih hx
      exact ⟨d, k, List.mem_cons_of_mem _ hev, hq⟩

/-- A callback of `entry` is about an entry of the listing. -/
theorem Delivered.mem_entries {m : Node} {l : Listing} (h : Delivered c n l evs) {e : Entry}
    {withStat descend : Bool} {child : Option Node}
    (hev : .entry m e withStat descend child ∈ evs) : ∃ inside, (e, inside) ∈ l.entries ∧
      delivers c e = some withStat ∧ Queued c m e inside descend child := by
  induction h with
  | eof error => cases hev
  | pass silent more ih =>
    obtain ⟨inside, hx, hrest⟩ := ih hev
    exact ⟨inside, List.mem_cons_of_mem _ hx, hrest⟩
  | call calls d k queued more ih =>
    rcases List.mem_cons.mp hev with heq | hev
    · cases heq
      exact ⟨_, List.mem_cons_self, calls, queued⟩
    · obtain ⟨inside, hx, hrest⟩ := ih hev
      exact ⟨inside, List.mem_cons_of_mem _ hx, hrest⟩

/-- The callback of an entry, and the node that is made when it says so. -/
def Called (s : State c) (n : Node) (e : Entry) (inside : Listing) : Prop :=
  ∃ withStat descend child, delivers c e = some withStat ∧
    .entry n e withStat descend child ∈ s.log ∧
    (descend = true → descends c e = true → ∃ id path, child = some (n.child id path e inside) ∧
      n.child id path e inside ∈ announced c s.log ∧
      pathJoinFast n.path e.name pathMax = some path)

/-- A directory without a reported error had all its callbacks. -/
theorem Walk.called (hwalk : Walk s) (hreported : Reported c s.log) (hover : s.Over) {n : Node}
    (hbegun : .begun n true ∈ s.log) (hquiet : .error n.path ∉ s.log) {x : Entry × Listing}
    (hx : x ∈ n.inside.entries) (hproper : x.1.Proper) : Called s n x.1 x.2 := by
  have hmem : ∀ ev ∈ history s.log n, ev ∈ s.log := fun ev hev => (List.mem_filter.mp hev).1
  have hvisit := hwalk.visit_of_over hover (hwalk.settled.ordered.mem_announced hbegun rfl)
  have hthis : .begun n true ∈ history s.log n :=
    List.mem_filter.mpr ⟨hbegun, by simp [Event.node]⟩
  generalize history s.log n = evs at hvisit hthis hmem
  cases hvisit with
  | refused closed => simp at hthis
  | skipped opens => simp at hthis
  | unread opens blocked => exact (hquiet (hreported.unread n (hmem _ (by simp)))).elim
  | full opens streams calls entries =>
    have hended := hmem (.ended n (!n.inside.fails c)) (by simp)
    cases hfails : n.inside.fails c with
    | true =>
      rw [hfails] at hended
      exact (hquiet (hreported.unread n hended)).elim
    | false =>
      rw [hfails] at hended
      cases hcalls : delivers c x.1 with
      | none =>
        rcases hreported.missed n hended x hx hproper hcalls with hahead | herror
        · cases hahead
        · exact (hquiet herror).elim
      | some withStat =>
        obtain ⟨descend, child, hev, hqueued⟩ := entries.mem_of_calls hx hcalls
        have hcall := hmem _ (List.mem_cons_of_mem _ (List.mem_append_left _ hev))
        refine ⟨withStat, descend, child, hcalls, hcall, fun hwanted hdescends => ?_⟩
        subst hwanted
        cases child with
        | none => exact (hquiet (hreported.tooLong n x.1 withStat hcall hdescends)).elim
        | some m =>
          obtain ⟨-, -, id, path, hjoin, rfl⟩ := hqueued
          exact ⟨id, path, rfl,
            List.mem_cons_of_mem _ (List.mem_filterMap.mpr ⟨_, hcall, rfl⟩), hjoin⟩

/-- When all threads have left, a directory that was begun and for which no error was reported
had a callback for each of its entries, and each directory that was to be descended into is a
node of the walk. -/
theorem walk_reports {as : List (Act c)} {s : State c} (hcalm : ∀ a ∈ as, a.Calm)
    (hr : exec step (State.start c) as = some s) (hover : s.Over) {n : Node}
    (hbegun : .begun n true ∈ s.log) (hquiet : .error n.path ∉ s.log) :
    ∀ x ∈ n.inside.entries, x.1.Proper → Called s n x.1 x.2 :=
  fun _ hx hproper => (walk_of_exec hcalm hr).1.called (reporting_of_exec hcalm hr).reported hover
    hbegun hquiet hx hproper

theorem walk_reports_oneChild :
    ∃ s, exec step (State.start (oneChild [97])) (oneChildRun [97]) = some s ∧
      Called s (oneChild [97]).rootNode ⟨[98], .directory, .directory, true, true⟩
        (.eof false) := by
  have hr : exec step (State.start (oneChild [97])) (oneChildRun [97]) =
      some ((exec step (State.start (oneChild [97])) (oneChildRun [97])).getD
        (State.start (oneChild [97]))) := rfl
  have hall := walk_reports (by decide) hr (by decide) (n := (oneChild [97]).rootNode) (by decide)
    (by decide)
  exact ⟨_, hr, hall _ List.mem_cons_self (by decide)⟩

end Ecopy.DirWalk
