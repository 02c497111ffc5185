import Ecopy.DirWalk.GroupRuns

/-!
# The order of the calls

What has to lie before an event is stated once, as `Due`: a call comes after the calls on all
deeper indices and after the hooks of their groups, a hook after the calls of its group. With the
indices sorted by depth every run is in this order. The slot of a thread tells the indices that it
calls. A run ends after a number of steps that is linear in the number of indices, and it can go on
until it has.
-/
namespace Ecopy.DirWalk.DepthGroups
open Lib.Runs Lib.Threads

variable {c : Config} {s u : State c} {a : Act c}

/-- The events that lie before this one. -/
def Due (pre : List (Event c)) : Event c → Prop
  | .began _ i => ∀ j < c.n, c.depthOf i < c.depthOf j → (∃ k, .ended k j ∈ pre) ∧
      (c.betweenGroups = true → ∃ start stop, start ≤ j ∧ j < stop ∧ .hookEnded start stop ∈ pre)
  | .ended k i => .began k i ∈ pre
  | .hookBegan start stop => ∀ j, start ≤ j → j < stop → ∃ k, .ended k j ∈ pre
  | .hookEnded start stop => .hookBegan start stop ∈ pre

def InOrder (log : List (Event c)) : Prop := ∀ pre ev post, log = pre ++ ev :: post → Due pre ev

variable {log : List (Event c)}

theorem InOrder.concat {ev : Event c} (h : InOrder log) (hev : Due log ev) :
    InOrder (log ++ [ev]) := by
  intro pre e post heq
  rcases List.eq_nil_or_concat' post with rfl | ⟨post, last, rfl⟩
  · obtain ⟨rfl, hlast⟩ := List.append_inj' heq rfl
    cases hlast
    exact hev
  · rw [← List.cons_append, ← List.append_assoc] at heq
    exact h pre e post (List.append_inj_left' heq rfl)

theorem mem_of_endedAt {i : ℕ} (h : 0 < endedAt log i) : ∃ k, .ended k i ∈ log := by
  obtain ⟨ev, hev, hi⟩ := List.countP_pos_iff.mp h
  cases ev with
  | ended k j =>
    rw [← of_decide_eq_true hi]
    exact ⟨k, hev⟩
  | began k j => cases hi
  | hookBegan a b => cases hi
  | hookEnded a b => cases hi

theorem begunAt_pos {k : Fin c.pool} {i : ℕ} (h : .began k i ∈ log) : 0 < begunAt log i :=
  List.countP_pos_iff.mpr ⟨_, h, decide_eq_true rfl⟩

theorem le_total (g : Pc → ℕ) (pc : Fin c.pool → Pc) (k : Fin c.pool) : g (pc k) ≤ total g pc :=
  Finset.single_le_sum (f := fun j => g (pc j)) (fun _ _ => Nat.zero_le _) (Finset.mem_univ k)

/-- What is still to be called lies in the group. -/
theorem Balance.serving_range (h : Balance s) {k : Fin c.pool} {i hi : ℕ}
    (hk : s.pc k = .serving i hi) (hlt : i < hi) (hbefore : ∀ j < s.start, 0 < endedAt s.log j) :
    s.start ≤ i ∧ i < s.stop := by
  have hle := le_total (Pc.rest i) s.pc k
  have hrest : Pc.rest i (s.pc k) = 1 := by
    rw [hk]
    exact if_pos ⟨le_rfl, hlt⟩
  have honce := h.once i
  have hin : inside 0 s.stop i ≤ 1 := by
    unfold inside
    split
    · exact le_rfl
    · exact Nat.zero_le 1
  constructor
  · by_contra hless
    have hpos := hbefore i (by omega)
    have hends := h.ends i
    omega
  · by_contra hmore
    have hout : inside 0 s.stop i = 0 := if_neg (by omega)
    omega

/-- The group is all of one depth, and the indices around its ends are not. -/
structure Levels (s : State c) : Prop where
  level : ∀ i, s.start ≤ i → i < s.stop → c.depthOf i = c.depthOf s.start
  edge : 0 < s.start → s.start < c.n → c.depthOf (s.start - 1) ≠ c.depthOf s.start
  next : 0 < s.stop → s.stop < c.n → c.depthOf (s.stop - 1) ≠ c.depthOf s.stop

theorem Levels.init (c : Config) : Levels (State.init c) :=
  ⟨fun _ _ => nofun, nofun, nofun⟩

theorem Levels.group (h : Levels s) (hmore : s.stop < c.n) {u : State c} (hstart : u.start = s.stop)
    (hstop : u.stop = c.groupEnd s.stop) : Levels u := by
  obtain ⟨hlt, -, hall, hend⟩ := groupEnd_spec hmore
  constructor
  · rw [hstart, hstop]
    exact hall
  · rw [hstart]
    exact h.next
  · rw [hstop]
    intro _ hn
    rw [hall (c.groupEnd s.stop - 1) (by omega) (by omega)]
    exact (hend hn).symm

theorem Levels.same (h : Levels s) {u : State c} (hstart : u.start = s.start)
    (hstop : u.stop = s.stop) : Levels u := by
  constructor
  · rw [hstart, hstop]
    exact h.level
  · rw [hstart]
    exact h.edge
  · rw [hstop]
    exact h.next

theorem Levels.move (h : Levels s) (hm : Move s u) : Levels u := by
  cases hm with
  | group top more => exact h.group more rfl rfl
  | finish top complete => exact h.same rfl rfl
  | create k creating here more => exact h.same rfl rfl
  | join creating all => exact h.same rfl rfl
  | hook joining joined given => exact h.same rfl rfl
  | complete joining joined given => exact h.same rfl rfl
  | hooked hooking => exact h.same rfl rfl
  | slice k binding contiguous => exact h.same rfl rfl
  | bind k binding contiguous => exact h.same rfl rfl
  | pull k pulling more => exact h.same rfl rfl
  | empty k pulling none => exact h.same rfl rfl
  | begin k i hi serving more => exact h.same rfl rfl
  | served k i hi serving none => exact h.same rfl rfl
  | finishCall k i hi calling => exact h.same rfl rfl

structure Ordered (s : State c) : Prop where
  due : InOrder s.log
  before : ∀ j < s.start, 0 < endedAt s.log j
  hooked : c.betweenGroups = true → ∀ j < s.start, ∃ start stop, start ≤ j ∧ j < stop ∧
    .hookEnded start stop ∈ s.log
  top : c.betweenGroups = true → s.main = .top → ∀ j < s.stop, ∃ start stop, start ≤ j ∧ j < stop ∧
    .hookEnded start stop ∈ s.log
  hooking : s.main = .hooking → .hookBegan s.start s.stop ∈ s.log
  called : ∀ k i hi, s.pc k = .calling i hi → .began k i ∈ s.log

theorem Ordered.init (c : Config) : Ordered (State.init c) where
  due := by
    intro pre ev post heq
    cases pre with
    | nil => cases heq
    | cons e pre => cases heq
  before := nofun
  hooked := fun _ => nofun
  top := fun _ _ => nofun
  hooking := nofun
  called := fun _ _ _ => nofun

/-- The log grows and the thread `k` moves. -/
theorem Ordered.worker (h : Ordered s) {k : Fin c.pool} {p : Pc} {u : State c}
    (hpc : u.pc = Function.update s.pc k p) (hmain : u.main = s.main) (hstart : u.start = s.start)
    (hstop : u.stop = s.stop) (hlog : s.log <+: u.log) (hdue : InOrder u.log)
    (hcalled : ∀ i hi, p = .calling i hi → .began k i ∈ u.log) : Ordered u where
  due := hdue
  before := by
    intro j hj
    rw [hstart] at hj
    exact (h.before j hj).trans_le (hlog.sublist.countP_le)
  hooked := by
    intro hgiven j hj
    rw [hstart] at hj
    obtain ⟨start, stop, h₁, h₂, hmem⟩ := h.hooked hgiven j hj
    exact ⟨start, stop, h₁, h₂, hlog.subset hmem⟩
  top := by
    intro hgiven htop j hj
    rw [hmain] at htop
    rw [hstop] at hj
    obtain ⟨start, stop, h₁, h₂, hmem⟩ := h.top hgiven htop j hj
    exact ⟨start, stop, h₁, h₂, hlog.subset hmem⟩
  hooking := by
    intro hhooking
    rw [hmain] at hhooking
    rw [hstart, hstop]
    exact hlog.subset (h.hooking hhooking)
  called := by
    intro j i hi hj
    rw [hpc] at hj
    by_cases hjk : j = k
    · subst hjk
      rw [Function.update_self] at hj
      exact hcalled i hi hj
    · rw [Function.update_of_ne hjk] at hj
      exact hlog.subset (h.called j i hi hj)

/-- Everything in a joined group was called to its end. -/
theorem Balance.joined_ended (h : Balance s) (hs : Shape s) (hjoining : s.main = .joining)
    (hjoined : ∀ k : Fin c.pool, k < s.created → s.pc k = .exited) {j : ℕ} (hj : j < s.stop) :
    0 < endedAt s.log j := by
  have hquiet := hs.joined hjoined
  have hrest : total (Pc.rest j) s.pc = 0 := total_quiet rfl rfl hquiet
  have hcurrent : total (Pc.current j) s.pc = 0 := total_quiet rfl rfl hquiet
  have hnone := inside_eq_zero (h.joined hs hjoining hjoined) j
  have honce := h.once j
  have hends := h.ends j
  have hin : inside 0 s.stop j = 1 := if_pos ⟨Nat.zero_le j, hj⟩
  omega

theorem Ordered.move (hsorted : ∀ i j, i ≤ j → j < c.n → c.depthOf j ≤ c.depthOf i)
    (h : Ordered s) (hs : Shape s) (hb : Balance s) (hl : Levels s) (hm : Move s u) :
    Ordered u := by
  cases hm with
  | group top more =>
    have hbetween := hb.between hs (by simp [top]) (by simp [top])
    refine ⟨h.due, ?_, fun hgiven => h.top hgiven top, nofun, nofun, fun _ _ _ => nofun⟩
    intro j hj
    rw [(hbetween j).2]
    exact (if_pos ⟨Nat.zero_le j, hj⟩ : inside 0 s.stop j = 1).ge
  | finish top complete => exact ⟨h.due, h.before, h.hooked, nofun, nofun, h.called⟩
  | create k creating here more =>
    exact h.worker (k := k) rfl rfl rfl rfl List.prefix_rfl h.due nofun
  | join creating all => exact ⟨h.due, h.before, h.hooked, nofun, nofun, h.called⟩
  | hook joining joined given =>
    have hsub : s.log ⊆ s.log ++ [.hookBegan s.start s.stop] := List.subset_append_left _ _
    refine ⟨h.due.concat ?_, ?_, ?_, nofun, fun _ => List.mem_append_right _ List.mem_cons_self, ?_⟩
    · intro j _ hj
      exact mem_of_endedAt (hb.joined_ended hs joining joined hj)
    · intro j hj
      rw [endedAt_hookBegan]
      exact h.before j hj
    · intro hgiven j hj
      obtain ⟨start, stop, h₁, h₂, hmem⟩ := h.hooked hgiven j hj
      exact ⟨start, stop, h₁, h₂, hsub hmem⟩
    · exact fun k i hi hk => hsub (h.called k i hi hk)
  | complete joining joined given =>
    refine ⟨h.due, h.before, h.hooked, ?_, nofun, h.called⟩
    intro hgiven
    rw [given] at hgiven
    cases hgiven
  | hooked hooking =>
    have hsub : s.log ⊆ s.log ++ [.hookEnded s.start s.stop] := List.subset_append_left _ _
    refine ⟨h.due.concat (h.hooking hooking), ?_, ?_, ?_, nofun, ?_⟩
    · intro j hj
      rw [endedAt_hookEnded]
      exact h.before j hj
    · intro hgiven j hj
      obtain ⟨start, stop, h₁, h₂, hmem⟩ := h.hooked hgiven j hj
      exact ⟨start, stop, h₁, h₂, hsub hmem⟩
    · intro hgiven _ j hj
      rcases Nat.lt_or_ge j s.start with hlt | hge
      · obtain ⟨start, stop, h₁, h₂, hmem⟩ := h.hooked hgiven j hlt
        exact ⟨start, stop, h₁, h₂, hsub hmem⟩
      · exact ⟨s.start, s.stop, hge, hj, List.mem_append_right _ List.mem_cons_self⟩
    · exact fun k i hi hk => hsub (h.called k i hi hk)
  | slice k binding contiguous =>
    exact h.worker (k := k) rfl rfl rfl rfl List.prefix_rfl h.due nofun
  | bind k binding contiguous =>
    exact h.worker (k := k) rfl rfl rfl rfl List.prefix_rfl h.due nofun
  | pull k pulling more =>
    exact h.worker (k := k) rfl rfl rfl rfl List.prefix_rfl h.due nofun
  | empty k pulling none =>
    exact h.worker (k := k) rfl rfl rfl rfl List.prefix_rfl h.due nofun
  | begin k i hi serving more =>
    refine h.worker (k := k) rfl rfl rfl rfl (List.prefix_append _ _) (h.due.concat ?_) ?_
    · intro j hj hdeeper
      obtain ⟨hlow, hhigh⟩ := hb.serving_range serving more h.before
      -- a deeper index lies before the group
      have hjstart : j < s.start := by
        by_contra hge
        rcases Nat.lt_or_ge j i with hji | hji
        · have hi' := hl.level i hlow hhigh
          have hj' := hl.level j (not_lt.mp hge) (hji.trans hhigh)
          omega
        · have hle := hsorted i j hji hj
          omega
      exact ⟨mem_of_endedAt (h.before j hjstart), fun hgiven => h.hooked hgiven j hjstart⟩
    · intro i' hi' heq
      cases heq
      exact List.mem_append_right _ List.mem_cons_self
  | served k i hi serving none =>
    refine h.worker (k := k) rfl rfl rfl rfl List.prefix_rfl h.due ?_
    intro i' hi' heq
    split at heq
    · cases heq
    · cases heq
  | finishCall k i hi calling =>
    exact h.worker (k := k) rfl rfl rfl rfl (List.prefix_append _ _)
      (h.due.concat (h.called k i hi calling)) nofun

/-- The thread has a number. -/
def Pc.Bound (p : Pc) : Prop := p ≠ .absent ∧ p ≠ .binding

/-- In contiguous mode no run is split between two threads. -/
def Unsplit (log : List (Event c)) : Prop :=
  ∀ same, c.sameRun = some same → ∀ j k i, .began j i ∈ log → .began k (i + 1) ∈ log →
    c.depthOf i = c.depthOf (i + 1) → same i (i + 1) = true → j = k

structure Slots (s : State c) : Prop where
  low : ∀ k, (s.pc k).Bound → s.idx k < s.bindSeq
  distinct : ∀ j k, (s.pc j).Bound → (s.pc k).Bound → s.idx j = s.idx k → j = k
  served : ∀ k i hi, s.pc k = .serving i hi ∨ s.pc k = .calling i hi →
    c.bound s.start s.stop (s.idx k) ≤ i ∧ hi = c.bound s.start s.stop (s.idx k + 1)
  mine : ∀ k i, .began k i ∈ s.log → s.start ≤ i → (s.pc k).Bound ∧
    c.bound s.start s.stop (s.idx k) ≤ i ∧ i < c.bound s.start s.stop (s.idx k + 1)
  unsplit : Unsplit s.log

theorem Slots.init (c : Config) : Slots (State.init c) where
  low := fun _ h => absurd rfl h.1
  distinct := fun _ _ h => absurd rfl h.1
  served := by
    intro k i hi h
    rcases h with h | h
    · cases h
    · cases h
  mine := fun _ _ => nofun
  unsplit := fun _ _ _ _ _ => nofun

/-- A step that changes neither the numbers nor the calls. -/
theorem Slots.same (h : Slots s) {u : State c} (hstart : u.start = s.start) (hstop : u.stop = s.stop)
    (hseq : u.bindSeq = s.bindSeq) (hidx : u.idx = s.idx)
    (hpc : ∀ k, ((u.pc k).Bound ↔ (s.pc k).Bound) ∧
      ∀ i hi, u.pc k = .serving i hi ∨ u.pc k = .calling i hi →
        ∃ i', i' ≤ i ∧ (s.pc k = .serving i' hi ∨ s.pc k = .calling i' hi))
    (hlog : ∀ k i, .began k i ∈ u.log ↔ .began k i ∈ s.log) : Slots u where
  low := by
    intro k hk
    rw [hidx, hseq]
    exact h.low k ((hpc k).1.mp hk)
  distinct := by
    intro j k hj hk
    rw [hidx]
    exact h.distinct j k ((hpc j).1.mp hj) ((hpc k).1.mp hk)
  served := by
    intro k i hi hk
    obtain ⟨i', hle, hk'⟩ := (hpc k).2 i hi hk
    obtain ⟨hlow, hhigh⟩ := h.served k i' hi hk'
    rw [hstart, hstop, hidx]
    exact ⟨hlow.trans hle, hhigh⟩
  mine := by
    intro k i hk hi
    rw [hstart] at hi
    rw [hstart, hstop, hidx]
    obtain ⟨hbound, hin⟩ := h.mine k i ((hlog k i).mp hk) hi
    exact ⟨(hpc k).1.mpr hbound, hin⟩
  unsplit := by
    intro same hsame j k i hj hk
    exact h.unsplit same hsame j k i ((hlog j i).mp hj) ((hlog k (i + 1)).mp hk)

theorem update_same {pc : Fin c.pool → Pc} {k : Fin c.pool} {p : Pc} (hbound : p.Bound ↔ (pc k).Bound)
    (hserved : ∀ i hi, p = .serving i hi ∨ p = .calling i hi →
      ∃ i', i' ≤ i ∧ (pc k = .serving i' hi ∨ pc k = .calling i' hi)) (j : Fin c.pool) :
    ((Function.update pc k p j).Bound ↔ (pc j).Bound) ∧
      ∀ i hi, Function.update pc k p j = .serving i hi ∨ Function.update pc k p j = .calling i hi →
        ∃ i', i' ≤ i ∧ (pc j = .serving i' hi ∨ pc j = .calling i' hi) := by
  by_cases hj : j = k
  · subst hj
    rw [Function.update_self]
    exact ⟨hbound, hserved⟩
  · rw [Function.update_of_ne hj]
    exact ⟨Iff.rfl, fun i hi h => ⟨i, le_rfl, h⟩⟩

/-- A call that begins is in the slice of its thread, and so are the neighbours of its run. -/
theorem Slots.begin (h : Slots s) (hs : Shape s) (hb : Balance s) (ho : Ordered s) (hl : Levels s)
    {k : Fin c.pool} {i hi : ℕ} (hserving : s.pc k = .serving i hi) (hmore : i < hi) :
    Unsplit (s.log ++ [.began k i]) := by
  obtain ⟨hstart, hstop⟩ := hb.serving_range hserving hmore ho.before
  obtain ⟨hlow, hhigh⟩ := h.served k i hi (Or.inl hserving)
  have hk : (s.pc k).Bound := by
    rw [hserving]
    exact ⟨nofun, nofun⟩
  have hmine : ∀ j i', .began j i' ∈ s.log ++ [.began k i] → s.start ≤ i' → (s.pc j).Bound ∧
      c.bound s.start s.stop (s.idx j) ≤ i' ∧ i' < c.bound s.start s.stop (s.idx j + 1) := by
    intro j i' hmem hi'
    rcases List.mem_append.mp hmem with hmem | hmem
    · exact h.mine j i' hmem hi'
    · cases List.mem_singleton.mp hmem
      exact ⟨hk, hlow, by omega⟩
  intro same hsame j j' m hm hm' hdepth hrun
  by_cases hboth : s.start ≤ m ∧ m + 1 < s.stop
  · obtain ⟨hj, hjlow, hjhigh⟩ := hmine j m hm hboth.1
    obtain ⟨hj', hjlow', hjhigh'⟩ := hmine j' (m + 1) hm' (by omega)
    have hiff : c.bound s.start s.stop (s.idx j') ≤ m ↔ _ :=
      bound_le_iff hsame hboth.1 hboth.2 hrun
    have hiff' : c.bound s.start s.stop (s.idx j' + 1) ≤ m ↔ _ :=
      bound_le_iff hsame hboth.1 hboth.2 hrun
    exact h.distinct j j' hj hj' (bound_unique hjlow hjhigh (by omega) (by omega))
  · -- the new call is in the group, so both calls are old or the depths differ
    have hold : ∀ q x, .began q x ∈ s.log → x < s.stop := by
      intro q x hmem
      by_contra hge
      have honce := hb.once x
      have hpos := begunAt_pos hmem
      have hout : inside 0 s.stop x = 0 := if_neg (by omega)
      omega
    rcases List.mem_append.mp hm with hm₁ | hm₁
    · rcases List.mem_append.mp hm' with hm₂ | hm₂
      · exact h.unsplit same hsame j j' m hm₁ hm₂ hdepth hrun
      · cases List.mem_singleton.mp hm₂
        have hedge : s.start = m + 1 := by omega
        have hrange := hs.range
        have hne := hl.edge (by omega) (by omega)
        rw [hedge, Nat.add_sub_cancel] at hne
        exact absurd hdepth hne
    · cases List.mem_singleton.mp hm₁
      rcases List.mem_append.mp hm' with hm₂ | hm₂
      · have hlt := hold j' (i + 1) hm₂
        omega
      · injection List.mem_singleton.mp hm₂ with _ hsucc
        omega

theorem Slots.move (h : Slots s) (hs : Shape s) (hb : Balance s) (ho : Ordered s) (hl : Levels s)
    (hcontiguous : c.contiguous = true) (hm : Move s u) : Slots u := by
  cases hm with
  | group top more =>
    have hbetween := hb.between hs (by simp [top]) (by simp [top])
    refine ⟨fun _ hk => absurd rfl hk.1, fun _ _ hj => absurd rfl hj.1, ?_, ?_, h.unsplit⟩
    · intro k i hi hk
      rcases hk with hk | hk
      · cases hk
      · cases hk
    · intro k i hmem hi
      have hpos := begunAt_pos hmem
      dsimp only at hpos hi
      rw [(hbetween i).1] at hpos
      have hout : inside 0 s.stop i = 0 := if_neg (by omega)
      omega
  | finish top complete =>
    exact h.same rfl rfl rfl rfl (fun k => ⟨Iff.rfl, fun i hi hk => ⟨i, le_rfl, hk⟩⟩)
      fun _ _ => Iff.rfl
  | create k creating here more =>
    have hk : s.pc k = .absent := (hs.absent k).mpr here.ge
    refine h.same rfl rfl rfl rfl (update_same ?_ ?_) fun _ _ => Iff.rfl
    · rw [hk]
      exact ⟨fun hbound => absurd rfl hbound.2, fun hbound => absurd rfl hbound.1⟩
    · intro i hi hp
      rcases hp with hp | hp
      · cases hp
      · cases hp
  | join creating all =>
    exact h.same rfl rfl rfl rfl (fun k => ⟨Iff.rfl, fun i hi hk => ⟨i, le_rfl, hk⟩⟩)
      fun _ _ => Iff.rfl
  | hook joining joined given =>
    exact h.same rfl rfl rfl rfl (fun k => ⟨Iff.rfl, fun i hi hk => ⟨i, le_rfl, hk⟩⟩)
      fun k i => by simp
  | complete joining joined given =>
    exact h.same rfl rfl rfl rfl (fun k => ⟨Iff.rfl, fun i hi hk => ⟨i, le_rfl, hk⟩⟩)
      fun _ _ => Iff.rfl
  | hooked hooking =>
    exact h.same rfl rfl rfl rfl (fun k => ⟨Iff.rfl, fun i hi hk => ⟨i, le_rfl, hk⟩⟩)
      fun k i => by simp
  | slice k binding contiguous =>
    have hnew : ∀ j, (Function.update s.pc k (.serving (c.bound s.start s.stop s.bindSeq)
        (c.bound s.start s.stop (s.bindSeq + 1))) j).Bound → j ≠ k → (s.pc j).Bound := by
      intro j hj hjk
      rw [Function.update_of_ne hjk] at hj
      exact hj
    constructor
    · intro j hj
      dsimp only at hj ⊢
      by_cases hjk : j = k
      · rw [hjk, Function.update_self]
        exact Nat.lt_succ_self _
      · rw [Function.update_of_ne hjk]
        exact (h.low j (hnew j hj hjk)).trans (Nat.lt_succ_self _)
    · intro j j' hj hj' heq
      dsimp only at hj hj' heq
      by_cases hjk : j = k
      · by_cases hjk' : j' = k
        · rw [hjk, hjk']
        · have hlow := h.low j' (hnew j' hj' hjk')
          rw [hjk, Function.update_self, Function.update_of_ne hjk'] at heq
          omega
      · have hlow := h.low j (hnew j hj hjk)
        by_cases hjk' : j' = k
        · rw [hjk', Function.update_self, Function.update_of_ne hjk] at heq
          omega
        · rw [Function.update_of_ne hjk, Function.update_of_ne hjk'] at heq
          exact h.distinct j j' (hnew j hj hjk) (hnew j' hj' hjk') heq
    · intro j i hi hj
      dsimp only at hj ⊢
      by_cases hjk : j = k
      · subst hjk
        rw [Function.update_self] at hj ⊢
        rcases hj with hj | hj
        · cases hj
          exact ⟨le_rfl, rfl⟩
        · cases hj
      · rw [Function.update_of_ne hjk] at hj ⊢
        exact h.served j i hi hj
    · intro j i hmem hi
      obtain ⟨hbound, hin⟩ := h.mine j i hmem hi
      have hjk : j ≠ k := by
        intro heq
        rw [heq, binding] at hbound
        exact hbound.2 rfl
      dsimp only
      rw [Function.update_of_ne hjk, Function.update_of_ne hjk]
      exact ⟨hbound, hin⟩
    · exact h.unsplit
  | bind k binding contiguous =>
    rw [hcontiguous] at contiguous
    cases contiguous
  | pull k pulling more =>
    have contiguous := hb.pulling k pulling
    rw [hcontiguous] at contiguous
    cases contiguous
  | empty k pulling none =>
    have contiguous := hb.pulling k pulling
    rw [hcontiguous] at contiguous
    cases contiguous
  | begin k i hi serving more =>
    have hk : (s.pc k).Bound := by
      rw [serving]
      exact ⟨nofun, nofun⟩
    have hserved := h.served k i hi (Or.inl serving)
    have hpc : ∀ j, (Function.update s.pc k (.calling i hi) j).Bound ↔ (s.pc j).Bound := by
      intro j
      by_cases hjk : j = k
      · subst hjk
        rw [Function.update_self]
        exact ⟨fun _ => hk, fun _ => ⟨nofun, nofun⟩⟩
      · rw [Function.update_of_ne hjk]
    constructor
    · exact fun j hj => h.low j ((hpc j).mp hj)
    · exact fun j j' hj hj' heq => h.distinct j j' ((hpc j).mp hj) ((hpc j').mp hj') heq
    · intro j i' hi' hj
      dsimp only at hj ⊢
      by_cases hjk : j = k
      · subst hjk
        rw [Function.update_self] at hj
        rcases hj with hj | hj
        · cases hj
        · cases hj
          exact hserved
      · rw [Function.update_of_ne hjk] at hj
        exact h.served j i' hi' hj
    · intro j i' hmem hi'
      rw [show ((Function.update s.pc k (.calling i hi) j).Bound ↔ (s.pc j).Bound) from hpc j]
      rcases List.mem_append.mp hmem with hmem | hmem
      · exact h.mine j i' hmem hi'
      · cases List.mem_singleton.mp hmem
        exact ⟨hk, hserved.1, more.trans_eq hserved.2⟩
    · exact h.begin hs hb ho hl serving more
  | served k i hi serving none =>
    refine h.same rfl rfl rfl rfl (update_same ?_ ?_) fun _ _ => Iff.rfl
    · rw [serving, if_pos hcontiguous]
      exact ⟨fun _ => ⟨nofun, nofun⟩, fun _ => ⟨nofun, nofun⟩⟩
    · rw [if_pos hcontiguous]
      intro i' hi' hp
      rcases hp with hp | hp
      · cases hp
      · cases hp
  | finishCall k i hi calling =>
    refine h.same rfl rfl rfl rfl (update_same ?_ ?_) fun k i => by simp
    · rw [calling]
      exact ⟨fun _ => ⟨nofun, nofun⟩, fun _ => ⟨nofun, nofun⟩⟩
    · intro i' hi' hp
      rcases hp with hp | hp
      · cases hp
        exact ⟨i, Nat.le_succ i, Or.inr calling⟩
      · cases hp

def Pc.cost : Pc → ℕ
  | .binding => 3
  | .pulling => 1
  | .serving i hi => 2 + 3 * (hi - i)
  | .calling i hi => 1 + 3 * (hi - i)
  | .absent | .exited => 0

/-- `left` threads are still to be created. -/
def MainPc.cost (left : ℕ) : MainPc → ℕ
  | .top => 1
  | .creating => 4 + 4 * left
  | .joining => 3
  | .hooking => 2
  | .finished => 0

/-- A bound on the number of steps to the end. -/
def State.cost (s : State c) : ℕ :=
  20 * (c.n - s.stop) + s.main.cost (c.count s.start s.stop - s.created) + 5 * (s.stop - s.front) +
    total Pc.cost s.pc

theorem State.cost_init (c : Config) : (State.init c).cost ≤ 20 * c.n + 1 := by
  have hpcs : total Pc.cost (State.init c).pc = 0 := total_quiet rfl rfl fun _ => Or.inr rfl
  have hstop : (State.init c).stop - (State.init c).front = 0 := Nat.zero_sub _
  unfold State.cost
  rw [hpcs, hstop]
  exact le_rfl

theorem cost_worker {k : Fin c.pool} {p : Pc} (hpc : u.pc = Function.update s.pc k p)
    (hmain : u.main = s.main) (hstart : u.start = s.start) (hstop : u.stop = s.stop)
    (hcreated : u.created = s.created)
    (hless : p.cost + 5 * (s.stop - u.front) < (s.pc k).cost + 5 * (s.stop - s.front)) :
    u.cost < s.cost := by
  have hupdate := total_update Pc.cost s.pc k p
  unfold State.cost
  rw [hpc, hmain, hstart, hstop, hcreated]
  omega

/-- A step of the calling thread within a group. -/
theorem cost_pass {main : MainPc} (hless : main.cost (c.count s.start s.stop - s.created) <
      s.main.cost (c.count s.start s.stop - s.created)) :
    State.cost { s with main := main, log := log } < s.cost := by
  have hfront : State.front { s with main := main, log := log } = s.front := rfl
  unfold State.cost
  rw [hfront]
  dsimp only
  omega

theorem Balance.cost_lt (h : Balance s) (hs : Shape s) (hm : Move s u) : u.cost < s.cost := by
  cases hm with
  | group top more =>
    obtain ⟨hlt, hn, -, -⟩ := groupEnd_spec more
    have hpcs : total Pc.cost (fun _ : Fin c.pool => Pc.absent) = 0 :=
      total_quiet rfl rfl fun _ => Or.inr rfl
    have hcount : c.count s.stop (c.groupEnd s.stop) ≤ c.groupEnd s.stop - s.stop :=
      Nat.min_le_right _ _
    unfold State.cost
    rw [front_group s, top]
    dsimp only [MainPc.cost]
    rw [hpcs]
    omega
  | finish top complete =>
    apply cost_pass
    rw [top]
    exact Nat.zero_lt_one
  | create k creating here more =>
    have hk : s.pc k = .absent := (hs.absent k).mpr here.ge
    have hupdate := total_update Pc.cost s.pc k .binding
    have hfront : State.front { s with
        pc := Function.update s.pc k .binding, created := s.created + 1 } = s.front := rfl
    unfold State.cost
    rw [hk] at hupdate
    rw [hfront, creating]
    simp only [MainPc.cost, Pc.cost] at hupdate ⊢
    omega
  | join creating all =>
    apply cost_pass
    rw [creating]
    show 3 < 4 + 4 * _
    omega
  | hook joining joined given =>
    apply cost_pass
    rw [joining]
    show 2 < 3
    omega
  | complete joining joined given =>
    apply cost_pass
    rw [joining]
    show 1 < 3
    omega
  | hooked hooking =>
    apply cost_pass
    rw [hooking]
    show 1 < 2
    omega
  | slice k binding contiguous =>
    have hlt := hs.busy (k := k) (by simp [binding]) (by simp [binding])
    have hbound := hs.bound
    have hcreated := hs.created
    have hpos : 0 < count Pc.isBinding s.pc := count_pos_iff.mpr ⟨k, by rw [binding]; rfl⟩
    have hmono : c.bound s.start s.stop s.bindSeq ≤ c.bound s.start s.stop (s.bindSeq + 1) :=
      bound_mono (Nat.le_succ _)
    have hle : c.bound s.start s.stop (s.bindSeq + 1) ≤ s.stop := bound_le hlt (by omega)
    refine cost_worker (k := k) rfl rfl rfl rfl rfl ?_
    unfold State.front
    rw [binding, if_pos contiguous, if_pos contiguous]
    simp only [Pc.cost]
    omega
  | bind k binding contiguous =>
    refine cost_worker (k := k) rfl rfl rfl rfl rfl ?_
    unfold State.front
    rw [binding, if_neg (by simp [contiguous]), if_neg (by simp [contiguous])]
    simp only [Pc.cost]
    omega
  | pull k pulling more =>
    have contiguous := h.pulling k pulling
    refine cost_worker (k := k) rfl rfl rfl rfl rfl ?_
    unfold State.front
    rw [pulling, if_neg (by simp [contiguous]), if_neg (by simp [contiguous])]
    simp only [Pc.cost]
    omega
  | empty k pulling none =>
    refine cost_worker (k := k) rfl rfl rfl rfl rfl ?_
    rw [pulling]
    exact Nat.add_lt_add_right Nat.zero_lt_one _
  | begin k i hi serving more =>
    refine cost_worker (k := k) rfl rfl rfl rfl rfl ?_
    rw [serving]
    exact Nat.add_lt_add_right (Nat.add_lt_add_right Nat.one_lt_two _) _
  | served k i hi serving none =>
    refine cost_worker (k := k) rfl rfl rfl rfl rfl ?_
    have hcost : Pc.cost (if c.contiguous = true then .exited else .pulling) ≤ 1 := by
      split
      · exact Nat.zero_le 1
      · exact le_rfl
    rw [serving]
    show _ + 5 * (s.stop - s.front) < 2 + 3 * (hi - i) + 5 * (s.stop - s.front)
    omega
  | finishCall k i hi calling =>
    have hlt := h.calling k i hi calling
    refine cost_worker (k := k) rfl rfl rfl rfl rfl ?_
    rw [calling]
    show 2 + 3 * (hi - (i + 1)) + 5 * (s.stop - s.front) <
      1 + 3 * (hi - i) + 5 * (s.stop - s.front)
    omega

/-- Until it is finished some thread can go on. -/
theorem Shape.enabled (h : Shape s) (hmain : s.main ≠ .finished) : ∃ a u, step s a = some u := by
  have hsome : ∀ a, (step s a).isSome = true → ∃ a u, step s a = some u := by
    intro a ha
    exact ⟨a, Option.isSome_iff_exists.mp ha⟩
  cases hm : s.main with
  | top =>
    apply hsome .main
    show (mainStep s).isSome = true
    unfold mainStep
    rw [hm]
    dsimp only
    split
    · rfl
    · rfl
  | creating =>
    apply hsome .main
    show (mainStep s).isSome = true
    unfold mainStep
    rw [hm]
    dsimp only
    split
    · rfl
    · rfl
  | joining =>
    by_cases hjoined : ∀ k : Fin c.pool, k < s.created → s.pc k = .exited
    · apply hsome .main
      show (mainStep s).isSome = true
      unfold mainStep
      rw [hm]
      dsimp only
      rw [if_pos hjoined]
      split
      · rfl
      · rfl
    · rw [not_forall] at hjoined
      obtain ⟨k, hk⟩ := hjoined
      rw [Classical.not_imp] at hk
      have habsent : s.pc k ≠ .absent := by
        intro heq
        have hle := (h.absent k).mp heq
        omega
      apply hsome (.worker k)
      show (workerStep s k).isSome = true
      unfold workerStep
      cases hpc : s.pc k with
      | absent => exact absurd hpc habsent
      | exited => exact absurd hpc hk.2
      | binding =>
        dsimp only
        split
        · rfl
        · rfl
      | pulling =>
        dsimp only
        split
        · rfl
        · rfl
      | serving i hi =>
        dsimp only
        split
        · rfl
        · rfl
      | calling i hi => rfl
  | hooking =>
    apply hsome .main
    show (mainStep s).isSome = true
    unfold mainStep
    rw [hm]
    rfl
  | finished => exact absurd hm hmain

def Config.Sorted (c : Config) : Prop := ∀ i j, i ≤ j → j < c.n → c.depthOf j ≤ c.depthOf i

structure Good (s : State c) : Prop where
  shape : Shape s
  balance : Balance s
  levels : Levels s
  ordered : Ordered s
  slots : c.contiguous = true → Slots s

theorem Good.init (c : Config) : Good (State.init c) :=
  ⟨.init c, .init c, .init c, .init c, fun _ => .init c⟩

theorem Good.next (hsorted : c.Sorted) (h : Good s) (hstep : step s a = some u) : Good u := by
  have hm := step_move hstep
  constructor
  · exact h.shape.move hm
  · exact h.balance.move h.shape hm
  · exact h.levels.move hm
  · exact h.ordered.move hsorted h.shape h.balance h.levels hm
  · intro hcontiguous
    exact (h.slots hcontiguous).move h.shape h.balance h.ordered h.levels hcontiguous hm

theorem Good.run (hsorted : c.Sorted) {as : List (Act c)} (h : Good s)
    (hrun : exec step s as = some u) : Good u ∧ as.length + u.cost ≤ s.cost := by
  induction as generalizing s with
  | nil =>
    cases hrun
    exact ⟨h, by simp⟩
  | cons a as ih =>
    obtain ⟨v, hv, hrun⟩ := exec_cons_eq_some.mp hrun
    obtain ⟨hu, hcost⟩ := ih (h.next hsorted hv) hrun
    have hless := h.balance.cost_lt h.shape (step_move hv)
    refine ⟨hu, ?_⟩
    rw [List.length_cons]
    omega

/-- Deepest-first grouped execution: in every run no index is called twice and the events are in
order, no run ends before every index was called, and every run ends. -/
structure Exact (c : Config) : Prop where
  atMostOnce : ∀ s, Reachable step (.init c) s → ∀ i, begunAt s.log i ≤ 1
  once : ∀ s, Reachable step (.init c) s → s.main = .finished → ∀ i,
    begunAt s.log i = (if i < c.n then 1 else 0) ∧ endedAt s.log i = (if i < c.n then 1 else 0)
  inOrder : ∀ s, Reachable step (.init c) s → InOrder s.log
  slices : ∀ start stop, start < stop → Slices c start stop
  unsplit : c.contiguous = true → ∀ s, Reachable step (.init c) s → Unsplit s.log
  ends : ∀ as s, exec step (.init c) as = some s → as.length ≤ 20 * c.n + 1 ∧
    (s.main = .finished ∨ ∃ a u, step s a = some u)

theorem exact_of_sorted (hsorted : c.Sorted) : Exact c := by
  have hgood : ∀ s, Reachable step (.init c) s → Good s := by
    rintro s ⟨as, hrun⟩
    exact ((Good.init c).run hsorted hrun).1
  constructor
  · intro s hs i
    have honce := (hgood s hs).balance.once i
    have hle : inside 0 s.stop i ≤ 1 := by
      unfold inside
      split
      · exact le_rfl
      · exact Nat.zero_le 1
    omega
  · intro s hs hfinished i
    have h := hgood s hs
    have hstop : s.stop = c.n := le_antisymm h.shape.range.2 (h.shape.last hfinished)
    have hbetween := h.balance.between h.shape (by simp [hfinished]) (by simp [hfinished]) i
    have hin : inside 0 c.n i = if i < c.n then 1 else 0 := by
      unfold inside
      simp
    rw [hstop, hin] at hbetween
    exact hbetween
  · exact fun s hs => (hgood s hs).ordered.due
  · exact fun start stop hlt => DepthGroups.slices c hlt
  · exact fun hcontiguous s hs => ((hgood s hs).slots hcontiguous).unsplit
  · intro as s hrun
    obtain ⟨h, hcost⟩ := (Good.init c).run hsorted hrun
    have hinit := State.cost_init c
    refine ⟨by omega, ?_⟩
    by_cases hfinished : s.main = .finished
    · exact Or.inl hfinished
    · exact Or.inr (h.shape.enabled hfinished)

end Ecopy.DirWalk.DepthGroups
