import Ecopy.DirWalk.DepthGroups

/-!
# Runs of the deepest-first groups

Every index is called once: it is not handed out yet, or it is in the rest of some thread's
slice, or its call has begun. A group is joined before the next one is begun, so the calls are
in the order of the depths, and the hook between two groups falls between their calls. A thread
of a contiguous group calls its slice, and no run has a bound inside.
-/
namespace Ecopy.DirWalk.DepthGroups
open Lib.Runs Lib.Threads

variable {c : Config} {s u : State c} {a : Act c}

def Pc.isBinding (p : Pc) : Bool := decide (p = .binding)

/-- The threads of a group, and the indices it is about. -/
structure Shape (s : State c) : Prop where
  range : s.start ≤ s.stop ∧ s.stop ≤ c.n
  group : s.main = .creating ∨ s.main = .joining → s.start < s.stop
  quiet : s.main ≠ .creating → s.main ≠ .joining → ∀ k, s.pc k = .exited ∨ s.pc k = .absent
  absent : ∀ k, s.pc k = .absent ↔ s.created ≤ k
  created : s.created ≤ c.count s.start s.stop
  bound : s.bindSeq + count Pc.isBinding s.pc = s.created
  all : s.main = .joining → c.count s.start s.stop ≤ s.created
  last : s.main = .finished → c.n ≤ s.stop

theorem no_binding (c : Config) : 0 + count Pc.isBinding (fun _ : Fin c.pool => Pc.absent) = 0 := by
  rw [Nat.zero_add]
  exact count_eq_zero_iff.mpr fun _ => rfl

theorem Shape.init (c : Config) : Shape (State.init c) where
  range := ⟨le_rfl, Nat.zero_le c.n⟩
  group := by
    intro h
    rcases h with h | h
    · cases h
    · cases h
  quiet := fun _ _ _ => Or.inr rfl
  absent := fun k => ⟨fun _ => Nat.zero_le k, fun _ => rfl⟩
  created := Nat.zero_le _
  bound := no_binding c
  all := nofun
  last := nofun

theorem Shape.busy (h : Shape s) {k : Fin c.pool} (hexited : s.pc k ≠ .exited)
    (habsent : s.pc k ≠ .absent) : s.start < s.stop := by
  apply h.group
  by_contra hmain
  rw [not_or] at hmain
  rcases h.quiet hmain.1 hmain.2 k with hk | hk
  · exact hexited hk
  · exact habsent hk

/-- A step of one thread. -/
theorem Shape.worker (h : Shape s) {k : Fin c.pool} {p : Pc} (hexited : s.pc k ≠ .exited)
    (habsent : s.pc k ≠ .absent) (hp : p ≠ .absent) {b : ℕ}
    (hb : b + p.isBinding.toNat = s.bindSeq + (s.pc k).isBinding.toNat) (next : ℕ)
    (idx : Fin c.pool → ℕ) (log : List (Event c)) :
    Shape { s with
      pc := Function.update s.pc k p, bindSeq := b, next := next, idx := idx, log := log } where
  range := h.range
  group := h.group
  quiet := by
    intro hcreating hjoining
    rcases h.quiet hcreating hjoining k with hk | hk
    · exact absurd hk hexited
    · exact absurd hk habsent
  absent := by
    intro j
    by_cases hj : j = k
    · subst hj
      dsimp only
      rw [Function.update_self, ← h.absent j]
      exact ⟨fun heq => absurd heq hp, fun heq => absurd heq habsent⟩
    · dsimp only
      rw [Function.update_of_ne hj]
      exact h.absent j
  created := h.created
  bound := by
    have hupdate := count_update Pc.isBinding s.pc k p
    have hbound := h.bound
    show b + count Pc.isBinding (Function.update s.pc k p) = s.created
    omega
  all := h.all
  last := h.last

/-- The calling thread goes on and leaves the threads and the group alone. -/
theorem Shape.pass (h : Shape s) {main : MainPc} (log : List (Event c))
    (hgroup : main = .joining → s.start < s.stop ∧ c.count s.start s.stop ≤ s.created)
    (hcreating : main ≠ .creating)
    (hquiet : main ≠ .joining → ∀ k, s.pc k = .exited ∨ s.pc k = .absent)
    (hlast : main = .finished → c.n ≤ s.stop) : Shape { s with main := main, log := log } where
  range := h.range
  group := fun hmain => (hgroup (hmain.resolve_left hcreating)).1
  quiet := fun _ hjoining => hquiet hjoining
  absent := h.absent
  created := h.created
  bound := h.bound
  all := fun hmain => (hgroup hmain).2
  last := hlast

theorem Shape.joined (h : Shape s) (hjoined : ∀ k : Fin c.pool, k < s.created → s.pc k = .exited)
    (k : Fin c.pool) : s.pc k = .exited ∨ s.pc k = .absent := by
  rcases Nat.lt_or_ge k s.created with hk | hk
  · exact Or.inl (hjoined k hk)
  · exact Or.inr ((h.absent k).mpr hk)

theorem Shape.move (h : Shape s) (hm : Move s u) : Shape u := by
  cases hm with
  | group top more =>
    obtain ⟨hlt, hn, -, -⟩ := groupEnd_spec more
    exact ⟨⟨hlt.le, hn⟩, fun _ => hlt, fun hcreating => absurd rfl hcreating,
      fun k => ⟨fun _ => Nat.zero_le k, fun _ => rfl⟩, Nat.zero_le _,
      no_binding c, nofun, nofun⟩
  | finish top complete =>
    exact h.pass s.log nofun nofun (fun _ => h.quiet (by simp [top]) (by simp [top])) fun _ => complete
  | create k creating here more =>
    have hk : s.pc k = .absent := (h.absent k).mpr here.ge
    refine ⟨h.range, h.group, fun hcreating => absurd creating hcreating, ?_, more, ?_, ?_, ?_⟩
    · intro j
      by_cases hj : j = k
      · subst hj
        dsimp only
        rw [Function.update_self]
        exact ⟨nofun, fun hle => absurd hle (by omega)⟩
      · have hne : (j : ℕ) ≠ k := fun heq => hj (Fin.ext heq)
        dsimp only
        rw [Function.update_of_ne hj, h.absent j]
        omega
    · have hupdate := count_update Pc.isBinding s.pc k .binding
      have hbound := h.bound
      rw [hk] at hupdate
      simp only [Pc.isBinding, decide_true, reduceCtorEq, decide_false, Bool.toNat_true,
        Bool.toNat_false] at hupdate hbound ⊢
      omega
    · intro hjoining
      exact absurd (creating.symm.trans hjoining) nofun
    · intro hfinished
      exact absurd (creating.symm.trans hfinished) nofun
  | join creating all =>
    exact h.pass s.log (fun _ => ⟨h.group (Or.inl creating), all⟩) nofun
      (fun hne => absurd rfl hne) nofun
  | hook joining joined given => exact h.pass _ nofun nofun (fun _ => h.joined joined) nofun
  | complete joining joined given => exact h.pass s.log nofun nofun (fun _ => h.joined joined) nofun
  | hooked hooking =>
    exact h.pass _ nofun nofun (fun _ => h.quiet (by simp [hooking]) (by simp [hooking])) nofun
  | slice k binding contiguous =>
    apply h.worker
    · simp [binding]
    · simp [binding]
    · nofun
    · rw [binding]
      rfl
  | bind k binding contiguous =>
    apply h.worker
    · simp [binding]
    · simp [binding]
    · nofun
    · rw [binding]
      rfl
  | pull k pulling more =>
    apply h.worker
    · simp [pulling]
    · simp [pulling]
    · nofun
    · rw [pulling]
      rfl
  | empty k pulling none =>
    apply h.worker
    · simp [pulling]
    · simp [pulling]
    · nofun
    · rw [pulling]
      rfl
  | begin k i hi serving more =>
    apply h.worker
    · simp [serving]
    · simp [serving]
    · nofun
    · rw [serving]
      rfl
  | served k i hi serving none =>
    apply h.worker
    · simp [serving]
    · simp [serving]
    · split
      · nofun
      · nofun
    · rw [serving]
      split
      · rfl
      · rfl
  | finishCall k i hi calling =>
    apply h.worker
    · simp [calling]
    · simp [calling]
    · nofun
    · rw [calling]
      rfl

def inside (a b i : ℕ) : ℕ := if a ≤ i ∧ i < b then 1 else 0

theorem inside_split {a b m : ℕ} (ha : a ≤ m) (hb : m ≤ b) (i : ℕ) :
    inside a b i = inside a m i + inside m b i := by
  unfold inside
  split_ifs
  all_goals omega

theorem inside_eq_zero {a b : ℕ} (h : b ≤ a) (i : ℕ) : inside a b i = 0 :=
  if_neg (by omega)

/-- Whether the thread is still to call the index. -/
def Pc.rest (i : ℕ) : Pc → ℕ
  | .serving a hi => inside a hi i
  | .calling a hi => inside (a + 1) hi i
  | _ => 0

def Pc.current (i : ℕ) : Pc → ℕ
  | .calling a _ => inside a (a + 1) i
  | _ => 0

def Event.isBegan (i : ℕ) : Event c → Bool
  | .began _ j => decide (j = i)
  | _ => false

def Event.isEnded (i : ℕ) : Event c → Bool
  | .ended _ j => decide (j = i)
  | _ => false

/-- How many calls on the index have begun. -/
def begunAt (log : List (Event c)) (i : ℕ) : ℕ := log.countP (Event.isBegan i)

def endedAt (log : List (Event c)) (i : ℕ) : ℕ := log.countP (Event.isEnded i)

section Log
variable (log : List (Event c)) (i : ℕ)

@[simp] theorem begunAt_began (k : Fin c.pool) (a : ℕ) :
    begunAt (log ++ [.began k a]) i = begunAt log i + inside a (a + 1) i := by
  unfold begunAt inside
  rw [List.countP_append, List.countP_singleton]
  by_cases ha : a = i
  · rw [if_pos (by simpa [Event.isBegan] using ha), if_pos (by omega)]
  · rw [if_neg (by simpa [Event.isBegan] using ha), if_neg (by omega)]

@[simp] theorem begunAt_ended (k : Fin c.pool) (a : ℕ) :
    begunAt (log ++ [.ended k a]) i = begunAt log i := by
  unfold begunAt
  rw [List.countP_append]
  rfl

@[simp] theorem begunAt_hookBegan (a b : ℕ) :
    begunAt (log ++ [.hookBegan a b]) i = begunAt log i := by
  unfold begunAt
  rw [List.countP_append]
  rfl

@[simp] theorem begunAt_hookEnded (a b : ℕ) :
    begunAt (log ++ [.hookEnded a b]) i = begunAt log i := by
  unfold begunAt
  rw [List.countP_append]
  rfl

@[simp] theorem endedAt_ended (k : Fin c.pool) (a : ℕ) :
    endedAt (log ++ [.ended k a]) i = endedAt log i + inside a (a + 1) i := by
  unfold endedAt inside
  rw [List.countP_append, List.countP_singleton]
  by_cases ha : a = i
  · rw [if_pos (by simpa [Event.isEnded] using ha), if_pos (by omega)]
  · rw [if_neg (by simpa [Event.isEnded] using ha), if_neg (by omega)]

@[simp] theorem endedAt_began (k : Fin c.pool) (a : ℕ) :
    endedAt (log ++ [.began k a]) i = endedAt log i := by
  unfold endedAt
  rw [List.countP_append]
  rfl

@[simp] theorem endedAt_hookBegan (a b : ℕ) :
    endedAt (log ++ [.hookBegan a b]) i = endedAt log i := by
  unfold endedAt
  rw [List.countP_append]
  rfl

@[simp] theorem endedAt_hookEnded (a b : ℕ) :
    endedAt (log ++ [.hookEnded a b]) i = endedAt log i := by
  unfold endedAt
  rw [List.countP_append]
  rfl

end Log

/-- The first index that is not handed out. -/
def State.front (s : State c) : ℕ :=
  if c.contiguous then c.bound s.start s.stop s.bindSeq else s.next

structure Balance (s : State c) : Prop where
  front : s.front ≤ s.stop
  exhausted : c.contiguous = false → ∀ k, s.pc k = .exited → s.stop ≤ s.next
  settled : s.main ≠ .creating → s.main ≠ .joining → s.stop ≤ s.front
  pulling : ∀ k, s.pc k = .pulling → c.contiguous = false
  calling : ∀ k i hi, s.pc k = .calling i hi → i < hi
  once : ∀ i, inside s.front s.stop i + total (Pc.rest i) s.pc + begunAt s.log i = inside 0 s.stop i
  ends : ∀ i, begunAt s.log i = endedAt s.log i + total (Pc.current i) s.pc

theorem total_quiet {g : Pc → ℕ} {pc : Fin c.pool → Pc} (hexited : g .exited = 0)
    (habsent : g .absent = 0) (h : ∀ k, pc k = .exited ∨ pc k = .absent) : total g pc = 0 := by
  rw [total_eq_zero_iff]
  intro k
  rcases h k with hk | hk
  · rw [hk]
    exact hexited
  · rw [hk]
    exact habsent

theorem Balance.init (c : Config) : Balance (State.init c) := by
  have hfront : (State.init c).front = 0 := by
    unfold State.front
    split
    · exact bound_zero
    · rfl
  refine ⟨hfront.le, fun _ _ => nofun, fun _ _ => Nat.zero_le _, fun _ => nofun, fun _ _ _ => nofun,
    ?_, ?_⟩
  · intro i
    have hrest : total (Pc.rest i) (State.init c).pc = 0 :=
      total_quiet rfl rfl fun _ => Or.inr rfl
    rw [hfront, hrest]
    rfl
  · intro i
    have hcurrent : total (Pc.current i) (State.init c).pc = 0 :=
      total_quiet rfl rfl fun _ => Or.inr rfl
    rw [hcurrent]
    rfl

/-- The calling thread goes on within a group or at its end. -/
theorem Balance.pass (h : Balance s) {main : MainPc} {log : List (Event c)}
    (hbegun : ∀ i, begunAt log i = begunAt s.log i) (hended : ∀ i, endedAt log i = endedAt s.log i)
    (hsettled : main ≠ .creating → main ≠ .joining → s.stop ≤ s.front) :
    Balance { s with main := main, log := log } where
  front := h.front
  exhausted := h.exhausted
  settled := hsettled
  pulling := h.pulling
  calling := h.calling
  once := by
    intro i
    have honce := h.once i
    rw [← hbegun i] at honce
    exact honce
  ends := by
    intro i
    have hends := h.ends i
    rw [← hbegun i, ← hended i] at hends
    exact hends

/-- A group is joined when everything is handed out. -/
theorem Balance.joined (h : Balance s) (hs : Shape s) (hjoining : s.main = .joining)
    (hjoined : ∀ k : Fin c.pool, k < s.created → s.pc k = .exited) : s.stop ≤ s.front := by
  have hlt := hs.group (Or.inr hjoining)
  have hall := hs.all hjoining
  unfold State.front
  split
  · have hnone : count Pc.isBinding s.pc = 0 := by
      rw [count_eq_zero_iff]
      intro k
      rcases hs.joined hjoined k with hk | hk
      · rw [hk]
        rfl
      · rw [hk]
        rfl
    have hbound := hs.bound
    have hmono : c.bound s.start s.stop (c.count s.start s.stop) ≤ c.bound s.start s.stop s.bindSeq :=
      bound_mono (by omega)
    rw [bound_count hlt] at hmono
    exact hmono
  · rename_i hcontiguous
    have hpos := count_pos (c := c) hlt
    exact h.exhausted (eq_false_of_ne_true hcontiguous) ⟨0, pool_pos⟩ (hjoined _ (by
      show 0 < s.created
      omega))

/-- A step of one thread that hands out what is before `m`. -/
theorem Balance.worker (h : Balance s) {k : Fin c.pool} {p : Pc} {u : State c}
    (hpc : u.pc = Function.update s.pc k p) (hmain : u.main = s.main) (hstop : u.stop = s.stop)
    (hfront : s.front ≤ u.front) (hfront' : u.front ≤ s.stop)
    (hexhausted : c.contiguous = false → s.next ≤ u.next ∧ (p = .exited → s.stop ≤ s.next))
    (hpulling : p = .pulling → c.contiguous = false) (hcalling : ∀ i hi, p = .calling i hi → i < hi)
    (hrest : ∀ i, p.rest i + begunAt u.log i =
      (s.pc k).rest i + begunAt s.log i + inside s.front u.front i)
    (hcurrent : ∀ i, begunAt u.log i + (s.pc k).current i + endedAt s.log i =
      begunAt s.log i + p.current i + endedAt u.log i) : Balance u where
  front := by
    rw [hstop]
    exact hfront'
  exhausted := by
    intro hcontiguous j hj
    obtain ⟨hnext, hp⟩ := hexhausted hcontiguous
    rw [hstop]
    rw [hpc] at hj
    by_cases hjk : j = k
    · subst hjk
      rw [Function.update_self] at hj
      exact (hp hj).trans hnext
    · rw [Function.update_of_ne hjk] at hj
      exact (h.exhausted hcontiguous j hj).trans hnext
  settled := by
    intro hcreating hjoining
    rw [hmain] at hcreating hjoining
    rw [hstop]
    exact (h.settled hcreating hjoining).trans hfront
  pulling := by
    intro j hj
    rw [hpc] at hj
    by_cases hjk : j = k
    · subst hjk
      rw [Function.update_self] at hj
      exact hpulling hj
    · rw [Function.update_of_ne hjk] at hj
      exact h.pulling j hj
  calling := by
    intro j i hi hj
    rw [hpc] at hj
    by_cases hjk : j = k
    · subst hjk
      rw [Function.update_self] at hj
      exact hcalling i hi hj
    · rw [Function.update_of_ne hjk] at hj
      exact h.calling j i hi hj
  once := by
    intro i
    have hupdate := total_update (Pc.rest i) s.pc k p
    have honce := h.once i
    have hstep := hrest i
    rw [inside_split hfront hfront' i] at honce
    rw [hpc, hstop]
    omega
  ends := by
    intro i
    have hupdate := total_update (Pc.current i) s.pc k p
    have hends := h.ends i
    have hstep := hcurrent i
    rw [hpc]
    omega

/-- Between two groups every index before the next one was called. -/
theorem Balance.between (h : Balance s) (hs : Shape s) (hcreating : s.main ≠ .creating)
    (hjoining : s.main ≠ .joining) (i : ℕ) :
    begunAt s.log i = inside 0 s.stop i ∧ endedAt s.log i = inside 0 s.stop i := by
  have hrest : total (Pc.rest i) s.pc = 0 := total_quiet rfl rfl (hs.quiet hcreating hjoining)
  have hcurrent : total (Pc.current i) s.pc = 0 :=
    total_quiet rfl rfl (hs.quiet hcreating hjoining)
  have hnone := inside_eq_zero (h.settled hcreating hjoining) i
  have honce := h.once i
  have hends := h.ends i
  omega

/-- Of a new group nothing is handed out. -/
theorem front_group (s : State c) : State.front { s with
    main := .creating, start := s.stop, stop := c.groupEnd s.stop, next := s.stop
    created := 0, bindSeq := 0, pc := fun _ => .absent } = s.stop := by
  unfold State.front
  split
  · exact bound_zero
  · rfl

theorem Balance.group (h : Balance s) (hs : Shape s) (htop : s.main = .top) (hmore : s.stop < c.n) :
    Balance { s with
      main := .creating, start := s.stop, stop := c.groupEnd s.stop, next := s.stop
      created := 0, bindSeq := 0, pc := fun _ => .absent } := by
  obtain ⟨hlt, -, -, -⟩ := groupEnd_spec hmore
  have hfront := front_group s
  have hbetween := h.between hs (by simp [htop]) (by simp [htop])
  refine ⟨hfront.trans_le hlt.le, fun _ _ => nofun, fun hne => absurd rfl hne, fun _ => nofun,
    fun _ _ _ => nofun, ?_, ?_⟩
  · intro i
    have hrest : total (Pc.rest i) (fun _ : Fin c.pool => Pc.absent) = 0 :=
      total_quiet rfl rfl fun _ => Or.inr rfl
    rw [hfront]
    dsimp only
    rw [hrest, (hbetween i).1, inside_split (Nat.zero_le s.stop) hlt.le i]
    omega
  · intro i
    have hcurrent : total (Pc.current i) (fun _ : Fin c.pool => Pc.absent) = 0 :=
      total_quiet rfl rfl fun _ => Or.inr rfl
    dsimp only
    rw [hcurrent, (hbetween i).1, (hbetween i).2, Nat.add_zero]

theorem Balance.move (h : Balance s) (hs : Shape s) (hm : Move s u) : Balance u := by
  cases hm with
  | group top more => exact h.group hs top more
  | finish top complete =>
    exact h.pass (fun _ => rfl) (fun _ => rfl) fun _ _ => h.settled (by simp [top]) (by simp [top])
  | create k creating here more =>
    have hk : s.pc k = .absent := (hs.absent k).mpr here.ge
    refine h.worker (k := k) rfl rfl rfl le_rfl h.front (fun _ => ⟨le_rfl, nofun⟩) nofun nofun ?_ ?_
    · intro i
      rw [hk]
      show 0 + begunAt s.log i = 0 + begunAt s.log i + inside s.front s.front i
      rw [inside_eq_zero le_rfl, Nat.add_zero]
    · intro i
      rw [hk]
      rfl
  | join creating all =>
    exact h.pass (fun _ => rfl) (fun _ => rfl) fun _ hne => absurd rfl hne
  | hook joining joined given =>
    exact h.pass (fun i => by simp) (fun i => by simp) fun _ _ => h.joined hs joining joined
  | complete joining joined given =>
    exact h.pass (fun _ => rfl) (fun _ => rfl) fun _ _ => h.joined hs joining joined
  | hooked hooking =>
    exact h.pass (fun i => by simp) (fun i => by simp) fun _ _ =>
      h.settled (by simp [hooking]) (by simp [hooking])
  | slice k binding contiguous =>
    have hlt := hs.busy (k := k) (by simp [binding]) (by simp [binding])
    have hbound := hs.bound
    have hcreated := hs.created
    have hpos : 0 < count Pc.isBinding s.pc := count_pos_iff.mpr ⟨k, by rw [binding]; rfl⟩
    have hmono : c.bound s.start s.stop s.bindSeq ≤ c.bound s.start s.stop (s.bindSeq + 1) :=
      bound_mono (Nat.le_succ _)
    have hfront : s.front = c.bound s.start s.stop s.bindSeq := if_pos contiguous
    have hfront' : State.front { s with
        bindSeq := s.bindSeq + 1
        idx := Function.update s.idx k s.bindSeq
        pc := Function.update s.pc k (.serving (c.bound s.start s.stop s.bindSeq)
          (c.bound s.start s.stop (s.bindSeq + 1))) } =
        c.bound s.start s.stop (s.bindSeq + 1) := if_pos contiguous
    refine h.worker (k := k) rfl rfl rfl ?_ ?_ ?_ nofun nofun ?_ ?_
    · rw [hfront, hfront']
      exact hmono
    · rw [hfront']
      exact bound_le hlt (by omega)
    · intro hcontiguous
      rw [contiguous] at hcontiguous
      cases hcontiguous
    · intro i
      rw [binding, hfront, hfront']
      show inside _ _ i + begunAt s.log i = 0 + begunAt s.log i + inside _ _ i
      omega
    · intro i
      rw [binding]
      rfl
  | bind k binding contiguous =>
    have hfront : State.front { s with
        bindSeq := s.bindSeq + 1
        idx := Function.update s.idx k s.bindSeq
        pc := Function.update s.pc k .pulling } = s.front := by
      unfold State.front
      rw [contiguous]
      rfl
    refine h.worker (k := k) rfl rfl rfl hfront.ge (hfront.trans_le h.front)
      (fun _ => ⟨le_rfl, nofun⟩) (fun _ => contiguous) nofun ?_ ?_
    · intro i
      rw [binding, hfront]
      show 0 + begunAt s.log i = 0 + begunAt s.log i + inside s.front s.front i
      rw [inside_eq_zero le_rfl, Nat.add_zero]
    · intro i
      rw [binding]
      rfl
  | pull k pulling more =>
    have contiguous := h.pulling k pulling
    have hfront : s.front = s.next := if_neg (by simp [contiguous])
    have hfront' : State.front { s with
        next := s.next + 1
        pc := Function.update s.pc k (.serving s.next (s.next + 1)) } = s.next + 1 :=
      if_neg (by simp [contiguous])
    refine h.worker (k := k) rfl rfl rfl ?_ ?_ (fun _ => ⟨Nat.le_succ _, nofun⟩) nofun nofun ?_ ?_
    · rw [hfront, hfront']
      exact Nat.le_succ _
    · rw [hfront']
      exact more
    · intro i
      rw [pulling, hfront, hfront']
      show inside _ _ i + begunAt s.log i = 0 + begunAt s.log i + inside _ _ i
      omega
    · intro i
      rw [pulling]
      rfl
  | empty k pulling none =>
    refine h.worker (k := k) rfl rfl rfl le_rfl h.front (fun _ => ⟨le_rfl, fun _ => none⟩) nofun
      nofun ?_ ?_
    · intro i
      rw [pulling]
      show 0 + begunAt s.log i = 0 + begunAt s.log i + inside s.front s.front i
      rw [inside_eq_zero le_rfl, Nat.add_zero]
    · intro i
      rw [pulling]
      rfl
  | begin k a hi serving more =>
    refine h.worker (k := k) rfl rfl rfl le_rfl h.front (fun _ => ⟨le_rfl, nofun⟩) nofun ?_ ?_ ?_
    · intro i b heq
      cases heq
      exact more
    · intro i
      rw [serving]
      show inside (a + 1) hi i + begunAt (s.log ++ [.began k a]) i =
        inside a hi i + begunAt s.log i + inside s.front s.front i
      have hsplit : inside a hi i = inside a (a + 1) i + inside (a + 1) hi i :=
        inside_split (Nat.le_succ a) more i
      have hnone : inside s.front s.front i = 0 := inside_eq_zero le_rfl i
      rw [begunAt_began]
      omega
    · intro i
      rw [serving]
      show begunAt (s.log ++ [.began k a]) i + 0 + endedAt s.log i =
        begunAt s.log i + inside a (a + 1) i + endedAt (s.log ++ [.began k a]) i
      rw [begunAt_began, endedAt_began]
      omega
  | served k a hi serving none =>
    refine h.worker (k := k) rfl rfl rfl le_rfl h.front ?_ ?_ ?_ ?_ ?_
    · intro contiguous
      rw [contiguous]
      exact ⟨le_rfl, nofun⟩
    · intro hpulling
      by_contra hne
      rw [if_pos (Bool.not_eq_false _ ▸ hne)] at hpulling
      cases hpulling
    · intro i b heq
      split at heq
      · cases heq
      · cases heq
    · intro i
      have hrest : Pc.rest i (if c.contiguous = true then .exited else .pulling) = 0 := by
        split
        · rfl
        · rfl
      rw [serving, hrest]
      show 0 + begunAt s.log i = inside a hi i + begunAt s.log i + inside s.front s.front i
      rw [inside_eq_zero none, inside_eq_zero le_rfl, Nat.add_zero]
    · intro i
      have hcurrent : Pc.current i (if c.contiguous = true then .exited else .pulling) = 0 := by
        split
        · rfl
        · rfl
      rw [serving, hcurrent]
      rfl
  | finishCall k a hi calling =>
    refine h.worker (k := k) rfl rfl rfl le_rfl h.front (fun _ => ⟨le_rfl, nofun⟩) nofun nofun ?_ ?_
    · intro i
      rw [calling]
      show inside (a + 1) hi i + begunAt (s.log ++ [.ended k a]) i =
        inside (a + 1) hi i + begunAt s.log i + inside s.front s.front i
      have hnone : inside s.front s.front i = 0 := inside_eq_zero le_rfl i
      rw [begunAt_ended, hnone]
      rfl
    · intro i
      rw [calling]
      show begunAt (s.log ++ [.ended k a]) i + inside a (a + 1) i + endedAt s.log i =
        begunAt s.log i + 0 + endedAt (s.log ++ [.ended k a]) i
      rw [begunAt_ended, endedAt_ended]
      omega

end Ecopy.DirWalk.DepthGroups
