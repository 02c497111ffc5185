import Ecopy.Lib.HeapOrder
import Ecopy.Workers.Scheduler

/-!
# The dispatch heap as a priority queue

Both sifts keep the order of the heap around their hole, so the top is an entry of the
greatest key in every heap that pushes and pops can lead to. Where the keys are taken from the
sequence counter, the older entry has the greater key, and the heap is a queue.

The array is a list here and has no capacity; `heap_reserve` comes before every push.
-/
namespace Ecopy.Workers.Heap
open Lib.Runs Lib.HeapOrder

variable {τ : Type*}

def parent (i : ℕ) : ℕ := (i - 1) / heapArity

theorem parent_lt (i : ℕ) (h : 0 < i) : parent i < i := by
  unfold parent heapArity
  omega

/-- The key at a place of the array, zero behind its end. -/
def keyAt (items : List (Entry τ)) (i : ℕ) : ℕ := (items[i]?.map Entry.key).getD 0

/-- Each parent's key is at least its children's. -/
def IsHeap (items : List (Entry τ)) : Prop := Ordered parent items.length (keyAt items)

variable {items : List (Entry τ)}

theorem keyAt_of_getElem? {i : ℕ} {e : Entry τ} (h : items[i]? = some e) :
    keyAt items i = e.key := by
  rw [keyAt, h]
  rfl

theorem keyAt_set {i : ℕ} (h : i < items.length) (e : Entry τ) :
    keyAt (items.set i e) = Function.update (keyAt items) i e.key := by
  funext j
  by_cases hj : j = i
  · subst hj
    rw [Function.update_self, keyAt_of_getElem? (List.getElem?_set_self h)]
  · rw [Function.update_of_ne hj, keyAt, keyAt, List.getElem?_set_ne (Ne.symm hj)]

theorem isHeap_nil : IsHeap ([] : List (Entry τ)) := fun i _ hi => absurd hi (Nat.not_lt_zero i)

theorem set_isHeap {i : ℕ} {e : Entry τ} (hi : i < items.length)
    (h : Holed parent items.length (keyAt items) i)
    (habove : 0 < i → e.key ≤ keyAt items (parent i))
    (hbelow : ∀ j, 0 < j → j < items.length → parent j = i → keyAt items j ≤ e.key) :
    IsHeap (items.set i e) := by
  rw [IsHeap, List.length_set, keyAt_set hi]
  exact h.place parent_lt habove hbelow

theorem siftUp_isHeap (e : Entry τ) (fuel : ℕ) {items : List (Entry τ)} {i : ℕ}
    (hi : i < items.length) (hfuel : i ≤ fuel)
    (h : Holed parent items.length (keyAt items) i)
    (hbelow : ∀ j, 0 < j → j < items.length → parent j = i → keyAt items j ≤ e.key) :
    IsHeap (siftUp e fuel items i) := by
  induction fuel generalizing items i with
  | zero => exact set_isHeap hi h (fun hpos => absurd hpos (by omega)) hbelow
  | succ fuel ih =>
    rw [siftUp]
    by_cases hzero : i = 0
    · rw [if_pos hzero]
      exact set_isHeap hi h (fun hpos => absurd hpos (by omega)) hbelow
    have hpos := Nat.pos_of_ne_zero hzero
    have hlt := parent_lt i hpos
    rw [if_neg hzero]
    obtain ⟨p, hp⟩ : ∃ p, items[(i - 1) / heapArity]? = some p :=
      ⟨_, List.getElem?_eq_getElem (hlt.trans hi)⟩
    have hkey : keyAt items (parent i) = p.key := keyAt_of_getElem? hp
    rw [hp]
    dsimp only
    split_ifs with hstop
    · exact set_isHeap hi h (fun _ => hkey ▸ hstop) hbelow
    · -- the parent moves into the hole
      have hmove := h.up parent_lt hpos hi
      have hunder := h.below_up parent_lt hpos (x := e.key) (by omega)
      rw [hkey, ← keyAt_set hi, ← List.length_set] at hmove hunder
      refine ih ?_ (show parent i ≤ fuel by omega) hmove hunder
      rw [List.length_set]
      exact hlt.trans hi

theorem keyAt_append {i : ℕ} (h : i < items.length) (more : List (Entry τ)) :
    keyAt (items ++ more) i = keyAt items i := by
  rw [keyAt, keyAt, List.getElem?_append_left h]

theorem heapPush_isHeap (h : IsHeap items) (e : Entry τ) : IsHeap (heapPush items e) := by
  have hlength : (items ++ [e]).length = items.length + 1 := by
    rw [List.length_append, List.length_singleton]
  apply siftUp_isHeap e items.length (by omega) (le_refl _)
  · -- the new place has no children yet
    refine ⟨?_, ?_⟩
    · intro j hpos hj hne _
      have hlt := parent_lt j hpos
      rw [keyAt_append (show j < items.length by omega),
        keyAt_append (show parent j < items.length by omega)]
      exact h j hpos (by omega)
    · intro _ j hpos hj heq
      have hlt := parent_lt j hpos
      omega
  · intro j hpos hj heq
    have hlt := parent_lt j hpos
    omega

/-- The inner loop ends with the greatest of the keys it has seen and with its place. -/
theorem bestChild_spec (items : List (Entry τ)) (n child : ℕ) (best : ℕ × ℕ) :
    best.2 ≤ (bestChild items n child best).2 ∧
      (∀ j, child ≤ j → j < child + n → j < items.length →
        keyAt items j ≤ (bestChild items n child best).2) ∧
      (bestChild items n child best = best ∨
        child ≤ (bestChild items n child best).1 ∧
          (bestChild items n child best).1 < child + n ∧
          (bestChild items n child best).1 < items.length ∧
          keyAt items (bestChild items n child best).1 = (bestChild items n child best).2 ∧
          best.2 < (bestChild items n child best).2) := by
  induction n generalizing child best with
  | zero => exact ⟨le_refl _, fun j hle hlt => absurd hlt (by omega), Or.inl rfl⟩
  | succ n ih =>
    rw [bestChild]
    cases hchild : items[child]? with
    | none =>
      have hend := List.getElem?_eq_none_iff.mp hchild
      exact ⟨le_refl _, fun j hle _ hj => absurd hj (by omega), Or.inl rfl⟩
    | some c =>
      have hin := (List.getElem?_eq_some_iff.mp hchild).1
      have hkey := keyAt_of_getElem? hchild
      dsimp only
      generalize hnext : (if c.key > best.2 then (child, c.key) else best) = next
      obtain ⟨hmono, hgreatest, hplace⟩ := ih (child + 1) next
      have hboth : best.2 ≤ next.2 ∧ c.key ≤ next.2 ∧
          (next = best ∨ next = (child, c.key) ∧ best.2 < c.key) := by
        rw [← hnext]
        split_ifs with hgt
        · exact ⟨Nat.le_of_lt hgt, le_refl _, Or.inr ⟨rfl, hgt⟩⟩
        · exact ⟨le_refl _, Nat.not_lt.mp hgt, Or.inl rfl⟩
      obtain ⟨hold, hnew, hnext⟩ := hboth
      refine ⟨hold.trans hmono, ?_, ?_⟩
      · intro j hle hlt hj
        rcases Nat.eq_or_lt_of_le hle with rfl | hle
        · rw [hkey]
          exact hnew.trans hmono
        · exact hgreatest j hle (by omega) hj
      · rcases hplace with heq | ⟨hle, hlt, hlen, hat, hgt⟩
        · rw [heq]
          rcases hnext with hnext | ⟨hnext, hgt⟩
          · exact Or.inl hnext
          · rw [hnext]
            exact Or.inr ⟨le_refl _, by omega, hin, hkey, hgt⟩
        · exact Or.inr ⟨by omega, by omega, hlen, hat, by omega⟩

/-- The children of a node are the places that the inner loop looks at. -/
theorem parent_eq_iff {i j : ℕ} :
    0 < j ∧ parent j = i ↔ heapArity * i + 1 ≤ j ∧ j < heapArity * i + 1 + heapArity := by
  unfold parent heapArity
  omega

theorem siftDown_isHeap (e : Entry τ) (fuel : ℕ) {items : List (Entry τ)} {i : ℕ}
    (hi : i < items.length) (hfuel : items.length ≤ fuel + i)
    (h : Holed parent items.length (keyAt items) i)
    (habove : 0 < i → e.key ≤ keyAt items (parent i)) :
    IsHeap (siftDown e fuel items i) := by
  induction fuel generalizing items i with
  | zero => exact absurd hi (by omega)
  | succ fuel ih =>
    rw [siftDown]
    obtain ⟨hmono, hgreatest, hplace⟩ :=
      bestChild_spec items heapArity (heapArity * i + 1) (i, e.key)
    generalize bestChild items heapArity (heapArity * i + 1) (i, e.key) = best at *
    have hchildren : ∀ j, 0 < j → j < items.length → parent j = i → keyAt items j ≤ best.2 := by
      intro j hpos hj hup
      obtain ⟨hle, hlt⟩ := parent_eq_iff.mp ⟨hpos, hup⟩
      exact hgreatest j hle hlt hj
    rcases hplace with rfl | ⟨hle, hlt, hin, hat, hgt⟩
    · rw [if_pos rfl]
      exact set_isHeap hi h habove hchildren
    · obtain ⟨hpos, hup⟩ := parent_eq_iff.mpr ⟨hle, hlt⟩
      have hdown := parent_lt best.1 hpos
      obtain ⟨c, hc⟩ : ∃ c, items[best.1]? = some c := ⟨_, List.getElem?_eq_getElem hin⟩
      have hkey := keyAt_of_getElem? hc
      rw [if_neg (by omega), hc]
      dsimp only
      -- the greatest child moves into the hole
      have hmove := h.down parent_lt hpos hin hup (hat ▸ hchildren)
      rw [hkey, ← keyAt_set hi, ← List.length_set] at hmove
      refine ih ?_ ?_ hmove ?_
      · rw [List.length_set]
        exact hin
      · rw [List.length_set]
        omega
      · intro _
        rw [hup, keyAt_set hi, Function.update_self]
        omega

theorem keyAt_dropLast {i : ℕ} (h : i + 1 < items.length) :
    keyAt items.dropLast i = keyAt items i := by
  rw [keyAt, keyAt, List.getElem?_dropLast, if_pos (by omega)]

theorem heapPopMax_isHeap {rest : List (Entry τ)} {e : Entry τ} (h : IsHeap items)
    (hpop : heapPopMax items = some (e, rest)) : IsHeap rest := by
  cases items with
  | nil => cases hpop
  | cons top tail =>
    rw [heapPopMax] at hpop
    cases hlast : tail.getLast? with
    | none =>
      rw [hlast] at hpop
      cases hpop
      exact isHeap_nil
    | some node =>
      rw [hlast] at hpop
      cases hpop
      have hlength : (e :: tail).dropLast.length = tail.length := by
        rw [List.length_dropLast, List.length_cons, Nat.add_sub_cancel]
      have hne : tail ≠ [] := by
        rintro rfl
        cases hlast
      have hpos := List.length_pos_of_ne_nil hne
      apply siftDown_isHeap node tail.length (by omega) (by omega)
      · -- the hole is the root, which has no parent
        refine ⟨?_, fun habsurd => absurd habsurd (Nat.lt_irrefl 0)⟩
        intro j hj hjlt _ _
        have hlt := parent_lt j hj
        rw [keyAt_dropLast (by rw [List.length_cons]; omega),
          keyAt_dropLast (by rw [List.length_cons]; omega)]
        exact h j hj (by rw [List.length_cons]; omega)
      · exact fun habsurd => absurd habsurd (Nat.lt_irrefl 0)

/-- The top has the greatest key. -/
theorem heapPopMax_max {rest : List (Entry τ)} {e : Entry τ} (h : IsHeap items)
    (hpop : heapPopMax items = some (e, rest)) : ∀ x ∈ items, x.key ≤ e.key := by
  intro x hx
  obtain ⟨i, hi, rfl⟩ := List.getElem_of_mem hx
  have hroot := h.le_root parent_lt hi
  rw [keyAt_of_getElem? (List.getElem?_eq_getElem hi)] at hroot
  cases items with
  | nil => cases hpop
  | cons top tail =>
    have htop : top = e := by
      rw [heapPopMax] at hpop
      cases hlast : tail.getLast? with
      | none =>
        rw [hlast] at hpop
        cases hpop
        rfl
      | some node =>
        rw [hlast] at hpop
        cases hpop
        rfl
    rwa [keyAt_of_getElem? (show (top :: tail)[0]? = some e from congrArg some htop)] at hroot

inductive Op (τ : Type*) where
  | push (e : Entry τ)
  | pop

/-- The caller of `heap_pop_max` makes sure that the heap is not empty. -/
def stepHeap (items : List (Entry τ)) : Op τ → Option (List (Entry τ))
  | .push e => some (heapPush items e)
  | .pop => (heapPopMax items).map Prod.snd

theorem isHeap_run {ops : List (Op τ)} (h : exec stepHeap [] ops = some items) : IsHeap items := by
  refine exec_invariant_of (I := IsHeap) (P := fun _ => True) ?_ (fun _ _ => trivial) isHeap_nil h
  intro items op u _ hheap hstep
  cases op with
  | push e =>
    obtain rfl := Option.some.inj hstep
    exact heapPush_isHeap hheap e
  | pop =>
    obtain ⟨⟨e, rest⟩, hpop, rfl⟩ := Option.map_eq_some_iff.mp hstep
    exact heapPopMax_isHeap hheap hpop

theorem exists_heapPopMax (h : items ≠ []) : ∃ e rest, heapPopMax items = some (e, rest) := by
  cases hpop : heapPopMax items with
  | none => exact absurd (heapPopMax_eq_none_iff.mp hpop) h
  | some r => exact ⟨r.1, r.2, rfl⟩

end Ecopy.Workers.Heap

namespace Ecopy.Workers.Scheduler
open Lib.Runs
open Heap (Entry Op IsHeap stepHeap heapPush heapPopMax)

variable {P : Pool}

/-- The key of a large file without size priority. -/
def schedKey (seq : ℕ) : ℕ := 2 ^ 64 - 1 - seq % 2 ^ 64

theorem schedKey_lt {m n : ℕ} (h : m < n) (hn : n < 2 ^ 64) : schedKey n < schedKey m := by
  unfold schedKey
  rw [Nat.mod_eq_of_lt hn, Nat.mod_eq_of_lt (h.trans hn)]
  omega

/-- What is done to the heap under the queue lock. -/
inductive HeapAct where
  | slice (ts : List Task)
  | claim

structure Dispatcher where
  largeHeap : List (Entry Task)
  enqueueSeq : ℕ
  claimed : List Task

def dispatchStep (P : Pool) (s : Dispatcher) : HeapAct → Option Dispatcher
  | .slice ts =>
    let r := distribute P ts s.largeHeap s.enqueueSeq
    some { s with largeHeap := r.1, enqueueSeq := r.2.1 }
  | .claim =>
    (heapPopMax s.largeHeap).map fun r =>
      { s with largeHeap := r.2, claimed := s.claimed ++ [r.1.task] }

/-- A queue of the large files, to compare the heap with. -/
structure Fifo where
  waiting : List Task
  claimed : List Task

def fifoStep (P : Pool) (q : Fifo) : HeapAct → Option Fifo
  | .slice ts => some { q with waiting := q.waiting ++ ts.filter (taskUsesLargePipeline P) }
  | .claim =>
    match q.waiting with
    | [] => none
    | t :: rest => some ⟨rest, q.claimed ++ [t]⟩

/-- The large files of a run, in the order of their pushes. -/
def HeapAct.pushed (P : Pool) : HeapAct → List Task
  | .slice ts => ts.filter (taskUsesLargePipeline P)
  | .claim => []

def pushes (P : Pool) (as : List HeapAct) : List Task := as.flatMap (HeapAct.pushed P)

/-- The entries of tasks pushed one after the other, from the sequence number `n` on. -/
def numbered : ℕ → List Task → List (Entry Task)
  | _, [] => []
  | n, t :: ts => ⟨schedKey n, t⟩ :: numbered (n + 1) ts

theorem numbered_concat (n : ℕ) (ts : List Task) (t : Task) :
    numbered n (ts ++ [t]) = numbered n ts ++ [⟨schedKey (n + ts.length), t⟩] := by
  induction ts generalizing n with
  | nil => rfl
  | cons x ts ih =>
    have hsum : n + 1 + ts.length = n + (ts.length + 1) := by omega
    rw [List.cons_append, numbered, ih, numbered, List.cons_append, List.length_cons, hsum]

theorem key_of_mem_numbered {n : ℕ} {ts : List Task} {e : Entry Task} (h : e ∈ numbered n ts) :
    ∃ k, n ≤ k ∧ k < n + ts.length ∧ e.key = schedKey k := by
  induction ts generalizing n with
  | nil => cases h
  | cons t ts ih =>
    rw [numbered] at h
    rw [List.length_cons]
    rcases List.mem_cons.mp h with rfl | h
    · exact ⟨n, le_refl n, by omega, rfl⟩
    · obtain ⟨k, hle, hlt, hkey⟩ := ih h
      exact ⟨k, by omega, by omega, hkey⟩

/-- The heap holds what the queue holds, numbered up to the counter. -/
structure Simulates (s : Dispatcher) (q : Fifo) : Prop where
  heap : IsHeap s.largeHeap
  claimed : s.claimed = q.claimed
  entries : ∃ n, n + q.waiting.length = s.enqueueSeq ∧ s.largeHeap.Perm (numbered n q.waiting)

/-- A slice goes behind the others. -/
theorem distribute_fifo (hprio : P.config.sizePriority = 0) (ts : List Task)
    {heap : List (Entry Task)} {n : ℕ} {waiting : List Task} (hheap : IsHeap heap)
    (hperm : heap.Perm (numbered n waiting)) :
    IsHeap (distribute P ts heap (n + waiting.length)).1 ∧
      (distribute P ts heap (n + waiting.length)).2.1 =
        n + (waiting ++ ts.filter (taskUsesLargePipeline P)).length ∧
      (distribute P ts heap (n + waiting.length)).1.Perm
        (numbered n (waiting ++ ts.filter (taskUsesLargePipeline P))) := by
  induction ts generalizing heap waiting with
  | nil =>
    rw [List.filter_nil, List.append_nil]
    exact ⟨hheap, rfl, hperm⟩
  | cons t ts ih =>
    rw [distribute]
    cases hlarge : taskUsesLargePipeline P t with
    | false =>
      rw [if_neg Bool.false_ne_true, List.filter_cons_of_neg (by rw [hlarge]; decide)]
      exact ih hheap hperm
    | true =>
      have hpush := Heap.heapPush_isHeap hheap ⟨schedKey (n + waiting.length), t⟩
      have hentries : (heapPush heap ⟨schedKey (n + waiting.length), t⟩).Perm
          (numbered n (waiting ++ [t])) := by
        rw [numbered_concat]
        exact (Heap.perm_heapPush heap _).trans
          ((hperm.cons _).trans (List.perm_append_singleton _ _).symm)
      have hnext := ih hpush hentries
      rw [List.append_assoc, List.singleton_append, List.length_append,
        List.length_singleton] at hnext
      rw [if_pos rfl, if_neg (not_not.mpr hprio), List.filter_cons_of_pos hlarge]
      exact hnext

/-- The top of the heap is the head of the queue. -/
theorem heapPopMax_fifo {heap : List (Entry Task)} {n : ℕ} {t : Task} {waiting : List Task}
    (hheap : IsHeap heap) (hperm : heap.Perm (numbered n (t :: waiting)))
    (hfew : n + waiting.length < 2 ^ 64) :
    ∃ rest, heapPopMax heap = some (⟨schedKey n, t⟩, rest) ∧ IsHeap rest ∧
      rest.Perm (numbered (n + 1) waiting) := by
  have hne : heap ≠ [] := by
    rintro rfl
    exact absurd hperm.symm.eq_nil (List.cons_ne_nil _ _)
  obtain ⟨e, rest, hpop⟩ := Heap.exists_heapPopMax hne
  have htop : e = ⟨schedKey n, t⟩ := by
    have hmem : e ∈ numbered n (t :: waiting) :=
      hperm.mem_iff.mp ((Heap.perm_heapPopMax hpop).mem_iff.mpr List.mem_cons_self)
    have hfirst : (⟨schedKey n, t⟩ : Entry Task) ∈ heap := hperm.mem_iff.mpr List.mem_cons_self
    have hmax := Heap.heapPopMax_max hheap hpop _ hfirst
    rcases List.mem_cons.mp hmem with heq | hlater
    · exact heq
    · -- a later one has a smaller key
      obtain ⟨k, hle, hlt, hkey⟩ := key_of_mem_numbered hlater
      have hsmaller := schedKey_lt (show n < k by omega) (show k < 2 ^ 64 by omega)
      dsimp only at hmax
      omega
  subst htop
  exact ⟨rest, hpop, Heap.heapPopMax_isHeap hheap hpop,
    ((Heap.perm_heapPopMax hpop).symm.trans hperm).cons_inv⟩

/-- With fewer than `2 ^ 64` files the dispatcher and the queue hand out the same files. -/
theorem dispatch_fifo (hprio : P.config.sizePriority = 0) {s : Dispatcher} {q : Fifo}
    (h : Simulates s q) {as : List HeapAct}
    (hfew : s.enqueueSeq + (pushes P as).length < 2 ^ 64) :
    (exec (dispatchStep P) s as).map Dispatcher.claimed = (exec (fifoStep P) q as).map Fifo.claimed := by
  induction as generalizing s q with
  | nil => exact congrArg some h.claimed
  | cons a as ih =>
    obtain ⟨n, hseq, hperm⟩ := h.entries
    rw [pushes, List.flatMap_cons, List.length_append] at hfew
    rw [exec, exec]
    cases a with
    | slice ts =>
      obtain ⟨hheap, hcount, hentries⟩ := distribute_fifo hprio ts h.heap hperm
      rw [hseq] at hheap hcount hentries
      rw [List.length_append, ← Nat.add_assoc, hseq] at hcount
      refine ih ⟨hheap, h.claimed, n, ?_, hentries⟩ ?_
      · rw [List.length_append, ← Nat.add_assoc, hseq]
        exact hcount.symm
      · show (distribute P ts s.largeHeap s.enqueueSeq).2.1 + _ < _
        rw [hcount]
        exact (Nat.add_assoc _ _ _).trans_lt hfew
    | claim =>
      cases hwaiting : q.waiting with
      | nil =>
        rw [hwaiting] at hperm
        have hnil : s.largeHeap = [] := hperm.eq_nil
        have hpop : dispatchStep P s .claim = none := by
          rw [dispatchStep, hnil]
          rfl
        have hclaim : fifoStep P q .claim = none := by rw [fifoStep, hwaiting]
        rw [hpop, hclaim]
        rfl
      | cons t waiting =>
        rw [hwaiting] at hperm hseq
        rw [List.length_cons] at hseq
        obtain ⟨rest, hpop, hheap, hentries⟩ := heapPopMax_fifo h.heap hperm (by omega)
        have hstep : dispatchStep P s .claim =
            some { s with largeHeap := rest, claimed := s.claimed ++ [t] } := by
          rw [dispatchStep, hpop]
          rfl
        have hclaim : fifoStep P q .claim = some ⟨waiting, q.claimed ++ [t]⟩ := by
          rw [fifoStep, hwaiting]
        rw [hstep, hclaim]
        refine ih ⟨hheap, by rw [h.claimed], n + 1, ?_, hentries⟩ ?_
        · show n + 1 + waiting.length = s.enqueueSeq
          omega
        · exact lt_of_le_of_lt (Nat.add_le_add_left (Nat.le_add_left _ _) _) hfew

/-- The dispatch heap is a priority queue in every run, and a queue where the keys count the
files. -/
theorem heap_priority_queue {τ : Type*} :
    (∀ (ops : List (Op τ)) (items : List (Entry τ)), exec stepHeap [] ops = some items →
      IsHeap items ∧
        (∀ e, IsHeap (heapPush items e) ∧ (heapPush items e).Perm (e :: items)) ∧
        (items ≠ [] → ∃ e rest, heapPopMax items = some (e, rest) ∧ IsHeap rest ∧
          items.Perm (e :: rest) ∧ ∀ x ∈ items, x.key ≤ e.key)) ∧
      ∀ (P : Pool) (as : List HeapAct), P.config.sizePriority = 0 → (pushes P as).length < 2 ^ 64 →
        (exec (dispatchStep P) ⟨[], 0, []⟩ as).map Dispatcher.claimed =
          (exec (fifoStep P) ⟨[], []⟩ as).map Fifo.claimed := by
  constructor
  · intro ops items hrun
    have hheap := Heap.isHeap_run hrun
    refine ⟨hheap, fun e => ⟨Heap.heapPush_isHeap hheap e, Heap.perm_heapPush items e⟩, ?_⟩
    intro hne
    obtain ⟨e, rest, hpop⟩ := Heap.exists_heapPopMax hne
    exact ⟨e, rest, hpop, Heap.heapPopMax_isHeap hheap hpop, Heap.perm_heapPopMax hpop,
      Heap.heapPopMax_max hheap hpop⟩
  · intro P as hprio hfew
    apply dispatch_fifo hprio
    · exact ⟨Heap.isHeap_nil, rfl, 0, rfl, List.Perm.refl _⟩
    · show 0 + (pushes P as).length < 2 ^ 64
      omega

/-- A pool without size priority. -/
def inSequence : Pool where
  config := Config.initRuntimeConfig fun
    | .sizePriority => .int 0
    | _ => .unset
  remote := false
  producers := 1

theorem heap_priority_queue_in_sequence :
    let first : Task := ⟨0, 2 ^ 30, 2 ^ 21, false⟩
    let second : Task := ⟨1, 2 ^ 40, 2 ^ 31, false⟩
    let third : Task := ⟨2, 2 ^ 35, 2 ^ 26, false⟩
    (exec (dispatchStep inSequence) ⟨[], 0, []⟩
      [.slice [first, second], .claim, .slice [third], .claim, .claim]).map Dispatcher.claimed =
        some [first, second, third] :=
  ((@heap_priority_queue Task).2 inSequence _ (by decide) (by decide)).trans (by decide)

end Ecopy.Workers.Scheduler
