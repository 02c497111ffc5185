import Mathlib.Algebra.BigOperators.Group.Finset.Piecewise
import Mathlib.Algebra.Order.BigOperators.Group.Finset
import Mathlib.Data.Fintype.BigOperators
import Mathlib.Data.Finset.Card

/-!
# Tables of threads and the wait set of a condition variable

A pool of threads is a function from thread identities to local states. Totals
over the pool (how many threads are in a given state, how many resources they
hold) change by one term when one thread moves; `total_update` is that fact and
every counting argument over the pool goes through it.

A condition variable is the set of threads parked on it. A broadcast empties
the set. A signal removes one thread of the set, and none exactly when the set
is empty; which thread it removes is a choice of the scheduler.
-/
namespace Ecopy.Lib.Threads
open Finset
variable {ι β : Type*} [Fintype ι] [DecidableEq ι]

/-- Sum of a per-thread quantity over the whole pool. -/
def total (g : β → ℕ) (f : ι → β) : ℕ := ∑ i, g (f i)

theorem total_update (g : β → ℕ) (f : ι → β) (i : ι) (x : β) :
    total g (Function.update f i x) + g (f i) = total g f + g x := by
  unfold total
  rw [← Finset.add_sum_erase _ _ (mem_univ i), ← Finset.add_sum_erase univ (fun j => g (f j)) (mem_univ i)]
  have h : ∑ j ∈ univ.erase i, g (Function.update f i x j) = ∑ j ∈ univ.erase i, g (f j) := by
    refine Finset.sum_congr rfl fun j hj => ?_
    rw [Function.update_of_ne (Finset.ne_of_mem_erase hj)]
  rw [h, Function.update_self]
  omega

/-- When thread `i` moves, what the others contribute to a sum stays. -/
theorem exists_rest {M : Type*} [AddCommMonoid M] (g : β → M) (f : ι → β) (i : ι) :
    ∃ rest, ∑ j, g (f j) = g (f i) + rest ∧
      ∀ x, ∑ j, g (Function.update f i x j) = g x + rest := by
  refine ⟨∑ j ∈ univ.erase i, g (f j), (Finset.add_sum_erase _ _ (mem_univ i)).symm, fun x => ?_⟩
  rw [← Finset.add_sum_erase _ _ (mem_univ i), Function.update_self]
  refine congrArg (g x + ·) (Finset.sum_congr rfl fun j hj => ?_)
  rw [Function.update_of_ne (Finset.ne_of_mem_erase hj)]

theorem add_le_total (g : β → ℕ) (f : ι → β) {i j : ι} (h : i ≠ j) :
    g (f i) + g (f j) ≤ total g f := by
  unfold total
  rw [← Finset.add_sum_erase _ _ (mem_univ i)]
  have hj : j ∈ univ.erase i := Finset.mem_erase.mpr ⟨h.symm, mem_univ j⟩
  exact Nat.add_le_add_left
    (Finset.single_le_sum (f := fun k => g (f k)) (fun _ _ => Nat.zero_le _) hj) _

variable {f : ι → β}

omit [DecidableEq ι] in
theorem exists_pos_of_total_pos {g : β → ℕ} (h : 0 < total g f) : ∃ i, 0 < g (f i) := by
  obtain ⟨i, -, hi⟩ := Finset.exists_ne_zero_of_sum_ne_zero (Nat.ne_of_gt h)
  exact ⟨i, Nat.pos_of_ne_zero hi⟩

/-- Number of threads whose local state satisfies `p`. -/
def count (p : β → Bool) (f : ι → β) : ℕ := total (fun b => (p b).toNat) f

theorem count_update (p : β → Bool) (f : ι → β) (i : ι) (x : β) :
    count p (Function.update f i x) + (p (f i)).toNat = count p f + (p x).toNat :=
  total_update _ f i x

omit [DecidableEq ι] in
theorem total_eq_zero_iff {g : β → ℕ} : total g f = 0 ↔ ∀ i, g (f i) = 0 := by
  simp [total]

omit [DecidableEq ι] in
theorem count_eq_zero_iff {p : β → Bool} : count p f = 0 ↔ ∀ i, p (f i) = false := by
  rw [count, total_eq_zero_iff]
  exact forall_congr' fun i => by cases p (f i) <;> simp

omit [DecidableEq ι] in
theorem count_pos_iff {p : β → Bool} : 0 < count p f ↔ ∃ i, p (f i) = true := by
  rw [Nat.pos_iff_ne_zero, ne_eq, count_eq_zero_iff]
  simp

omit [DecidableEq ι] in
theorem count_le_card (p : β → Bool) (f : ι → β) : count p f ≤ Fintype.card ι := by
  unfold count total
  calc ∑ i, (p (f i)).toNat ≤ ∑ _i : ι, 1 := Finset.sum_le_sum fun i _ => Bool.toNat_le _
    _ = Fintype.card ι := by simp

omit [DecidableEq ι] in
theorem count_mono {p q : β → Bool} (h : ∀ i, p (f i) = true → q (f i) = true) :
    count p f ≤ count q f := by
  refine Finset.sum_le_sum fun i _ => ?_
  have hi := h i
  dsimp only
  cases hp : p (f i) with
  | false => exact Nat.zero_le _
  | true => rw [hi hp]

omit [DecidableEq ι] in
theorem toNat_le_count (p : β → Bool) (f : ι → β) (i : ι) : (p (f i)).toNat ≤ count p f :=
  Finset.single_le_sum (f := fun j => (p (f j)).toNat) (fun _ _ => Nat.zero_le _) (mem_univ i)

section WaitSet
variable [DecidableEq β] (parked woken : β)

/-- A signal hands the wake to one parked thread of the scheduler's choice.
Choosing nobody is legal only when nobody is parked. -/
def signal (f : ι → β) : Option ι → Option (ι → β)
  | some i => if f i = parked then some (Function.update f i woken) else none
  | none => if ∀ i, f i ≠ parked then some f else none

def broadcast (f : ι → β) : ι → β := fun i => if f i = parked then woken else f i

variable {parked woken} {f f' : ι → β} {w : Option ι}

theorem signal_cases (h : signal parked woken f w = some f') :
    (∃ i, w = some i ∧ f i = parked ∧ f' = Function.update f i woken) ∨
      (w = none ∧ (∀ i, f i ≠ parked) ∧ f' = f) := by
  cases w with
  | none =>
    simp only [signal, Option.ite_none_right_eq_some, Option.some.injEq] at h
    exact Or.inr ⟨rfl, h.1, h.2.symm⟩
  | some i =>
    simp only [signal, Option.ite_none_right_eq_some, Option.some.injEq] at h
    exact Or.inl ⟨i, rfl, h.1, h.2.symm⟩

theorem signal_apply (h : signal parked woken f w = some f') (i : ι) :
    f' i = f i ∨ f i = parked ∧ f' i = woken := by
  obtain ⟨j, -, hj, rfl⟩ | ⟨-, -, rfl⟩ := signal_cases h
  · by_cases hij : i = j
    · subst hij
      exact Or.inr ⟨hj, Function.update_self ..⟩
    · exact Or.inl (Function.update_of_ne hij ..)
  · exact Or.inl rfl

theorem total_signal {g : β → ℕ} (hg : g woken = g parked)
    (h : signal parked woken f w = some f') : total g f' = total g f := by
  obtain ⟨j, -, hj, rfl⟩ | ⟨-, -, rfl⟩ := signal_cases h
  · have hu := total_update g f j woken
    rw [hj, hg] at hu
    omega
  · rfl

/-- The wake is never lost: a signal lowers the number of parked threads by
one unless there is none. -/
theorem count_parked_signal (hne : woken ≠ parked) (h : signal parked woken f w = some f') :
    count (fun b => decide (b = parked)) f' =
      count (fun b => decide (b = parked)) f - 1 := by
  obtain ⟨j, -, hj, rfl⟩ | ⟨-, hn, rfl⟩ := signal_cases h
  · have hu := count_update (fun b => decide (b = parked)) f j woken
    simp only [hj, hne, decide_true, decide_false, Bool.toNat_true, Bool.toNat_false] at hu
    omega
  · have hz : count (fun b => decide (b = parked)) f' = 0 :=
      count_eq_zero_iff.mpr fun i => by simp [hn i]
    omega

variable (parked woken) in
/-- Several signals in a row, one choice for each. -/
def signals (f : ι → β) : List (Option ι) → Option (ι → β)
  | [] => some f
  | w :: ws => (signal parked woken f w).bind fun g => signals g ws

theorem signals_apply {ws : List (Option ι)} {f f' : ι → β}
    (h : signals parked woken f ws = some f') (i : ι) :
    f' i = f i ∨ f i = parked ∧ f' i = woken := by
  induction ws generalizing f with
  | nil =>
    cases h
    exact Or.inl rfl
  | cons w ws ih =>
    obtain ⟨g, hg, hgs⟩ := Option.bind_eq_some_iff.mp h
    obtain hi | ⟨hp, hi⟩ := signal_apply hg i
    · rw [← hi]
      exact ih hgs
    · obtain hj | ⟨hwp, hj⟩ := ih hgs
      · exact Or.inr ⟨hp, hj.trans hi⟩
      · exact Or.inr ⟨hp, hj⟩

theorem total_signals {g : β → ℕ} (hg : g woken = g parked) {ws : List (Option ι)} {f f' : ι → β}
    (h : signals parked woken f ws = some f') : total g f' = total g f := by
  induction ws generalizing f with
  | nil =>
    cases h
    rfl
  | cons w ws ih =>
    obtain ⟨e, he, hes⟩ := Option.bind_eq_some_iff.mp h
    exact (ih hes).trans (total_signal hg he)

/-- At least one signal with somebody parked wakes somebody. -/
theorem signals_exists_awake {ws : List (Option ι)} {f f' : ι → β}
    (h : signals parked woken f ws = some f') (hne : woken ≠ parked) (hws : ws ≠ []) {i : ι}
    (hi : f i = parked) : ∃ j, f j = parked ∧ f' j = woken := by
  obtain ⟨w, ws, rfl⟩ := List.exists_cons_of_ne_nil hws
  obtain ⟨g, hg, hgs⟩ := Option.bind_eq_some_iff.mp h
  obtain ⟨j, -, hj, rfl⟩ | ⟨-, hn, -⟩ := signal_cases hg
  · refine ⟨j, hj, ?_⟩
    obtain hk | ⟨hk, -⟩ := signals_apply hgs j
    · exact hk.trans (Function.update_self ..)
    · exact absurd ((Function.update_self ..).symm.trans hk) hne
  · exact absurd hi (hn i)

variable (parked woken) in
/-- There is always somebody, or rightly nobody, to hand each wake to. -/
theorem exists_signals (n : ℕ) (f : ι → β) :
    ∃ ws f', ws.length = n ∧ signals parked woken f ws = some f' := by
  induction n generalizing f with
  | zero => exact ⟨[], f, rfl, rfl⟩
  | succ n ih =>
    obtain ⟨w, g, hg⟩ : ∃ w g, signal parked woken f w = some g := by
      by_cases h : ∃ i, f i = parked
      · obtain ⟨i, hi⟩ := h
        exact ⟨some i, _, if_pos hi⟩
      · exact ⟨none, f, if_pos (not_exists.mp h)⟩
    obtain ⟨ws, f', hlen, hws⟩ := ih g
    refine ⟨w :: ws, f', by simp [hlen], ?_⟩
    simp [signals, hg, hws]

variable (parked woken) in
omit [Fintype ι] [DecidableEq ι] in
theorem broadcast_apply (f : ι → β) (i : ι) :
    broadcast parked woken f i = f i ∨ f i = parked ∧ broadcast parked woken f i = woken := by
  unfold broadcast
  split_ifs with h
  · exact Or.inr ⟨h, rfl⟩
  · exact Or.inl rfl

variable (parked woken) in
/-- `f'` is `f` after a signal that its sender leaves out when it counts no
waiters. -/
def Signalled (waiters : ℕ) (f f' : ι → β) : Prop :=
  (waiters = 0 ∧ f' = f) ∨ ∃ w, signal parked woken f w = some f'

theorem Signalled.apply {n : ℕ} (h : Signalled parked woken n f f') (i : ι) :
    f' i = f i ∨ f i = parked ∧ f' i = woken := by
  obtain ⟨-, rfl⟩ | ⟨w, hw⟩ := h
  · exact Or.inl rfl
  · exact signal_apply hw i

theorem Signalled.total_eq {n : ℕ} {g : β → ℕ} (h : Signalled parked woken n f f')
    (hg : g woken = g parked) : total g f' = total g f := by
  obtain ⟨-, rfl⟩ | ⟨w, hw⟩ := h
  · rfl
  · exact total_signal hg hw

/-- A waiter count that covers the parked threads loses no wake. -/
theorem Signalled.count_parked {n : ℕ} (h : Signalled parked woken n f f') (hne : woken ≠ parked)
    (hn : count (fun b => decide (b = parked)) f ≤ n) :
    count (fun b => decide (b = parked)) f' =
      count (fun b => decide (b = parked)) f - 1 := by
  obtain ⟨h0, rfl⟩ | ⟨w, hw⟩ := h
  · omega
  · exact count_parked_signal hne hw

/-- After such a signal some thread is awake, provided one was not parked or
the parked ones were counted. -/
theorem Signalled.exists_awake {n : ℕ} (h : Signalled parked woken n f f') (hne : woken ≠ parked)
    (hn : count (fun b => decide (b = parked)) f ≤ n) {i : ι} (hi : f i = parked) :
    ∃ j, f j = parked ∧ f' j = woken := by
  have hpos : 0 < count (fun b => decide (b = parked)) f :=
    count_pos_iff.mpr ⟨i, by simp [hi]⟩
  have hlt := h.count_parked hne hn
  by_contra hcon
  have hsame : f' = f := by
    funext j
    obtain hj | hj := h.apply j
    · exact hj
    · exact absurd ⟨j, hj⟩ hcon
  rw [hsame] at hlt
  omega

omit [Fintype ι] [DecidableEq ι] in
theorem broadcast_ne_parked (hne : woken ≠ parked) (f : ι → β) (i : ι) :
    broadcast parked woken f i ≠ parked := by
  unfold broadcast
  split_ifs with h
  · exact hne
  · exact h

variable (parked woken) in
omit [DecidableEq ι] in
theorem total_broadcast {g : β → ℕ} (hg : g woken = g parked) (f : ι → β) :
    total g (broadcast parked woken f) = total g f := by
  unfold total
  refine Finset.sum_congr rfl fun i _ => ?_
  obtain h | ⟨h, h'⟩ := broadcast_apply parked woken f i
  · rw [h]
  · rw [h', h, hg]

end WaitSet

end Ecopy.Lib.Threads
