import Mathlib.Algebra.Order.Group.Multiset
import Mathlib.Data.List.Basic
import Mathlib.Tactic.Abel
import Mathlib.Tactic.Common

/-!
# The dispatch heap of large files

`heap_push` and `heap_pop_max` work on an array in which the children of node
`i` are the nodes `4 i + 1` to `4 i + 4`. Both loops move a hole instead of
swapping entries; the functions below do the same on a list used as an array.
The recursion argument bounds the number of iterations and is given the length
of the array, which both loops respect since their index is strictly monotone.
-/
namespace Ecopy.Workers.Heap
variable {τ : Type*}

def heapArity : ℕ := 4

structure Entry (τ : Type*) where
  key : ℕ
  task : τ
deriving DecidableEq, Repr

/-- The hole at `i` moves up until the parent's key is at least the new one. -/
def siftUp (e : Entry τ) : ℕ → List (Entry τ) → ℕ → List (Entry τ)
  | 0, items, i => items.set i e
  | fuel + 1, items, i =>
    if i = 0 then items.set i e
    else
      match items[(i - 1) / heapArity]? with
      | none => items.set i e
      | some parent =>
        if parent.key ≥ e.key then items.set i e
        else siftUp e fuel (items.set i parent) ((i - 1) / heapArity)

def heapPush (items : List (Entry τ)) (e : Entry τ) : List (Entry τ) :=
  siftUp e items.length (items ++ [e]) items.length

/-- The inner loop over the children from `child` on: position and key of the
best one so far. -/
def bestChild (items : List (Entry τ)) : ℕ → ℕ → ℕ × ℕ → ℕ × ℕ
  | 0, _, best => best
  | n + 1, child, best =>
    match items[child]? with
    | none => best
    | some c => bestChild items n (child + 1) (if c.key > best.2 then (child, c.key) else best)

def siftDown (e : Entry τ) : ℕ → List (Entry τ) → ℕ → List (Entry τ)
  | 0, items, i => items.set i e
  | fuel + 1, items, i =>
    let best := (bestChild items heapArity (heapArity * i + 1) (i, e.key)).1
    if best = i then items.set i e
    else
      match items[best]? with
      | none => items.set i e
      | some c => siftDown e fuel (items.set i c) best

/-- The top entry and the remaining heap. -/
def heapPopMax : List (Entry τ) → Option (Entry τ × List (Entry τ))
  | [] => none
  | top :: rest =>
    match rest.getLast? with
    | none => some (top, [])
    | some node => some (top, siftDown node rest.length ((top :: rest).dropLast) 0)

@[simp] theorem length_siftUp (e : Entry τ) (fuel : ℕ) (items : List (Entry τ)) (i : ℕ) :
    (siftUp e fuel items i).length = items.length := by
  induction fuel generalizing items i with
  | zero => simp [siftUp]
  | succ fuel ih =>
    unfold siftUp
    split_ifs
    · simp
    · split
      · simp
      · split_ifs
        · simp
        · rw [ih, List.length_set]

@[simp] theorem length_siftDown (e : Entry τ) (fuel : ℕ) (items : List (Entry τ)) (i : ℕ) :
    (siftDown e fuel items i).length = items.length := by
  induction fuel generalizing items i with
  | zero => simp [siftDown]
  | succ fuel ih =>
    unfold siftDown
    dsimp only
    split_ifs
    · simp
    · split
      · simp
      · rw [ih, List.length_set]

@[simp] theorem length_heapPush (items : List (Entry τ)) (e : Entry τ) :
    (heapPush items e).length = items.length + 1 := by
  simp [heapPush]

theorem heapPopMax_eq_none_iff {items : List (Entry τ)} : heapPopMax items = none ↔ items = [] := by
  cases items with
  | nil => simp [heapPopMax]
  | cons top rest =>
    simp only [heapPopMax]
    split <;> simp

theorem length_heapPopMax {items rest : List (Entry τ)} {e : Entry τ}
    (h : heapPopMax items = some (e, rest)) : items.length = rest.length + 1 := by
  cases items with
  | nil => simp [heapPopMax] at h
  | cons top tail =>
    simp only [heapPopMax] at h
    split at h
    next hlast =>
        cases h
        simpa using hlast
    next node hlast =>
        cases h
        simp

theorem coe_set (items : List τ) (i : ℕ) (x : τ) (h : i < items.length) :
    ((items.set i x : List τ) : Multiset τ) + {items[i]} = (items : Multiset τ) + {x} := by
  induction items generalizing i with
  | nil => exact absurd h (Nat.not_lt_zero i)
  | cons y items ih =>
    cases i with
    | zero =>
      change ((x :: items : List τ) : Multiset τ) + {y} = ((y :: items : List τ) : Multiset τ) + {x}
      rw [← Multiset.cons_coe, ← Multiset.cons_coe, ← Multiset.singleton_add,
        ← Multiset.singleton_add]
      abel
    | succ i =>
      have hi := ih i (Nat.lt_of_succ_lt_succ h)
      rw [List.set_cons_succ, ← Multiset.cons_coe, ← Multiset.cons_coe, Multiset.cons_add,
        Multiset.cons_add]
      exact congrArg (y ::ₘ ·) hi

/-- Moving the hole from `i` to `p` leaves the entries as they were. -/
theorem coe_move_hole {items : List τ} {i p : ℕ} {x : τ} (hi : i < items.length)
    (hp : items[p]? = some x) (hne : i ≠ p) (e : τ) :
    (((items.set i x).set p e : List τ) : Multiset τ) = (items.set i e : List τ) := by
  obtain ⟨hlt, hx⟩ := List.getElem?_eq_some_iff.mp hp
  have hlt' : p < (items.set i x).length := by
    rw [List.length_set]
    exact hlt
  have hat : (items.set i x)[p] = x := by
    rw [List.getElem_set_ne hne, hx]
  have hsecond := coe_set (items.set i x) p e hlt'
  have hfirst := coe_set items i x hi
  have hboth := coe_set items i e hi
  rw [hat] at hsecond
  apply add_right_cancel (b := ({x} : Multiset τ))
  apply add_right_cancel (b := ({items[i]} : Multiset τ))
  calc _ = (items.set i x : Multiset τ) + {e} + {items[i]} := by rw [hsecond]
    _ = (items.set i x : Multiset τ) + {items[i]} + {e} := add_right_comm _ _ _
    _ = (items : Multiset τ) + {x} + {e} := by rw [hfirst]
    _ = (items : Multiset τ) + {e} + {x} := add_right_comm _ _ _
    _ = (items.set i e : Multiset τ) + {items[i]} + {x} := by rw [hboth]
    _ = (items.set i e : Multiset τ) + {x} + {items[i]} := add_right_comm _ _ _

theorem coe_siftUp (e : Entry τ) (fuel : ℕ) {items : List (Entry τ)} {i : ℕ}
    (hi : i < items.length) :
    (siftUp e fuel items i : Multiset (Entry τ)) = (items.set i e : List (Entry τ)) := by
  induction fuel generalizing items i with
  | zero => rfl
  | succ fuel ih =>
    unfold siftUp
    split_ifs with hzero
    · rfl
    · split
      · rfl
      next parent hparent =>
        split_ifs
        · rfl
        · have hlt : (i - 1) / heapArity < i :=
            lt_of_le_of_lt (Nat.div_le_self _ _) (by omega)
          rw [ih (by rw [List.length_set]; omega), coe_move_hole hi hparent (by omega)]

theorem coe_siftDown (e : Entry τ) (fuel : ℕ) {items : List (Entry τ)} {i : ℕ}
    (hi : i < items.length) :
    (siftDown e fuel items i : Multiset (Entry τ)) = (items.set i e : List (Entry τ)) := by
  induction fuel generalizing items i with
  | zero => rfl
  | succ fuel ih =>
    unfold siftDown
    dsimp only
    split_ifs with hbest
    · rfl
    · split
      · rfl
      next c hc =>
        have hlt := (List.getElem?_eq_some_iff.mp hc).1
        rw [ih (by rwa [List.length_set]), coe_move_hole hi hc (Ne.symm hbest)]

theorem perm_heapPush (items : List (Entry τ)) (e : Entry τ) :
    (heapPush items e).Perm (e :: items) := by
  apply Multiset.coe_eq_coe.mp
  rw [heapPush, coe_siftUp e _ (by simp), List.set_append_right _ _ le_rfl, Nat.sub_self]
  exact Multiset.coe_eq_coe.mpr (List.perm_append_singleton e items)

theorem perm_heapPopMax {items rest : List (Entry τ)} {e : Entry τ}
    (h : heapPopMax items = some (e, rest)) : items.Perm (e :: rest) := by
  cases items with
  | nil => simp [heapPopMax] at h
  | cons top tail =>
    simp only [heapPopMax] at h
    split at h
    next hlast =>
        cases h
        rw [List.getLast?_eq_none_iff.mp hlast]
    next node hlast =>
        cases h
        apply List.Perm.cons
        apply Multiset.coe_eq_coe.mp
        obtain ⟨init, rfl⟩ := List.getLast?_eq_some_iff.mp hlast
        rw [coe_siftDown _ _ (by simp)]
        rw [← List.cons_append, List.dropLast_concat, List.set_cons_zero]
        exact Multiset.coe_eq_coe.mpr (List.perm_append_singleton node init)

end Ecopy.Workers.Heap
