import Mathlib.Logic.Function.Basic
import Mathlib.Order.Basic
import Mathlib.Order.Lattice
import Mathlib.Tactic.Common

/-!
# Heaps with a hole

The nodes of a heap are the numbers below `n`, the parent of a node comes before it, and each
node's key is at most its parent's. What is at the node `hole` does not count while a new key
is on its way through the heap: an ancestor's key moves down into the hole, or the greatest
child's key moves up, until the new key can be placed.

The numbering is arbitrary, so that the arity of the tree does not matter.
-/
namespace Ecopy.Lib.HeapOrder
variable {κ : Type*} [LinearOrder κ] {parent : ℕ → ℕ} {n : ℕ} {key : ℕ → κ} {hole : ℕ} {x : κ}

variable (parent) in
def Ordered (n : ℕ) (key : ℕ → κ) : Prop := ∀ i, 0 < i → i < n → key i ≤ key (parent i)

theorem Ordered.le_root (hparent : ∀ i, 0 < i → parent i < i) (h : Ordered parent n key) {i : ℕ}
    (hi : i < n) : key i ≤ key 0 := by
  induction i using Nat.strongRecOn with
  | ind i ih =>
    rcases Nat.eq_zero_or_pos i with rfl | hpos
    · exact le_refl _
    · have hlt := hparent i hpos
      exact (h i hpos hi).trans (ih (parent i) hlt (hlt.trans hi))

variable (parent n key hole) in
/-- The edges that do not touch the hole are in order, and those that would remain if the hole
were left out. -/
structure Holed : Prop where
  off : ∀ i, 0 < i → i < n → i ≠ hole → parent i ≠ hole → key i ≤ key (parent i)
  past : 0 < hole → ∀ i, 0 < i → i < n → parent i = hole → key i ≤ key (parent hole)

/-- The new key is in order with the neighbours of the hole. -/
theorem Holed.place (hparent : ∀ i, 0 < i → parent i < i) (h : Holed parent n key hole)
    (habove : 0 < hole → x ≤ key (parent hole))
    (hbelow : ∀ i, 0 < i → i < n → parent i = hole → key i ≤ x) :
    Ordered parent n (Function.update key hole x) := by
  intro i hpos hi
  have hlt := hparent i hpos
  by_cases hhole : i = hole
  · subst hhole
    rw [Function.update_self, Function.update_of_ne hlt.ne]
    exact habove hpos
  · rw [Function.update_of_ne hhole]
    by_cases hup : parent i = hole
    · rw [hup, Function.update_self]
      exact hbelow i hpos hi hup
    · rw [Function.update_of_ne hup]
      exact h.off i hpos hi hhole hup

/-- The key above the hole moves down into it. -/
theorem Holed.up (hparent : ∀ i, 0 < i → parent i < i) (h : Holed parent n key hole)
    (hpos : 0 < hole) (hhole : hole < n) :
    Holed parent n (Function.update key hole (key (parent hole))) (parent hole) := by
  have hlt := hparent hole hpos
  -- the children of the old hole and of the new one are below the new hole's parent
  have hchild : ∀ i, 0 < i → i < n → i ≠ hole → parent i = parent hole →
      key i ≤ key (parent hole) := by
    intro i hi hin hne hup
    rw [← hup]
    exact h.off i hi hin hne (by omega)
  refine ⟨?_, ?_⟩
  · intro i hi hin hne hup
    by_cases hhere : i = hole
    · exact absurd (congrArg parent hhere) hup
    rw [Function.update_of_ne hhere]
    by_cases hunder : parent i = hole
    · rw [hunder, Function.update_self]
      exact h.past hpos i hi hin hunder
    · rw [Function.update_of_ne hunder]
      exact h.off i hi hin hhere hunder
  · intro hup i hi hin heq
    have hgrand := hparent (parent hole) hup
    have htop : key (parent hole) ≤ key (parent (parent hole)) :=
      h.off (parent hole) hup (by omega) hlt.ne (by omega)
    rw [Function.update_of_ne (a := parent (parent hole)) (by omega)]
    by_cases hhere : i = hole
    · rw [hhere, Function.update_self]
      exact htop
    · rw [Function.update_of_ne hhere]
      exact (hchild i hi hin hhere heq).trans htop

/-- What moved down is below the new key, and so is everything below the hole then. -/
theorem Holed.below_up (hparent : ∀ i, 0 < i → parent i < i) (h : Holed parent n key hole)
    (hpos : 0 < hole) (hx : key (parent hole) ≤ x) :
    ∀ i, 0 < i → i < n → parent i = parent hole →
      Function.update key hole (key (parent hole)) i ≤ x := by
  intro i hi hin heq
  by_cases hhere : i = hole
  · rw [hhere, Function.update_self]
    exact hx
  · have hlt := hparent hole hpos
    rw [Function.update_of_ne hhere]
    exact (heq ▸ h.off i hi hin hhere (by omega)).trans hx

/-- The greatest key below the hole moves up into it. -/
theorem Holed.down (hparent : ∀ i, 0 < i → parent i < i) (h : Holed parent n key hole) {child : ℕ}
    (hpos : 0 < child) (hchild : child < n) (hup : parent child = hole)
    (hgreatest : ∀ i, 0 < i → i < n → parent i = hole → key i ≤ key child) :
    Holed parent n (Function.update key hole (key child)) child := by
  have hlt := hparent child hpos
  refine ⟨?_, ?_⟩
  · intro i hi hin hne hunder
    by_cases hhere : i = hole
    · subst hhere
      rw [Function.update_self, Function.update_of_ne (hparent i hi).ne]
      exact h.past hi child hpos hchild hup
    · rw [Function.update_of_ne hhere]
      by_cases hbelow : parent i = hole
      · rw [hbelow, Function.update_self]
        exact hgreatest i hi hin hbelow
      · rw [Function.update_of_ne hbelow]
        exact h.off i hi hin hhere hbelow
  · intro _ i hi hin heq
    have hdeep := hparent i hi
    rw [hup, Function.update_self, Function.update_of_ne (by omega), ← heq]
    exact h.off i hi hin (by omega) (by omega)

end Ecopy.Lib.HeapOrder
