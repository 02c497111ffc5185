import Mathlib.Data.List.Nodup
import Mathlib.Data.List.Perm.Subperm
import Mathlib.Data.Nat.ModEq
import Mathlib.Tactic.Common

/-!
# Odd multiples modulo a power of two

`j ↦ a * j + b` modulo `2 ^ k` permutes the numbers below `2 ^ k` when `a` is odd. So a walk
over all `j` meets every number once, and a walk that skips the numbers outside a set meets
as many as the set has.
-/
namespace Ecopy.Lib.Affine

def affine (a b k j : ℕ) : ℕ := (a * j + b) % 2 ^ k

variable {a b k : ℕ}

theorem affine_lt (j : ℕ) : affine a b k j < 2 ^ k :=
  Nat.mod_lt _ (Nat.two_pow_pos k)

theorem affine_inj {i j : ℕ} (ha : a % 2 = 1) (hi : i < 2 ^ k) (hj : j < 2 ^ k)
    (h : affine a b k i = affine a b k j) : i = j := by
  have hcoprime : Nat.gcd (2 ^ k) a = 1 := by
    apply Nat.Coprime.pow_left
    rw [Nat.coprime_iff_gcd_eq_one, Nat.gcd_rec, ha]
    exact Nat.gcd_one_left 2
  have hmod : a * i ≡ a * j [MOD 2 ^ k] := Nat.ModEq.add_right_cancel' b h
  have hij : i ≡ j [MOD 2 ^ k] := Nat.ModEq.cancel_left_of_coprime hcoprime hmod
  rw [← Nat.mod_eq_of_lt hi, ← Nat.mod_eq_of_lt hj]
  exact hij

theorem nodup_map_affine (ha : a % 2 = 1) : ((List.range (2 ^ k)).map (affine a b k)).Nodup := by
  apply List.Nodup.map_on _ List.nodup_range
  intro i hi j hj h
  exact affine_inj ha (List.mem_range.mp hi) (List.mem_range.mp hj) h

theorem map_affine_perm (ha : a % 2 = 1) :
    ((List.range (2 ^ k)).map (affine a b k)).Perm (List.range (2 ^ k)) := by
  have hsub : (List.range (2 ^ k)).map (affine a b k) ⊆ List.range (2 ^ k) := by
    intro x hx
    obtain ⟨j, -, rfl⟩ := List.mem_map.mp hx
    exact List.mem_range.mpr (affine_lt j)
  apply (List.subperm_of_subset (nodup_map_affine ha) hsub).perm_of_length_le
  rw [List.length_map]

/-- How many numbers below `m` lie strictly between `0` and `c`. -/
theorem length_filter_between (m c : ℕ) :
    ((List.range m).filter fun i => decide (0 < i ∧ i < c)).length = min m c - 1 := by
  induction m with
  | zero =>
    rw [List.range_zero, List.filter_nil, List.length_nil]
    omega
  | succ m ih =>
    rw [List.range_succ, List.filter_append, List.length_append, ih, List.filter_singleton]
    by_cases hm : 0 < m ∧ m < c
    · rw [decide_eq_true hm, cond_true, List.length_singleton]
      omega
    · rw [decide_eq_false hm, cond_false, List.length_nil]
      omega

end Ecopy.Lib.Affine
