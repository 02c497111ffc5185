import Ecopy.Telemetry.Histogram
import Mathlib.Algebra.Order.Floor.Div
import Mathlib.Data.List.GetD
import Mathlib.Data.Multiset.Sort

/-!
# Percentiles by nearest rank

Values reach a histogram one by one or with another histogram, and neither the parts nor the
order of the merges can be seen in the end: a `Build` is any such history, and a percentile is
read off the bin of the nearest rank among all values of the history.

The rank is computed as `(count * percent + 99) / 100` in 64 bits. The last count for which
`count * 100` still fits leaves no room for the 99, so that at a hundred percent the rank of a
histogram of exactly that size wraps round to one.
-/
namespace Ecopy.Telemetry
open Lib.Ranks

inductive Build where
  | empty
  | add (b : Build) (value : UInt64)
  | merge (dst src : Build)

namespace Build

def hist : Build → Histogram
  | .empty => .empty
  | .add b value => histAdd b.hist value
  | .merge dst src => (histMerge dst.hist src.hist).1

def values : Build → Multiset UInt64
  | .empty => 0
  | .add b value => value ::ₘ b.values
  | .merge dst src => dst.values + src.values

/-- A history leaves the histogram of its values, in some order. -/
theorem holds (b : Build) (hcard : b.values.card < 2 ^ 64) :
    ∃ l : List UInt64, (l : Multiset UInt64) = b.values ∧ b.hist.Holds l := by
  induction b with
  | empty => exact ⟨[], rfl, .empty⟩
  | add b value ih =>
    rw [values, Multiset.card_cons] at hcard
    obtain ⟨l, hl, hholds⟩ := ih (by omega)
    have hlength : l.length = b.values.card := by rw [← hl, Multiset.coe_card]
    refine ⟨l ++ [value], ?_, hholds.add (by omega)⟩
    rw [values, ← hl, Multiset.cons_coe]
    exact Multiset.coe_eq_coe.mpr (List.perm_append_singleton value l)
  | merge dst src ihdst ihsrc =>
    rw [values, Multiset.card_add] at hcard
    obtain ⟨l, hl, hdst⟩ := ihdst (by omega)
    obtain ⟨k, hk, hsrc⟩ := ihsrc (by omega)
    have hlength : l.length = dst.values.card := by rw [← hl, Multiset.coe_card]
    have hlength' : k.length = src.values.card := by rw [← hk, Multiset.coe_card]
    refine ⟨l ++ k, ?_, (hdst.merge hsrc (by omega)).1⟩
    rw [values, ← hl, ← hk, Multiset.coe_add]

end Build

/-- The value of rank `⌈n p / 100⌉` in ascending order; the percentile 0 is the least value. -/
def nearestRank (values : Multiset UInt64) (p : ℕ) : UInt64 :=
  values.sort.getD (values.card * p ⌈/⌉ 100 - 1) 0

theorem rankOf_eq {n : ℕ} {percent : UInt64} (hfits : n * percent.toNat + 99 < 2 ^ 64) :
    rankOf n percent = n * percent.toNat ⌈/⌉ 100 - 1 + 1 := by
  unfold rankOf
  rw [Nat.mod_eq_of_lt hfits, Nat.ceilDiv_eq_add_pred_div]
  omega

/-- The bin of a rank is the bin of the value at that place of the sorted population. -/
theorem binAt_eq_histIndex {values : Multiset UInt64} {l : List UInt64}
    (hl : (l : Multiset UInt64) = values) {k : ℕ} (hk : k < values.card) :
    binAt histIndex l (k + 1) = histIndex (values.sort.getD k 0) := by
  have hlt : k < values.sort.length := by rwa [Multiset.length_sort]
  have hperm : l.Perm values.sort := by
    rw [← Multiset.coe_eq_coe, hl, Multiset.sort_eq]
  have hsplit : values.sort.take k ++ values.sort[k] :: values.sort.drop (k + 1) = values.sort := by
    rw [List.getElem_cons_drop, List.take_append_drop]
  have hascending : (values.sort.take k ++ values.sort[k] :: values.sort.drop (k + 1)).Pairwise
      fun u v => histIndex u ≤ histIndex v := by
    rw [hsplit]
    exact (Multiset.pairwise_sort values (· ≤ ·)).imp histIndex_mono
  have hrank := binAt_of_ascending hascending
  rw [hsplit, List.length_take_of_le (Nat.le_of_lt hlt)] at hrank
  rw [binAt_perm hperm, hrank, List.getD_eq_getElem _ _ hlt]

/-- The value a bin is reported as is off by less than an eighth. -/
theorem sub_histValue_lt {v : UInt64} (h : 2 ≤ v) :
    (v.toNat - (histValue (histIndex v)).toNat) * 8 < v.toNat := by
  have htwo : 2 ≤ v.toNat := UInt64.le_iff_toNat_le.mp h
  have hne : v ≠ 0 := by
    rintro rfl
    exact absurd htwo (by decide)
  obtain ⟨e, s, heq, he, hb⟩ := exists_binned hne
  have hlow := hb.lower
  have hhigh := hb.upper
  have hsub := hb.eighths
  have hpos : e ≠ 0 := by
    rintro rfl
    simp only [Nat.pow_zero] at hhigh
    omega
  rw [heq, toNat_histValue he hpos hb.sub_lt]
  by_cases hthree : 3 ≤ e
  · obtain ⟨k, rfl⟩ : ∃ k, e = k + 3 := ⟨e - 3, by omega⟩
    have hsplit : 2 ^ (k + 3) = 2 ^ k * 8 := by rw [Nat.pow_add]
    have hpow := Nat.two_pow_pos k
    rw [hsplit, Nat.mul_div_mul_right _ _ (by decide)] at hsub
    have hpart : 2 ^ k * 8 * s / 8 = 2 ^ k * s := by
      rw [Nat.mul_right_comm, Nat.mul_div_cancel _ (by decide)]
    have hmod := Nat.div_add_mod (v.toNat - 2 ^ k * 8) (2 ^ k)
    have hlt := Nat.mod_lt (v.toNat - 2 ^ k * 8) hpow
    rw [← hsub] at hmod
    rw [hsplit, hpart]
    omega
  · have hcases : e = 1 ∨ e = 2 := by omega
    rcases hcases with rfl | rfl
    · omega
    · omega

/-- Percentiles are of nearest rank, up to the rounding of the bins. The arithmetic of the rank
has no room for a hundred percent of one single count. -/
theorem percentile_nearest_rank (b : Build) (percent : UInt64) (hne : b.values ≠ 0)
    (hcount : b.values.card * 100 < 2 ^ 64) (hpercent : percent.toNat ≤ 100)
    (hroom : percent.toNat = 100 → b.values.card * 100 + 99 < 2 ^ 64) :
    histPercentile b.hist percent = histValue (histIndex (nearestRank b.values percent.toNat)) ∧
      (∀ u v : UInt64, u ≤ v → histIndex u ≤ histIndex v) ∧
      (∀ v : UInt64, histIndex v < histBins) ∧
      (∀ v : UInt64, histValue (histIndex v) ≤ v) ∧
      ∀ v : UInt64, 2 ≤ v → (v.toNat - (histValue (histIndex v)).toNat) * 8 < v.toNat := by
  refine ⟨?_, fun _ _ => histIndex_mono, histIndex_lt, histValue_le, fun _ => sub_histValue_lt⟩
  obtain ⟨l, hl, hholds⟩ := b.holds (by omega)
  have hlength : l.length = b.values.card := by rw [← hl, Multiset.coe_card]
  have hpos : 0 < b.values.card := Multiset.card_pos.mpr hne
  have hnil : l ≠ [] := List.ne_nil_of_length_pos (by omega)
  have hfits : b.values.card * percent.toNat + 99 < 2 ^ 64 := by
    by_cases hfull : percent.toNat = 100
    · rw [hfull]
      exact hroom hfull
    · have hmul : b.values.card * percent.toNat ≤ b.values.card * 99 :=
        Nat.mul_le_mul_left _ (by omega)
      omega
  have hrank := rankOf_eq hfits
  have hle : rankOf b.values.card percent ≤ b.values.card := rankOf_le hpos hpercent
  rw [histPercentile_eq hholds (by omega) hnil hpercent, hlength, hrank,
    binAt_eq_histIndex hl (by omega)]
  rfl

/-- Three values in two parts. -/
theorem percentile_nearest_rank_parts :
    let b := Build.merge (.add .empty 9) (.add (.add .empty 70) 3)
    histPercentile b.hist 50 = histValue (histIndex (nearestRank b.values 50)) :=
  (percentile_nearest_rank (.merge (.add .empty 9) (.add (.add .empty 70) 3)) 50 (by decide)
    (by decide) (by decide) (by decide)).1

def Build.repeated (value : UInt64) : ℕ → Build
  | 0 => .empty
  | n + 1 => .add (Build.repeated value n) value

theorem Build.values_repeated (value : UInt64) (n : ℕ) :
    (Build.repeated value n).values = Multiset.replicate n value := by
  induction n with
  | zero => rfl
  | succ n ih => rw [Build.repeated, Build.values, ih, Multiset.replicate_succ]

/-- All but one of the values are zero. -/
def Build.crowd (n : ℕ) : Build := .add (.repeated 0 n) 8

section Crowd
variable (n : ℕ)

theorem Build.values_crowd : (crowd n).values = 8 ::ₘ Multiset.replicate n 0 := by
  rw [crowd, values, values_repeated]

theorem Build.card_crowd : (crowd n).values.card = n + 1 := by
  rw [values_crowd, Multiset.card_cons, Multiset.card_replicate]

theorem Build.sort_crowd : (crowd n).values.sort = List.replicate n 0 ++ [8] := by
  have hsorted : (List.replicate n (0 : UInt64) ++ [8]).Pairwise (· ≤ ·) := by
    rw [List.pairwise_append]
    refine ⟨List.pairwise_replicate.mpr (Or.inr (UInt64.le_refl 0)), List.pairwise_singleton _ _, ?_⟩
    intro a ha b _
    rw [List.eq_of_mem_replicate ha]
    exact UInt64.zero_le
  have hperm : (crowd n).values.sort.Perm (List.replicate n 0 ++ [8]) := by
    rw [← Multiset.coe_eq_coe, Multiset.sort_eq, values_crowd, ← Multiset.coe_replicate,
      Multiset.cons_coe]
    exact (Multiset.coe_eq_coe.mpr (List.perm_append_singleton _ _)).symm
  exact hperm.eq_of_pairwise' (Multiset.pairwise_sort _ _) hsorted

theorem nearestRank_crowd : nearestRank (Build.crowd n).values 100 = 8 := by
  have hplace : (n + 1) * 100 ⌈/⌉ 100 - 1 = n := by
    rw [Nat.ceilDiv_eq_add_pred_div]
    omega
  rw [nearestRank, Build.card_crowd, hplace, Build.sort_crowd,
    List.getD_append_right _ _ _ _ (by simp)]
  simp

theorem histPercentile_crowd {n : ℕ} {percent : UInt64} (hn : 0 < n) (hfits : n + 1 < 2 ^ 64)
    (hp : percent.toNat ≤ 100) (hrank : rankOf (n + 1) percent = 1) :
    histPercentile (Build.crowd n).hist percent = 0 := by
  have hcard := Build.card_crowd n
  obtain ⟨l, hl, hholds⟩ := (Build.crowd n).holds (by omega)
  have hlength : l.length = n + 1 := by rw [← hcard, ← hl, Multiset.coe_card]
  have hzero : (0 : UInt64) ∈ l := by
    rw [← Multiset.mem_coe, hl, Build.values_crowd]
    exact Multiset.mem_cons_of_mem (Multiset.mem_replicate.mpr ⟨by omega, rfl⟩)
  have hfirst : 1 ≤ upTo histIndex l 0 := List.countP_pos_iff.mpr ⟨0, hzero, by rfl⟩
  have hlowest : binAt histIndex l 1 = 0 := Nat.le_zero.mp ((binAt_le_iff (by omega)).mpr hfirst)
  rw [histPercentile_eq hholds (by omega) (List.ne_nil_of_length_pos (by omega)) hp, hlength, hrank,
    hlowest]
  rfl

end Crowd

/-- The rank wraps to one, and the percentile is the least value instead of the greatest. -/
theorem hundredth_percentile_wraps :
    ¬ ∀ b : Build, b.values ≠ 0 → b.values.card * 100 < 2 ^ 64 →
      histPercentile b.hist 100 = histValue (histIndex (nearestRank b.values 100)) := by
  intro h
  have hcard := Build.card_crowd 184467440737095515
  have heq := h (.crowd 184467440737095515) (Multiset.card_pos.mp (by omega)) (by omega)
  rw [nearestRank_crowd, histPercentile_crowd (by omega) (by omega) (le_refl 100) rfl] at heq
  exact absurd heq (by decide)

end Ecopy.Telemetry
