import Ecopy.Lib.Ranks
import Mathlib.Data.Nat.Log
import Mathlib.Logic.Function.Basic
import Mathlib.Tactic.Ring

/-!
# The logarithmic histogram

A value is put into one of eight bins between its power of two and the next one. Bins are
numbered with the exponent times eight, so at small exponents many numbers stay unused, and
zero and one share the first bin. `histValue` is the least value of a bin in use; the bin of
one is the exception, since the bin number 0 stands for zero.

Counters are `uint64_t` and wrap. The long double product in `hist_value` has at most three
significant bits more than a power of two and is exact. The loops run over 512 bins.
-/
namespace Ecopy.Telemetry
open Lib.Ranks

def histSubBits : ℕ := 3
def histSubs : ℕ := 8
def histBins : ℕ := 512

def histIndex (value : UInt64) : ℕ :=
  if value = 0 then 0
  else
    let exponent := value.toNat.log2
    let base := 2 ^ exponent
    let sub :=
      if exponent = 0 then 0
      else if exponent ≥ histSubBits then (value.toNat - base) >>> (exponent - histSubBits)
      else (value.toNat - base) <<< (histSubBits - exponent)
    let sub := if sub ≥ histSubs then histSubs - 1 else sub
    exponent * histSubs + sub

def histValue (index : ℕ) : UInt64 :=
  let exponent := index / histSubs
  let sub := index % histSubs
  let base := 2 ^ exponent
  if exponent = 0 then if index = 0 then 0 else 1
  else UInt64.ofNat (base + base * sub / histSubs)

structure Histogram where
  bins : ℕ → UInt64
  count : UInt64
  sum : UInt64
  min : UInt64
  max : UInt64

def Histogram.empty : Histogram := ⟨fun _ => 0, 0, 0, 0, 0⟩

def histAdd (hist : Histogram) (value : UInt64) : Histogram :=
  let count := hist.count + 1
  { bins := Function.update hist.bins (histIndex value) (hist.bins (histIndex value) + 1)
    count := count
    sum := hist.sum + value
    min := if count = 1 ∨ value < hist.min then value else hist.min
    max := if count = 1 ∨ hist.max < value then value else hist.max }

/-- The destination, and the source, which is cleared. -/
def histMerge (dst src : Histogram) : Histogram × Histogram :=
  if src.count = 0 then (dst, src)
  else
    ({ bins := fun i => if i < histBins then dst.bins i + src.bins i else dst.bins i
       count := dst.count + src.count
       sum := dst.sum + src.sum
       min := if dst.count = 0 ∨ src.min < dst.min then src.min else dst.min
       max := if dst.count = 0 ∨ dst.max < src.max then src.max else dst.max },
      .empty)

/-- The loop of `hist_percentile`, with the bins that are left. -/
def percentileFrom (hist : Histogram) (rank : UInt64) : ℕ → ℕ → UInt64 → UInt64
  | 0, _, _ => hist.max
  | left + 1, i, seen =>
    let seen := seen + hist.bins i
    if rank ≤ seen then histValue i else percentileFrom hist rank left (i + 1) seen

def histPercentile (hist : Histogram) (percent : UInt64) : UInt64 :=
  if hist.count = 0 then 0
  else
    let rank := (hist.count * percent + 99) / 100
    let rank := if rank = 0 then 1 else rank
    percentileFrom hist rank histBins 0 0

section Bins
variable {u v : UInt64}

theorem toNat_ne_zero (h : v ≠ 0) : v.toNat ≠ 0 :=
  fun heq => h (UInt64.toNat_inj.mp (by simpa using heq))

theorem log2_lt (h : v ≠ 0) : v.toNat.log2 < 64 := by
  rw [Nat.log2_lt (toNat_ne_zero h)]
  exact v.toNat_lt

/-- The number of a bin: the exponent, and how many eighths of the way to the next power. -/
structure Binned (n e s : ℕ) : Prop where
  lower : 2 ^ e ≤ n
  upper : n < 2 * 2 ^ e
  sub_lt : s < 8
  eighths : s = (n - 2 ^ e) * 8 / 2 ^ e

theorem histIndex_zero : histIndex 0 = 0 := rfl

/-- Both shifts give the floor of one quotient. -/
theorem shift_eq {n e : ℕ} (hlow : 2 ^ e ≤ n) (hhigh : n < 2 * 2 ^ e) :
    (if e = 0 then 0
      else if e ≥ histSubBits then (n - 2 ^ e) >>> (e - histSubBits)
      else (n - 2 ^ e) <<< (histSubBits - e)) = (n - 2 ^ e) * 8 / 2 ^ e := by
  unfold histSubBits
  split_ifs with hzero hthree
  · subst hzero
    simp only [Nat.pow_zero] at *
    omega
  · obtain ⟨k, rfl⟩ : ∃ k, e = k + 3 := ⟨e - 3, by omega⟩
    have hsplit : 2 ^ (k + 3) = 2 ^ k * 8 := by rw [Nat.pow_add]
    rw [Nat.add_sub_cancel, Nat.shiftRight_eq_div_pow, hsplit,
      Nat.mul_div_mul_right _ _ (by decide)]
  · have hcases : e = 1 ∨ e = 2 := by omega
    rcases hcases with rfl | rfl
    · simp only [Nat.shiftLeft_eq]
      omega
    · simp only [Nat.shiftLeft_eq]
      omega

theorem exists_binned (h : v ≠ 0) :
    ∃ e s, histIndex v = e * 8 + s ∧ e < 64 ∧ Binned v.toNat e s := by
  have hlow := Nat.log2_self_le (toNat_ne_zero h)
  have hhigh : v.toNat < 2 * 2 ^ v.toNat.log2 := by
    have hlt := Nat.lt_log2_self (n := v.toNat)
    rw [Nat.pow_succ] at hlt
    omega
  have hsub : (v.toNat - 2 ^ v.toNat.log2) * 8 / 2 ^ v.toNat.log2 < 8 := by
    rw [Nat.div_lt_iff_lt_mul (Nat.two_pow_pos _)]
    omega
  refine ⟨v.toNat.log2, (v.toNat - 2 ^ v.toNat.log2) * 8 / 2 ^ v.toNat.log2, ?_, log2_lt h,
    hlow, hhigh, hsub, rfl⟩
  unfold histIndex
  rw [if_neg h]
  dsimp only
  rw [shift_eq hlow hhigh, if_neg (by unfold histSubs; omega)]
  rfl

theorem histIndex_lt (v : UInt64) : histIndex v < histBins := by
  by_cases h : v = 0
  · subst h
    decide
  · obtain ⟨e, s, heq, he, hb⟩ := exists_binned h
    have hs := hb.sub_lt
    unfold histBins
    omega

theorem histValue_zero : histValue 0 = 0 := rfl

theorem toNat_histValue {e s : ℕ} (he : e < 64) (hpos : e ≠ 0) (hs : s < 8) :
    (histValue (e * 8 + s)).toNat = 2 ^ e + 2 ^ e * s / 8 := by
  have hdiv : (e * 8 + s) / 8 = e := by omega
  have hmod : (e * 8 + s) % 8 = s := by omega
  have hpow : 2 ^ e ≤ 2 ^ 63 := Nat.pow_le_pow_right (by decide) (by omega)
  have hpart : 2 ^ e * s / 8 < 2 ^ e := by
    rw [Nat.div_lt_iff_lt_mul (by decide)]
    exact Nat.mul_lt_mul_of_pos_left hs (Nat.two_pow_pos e)
  unfold histValue histSubs
  dsimp only
  rw [hdiv, hmod, if_neg hpos, UInt64.toNat_ofNat', Nat.mod_eq_of_lt (by omega)]

/-- What a bin is reported as is not above any of its values. -/
theorem histValue_le (v : UInt64) : histValue (histIndex v) ≤ v := by
  rw [UInt64.le_iff_toNat_le]
  by_cases h : v = 0
  · subst h
    exact le_refl _
  obtain ⟨e, s, heq, he, hb⟩ := exists_binned h
  have hs := hb.sub_lt
  rw [heq]
  by_cases hzero : e = 0
  · -- the value is one, and its bin stands for zero
    have hone := hb.upper
    have hsub := hb.eighths
    subst hzero
    simp only [Nat.pow_zero] at hone hsub
    have hs0 : s = 0 := by omega
    rw [hs0, histValue_zero]
    exact Nat.zero_le _
  · have hle : 2 ^ e * s ≤ (v.toNat - 2 ^ e) * 8 := by
      rw [hb.eighths]
      exact Nat.mul_div_le _ _
    have hlow := hb.lower
    rw [toNat_histValue he hzero hs]
    omega

/-- It is above every value of a lower bin. -/
theorem lt_histValue (h : histIndex u < histIndex v) : u < histValue (histIndex v) := by
  have hv : v ≠ 0 := by
    rintro rfl
    rw [histIndex_zero] at h
    exact Nat.not_lt_zero _ h
  obtain ⟨e, s, heq, he, hb⟩ := exists_binned hv
  have hs := hb.sub_lt
  have hpos : e ≠ 0 := by
    rintro rfl
    have hone := hb.upper
    have hsub := hb.eighths
    simp only [Nat.pow_zero] at hone hsub
    omega
  rw [UInt64.lt_iff_toNat_lt, heq, toNat_histValue he hpos hs]
  by_cases hu : u = 0
  · subst hu
    have hpow := Nat.two_pow_pos e
    exact Nat.lt_add_right _ hpow
  obtain ⟨e', s', heq', -, hb'⟩ := exists_binned hu
  have hs' := hb'.sub_lt
  rcases Nat.lt_or_ge e' e with hlt | hge
  · -- already below the power of two
    have hnext : 2 * 2 ^ e' ≤ 2 ^ e := by
      calc 2 * 2 ^ e' = 2 ^ (e' + 1) := by rw [Nat.pow_succ]; ring
        _ ≤ 2 ^ e := Nat.pow_le_pow_right (by decide) hlt
    have hup := hb'.upper
    omega
  · obtain rfl : e' = e := by omega
    have hss : s' < s := by omega
    have hlow := hb.lower
    have hlow' := hb'.lower
    have hsub := hb.eighths
    have hsub' := hb'.eighths
    by_cases hthree : 3 ≤ e'
    · obtain ⟨k, rfl⟩ : ∃ k, e' = k + 3 := ⟨e' - 3, by omega⟩
      have hsplit : 2 ^ (k + 3) = 2 ^ k * 8 := by rw [Nat.pow_add]
      rw [hsplit, Nat.mul_div_mul_right _ _ (by decide)] at hsub'
      have hbelow : u.toNat - 2 ^ k * 8 < s * 2 ^ k := by
        rw [← Nat.div_lt_iff_lt_mul (Nat.two_pow_pos k), ← hsub']
        exact hss
      have hpart : 2 ^ k * 8 * s / 8 = s * 2 ^ k := by
        rw [Nat.mul_right_comm, Nat.mul_div_cancel _ (by decide), Nat.mul_comm]
      rw [hsplit, hpart]
      omega
    · have hcases : e' = 1 ∨ e' = 2 := by omega
      rcases hcases with rfl | rfl
      · omega
      · omega

theorem histIndex_mono (h : u ≤ v) : histIndex u ≤ histIndex v := by
  by_contra hlt
  have hbelow := lt_histValue (Nat.not_le.mp hlt)
  have habove := histValue_le u
  rw [UInt64.lt_iff_toNat_lt] at hbelow
  rw [UInt64.le_iff_toNat_le] at h habove
  omega

/-- Bins in use are reported in their order. -/
theorem histValue_le_iff : histValue (histIndex u) ≤ histValue (histIndex v) ↔
    histIndex u ≤ histIndex v := by
  constructor
  · intro h
    by_contra hlt
    have hbelow := lt_histValue (Nat.not_le.mp hlt)
    have habove := histValue_le v
    rw [UInt64.lt_iff_toNat_lt] at hbelow
    rw [UInt64.le_iff_toNat_le] at h habove
    omega
  · intro h
    rcases Nat.lt_or_eq_of_le h with hlt | heq
    · have hbelow := lt_histValue hlt
      have habove := histValue_le u
      rw [UInt64.lt_iff_toNat_lt] at hbelow
      rw [UInt64.le_iff_toNat_le] at habove ⊢
      omega
    · rw [heq]
      exact UInt64.le_refl _

end Bins

/-- The histogram of a list of values. -/
structure Histogram.Holds (h : Histogram) (values : List UInt64) : Prop where
  bins : ∀ i, h.bins i = UInt64.ofNat (values.countP fun v => histIndex v = i)
  count : h.count = UInt64.ofNat values.length
  min : values ≠ [] → Best (· < ·) h.min values
  max : values ≠ [] → Best (fun a b => b < a) h.max values

namespace Histogram.Holds
variable {h g : Histogram} {values others : List UInt64}

theorem empty : Histogram.empty.Holds [] :=
  ⟨fun _ => rfl, rfl, fun hne => absurd rfl hne, fun hne => absurd rfl hne⟩

theorem toNat_count (hh : h.Holds values) (hlen : values.length < 2 ^ 64) :
    h.count.toNat = values.length := by
  rw [hh.count, UInt64.toNat_ofNat', Nat.mod_eq_of_lt hlen]

theorem count_eq_zero_iff (hh : h.Holds values) (hlen : values.length < 2 ^ 64) :
    h.count = 0 ↔ values = [] := by
  rw [← UInt64.toNat_inj, hh.toNat_count hlen]
  exact List.length_eq_zero_iff

theorem ne_nil (hh : h.Holds values) (hcount : h.count ≠ 0) : values ≠ [] := by
  rintro rfl
  exact hcount hh.count

/-- The least and the greatest of two parts, by the tests of `hist_add` and `hist_merge`. -/
theorem join {a b : UInt64} {empty : Prop} [Decidable empty] (hempty : empty ↔ values = []) :
    ((values ≠ [] → Best (· < ·) a values) → Best (· < ·) b others →
      Best (· < ·) (if empty ∨ b < a then b else a) (values ++ others)) ∧
    ((values ≠ [] → Best (fun x y => y < x) a values) → Best (fun x y => y < x) b others →
      Best (fun x y => y < x) (if empty ∨ a < b then b else a) (values ++ others)) := by
  have hweak : ∀ x y z : UInt64, x < z → x < y ∨ y < z := by
    intro x y z hlt
    rw [UInt64.lt_iff_toNat_lt] at hlt
    rw [UInt64.lt_iff_toNat_lt, UInt64.lt_iff_toNat_lt]
    omega
  constructor
  · intro ha hb
    exact Best.join (· < ·) (fun _ _ _ => UInt64.lt_trans) hweak ha hb hempty
  · intro ha hb
    exact Best.join (fun x y => y < x) (fun _ _ _ h h' => UInt64.lt_trans h' h)
      (fun x y z hlt => (hweak z y x hlt).symm) ha hb hempty

theorem add (hh : h.Holds values) {value : UInt64} (hlen : values.length + 1 < 2 ^ 64) :
    (histAdd h value).Holds (values ++ [value]) := by
  have hfirst : h.count + 1 = 1 ↔ values = [] := by
    rw [← hh.count_eq_zero_iff (by omega)]
    constructor
    · intro heq
      have hzero := congrArg (· - 1) heq
      simpa using hzero
    · intro heq
      rw [heq]
      rfl
  refine ⟨?_, ?_, fun _ => ?_, fun _ => ?_⟩
  · intro i
    simp only [histAdd, Function.update_apply, List.countP_append, List.countP_singleton]
    by_cases hi : i = histIndex value
    · rw [if_pos hi, if_pos (by simp [hi]), UInt64.ofNat_add, hh.bins, hi]
      rfl
    · rw [if_neg hi, if_neg (by simpa using Ne.symm hi), Nat.add_zero, hh.bins]
  · show h.count + 1 = _
    rw [hh.count, List.length_append, UInt64.ofNat_add]
    rfl
  · exact (join hfirst).1 hh.min (Best.singleton _ (fun _ => UInt64.lt_irrefl _) value)
  · exact (join hfirst).2 hh.max
      (Best.singleton (fun x y => y < x) (fun _ => UInt64.lt_irrefl _) value)

theorem bins_beyond (hh : h.Holds values) {i : ℕ} (hi : histBins ≤ i) : h.bins i = 0 := by
  have hnone : values.countP (fun v => histIndex v = i) = 0 := by
    rw [List.countP_eq_zero]
    intro v _ heq
    have hlt := histIndex_lt v
    rw [of_decide_eq_true heq] at hlt
    omega
  rw [hh.bins, hnone]
  rfl

theorem merge (hh : h.Holds values) (hg : g.Holds others)
    (hlen : values.length + others.length < 2 ^ 64) :
    (histMerge h g).1.Holds (values ++ others) ∧ (histMerge h g).2.Holds [] := by
  have hnone : h.count = 0 ↔ values = [] := hh.count_eq_zero_iff (by omega)
  unfold histMerge
  by_cases hsrc : g.count = 0
  · rw [if_pos hsrc]
    obtain rfl := (hg.count_eq_zero_iff (by omega)).mp hsrc
    rw [List.append_nil]
    exact ⟨hh, hg⟩
  · rw [if_neg hsrc]
    have hne := hg.ne_nil hsrc
    refine ⟨⟨?_, ?_, fun _ => ?_, fun _ => ?_⟩, empty⟩
    · intro i
      have hsum : h.bins i + g.bins i =
          UInt64.ofNat ((values ++ others).countP fun v => histIndex v = i) := by
        rw [hh.bins, hg.bins, List.countP_append, UInt64.ofNat_add]
      dsimp only
      split_ifs with hi
      · exact hsum
      · rw [← hsum, hg.bins_beyond (Nat.not_lt.mp hi)]
        exact (UInt64.add_zero _).symm
    · show h.count + g.count = _
      rw [hh.count, hg.count, List.length_append, UInt64.ofNat_add]
    · exact (join hnone).1 hh.min (hg.min hne)
    · exact (join hnone).2 hh.max (hg.max hne)

end Histogram.Holds

/-- The rank of a percentile among `n` values, in the arithmetic of `hist_percentile`. -/
def rankOf (n : ℕ) (percent : UInt64) : ℕ := max 1 ((n * percent.toNat + 99) % 2 ^ 64 / 100)

theorem rankOf_pos (n : ℕ) (percent : UInt64) : 1 ≤ rankOf n percent := Nat.le_max_left ..

/-- Even where the product overflows there is a value of that rank. -/
theorem rankOf_le {n : ℕ} {percent : UInt64} (hn : 1 ≤ n) (hp : percent.toNat ≤ 100) :
    rankOf n percent ≤ n := by
  have hmul : n * percent.toNat ≤ n * 100 := Nat.mul_le_mul_left n hp
  have hmod : (n * percent.toNat + 99) % 2 ^ 64 ≤ n * 100 + 99 := by
    calc (n * percent.toNat + 99) % 2 ^ 64 ≤ n * percent.toNat + 99 := Nat.mod_le _ _
      _ ≤ n * 100 + 99 := by omega
  unfold rankOf
  omega

section Percentiles
variable {h : Histogram} {values : List UInt64} {percent p q : UInt64}

/-- The loop stops at the first bin that reaches the rank. -/
theorem percentileFrom_eq (hh : h.Holds values) (hlen : values.length < 2 ^ 64) {rank seen : UInt64}
    (hpos : 1 ≤ rank.toNat) (hle : rank.toNat ≤ values.length) {left i : ℕ}
    (hend : i + left = histBins) (hfrom : i ≤ binAt histIndex values rank.toNat)
    (hseen : seen = UInt64.ofNat (below histIndex values i)) :
    percentileFrom h rank left i seen = histValue (binAt histIndex values rank.toNat) := by
  induction left generalizing i seen with
  | zero =>
    obtain ⟨v, -, hv⟩ := exists_mem_binAt histIndex hpos hle
    have hlt := histIndex_lt v
    omega
  | succ left ih =>
    have hnext : seen + h.bins i = UInt64.ofNat (upTo histIndex values i) := by
      rw [hseen, hh.bins, ← UInt64.ofNat_add, ← upTo_eq]
    have hreach : rank ≤ seen + h.bins i ↔ binAt histIndex values rank.toNat ≤ i := by
      have hsmall := upTo_le_length histIndex values i
      rw [binAt_le_iff hle, hnext, UInt64.le_iff_toNat_le, UInt64.toNat_ofNat',
        Nat.mod_eq_of_lt (by omega)]
    rw [percentileFrom]
    by_cases hstop : rank ≤ seen + h.bins i
    · rw [if_pos hstop, Nat.le_antisymm hfrom (hreach.mp hstop)]
    · rw [if_neg hstop]
      refine ih (by omega) (Nat.lt_of_not_le fun hc => hstop (hreach.mpr hc)) ?_
      rw [hnext, below_succ]

/-- A percentile is what the bin of its rank is reported as. -/
theorem histPercentile_eq (hh : h.Holds values) (hlen : values.length < 2 ^ 64) (hne : values ≠ [])
    (hp : percent.toNat ≤ 100) :
    histPercentile h percent = histValue (binAt histIndex values (rankOf values.length percent)) := by
  have hpos : 1 ≤ values.length := List.length_pos_of_ne_nil hne
  have hcount : h.count ≠ 0 := fun hzero => hne ((hh.count_eq_zero_iff hlen).mp hzero)
  have hquot : ((h.count * percent + 99) / 100).toNat =
      (values.length * percent.toNat + 99) % 2 ^ 64 / 100 := by
    rw [UInt64.toNat_div, UInt64.toNat_add, UInt64.toNat_mul, hh.toNat_count hlen]
    show ((values.length * percent.toNat) % 2 ^ 64 + 99) % 2 ^ 64 / 100 = _
    rw [Nat.mod_add_mod]
  have hrank : (if (h.count * percent + 99) / 100 = 0 then 1
      else (h.count * percent + 99) / 100 : UInt64).toNat = rankOf values.length percent := by
    unfold rankOf
    rw [← hquot]
    split_ifs with hzero
    · rw [hzero]
      rfl
    · have hnz := toNat_ne_zero hzero
      omega
  unfold histPercentile
  rw [if_neg hcount, ← hrank]
  exact percentileFrom_eq hh hlen (hrank ▸ rankOf_pos _ _) (hrank ▸ rankOf_le hpos hp)
    (Nat.zero_add _) (Nat.zero_le _) (by simp)

/-- A percentile belongs to the bin of one of the values. -/
theorem exists_histPercentile (hh : h.Holds values) (hlen : values.length < 2 ^ 64)
    (hne : values ≠ []) (hp : percent.toNat ≤ 100) :
    ∃ v ∈ values, histPercentile h percent = histValue (histIndex v) ∧
      histIndex v = binAt histIndex values (rankOf values.length percent) := by
  have hpos : 1 ≤ values.length := List.length_pos_of_ne_nil hne
  obtain ⟨v, hv, heq⟩ := exists_mem_binAt histIndex (rankOf_pos values.length percent)
    (rankOf_le hpos hp)
  exact ⟨v, hv, by rw [histPercentile_eq hh hlen hne hp, heq], heq⟩

theorem histPercentile_le_max (hh : h.Holds values) (hlen : values.length < 2 ^ 64)
    (hne : values ≠ []) (hp : percent.toNat ≤ 100) : histPercentile h percent ≤ h.max := by
  obtain ⟨v, hv, heq, -⟩ := exists_histPercentile hh hlen hne hp
  rw [heq]
  exact UInt64.le_trans (histValue_le v) (UInt64.not_lt.mp ((hh.max hne).unbeaten v hv))

/-- No bin boundary comes between the ranks of the two percentiles in the wrong order. -/
def RanksKept (values : List UInt64) (p q : UInt64) : Prop :=
  ∀ b, rankOf values.length q ≤ upTo histIndex values b →
    rankOf values.length p ≤ upTo histIndex values b

theorem histPercentile_le_iff (hh : h.Holds values) (hlen : values.length < 2 ^ 64)
    (hne : values ≠ []) (hp : p.toNat ≤ 100) (hq : q.toNat ≤ 100) :
    histPercentile h p ≤ histPercentile h q ↔ RanksKept values p q := by
  have hpos : 1 ≤ values.length := List.length_pos_of_ne_nil hne
  obtain ⟨u, -, hu, hubin⟩ := exists_histPercentile hh hlen hne hp
  obtain ⟨v, -, hv, hvbin⟩ := exists_histPercentile hh hlen hne hq
  rw [hu, hv, histValue_le_iff, hubin, hvbin,
    binAt_le_binAt_iff (rankOf_le hpos hp) (rankOf_le hpos hq)]
  rfl

/-- The least value is what its bin is reported as, or it has fewer companions in its bin than
the rank asks for. -/
def ClearOfMin (values : List UInt64) (p : UInt64) : Prop :=
  ∀ m ∈ values, (∀ v ∈ values, m ≤ v) → histValue (histIndex m) = m ∨
    (values.countP fun v => histIndex v = histIndex m) < rankOf values.length p

theorem min_le_histPercentile_iff (hh : h.Holds values) (hlen : values.length < 2 ^ 64)
    (hne : values ≠ []) (hp : p.toNat ≤ 100) : h.min ≤ histPercentile h p ↔ ClearOfMin values p := by
  have hpos : 1 ≤ values.length := List.length_pos_of_ne_nil hne
  have hmin := hh.min hne
  have hleast : ∀ v ∈ values, h.min ≤ v := fun v hv => UInt64.not_lt.mp (hmin.unbeaten v hv)
  have hsame : ∀ m ∈ values, (∀ v ∈ values, m ≤ v) → m = h.min := fun m hm hle =>
    UInt64.le_antisymm (hle _ hmin.mem) (hleast m hm)
  have hlow : ∀ v ∈ values, histIndex h.min ≤ histIndex v := fun v hv =>
    histIndex_mono (hleast v hv)
  obtain ⟨u, hu, heq, hbin⟩ := exists_histPercentile hh hlen hne hp
  -- the percentile stays in the bin of the least value, or it leaves that bin
  have hstays : histIndex u = histIndex h.min ↔
      rankOf values.length p ≤ values.countP fun v => histIndex v = histIndex h.min := by
    rw [← upTo_lowest hlow, ← binAt_le_iff (rankOf_le hpos hp), ← hbin]
    have hge := hlow u hu
    omega
  have hclear : ClearOfMin values p ↔ histValue (histIndex h.min) = h.min ∨
      (values.countP fun v => histIndex v = histIndex h.min) < rankOf values.length p := by
    constructor
    · exact fun hc => hc h.min hmin.mem hleast
    · intro hc m hm hle
      rw [hsame m hm hle]
      exact hc
  rw [hclear, heq]
  by_cases hin : histIndex u = histIndex h.min
  · rw [hin, or_iff_left (Nat.not_lt.mpr (hstays.mp hin))]
    constructor
    · exact fun hle => UInt64.le_antisymm (histValue_le _) hle
    · intro hfloor
      rw [hfloor]
      exact UInt64.le_refl _
  · have hup : histIndex h.min < histIndex u := by
      have hge := hlow u hu
      omega
    exact iff_of_true (UInt64.le_of_lt (lt_histValue hup))
      (.inr (Nat.not_le.mp fun hle => hin (hstays.mpr hle)))

/-- The condition for a summary of these percentiles, from the lowest to the highest. -/
def InOrder (values : List UInt64) (percents : List UInt64) : Prop :=
  (∀ p, percents.head? = some p → ClearOfMin values p) ∧ percents.IsChain (RanksKept values)

/-- The minimum, the percentiles and the maximum. -/
def summary (h : Histogram) (percents : List UInt64) : List UInt64 :=
  h.min :: (percents.map (histPercentile h) ++ [h.max])

theorem summary_ascending_iff (hh : h.Holds values) (hlen : values.length < 2 ^ 64)
    (hne : values ≠ []) {percents : List UInt64} (hall : ∀ q ∈ p :: percents, q.toNat ≤ 100) :
    (summary h (p :: percents)).IsChain (· ≤ ·) ↔ InOrder values (p :: percents) := by
  have hchain : ∀ (ps : List UInt64) (p : UInt64), (∀ q ∈ p :: ps, q.toNat ≤ 100) →
      (((p :: ps).map (histPercentile h) ++ [h.max]).IsChain (· ≤ ·) ↔
        (p :: ps).IsChain (RanksKept values)) := by
    intro ps
    induction ps with
    | nil =>
      intro p hp
      exact iff_of_true (List.isChain_pair.mpr
        (histPercentile_le_max hh hlen hne (hp p List.mem_cons_self))) (List.isChain_singleton p)
    | cons q ps ih =>
      intro p hp
      have hq := ih q fun x hx => hp x (List.mem_cons_of_mem p hx)
      rw [List.map_cons, List.cons_append] at hq ⊢
      rw [List.map_cons, List.cons_append, List.isChain_cons_cons, List.isChain_cons_cons, hq,
        histPercentile_le_iff hh hlen hne (hp p List.mem_cons_self) (hp q (by simp))]
  unfold summary InOrder
  rw [← hchain percents p hall, List.map_cons, List.cons_append, List.isChain_cons_cons,
    min_le_histPercentile_iff hh hlen hne (hall p List.mem_cons_self)]
  simp

end Percentiles

end Ecopy.Telemetry
