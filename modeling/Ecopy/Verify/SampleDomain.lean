import Ecopy.Verify.Sampling
import Mathlib.Algebra.BigOperators.Group.List.Basic

/-!
# The numbering of the sampleable blocks

A map that `extent_map_build` makes from consistent answers is `Ordered`: its extents
are non-empty, in rising order, apart, and inside the file. For an ordered map the
number of an extent's first block is the number of blocks before the extent, and the
blocks that have a number are exactly those that overlap an extent. At a hundred per
cent the target is the whole domain, although it is computed in double precision.
-/
namespace Ecopy.Verify.Sampling
open Lib.Bisect Lib.Doubles

structure Ordered (size : ℕ) (l : List Extent) : Prop where
  apart : l.Pairwise fun a b => a.stop ≤ b.start
  nonempty : ∀ e ∈ l, e.start < e.stop
  inside : ∀ e ∈ l, e.stop ≤ size

namespace Ordered
variable {size : ℕ} {l : List Extent} {e : Extent}

theorem nil : Ordered size [] :=
  ⟨List.Pairwise.nil, by simp, by simp⟩

theorem tail (h : Ordered size (e :: l)) : Ordered size l :=
  ⟨h.apart.of_cons, fun x hx => h.nonempty x (.tail _ hx), fun x hx => h.inside x (.tail _ hx)⟩

theorem concat (h : Ordered size l) (hafter : ∀ x ∈ l, x.stop ≤ e.start)
    (hne : e.start < e.stop) (hin : e.stop ≤ size) : Ordered size (l ++ [e]) where
  apart := by
    rw [List.pairwise_append]
    exact ⟨h.apart, List.pairwise_singleton .., by simpa using hafter⟩
  nonempty := by
    intro x hx
    rcases List.mem_append.mp hx with hx | hx
    · exact h.nonempty x hx
    · rw [List.mem_singleton.mp hx]
      exact hne
  inside := by
    intro x hx
    rcases List.mem_append.mp hx with hx | hx
    · exact h.inside x hx
    · rw [List.mem_singleton.mp hx]
      exact hin

theorem stop_le {i j : ℕ} (h : Ordered size l) (hi : i < l.length) (hj : j < l.length)
    (hij : i < j) : l[i].stop ≤ l[j].start :=
  List.pairwise_iff_getElem.mp h.apart i j hi hj hij

theorem stop_mono {i j : ℕ} (h : Ordered size l) (hi : i < l.length) (hj : j < l.length)
    (hij : i ≤ j) : l[i].stop ≤ l[j].stop := by
  rcases Nat.lt_or_eq_of_le hij with hlt | rfl
  · have hne := h.nonempty l[j] (List.getElem_mem hj)
    exact (h.stop_le hi hj hlt).trans hne.le
  · exact Nat.le_refl _

end Ordered

section Build
variable {alloc : Allocator} {k : Seeker} {size pos cap : ℕ} {found : List Extent}

theorem grow_spec {count cap' : ℕ} (hcount : count ≤ cap) (hcap : cap * 16 ≤ 2 ^ 47)
    (h : grow alloc count cap = some cap') : count < cap' ∧ cap' * 16 ≤ 2 ^ 47 := by
  unfold grow at h
  split at h
  · split at h
    · rename_i hgrant
      have hbound := alloc.bounded _ hgrant
      have hlarger : cap < enlarged cap := by
        unfold enlarged
        split <;> omega
      have hcap' := Option.some.inj h
      omega
    · cases h
  · have hcap' := Option.some.inj h
    omega

/-- What the extents found so far satisfy, and the array they are in. -/
structure Building (size pos cap : ℕ) (found : List Extent) : Prop where
  ordered : Ordered size found
  behind : ∀ e ∈ found, e.stop ≤ pos
  fits : found.length ≤ cap
  room : cap * 16 ≤ 2 ^ 47

theorem extentMapLoop_spec (hk : k.Consistent size) (h : Building size pos cap found) :
    Ordered size (extentMapLoop alloc k size pos cap found).2.extents ∧
      (extentMapLoop alloc k size pos cap found).2.extents.length ≤ 2 ^ 43 := by
  have hdone : Ordered size found ∧ found.length ≤ 2 ^ 43 := by
    have h₁ := h.fits
    have h₂ := h.room
    exact ⟨h.ordered, by omega⟩
  fun_induction extentMapLoop alloc k size pos cap found with
  | case1 => exact hdone
  | case2 => exact ⟨.nil, by simp [ExtentMap.empty]⟩
  | case3 => exact hdone
  | case4 => exact ⟨.nil, by simp [ExtentMap.empty]⟩
  | case5 => exact hdone
  | case6 => exact hdone
  | case7 pos cap found hpos data hdata hole hhole cap' hgrow ih =>
    obtain ⟨hge, hlt⟩ := hk.data_le pos data hdata
    have hhole := hk.hole_lt pos data hole hdata hhole
    obtain ⟨hfits, hroom⟩ := grow_spec h.fits h.room hgrow
    have hclip : data < clip size hole ∧ clip size hole ≤ size := by
      unfold clip
      split <;> omega
    have hon : clip size hole ≤ onward pos (clip size hole) := by
      unfold onward
      split <;> omega
    have hnext : Building size (onward pos (clip size hole)) cap'
        (found ++ [⟨data, clip size hole⟩]) := by
      refine ⟨h.ordered.concat ?_ hclip.1 hclip.2, ?_, ?_, hroom⟩
      · intro x hx
        exact (h.behind x hx).trans hge
      · intro x hx
        rcases List.mem_append.mp hx with hx | hx
        · exact (h.behind x hx).trans (lt_onward pos _).le
        · rw [List.mem_singleton.mp hx]
          exact hon
      · rw [List.length_append, List.length_singleton]
        omega
    apply ih hnext
    have h₁ := hnext.fits
    exact ⟨hnext.ordered, by omega⟩
  | case8 => exact hdone

theorem extentMapBuild_spec (hk : k.Consistent size) :
    Ordered size (extentMapBuild alloc k size).2.extents ∧
      (extentMapBuild alloc k size).2.extents.length ≤ 2 ^ 43 :=
  extentMapLoop_spec hk ⟨.nil, by simp, Nat.le_refl _, by omega⟩

end Build

/-- The block overlaps an extent; without a map every block counts. -/
def Used (m : ExtentMap) (b : ℕ) : Prop :=
  m.supported = true → ∃ e ∈ m.extents, e.start < (b + 1) * blockSize ∧ b * blockSize < e.stop

theorem Extent.mem_iff {e : Extent} {b : ℕ} :
    e.first ≤ b ∧ b < e.last ↔ e.start < (b + 1) * blockSize ∧ b * blockSize < e.stop := by
  unfold Extent.first Extent.last blockSize
  omega

theorem Extent.first_lt_last {e : Extent} (h : e.start < e.stop) : e.first < e.last := by
  unfold Extent.first Extent.last blockSize
  omega

theorem extentMapRangeIsHole_false {m : ExtentMap} {size offset length : ℕ} {e : Extent}
    (hm : Ordered size m.extents) (he : e ∈ m.extents) (hstart : e.start < offset + length)
    (hstop : offset < e.stop) : extentMapRangeIsHole m offset length = false := by
  obtain ⟨i, hi, rfl⟩ := List.getElem_of_mem he
  have hspec := firstFailing_spec (p := fun i => decide ((m.extents[i]!).stop ≤ offset))
    (Nat.zero_le m.extents.length) (by
      intro a b hab hb hp
      rw [decide_eq_true_iff, getElem!_pos m.extents b hb] at hp
      rw [decide_eq_true_iff, getElem!_pos m.extents a (by omega)]
      exact (hm.stop_mono (by omega) hb hab).trans hp)
  unfold extentMapRangeIsHole
  split
  · dsimp only
    generalize hlo : firstFailing _ 0 m.extents.length = lo at hspec ⊢
    -- the search stops at `i` or before it
    have hle : lo ≤ i := by
      by_contra hgt
      have hp := hspec.1 i (Nat.zero_le i) (by omega)
      rw [decide_eq_true_iff, getElem!_pos m.extents i hi] at hp
      omega
    have hbefore : m.extents[lo].start ≤ m.extents[i].start := by
      rcases Nat.lt_or_eq_of_le hle with hlt | rfl
      · have hne := hm.nonempty m.extents[lo] (List.getElem_mem (by omega))
        exact hne.le.trans (hm.stop_le (by omega) hi hlt)
      · exact Nat.le_refl _
    rw [Bool.or_eq_false_iff]
    constructor
    · rw [beq_eq_false_iff_ne]
      omega
    · rw [decide_eq_false_iff_not, getElem!_pos m.extents lo (by omega)]
      omega
  · rfl

/-- How many blocks the extents before the `i`-th have. -/
def blocksBefore (l : List Extent) (i : ℕ) : ℕ :=
  ((l.map fun e => e.last - e.first).take i).sum

theorem blocksBefore_succ {l : List Extent} {i : ℕ} (hi : i < l.length) :
    blocksBefore l (i + 1) = blocksBefore l i + (l[i].last - l[i].first) := by
  unfold blocksBefore
  rw [List.sum_take_succ _ _ (by simpa using hi), List.getElem_map]

section Count
variable {size : ℕ} {l : List Extent}

/-- Every extent after the first may share one block with the extent before it. -/
theorem sum_blocks_le {lo : ℕ} (h : Ordered size l) (hlo : ∀ e ∈ l, lo ≤ e.start)
    (hsize : lo ≤ size) :
    (l.map fun e => e.last - e.first).sum + lo / blockSize ≤
      (size + blockSize - 1) / blockSize + l.length := by
  induction l generalizing lo with
  | nil =>
    rw [List.map_nil, List.sum_nil, List.length_nil]
    unfold blockSize
    omega
  | cons e l ih =>
    have hrest := ih h.tail (fun x hx => List.rel_of_pairwise_cons h.apart hx) (h.inside e (.head _))
    have hhead := hlo e (.head _)
    have hne := h.nonempty e (.head _)
    rw [List.map_cons, List.sum_cons, List.length_cons]
    unfold Extent.first Extent.last blockSize at *
    omega

theorem blocksBefore_le_sum (l : List Extent) (i : ℕ) :
    blocksBefore l i ≤ (l.map fun e => e.last - e.first).sum := by
  unfold blocksBefore
  calc ((l.map fun e => e.last - e.first).take i).sum
      ≤ ((l.map fun e => e.last - e.first).take i).sum +
          ((l.map fun e => e.last - e.first).drop i).sum := Nat.le_add_right ..
    _ = (l.map fun e => e.last - e.first).sum := List.sum_take_add_sum_drop _ i

theorem blocksBefore_le {i : ℕ} (h : Ordered size l) :
    blocksBefore l i ≤ (size + blockSize - 1) / blockSize + l.length := by
  have hsum := sum_blocks_le h (fun e _ => Nat.zero_le e.start) (Nat.zero_le size)
  have htake := blocksBefore_le_sum l i
  rw [Nat.zero_div] at hsum
  omega

theorem blocksBefore_mono {i j : ℕ} (hij : i ≤ j) (hj : j ≤ l.length) :
    blocksBefore l i ≤ blocksBefore l j := by
  induction j, hij using Nat.le_induction with
  | base => exact Nat.le_refl _
  | succ j _ ih =>
    rw [blocksBefore_succ (by omega)]
    have := ih (by omega)
    omega

end Count

/-- `d` numbers the blocks of the extents in order. -/
structure Numbers (d : Domain) (l : List Extent) : Prop where
  map : d.map = some l
  cum : ∀ i, i < l.length → d.cum[i]! = blocksBefore l i
  total : d.dataN = blocksBefore l l.length

theorem foldl_numbers {l : List Extent} (before after : List Extent) (d : Domain)
    (hl : l = before ++ after) (hmap : d.map = some l)
    (hlen : d.cum.length = before.length)
    (hcum : ∀ i, i < before.length → d.cum[i]! = blocksBefore l i)
    (htotal : d.dataN = blocksBefore l before.length)
    (hsmall : ∀ i, blocksBefore l i < 2 ^ 64) (hne : ∀ e ∈ l, e.last - e.first = e.blocks) :
    Numbers (after.foldl Domain.add d) l ∧ (after.foldl Domain.add d).size = d.size := by
  induction after generalizing before d with
  | nil =>
    rw [List.append_nil] at hl
    subst hl
    exact ⟨⟨hmap, hcum, htotal⟩, rfl⟩
  | cons e after ih =>
    have hi : before.length < l.length := by simp [hl]
    have he : l[before.length] = e := by simp [hl]
    have hstep := blocksBefore_succ hi
    rw [he] at hstep
    apply ih (before ++ [e]) (d.add e)
    · simp [hl]
    · exact hmap
    · simp [Domain.add, hlen]
    · intro i hlt
      rw [List.length_append, List.length_singleton] at hlt
      rcases Nat.lt_succ_iff_lt_or_eq.mp hlt with hlt | rfl
      · rw [← hcum i hlt]
        simp [Domain.add, List.getElem?_append_left (hlen ▸ hlt)]
      · rw [← htotal, ← hlen]
        simp [Domain.add]
    · rw [List.length_append, List.length_singleton, hstep, ← htotal]
      rw [hne e (he ▸ List.getElem_mem hi), ← htotal] at hstep
      rw [hne e (he ▸ List.getElem_mem hi), ← hstep]
      show wrap (d.dataN + e.blocks) = _
      rw [← hstep]
      exact Nat.mod_eq_of_lt (hsmall _)

section Domain
variable {alloc : Allocator} {m : ExtentMap} {size : ℕ} {d : Domain}

theorem sampleDomainInit_numbers (hm : Ordered size m.extents)
    (hsmall : ∀ i, blocksBefore m.extents i < 2 ^ 64) (hsize : size < 2 ^ 63)
    (hs : m.supported = true) (h : sampleDomainInit alloc m size = some d) :
    Numbers d m.extents ∧ d.size = size := by
  unfold sampleDomainInit at h
  rw [if_pos hs] at h
  split at h
  · have hd := Option.some.inj h
    subst hd
    apply foldl_numbers [] m.extents _ rfl rfl rfl
    · intro i hi
      cases hi
    · rfl
    · exact hsmall
    · intro e he
      have hne := Extent.first_lt_last (hm.nonempty e he)
      have hin := hm.inside e he
      have hlast : e.last < 2 ^ 64 := by
        unfold Extent.last blockSize
        omega
      unfold Extent.blocks wrap
      omega
  · cases h

theorem sampleDomainInit_map (hm : Ordered size m.extents) (hlen : m.extents.length ≤ 2 ^ 43)
    (hsize : size < 2 ^ 63) (hs : m.supported = true)
    (h : sampleDomainInit alloc m size = some d) : Numbers d m.extents ∧ d.size = size := by
  apply sampleDomainInit_numbers hm _ hsize hs h
  intro i
  have hle := blocksBefore_le (i := i) hm
  unfold blockSize at hle
  omega

theorem sampleDomainInit_dense (hs : m.supported = false)
    (h : sampleDomainInit alloc m size = some d) :
    d = ⟨none, size, [], (size + blockSize - 1) / blockSize, size⟩ := by
  unfold sampleDomainInit at h
  rw [if_neg (by simp [hs])] at h
  exact (Option.some.inj h).symm

theorem exists_between {l : List Extent} {n ordinal : ℕ} (h : ordinal < blocksBefore l n) :
    ∃ i, i < n ∧ blocksBefore l i ≤ ordinal ∧ ordinal < blocksBefore l (i + 1) := by
  induction n with
  | zero => exact absurd h (Nat.not_lt_zero _)
  | succ n ih =>
    rcases Nat.lt_or_ge ordinal (blocksBefore l n) with hlt | hge
    · obtain ⟨i, hi, hbetween⟩ := ih hlt
      exact ⟨i, by omega, hbetween⟩
    · exact ⟨n, Nat.lt_succ_self n, hge, h⟩

/-- The search finds the one extent whose numbers include this one. -/
theorem Numbers.block_eq {l : List Extent} {i ordinal : ℕ} (hd : Numbers d l)
    (hi : i < l.length) (hge : blocksBefore l i ≤ ordinal)
    (hlt : ordinal < blocksBefore l (i + 1)) :
    d.block ordinal = l[i].first + (ordinal - blocksBefore l i) := by
  have hpos : 0 < l.length := by omega
  have hmem := lastHolding_mem (p := fun i => decide (d.cum[i]! ≤ ordinal)) hpos
  have hspec := lastHolding_spec (p := fun i => decide (d.cum[i]! ≤ ordinal)) hpos (by
    rw [decide_eq_true_iff, hd.cum 0 hpos]
    exact Nat.zero_le ordinal)
  unfold Domain.block
  rw [hd.map]
  dsimp only
  generalize hlo : lastHolding _ 0 l.length = lo at hmem hspec ⊢
  have hat : blocksBefore l lo ≤ ordinal := by
    have := of_decide_eq_true hspec.1
    rwa [hd.cum lo hmem.2] at this
  have heq : lo = i := by
    rcases Nat.lt_trichotomy lo i with hless | heq | hmore
    · have hnext := hspec.2 (by omega)
      rw [decide_eq_false_iff_not, hd.cum _ (by omega)] at hnext
      have hmono := blocksBefore_mono (l := l) (show lo + 1 ≤ i by omega) hi.le
      omega
    · exact heq
    · have hmono := blocksBefore_mono (l := l) (show i + 1 ≤ lo by omega) hmem.2.le
      omega
  subst heq
  rw [hd.cum lo hi, getElem!_pos l lo hi]

theorem Numbers.exists_block_iff {l : List Extent} {b : ℕ} (hd : Numbers d l) :
    (∃ ordinal, ordinal < d.dataN ∧ d.block ordinal = b) ↔ ∃ e ∈ l, e.first ≤ b ∧ b < e.last := by
  constructor
  · rintro ⟨ordinal, hlt, hb⟩
    rw [hd.total] at hlt
    obtain ⟨i, hi, hge, hbelow⟩ := exists_between hlt
    have hstep := blocksBefore_succ hi
    rw [hd.block_eq hi hge hbelow] at hb
    exact ⟨l[i], List.getElem_mem hi, by omega, by omega⟩
  · rintro ⟨e, he, hfirst, hlast⟩
    obtain ⟨i, hi, rfl⟩ := List.getElem_of_mem he
    have hstep := blocksBefore_succ hi
    have hmono := blocksBefore_mono (l := l) (show i + 1 ≤ l.length by omega) (Nat.le_refl _)
    have hbelow : blocksBefore l i + (b - l[i].first) < blocksBefore l (i + 1) := by omega
    refine ⟨blocksBefore l i + (b - l[i].first), by rw [hd.total]; omega, ?_⟩
    rw [hd.block_eq hi (Nat.le_add_right ..) hbelow]
    omega

/-- The numbered blocks are those in use. -/
theorem exists_block_iff {b : ℕ} (hm : Ordered size m.extents)
    (hlen : m.extents.length ≤ 2 ^ 43) (hsize : size < 2 ^ 63)
    (h : sampleDomainInit alloc m size = some d) :
    (∃ ordinal, ordinal < d.dataN ∧ d.block ordinal = b) ↔ b * blockSize < size ∧ Used m b := by
  cases hs : m.supported with
  | false =>
    rw [sampleDomainInit_dense hs h]
    constructor
    · rintro ⟨ordinal, hlt, rfl⟩
      refine ⟨?_, fun hyes => by rw [hs] at hyes; cases hyes⟩
      unfold Domain.block blockSize at *
      dsimp only at hlt ⊢
      omega
    · rintro ⟨hlt, -⟩
      refine ⟨b, ?_, rfl⟩
      unfold blockSize at *
      dsimp only
      omega
  | true =>
    rw [(sampleDomainInit_map hm hlen hsize hs h).1.exists_block_iff]
    constructor
    · rintro ⟨e, he, hmem⟩
      have hover := Extent.mem_iff.mp hmem
      exact ⟨by have := hm.inside e he; omega, fun _ => ⟨e, he, hover⟩⟩
    · rintro ⟨-, hused⟩
      obtain ⟨e, he, hover⟩ := hused hs
      exact ⟨e, he, Extent.mem_iff.mpr hover⟩

theorem sampleDomainInit_size (hm : Ordered size m.extents) (hlen : m.extents.length ≤ 2 ^ 43)
    (hsize : size < 2 ^ 63) (h : sampleDomainInit alloc m size = some d) : d.size = size := by
  cases hs : m.supported with
  | false => rw [sampleDomainInit_dense hs h]
  | true => exact (sampleDomainInit_map hm hlen hsize hs h).2

/-- There are few enough blocks for a double to count them. -/
theorem sampleDomainInit_few (hm : Ordered size m.extents) (hlen : m.extents.length ≤ 2 ^ 43)
    (hsize : size < 2 ^ 63) (h : sampleDomainInit alloc m size = some d) : d.dataN ≤ 3 * 2 ^ 50 := by
  cases hs : m.supported with
  | false =>
    rw [sampleDomainInit_dense hs h]
    unfold blockSize
    dsimp only
    omega
  | true =>
    rw [(sampleDomainInit_map hm hlen hsize hs h).1.total]
    have hle := blocksBefore_le (i := m.extents.length) hm
    unfold blockSize at hle
    omega

/-- A sample reaches to the end of its block or of the file. -/
theorem sampleDomainOffset_eq {ordinal : ℕ} (hsize : d.size < 2 ^ 63)
    (h : d.block ordinal * blockSize < d.size) :
    sampleDomainOffset d ordinal =
      ⟨ordinal, d.block ordinal * blockSize, min blockSize (d.size - d.block ordinal * blockSize)⟩ := by
  have hwrap : wrap (d.size + 2 ^ 64 - d.block ordinal * blockSize) =
      d.size - d.block ordinal * blockSize := by
    unfold wrap
    omega
  unfold sampleDomainOffset
  dsimp only
  rw [hwrap, min_def]
  congr 1
  split <;> split <;> omega

end Domain

/-- At a hundred per cent every block is asked for: the product and the sum lose less
than the 99.999999 that are added. -/
theorem sampleTarget_full {n : ℕ} (hpos : 0 < n) (hn : n ≤ 3 * 2 ^ 50) : sampleTarget 100 n = n := by
  have hone : (1 : ℚ) ≤ n := by exact_mod_cast hpos
  have hmost : (n : ℚ) ≤ 3 * 2 ^ 50 := by exact_mod_cast hn
  have hcount : (n : ℚ) ≤ double n := natCast_le_double (by omega) (by linarith) (le_refl _)
  have hcount' := double_le_add (x := n) (by linarith)
  have hproduct := sub_le_double (x := 100 * double n) (by linarith)
  have hproduct' := double_le_add (x := 100 * double n) (by linarith)
  have hadded := sub_le_double (x := 99999999 / 1000000) (by norm_num)
  have hadded' := double_le_add (x := 99999999 / 1000000) (by norm_num)
  have hsum := sub_le_double (x := double (100 * double n) + double (99999999 / 1000000)) (by
    linarith)
  have hshare : (n : ℚ) ≤
      double (double (double (100 * double n) + double (99999999 / 1000000)) / 100) := by
    apply natCast_le_double (by omega)
    · linarith
    · linarith
  have hfloor : n ≤
      ⌊double (double (double (100 * double n) + double (99999999 / 1000000)) / 100)⌋.toNat := by
    have hint := Int.le_floor.mpr (show (((n : ℕ) : ℤ) : ℚ) ≤ _ by exact_mod_cast hshare)
    omega
  unfold sampleTarget
  dsimp only
  generalize ⌊double _⌋.toNat = target at hfloor
  split <;> split <;> split <;> omega

end Ecopy.Verify.Sampling
