import Ecopy.Lib.Affine
import Ecopy.Verify.SampleDomain

/-!
# The choice of samples

`for_each_sample` collects samples in a batch, which it sorts and hands out when it is full
and at the end. The numbers that it collects are distinct and as many as the target, and
both ends are among them: the walk over the permutation meets every number between the ends
once. The callback is taken to succeed.

The extents of an aligned map share no block, so the numbers of the blocks are in the order
of the blocks.
-/
namespace Ecopy.Verify.Sampling
open Lib.Affine
open Protocol (Bytes)

/-- The batch, the number of samples so far, and the groups handed to the callback. -/
structure Handing where
  batch : List Sample
  emitted : ℕ
  groups : List (List Sample)

/-- `compare_sample_offset` -/
def byOffset (batch : List Sample) : List Sample :=
  batch.mergeSort fun x y => decide (x.offset ≤ y.offset)

def emitSampleBatch (h : Handing) : Handing :=
  { h with batch := [], groups := h.groups ++ [byOffset h.batch] }

/-- `APPEND_SAMPLE` -/
def appendSample (d : Domain) (ordinal : ℕ) (h : Handing) : Handing :=
  let h := { h with batch := h.batch ++ [sampleDomainOffset d ordinal], emitted := h.emitted + 1 }
  if h.batch.length = batchMax then emitSampleBatch h else h

/-- The loop over the permutation, from `j` on. -/
def permute (a b domain : UInt64) (d : Domain) (target : ℕ) : ℕ → ℕ → Handing → Handing
  | 0, _, h => h
  | fuel + 1, j, h =>
    if h.emitted < target then
      let idx := ((a * UInt64.ofNat j + b) &&& (domain - 1)).toNat
      if d.dataN ≤ idx then permute a b domain d target fuel (j + 1) h
      else if idx = 0 ∨ idx = d.dataN - 1 then permute a b domain d target fuel (j + 1) h
      else permute a b domain d target fuel (j + 1) (appendSample d idx h)
    else h

/-- `for_each_sample`: the groups of samples in the order in which the callback gets them. A
full scan has no batches. `data` is the configuration's switch for data. -/
def forEachSample (data : Bool) (seed : UInt64) (src : Bytes) (size target : ℕ) (d : Domain) :
    List (List Sample) :=
  if size = 0 ∨ data = false then []
  else if d.dataN = 0 then []
  else if target = d.dataN then (List.range d.dataN).map fun idx => [sampleDomainOffset d idx]
  else
    let h := appendSample d 0 ⟨[], 0, []⟩
    let h := if 1 < d.dataN then appendSample d (d.dataN - 1) h else h
    if target ≤ h.emitted ∨ d.dataN ≤ 2 then (emitSampleBatch h).groups
    else
      let seed := mix64 (seed ^^^ pathHash src ^^^ UInt64.ofNat size)
      let domain := widen d.dataN 1
      let a := mix64 seed ||| 1
      let b := mix64 (seed ^^^ 0x9e3779b97f4a7c15) &&& (UInt64.ofNat domain - 1)
      (emitSampleBatch (permute a b (UInt64.ofNat domain) d target domain 0 h)).groups

/-- A group is no longer than a batch and sorted by offset. -/
def Group (g : List Sample) : Prop :=
  g.length ≤ batchMax ∧ g.Pairwise fun x y => x.offset ≤ y.offset

/-- The samples of these numbers were collected. -/
structure Handed (d : Domain) (l : List ℕ) (h : Handing) : Prop where
  emitted : h.emitted = l.length
  perm : (h.groups.flatten ++ h.batch).Perm (l.map (sampleDomainOffset d))
  room : h.batch.length < batchMax
  groups : ∀ g ∈ h.groups, Group g

theorem byOffset_perm (batch : List Sample) : (byOffset batch).Perm batch :=
  List.mergeSort_perm batch _

theorem byOffset_group {batch : List Sample} (h : batch.length ≤ batchMax) :
    Group (byOffset batch) := by
  constructor
  · rw [(byOffset_perm batch).length_eq]
    exact h
  · have hsorted : (byOffset batch).Pairwise fun x y => decide (x.offset ≤ y.offset) = true := by
      apply List.pairwise_mergeSort
      · intro x y z hxy hyz
        rw [decide_eq_true_iff] at hxy hyz ⊢
        exact hxy.trans hyz
      · intro x y
        rw [Bool.or_eq_true, decide_eq_true_iff, decide_eq_true_iff]
        exact Nat.le_total x.offset y.offset
    exact hsorted.imp fun hxy => of_decide_eq_true hxy

variable {d : Domain} {l : List ℕ} {h : Handing}

theorem emitSampleBatch_flatten (h : Handing) :
    (emitSampleBatch h).groups.flatten.Perm (h.groups.flatten ++ h.batch) := by
  unfold emitSampleBatch
  dsimp only
  rw [List.flatten_append, List.flatten_singleton]
  exact (byOffset_perm h.batch).append_left _

theorem emitSampleBatch_groups (hgroups : ∀ g ∈ h.groups, Group g)
    (hroom : h.batch.length ≤ batchMax) : ∀ g ∈ (emitSampleBatch h).groups, Group g := by
  intro g hg
  rcases List.mem_append.mp hg with hg | hg
  · exact hgroups g hg
  · rw [List.mem_singleton.mp hg]
    exact byOffset_group hroom

theorem Handed.nil (d : Domain) : Handed d [] ⟨[], 0, []⟩ where
  emitted := rfl
  perm := List.Perm.refl _
  room := by decide
  groups := nofun

theorem Handed.append (hh : Handed d l h) (ordinal : ℕ) :
    Handed d (l ++ [ordinal]) (appendSample d ordinal h) := by
  have hperm : (h.groups.flatten ++ (h.batch ++ [sampleDomainOffset d ordinal])).Perm
      ((l ++ [ordinal]).map (sampleDomainOffset d)) := by
    rw [List.map_append, ← List.append_assoc]
    exact hh.perm.append_right _
  have hlen : (h.batch ++ [sampleDomainOffset d ordinal]).length = h.batch.length + 1 := by
    rw [List.length_append, List.length_singleton]
  have hroom := hh.room
  unfold appendSample
  dsimp only
  split
  · constructor
    · show h.emitted + 1 = _
      rw [hh.emitted, List.length_append, List.length_singleton]
    · show ((emitSampleBatch _).groups.flatten ++ []).Perm _
      rw [List.append_nil]
      exact (emitSampleBatch_flatten _).trans hperm
    · show 0 < batchMax
      decide
    · refine emitSampleBatch_groups ?_ ?_
      · exact hh.groups
      · dsimp only
        omega
  · rename_i hfull
    constructor
    · show h.emitted + 1 = _
      rw [hh.emitted, List.length_append, List.length_singleton]
    · exact hperm
    · dsimp only at hfull ⊢
      omega
    · exact hh.groups

/-- The samples of these numbers are collected in turn. -/
def appendAll (d : Domain) (l : List ℕ) (h : Handing) : Handing :=
  l.foldl (fun h ordinal => appendSample d ordinal h) h

theorem Handed.appendAll (hh : Handed d l h) (more : List ℕ) :
    Handed d (l ++ more) (appendAll d more h) := by
  induction more generalizing l h with
  | nil =>
    rw [List.append_nil]
    exact hh
  | cons ordinal more ih =>
    have hnext := ih (hh.append ordinal)
    rw [List.append_assoc] at hnext
    exact hnext

@[simp] theorem appendSample_emitted (d : Domain) (ordinal : ℕ) (h : Handing) :
    (appendSample d ordinal h).emitted = h.emitted + 1 := by
  unfold appendSample
  dsimp only
  split
  · rfl
  · rfl

theorem permute_eq (a b domain : UInt64) (d : Domain) (target fuel j : ℕ) (h : Handing) :
    permute a b domain d target fuel j h =
      appendAll d (pick a b domain d.dataN target fuel j h.emitted) h := by
  induction fuel generalizing j h with
  | zero => rfl
  | succ fuel ih =>
    unfold permute pick
    dsimp only
    split_ifs
    · exact ih (j + 1) h
    · exact ih (j + 1) h
    · rw [ih, appendSample_emitted]
      rfl
    · rfl

/-- Short of a full scan the chosen numbers are collected in turn. -/
theorem forEachSample_eq (seed : UInt64) (src : Bytes) {size target : ℕ} (hsize : 0 < size)
    (hn : 0 < d.dataN) (htarget : target ≠ d.dataN) :
    forEachSample true seed src size target d =
      (emitSampleBatch (appendAll d (chosen seed src size d.dataN target) ⟨[], 0, []⟩)).groups := by
  unfold forEachSample chosen
  rw [if_neg (by simp; omega), if_neg (by omega), if_neg htarget]
  dsimp only
  by_cases hmany : 1 < d.dataN
  · rw [if_pos hmany, if_pos hmany]
    simp only [appendSample_emitted, List.length_cons, List.length_nil]
    split_ifs
    · rfl
    · rw [permute_eq, appendSample_emitted, appendSample_emitted]
      unfold appendAll
      rw [List.foldl_append]
      rfl
  · rw [if_neg hmany, if_neg hmany, if_pos (Or.inr (by omega)), if_pos (Or.inr (by omega))]
    rfl

/-- The `j`-th number of the walk. -/
def visit (a b domain : UInt64) (j : ℕ) : ℕ := ((a * UInt64.ofNat j + b) &&& (domain - 1)).toNat

theorem pick_eq (a b domain : UInt64) (n target fuel j emitted : ℕ) :
    pick a b domain n target fuel j emitted =
      (((List.range' j fuel).map (visit a b domain)).filter fun i =>
        decide (0 < i ∧ i < n - 1)).take (target - emitted) := by
  induction fuel generalizing j emitted with
  | zero => simp [pick]
  | succ fuel ih =>
    unfold pick
    rw [List.range'_succ, List.map_cons]
    dsimp only
    by_cases htarget : emitted < target
    · rw [if_pos htarget]
      change (if n ≤ visit a b domain j then _ else if visit a b domain j = 0 ∨
        visit a b domain j = n - 1 then _ else visit a b domain j :: _) = _
      by_cases hbetween : 0 < visit a b domain j ∧ visit a b domain j < n - 1
      · rw [if_neg (by omega), if_neg (by omega), ih, List.filter_cons_of_pos (by simpa using hbetween)]
        obtain ⟨left, hleft⟩ : ∃ left, target - emitted = left + 1 := ⟨target - emitted - 1, by omega⟩
        rw [hleft, List.take_succ_cons]
        congr 2
        omega
      · rw [List.filter_cons_of_neg (by simpa using hbetween)]
        split
        · exact ih (j + 1) emitted
        · rw [if_pos (by omega)]
          exact ih (j + 1) emitted
    · rw [if_neg htarget, Nat.sub_eq_zero_of_le (not_lt.mp htarget), List.take_zero]

theorem widen_spec {n k : ℕ} (hn : n ≤ 2 ^ 63) (hk : k ≤ 63) :
    ∃ k', widen n (2 ^ k) = 2 ^ k' ∧ n ≤ 2 ^ k' ∧ k' ≤ 63 := by
  generalize hdomain : 2 ^ k = domain
  fun_induction widen n domain generalizing k with
  | case1 domain hless ih =>
    have hlt : k < 63 := by
      rw [← hdomain] at hless
      exact (Nat.pow_lt_pow_iff_right (by omega)).mp (hless.1.trans_le hn)
    exact ih hlt (by rw [← hdomain, pow_succ])
  | case2 domain hless =>
    refine ⟨k, hdomain.symm, ?_, hk⟩
    have hpos := Nat.two_pow_pos k
    rw [hdomain] at hpos ⊢
    omega

theorem ofNat_two_pow_sub_one {k : ℕ} (hk : k ≤ 63) :
    (UInt64.ofNat (2 ^ k) - 1).toNat = 2 ^ k - 1 := by
  have hsmall : 2 ^ k ≤ 2 ^ 63 := Nat.pow_le_pow_right (by omega) hk
  have hpos := Nat.two_pow_pos k
  rw [UInt64.toNat_sub, UInt64.toNat_ofNat']
  simp only [UInt64.toNat_one]
  omega

/-- The mask reduces modulo the power of two. -/
theorem visit_eq {a b : UInt64} {k j : ℕ} (hk : k ≤ 63) :
    visit a b (UInt64.ofNat (2 ^ k)) j = affine a.toNat b.toNat k j := by
  unfold visit affine
  rw [UInt64.toNat_and, ofNat_two_pow_sub_one hk, Nat.and_two_pow_sub_one_eq_mod, UInt64.toNat_add,
    UInt64.toNat_mul, UInt64.toNat_ofNat']
  have hdvd : 2 ^ k ∣ 2 ^ 64 := pow_dvd_pow 2 (by omega)
  rw [Nat.mod_mod_of_dvd _ hdvd]
  apply Nat.ModEq.add_right
  have hmod : a.toNat * (j % 2 ^ 64) % 2 ^ 64 ≡ a.toNat * j [MOD 2 ^ 64] :=
    (Nat.mod_modEq _ _).trans ((Nat.mod_modEq j _).mul_left a.toNat)
  exact hmod.of_dvd hdvd

theorem odd_or_one (x : UInt64) : (x ||| 1).toNat % 2 = 1 := by
  rw [UInt64.toNat_or]
  simp

/-- Between the ends the walk meets every number once. -/
theorem pick_spec (x b : UInt64) {n k target : ℕ} (hn : n ≤ 2 ^ k) (hk : k ≤ 63)
    (htarget : target ≤ n) :
    (pick (x ||| 1) b (UInt64.ofNat (2 ^ k)) n target (2 ^ k) 0 2).Nodup ∧
      (pick (x ||| 1) b (UInt64.ofNat (2 ^ k)) n target (2 ^ k) 0 2).length = target - 2 ∧
      ∀ i ∈ pick (x ||| 1) b (UInt64.ofNat (2 ^ k)) n target (2 ^ k) 0 2, 0 < i ∧ i < n - 1 := by
  have hvisit : (List.range' 0 (2 ^ k)).map (visit (x ||| 1) b (UInt64.ofNat (2 ^ k))) =
      (List.range (2 ^ k)).map (affine (x ||| 1).toNat b.toNat k) := by
    rw [← List.range_eq_range']
    exact List.map_congr_left fun j _ => visit_eq hk
  rw [pick_eq, hvisit]
  have hperm := (map_affine_perm (b := b.toNat) (k := k) (odd_or_one x)).filter fun i =>
    decide (0 < i ∧ i < n - 1)
  refine ⟨?_, ?_, ?_⟩
  · exact List.Nodup.sublist (List.take_sublist _ _) ((nodup_map_affine (odd_or_one x)).filter _)
  · rw [List.length_take, hperm.length_eq, length_filter_between]
    omega
  · intro i hi
    exact of_decide_eq_true (List.mem_filter.mp (List.mem_of_mem_take hi)).2

/-- As many distinct numbers as the target are handed out, both ends among them, in groups. -/
structure Covers (d : Domain) (target : ℕ) (groups : List (List Sample)) : Prop where
  count : groups.flatten.length = target
  distinct : (groups.flatten.map Sample.index).Nodup
  samples : ∀ x ∈ groups.flatten, x.index < d.dataN ∧ x = sampleDomainOffset d x.index
  first : ∃ x ∈ groups.flatten, x.index = 0
  last : ∃ x ∈ groups.flatten, x.index = d.dataN - 1
  groups : ∀ g ∈ groups, Group g

theorem covers_of_perm {target : ℕ} {groups : List (List Sample)}
    (hperm : groups.flatten.Perm (l.map (sampleDomainOffset d))) (hlen : l.length = target)
    (hnodup : l.Nodup) (hbelow : ∀ i ∈ l, i < d.dataN) (hfirst : 0 ∈ l) (hlast : d.dataN - 1 ∈ l)
    (hgroups : ∀ g ∈ groups, Group g) : Covers d target groups := by
  have hmem : ∀ i ∈ l, sampleDomainOffset d i ∈ groups.flatten := by
    intro i hi
    exact hperm.mem_iff.mpr (List.mem_map_of_mem hi)
  constructor
  · rw [hperm.length_eq, List.length_map]
    exact hlen
  · rw [(hperm.map Sample.index).nodup_iff, List.map_map]
    have hindex : l.map (Sample.index ∘ sampleDomainOffset d) = l := List.map_id l
    rw [hindex]
    exact hnodup
  · intro x hx
    obtain ⟨i, hi, rfl⟩ := List.mem_map.mp (hperm.mem_iff.mp hx)
    exact ⟨hbelow i hi, rfl⟩
  · exact ⟨_, hmem 0 hfirst, rfl⟩
  · exact ⟨_, hmem _ hlast, rfl⟩
  · exact hgroups

/-- The chosen numbers are distinct and as many as the target. -/
theorem chosen_spec (seed : UInt64) (src : Bytes) (size : ℕ) {n target : ℕ} (hwide : n ≤ 2 ^ 63)
    (hleast : min n 2 ≤ target) (hless : target < n) :
    (chosen seed src size n target).Nodup ∧ (chosen seed src size n target).length = target ∧
      (∀ i ∈ chosen seed src size n target, i < n) ∧ 0 ∈ chosen seed src size n target ∧
      n - 1 ∈ chosen seed src size n target := by
  have hnodup : [0, n - 1].Nodup := by
    rw [List.nodup_cons, List.mem_singleton]
    exact ⟨by omega, List.nodup_singleton _⟩
  have hends : ∀ i ∈ [0, n - 1], i = 0 ∨ i = n - 1 := by simp
  unfold chosen
  dsimp only
  rw [if_pos (show 1 < n by omega)]
  split
  · rename_i hfew
    rw [List.length_cons, List.length_singleton] at hfew
    refine ⟨hnodup, ?_, ?_, List.mem_cons_self, by simp⟩
    · rw [List.length_cons, List.length_singleton]
      omega
    · intro i hi
      have hi' := hends i hi
      omega
  · obtain ⟨k, hk, hnk, hk63⟩ : ∃ k, widen n (2 ^ 0) = 2 ^ k ∧ n ≤ 2 ^ k ∧ k ≤ 63 :=
      widen_spec hwide (by omega)
    rw [pow_zero] at hk
    rw [hk]
    obtain ⟨hdistinct, hcount, hbetween⟩ := pick_spec
      (mix64 (mix64 (seed ^^^ pathHash src ^^^ UInt64.ofNat size)))
      (mix64 (mix64 (seed ^^^ pathHash src ^^^ UInt64.ofNat size) ^^^ 0x9e3779b97f4a7c15) &&&
        (UInt64.ofNat (2 ^ k) - 1)) hnk hk63 hless.le
    refine ⟨?_, ?_, ?_, List.mem_append_left _ List.mem_cons_self,
      List.mem_append_left _ (by simp)⟩
    · rw [List.nodup_append]
      refine ⟨hnodup, hdistinct, ?_⟩
      intro i hi j hj heq
      have hi' := hends i hi
      have hj' := hbetween j hj
      omega
    · rw [List.length_append, List.length_cons, List.length_singleton, hcount]
      omega
    · intro i hi
      rcases List.mem_append.mp hi with hi | hi
      · have hi' := hends i hi
        omega
      · have hi' := hbetween i hi
        omega

theorem forEachSample_covers {seed : UInt64} {src : Bytes} {size target : ℕ} (hsize : 0 < size)
    (hn : 1 ≤ d.dataN) (hwide : d.dataN ≤ 2 ^ 63) (hleast : min d.dataN 2 ≤ target)
    (hmost : target ≤ d.dataN) : Covers d target (forEachSample true seed src size target d) := by
  rcases Nat.lt_or_eq_of_le hmost with hless | hfull
  · rw [forEachSample_eq seed src hsize hn hless.ne]
    obtain ⟨hnodup, hlen, hbelow, hfirst, hlast⟩ := chosen_spec seed src size hwide hleast hless
    have hh := (Handed.nil d).appendAll (chosen seed src size d.dataN target)
    exact covers_of_perm ((emitSampleBatch_flatten _).trans hh.perm) hlen hnodup hbelow hfirst hlast
      (emitSampleBatch_groups hh.groups hh.room.le)
  · unfold forEachSample
    rw [if_neg (by simp; omega), if_neg (by omega), if_pos hfull]
    apply covers_of_perm (l := List.range d.dataN)
    · rw [← List.flatMap_def, ← List.map_eq_flatMap]
    · rw [List.length_range, hfull]
    · exact List.nodup_range
    · intro i hi
      exact List.mem_range.mp hi
    · exact List.mem_range.mpr (by omega)
    · exact List.mem_range.mpr (by omega)
    · intro g hg
      obtain ⟨i, -, rfl⟩ := List.mem_map.mp hg
      refine ⟨?_, List.pairwise_singleton _ _⟩
      show 1 ≤ batchMax
      decide

/-- Every extent begins and all but the last end at a block boundary. -/
structure Aligned (size : ℕ) (l : List Extent) : Prop extends Ordered size l where
  starts : ∀ e ∈ l, blockSize ∣ e.start
  stops : ∀ e ∈ l.dropLast, blockSize ∣ e.stop

theorem Aligned.apart_blocks {size : ℕ} {l : List Extent} (h : Aligned size l) :
    l.Pairwise fun a b => a.last ≤ b.first := by
  induction l with
  | nil => exact List.Pairwise.nil
  | cons e l ih =>
    rw [List.pairwise_cons]
    cases l with
    | nil => exact ⟨nofun, List.Pairwise.nil⟩
    | cons b l =>
      have hdrop : (e :: b :: l).dropLast = e :: (b :: l).dropLast := rfl
      constructor
      · intro x hx
        have hstop := h.stops e (hdrop ▸ List.mem_cons_self)
        have hle := List.rel_of_pairwise_cons h.apart hx
        unfold Extent.last Extent.first blockSize at *
        omega
      · apply ih
        refine ⟨h.toOrdered.tail, ?_, ?_⟩
        · exact fun x hx => h.starts x (List.mem_cons_of_mem e hx)
        · exact fun x hx => h.stops x (hdrop ▸ List.mem_cons_of_mem e hx)

/-- Extents that share no block have no more blocks than the file. -/
theorem sum_blocks_le_of_apart {total lo : ℕ} {l : List Extent}
    (hapart : l.Pairwise fun a b => a.last ≤ b.first) (hne : ∀ e ∈ l, e.first < e.last)
    (hlo : ∀ e ∈ l, lo ≤ e.first) (hin : ∀ e ∈ l, e.last ≤ total) (hle : lo ≤ total) :
    (l.map fun e => e.last - e.first).sum + lo ≤ total := by
  induction l generalizing lo with
  | nil => simpa using hle
  | cons e l ih =>
    have hrest := ih hapart.of_cons (fun x hx => hne x (.tail _ hx))
      (fun x hx => List.rel_of_pairwise_cons hapart hx) (fun x hx => hin x (.tail _ hx))
      (hin e (.head _))
    have hhead := hlo e (.head _)
    have hhead' := hne e (.head _)
    rw [List.map_cons, List.sum_cons]
    omega

theorem Aligned.blocksBefore_le {size i : ℕ} {l : List Extent} (h : Aligned size l) :
    blocksBefore l i ≤ (size + blockSize - 1) / blockSize := by
  have hsum : _ ≤ (size + blockSize - 1) / blockSize := sum_blocks_le_of_apart h.apart_blocks
    (fun e he => Extent.first_lt_last (h.nonempty e he)) (fun e _ => Nat.zero_le e.first)
    (by
      intro e he
      have hin := h.inside e he
      unfold Extent.last blockSize
      omega) (Nat.zero_le _)
  exact (blocksBefore_le_sum l i).trans hsum

/-- Numbers of blocks rise with the blocks. -/
theorem Numbers.block_lt {l : List Extent} {size i j : ℕ} (hd : Numbers d l) (h : Aligned size l)
    (hij : i < j) (hj : j < d.dataN) : d.block i < d.block j := by
  rw [hd.total] at hj
  obtain ⟨p, hp, hpi, hip⟩ := exists_between (hij.trans hj)
  obtain ⟨q, hq, hqj, hjq⟩ := exists_between hj
  rw [hd.block_eq hp hpi hip, hd.block_eq hq hqj hjq]
  have hstep := blocksBefore_succ hp
  rcases Nat.lt_trichotomy p q with hpq | rfl | hpq
  · have happart := List.pairwise_iff_getElem.mp h.apart_blocks p q hp hq hpq
    omega
  · omega
  · have hmono := blocksBefore_mono (l := l) (show q + 1 ≤ p by omega) hp.le
    omega

/-- The blocks that overlap an extent. -/
def overlapping (l : List Extent) : Set ℕ :=
  {b | ∃ e ∈ l, e.start < (b + 1) * blockSize ∧ b * blockSize < e.stop}

/-- The numbers of an aligned map are those of its blocks, in order. -/
structure Bijective (d : Domain) (l : List Extent) (size : ℕ) : Prop where
  few : d.dataN ≤ (size + blockSize - 1) / blockSize
  rising : ∀ i j, i < j → j < d.dataN → d.block i < d.block j
  blocks : Set.BijOn d.block (Set.Iio d.dataN) (overlapping l)
  offset : ∀ i, i < d.dataN → (sampleDomainOffset d i).offset = d.block i * blockSize
  length : ∀ i, i < d.dataN → 1 ≤ (sampleDomainOffset d i).length ∧
    (sampleDomainOffset d i).length ≤ blockSize ∧
    (sampleDomainOffset d i).offset + (sampleDomainOffset d i).length ≤ size

theorem sampleDomainInit_bijective {alloc : Allocator} {m : ExtentMap} {size : ℕ}
    (hm : Aligned size m.extents) (hs : m.supported = true) (hsize : size < 2 ^ 63)
    (h : sampleDomainInit alloc m size = some d) : Bijective d m.extents size := by
  obtain ⟨hd, hdsize⟩ := sampleDomainInit_numbers hm.toOrdered (by
    intro i
    have hle := hm.blocksBefore_le (i := i)
    unfold blockSize at hle
    omega) hsize hs h
  have hrising : ∀ i j, i < j → j < d.dataN → d.block i < d.block j :=
    fun i j hij hj => hd.block_lt hm hij hj
  have hover : ∀ i, i < d.dataN → d.block i ∈ overlapping m.extents := by
    intro i hi
    obtain ⟨e, he, hmem⟩ := hd.exists_block_iff.mp ⟨i, hi, rfl⟩
    exact ⟨e, he, Extent.mem_iff.mp hmem⟩
  have hinside : ∀ i, i < d.dataN → d.block i * blockSize < size := by
    intro i hi
    obtain ⟨e, he, -, hlt⟩ := hover i hi
    exact hlt.trans_le (hm.inside e he)
  have hsample : ∀ i, i < d.dataN → sampleDomainOffset d i =
      ⟨i, d.block i * blockSize, min blockSize (size - d.block i * blockSize)⟩ := by
    intro i hi
    rw [← hdsize]
    exact sampleDomainOffset_eq (hdsize ▸ hsize) (hdsize ▸ hinside i hi)
  constructor
  · rw [hd.total]
    exact hm.blocksBefore_le
  · exact hrising
  · refine ⟨hover, ?_, ?_⟩
    · intro i hi j hj heq
      rcases Nat.lt_trichotomy i j with hij | hij | hij
      · exact absurd heq (hrising i j hij hj).ne
      · exact hij
      · exact absurd heq.symm (hrising j i hij hi).ne
    · rintro b ⟨e, he, hmem⟩
      exact hd.exists_block_iff.mpr ⟨e, he, Extent.mem_iff.mpr hmem⟩
  · intro i hi
    rw [hsample i hi]
  · intro i hi
    rw [hsample i hi]
    have hlt := hinside i hi
    unfold blockSize at *
    dsimp only
    omega

/-- What is sampled, for any number of blocks, and which blocks these are for an aligned map. -/
theorem forEachSample_exact {seed : UInt64} {src : Bytes} {size target : ℕ} {d : Domain}
    (hsize : 0 < size) (hn : 1 ≤ d.dataN ∧ d.dataN ≤ 2 ^ 63)
    (htarget : min d.dataN 2 ≤ target ∧ target ≤ d.dataN) :
    Covers d target (forEachSample true seed src size target d) ∧
      ∀ (alloc : Allocator) (m : ExtentMap) (bytes : ℕ) (e : Domain), bytes < 2 ^ 63 →
        m.supported = true → Aligned bytes m.extents → sampleDomainInit alloc m bytes = some e →
          Bijective e m.extents bytes :=
  ⟨forEachSample_covers hsize hn.1 hn.2 htarget.1 htarget.2,
    fun _ _ _ _ hbytes hs hm h => sampleDomainInit_bijective hm hs hbytes h⟩

/-- Two extents; the second ends inside the fifth block. -/
def twoExtents : ExtentMap := ⟨[⟨0, 4096⟩, ⟨8192, 20000⟩], true⟩

def twoExtentsDomain : Domain := ⟨some twoExtents.extents, 20000, [0, 1], 4, 15904⟩

theorem forEachSample_exact_two :
    Covers twoExtentsDomain 3 (forEachSample true 7 [47, 97] 20000 3 twoExtentsDomain) ∧
      Bijective twoExtentsDomain twoExtents.extents 20000 := by
  have hexact : Covers twoExtentsDomain 3 (forEachSample true 7 [47, 97] 20000 3 twoExtentsDomain) ∧
      _ := forEachSample_exact (by decide) (by decide) (by decide)
  obtain ⟨hcovers, hbijective⟩ := hexact
  refine ⟨hcovers, hbijective ⟨fun n => decide (n ≤ 16), ?_⟩ twoExtents 20000 twoExtentsDomain
    (by decide) rfl ⟨⟨by decide, by decide, by decide⟩, by decide, by decide⟩ rfl⟩
  intro n hn
  exact (of_decide_eq_true hn).trans (by omega)

end Ecopy.Verify.Sampling
