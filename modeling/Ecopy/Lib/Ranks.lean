import Mathlib.Algebra.Order.BigOperators.Group.List
import Mathlib.Algebra.Order.Group.Nat
import Mathlib.Order.Lattice.Nat
import Mathlib.Data.List.Basic
import Mathlib.Data.List.Count

/-!
# Ranks in a population sorted into bins

A population is a list with a bin number for each member. `upTo b` counts the members of the
bins up to `b`, and `binAt r` is the first bin that reaches the rank `r`, which is the bin of
the `r`-th smallest member. Neither depends on the order of the list.

`Best` is the member that no other one beats; it is found from the best of two parts.
-/
namespace Ecopy.Lib.Ranks
variable {α : Type*} (bin : α → ℕ) (pop : List α)

/-- How many members lie in the bins up to `b`. -/
def upTo (b : ℕ) : ℕ := pop.countP fun a => bin a ≤ b

def below (b : ℕ) : ℕ := pop.countP fun a => bin a < b

/-- The first bin with which `r` members are reached. -/
noncomputable def binAt (r : ℕ) : ℕ := sInf {b | r ≤ upTo bin pop b}

theorem upTo_mono {b c : ℕ} (h : b ≤ c) : upTo bin pop b ≤ upTo bin pop c := by
  apply List.countP_mono_left
  intro a _ ha
  exact decide_eq_true ((of_decide_eq_true ha).trans h)

theorem upTo_le_length (b : ℕ) : upTo bin pop b ≤ pop.length := List.countP_le_length

@[simp] theorem below_zero : below bin pop 0 = 0 := by simp [below]

@[simp] theorem below_succ (b : ℕ) : below bin pop (b + 1) = upTo bin pop b := by
  simp only [below, upTo, Nat.lt_succ_iff]

theorem upTo_eq (b : ℕ) :
    upTo bin pop b = below bin pop b + pop.countP fun a => bin a = b := by
  unfold upTo below
  induction pop with
  | nil => rfl
  | cons a pop ih =>
    simp only [List.countP_cons, ih, decide_eq_true_iff]
    split_ifs <;> omega

variable {bin pop}

theorem upTo_eq_length {b : ℕ} (h : ∀ a ∈ pop, bin a ≤ b) : upTo bin pop b = pop.length :=
  List.countP_eq_length.mpr fun a ha => decide_eq_true (h a ha)

/-- Every rank of the population is reached. -/
theorem exists_reached {r : ℕ} (h : r ≤ pop.length) : ∃ b, r ≤ upTo bin pop b := by
  refine ⟨(pop.map bin).sum, ?_⟩
  rw [upTo_eq_length]
  · exact h
  · exact fun a ha =>
      List.single_le_sum (fun x _ => Nat.zero_le x) (bin a) (List.mem_map_of_mem ha)

theorem binAt_le_iff {r b : ℕ} (h : r ≤ pop.length) :
    binAt bin pop r ≤ b ↔ r ≤ upTo bin pop b := by
  constructor
  · intro hle
    have hmem : r ≤ upTo bin pop (binAt bin pop r) := Nat.sInf_mem (exists_reached h)
    exact hmem.trans (upTo_mono bin pop hle)
  · exact fun hr => Nat.sInf_le hr

/-- The first bin to reach a rank from one on is not empty. -/
theorem exists_mem_binAt (bin : α → ℕ) {r : ℕ} (hpos : 1 ≤ r) (h : r ≤ pop.length) :
    ∃ a ∈ pop, bin a = binAt bin pop r := by
  have hreach := (binAt_le_iff h).mp (le_refl (binAt bin pop r))
  have hbefore : below bin pop (binAt bin pop r) < r := by
    cases hb : binAt bin pop r with
    | zero =>
      rw [below_zero]
      exact hpos
    | succ b =>
      rw [below_succ, ← Nat.not_le, ← binAt_le_iff h]
      omega
  rw [upTo_eq] at hreach
  have hcount : 0 < pop.countP fun a => bin a = binAt bin pop r := by omega
  obtain ⟨a, ha, heq⟩ := List.countP_pos_iff.mp hcount
  exact ⟨a, ha, of_decide_eq_true heq⟩

/-- Up to the lowest bin only its own members are counted. -/
theorem upTo_lowest {b : ℕ} (h : ∀ a ∈ pop, b ≤ bin a) :
    upTo bin pop b = pop.countP fun a => bin a = b := by
  apply List.countP_congr
  intro a ha
  have hle := h a ha
  rw [decide_eq_true_iff, decide_eq_true_iff]
  omega

/-- The bins of two ranks are ordered exactly when no bin reaches the second without the
first. -/
theorem binAt_le_binAt_iff {r q : ℕ} (hr : r ≤ pop.length) (hq : q ≤ pop.length) :
    binAt bin pop r ≤ binAt bin pop q ↔
      ∀ b, q ≤ upTo bin pop b → r ≤ upTo bin pop b := by
  rw [binAt_le_iff hr]
  constructor
  · intro h b hb
    exact h.trans (upTo_mono bin pop ((binAt_le_iff hq).mpr hb))
  · exact fun h => h _ ((binAt_le_iff hq).mp le_rfl)

theorem upTo_perm {other : List α} (h : pop.Perm other) (b : ℕ) :
    upTo bin pop b = upTo bin other b :=
  h.countP_eq _

theorem binAt_perm {other : List α} (h : pop.Perm other) (r : ℕ) :
    binAt bin pop r = binAt bin other r := by
  unfold binAt
  simp only [upTo_perm h]

/-- Where the list ascends along the bins, a rank is a position. -/
theorem binAt_of_ascending {front back : List α} {a : α}
    (h : (front ++ a :: back).Pairwise fun x y => bin x ≤ bin y) :
    binAt bin (front ++ a :: back) (front.length + 1) = bin a := by
  obtain ⟨-, hback, hfront⟩ := List.pairwise_append.mp h
  have hrank : front.length + 1 ≤ (front ++ a :: back).length := by
    rw [List.length_append, List.length_cons]
    omega
  apply Nat.le_antisymm
  · rw [binAt_le_iff hrank, upTo, List.countP_append, List.countP_cons,
      if_pos (decide_eq_true (le_refl (bin a)))]
    have hall : (front.countP fun x => bin x ≤ bin a) = front.length :=
      List.countP_eq_length.mpr fun x hx => decide_eq_true (hfront x hx a List.mem_cons_self)
    omega
  · by_contra hlt
    have hreach : front.length + 1 ≤ upTo bin (front ++ a :: back)
        (binAt bin (front ++ a :: back) (front.length + 1)) := (binAt_le_iff hrank).mp le_rfl
    -- from `a` on no member is in so low a bin
    have hnone : (a :: back).countP
        (fun x => bin x ≤ binAt bin (front ++ a :: back) (front.length + 1)) = 0 := by
      rw [List.countP_eq_zero]
      intro x hx hle
      have hle := of_decide_eq_true hle
      rcases List.mem_cons.mp hx with rfl | hx
      · exact hlt hle
      · exact hlt (((List.pairwise_cons.mp hback).1 x hx).trans hle)
    have hfew : (front.countP fun x =>
        bin x ≤ binAt bin (front ++ a :: back) (front.length + 1)) ≤ front.length :=
      List.countP_le_length
    rw [upTo, List.countP_append, hnone] at hreach
    omega

section Best
variable (better : α → α → Prop)

structure Best (m : α) (pop : List α) : Prop where
  mem : m ∈ pop
  unbeaten : ∀ a ∈ pop, ¬ better a m

theorem Best.singleton (hirrefl : ∀ a, ¬ better a a) (m : α) : Best better m [m] := by
  refine ⟨List.mem_singleton_self m, ?_⟩
  intro a ha
  rw [List.mem_singleton.mp ha]
  exact hirrefl m

/-- The best of the first part, unless that is empty or beaten by the best of the second. -/
theorem Best.join [DecidableRel better] {old new : List α} {a b : α}
    (htrans : ∀ a b c, better a b → better b c → better a c)
    (hweak : ∀ a b c, better a c → better a b ∨ better b c)
    (ha : old ≠ [] → Best better a old) (hb : Best better b new) {empty : Prop} [Decidable empty]
    (hempty : empty ↔ old = []) :
    Best better (if empty ∨ better b a then b else a) (old ++ new) := by
  split_ifs with hcase
  · refine ⟨List.mem_append_right _ hb.mem, ?_⟩
    intro x hx
    rcases List.mem_append.mp hx with hx | hx
    · rcases hcase with hnil | hbetter
      · rw [hempty.mp hnil] at hx
        cases hx
      · exact fun hbeat =>
          (ha (List.ne_nil_of_mem hx)).unbeaten x hx (htrans x b a hbeat hbetter)
    · exact hb.unbeaten x hx
  · rw [not_or] at hcase
    have hne : old ≠ [] := fun hnil => hcase.1 (hempty.mpr hnil)
    refine ⟨List.mem_append_left _ (ha hne).mem, ?_⟩
    intro x hx
    rcases List.mem_append.mp hx with hx | hx
    · exact (ha hne).unbeaten x hx
    · intro hbeat
      exact (hweak x b a hbeat).elim (hb.unbeaten x hx) hcase.2

end Best

end Ecopy.Lib.Ranks
