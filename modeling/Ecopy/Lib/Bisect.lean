import Mathlib.Tactic.Common

/-!
# Searching by halves

Two loops that halve a range of indices. `firstFailing` looks for the end of the
indices at which a predicate holds, and needs the predicate to hold on a beginning of
the range. `lastHolding` looks for an index at which the predicate holds while it
fails at the next one; for that nothing is asked of the predicate.
-/
namespace Ecopy.Lib.Bisect

variable (p : ℕ → Bool)

def firstFailing (lo hi : ℕ) : ℕ :=
  if lo < hi then
    if p (lo + (hi - lo) / 2) then firstFailing (lo + (hi - lo) / 2 + 1) hi
    else firstFailing lo (lo + (hi - lo) / 2)
  else lo
termination_by hi - lo

def lastHolding (lo hi : ℕ) : ℕ :=
  if 1 < hi - lo then
    if p (lo + (hi - lo) / 2) then lastHolding (lo + (hi - lo) / 2) hi
    else lastHolding lo (lo + (hi - lo) / 2)
  else lo
termination_by hi - lo

variable {p}

theorem firstFailing_mem {lo hi : ℕ} (hle : lo ≤ hi) :
    lo ≤ firstFailing p lo hi ∧ firstFailing p lo hi ≤ hi := by
  fun_induction firstFailing p lo hi with
  | case1 lo hi hlt hp ih =>
    obtain ⟨h₁, h₂⟩ := ih (by omega)
    constructor <;> omega
  | case2 lo hi hlt hp ih =>
    obtain ⟨h₁, h₂⟩ := ih (by omega)
    constructor <;> omega
  | case3 lo hi hlt => exact ⟨Nat.le_refl lo, hle⟩

/-- Everything before the result holds and the result itself fails. -/
theorem firstFailing_spec {lo hi : ℕ} (hle : lo ≤ hi)
    (hmono : ∀ i j, i ≤ j → j < hi → p j = true → p i = true) :
    (∀ i, lo ≤ i → i < firstFailing p lo hi → p i = true) ∧
      (firstFailing p lo hi < hi → p (firstFailing p lo hi) = false) := by
  fun_induction firstFailing p lo hi with
  | case1 lo hi hlt hp ih =>
    obtain ⟨hbefore, hat⟩ := ih (by omega) hmono
    constructor
    · intro i _ hi'
      by_cases hmid : i ≤ lo + (hi - lo) / 2
      · exact hmono i _ hmid (by omega) hp
      · exact hbefore i (by omega) hi'
    · exact hat
  | case2 lo hi hlt hp ih =>
    obtain ⟨hbefore, hat⟩ := ih (by omega) fun i j hij hj => hmono i j hij (by omega)
    constructor
    · exact hbefore
    · intro _
      by_cases hmid : firstFailing p lo (lo + (hi - lo) / 2) < lo + (hi - lo) / 2
      · exact hat hmid
      · have hend := (firstFailing_mem (p := p) (show lo ≤ lo + (hi - lo) / 2 by omega)).2
        have heq : firstFailing p lo (lo + (hi - lo) / 2) = lo + (hi - lo) / 2 := by omega
        rw [heq]
        exact Bool.eq_false_iff.mpr hp
  | case3 lo hi hlt =>
    constructor
    · intro i h₁ h₂
      omega
    · intro h
      exact absurd h hlt

theorem lastHolding_mem {lo hi : ℕ} (hlt : lo < hi) :
    lo ≤ lastHolding p lo hi ∧ lastHolding p lo hi < hi := by
  fun_induction lastHolding p lo hi with
  | case1 lo hi hgap hp ih =>
    obtain ⟨h₁, h₂⟩ := ih (by omega)
    constructor <;> omega
  | case2 lo hi hgap hp ih =>
    obtain ⟨h₁, h₂⟩ := ih (by omega)
    constructor <;> omega
  | case3 lo hi hgap => exact ⟨Nat.le_refl lo, hlt⟩

/-- The predicate holds at the result if it holds at the start, and it fails at the
next index unless that is the end of the range. -/
theorem lastHolding_spec {lo hi : ℕ} (hlt : lo < hi) (hlo : p lo = true) :
    p (lastHolding p lo hi) = true ∧
      (lastHolding p lo hi + 1 < hi → p (lastHolding p lo hi + 1) = false) := by
  fun_induction lastHolding p lo hi with
  | case1 lo hi hgap hp ih => exact ih (by omega) hp
  | case2 lo hi hgap hp ih =>
    obtain ⟨hat, hnext⟩ := ih (by omega) hlo
    constructor
    · exact hat
    · intro _
      have hmem := (lastHolding_mem (p := p) (show lo < lo + (hi - lo) / 2 by omega)).2
      by_cases hmid : lastHolding p lo (lo + (hi - lo) / 2) + 1 < lo + (hi - lo) / 2
      · exact hnext hmid
      · have heq : lastHolding p lo (lo + (hi - lo) / 2) + 1 = lo + (hi - lo) / 2 := by omega
        rw [heq]
        exact Bool.eq_false_iff.mpr hp
  | case3 lo hi hgap =>
    constructor
    · exact hlo
    · intro h
      omega

end Ecopy.Lib.Bisect
