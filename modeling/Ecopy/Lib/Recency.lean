import Mathlib.Data.List.Basic
import Mathlib.Logic.Function.Basic
import Mathlib.Tactic.Common

/-!
# Lists by recency of use

The nodes of a cache stand in the order of their last use, the latest first. A use moves a
node to the front. To make room, nodes that nobody uses at the moment are shed from the other
end; those in use are passed over.
-/
namespace Ecopy.Lib.Recency
variable {ι : Type*}

/-- The order of the list is that of the stamps, the latest first. -/
def Recent (stamp : ι → ℕ) (l : List ι) : Prop := l.Pairwise fun x y => stamp y < stamp x

/-- Take unpinned nodes from the front of a list until `surplus` of them are gone. -/
def shed (pinned : ι → Bool) : ℕ → List ι → List ι
  | 0, l => l
  | _ + 1, [] => []
  | surplus + 1, e :: l =>
    if pinned e then e :: shed pinned (surplus + 1) l else shed pinned surplus l

section Recent
variable {stamp : ι → ℕ} {l : List ι} {e : ι} {now : ℕ}

theorem Recent.sublist {l' : List ι} (h : Recent stamp l) (hsub : l'.Sublist l) :
    Recent stamp l' :=
  List.Pairwise.sublist hsub h

theorem Recent.reverse (h : Recent stamp l) :
    l.reverse.Pairwise fun x y => stamp x < stamp y :=
  List.pairwise_reverse.mpr h

variable [DecidableEq ι]

/-- A node that is used now comes first. -/
theorem Recent.use (h : Recent stamp l) (he : e ∉ l) (hnow : ∀ x ∈ l, stamp x < now) :
    Recent (Function.update stamp e now) (e :: l) := by
  have hsame : ∀ x ∈ l, Function.update stamp e now x = stamp x := by
    intro x hx
    apply Function.update_of_ne
    rintro rfl
    exact he hx
  apply List.pairwise_cons.mpr
  constructor
  · intro x hx
    rw [Function.update_self, hsame x hx]
    exact hnow x hx
  · apply List.Pairwise.imp_of_mem _ h
    intro x y hx hy hlt
    rw [hsame x hx, hsame y hy]
    exact hlt

end Recent

section Shed
variable {pinned : ι → Bool} {surplus : ℕ} {l : List ι} {e : ι}

theorem shed_zero (pinned : ι → Bool) (l : List ι) : shed pinned 0 l = l := by
  cases l with
  | nil => rfl
  | cons x l => rfl

theorem shed_cons_of_pinned (h : pinned e = true) :
    shed pinned (surplus + 1) (e :: l) = e :: shed pinned (surplus + 1) l := by
  rw [shed, if_pos h]

theorem shed_cons_of_unused (h : pinned e = false) :
    shed pinned (surplus + 1) (e :: l) = shed pinned surplus l := by
  rw [shed, if_neg (by rw [h]; exact Bool.false_ne_true)]

theorem shed_sublist (pinned : ι → Bool) (surplus : ℕ) (l : List ι) :
    (shed pinned surplus l).Sublist l := by
  induction l generalizing surplus with
  | nil =>
    cases surplus with
    | zero => exact List.Sublist.refl _
    | succ surplus => exact List.Sublist.refl _
  | cons x l ih =>
    cases surplus with
    | zero => exact List.Sublist.refl _
    | succ surplus =>
      unfold shed
      split_ifs
      · exact (ih (surplus + 1)).cons_cons x
      · exact (ih surplus).cons x

theorem shed_congr {pinned' : ι → Bool} (h : ∀ e ∈ l, pinned' e = pinned e) :
    shed pinned surplus l = shed pinned' surplus l := by
  induction l generalizing surplus with
  | nil =>
    cases surplus with
    | zero => rfl
    | succ surplus => rfl
  | cons x l ih =>
    have htail : ∀ e ∈ l, pinned' e = pinned e := fun e he => h e (List.mem_cons_of_mem x he)
    cases surplus with
    | zero => rfl
    | succ surplus =>
      unfold shed
      rw [h x List.mem_cons_self, ih htail, ih htail]

theorem mem_shed_of_pinned (he : e ∈ l) (hpinned : pinned e = true) :
    e ∈ shed pinned surplus l := by
  induction l generalizing surplus with
  | nil => cases he
  | cons x l ih =>
    cases surplus with
    | zero => exact he
    | succ surplus =>
      unfold shed
      split_ifs with hx
      · rcases List.mem_cons.mp he with rfl | he
        · exact List.mem_cons_self
        · exact List.mem_cons_of_mem x (ih he)
      · rcases List.mem_cons.mp he with rfl | he
        · exact absurd hpinned hx
        · exact ih he

/-- The surplus is gone, or whatever is left is in use. -/
theorem length_shed (pinned : ι → Bool) (surplus : ℕ) (l : List ι) :
    (shed pinned surplus l).length + surplus = l.length ∨
      ∀ e ∈ shed pinned surplus l, pinned e = true := by
  induction l generalizing surplus with
  | nil =>
    cases surplus with
    | zero => exact Or.inl rfl
    | succ surplus => exact Or.inr fun _ he => (List.not_mem_nil he).elim
  | cons x l ih =>
    cases surplus with
    | zero => exact Or.inl rfl
    | succ surplus =>
      unfold shed
      split_ifs with hx
      · rcases ih (surplus + 1) with hlen | hall
        · left
          rw [List.length_cons, List.length_cons]
          omega
        · right
          intro e he
          rcases List.mem_cons.mp he with rfl | he
          · exact hx
          · exact hall e he
      · rcases ih surplus with hlen | hall
        · left
          rw [List.length_cons]
          omega
        · exact Or.inr hall

/-- A node that was shed stands before every node left that is not in use. -/
theorem shed_order {r : ι → ι → Prop} {e' : ι} (h : l.Pairwise r) (he : e ∈ l)
    (hgone : e ∉ shed pinned surplus l) (hleft : e' ∈ shed pinned surplus l)
    (hunused : pinned e' = false) : r e e' := by
  induction l generalizing surplus with
  | nil => cases he
  | cons x l ih =>
    obtain ⟨hx, h⟩ := List.pairwise_cons.mp h
    cases surplus with
    | zero => exact absurd he hgone
    | succ surplus =>
      unfold shed at hgone hleft
      split_ifs at hgone hleft with hpinned
      · rcases List.mem_cons.mp hleft with rfl | hleft
        · rw [hpinned] at hunused
          cases hunused
        · rcases List.mem_cons.mp he with rfl | he
          · exact absurd List.mem_cons_self hgone
          · exact ih h he (fun hmem => hgone (List.mem_cons_of_mem x hmem)) hleft
      · rcases List.mem_cons.mp he with rfl | he
        · exact hx e' ((shed_sublist _ _ _).subset hleft)
        · exact ih h he hgone hleft

/-- What was shed was not in use. -/
theorem unused_of_shed (he : e ∈ l) (hgone : e ∉ shed pinned surplus l) : pinned e = false := by
  cases hpinned : pinned e with
  | false => rfl
  | true => exact absurd (mem_shed_of_pinned he hpinned) hgone

end Shed

end Ecopy.Lib.Recency
