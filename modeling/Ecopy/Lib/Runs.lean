import Mathlib.Data.List.Basic
import Mathlib.Tactic.Common

/-!
# Schedules of a partial step function

A concurrent program is given by a step function that returns `none` when the
chosen action is not enabled. A run is a finite list of actions; the scheduler
is the choice of that list. Safety properties are proved with one rule: an
invariant of the initial state that every enabled action keeps holds at the
end of every run. The guarded form asks this only of the actions that occur.
-/
namespace Ecopy.Lib.Runs
variable {σ α : Type*}

/-- Fold a step function over a schedule. An action that is not enabled stops
the whole run, so a schedule is legal exactly when the result is `some`. -/
def exec (next : σ → α → Option σ) : σ → List α → Option σ
  | s, [] => some s
  | s, a :: as => (next s a).bind fun u => exec next u as

def Reachable (next : σ → α → Option σ) (init s : σ) : Prop :=
  ∃ as, exec next init as = some s

@[simp] theorem exec_nil (next : σ → α → Option σ) (s : σ) : exec next s [] = some s := rfl

variable {next : σ → α → Option σ} {G : σ → α → Prop} {s : σ} {as : List α}

theorem exec_cons_eq_some {v : σ} {a : α} :
    exec next s (a :: as) = some v ↔ ∃ u, next s a = some u ∧ exec next u as = some v := by
  simp [exec, Option.bind_eq_some_iff]

theorem exec_append {u v : σ} {bs : List α} (ha : exec next s as = some u)
    (hb : exec next u bs = some v) : exec next s (as ++ bs) = some v := by
  induction as generalizing s with
  | nil =>
    cases ha
    exact hb
  | cons a as ih =>
    obtain ⟨w, hw, ha⟩ := exec_cons_eq_some.mp ha
    exact exec_cons_eq_some.mpr ⟨w, hw, ih ha⟩

theorem exec_append_eq_some {v : σ} {bs : List α} :
    exec next s (as ++ bs) = some v ↔ ∃ u, exec next s as = some u ∧ exec next u bs = some v := by
  induction as generalizing s with
  | nil => simp
  | cons a as ih =>
    rw [List.cons_append, exec_cons_eq_some]
    constructor
    · rintro ⟨w, hw, hr⟩
      obtain ⟨u, hu, hv⟩ := ih.mp hr
      exact ⟨u, exec_cons_eq_some.mpr ⟨w, hw, hu⟩, hv⟩
    · rintro ⟨u, hu, hv⟩
      obtain ⟨w, hw, hu⟩ := exec_cons_eq_some.mp hu
      exact ⟨w, hw, ih.mpr ⟨u, hu, hv⟩⟩

/-- The guarded invariant rule: only the actions of the schedule have to keep
the invariant. -/
theorem exec_invariant_of {I : σ → Prop} {P : α → Prop}
    (hstep : ∀ s a u, P a → I s → next s a = some u → I u) {as : List α} {s u : σ}
    (hP : ∀ a ∈ as, P a) (hs : I s) (hr : exec next s as = some u) : I u := by
  induction as generalizing s with
  | nil =>
    cases hr
    exact hs
  | cons a as ih =>
    obtain ⟨w, hw, hr⟩ := exec_cons_eq_some.mp hr
    have hw' : I w := hstep s a w (hP a (by simp)) hs hw
    exact ih (fun b hb => hP b (by simp [hb])) hw' hr

/-- Every action of a schedule meets a condition on the state it is taken in. -/
def Along (next : σ → α → Option σ) (G : σ → α → Prop) : σ → List α → Prop
  | _, [] => True
  | s, a :: as => G s a ∧ ∀ u, next s a = some u → Along next G u as

/-- A condition that can be tested can be tested along a schedule. -/
def decidableAlong (next : σ → α → Option σ) (G : σ → α → Prop) [∀ s a, Decidable (G s a)] :
    (as : List α) → (s : σ) → Decidable (Along next G s as)
  | [], _ => .isTrue trivial
  | a :: as, s =>
    have : Decidable (∀ u, next s a = some u → Along next G u as) :=
      match next s a with
      | none => .isTrue fun _ hu => (nomatch hu)
      | some u =>
        match decidableAlong next G as u with
        | .isTrue hu => .isTrue fun _ heq => Option.some.inj heq ▸ hu
        | .isFalse hu => .isFalse fun hall => hu (hall u rfl)
    inferInstanceAs (Decidable (G s a ∧ ∀ u, next s a = some u → Along next G u as))

instance (next : σ → α → Option σ) (G : σ → α → Prop) [∀ s a, Decidable (G s a)] (as : List α)
    (s : σ) : Decidable (Along next G s as) :=
  decidableAlong next G as s

theorem Along.of_forall (h : ∀ a ∈ as, ∀ s, G s a) (s : σ) : Along next G s as := by
  induction as generalizing s with
  | nil => trivial
  | cons a as ih => exact ⟨h a (by simp) s, fun u _ => ih (fun b hb => h b (by simp [hb])) u⟩

theorem Along.mono {G' : σ → α → Prop} (h : Along next G s as) (hG : ∀ s a, G s a → G' s a) :
    Along next G' s as := by
  induction as generalizing s with
  | nil => trivial
  | cons a as ih => exact ⟨hG s a h.1, fun u hu => ih (h.2 u hu)⟩

theorem Along.cons {a : α} {u : σ} (ha : G s a) (hu : next s a = some u) (has : Along next G u as) :
    Along next G s (a :: as) := by
  refine ⟨ha, fun v hv => ?_⟩
  rw [hu] at hv
  cases hv
  exact has

theorem Along.append {bs : List α} (ha : Along next G s as)
    (hb : ∀ u, exec next s as = some u → Along next G u bs) : Along next G s (as ++ bs) := by
  induction as generalizing s with
  | nil => exact hb s rfl
  | cons a as ih =>
    refine ⟨ha.1, fun u hu => ih (ha.2 u hu) fun v hv => hb v ?_⟩
    exact exec_cons_eq_some.mpr ⟨u, hu, hv⟩

/-- The invariant rule for a condition on the steps of a run. -/
theorem Along.invariant {I : σ → Prop} (hstep : ∀ s a u, G s a → I s → next s a = some u → I u)
    {as : List α} {s u : σ} (hG : Along next G s as) (hs : I s) (hr : exec next s as = some u) :
    I u := by
  induction as generalizing s with
  | nil =>
    cases hr
    exact hs
  | cons a as ih =>
    obtain ⟨w, hw, hr⟩ := exec_cons_eq_some.mp hr
    exact ih (hG.2 w hw) (hstep s a w hG.1 hs hw) hr

theorem Reachable.invariant {I : σ → Prop} {init : σ} (h : Reachable next init s) (hinit : I init)
    (hstep : ∀ s a u, I s → next s a = some u → I u) : I s := by
  obtain ⟨as, has⟩ := h
  exact exec_invariant_of (P := fun _ => True) (fun s a u _ => hstep s a u)
    (fun _ _ => trivial) hinit has

theorem Reachable.exec {init u : σ} (h : Reachable next init s) (hr : exec next s as = some u) :
    Reachable next init u := by
  obtain ⟨bs, hbs⟩ := h
  exact ⟨bs ++ as, exec_append hbs hr⟩

end Ecopy.Lib.Runs
