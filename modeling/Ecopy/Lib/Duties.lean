import Ecopy.Lib.Calls

/-!
# Duties of programs

An answered call may put a duty on the program that made it, such as to remove
what it has created, and another one may discharge it. `Discharges l` says that a
program discharges the duty `l` before it ends, however its calls are answered. A
dutiful program discharges whatever it takes on, and makes calls that satisfy `ok`
as long as the answers satisfy `resp`.

`dutiful_advance` is the rule for a step of one program among many: the duties
that are due are those which some program still discharges.
-/
namespace Ecopy.Lib.Calls

namespace Prog
variable {C L : Type} {R : C → Type} {α β : Type}

/-- Which duties come and go with an answered call. -/
structure Duty (R : C → Type) (L : Type) where
  incurs : (c : C) → R c → L → Prop
  discharges : (c : C) → R c → L → Prop

variable {D : Duty R L} {ok : C → Prop} {resp : (c : C) → R c → Prop}

def Discharges (D : Duty R L) (l : L) : Prog R α → Prop
  | .ret _ => False
  | .call c k => ∀ r, D.discharges c r l ∨ (k r).Discharges D l

def Dutiful (D : Duty R L) (ok : C → Prop) (resp : (c : C) → R c → Prop) : Prog R α → Prop
  | .ret _ => True
  | .call c k => ok c ∧ ∀ r, resp c r →
      (∀ l, D.incurs c r l → (k r).Discharges D l) ∧ (k r).Dutiful D ok resp

theorem Discharges.bind_left {m : Prog R α} {f : α → Prog R β} {l : L} (h : m.Discharges D l) :
    (m >>= f).Discharges D l := by
  induction m with
  | ret a => exact h.elim
  | call c k ih => exact fun r => (h r).imp id (ih r)

theorem Discharges.bind_right {m : Prog R α} {f : α → Prog R β} {l : L}
    (h : ∀ a, (f a).Discharges D l) : (m >>= f).Discharges D l := by
  induction m with
  | ret a => exact h a
  | call c k ih => exact fun r => .inr (ih r)

theorem Dutiful.call {c : C} {f : R c → Prog R α} (hc : ok c)
    (hi : ∀ r, resp c r → ∀ l, D.incurs c r l → (f r).Discharges D l)
    (hf : ∀ r, resp c r → (f r).Dutiful D ok resp) :
    (Prog.perform c >>= f).Dutiful D ok resp :=
  ⟨hc, fun r hr => ⟨hi r hr, hf r hr⟩⟩

theorem Dutiful.bind {m : Prog R α} {f : α → Prog R β} (hm : m.Dutiful D ok resp)
    (hf : ∀ a, (f a).Dutiful D ok resp) : (m >>= f).Dutiful D ok resp := by
  induction m with
  | ret a => exact hf a
  | call c k ih =>
    refine ⟨hm.1, fun r hr => ?_⟩
    obtain ⟨hi, hk⟩ := hm.2 r hr
    exact ⟨fun l hl => (hi l hl).bind_left, ih r hk⟩

/-- Calls that put no duty on anybody. -/
theorem Dutiful.of_keeps {ok' : C → Prop} {m : Prog R α} (h : m.Keeps ok' resp)
    (hok : ∀ c, ok' c → ok c) (hfree : ∀ c, ok' c → ∀ r l, ¬ D.incurs c r l) :
    m.Dutiful D ok resp := by
  induction m with
  | ret a => trivial
  | call c k ih =>
    exact ⟨hok c h.1, fun r hr => ⟨fun l hl => absurd hl (hfree c h.1 r l), ih r (h.2 r hr)⟩⟩

variable {σ χ : Type} {answer : σ → χ → (c : C) → Option (R c × σ)} {due : σ → L → Prop}

/-- One call of one program. What is due afterwards was due before and has not been
discharged, or has just been incurred. -/
theorem dutiful_advance {I : σ → Prop}
    (hanswer : ∀ s x c r t, I s → ok c → answer s x c = some (r, t) → resp c r ∧ I t ∧
      ∀ l, due t l → (due s l ∧ ¬ D.discharges c r l) ∨ D.incurs c r l)
    {s t : σ} {x : χ} {m m' : Prog R α} (hs : I s) (hm : m.Dutiful D ok resp)
    (h : advance answer s x m = some (t, m')) :
    I t ∧ m'.Dutiful D ok resp ∧
      ∀ l, due t l → (due s l ∧ ¬ m.Discharges D l) ∨ m'.Discharges D l := by
  cases m with
  | ret a => cases h
  | call c k =>
    obtain ⟨⟨r, u⟩, hr, heq⟩ := Option.map_eq_some_iff.mp h
    obtain ⟨rfl, rfl⟩ := Prod.mk.inj heq
    obtain ⟨hresp, hinv, hdue⟩ := hanswer s x c r u hs hm.1 hr
    obtain ⟨hi, hk⟩ := hm.2 r hresp
    refine ⟨hinv, hk, fun l hl => ?_⟩
    rcases hdue l hl with ⟨hold, hnot⟩ | hnew
    · by_cases hd : (k r).Discharges D l
      · exact .inr hd
      · refine .inl ⟨hold, fun hall => ?_⟩
        rcases hall r with hdis | hdis
        · exact hnot hdis
        · exact hd hdis
    · exact .inr (hi l hnew)

/-- A dutiful program that runs alone leaves nothing due but what it was not in
charge of. -/
theorem Dutiful.alone {I : σ → Prop} {P : L → Prop}
    (hanswer : ∀ s x c r t, I s → ok c → answer s x c = some (r, t) → resp c r ∧ I t ∧
      ∀ l, due t l → (due s l ∧ ¬ D.discharges c r l) ∨ D.incurs c r l)
    {m : Prog R α} {s : σ} (hs : I s) (hm : m.Dutiful D ok resp)
    (hdue : ∀ l, due s l → P l ∨ m.Discharges D l) :
    m.Alone answer (fun t _ => I t ∧ ∀ l, due t l → P l) s := by
  induction m generalizing s with
  | ret a => exact ⟨hs, fun l hl => (hdue l hl).resolve_right id⟩
  | call c k ih =>
    intro x r t hr
    obtain ⟨hresp, hinv, hstep⟩ := hanswer s x c r t hs hm.1 hr
    obtain ⟨hi, hk⟩ := hm.2 r hresp
    refine ih r hinv hk fun l hl => ?_
    rcases hstep l hl with ⟨hold, hnot⟩ | hnew
    · rcases hdue l hold with hP | hdis
      · exact .inl hP
      · exact .inr ((hdis r).resolve_left hnot)
    · exact .inr (hi l hnew)

end Prog

end Ecopy.Lib.Calls
