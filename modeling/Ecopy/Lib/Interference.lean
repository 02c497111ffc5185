import Ecopy.Lib.Calls
import Ecopy.Lib.Runs

/-!
# Programs that share their state

Several programs work on one state, one call at a time and in any order. Between two calls
of one program the others may have moved the state. `Amid` is the weakest precondition of a
program under such moves: `rely` is what the others may do, `guar` what every call of the
program itself does. Only calls that are made under the condition `G` count.

When every program guarantees what the others rely on, each keeps its condition whoever
makes the next call (`Crowd.next_amid`).
-/
namespace Ecopy.Lib.Calls.Prog
variable {C : Type} {R : C → Type} {α β σ χ : Type}

def Amid (answer : σ → χ → (c : C) → Option (R c × σ)) (G : σ → C → Prop)
    (rely guar : σ → σ → Prop) (post : σ → α → Prop) : Prog R α → σ → Prop
  | .ret a, s => ∀ t, rely s t → post t a
  | .call c k, s => ∀ t, rely s t → G t c → ∀ x r u, answer t x c = some (r, u) →
      guar t u ∧ (k r).Amid answer G rely guar post u

section Amid
variable {answer : σ → χ → (c : C) → Option (R c × σ)} {G : σ → C → Prop}
  {rely guar : σ → σ → Prop}

/-- What is known is known after a move of the others. -/
theorem Amid.moved [IsTrans σ rely] {post : σ → α → Prop} {m : Prog R α} {s t : σ}
    (h : m.Amid answer G rely guar post s) (hst : rely s t) :
    m.Amid answer G rely guar post t := by
  cases m with
  | ret a => exact fun u hu => h u (IsTrans.trans _ _ _ hst hu)
  | call c k => exact fun u hu => h u (IsTrans.trans _ _ _ hst hu)

theorem Amid.bind [Std.Refl rely] {mid : σ → α → Prop} {post : σ → β → Prop} {m : Prog R α}
    {f : α → Prog R β} {s : σ} (h : m.Amid answer G rely guar mid s)
    (hf : ∀ t a, mid t a → (f a).Amid answer G rely guar post t) :
    (m >>= f).Amid answer G rely guar post s := by
  induction m generalizing s with
  | ret a => exact hf s a (h s (refl s))
  | call c k ih =>
    intro t ht hG x r u hx
    obtain ⟨hguar, hk⟩ := h t ht hG x r u hx
    exact ⟨hguar, ih r hk⟩

theorem Amid.mono {post post' : σ → α → Prop} {m : Prog R α} {s : σ}
    (h : m.Amid answer G rely guar post s) (hp : ∀ t a, post t a → post' t a) :
    m.Amid answer G rely guar post' s := by
  induction m generalizing s with
  | ret a => exact fun t ht => hp t a (h t ht)
  | call c k ih =>
    intro t ht hG x r u hx
    obtain ⟨hguar, hk⟩ := h t ht hG x r u hx
    exact ⟨hguar, ih r hk⟩

/-- What no move of the others destroys is still known at the end. -/
theorem Amid.keep {P : σ → Prop} (hP : ∀ t u, rely t u → P t → P u) {post : σ → α → Prop}
    (hguar : ∀ t u, guar t u → rely t u) {m : Prog R α} {s : σ}
    (h : m.Amid answer G rely guar post s) (hs : P s) :
    m.Amid answer G rely guar (fun t a => P t ∧ post t a) s := by
  induction m generalizing s with
  | ret a => exact fun t ht => ⟨hP s t ht hs, h t ht⟩
  | call c k ih =>
    intro t ht hG x r u hx
    obtain ⟨hg, hk⟩ := h t ht hG x r u hx
    exact ⟨hg, ih r hk (hP t u (hguar t u hg) (hP s t ht hs))⟩

/-- Calls that are all right in any state. -/
theorem Amid.of_safe {ok : C → Prop} {post : α → Prop}
    (hanswer : ∀ t x c r u, G t c → ok c → answer t x c = some (r, u) → guar t u)
    {m : Prog R α} (h : m.Safe ok (fun _ _ => True) post) (s : σ) :
    m.Amid answer G rely guar (fun _ a => post a) s := by
  induction m generalizing s with
  | ret a => exact fun _ _ => h
  | call c k ih =>
    exact fun t _ hG x r u hx => ⟨hanswer t x c r u hG h.1 hx, ih r (h.2 r trivial) u⟩

/-- Less may happen around the program, and less is asked of it. -/
theorem Amid.weaken {G' : σ → C → Prop} {rely' guar' : σ → σ → Prop} {post : σ → α → Prop}
    {m : Prog R α} {s : σ} (h : m.Amid answer G rely guar post s)
    (hG : ∀ t c, G' t c → G t c) (hrely : ∀ t u, rely' t u → rely t u)
    (hguar : ∀ t u, guar t u → guar' t u) : m.Amid answer G' rely' guar' post s := by
  induction m generalizing s with
  | ret a => exact fun t ht => h t (hrely s t ht)
  | call c k ih =>
    intro t ht hGt x r u hx
    obtain ⟨hg, hk⟩ := h t (hrely s t ht) (hG t c hGt) x r u hx
    exact ⟨hguar t u hg, ih r hk⟩

end Amid

/-- The shared state, and what every program still has to do. -/
structure Crowd {C : Type} (R : C → Type) (α σ ι : Type) where
  shared : σ
  left : ι → Prog R α

namespace Crowd
variable {ι : Type} [DecidableEq ι]

/-- One program makes its next call. -/
def next (answer : σ → χ → (c : C) → Option (R c × σ)) (s : Crowd R α σ ι) (act : ι × χ) :
    Option (Crowd R α σ ι) :=
  (advance answer s.shared act.2 (s.left act.1)).map fun out =>
    ⟨out.1, Function.update s.left act.1 out.2⟩

/-- The call that is made meets the condition. -/
def Heeds (G : σ → C → Prop) (s : Crowd R α σ ι) (act : ι × χ) : Prop :=
  ∀ c k, s.left act.1 = .call c k → G s.shared c

variable {answer : σ → χ → (c : C) → Option (R c × σ)} {G : σ → C → Prop}
  {rel : σ → σ → Prop} [Std.Refl rel] [IsTrans σ rel]

theorem next_amid {post : ι → σ → α → Prop} {s t : Crowd R α σ ι} {act : ι × χ}
    (hG : Heeds G s act) (h : ∀ i, (s.left i).Amid answer G rel rel (post i) s.shared)
    (hnext : next answer s act = some t) :
    rel s.shared t.shared ∧ ∀ i, (t.left i).Amid answer G rel rel (post i) t.shared := by
  obtain ⟨i, x⟩ := act
  obtain ⟨⟨u, m⟩, hadv, rfl⟩ := Option.map_eq_some_iff.mp hnext
  have hi := h i
  have hGi := hG
  unfold Heeds at hGi
  dsimp only at hadv hGi ⊢
  cases hm : s.left i with
  | ret a =>
    rw [hm] at hadv
    cases hadv
  | call c k =>
    rw [hm] at hadv hi
    obtain ⟨⟨r, v⟩, hr, heq⟩ := Option.map_eq_some_iff.mp hadv
    obtain ⟨rfl, rfl⟩ := Prod.mk.inj heq
    obtain ⟨hguar, hk⟩ := hi s.shared (refl _) (hGi c k hm) x r v hr
    refine ⟨hguar, ?_⟩
    intro j
    by_cases hj : j = i
    · subst hj
      rw [Function.update_self]
      exact hk
    · rw [Function.update_of_ne hj]
      exact (h j).moved hguar

end Crowd

end Ecopy.Lib.Calls.Prog
