import Mathlib.Tactic.Common

/-!
# Programs that make calls

A program is a finite tree of calls; each call is answered by the environment
and the rest of the program depends on the answer. Programs form a monad, so
sequential code is written with `do`.

`Safe ok resp post` says that a program makes only calls that satisfy `ok` and
ends in a result that satisfies `post`, as long as every answer satisfies
`resp`. The rules for sequencing reduce a program to its calls. When the
environment answers safe calls as promised and keeps an invariant, the
invariant survives any number of programs advancing in any order, one call at a
time (`advance_safe`). `Alone` is the weakest precondition of a program that
nobody disturbs; there the state may be used as well.
-/
namespace Ecopy.Lib.Calls

inductive Prog {C : Type} (R : C → Type) (α : Type) : Type where
  | ret (a : α)
  | call (c : C) (k : R c → Prog R α)

namespace Prog
variable {C : Type} {R : C → Type} {α β : Type}

def bind : Prog R α → (α → Prog R β) → Prog R β
  | .ret a, f => f a
  | .call c k, f => .call c fun r => (k r).bind f

instance : Monad (Prog R) where
  pure := .ret
  bind := bind

def perform (c : C) : Prog R (R c) := .call c .ret

@[simp] theorem pure_def (a : α) : (pure a : Prog R α) = .ret a := rfl

@[simp] theorem ret_bind (a : α) (f : α → Prog R β) : Prog.ret a >>= f = f a := rfl

@[simp] theorem perform_bind (c : C) (f : R c → Prog R β) : perform c >>= f = .call c f := rfl

/-- The result when every call is answered by a fixed function. -/
def eval (answer : (c : C) → R c) : Prog R α → α
  | .ret a => a
  | .call c k => (k (answer c)).eval answer

theorem eval_bind (answer : (c : C) → R c) (m : Prog R α) (f : α → Prog R β) :
    (m >>= f).eval answer = (f (m.eval answer)).eval answer := by
  induction m with
  | ret a => rfl
  | call c k ih => exact ih (answer c)

def Safe (ok : C → Prop) (resp : (c : C) → R c → Prop) (post : α → Prop) : Prog R α → Prop
  | .ret a => post a
  | .call c k => ok c ∧ ∀ r, resp c r → (k r).Safe ok resp post

section Safe
variable {ok : C → Prop} {resp : (c : C) → R c → Prop} {post : α → Prop}

theorem Safe.mono {post' : α → Prop} {m : Prog R α} (h : m.Safe ok resp post)
    (hp : ∀ a, post a → post' a) : m.Safe ok resp post' := by
  induction m with
  | ret a => exact hp a h
  | call c k ih => exact ⟨h.1, fun r hr => ih r (h.2 r hr)⟩

theorem Safe.bind {post' : β → Prop} {m : Prog R α} {f : α → Prog R β}
    (h : m.Safe ok resp post) (hf : ∀ a, post a → (f a).Safe ok resp post') :
    (m >>= f).Safe ok resp post' := by
  induction m with
  | ret a => exact hf a h
  | call c k ih => exact ⟨h.1, fun r hr => ih r (h.2 r hr)⟩

/-- One call, then the rest. -/
theorem Safe.perform {c : C} {f : R c → Prog R α} (hc : ok c)
    (hf : ∀ r, resp c r → (f r).Safe ok resp post) :
    (Prog.perform c >>= f).Safe ok resp post :=
  ⟨hc, hf⟩

theorem Safe.weaken {ok' : C → Prop} {resp' : (c : C) → R c → Prop} {m : Prog R α}
    (h : m.Safe ok resp post) (hok : ∀ c, ok c → ok' c)
    (hresp : ∀ c r, resp' c r → resp c r) : m.Safe ok' resp' post := by
  induction m with
  | ret a => exact h
  | call c k ih => exact ⟨hok c h.1, fun r hr => ih r (h.2 r (hresp c r hr))⟩

end Safe

/-- Safety when the result does not matter. -/
abbrev Keeps (ok : C → Prop) (resp : (c : C) → R c → Prop) (m : Prog R α) : Prop :=
  m.Safe ok resp fun _ => True

section Keeps
variable {ok : C → Prop} {resp : (c : C) → R c → Prop}
variable {m : Prog R α}

theorem Keeps.of_safe {post : α → Prop} (h : m.Safe ok resp post) : m.Keeps ok resp :=
  h.mono fun _ _ => trivial

theorem Keeps.bind {f : α → Prog R β} (hm : m.Keeps ok resp) (hf : ∀ a, (f a).Keeps ok resp) :
    (m >>= f).Keeps ok resp :=
  Safe.bind hm fun a _ => hf a

theorem Keeps.bind_safe {post : α → Prop} {f : α → Prog R β} (hm : m.Safe ok resp post)
    (hf : ∀ a, post a → (f a).Keeps ok resp) : (m >>= f).Keeps ok resp :=
  Safe.bind hm hf

/-- One call, whose answer may be used. -/
theorem Keeps.call {c : C} {f : R c → Prog R α} (hc : ok c)
    (hf : ∀ r, resp c r → (f r).Keeps ok resp) : (Prog.perform c >>= f).Keeps ok resp :=
  ⟨hc, hf⟩

theorem Keeps.last {c : C} (hc : ok c) : (Prog.perform c : Prog R (R c)).Keeps ok resp :=
  ⟨hc, fun _ _ => trivial⟩

/-- A step that is made under a condition only. -/
theorem Keeps.optional {k : Prog R β} {b : Prop} [Decidable b] (hm : m.Keeps ok resp)
    (hk : k.Keeps ok resp) : (if b then m >>= fun _ => k else k).Keeps ok resp := by
  split
  · exact Keeps.bind hm fun _ => hk
  · exact hk

end Keeps

variable {σ χ : Type}

/-- One program makes its next call; `none` when it has ended or the call
cannot be answered now. The answer may depend on a choice of the environment. -/
def advance (answer : σ → χ → (c : C) → Option (R c × σ)) (s : σ) (x : χ) :
    Prog R α → Option (σ × Prog R α)
  | .ret _ => none
  | .call c k => (answer s x c).map fun r => (r.2, k r.1)

theorem advance_safe {answer : σ → χ → (c : C) → Option (R c × σ)} {inv : σ → Prop}
    {ok : C → Prop} {resp : (c : C) → R c → Prop} {post : α → Prop}
    (hanswer : ∀ s x c r t, inv s → ok c → answer s x c = some (r, t) → resp c r ∧ inv t)
    {s t : σ} {x : χ} {m m' : Prog R α} (hs : inv s) (hm : m.Safe ok resp post)
    (h : advance answer s x m = some (t, m')) : inv t ∧ m'.Safe ok resp post := by
  cases m with
  | ret a => cases h
  | call c k =>
    obtain ⟨⟨r, u⟩, hr, heq⟩ := Option.map_eq_some_iff.mp h
    obtain ⟨rfl, rfl⟩ := Prod.mk.inj heq
    obtain ⟨hresp, hinv⟩ := hanswer s x c r u hs hm.1 hr
    exact ⟨hinv, hm.2 r hresp⟩

/-- A program that makes its calls undisturbed ends in a state and a result that
satisfy `post`. -/
def Alone (answer : σ → χ → (c : C) → Option (R c × σ)) (post : σ → α → Prop) :
    Prog R α → σ → Prop
  | .ret a, s => post s a
  | .call c k, s => ∀ x r t, answer s x c = some (r, t) → (k r).Alone answer post t

section Alone
variable {answer : σ → χ → (c : C) → Option (R c × σ)}
variable {m : Prog R α}

theorem Alone.bind {post : σ → β → Prop} {mid : σ → α → Prop} {f : α → Prog R β} {s : σ}
    (h : m.Alone answer mid s) (hf : ∀ t a, mid t a → (f a).Alone answer post t) :
    (m >>= f).Alone answer post s := by
  induction m generalizing s with
  | ret a => exact hf s a h
  | call c k ih => exact fun x r t hr => ih r (h x r t hr)

theorem alone_bind_iff {post : σ → β → Prop} {f : α → Prog R β} {s : σ} :
    (m >>= f).Alone answer post s ↔ m.Alone answer (fun t a => (f a).Alone answer post t) s := by
  induction m generalizing s with
  | ret a => exact Iff.rfl
  | call c k ih =>
    constructor
    · exact fun h x r t hr => (ih r).mp (h x r t hr)
    · exact fun h x r t hr => (ih r).mpr (h x r t hr)

variable {post : σ → α → Prop}

theorem Alone.perform {c : C} {f : R c → Prog R α} {s : σ}
    (h : ∀ x r t, answer s x c = some (r, t) → (f r).Alone answer post t) :
    (Prog.perform c >>= f).Alone answer post s :=
  h

/-- A safe program that runs alone keeps an invariant. -/
theorem Safe.alone {I : σ → Prop} {ok : C → Prop} {resp : (c : C) → R c → Prop} {post : α → Prop}
    (hanswer : ∀ s x c r t, I s → ok c → answer s x c = some (r, t) → resp c r ∧ I t)
    {m : Prog R α} (hm : m.Safe ok resp post) {s : σ} (hs : I s) :
    m.Alone answer (fun t a => I t ∧ post a) s := by
  induction m generalizing s with
  | ret a => exact ⟨hs, hm⟩
  | call c k ih =>
    intro x r t hr
    obtain ⟨hresp, hinv⟩ := hanswer s x c r t hs hm.1 hr
    exact ih r (hm.2 r hresp) hinv

theorem Alone.mono {post' : σ → α → Prop} {s : σ} (h : m.Alone answer post s)
    (hp : ∀ t a, post t a → post' t a) : m.Alone answer post' s := by
  induction m generalizing s with
  | ret a => exact hp s a h
  | call c k ih => exact fun x r t hr => ih r (h x r t hr)

/-- Where every call can be answered, a program has an end. -/
theorem Alone.meet {post' : σ → α → Prop} (htotal : ∀ s c, ∃ x r t, answer s x c = some (r, t))
    {m : Prog R α} {s : σ} (h : m.Alone answer post s) (h' : m.Alone answer post' s) :
    ∃ t a, post t a ∧ post' t a := by
  induction m generalizing s with
  | ret a => exact ⟨s, a, h, h'⟩
  | call c k ih =>
    obtain ⟨x, r, t, hx⟩ := htotal s c
    exact ih r (h x r t hx) (h' x r t hx)

theorem Alone.advance {s t : σ} {x : χ} {m' : Prog R α} (hm : m.Alone answer post s)
    (h : m.advance answer s x = some (t, m')) : m'.Alone answer post t := by
  cases m with
  | ret a => cases h
  | call c k =>
    obtain ⟨⟨r, u⟩, hr, heq⟩ := Option.map_eq_some_iff.mp h
    obtain ⟨rfl, rfl⟩ := Prod.mk.inj heq
    exact hm x r u hr

end Alone

end Prog

end Ecopy.Lib.Calls
