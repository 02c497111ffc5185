import Ecopy.Lib.Calls

/-!
# Traces of programs

A run of a program that nobody disturbs, with the calls it made and their answers.
`Alone` speaks about the end of every run; statements about some run, or about which
calls were refused on the way, are made with the runs themselves. `Mindful` is safety where
a call is judged by what was done before it.
-/
namespace Ecopy.Lib.Calls.Prog

variable {C : Type} {R : C → Type} {α β σ χ : Type}

/-- A call and its answer. -/
abbrev Event (R : C → Type) := Σ c, R c

inductive Runs (answer : σ → χ → (c : C) → Option (R c × σ)) :
    Prog R α → σ → List (Event R) → σ → α → Prop
  | ret (a : α) (s : σ) : Runs answer (.ret a) s [] s a
  | call {c : C} {k : R c → Prog R α} {s t u : σ} {tr : List (Event R)} {r : R c} {a : α} (x : χ) :
      answer s x c = some (r, t) → Runs answer (k r) t tr u a →
      Runs answer (.call c k) s (⟨c, r⟩ :: tr) u a

section Runs
variable {answer : σ → χ → (c : C) → Option (R c × σ)} {s t u : σ} {tr : List (Event R)}
variable {m : Prog R α} {a : α}

@[simp] theorem runs_ret_iff {b : α} :
    (ret a : Prog R α).Runs answer s tr t b ↔ tr = [] ∧ t = s ∧ b = a := by
  constructor
  · intro h
    cases h
    exact ⟨rfl, rfl, rfl⟩
  · rintro ⟨rfl, rfl, rfl⟩
    exact .ret b t

theorem runs_call_iff {c : C} {k : R c → Prog R α} :
    (call c k).Runs answer s tr t a ↔
      ∃ x r v rest, answer s x c = some (r, v) ∧ tr = ⟨c, r⟩ :: rest ∧
        (k r).Runs answer v rest t a := by
  constructor
  · intro h
    cases h with
    | call x hx h => exact ⟨x, _, _, _, hx, rfl, h⟩
  · rintro ⟨x, r, v, rest, hx, rfl, h⟩
    exact .call x hx h

theorem runs_perform_iff {c : C} {k : R c → Prog R α} :
    (perform c >>= k).Runs answer s tr t a ↔
      ∃ x r v rest, answer s x c = some (r, v) ∧ tr = ⟨c, r⟩ :: rest ∧
        (k r).Runs answer v rest t a :=
  runs_call_iff

theorem Runs.perform {c : C} {k : R c → Prog R α} {r : R c} (x : χ)
    (hx : answer s x c = some (r, u)) (h : (k r).Runs answer u tr t a) :
    (perform c >>= k).Runs answer s (⟨c, r⟩ :: tr) t a :=
  .call x hx h

theorem Runs.bind {f : α → Prog R β} {b : β} {before after : List (Event R)}
    (hm : m.Runs answer s before t a) (hf : (f a).Runs answer t after u b) :
    (m >>= f).Runs answer s (before ++ after) u b := by
  induction hm with
  | ret a s => exact hf
  | call x hx _ ih => exact .call x hx (ih hf)

theorem runs_bind_iff {f : α → Prog R β} {b : β} :
    (m >>= f).Runs answer s tr u b ↔
      ∃ before after t a, tr = before ++ after ∧ m.Runs answer s before t a ∧
        (f a).Runs answer t after u b := by
  constructor
  · intro h
    induction m generalizing s tr with
    | ret a => exact ⟨[], tr, s, a, rfl, .ret a s, h⟩
    | call c k ih =>
      obtain ⟨x, r, v, rest, hx, rfl, hrest⟩ := runs_call_iff.mp h
      obtain ⟨before, after, t, a, rfl, hm, hf⟩ := ih r hrest
      exact ⟨⟨c, r⟩ :: before, after, t, a, rfl, .call x hx hm, hf⟩
  · rintro ⟨before, after, t, a, rfl, hm, hf⟩
    exact hm.bind hf

/-- The calls of a safe program. -/
theorem Safe.calls {ok : C → Prop} {post : α → Prop} (hm : m.Safe ok (fun _ _ => True) post)
    (h : m.Runs answer s tr t a) : (∀ e ∈ tr, ok e.1) ∧ post a := by
  induction h with
  | ret a s => exact ⟨by simp, hm⟩
  | call x hx _ ih =>
    obtain ⟨hrest, hpost⟩ := ih (hm.2 _ trivial)
    refine ⟨?_, hpost⟩
    intro e he
    rcases List.mem_cons.mp he with rfl | he
    · exact hm.1
    · exact hrest e he

/-- A run is one under every environment that gives its answers too. -/
theorem Runs.weaken {ψ : Type} {answer' : σ → ψ → (c : C) → Option (R c × σ)}
    (h : m.Runs answer s tr t a)
    (hanswer : ∀ s x c r t, answer s x c = some (r, t) → ∃ y, answer' s y c = some (r, t)) :
    m.Runs answer' s tr t a := by
  induction h with
  | ret a s => exact .ret a s
  | call x hx _ ih =>
    obtain ⟨y, hy⟩ := hanswer _ _ _ _ _ hx
    exact .call y hy ih

/-- Safety where what a call may do depends on the calls before it. -/
def Mindful (ok : List (Event R) → C → Prop) (post : List (Event R) → α → Prop) :
    Prog R α → List (Event R) → Prop
  | .ret a, es => post es a
  | .call c k, es => ok es c ∧ ∀ r, (k r).Mindful ok post (es ++ [⟨c, r⟩])

section Mindful
variable {ok : List (Event R) → C → Prop} {es : List (Event R)}

theorem Mindful.bind {mid : List (Event R) → α → Prop} {post : List (Event R) → β → Prop}
    {m : Prog R α} {f : α → Prog R β} (h : m.Mindful ok mid es)
    (hf : ∀ es' a, mid es' a → (f a).Mindful ok post es') : (m >>= f).Mindful ok post es := by
  induction m generalizing es with
  | ret a => exact hf es a h
  | call c k ih => exact ⟨h.1, fun r => ih r (h.2 r)⟩

theorem Mindful.mono {post post' : List (Event R) → α → Prop} {m : Prog R α}
    (h : m.Mindful ok post es) (hp : ∀ es' a, post es' a → post' es' a) :
    m.Mindful ok post' es := by
  induction m generalizing es with
  | ret a => exact hp es a h
  | call c k ih => exact ⟨h.1, fun r => ih r (h.2 r)⟩

/-- Calls that are always in order add to what was done before. -/
theorem Mindful.of_safe {A : C → Prop} {post : α → Prop} (hA : ∀ es c, A c → ok es c) {m : Prog R α}
    (h : m.Safe A (fun _ _ => True) post) :
    m.Mindful ok (fun es' a => (∃ tr, es' = es ++ tr ∧ ∀ e ∈ tr, A e.1) ∧ post a) es := by
  induction m generalizing es with
  | ret a => exact ⟨⟨[], (List.append_nil es).symm, nofun⟩, h⟩
  | call c k ih =>
    refine ⟨hA es c h.1, fun r => (ih r (h.2 r trivial)).mono ?_⟩
    rintro es' a ⟨⟨tr, rfl, htr⟩, hpost⟩
    refine ⟨⟨⟨c, r⟩ :: tr, by simp, ?_⟩, hpost⟩
    exact List.forall_mem_cons.mpr ⟨h.1, htr⟩

end Mindful

/-- The run in which the environment makes the given choices. -/
def play (answer : σ → χ → (c : C) → Option (R c × σ)) :
    Prog R α → σ → List χ → Option (List (Event R) × σ × α)
  | .ret a, s, _ => some ([], s, a)
  | .call _ _, _, [] => none
  | .call c k, s, x :: xs =>
    match answer s x c with
    | none => none
    | some (r, t) => (play answer (k r) t xs).map fun out => (⟨c, r⟩ :: out.1, out.2)

theorem runs_of_play {xs : List χ} (h : m.play answer s xs = some (tr, t, a)) :
    m.Runs answer s tr t a := by
  induction m generalizing s xs tr with
  | ret b =>
    cases h
    exact .ret _ _
  | call c k ih =>
    cases xs with
    | nil => cases h
    | cons x xs =>
      unfold play at h
      split at h
      · cases h
      · rename_i r u hx
        obtain ⟨⟨rest, v, b⟩, hplay, heq⟩ := Option.map_eq_some_iff.mp h
        obtain ⟨rfl, rfl, rfl⟩ := heq
        exact .call x hx (ih r hplay)

end Runs

end Ecopy.Lib.Calls.Prog
