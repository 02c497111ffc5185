import Mathlib.Algebra.Order.Group.Multiset
import Mathlib.Data.Multiset.Count
import Mathlib.Tactic.Common

/-!
# Counted references

A table of objects is shared by references; reference `r` points at entry
`target r`. Each object counts its references and gives its resources back when
the count reaches zero. The table is balanced by a multiset of held references
when every count is the number of held references to its entry. Creating,
retaining and releasing keep the balance, as long as a retain goes through a
held reference and a release gives back a held one.
-/
namespace Ecopy.Lib.RefCounts
variable {α ρ : Type*}

/-- The operations on the counter, and what they do to the resources: `Open` says that they are
there, `Closed` that they were given back. -/
structure Counting (α : Type*) where
  refs : α → ℕ
  retain : α → α
  release : α → α
  Open : α → Prop
  Closed : α → Prop
  refs_retain : ∀ o, refs (retain o) = refs o + 1
  refs_release : ∀ o, refs (release o) = refs o - 1
  open_retain : ∀ o, Open o → Open (retain o)
  open_release : ∀ o, 1 < refs o → Open o → Open (release o)
  closed_release : ∀ o, refs o = 1 → Open o → Closed (release o)

/-- An object with a positive count has its resources, one without has given them back. -/
def Counting.Sane (C : Counting α) (o : α) : Prop :=
  (0 < C.refs o → C.Open o) ∧ (C.refs o = 0 → C.Closed o)

theorem Counting.Sane.retain {C : Counting α} {o : α} (h : C.Sane o) (hpos : 0 < C.refs o) :
    C.Sane (C.retain o) := by
  refine ⟨fun _ => C.open_retain o (h.1 hpos), fun hz => ?_⟩
  rw [C.refs_retain] at hz
  omega

theorem Counting.Sane.release {C : Counting α} {o : α} (h : C.Sane o) (hpos : 0 < C.refs o) :
    C.Sane (C.release o) := by
  have hrefs := C.refs_release o
  constructor
  · intro hlt
    exact C.open_release o (by omega) (h.1 hpos)
  · intro hz
    exact C.closed_release o (by omega) (h.1 hpos)

variable (C : Counting α) (target : ρ → ℕ)

/-- The number of held references to entry `d`. -/
def holders (d : ℕ) (held : Multiset ρ) : ℕ := held.countP fun r => target r = d

structure Balanced (table : List α) (held : Multiset ρ) : Prop where
  lt : ∀ r ∈ held, target r < table.length
  refs : ∀ (d : ℕ) o, table[d]? = some o → C.refs o = holders target d held
  sane : ∀ (d : ℕ) o, table[d]? = some o → C.Sane o

variable {C target} {table : List α} {held : Multiset ρ} {r q : ρ}

theorem holders_cons_self :
    holders target (target r) (r ::ₘ held) = holders target (target r) held + 1 :=
  Multiset.countP_cons_of_pos _ rfl

theorem holders_cons_of_ne {d : ℕ} (h : d ≠ target r) :
    holders target d (r ::ₘ held) = holders target d held :=
  Multiset.countP_cons_of_neg _ (Ne.symm h)

theorem holders_pos_of_mem (h : r ∈ held) : 0 < holders target (target r) held :=
  Multiset.countP_pos.mpr ⟨r, h, rfl⟩

theorem holders_eq_zero {d : ℕ} (h : ∀ r ∈ held, target r ≠ d) : holders target d held = 0 :=
  Multiset.countP_eq_zero.mpr h

theorem Balanced.empty : Balanced C target [] (0 : Multiset ρ) :=
  ⟨by simp, by simp, by simp⟩

theorem Balanced.pos_of_mem (h : Balanced C target table held) (hr : r ∈ held) {o : α}
    (ho : table[target r]? = some o) : 0 < C.refs o := by
  rw [h.refs _ _ ho]
  exact holders_pos_of_mem hr

theorem Balanced.exists_of_mem (h : Balanced C target table held) (hr : r ∈ held) :
    ∃ o, table[target r]? = some o ∧ 0 < C.refs o ∧ C.Open o := by
  have hlt := h.lt r hr
  have ho : table[target r]? = some table[target r] := List.getElem?_eq_getElem hlt
  have hpos := h.pos_of_mem hr ho
  exact ⟨_, ho, hpos, (h.sane _ _ ho).1 hpos⟩

theorem Balanced.closed_of_forall_ne (h : Balanced C target table held) {d : ℕ} {o : α}
    (ho : table[d]? = some o) (hne : ∀ r ∈ held, target r ≠ d) : C.refs o = 0 ∧ C.Closed o := by
  have hz : C.refs o = 0 := by
    rw [h.refs d o ho]
    exact holders_eq_zero hne
  exact ⟨hz, (h.sane d o ho).2 hz⟩

/-- A new object comes with one reference. -/
theorem Balanced.create (h : Balanced C target table held) {o : α} (hone : C.refs o = 1)
    (hopen : C.Open o) (hr : target r = table.length) :
    Balanced C target (table ++ [o]) (r ::ₘ held) := by
  have hsplit : ∀ (d : ℕ) p, (table ++ [o])[d]? = some p →
      table[d]? = some p ∧ d ≠ target r ∨ d = target r ∧ p = o := by
    intro d p hp
    rw [List.getElem?_append] at hp
    split at hp
    next hlt => exact Or.inl ⟨hp, by omega⟩
    next hge =>
        obtain ⟨hd, hp⟩ := List.getElem?_eq_some_iff.mp hp
        simp only [List.length_singleton] at hd
        refine Or.inr ⟨by omega, ?_⟩
        rw [← hp, List.getElem_singleton]
  refine ⟨fun s hs => ?_, fun d p hp => ?_, fun d p hp => ?_⟩
  · rw [List.length_append, List.length_singleton]
    obtain rfl | hs := Multiset.mem_cons.mp hs
    · omega
    · exact Nat.lt_succ_of_lt (h.lt s hs)
  · obtain ⟨hp, hd⟩ | ⟨rfl, rfl⟩ := hsplit d p hp
    · rw [holders_cons_of_ne hd]
      exact h.refs d p hp
    · have hz : holders target (target r) held = 0 := by
        refine holders_eq_zero fun s hs heq => ?_
        exact absurd (h.lt s hs) (by omega)
      rw [holders_cons_self, hone, hz]
  · obtain ⟨hp, -⟩ | ⟨-, rfl⟩ := hsplit d p hp
    · exact h.sane d p hp
    · exact ⟨fun _ => hopen, fun hz => absurd hz (by omega)⟩

theorem getElem?_modify_cases {f : α → α} {i d : ℕ} {p : α} (h : (table.modify i f)[d]? = some p) :
    table[d]? = some p ∧ d ≠ i ∨ d = i ∧ ∃ o, table[i]? = some o ∧ p = f o := by
  rw [List.getElem?_modify, Option.map_eq_map, Option.map_eq_some_iff] at h
  obtain ⟨o, ho, hp⟩ := h
  by_cases hd : i = d
  · subst hd
    exact Or.inr ⟨rfl, o, ho, by rw [← hp, if_pos rfl]⟩
  · rw [if_neg hd] at hp
    subst hp
    exact Or.inl ⟨ho, Ne.symm hd⟩

/-- A second reference is taken through one that is held. -/
theorem Balanced.retain (h : Balanced C target table held) (hq : q ∈ held)
    (hr : target r = target q) :
    Balanced C target (table.modify (target r) C.retain) (r ::ₘ held) := by
  refine ⟨fun s hs => ?_, fun d p hp => ?_, fun d p hp => ?_⟩
  · rw [List.length_modify]
    obtain rfl | hs := Multiset.mem_cons.mp hs
    · rw [hr]
      exact h.lt q hq
    · exact h.lt s hs
  · obtain ⟨hp, hd⟩ | ⟨rfl, o, ho, rfl⟩ := getElem?_modify_cases hp
    · rw [holders_cons_of_ne hd]
      exact h.refs d p hp
    · rw [holders_cons_self, C.refs_retain, h.refs _ o ho]
  · obtain ⟨hp, -⟩ | ⟨rfl, o, ho, rfl⟩ := getElem?_modify_cases hp
    · exact h.sane d p hp
    · have hpos : 0 < C.refs o := h.pos_of_mem hq (by rw [← hr, ho])
      exact (h.sane _ o ho).retain hpos

theorem Balanced.release (h : Balanced C target table (r ::ₘ held)) :
    Balanced C target (table.modify (target r) C.release) held := by
  refine ⟨fun s hs => ?_, fun d p hp => ?_, fun d p hp => ?_⟩
  · rw [List.length_modify]
    exact h.lt s (Multiset.mem_cons_of_mem hs)
  · obtain ⟨hp, hd⟩ | ⟨rfl, o, ho, rfl⟩ := getElem?_modify_cases hp
    · rw [h.refs d p hp, holders_cons_of_ne hd]
    · rw [C.refs_release, h.refs _ o ho, holders_cons_self, Nat.add_sub_cancel]
  · obtain ⟨hp, -⟩ | ⟨rfl, o, ho, rfl⟩ := getElem?_modify_cases hp
    · exact h.sane d p hp
    · exact (h.sane _ o ho).release (h.pos_of_mem (Multiset.mem_cons_self r held) ho)

end Ecopy.Lib.RefCounts
