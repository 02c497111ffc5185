import Mathlib.Data.List.Nodup
import Mathlib.Data.List.Perm.Basic
import Mathlib.Tactic.Common

/-!
# Hash tables with chains

A table is the list of its chains. An entry is pushed to the front of the chain that its
index names, and it is looked for in that chain only. As long as every entry is in its own
chain and no two have one key, a search finds an entry exactly when the table has it, so
a table that was built anew from the same entries answers as the old one did.
-/
namespace Ecopy.Lib.HashTable
variable {α κ : Type*}

abbrev Table (α : Type*) := List (List α)

def push (i : ℕ) (a : α) (t : Table α) : Table α := t.modify i (a :: ·)

def chain (t : Table α) (i : ℕ) : List α := t.getD i []

/-- Every entry moves to the chain that a new index names. -/
def rehash (index : α → ℕ) (size : ℕ) (t : Table α) : Table α :=
  t.foldl (fun new c => c.foldl (fun new a => push (index a) a new) new) (List.replicate size [])

/-- Every entry is in the chain of its index. -/
def Placed (index : α → ℕ) (t : Table α) : Prop := ∀ i, ∀ a ∈ chain t i, index a = i

@[simp] theorem length_push (i : ℕ) (a : α) (t : Table α) : (push i a t).length = t.length :=
  List.length_modify _ _ _

theorem chain_push (i j : ℕ) (a : α) (t : Table α) :
    chain (push i a t) j = if i = j ∧ i < t.length then a :: chain t j else chain t j := by
  unfold chain push
  rw [List.getD_eq_getElem?_getD, List.getD_eq_getElem?_getD, List.getElem?_modify]
  by_cases hij : i = j
  · subst hij
    by_cases hi : i < t.length
    · simp [hi]
    · simp [hi]
  · simp [hij]

theorem mem_flatten_iff_chain (t : Table α) (a : α) : a ∈ t.flatten ↔ ∃ i, a ∈ chain t i := by
  unfold chain
  rw [List.mem_flatten]
  constructor
  · rintro ⟨c, hc, ha⟩
    obtain ⟨i, hi, rfl⟩ := List.mem_iff_getElem.mp hc
    exact ⟨i, by simpa [List.getD_eq_getElem?_getD, hi] using ha⟩
  · rintro ⟨i, ha⟩
    by_cases hi : i < t.length
    · refine ⟨t[i], List.getElem_mem hi, ?_⟩
      simpa [List.getD_eq_getElem?_getD, hi] using ha
    · simp [List.getD_eq_getElem?_getD, List.getElem?_eq_none (Nat.le_of_not_lt hi)] at ha

theorem flatten_push {i : ℕ} {t : Table α} (a : α) (h : i < t.length) :
    (push i a t).flatten.Perm (a :: t.flatten) := by
  induction t generalizing i with
  | nil => cases h
  | cons c t ih =>
    cases i with
    | zero => exact List.Perm.refl _
    | succ i =>
      have hrest := ih (Nat.lt_of_succ_lt_succ h)
      have hmid : (c ++ (a :: t.flatten)).Perm (a :: (c ++ t.flatten)) := List.perm_middle
      exact (List.Perm.append_left c hrest).trans hmid

theorem Placed.push {index : α → ℕ} {t : Table α} (h : Placed index t) (a : α) :
    Placed index (push (index a) a t) := by
  intro i b hb
  rw [chain_push] at hb
  split at hb
  · rename_i hi
    rcases List.mem_cons.mp hb with rfl | hb
    · exact hi.1
    · exact h i b hb
  · exact h i b hb

theorem placed_replicate (index : α → ℕ) (size : ℕ) : Placed index (List.replicate size []) := by
  intro i a ha
  unfold chain at ha
  rw [List.getD_eq_getElem?_getD, List.getElem?_replicate] at ha
  split at ha
  · cases ha
  · cases ha

/-- Entries that are pushed one after the other. -/
theorem pushAll_spec {index : α → ℕ} (l : List α) {t : Table α} (hin : ∀ a ∈ l, index a < t.length)
    (ht : Placed index t) :
    (l.foldl (fun new a => push (index a) a new) t).length = t.length ∧
      Placed index (l.foldl (fun new a => push (index a) a new) t) ∧
      (l.foldl (fun new a => push (index a) a new) t).flatten.Perm (l ++ t.flatten) := by
  induction l generalizing t with
  | nil => exact ⟨rfl, ht, List.Perm.refl _⟩
  | cons a l ih =>
    have hfirst := flatten_push a (hin a List.mem_cons_self)
    have hrest : ∀ b ∈ l, index b < (push (index a) a t).length := by
      intro b hb
      rw [length_push]
      exact hin b (List.mem_cons_of_mem a hb)
    obtain ⟨hlen, hplaced, hperm⟩ := ih hrest (ht.push a)
    refine ⟨hlen.trans (length_push _ _ _), hplaced, hperm.trans ?_⟩
    exact (List.Perm.append_left l hfirst).trans List.perm_middle

theorem rehash_eq (index : α → ℕ) (size : ℕ) (t : Table α) :
    rehash index size t =
      t.flatten.foldl (fun new a => push (index a) a new) (List.replicate size []) :=
  List.foldl_flatten.symm

/-- A table that was built anew has the same entries, each in its new place. -/
theorem rehash_spec {index : α → ℕ} {size : ℕ} (t : Table α)
    (hin : ∀ a ∈ t.flatten, index a < size) :
    (rehash index size t).length = size ∧ Placed index (rehash index size t) ∧
      (rehash index size t).flatten.Perm t.flatten := by
  have hlen : (List.replicate size ([] : List α)).length = size := List.length_replicate
  rw [rehash_eq]
  obtain ⟨h, hplaced, hperm⟩ := pushAll_spec t.flatten (by rwa [hlen]) (placed_replicate index size)
  rw [List.flatten_replicate_nil, List.append_nil] at hperm
  exact ⟨h.trans hlen, hplaced, hperm⟩

section Lookup
variable [DecidableEq κ] {key : α → κ}

/-- The first entry of a chain with the key. -/
def lookup (key : α → κ) (t : Table α) (i : ℕ) (k : κ) : Option α :=
  (chain t i).find? fun a => key a == k

/-- With one entry a key, a search in the right chain is a search in the table. -/
theorem lookup_eq_some_iff {index : α → ℕ} {t : Table α} (ht : Placed index t)
    (hkeys : (t.flatten.map key).Nodup) {i : ℕ} {k : κ} (hi : ∀ a, key a = k → index a = i)
    {a : α} : lookup key t i k = some a ↔ a ∈ t.flatten ∧ key a = k := by
  have hinj := List.inj_on_of_nodup_map hkeys
  constructor
  · intro h
    have hmem : a ∈ t.flatten := (mem_flatten_iff_chain t a).mpr ⟨i, List.mem_of_find?_eq_some h⟩
    exact ⟨hmem, by simpa using List.find?_some h⟩
  · rintro ⟨hmem, hk⟩
    obtain ⟨j, hj⟩ := (mem_flatten_iff_chain t a).mp hmem
    have hij : j = i := (ht j a hj).symm.trans (hi a hk)
    rw [hij] at hj
    have hsome : (lookup key t i k).isSome := by
      unfold lookup
      rw [List.find?_isSome]
      exact ⟨a, hj, by simpa using hk⟩
    obtain ⟨b, hb⟩ := Option.isSome_iff_exists.mp hsome
    have hbmem : b ∈ t.flatten :=
      (mem_flatten_iff_chain t b).mpr ⟨i, List.mem_of_find?_eq_some hb⟩
    have hbk : key b = k := by simpa using List.find?_some hb
    rw [hb, hinj hbmem hmem (hbk.trans hk.symm)]

theorem lookup_eq_none_iff {index : α → ℕ} {t : Table α} (ht : Placed index t) {i : ℕ} {k : κ}
    (hi : ∀ a, key a = k → index a = i) :
    lookup key t i k = none ↔ ∀ a ∈ t.flatten, key a ≠ k := by
  unfold lookup
  rw [List.find?_eq_none]
  constructor
  · intro h a hmem hk
    obtain ⟨j, hj⟩ := (mem_flatten_iff_chain t a).mp hmem
    have hij : j = i := (ht j a hj).symm.trans (hi a hk)
    rw [hij] at hj
    exact h a hj (by simpa using hk)
  · intro h a ha hk
    exact h a ((mem_flatten_iff_chain t a).mpr ⟨i, ha⟩) (by simpa using hk)

end Lookup

end Ecopy.Lib.HashTable
