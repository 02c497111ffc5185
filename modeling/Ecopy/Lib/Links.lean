import Mathlib.Data.List.Nodup
import Mathlib.Logic.Function.Basic
import Mathlib.Tactic.Common

/-!
# Linked lists

A list that is linked by a partial function is the sequence of nodes met when the links are
followed from a first node. A doubly linked list is linked in both directions. Unlinking a node
and pushing one to the front write a few links; each is the operation on lists of the same name.
-/
namespace Ecopy.Lib.Links
variable {ι : Type*} [DecidableEq ι]

/-- The links lead from `p` through the list and end. -/
def Follows (next : ι → Option ι) : Option ι → List ι → Prop
  | p, [] => p = none
  | p, x :: l => p = some x ∧ Follows next (next x) l

/-- The nodes met, at most `fuel` of them. -/
def walk (next : ι → Option ι) : ℕ → Option ι → List ι
  | 0, _ => []
  | _ + 1, none => []
  | fuel + 1, some x => x :: walk next fuel (next x)

section Follows
variable {next next' : ι → Option ι} {p : Option ι} {l : List ι} {e : ι}

omit [DecidableEq ι] in
theorem Follows.frame (h : Follows next p l) (hsame : ∀ x ∈ l, next' x = next x) :
    Follows next' p l := by
  induction l generalizing p with
  | nil => exact h
  | cons x l ih =>
    constructor
    · exact h.1
    · rw [hsame x List.mem_cons_self]
      exact ih h.2 fun y hy => hsame y (List.mem_cons_of_mem x hy)

omit [DecidableEq ι] in
theorem Follows.head (h : Follows next p l) : p = l.head? := by
  cases l with
  | nil => exact h
  | cons x l => exact h.1

omit [DecidableEq ι] in
theorem Follows.walk (h : Follows next p l) {fuel : ℕ} (hfuel : l.length ≤ fuel) :
    walk next fuel p = l := by
  induction l generalizing p fuel with
  | nil =>
    rw [show p = none from h]
    cases fuel with
    | zero => rfl
    | succ fuel => rfl
  | cons x l ih =>
    cases fuel with
    | zero => cases hfuel
    | succ fuel =>
      rw [h.1]
      show x :: Links.walk next fuel (next x) = x :: l
      rw [ih h.2 (Nat.le_of_succ_le_succ hfuel)]

omit [DecidableEq ι] in
/-- A node in the middle is linked to what comes after it. -/
theorem Follows.next_eq {a b : List ι} (h : Follows next p (a ++ e :: b)) : next e = b.head? := by
  induction a generalizing p with
  | nil => exact h.2.head
  | cons x a ih => exact ih h.2

/-- The node before `e` is linked to the node after it. -/
theorem Follows.bypass {a b : List ι} (h : Follows next p (a ++ e :: b))
    (hnodup : (a ++ e :: b).Nodup) :
    Follows (a.getLast?.elim next fun q => Function.update next q (next e))
      (if a = [] then next e else p) (a ++ b) := by
  induction a generalizing p with
  | nil => exact h.2
  | cons x a ih =>
    obtain ⟨hx, hnodup⟩ := List.nodup_cons.mp hnodup
    have hrest := ih h.2 hnodup
    rw [if_neg (List.cons_ne_nil x a)]
    cases a with
    | nil =>
      show Follows (Function.update next x (next e)) p (x :: b)
      rw [if_pos rfl] at hrest
      refine ⟨h.1, ?_⟩
      rw [Function.update_self]
      apply hrest.frame
      intro y hy
      have hne : y ≠ x := by
        intro heq
        subst heq
        exact hx (List.mem_cons_of_mem e hy)
      exact Function.update_of_ne hne _ _
    | cons z a =>
      rw [if_neg (List.cons_ne_nil z a)] at hrest
      have hlast : (x :: z :: a).getLast? = (z :: a).getLast? := by
        rw [List.getLast?_cons_cons]
      rw [hlast]
      refine ⟨h.1, ?_⟩
      obtain ⟨q, hq⟩ := Option.isSome_iff_exists.mp (List.getLast?_isSome.mpr (List.cons_ne_nil z a))
      rw [hq] at hrest ⊢
      have hne : x ≠ q := by
        rintro rfl
        exact hx (List.mem_append_left _ (List.mem_of_getLast? hq))
      have hlink : (Option.elim (some q) next fun q => Function.update next q (next e)) x =
          next x := Function.update_of_ne hne _ _
      rw [hlink]
      exact hrest

/-- A node is linked behind the last one. -/
theorem Follows.concat {c : List ι} {x : ι} (h : Follows next p (c ++ [x]))
    (hnodup : (c ++ [x]).Nodup) (he : e ∉ c ++ [x]) :
    Follows (Function.update (Function.update next e none) x (some e)) p (c ++ [x] ++ [e]) := by
  induction c generalizing p with
  | nil =>
    have hne : e ≠ x := by
      rintro rfl
      exact he (by simp)
    refine ⟨h.1, ?_⟩
    rw [Function.update_self]
    refine ⟨rfl, ?_⟩
    rw [Function.update_of_ne hne, Function.update_self]
    rfl
  | cons y c ih =>
    obtain ⟨hy, hnodup⟩ := List.nodup_cons.mp hnodup
    have hyx : y ≠ x := by
      rintro rfl
      exact hy (by simp)
    have hye : y ≠ e := by
      rintro rfl
      exact he (by simp)
    refine ⟨h.1, ?_⟩
    rw [Function.update_of_ne hyx, Function.update_of_ne hye]
    exact ih h.2 hnodup fun hmem => he (List.mem_cons_of_mem y hmem)

end Follows

/-- Look for the node that is linked to `e`, from `x` on, and link it past `e`. -/
def unlinkFrom (next : ι → Option ι) (e : ι) : ℕ → ι → ι → Option ι
  | 0, _ => next
  | fuel + 1, x =>
    match next x with
    | none => next
    | some y => if y = e then Function.update next x (next e) else unlinkFrom next e fuel y

/-- The first node and the links without `e`. -/
def unlinkChain (next : ι → Option ι) (first : Option ι) (e : ι) (fuel : ℕ) :
    Option ι × (ι → Option ι) :=
  match first with
  | none => (none, next)
  | some x => if x = e then (next e, next) else (some x, unlinkFrom next e fuel x)

section Chain
variable {next : ι → Option ι} {first : Option ι} {l : List ι} {e : ι}

theorem unlinkFrom_spec {x : ι} {fuel : ℕ} (h : Follows next (some x) (x :: l))
    (hnodup : (x :: l).Nodup) (he : e ∈ l) (hfuel : l.length ≤ fuel) :
    Follows (unlinkFrom next e fuel x) (some x) (x :: l.erase e) ∧
      ∀ y ∉ x :: l, unlinkFrom next e fuel x y = next y := by
  induction l generalizing x fuel with
  | nil => cases he
  | cons z l ih =>
    obtain ⟨hx, hnodup⟩ := List.nodup_cons.mp hnodup
    cases fuel with
    | zero => cases hfuel
    | succ fuel =>
      have hnext : next x = some z := h.2.1
      unfold unlinkFrom
      rw [hnext]
      dsimp only
      by_cases hze : z = e
      · subst hze
        rw [if_pos rfl, List.erase_cons_head]
        constructor
        · refine ⟨rfl, ?_⟩
          rw [Function.update_self]
          apply h.2.2.frame
          intro y hy
          apply Function.update_of_ne
          rintro rfl
          exact hx (List.mem_cons_of_mem z hy)
        · intro y hy
          apply Function.update_of_ne
          rintro rfl
          exact hy List.mem_cons_self
      · have hmem : e ∈ l := (List.mem_cons.mp he).resolve_left (Ne.symm hze)
        have hzfollows : Follows next (some z) (z :: l) := by
          rw [← hnext]
          exact h.2
        obtain ⟨hfollows, hsame⟩ := ih hzfollows hnodup hmem (Nat.le_of_succ_le_succ hfuel)
        rw [if_neg hze, List.erase_cons_tail (by simpa using hze)]
        constructor
        · refine ⟨rfl, ?_⟩
          rw [hsame x hx, hnext]
          exact hfollows
        · intro y hy
          exact hsame y fun hmem => hy (List.mem_cons_of_mem x hmem)

/-- Unlinking a node of a chain leaves the others and touches no other chain. -/
theorem unlinkChain_spec {fuel : ℕ} (h : Follows next first l) (hnodup : l.Nodup) (he : e ∈ l)
    (hfuel : l.length ≤ fuel) :
    Follows (unlinkChain next first e fuel).2 (unlinkChain next first e fuel).1 (l.erase e) ∧
      ∀ y ∉ l, (unlinkChain next first e fuel).2 y = next y := by
  cases l with
  | nil => cases he
  | cons x l =>
    have hfirst : first = some x := h.1
    subst hfirst
    unfold unlinkChain
    dsimp only
    by_cases hxe : x = e
    · subst hxe
      rw [if_pos rfl, List.erase_cons_head]
      exact ⟨h.2, fun _ _ => rfl⟩
    · rw [if_neg hxe, List.erase_cons_tail (by simpa using hxe)]
      apply unlinkFrom_spec h hnodup ((List.mem_cons.mp he).resolve_left (Ne.symm hxe))
      rw [List.length_cons] at hfuel
      omega

end Chain

structure Dll (ι : Type*) where
  head : Option ι
  tail : Option ι
  prev : ι → Option ι
  next : ι → Option ι

def Dll.empty : Dll ι := ⟨none, none, fun _ => none, fun _ => none⟩

def Dll.unlink (d : Dll ι) (e : ι) : Dll ι :=
  let d :=
    match d.prev e with
    | some p => { d with next := Function.update d.next p (d.next e) }
    | none => { d with head := d.next e }
  let d :=
    match d.next e with
    | some n => { d with prev := Function.update d.prev n (d.prev e) }
    | none => { d with tail := d.prev e }
  { d with prev := Function.update d.prev e none, next := Function.update d.next e none }

def Dll.pushFront (d : Dll ι) (e : ι) : Dll ι :=
  let d := { d with prev := Function.update d.prev e none, next := Function.update d.next e d.head }
  let d :=
    match d.head with
    | some h => { d with prev := Function.update d.prev h (some e) }
    | none => d
  let d := { d with head := some e }
  match d.tail with
  | some _ => d
  | none => { d with tail := some e }

/-- The list that is linked forward from the head and backward from the tail. -/
structure Dll.Holds (d : Dll ι) (l : List ι) : Prop where
  nodup : l.Nodup
  forward : Follows d.next d.head l
  backward : Follows d.prev d.tail l.reverse

omit [DecidableEq ι] in
theorem Dll.Holds.empty : (Dll.empty : Dll ι).Holds [] := ⟨List.nodup_nil, rfl, rfl⟩

theorem erase_middle {a b : List ι} {e : ι} (h : (a ++ e :: b).Nodup) :
    (a ++ e :: b).erase e = a ++ b := by
  have hnot : e ∉ a := fun hmem =>
    (List.nodup_cons.mp (List.nodup_middle.mp h)).1 (List.mem_append_left _ hmem)
  rw [List.erase_append_right _ hnot, List.erase_cons_head]

section Dll
variable {d : Dll ι} {l : List ι} {e : ι}

omit [DecidableEq ι] in
theorem Dll.Holds.next_eq {a b : List ι} (h : d.Holds (a ++ e :: b)) : d.next e = b.head? :=
  h.forward.next_eq

omit [DecidableEq ι] in
theorem Dll.Holds.prev_eq {a b : List ι} (h : d.Holds (a ++ e :: b)) : d.prev e = a.getLast? := by
  have hback := h.backward
  rw [List.reverse_append, List.reverse_cons, List.append_assoc, List.singleton_append] at hback
  rw [hback.next_eq, List.head?_reverse]

omit [DecidableEq ι] in
theorem Dll.Holds.tail_eq (h : d.Holds l) : d.tail = l.getLast? := by
  rw [h.backward.head, List.head?_reverse]

theorem Dll.unlink_eq {a b : List ι} (h : d.Holds (a ++ e :: b)) :
    d.unlink e = ⟨if a = [] then d.next e else d.head, if b.reverse = [] then d.prev e else d.tail,
      Function.update (b.reverse.getLast?.elim d.prev fun q => Function.update d.prev q (d.prev e))
        e none,
      Function.update (a.getLast?.elim d.next fun q => Function.update d.next q (d.next e))
        e none⟩ := by
  have hprev := h.prev_eq
  have hnext := h.next_eq
  have hnodup := List.nodup_middle.mp h.nodup
  unfold Dll.unlink
  rcases List.eq_nil_or_concat' a with rfl | ⟨a, p, rfl⟩
  · rw [show d.prev e = none from hprev]
    dsimp only
    cases b with
    | nil =>
      rw [show d.next e = none from hnext]
      simp [show d.prev e = none from hprev]
    | cons n b =>
      rw [show d.next e = some n from hnext]
      simp [show d.prev e = none from hprev]
  · have hp : d.prev e = some p := by simpa using hprev
    have hep : e ≠ p := by
      rintro rfl
      exact (List.nodup_cons.mp hnodup).1 (by simp)
    have hkeep : Function.update d.next p (d.next e) e = d.next e := Function.update_of_ne hep _ _
    rw [hp]
    dsimp only
    rw [hkeep]
    cases b with
    | nil =>
      rw [show d.next e = none from hnext]
      simp [hp]
    | cons n b =>
      rw [show d.next e = some n from hnext]
      simp [hp]

theorem Dll.Holds.unlink (h : d.Holds l) (he : e ∈ l) : (d.unlink e).Holds (l.erase e) := by
  obtain ⟨a, b, rfl⟩ := List.append_of_mem he
  have hnodup := h.nodup
  have hmid := List.nodup_cons.mp (List.nodup_middle.mp hnodup)
  have hback := h.backward
  have hnodup' := List.nodup_reverse.mpr hnodup
  rw [List.reverse_append, List.reverse_cons, List.append_assoc, List.singleton_append]
    at hback hnodup'
  rw [Dll.unlink_eq h, erase_middle hnodup]
  refine ⟨hmid.2, ?_, ?_⟩
  · apply (h.forward.bypass hnodup).frame
    intro x hx
    apply Function.update_of_ne
    rintro rfl
    exact hmid.1 hx
  · rw [List.reverse_append]
    apply (hback.bypass hnodup').frame
    intro x hx
    apply Function.update_of_ne
    rintro rfl
    rw [List.mem_append, List.mem_reverse, List.mem_reverse] at hx
    exact hmid.1 (List.mem_append.mpr hx.symm)

theorem Dll.Holds.pushFront (h : d.Holds l) (he : e ∉ l) : (d.pushFront e).Holds (e :: l) := by
  refine ⟨List.nodup_cons.mpr ⟨he, h.nodup⟩, ?_, ?_⟩
  · have hlinks : (d.pushFront e).next = Function.update d.next e d.head ∧
        (d.pushFront e).head = some e := by
      unfold Dll.pushFront
      dsimp only
      cases d.head with
      | none =>
        cases d.tail with
        | none => exact ⟨rfl, rfl⟩
        | some t => exact ⟨rfl, rfl⟩
      | some x =>
        cases d.tail with
        | none => exact ⟨rfl, rfl⟩
        | some t => exact ⟨rfl, rfl⟩
    rw [hlinks.1, hlinks.2]
    refine ⟨rfl, ?_⟩
    rw [Function.update_self]
    apply h.forward.frame
    intro x hx
    apply Function.update_of_ne
    rintro rfl
    exact he hx
  · have hback := h.backward
    have hhead := h.forward.head
    have htail := h.tail_eq
    cases l with
    | nil =>
      have hlinks : (d.pushFront e).prev = Function.update d.prev e none ∧
          (d.pushFront e).tail = some e := by
        unfold Dll.pushFront
        rw [show d.head = none from hhead, show d.tail = none from htail]
        exact ⟨rfl, rfl⟩
      rw [hlinks.1, hlinks.2]
      refine ⟨rfl, ?_⟩
      rw [Function.update_self]
      rfl
    | cons x l =>
      obtain ⟨t, ht⟩ := Option.isSome_iff_exists.mp
        (List.getLast?_isSome.mpr (List.cons_ne_nil x l))
      rw [ht] at htail
      have hlinks : (d.pushFront e).prev =
          Function.update (Function.update d.prev e none) x (some e) ∧
          (d.pushFront e).tail = d.tail := by
        unfold Dll.pushFront
        rw [show d.head = some x from hhead]
        dsimp only
        rw [htail]
        exact ⟨rfl, rfl⟩
      rw [hlinks.1, hlinks.2, List.reverse_cons]
      rw [List.reverse_cons] at hback ⊢
      apply hback.concat
      · rw [← List.reverse_cons]
        exact List.nodup_reverse.mpr h.nodup
      · rw [← List.reverse_cons, List.mem_reverse]
        exact he

end Dll

end Ecopy.Lib.Links
