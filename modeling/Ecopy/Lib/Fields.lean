import Mathlib.Data.List.Basic
import Mathlib.Tactic.Common

/-!
# Fields of a separated string

`fields sep l` lists the maximal runs of `l` without the separator, as repeated
calls of `strtok` do: empty runs are skipped. `join sep` puts a separator in
front of every field. The two are inverse on lists of proper fields.
-/
namespace Ecopy.Lib.Fields
variable {α : Type*} [DecidableEq α] {sep : α}

def flush (r : List α × List (List α)) : List (List α) :=
  if r.1 = [] then r.2 else r.1 :: r.2

/-- The run at the front, and the fields after it. -/
def splitFront (sep : α) : List α → List α × List (List α)
  | [] => ([], [])
  | a :: l => if a = sep then ([], flush (splitFront sep l)) else (a :: (splitFront sep l).1, (splitFront sep l).2)

def fields (sep : α) (l : List α) : List (List α) := flush (splitFront sep l)

def join (sep : α) (fs : List (List α)) : List α := fs.flatMap fun f => sep :: f

@[simp] theorem fields_nil : fields sep [] = [] := rfl

@[simp] theorem fields_sep_cons (l : List α) : fields sep (sep :: l) = fields sep l := by
  simp [fields, splitFront, flush]

theorem splitFront_append_sep (a l : List α) :
    splitFront sep (a ++ sep :: l) =
      ((splitFront sep a).1, (splitFront sep a).2 ++ fields sep l) := by
  induction a with
  | nil => simp [splitFront, fields]
  | cons x a ih =>
    simp only [List.cons_append, splitFront, ih]
    split_ifs
    · simp only [flush]
      split_ifs <;> simp
    · rfl

theorem fields_append_sep (a l : List α) :
    fields sep (a ++ sep :: l) = fields sep a ++ fields sep l := by
  rw [fields, splitFront_append_sep]
  simp only [flush, fields]
  split_ifs <;> simp

theorem splitFront_of_sep_free {a : List α} (h : sep ∉ a) : splitFront sep a = (a, []) := by
  induction a with
  | nil => rfl
  | cons x a ih =>
    rw [List.mem_cons, not_or] at h
    simp only [splitFront, if_neg (Ne.symm h.1), ih h.2]

theorem fields_of_sep_free {a : List α} (h : sep ∉ a) (hne : a ≠ []) : fields sep a = [a] := by
  simp [fields, splitFront_of_sep_free h, flush, hne]

/-- A proper field is not empty and holds no separator. -/
def Proper (sep : α) (f : List α) : Prop := f ≠ [] ∧ sep ∉ f

variable (sep) in
theorem splitFront_proper (l : List α) :
    sep ∉ (splitFront sep l).1 ∧ ∀ f ∈ (splitFront sep l).2, Proper sep f := by
  induction l with
  | nil => simp [splitFront]
  | cons a l ih =>
    obtain ⟨hfront, hrest⟩ := ih
    simp only [splitFront]
    split_ifs with h
    · refine ⟨by simp, fun f hf => ?_⟩
      simp only [flush] at hf
      split_ifs at hf with hnil
      · exact hrest f hf
      · rcases List.mem_cons.mp hf with rfl | hf
        · exact ⟨hnil, hfront⟩
        · exact hrest f hf
    · refine ⟨?_, hrest⟩
      rw [List.mem_cons, not_or]
      exact ⟨Ne.symm h, hfront⟩

theorem fields_proper {l f : List α} (h : f ∈ fields sep l) : Proper sep f := by
  obtain ⟨hfront, hrest⟩ := splitFront_proper sep l
  simp only [fields, flush] at h
  split_ifs at h with hnil
  · exact hrest f h
  · rcases List.mem_cons.mp h with rfl | h
    · exact ⟨hnil, hfront⟩
    · exact hrest f h

variable (sep) in
theorem splitFront_subset (l : List α) :
    (∀ a ∈ (splitFront sep l).1, a ∈ l) ∧ ∀ f ∈ (splitFront sep l).2, ∀ a ∈ f, a ∈ l := by
  induction l with
  | nil => simp [splitFront]
  | cons x l ih =>
    obtain ⟨hfront, hrest⟩ := ih
    simp only [splitFront]
    split_ifs with h
    · refine ⟨by simp, fun f hf a ha => List.mem_cons_of_mem x ?_⟩
      simp only [flush] at hf
      split_ifs at hf with hnil
      · exact hrest f hf a ha
      · rcases List.mem_cons.mp hf with rfl | hf
        · exact hfront a ha
        · exact hrest f hf a ha
    · refine ⟨fun a ha => ?_, fun f hf a ha => List.mem_cons_of_mem x (hrest f hf a ha)⟩
      rcases List.mem_cons.mp ha with rfl | ha
      · exact List.mem_cons_self
      · exact List.mem_cons_of_mem x (hfront a ha)

theorem mem_of_mem_fields {l f : List α} {a : α} (hf : f ∈ fields sep l) (ha : a ∈ f) : a ∈ l := by
  obtain ⟨hfront, hrest⟩ := splitFront_subset sep l
  simp only [fields, flush] at hf
  split_ifs at hf with hnil
  · exact hrest f hf a ha
  · rcases List.mem_cons.mp hf with rfl | hf
    · exact hfront a ha
    · exact hrest f hf a ha

omit [DecidableEq α] in
@[simp] theorem join_nil : join sep [] = [] := rfl

omit [DecidableEq α] in
@[simp] theorem join_cons (f : List α) (fs : List (List α)) :
    join sep (f :: fs) = sep :: (f ++ join sep fs) := rfl

omit [DecidableEq α] in
@[simp] theorem join_append (fs gs : List (List α)) :
    join sep (fs ++ gs) = join sep fs ++ join sep gs := by
  simp [join]

theorem fields_join {fs : List (List α)} (h : ∀ f ∈ fs, Proper sep f) :
    fields sep (join sep fs) = fs := by
  induction fs with
  | nil => rfl
  | cons f fs ih =>
    have hf := h f (by simp)
    have htail := ih fun g hg => h g (by simp [hg])
    rw [join_cons, fields_sep_cons]
    cases fs with
    | nil => simpa using fields_of_sep_free hf.2 hf.1
    | cons g gs =>
      rw [join_cons, fields_append_sep, fields_of_sep_free hf.2 hf.1]
      rw [join_cons, fields_sep_cons] at htail
      simp [htail]

/-- Without an empty field inside or at its end, a string is its runs joined again. -/
theorem append_join_splitFront {l : List α} (hempty : ¬ [sep, sep] <:+: l)
    (hlast : l.getLast? ≠ some sep) :
    (splitFront sep l).1 ++ join sep (splitFront sep l).2 = l := by
  induction l with
  | nil => rfl
  | cons a l ih =>
    have htail : ¬ [sep, sep] <:+: l := fun h => hempty (h.trans (List.suffix_cons a l).isInfix)
    rw [splitFront]
    split_ifs with h
    · subst h
      cases l with
      | nil => exact absurd rfl hlast
      | cons b l =>
        have hb : b ≠ a := by
          rintro rfl
          exact hempty ⟨[], l, rfl⟩
        have hrest := ih htail (by rwa [List.getLast?_cons_cons] at hlast)
        rw [splitFront, if_neg hb] at hrest ⊢
        rw [flush, if_neg (List.cons_ne_nil _ _), join_cons, hrest]
        rfl
    · have hrest := ih htail (by
        cases l with
        | nil =>
          intro h
          cases h
        | cons b l => rwa [List.getLast?_cons_cons] at hlast)
      rw [List.cons_append, hrest]

theorem join_fields {l : List α} (hhead : l.head? = some sep) (hempty : ¬ [sep, sep] <:+: l)
    (hlast : l.getLast? ≠ some sep) : join sep (fields sep l) = l := by
  cases l with
  | nil => cases hhead
  | cons a l =>
    obtain rfl := Option.some.inj hhead
    have hjoin := append_join_splitFront hempty hlast
    rw [splitFront, if_pos rfl, List.nil_append] at hjoin
    rw [fields_sep_cons, fields]
    exact hjoin

/-- Joining the fields again is never longer than the string they came from,
up to one leading separator. -/
theorem length_join_fields_le (l : List α) :
    (join sep (fields sep l)).length ≤ l.length + 1 ∧
      (join sep (splitFront sep l).2).length + (splitFront sep l).1.length ≤ l.length := by
  induction l with
  | nil => simp [splitFront, fields, flush]
  | cons a l ih =>
    obtain ⟨hall, hsplit⟩ := ih
    have hflush : ∀ r : List α × List (List α),
        (join sep (flush r)).length ≤ (join sep r.2).length + r.1.length + 1 := by
      intro r
      simp only [flush]
      split_ifs
      · omega
      · simp only [join_cons, List.length_cons, List.length_append]
        omega
    have hfront : (join sep (splitFront sep (a :: l)).2).length +
        (splitFront sep (a :: l)).1.length ≤ (a :: l).length := by
      simp only [splitFront, List.length_cons]
      split_ifs
      · simpa [fields] using hall
      · simp only [List.length_cons]
        omega
    exact ⟨Nat.le_trans (hflush _) (by omega), hfront⟩

variable (sep) in
/-- A string that starts with a separator pays for every field. -/
theorem length_join_fields_of_sep_cons (l : List α) :
    (join sep (fields sep (sep :: l))).length ≤ (sep :: l).length := by
  rw [fields_sep_cons]
  exact (length_join_fields_le l).1

omit [DecidableEq α] in
/-- Cutting at the first separator is unique. -/
theorem append_sep_inj {a b u v : List α} (ha : sep ∉ a) (hb : sep ∉ b)
    (hu : u = [] ∨ u.head? = some sep) (hv : v = [] ∨ v.head? = some sep)
    (h : a ++ u = b ++ v) : a = b ∧ u = v := by
  induction a generalizing b with
  | nil =>
    cases b with
    | nil => exact ⟨rfl, h⟩
    | cons y b =>
      rw [List.nil_append] at h
      rcases hu with hu | hu
      · rw [hu] at h
        cases h
      · rw [h] at hu
        exact absurd (Option.some.inj hu) fun hy => hb (hy ▸ List.mem_cons_self)
  | cons x a ih =>
    cases b with
    | nil =>
      rw [List.nil_append] at h
      rcases hv with hv | hv
      · rw [hv] at h
        cases h
      · rw [← h] at hv
        exact absurd (Option.some.inj hv) fun hx => ha (hx ▸ List.mem_cons_self)
    | cons y b =>
      simp only [List.cons_append, List.cons.injEq] at h
      rw [List.mem_cons, not_or] at ha hb
      obtain ⟨hab, huv⟩ := ih ha.2 hb.2 h.2
      exact ⟨by rw [h.1, hab], huv⟩

omit [DecidableEq α] in
theorem join_eq_nil_or_sep (sep : α) (fs : List (List α)) :
    join sep fs = [] ∨ (join sep fs).head? = some sep := by
  cases fs with
  | nil => exact .inl rfl
  | cons f fs => exact .inr rfl

omit [DecidableEq α] in
/-- A joined list that continues another one at a field boundary has its
fields as a prefix. -/
theorem prefix_of_join_append {fs gs : List (List α)} {t : List α}
    (hf : ∀ f ∈ fs, sep ∉ f) (hg : ∀ g ∈ gs, sep ∉ g) (ht : t = [] ∨ t.head? = some sep)
    (h : join sep fs ++ t = join sep gs) : fs <+: gs := by
  induction fs generalizing gs with
  | nil => exact List.nil_prefix
  | cons f fs ih =>
    cases gs with
    | nil => cases h
    | cons g gs =>
      simp only [join_cons, List.cons_append, List.append_assoc, List.cons.injEq, true_and] at h
      have hrest : join sep fs ++ t = [] ∨ (join sep fs ++ t).head? = some sep := by
        rcases join_eq_nil_or_sep sep fs with hj | hj
        · rw [hj, List.nil_append]
          exact ht
        · exact .inr (by rw [List.head?_append, hj]; rfl)
      obtain ⟨rfl, htail⟩ := append_sep_inj (hf f (by simp)) (hg g (by simp)) hrest
        (join_eq_nil_or_sep sep gs) h
      rw [List.cons_prefix_cons]
      exact ⟨rfl, ih (fun x hx => hf x (by simp [hx])) (fun x hx => hg x (by simp [hx])) htail⟩

end Ecopy.Lib.Fields
