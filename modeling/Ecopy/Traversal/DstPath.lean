import Ecopy.Server.StatBulk

/-!
# From source directories to destination directories

`dst_path_for` cuts as many bytes off a source directory as its root is long and puts the
rest behind the destination root. Below any root but `/` the rest begins with a separator;
below `/` it does not, because the walker joins names to `/` without one. The test for
overlapping roots keeps `/` out as a local source, and is not made for a remote target.

Both roots are canonical when the traversal starts: the source root comes from `realpath`,
the destination root from the same or from the server's normalization. What a path stands
for is its components, so `//a` is `/a`.
-/
namespace Ecopy.Traversal
open Protocol (Bytes)
open Ecopy.Path FileSystem Server
open Lib.Fields

/-- `g_src_root` and `g_dst_root`. -/
structure Roots where
  src : Bytes
  dst : Bytes

/-- The two checked copies in `traversal_start`. -/
def traversalStart (src dst : Bytes) : Option Roots :=
  if src.length ≥ pathMax ∨ dst.length ≥ pathMax then none else some ⟨src, dst⟩

def dstPathFor (r : Roots) (src : Bytes) (outsz : ℕ) : Option Bytes :=
  let suffix := src.drop r.src.length
  if (r.dst ++ suffix).length ≥ outsz then none else some (r.dst ++ suffix)

def isSameOrChildPath (base path : Bytes) : Bool :=
  if base = [slash] then path.head? == some slash
  else base.isPrefixOf path &&
    match path.drop base.length with
    | [] => true
    | b :: _ => b == slash

/-- `main` refuses local roots that overlap. -/
def admits (remote : Bool) (src dst : Bytes) : Bool :=
  remote || !(isSameOrChildPath src dst || isSameOrChildPath dst src)

/-- The directories that a walk from the root comes to, with the names on the way. -/
inductive Walked (root : Bytes) : List Bytes → Bytes → Prop
  | root : Walked root [] root
  | child {rel : List Bytes} {path name child : Bytes} : Walked root rel path → Ordinary name →
      pathJoinFast path name pathMax = some child → Walked root (rel ++ [name]) child

variable {ss ds rel : List Bytes} {path : Bytes}

theorem joined_eq_render (b : Loc) (name : Bytes) :
    joined b name = render (b ++ [name]) := by
  rw [render_eq_join (by simp), join_append]
  unfold joined
  split
  · rename_i hnil
    rw [hnil]
    simp
  · rename_i hne
    rw [render_eq_join hne]
    simp

/-- A directory of the walk has the names of the root and those on the way. -/
theorem Walked.spec (hss : ∀ c ∈ ss, Ordinary c) (h : Walked (render ss) rel path) :
    path = render (ss ++ rel) ∧ (∀ c ∈ rel, Ordinary c) ∧ (rel = [] ∨ path.length < pathMax) := by
  induction h with
  | root =>
    rw [List.append_nil]
    exact ⟨rfl, by simp, Or.inl rfl⟩
  | @child rel path name child hwalked hname hjoin ih =>
    obtain ⟨rfl, hrel, -⟩ := ih
    have hall : ∀ c ∈ ss ++ rel, Ordinary c := by
      intro c hc
      exact (List.mem_append.mp hc).elim (hss c) (hrel c)
    rw [pathJoinFast_render hall] at hjoin
    split at hjoin
    · cases hjoin
    · rename_i hfits
      obtain rfl := Option.some.inj hjoin
      refine ⟨?_, ?_, Or.inr (by omega)⟩
      · rw [joined_eq_render, List.append_assoc]
      · intro c hc
        rcases List.mem_append.mp hc with hc | hc
        · exact hrel c hc
        · rw [List.mem_singleton.mp hc]
          exact hname

theorem fields_render_append_join (hds : ∀ c ∈ ds, Ordinary c) (hrel : ∀ c ∈ rel, Ordinary c) :
    fields slash (render ds ++ join slash rel) = ds ++ rel := by
  cases rel with
  | nil => rw [join_nil, List.append_nil, List.append_nil, fields_render hds]
  | cons c cs =>
    have hproper : ∀ f ∈ c :: cs, Proper slash f := fun f hf => (hrel f hf).1
    have htail := fields_join hproper
    rw [join_cons, fields_sep_cons] at htail
    rw [join_cons, fields_append_sep, fields_render hds, htail]

theorem resolve_render_append_join (hds : ∀ c ∈ ds, Ordinary c) (hrel : ∀ c ∈ rel, Ordinary c) :
    resolve (render ds ++ join slash rel) = ds ++ rel := by
  rw [resolve, fields_render_append_join hds hrel, resolveFrom_ordinary, List.nil_append]
  intro c hc
  exact (List.mem_append.mp hc).elim (hds c) (hrel c)

/-- The directory gets the same names below the destination root, or none because the path
would be too long. -/
def MapsTo (ss ds rel : List Bytes) (path : Bytes) : Prop :=
  match dstPathFor ⟨render ss, render ds⟩ path pathMax with
  | some out => resolve out = ds ++ rel
  | none => pathMax ≤ (render (ds ++ rel)).length

/-- Every directory of the walk is mapped to its place, and no two to one. -/
def Faithful (ss ds : List Bytes) : Prop :=
  ∀ rel path, Walked (render ss) rel path → MapsTo ss ds rel path ∧
    ∀ rel' path', Walked (render ss) rel' path' → path ≠ path' → ∀ out out',
      dstPathFor ⟨render ss, render ds⟩ path pathMax = some out →
      dstPathFor ⟨render ss, render ds⟩ path' pathMax = some out' → resolve out ≠ resolve out'

theorem length_render_append (hne : ds ≠ []) :
    (render (ds ++ rel)).length = (render ds).length + (join slash rel).length := by
  rw [render_eq_join (by simp [hne]), render_eq_join hne, join_append, List.length_append]

/-- What is cut off a source path. -/
theorem drop_root (hss : ss ≠ []) :
    (render (ss ++ rel)).drop (render ss).length = join slash rel := by
  have hall : ss ++ rel ≠ [] := by simp [hss]
  rw [render_eq_join hall, render_eq_join hss, join_append, List.drop_left]

theorem drop_slash : (render rel).drop (render []).length = (join slash rel).tail := by
  have hone : (render ([] : List Bytes)).length = 1 := rfl
  rw [hone, List.drop_one]
  by_cases hnil : rel = []
  · subst hnil
    rfl
  · rw [render_eq_join hnil]

/-- Where the source root is not `/`, the rest begins with a separator. -/
theorem mapsTo_of_src (hss : ∀ c ∈ ss, Ordinary c) (hds : ∀ c ∈ ds, Ordinary c) (hne : ss ≠ [])
    (h : Walked (render ss) rel path) : MapsTo ss ds rel path := by
  obtain ⟨rfl, hrel, hlen⟩ := h.spec hss
  unfold MapsTo dstPathFor
  dsimp only
  rw [drop_root hne]
  split
  · rename_i out hout
    split at hout
    · cases hout
    · obtain rfl := Option.some.inj hout
      exact resolve_render_append_join hds hrel
  · rename_i hout
    split at hout
    · rename_i hlong
      by_cases hd : ds = []
      · -- behind `/` there is always room for what fitted behind the source root
        subst hd
        rw [length_render_append hne] at hlen
        rcases hlen with hnil | hlen
        · subst hnil
          simpa using hlong
        · have hroot : 2 ≤ (render ss).length := by
            obtain ⟨c, cs, rfl⟩ := List.exists_cons_of_ne_nil hne
            have hc := List.length_pos_of_ne_nil (hss c List.mem_cons_self).1.1
            rw [render_eq_join (List.cons_ne_nil c cs), join_cons, List.length_cons,
              List.length_append]
            omega
          have hslash : (render ([] : List Bytes)).length = 1 := rfl
          rw [List.length_append, hslash] at hlong
          omega
      · rwa [length_render_append hd, ← List.length_append]
    · cases hout

/-- Nor does it matter when the destination root is `/` too. -/
theorem mapsTo_of_dst (h : Walked (render []) rel path) : MapsTo [] [] rel path := by
  have hroot : ∀ c ∈ ([] : List Bytes), Ordinary c := by simp
  obtain ⟨rfl, hrel, hlen⟩ := h.spec hroot
  have hout : render [] ++ (join slash rel).tail = render rel := by
    cases rel with
    | nil => rfl
    | cons c cs => rfl
  rw [List.nil_append] at hlen
  unfold MapsTo dstPathFor
  dsimp only
  rw [List.nil_append, drop_slash, hout]
  split
  · rename_i out hsome
    split at hsome
    · cases hsome
    · obtain rfl := Option.some.inj hsome
      exact resolve_render hrel
  · rename_i hnone
    split at hnone
    · rename_i hlong
      exact hlong
    · cases hnone

/-- With `/` as the source root and another one as the destination, the first name is glued to
the last of the root. -/
theorem not_mapsTo_of_glued (hds : ∀ c ∈ ds, Ordinary c) (hne : ds ≠ [])
    (hroom : (render ds).length + 1 < pathMax) : ¬ MapsTo [] ds [[97]] [slash, 97] := by
  obtain ⟨init, last, hds'⟩ := ds.eq_nil_or_concat.resolve_left hne
  rw [List.concat_eq_append] at hds'
  subst hds'
  have hlast := hds last (by simp)
  have hglued : Ordinary (last ++ [97]) := by
    have hlen := List.length_pos_of_ne_nil hlast.1.1
    refine ⟨⟨by simp, ?_⟩, ?_, ?_⟩
    · rw [List.mem_append, not_or]
      exact ⟨hlast.1.2, by decide⟩
    · intro heq
      have hlast' := congrArg List.getLast? heq
      simp [dot] at hlast'
    · intro heq
      have hlast' := congrArg List.getLast? heq
      simp [dotdot] at hlast'
  have hpath : render (init ++ [last]) ++ [97] = render (init ++ [last ++ [97]]) := by
    rw [render_eq_join (by simp), render_eq_join (by simp)]
    simp
  have hall : ∀ c ∈ init ++ [last ++ [97]], Ordinary c := by
    intro c hc
    rcases List.mem_append.mp hc with hc | hc
    · exact hds c (by simp [hc])
    · rw [List.mem_singleton.mp hc]
      exact hglued
  have hmap : dstPathFor ⟨render [], render (init ++ [last])⟩ [slash, 97] pathMax =
      some (render (init ++ [last ++ [97]])) := by
    unfold dstPathFor
    have hsuffix : [slash, 97].drop (render []).length = [97] := rfl
    dsimp only
    rw [hsuffix, if_neg (by rw [List.length_append, List.length_singleton]; omega), hpath]
  unfold MapsTo
  rw [hmap]
  dsimp only
  rw [resolve_render hall]
  intro heq
  have hlen := congrArg List.length heq
  simp at hlen

/-- Nothing below `/` gets a path behind a root that fills the buffer. -/
theorem dstPathFor_full (hfull : pathMax ≤ (render ds).length + 1) (hrel : rel ≠ [])
    (hord : ∀ c ∈ rel, Ordinary c) :
    dstPathFor ⟨render [], render ds⟩ (render rel) pathMax = none := by
  obtain ⟨c, cs, rfl⟩ := List.exists_cons_of_ne_nil hrel
  have hc := List.length_pos_of_ne_nil (hord c List.mem_cons_self).1.1
  unfold dstPathFor
  dsimp only
  rw [drop_slash, join_cons, List.tail_cons]
  apply if_pos
  rw [List.length_append, List.length_append]
  omega

theorem faithful_of_mapsTo (hss : ∀ c ∈ ss, Ordinary c)
    (h : ∀ rel path, Walked (render ss) rel path → MapsTo ss ds rel path) : Faithful ss ds := by
  intro rel path hwalked
  refine ⟨h rel path hwalked, ?_⟩
  intro rel' path' hwalked' hne out out' hout hout' heq
  have hmap := h rel path hwalked
  have hmap' := h rel' path' hwalked'
  unfold MapsTo at hmap hmap'
  rw [hout] at hmap
  rw [hout'] at hmap'
  have hsame : ds ++ rel = ds ++ rel' := hmap.symm.trans (heq.trans hmap')
  apply hne
  rw [(hwalked.spec hss).1, (hwalked'.spec hss).1, List.append_cancel_left hsame]

theorem ordinary_letter (b : UInt8) (hslash : b ≠ slash) (hdot : b ≠ 46) :
    ∀ c ∈ [[b]], Ordinary c := by
  intro c hc
  rw [List.mem_singleton.mp hc]
  refine ⟨⟨List.cons_ne_nil _ _, ?_⟩, ?_, ?_⟩
  · exact fun h => hslash (List.mem_singleton.mp h).symm
  · exact fun h => hdot (List.cons.inj h).1
  · exact fun h => hdot (List.cons.inj h).1

/-- The mapping is right unless the source root is `/` and the destination root is not. A
destination root with no room for one byte more is mapped to in vain, and so correctly. -/
theorem faithful_iff (hss : ∀ c ∈ ss, Ordinary c) (hds : ∀ c ∈ ds, Ordinary c) :
    Faithful ss ds ↔ ss ≠ [] ∨ ds = [] ∨ pathMax ≤ (render ds).length + 1 := by
  constructor
  · intro h
    by_contra hnot
    rw [not_or, not_or, not_not, Nat.not_le] at hnot
    obtain ⟨rfl, hne, hroom⟩ := hnot
    have hname : Ordinary [97] := ordinary_letter 97 (by decide) (by decide) _ List.mem_cons_self
    have hwalked : Walked (render []) [[97]] [slash, 97] := Walked.root.child hname rfl
    exact not_mapsTo_of_glued hds hne hroom (h _ _ hwalked).1
  · intro h
    apply faithful_of_mapsTo hss
    intro rel path hwalked
    by_cases hs : ss = []
    · subst hs
      by_cases hd : ds = []
      · subst hd
        exact mapsTo_of_dst hwalked
      · have hfull : pathMax ≤ (render ds).length + 1 :=
          (h.resolve_left fun hne => hne rfl).resolve_left hd
        obtain ⟨rfl, hrel, -⟩ := hwalked.spec hss
        rw [List.nil_append]
        unfold MapsTo
        by_cases hroot : rel = []
        · subst hroot
          have hout : dstPathFor ⟨render [], render ds⟩ (render []) pathMax =
              if (render ds).length ≥ pathMax then none else some (render ds) := by
            have hsuffix : (render ([] : List Bytes)).drop (render ([] : List Bytes)).length = [] := rfl
            unfold dstPathFor
            dsimp only
            rw [hsuffix, List.append_nil]
          rw [hout, List.append_nil]
          by_cases hlong : (render ds).length ≥ pathMax
          · rw [if_pos hlong]
            exact hlong
          · rw [if_neg hlong]
            exact resolve_render hds
        · rw [dstPathFor_full hfull hroot hrel]
          dsimp only
          rw [length_render_append hd]
          have hone : 1 ≤ (join slash rel).length := by
            obtain ⟨c, cs, rfl⟩ := List.exists_cons_of_ne_nil hroot
            simp
          omega
    · exact mapsTo_of_src hss hds hs hwalked

theorem faithful_iff_letters :
    Faithful [[115]] [[100]] ↔
      [[(115 : UInt8)]] ≠ [] ∨ [[(100 : UInt8)]] = [] ∨ pathMax ≤ (render [[100]]).length + 1 :=
  faithful_iff (ordinary_letter 115 (by decide) (by decide))
    (ordinary_letter 100 (by decide) (by decide))

/-- All of `/` to `/d` on a server: `main` lets it pass, and `/a` goes to `/da`. -/
theorem slash_not_faithful :
    admits true (render []) (render [[100]]) = true ∧
      traversalStart (render []) (render [[100]]) = some ⟨[slash], [slash, 100]⟩ ∧
      dstPathFor ⟨[slash], [slash, 100]⟩ [slash, 97] pathMax = some [slash, 100, 97] ∧
      ¬ Faithful [] [[100]] := by
  refine ⟨rfl, rfl, rfl, ?_⟩
  intro h
  have hwalked : Walked (render []) [[97]] [slash, 97] :=
    Walked.root.child (ordinary_letter 97 (by decide) (by decide) _ List.mem_cons_self) rfl
  have hmap : resolve [slash, 100, 97] = [[100], [97]] := (h _ _ hwalked).1
  exact absurd hmap (by decide)

end Ecopy.Traversal
