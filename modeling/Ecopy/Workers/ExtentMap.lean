import Ecopy.Workers.Config
import Mathlib.Data.Int.Basic
import Mathlib.Tactic.Common

/-!
# The data-extent map of a sparse source

`build_extent_map` asks the kernel for the data runs of `[0, limit)`, with
`FIEMAP` first and `SEEK_DATA`/`SEEK_HOLE` where that is not available. The
kernel is the list of its answers, which the walks consume one call at a time;
a walk that has not finished when the list ends has no result. Nothing is
assumed about the answers: runs may overlap, come in any order or lie beyond
the limit. The map that comes out is a list of disjoint runs in rising order
all the same, with a gap between any two.

Allocation failures, `has_hole` and the byte total are left out.
-/
namespace Ecopy.Workers.ExtentMap

abbrev Extent := ℤ × ℤ

/-- A sum of type `off_t`, in two's complement. -/
def offT (x : ℤ) : ℤ := x.bmod (2 ^ 64)

/-- A data run rounded outward to `ALIGNMENT` and clipped to the limit. The end
is rounded before it is clipped. -/
def roundRun (data hole limit : ℤ) : Extent :=
  let data := data.tdiv Config.alignment * Config.alignment
  let hole := (offT (hole + Config.alignment - 1)).tdiv Config.alignment * Config.alignment
  (if data < 0 then 0 else data, if hole > limit then limit else hole)

/-- `extent_list_add`, on the list in reverse: the head is the last run. -/
def extentListAdd (l : List Extent) (data hole limit : ℤ) : List Extent :=
  let r := roundRun data hole limit
  if r.2 ≤ r.1 then l
  else
    match l with
    | [] => [r]
    | last :: rest =>
      if r.1 ≤ last.2 then
        if r.2 > last.2 then (last.1, r.2) :: rest else last :: rest
      else r :: last :: rest

structure FiemapExtent where
  logical : ℕ
  length : ℕ
  unwrittenFlag : Bool
  delallocFlag : Bool
  lastFlag : Bool
deriving DecidableEq, Repr

def FiemapExtent.stop (e : FiemapExtent) : ℕ := (e.logical + e.length) % 2 ^ 64

def FiemapExtent.unwritten (e : FiemapExtent) : Bool := e.unwrittenFlag && !e.delallocFlag

/-- One extent of an answer: the list and the offset expected next. -/
def fiemapExtent (limit : ℤ) (acc : List Extent × ℕ) (e : FiemapExtent) : List Extent × ℕ :=
  let l :=
    if !e.unwritten && decide ((e.logical : ℤ) < limit) then
      extentListAdd acc.1 e.logical (if (e.stop : ℤ) < limit then e.stop else limit) limit
    else acc.1
  (l, if e.stop > acc.2 then e.stop else acc.2)

inductive Walk where
  | mapped (l : List Extent)
  | unsupported
deriving DecidableEq, Repr

/-- `fiemap_walk`. An answer is `none` when the call fails. -/
def fiemapWalk (limit : ℤ) :
    List (Option (List FiemapExtent)) → (pos expect : ℕ) → List Extent → Option Walk
  | [], _, _, _ => none
  | none :: _, _, _, _ => some .unsupported
  | some es :: answers, pos, expect, l =>
    match es.getLast? with
    | none => some (.mapped l)
    | some last =>
      let r := es.foldl (fiemapExtent limit) (l, expect)
      if last.lastFlag || decide ((r.2 : ℤ) ≥ limit) || decide (r.2 ≤ pos) then
        some (.mapped r.1)
      else fiemapWalk limit answers r.2 r.2 r.1

inductive SeekData where
  | found (data : ℤ)
  | enxio
  | failed
deriving DecidableEq, Repr

/-- `seek_walk`. An answer is that of `SEEK_DATA` and that of the `SEEK_HOLE`
after it, `none` when it fails. -/
def seekWalk (limit : ℤ) : List (SeekData × Option ℤ) → ℤ → List Extent → Option Walk
  | answers, pos, l =>
    if pos < limit then
      match answers with
      | [] => none
      | (.enxio, _) :: _ => some (.mapped l)
      | (.failed, _) :: _ => some .unsupported
      | (.found data, hole) :: answers =>
        if data ≥ limit then some (.mapped l)
        else
          match hole with
          | none => some .unsupported
          | some hole => seekWalk limit answers hole (extentListAdd l data hole limit)
    else some (.mapped l)

structure Kernel where
  fiemap : List (Option (List FiemapExtent))
  seek : List (SeekData × Option ℤ)

/-- `build_extent_map`; `some none` is the null map of a source that neither
interface can describe. -/
def buildExtentMap (k : Kernel) (limit : ℤ) : Option (Option (List Extent)) :=
  let walk :=
    match fiemapWalk limit k.fiemap 0 0 [] with
    | some .unsupported => seekWalk limit k.seek 0 []
    | w => w
  match walk with
  | none => none
  | some .unsupported => some none
  | some (.mapped l) => some (some l.reverse)

/-- Disjoint runs inside `[0, limit)` in rising order. -/
structure Ordered (limit : ℤ) (l : List Extent) : Prop where
  rising : l.Pairwise fun a b => a.2 < b.1
  inside : ∀ e ∈ l, 0 ≤ e.1 ∧ e.1 < e.2 ∧ e.2 ≤ limit

/-- The same for a list in reverse. -/
def Falling (limit : ℤ) (l : List Extent) : Prop := Ordered limit l.reverse

theorem Ordered.nil (limit : ℤ) : Ordered limit [] := ⟨.nil, nofun⟩

variable {limit : ℤ} {l : List Extent}

theorem falling_cons_iff {r : Extent} :
    Falling limit (r :: l) ↔
      (∀ e ∈ l, e.2 < r.1) ∧ (0 ≤ r.1 ∧ r.1 < r.2 ∧ r.2 ≤ limit) ∧ Falling limit l := by
  unfold Falling
  rw [List.reverse_cons]
  constructor
  · intro h
    have hsplit := List.pairwise_append.mp h.rising
    constructor
    · intro e he
      exact hsplit.2.2 e (List.mem_reverse.mpr he) r (List.mem_singleton_self r)
    · exact ⟨h.inside r (by simp), hsplit.1, fun e he => h.inside e (by simp [List.mem_reverse.mp he])⟩
  · intro ⟨hbefore, hr, h⟩
    constructor
    · apply List.pairwise_append.mpr
      refine ⟨h.rising, List.pairwise_singleton _ _, ?_⟩
      intro e he b hb
      rw [List.mem_singleton.mp hb]
      exact hbefore e (List.mem_reverse.mp he)
    · intro e he
      rw [List.mem_append, List.mem_singleton] at he
      rcases he with he | rfl
      · exact h.inside e he
      · exact hr

theorem roundRun_fst_nonneg (data hole limit : ℤ) : 0 ≤ (roundRun data hole limit).1 := by
  unfold roundRun
  dsimp only
  split_ifs <;> omega

theorem roundRun_snd_le (data hole limit : ℤ) : (roundRun data hole limit).2 ≤ limit := by
  unfold roundRun
  dsimp only
  split_ifs <;> omega

/-- Whatever run is added, the list stays in order. -/
theorem Falling.add (h : Falling limit l) (data hole : ℤ) :
    Falling limit (extentListAdd l data hole limit) := by
  have hfst := roundRun_fst_nonneg data hole limit
  have hsnd := roundRun_snd_le data hole limit
  unfold extentListAdd
  dsimp only
  split_ifs with hempty
  · exact h
  · have hr : 0 ≤ (roundRun data hole limit).1 ∧
        (roundRun data hole limit).1 < (roundRun data hole limit).2 ∧
        (roundRun data hole limit).2 ≤ limit := ⟨hfst, by omega, hsnd⟩
    cases l with
    | nil => exact falling_cons_iff.mpr ⟨nofun, hr, h⟩
    | cons last rest =>
      obtain ⟨hbefore, hlast, hrest⟩ := falling_cons_iff.mp h
      dsimp only
      split_ifs with htouch hlonger
      · exact falling_cons_iff.mpr ⟨hbefore, ⟨hlast.1, hlast.2.1.trans hlonger, hsnd⟩, hrest⟩
      · exact h
      · apply falling_cons_iff.mpr
        refine ⟨?_, hr, h⟩
        intro e he
        rw [List.mem_cons] at he
        rcases he with rfl | he
        · omega
        · have he' := hbefore e he
          omega

theorem Falling.fiemapExtents (h : Falling limit l) (expect : ℕ) (es : List FiemapExtent) :
    Falling limit (es.foldl (fiemapExtent limit) (l, expect)).1 := by
  induction es generalizing l expect with
  | nil => exact h
  | cons e es ih =>
    rw [List.foldl_cons]
    apply ih
    split_ifs
    · exact h.add _ _
    · exact h.add _ _
    · exact h

theorem fiemapWalk_falling {answers : List (Option (List FiemapExtent))} {pos expect : ℕ}
    {out : List Extent} (h : Falling limit l)
    (hw : fiemapWalk limit answers pos expect l = some (.mapped out)) : Falling limit out := by
  induction answers generalizing pos expect l with
  | nil => cases hw
  | cons answer answers ih =>
    cases answer with
    | none => cases hw
    | some es =>
      simp only [fiemapWalk] at hw
      split at hw
      · cases hw
        exact h
      · split_ifs at hw
        · cases hw
          exact h.fiemapExtents expect es
        · exact ih (h.fiemapExtents expect es) hw

theorem seekWalk_falling {answers : List (SeekData × Option ℤ)} {pos : ℤ} {out : List Extent}
    (h : Falling limit l) (hw : seekWalk limit answers pos l = some (.mapped out)) :
    Falling limit out := by
  induction answers generalizing pos l with
  | nil =>
    unfold seekWalk at hw
    split_ifs at hw
    cases hw
    exact h
  | cons answer answers ih =>
    obtain ⟨found, hole⟩ := answer
    unfold seekWalk at hw
    split_ifs at hw
    · cases found with
      | enxio =>
        cases hw
        exact h
      | failed => cases hw
      | found data =>
        dsimp only at hw
        split_ifs at hw
        · cases hw
          exact h
        · cases hole with
          | none => cases hw
          | some hole => exact ih (h.add data hole) hw
    · cases hw
      exact h

/-- Whatever the kernel answers, a map is a list of disjoint runs in rising order. -/
theorem buildExtentMap_ordered {k : Kernel} {ext : List Extent}
    (h : buildExtentMap k limit = some (some ext)) : Ordered limit ext := by
  unfold buildExtentMap at h
  dsimp only at h
  have hnil : Falling limit [] := Ordered.nil limit
  split at h
  · cases h
  · cases h
  · next l hwalk =>
    cases h
    split at hwalk
    · exact seekWalk_falling hnil hwalk
    · exact fiemapWalk_falling hnil hwalk

end Ecopy.Workers.ExtentMap
