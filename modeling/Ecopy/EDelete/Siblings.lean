import Ecopy.DirWalk.GroupOrder
import Ecopy.EDelete.Removal

/-!
# Siblings in the removal pass

The recorded directories are sorted by depth and then by path. A path has as many slashes as its
depth says, beyond those of the start path. So a path of the same depth that lies between two
children of one parent is a child of that parent as well, and siblings are adjacent. The grouped
pass over the list then hands each family to one thread.
-/
namespace Ecopy.EDelete
open Protocol (Bytes)
open Ecopy.Path (dot dotdot slash render Ordinary pathMax)
open Server (pathJoinFast)
open DirWalk (DType)
open DirWalk.DepthGroups (Exact)
open Lib.Runs

variable {c : Config}

/-- What lies between two lists with a common beginning begins like them. -/
theorem prefix_of_between {p x y w : Bytes} (hlow : p ++ x ≤ w) (hhigh : w ≤ p ++ y) : p <+: w := by
  induction p generalizing w with
  | nil => exact List.nil_prefix
  | cons b p ih =>
    cases w with
    | nil => exact absurd (List.le_nil.mp hlow) (by simp)
    | cons a w =>
      rw [List.cons_append, List.cons_le_cons_iff] at hlow hhigh
      rcases hlow with hlt | ⟨rfl, hlow⟩
      · rcases hhigh with hlt' | ⟨rfl, -⟩
        · exact absurd (UInt8.lt_trans hlt hlt') (UInt8.lt_irrefl b)
        · exact absurd hlt (UInt8.lt_irrefl _)
      · rcases hhigh with hlt' | ⟨-, hhigh⟩
        · exact absurd hlt' (UInt8.lt_irrefl _)
        · exact List.cons_prefix_cons.mpr ⟨rfl, ih hlow hhigh⟩

theorem parentOf_append {p x : Bytes} (hx : slash ∉ x) : parentOf (p ++ slash :: x) = p := by
  have hall : ∀ b ∈ x.reverse, (b != slash) = true := by
    intro b hb
    rw [List.mem_reverse] at hb
    exact bne_iff_ne.mpr fun heq => hx (heq ▸ hb)
  unfold parentOf
  rw [List.reverse_append, List.reverse_cons, List.append_assoc, List.singleton_append,
    List.dropWhile_append_of_pos hall]
  simp

/-- A path with a slash is its parent part, a slash and a name. -/
theorem exists_name {p : Bytes} (hp : slash ∈ p) : ∃ x, slash ∉ x ∧ p = parentOf p ++ slash :: x := by
  obtain ⟨q, x, heq, hx⟩ : ∃ q x, p = q ++ slash :: x ∧ slash ∉ x := by
    induction p with
    | nil => cases hp
    | cons b p ih =>
      by_cases hrest : slash ∈ p
      · obtain ⟨q, x, rfl, hx⟩ := ih hrest
        exact ⟨b :: q, x, rfl, hx⟩
      · rcases List.mem_cons.mp hp with rfl | hp
        · exact ⟨[], p, rfl, hrest⟩
        · exact absurd hp hrest
  refine ⟨x, hx, ?_⟩
  rw [heq, parentOf_append hx]

theorem count_slash {p x : Bytes} (hx : slash ∉ x) :
    (p ++ slash :: x).count slash = p.count slash + 1 := by
  rw [List.count_append, List.count_cons_self, List.count_eq_zero_of_not_mem hx]

/-- Between two children of one parent there is no path of their depth that has another parent. -/
theorem parent_of_between {a q b : Bytes} (ha : slash ∈ a) (hb : slash ∈ b)
    (hparent : parentOf a = parentOf b) (hcount : q.count slash = a.count slash) (hlow : a ≤ q)
    (hhigh : q ≤ b) : parentOf q = parentOf a := by
  obtain ⟨x, hx, hax⟩ := exists_name ha
  obtain ⟨y, -, hby⟩ := exists_name hb
  rw [← hparent] at hby
  have hcounta : a.count slash = (parentOf a).count slash + 1 := by
    conv_lhs => rw [hax]
    exact count_slash hx
  have hlow' : (parentOf a ++ [slash]) ++ x ≤ q := by
    rw [List.append_assoc, List.singleton_append, ← hax]
    exact hlow
  have hhigh' : q ≤ (parentOf a ++ [slash]) ++ y := by
    rw [List.append_assoc, List.singleton_append, ← hby]
    exact hhigh
  obtain ⟨r, hr⟩ := prefix_of_between hlow' hhigh'
  rw [List.append_assoc, List.singleton_append] at hr
  have hnone : slash ∉ r := by
    intro hmem
    have hpos := List.count_pos_iff.mpr hmem
    rw [← hr, List.count_append, List.count_cons_self] at hcount
    omega
  rw [← hr, parentOf_append hnone]

/-- The slashes of a path tell its depth. -/
def Fits (c : Config) (path : Bytes) (depth : ℕ) : Prop :=
  path ≠ [slash] ∧ path.count slash = (render c.top).count slash + depth

theorem slash_mem_top (c : Config) : slash ∈ render c.top := by
  rw [Path.render_eq_join c.top_ne]
  cases htop : c.top with
  | nil => exact absurd htop c.top_ne
  | cons x xs => simp

theorem Fits.root (c : Config) : Fits c (render c.top) 0 := by
  constructor
  · intro heq
    exact c.top_ne ((Path.render_eq_slash_iff c.ordinary).mp heq)
  · rfl

theorem Fits.slash_mem {path : Bytes} {depth : ℕ} (h : Fits c path depth) : slash ∈ path := by
  have hpos := List.count_pos_iff.mpr (slash_mem_top c)
  apply List.count_pos_iff.mp
  rw [h.2]
  omega

theorem Fits.child {path name joined : Bytes} {depth : ℕ} (h : Fits c path depth)
    (hname : slash ∉ name) (hjoin : pathJoinFast path name pathMax = some joined) :
    Fits c joined (depth + 1) := by
  unfold pathJoinFast at hjoin
  rw [if_neg h.1] at hjoin
  dsimp only at hjoin
  split_ifs at hjoin
  cases hjoin
  constructor
  · intro heq
    have hlen := congrArg List.length heq
    have hmem := List.length_pos_of_mem h.slash_mem
    rw [List.length_append, List.length_cons, List.length_singleton] at hlen
    omega
  · rw [count_slash hname, h.2]
    omega

def Node.Fit (c : Config) (n : Node) : Prop := Fits c n.path n.depth

def NoSlash (buf : List (Bytes × DType)) : Prop := ∀ e ∈ buf, slash ∉ e.1

def WalkPc.Fit (c : Config) : WalkPc → Prop
  | .opening n => n.Fit c
  | .checking n _ => n.Fit c
  | .reading n _ buf => n.Fit c ∧ NoSlash buf
  | .pushing n child _ buf => n.Fit c ∧ child.Fit c ∧ NoSlash buf
  | .submitting n _ _ buf => n.Fit c ∧ NoSlash buf
  | _ => True

structure AllFit (s : State c) : Prop where
  queue : ∀ n ∈ s.queue, n.Fit c
  walker : ∀ i, (s.walker i).Fit c
  dirs : ∀ d ∈ s.dirs, Fits c d.path d.depth

theorem AllFit.start (c : Config) : AllFit (State.start c) where
  queue := by
    intro n hn
    rw [List.mem_singleton.mp hn]
    exact Fits.root c
  walker := fun _ => trivial
  dirs := nofun

variable {s : State c}

/-- A walker thread moves on. -/
theorem AllFit.walk (hs : AllFit s) {i : Fin c.threads} {p : WalkPc} (h : p.Fit c) :
    AllFit { s with walker := Function.update s.walker i p } where
  queue := hs.queue
  walker := by
    intro k
    dsimp only
    by_cases hk : k = i
    · subst hk
      rw [Function.update_self]
      exact h
    · rw [Function.update_of_ne hk]
      exact hs.walker k
  dirs := hs.dirs

theorem AllFit.walker_at (hs : AllFit s) {i : Fin c.threads} {p : WalkPc} (h : s.walker i = p) :
    p.Fit c :=
  h ▸ hs.walker i

theorem AllFit.record (hs : AllFit s) {n : Node} (hn : n.Fit c) :
    ∀ d ∈ if c.dryRun then s.dirs else s.dirs ++ [⟨n.path, n.depth, n.ino⟩],
      Fits c d.path d.depth := by
  split
  · exact hs.dirs
  · intro d hd
    rcases List.mem_append.mp hd with hd | hd
    · exact hs.dirs d hd
    · rw [List.mem_singleton.mp hd]
      exact hn

/-- A directory stream returns names, which have no slash. -/
def Named : Act c → Prop
  | .readDir _ _ chunk => NoSlash chunk
  | _ => True

theorem NoSlash.tail {e : Bytes × DType} {buf : List (Bytes × DType)} (h : NoSlash (e :: buf)) :
    NoSlash buf :=
  fun x hx => h x (List.mem_cons_of_mem e hx)

theorem AllFit.pass (hs : AllFit s) {i : Fin c.threads} {n : Node} {given : List Bytes}
    {name : Bytes} {t : DType} {buf : List (Bytes × DType)}
    (h : s.walker i = .reading n given ((name, t) :: buf)) :
    AllFit { s with walker := Function.update s.walker i (.reading n given buf) } := by
  have hat := hs.walker_at h
  exact hs.walk ⟨hat.1, hat.2.tail⟩

theorem Move.allFit {u : State c} {a : Act c} (h : Move s a u) (hnamed : Named a) (hs : AllFit s) :
    AllFit u := by
  cases h with
  | popNode i n queue idle first =>
    have hqueue := hs.queue
    rw [first] at hqueue
    have hmoved := hs.walk (i := i) (p := .opening n) (hqueue n List.mem_cons_self)
    exact { hmoved with queue := fun m hm => hqueue m (List.mem_cons_of_mem n hm) }
  | walkerExit i idle complete => exact hs.walk (p := .exited) trivial
  | nodeOpened i n fd at_node opened =>
    have hat := hs.walker_at at_node
    exact hs.walk (p := .checking n fd) hat
  | nodeRefused i n fault at_node =>
    have hmoved := hs.walk (i := i) (p := .leaving) trivial
    exact { hmoved with }
  | nodeChanged i n fd streams at_node =>
    have hmoved := hs.walk (i := i) (p := .leaving) trivial
    exact { hmoved with }
  | nodeBegun i n k w at_node dir counted =>
    have hat := hs.walker_at at_node
    have hmoved := hs.walk (i := i) (p := .reading n [] []) ⟨hat, nofun⟩
    exact { hmoved with dirs := hs.record hat }
  | nodeUnread i n k w at_node =>
    have hat := hs.walker_at at_node
    have hmoved := hs.walk (i := i) (p := .ending n) trivial
    exact { hmoved with dirs := hs.record hat }
  | readFailed i n given chunk at_end =>
    have hmoved := hs.walk (i := i) (p := .ending n) trivial
    exact { hmoved with }
  | filled i n given l chunk at_end dir real more =>
    have hat := hs.walker_at at_end
    have hmoved := hs.walk (i := i) (p := .reading n (given ++ chunk.map Prod.fst) chunk)
      ⟨hat.1, hnamed⟩
    exact { hmoved with }
  | eof i n given l at_end dir => exact hs.walk (p := .ending n) trivial
  | stopReading i n given buf l at_entry stopping => exact hs.walk (p := .ending n) trivial
  | skipDots i n given name t buf l at_entry dots => exact hs.pass at_entry
  | statFailed i n given name t buf l at_entry => exact { hs.pass at_entry with }
  | tooLong i n given name t buf l at_entry => exact { hs.pass at_entry with }
  | descend i n given name t buf l child path at_entry proper dir entry is_dir joined =>
    have hat := hs.walker_at at_entry
    have hchild : Node.Fit c ⟨path, child, n.depth + 1⟩ :=
      Fits.child hat.1 (hat.2 (name, t) List.mem_cons_self) joined
    have hmoved := hs.walk (i := i) (p := .pushing n ⟨path, child, n.depth + 1⟩ given buf)
      ⟨hat.1, hchild, hat.2.tail⟩
    exact { hmoved with }
  | keep i n given name t buf l st k w at_entry proper seen chosen counted =>
    exact { hs.pass at_entry with }
  | count i n given name t buf l st k w at_entry proper seen chosen counted dry =>
    exact { hs.pass at_entry with }
  | full i n given name t buf l st k w at_entry proper seen chosen counted delete =>
    have hat := hs.walker_at at_entry
    have hmoved := hs.walk (i := i) (p := .submitting n name given buf) ⟨hat.1, hat.2.tail⟩
    exact { hmoved with }
  | add i n given name t buf l st k w b e at_entry proper seen chosen counted delete kept =>
    exact { hs.pass at_entry with }
  | pushed i n child given buf at_push =>
    have hat := hs.walker_at at_push
    have hmoved := hs.walk (i := i) (p := .reading n given buf) ⟨hat.1, hat.2.2⟩
    exact { hmoved with
      queue := List.forall_mem_append.mpr ⟨hs.queue, by simpa using hat.2.1⟩ }
  | submitted i n name given buf chan b e at_push sent kept =>
    have hat := hs.walker_at at_push
    have hmoved := hs.walk (i := i) (p := .reading n given buf) hat
    exact { hmoved with }
  | dirEnd i n at_end empty =>
    have hmoved := hs.walk (i := i) (p := .leaving) trivial
    exact { hmoved with }
  | finish i done at_end last =>
    have hmoved := hs.walk (i := i) (p := .top) trivial
    exact { hmoved with }
  | _ => exact { hs with }

theorem allFit {as : List (Act c)} (hnamed : ∀ a ∈ as, Named a)
    (hr : exec step (State.start c) as = some s) : AllFit s :=
  exec_invariant_of (fun _ _ _ ha hs h => (step_move h).allFit ha hs) hnamed (AllFit.start c) hr

/-- `rmdir_same_parent` on the recorded directories. -/
def rmdirSameParent (ds : List DirRec) (a b : ℕ) : Bool :=
  match ds[a]?, ds[b]? with
  | some x, some y => sameParent x y
  | _, _ => false

def rmdirDepthOf (ds : List DirRec) (i : ℕ) : ℤ := ((ds[i]?).map DirRec.depth).getD 0

/-- The grouped pass of `remove_empty_directories`. -/
def rmdirGroups (threads : ℕ) (ds : List DirRec) : DirWalk.DepthGroups.Config where
  n := ds.length
  threads := threads
  depthOf := rmdirDepthOf ds
  contiguous := true
  sameRun := some (rmdirSameParent ds)
  betweenGroups := false

/-- The children of one parent are adjacent and of one depth. -/
def OneChain (ds : List DirRec) : Prop :=
  ∀ i j k, i ≤ j → j < k → k < ds.length → rmdirSameParent ds i k = true →
    rmdirSameParent ds j (j + 1) = true ∧ rmdirDepthOf ds j = rmdirDepthOf ds (j + 1)

theorem rmdirSameParent_iff {ds : List DirRec} {a b : ℕ} (ha : a < ds.length) (hb : b < ds.length) :
    rmdirSameParent ds a b = true ↔ parentOf ds[a].path = parentOf ds[b].path := by
  unfold rmdirSameParent sameParent
  rw [List.getElem?_eq_getElem ha, List.getElem?_eq_getElem hb]
  exact beq_iff_eq

theorem rmdirDepthOf_eq {ds : List DirRec} {i : ℕ} (hi : i < ds.length) :
    rmdirDepthOf ds i = ds[i].depth := by
  unfold rmdirDepthOf
  rw [List.getElem?_eq_getElem hi]
  rfl

section Sorted
variable {ds : List DirRec}

theorem rmdirGroups_sorted (threads : ℕ) (hsorted : ds.Pairwise fun a b => byDepth a b = true) :
    (rmdirGroups threads ds).Sorted := by
  intro i j hij hj
  have hj' : j < ds.length := hj
  show rmdirDepthOf ds j ≤ rmdirDepthOf ds i
  rw [rmdirDepthOf_eq hj', rmdirDepthOf_eq (hij.trans_lt hj')]
  rcases Nat.lt_or_eq_of_le hij with hlt | rfl
  · have hle := byDepth_depth (List.pairwise_iff_getElem.mp hsorted i j (by omega) hj' hlt)
    exact_mod_cast hle
  · exact le_rfl

theorem path_le {i j : ℕ} (hsorted : ds.Pairwise fun a b => byDepth a b = true) (hij : i ≤ j)
    (hj : j < ds.length) (hdepth : ds[i].depth = ds[j].depth) : ds[i].path ≤ ds[j].path := by
  rcases Nat.lt_or_eq_of_le hij with hlt | rfl
  · have hle := List.pairwise_iff_getElem.mp hsorted i j (by omega) hj hlt
    unfold byDepth at hle
    rw [if_neg (by simpa using hdepth)] at hle
    exact of_decide_eq_true hle
  · exact List.le_refl _

theorem oneChain (hsorted : ds.Pairwise fun a b => byDepth a b = true)
    (hfits : ∀ d ∈ ds, Fits c d.path d.depth) : OneChain ds := by
  intro i j k hij hjk hk hsame
  have hfit : ∀ m (hm : m < ds.length), Fits c ds[m].path ds[m].depth :=
    fun m hm => hfits _ (List.getElem_mem hm)
  have hi : i < ds.length := by omega
  rw [rmdirSameParent_iff hi hk] at hsame
  -- the parent's path tells the depth of its children
  have hdepthik : ds[i].depth = ds[k].depth := by
    obtain ⟨x, hx, hix⟩ := exists_name (hfit i hi).slash_mem
    obtain ⟨y, hy, hky⟩ := exists_name (hfit k hk).slash_mem
    have hcounti := (hfit i hi).2
    have hcountk := (hfit k hk).2
    rw [hix, count_slash hx, hsame] at hcounti
    rw [hky, count_slash hy] at hcountk
    omega
  have hbetween : ∀ m (hm : m < ds.length), i ≤ m → m ≤ k →
      ds[m].depth = ds[i].depth ∧ parentOf ds[m].path = parentOf ds[i].path := by
    intro m hm him hmk
    have hdown : ∀ p q (hp : p < ds.length) (hq : q < ds.length), p ≤ q →
        ds[q].depth ≤ ds[p].depth := by
      intro p q hp hq hpq
      have hle := rmdirGroups_sorted 0 hsorted p q hpq hq
      change rmdirDepthOf ds q ≤ rmdirDepthOf ds p at hle
      rw [rmdirDepthOf_eq hq, rmdirDepthOf_eq hp] at hle
      exact_mod_cast hle
    have hdepth : ds[m].depth = ds[i].depth := by
      have hle := hdown i m hi hm him
      have hge := hdown m k hm hk hmk
      omega
    refine ⟨hdepth, ?_⟩
    apply parent_of_between (hfit i hi).slash_mem (hfit k hk).slash_mem hsame
    · rw [(hfit m hm).2, (hfit i hi).2, hdepth]
    · exact path_le hsorted him hm hdepth.symm
    · exact path_le hsorted hmk hk (hdepth.trans hdepthik)
  obtain ⟨hdepth, hparent⟩ := hbetween j (by omega) hij hjk.le
  obtain ⟨hdepth', hparent'⟩ := hbetween (j + 1) (by omega) (by omega) hjk
  rw [rmdirSameParent_iff (by omega) (by omega), rmdirDepthOf_eq (by omega),
    rmdirDepthOf_eq (by omega), hdepth, hdepth', hparent, hparent']
  exact ⟨rfl, rfl⟩

end Sorted

/-- Deepest-first grouped execution is exact, and on what a walk has recorded the children of one
parent form one chain. -/
theorem depthGroups_exact {g : DirWalk.DepthGroups.Config} (hsorted : g.Sorted) {as : List (Act c)}
    {s : State c} (hnamed : ∀ a ∈ as, Named a) (hr : exec step (State.start c) as = some s) :
    Exact g ∧ Exact (rmdirGroups c.threads (s.dirs.mergeSort byDepth)) ∧
      OneChain (s.dirs.mergeSort byDepth) := by
  have hds : (s.dirs.mergeSort byDepth).Pairwise fun a b => byDepth a b = true :=
    List.pairwise_mergeSort byDepth_trans byDepth_total s.dirs
  refine ⟨DirWalk.DepthGroups.exact_of_sorted hsorted,
    DirWalk.DepthGroups.exact_of_sorted (rmdirGroups_sorted c.threads hds), oneChain (c := c) hds ?_⟩
  intro d hd
  exact (allFit hnamed hr).dirs d (List.mem_mergeSort.mp hd)

/-- Two groups for two threads, with the first two indices in one run. -/
def threeIndices : DirWalk.DepthGroups.Config where
  n := 3
  threads := 2
  depthOf := fun i => if i < 2 then 1 else 0
  contiguous := true
  sameRun := some fun a _ => decide (a = 0)
  betweenGroups := true

theorem depthGroups_exact_linked :
    Exact threeIndices ∧
      Exact (rmdirGroups 1 (linkedWalked.dirs.mergeSort byDepth)) ∧
      OneChain (linkedWalked.dirs.mergeSort byDepth) := by
  have hsorted : threeIndices.Sorted := by
    intro i j hij _
    show (if j < 2 then (1 : ℤ) else 0) ≤ if i < 2 then 1 else 0
    split_ifs
    all_goals omega
  have hnamed : ∀ a ∈ linkedWalk, Named a := by
    have htop : NoSlash [([102], .other), ([100], .directory)] := by
      unfold NoSlash
      decide
    have hsub : NoSlash [([103], .other)] := by
      unfold NoSlash
      decide
    have hend : NoSlash [] := nofun
    simp [linkedWalk, Named, htop, hsub, hend]
  exact depthGroups_exact hsorted hnamed linked_walked

end Ecopy.EDelete
