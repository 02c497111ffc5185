import Ecopy.FileTree
import Ecopy.PathText
import Ecopy.PathWalk
import Ecopy.Server.StatBulk

/-!
# The destination that is asked for

`to_canonical_requested_dir_path` looks for the longest part of the destination that exists. It
cuts component after component off the probe and puts them in front of the suffix, until `stat`
finds something. What it finds has to be a directory, and a symlink that leads nowhere counts as
found. The result is the real path of that directory with the suffix behind it.

A `stat` can fail for reasons that the state of the file system does not show, permissions
among them; `refuses` gives these failures. They are never `ENOENT`.
-/
namespace Ecopy.FileSystem.Fs
open Protocol (Bytes)
open Ecopy.Path Lib.Fields

section Parts
variable {fs : Fs} {cur l : Loc} {cs : List Bytes} {c : Bytes}

/-- The same walk with more behind it. -/
theorem walkWith_append_of_ok {b : ℕ} {jump : Loc → List Bytes → Except Errno Loc}
    {jump' : Bool → Loc → List Bytes → Except Errno Loc}
    (hwalk : ∀ follow, fs.walk follow b = fs.walkWith follow (jump' follow))
    (hjump : ∀ cur cs l, jump cur cs = .ok l → ∃ b', ∀ follow rest, rest ≠ [] →
      jump' follow cur (cs ++ rest) = fs.walk follow b' l rest)
    (h : fs.walkWith true jump cur cs = .ok l) :
    ∃ b', ∀ follow rest, rest ≠ [] →
      fs.walkWith follow (jump' follow) cur (cs ++ rest) = fs.walk follow b' l rest := by
  induction cs generalizing cur with
  | nil =>
    obtain rfl := Except.ok.inj h
    exact ⟨b, fun follow rest _ => by rw [hwalk]; rfl⟩
  | cons c cs ih =>
    rw [walkWith] at h
    by_cases hdir : fs.isDir cur = false
    · rw [if_pos hdir] at h
      cases h
    rw [if_neg hdir] at h
    by_cases hdot : c = dot
    · rw [if_pos hdot] at h
      obtain ⟨b', hb⟩ := ih h
      refine ⟨b', fun follow rest hrest => ?_⟩
      rw [List.cons_append, walkWith, if_neg hdir, if_pos hdot, hb follow rest hrest]
    rw [if_neg hdot] at h
    by_cases hparent : c = dotdot
    · rw [if_pos hparent] at h
      obtain ⟨b', hb⟩ := ih h
      refine ⟨b', fun follow rest hrest => ?_⟩
      rw [List.cons_append, walkWith, if_neg hdir, if_neg hdot, if_pos hparent, hb follow rest hrest]
    rw [if_neg hparent] at h
    cases hentry : fs.entry (cur ++ [c]) with
    | none =>
      rw [hentry] at h
      cases h
    | some i =>
      rw [hentry] at h
      dsimp only at h
      cases hkind : (fs.node i).kind with
      | symlink t =>
        rw [hkind] at h
        dsimp only at h
        rw [if_neg (by simp)] at h
        by_cases hempty : t = []
        · rw [if_pos hempty] at h
          cases h
        rw [if_neg hempty] at h
        obtain ⟨b', hb⟩ := hjump _ _ _ h
        refine ⟨b', fun follow rest hrest => ?_⟩
        rw [List.cons_append, walkWith, if_neg hdir, if_neg hdot, if_neg hparent, hentry]
        dsimp only
        rw [hkind]
        dsimp only
        rw [if_neg (by simp [hrest]), if_neg hempty, ← List.append_assoc, hb follow rest hrest]
      | directory | regular _ | special =>
        rw [hkind] at h
        obtain ⟨b', hb⟩ := ih h
        refine ⟨b', fun follow rest hrest => ?_⟩
        rw [List.cons_append, walkWith, if_neg hdir, if_neg hdot, if_neg hparent, hentry]
        dsimp only
        rw [hkind]
        exact hb follow rest hrest

/-- A walk that goes on does so from where the first part leads, with the symlinks that are left. -/
theorem walk_append_of_ok (b : ℕ) (h : fs.walk true b cur cs = .ok l) :
    ∃ b', ∀ follow rest, rest ≠ [] →
      fs.walk follow b cur (cs ++ rest) = fs.walk follow b' l rest := by
  induction b generalizing cur cs l with
  | zero =>
    have hjump : ∀ (cur : Loc) (cs : List Bytes) (l : Loc),
        (Except.error Errno.eloop : Except Errno Loc) = .ok l → ∃ b', ∀ (follow : Bool) rest, rest ≠ [] →
          (Except.error Errno.eloop : Except Errno Loc) = fs.walk follow b' l rest := nofun
    exact walkWith_append_of_ok (b := 0) (fun _ => rfl) hjump h
  | succ b ih =>
    exact walkWith_append_of_ok (b := b + 1) (fun _ => rfl) (fun _ _ _ hj => ih hj) h

/-- Where a walk leads, only names have been entered. -/
theorem walkWith_ordinary {follow : Bool} {jump : Loc → List Bytes → Except Errno Loc}
    (hjump : ∀ cur cs l, (∀ x ∈ cur, Ordinary x) → (∀ x ∈ cs, Proper slash x) →
      jump cur cs = .ok l → ∀ x ∈ l, Ordinary x)
    (hcur : ∀ x ∈ cur, Ordinary x) (hcs : ∀ x ∈ cs, Proper slash x)
    (h : fs.walkWith follow jump cur cs = .ok l) : ∀ x ∈ l, Ordinary x := by
  induction cs generalizing cur with
  | nil =>
    obtain rfl := Except.ok.inj h
    exact hcur
  | cons c cs ih =>
    have hrest : ∀ x ∈ cs, Proper slash x := fun x hx => hcs x (List.mem_cons_of_mem c hx)
    rw [walkWith] at h
    by_cases hdir : fs.isDir cur = false
    · rw [if_pos hdir] at h
      cases h
    rw [if_neg hdir] at h
    by_cases hdot : c = dot
    · rw [if_pos hdot] at h
      exact ih hcur hrest h
    rw [if_neg hdot] at h
    by_cases hparent : c = dotdot
    · rw [if_pos hparent] at h
      exact ih (fun x hx => hcur x (List.dropLast_subset cur hx)) hrest h
    rw [if_neg hparent] at h
    have hnext := ordinary_concat hcur ⟨hcs c List.mem_cons_self, hdot, hparent⟩
    cases hentry : fs.entry (cur ++ [c]) with
    | none =>
      rw [hentry] at h
      cases h
    | some i =>
      rw [hentry] at h
      dsimp only at h
      cases hkind : (fs.node i).kind with
      | symlink t =>
        rw [hkind] at h
        dsimp only at h
        by_cases hlast : cs = [] ∧ follow = false
        · rw [if_pos hlast] at h
          obtain rfl := Except.ok.inj h
          exact hnext
        rw [if_neg hlast] at h
        by_cases hempty : t = []
        · rw [if_pos hempty] at h
          cases h
        rw [if_neg hempty] at h
        refine hjump _ _ _ ?_ ?_ h
        · split_ifs
          · exact fun x hx => absurd hx List.not_mem_nil
          · exact hcur
        · intro x hx
          rcases List.mem_append.mp hx with hx | hx
          · exact fields_proper hx
          · exact hrest x hx
      | directory | regular _ | special =>
        rw [hkind] at h
        exact ih hnext hrest h

theorem walk_ordinary {follow : Bool} (b : ℕ) (hcur : ∀ x ∈ cur, Ordinary x)
    (hcs : ∀ x ∈ cs, Proper slash x) (h : fs.walk follow b cur cs = .ok l) :
    ∀ x ∈ l, Ordinary x := by
  induction b generalizing cur cs l with
  | zero =>
    refine walkWith_ordinary (fun _ _ l _ _ hj => ?_) hcur hcs h
    cases (show (Except.error Errno.eloop : Except Errno Loc) = .ok l from hj)
  | succ b ih => exact walkWith_ordinary (fun _ _ _ hc hs hj => ih hc hs hj) hcur hcs h

end Parts

end Ecopy.FileSystem.Fs

namespace Ecopy.Traversal
open Protocol (Bytes)
open Ecopy.Path FileSystem Lib.Fields Lib.CStrings
open Server (pathJoinFast)

/-- The calls that look a path up. -/
inductive Call where
  | stat
  | lstat
  | realpath
deriving DecidableEq, Repr

/-- A state of the file system, as a process sees it. -/
structure View where
  fs : Fs
  refuses : Call → Bytes → Option Errno
  tree : fs.Tree
  absent : ∀ call path, refuses call path ≠ some .enoent

namespace View

/-- Nothing is refused. -/
def free (fs : Fs) (tree : fs.Tree) : View where
  fs := fs
  refuses := fun _ _ => none
  tree := tree
  absent := by simp

/-- The location that a path leads to, through symlinks. -/
def follow (v : View) (path : Bytes) : Except Errno Loc :=
  match v.fs.walk true 40 [] (fields slash path) with
  | .error e => .error e
  | .ok l =>
    if path.getLast? == some slash && !v.fs.isDir l then .error .enotdir
    else if (v.fs.entry l).isSome then .ok l
    else .error .enoent

/-- Whether there is a directory, or something else. -/
def stat (v : View) (path : Bytes) : Except Errno Bool :=
  match v.refuses .stat path with
  | some e => .error e
  | none => (v.follow path).map v.fs.isDir

def lstat (v : View) (path : Bytes) : Except Errno Node :=
  match v.refuses .lstat path with
  | some e => .error e
  | none => (v.fs.lstatPath path).map Prod.snd

def realpath (v : View) (path : Bytes) : Except Errno Bytes :=
  match v.refuses .realpath path with
  | some e => .error e
  | none =>
    match v.follow path with
    | .error e => .error e
    | .ok l => if (render l).length ≥ pathMax then .error .enametoolong else .ok (render l)

end View

/-- What is printed. -/
inductive Refusal where
  | tooLong (input : Bytes)
  | notDirectory (probe : Bytes)
  | errno (e : Errno) (label : Bytes)
deriving DecidableEq, Repr

def pathRstripSlashes (s : Bytes) : Bytes :=
  if s.length > 1 ∧ s.getLast? = some slash then pathRstripSlashes s.dropLast else s
termination_by s.length
decreasing_by
  rw [List.length_dropLast]
  omega

/-- `cwd` is what `getcwd` returns. -/
def toAbsPath (cwd : Option Bytes) (input : Bytes) (outSz : ℕ) : Option Bytes :=
  if input.head? = some slash then
    if input.length ≥ outSz then none else some (pathRstripSlashes input)
  else
    match cwd with
    | none => none
    | some cwd => (pathJoinFast cwd input outSz).map pathRstripSlashes

def pathResolveExisting (v : View) (path : Bytes) : Except Errno Bytes :=
  if path = [] then .error .einval else v.realpath path

def toCanonicalDirPath (v : View) (cwd : Option Bytes) (input : Bytes) (outSz : ℕ) : Option Bytes :=
  match toAbsPath cwd input pathMax with
  | none => none
  | some tmp => if outSz < pathMax then none else (pathResolveExisting v tmp).toOption

def prependSuffixComponent (suffix : Bytes) (suffixSz : ℕ) (component : Bytes) : Option Bytes :=
  if suffix = [] then if component.length ≥ suffixSz then none else some component
  else
    match pathJoinFast component suffix pathMax with
    | none => none
    | some tmp => if tmp.length ≥ suffixSz then none else some tmp

def joinParentSuffix (parent suffix : Bytes) (outSz : ℕ) : Option Bytes :=
  if suffix = [] then if parent.length ≥ outSz then none else some parent
  else pathJoinFast parent suffix outSz

/-- The loop of `to_canonical_requested_dir_path`. -/
def requestedLoop (v : View) (input : Bytes) (outSz : ℕ) (probe suffix : Bytes) :
    Except Refusal Bytes :=
  match v.stat probe with
  | .ok isDir =>
    if isDir = false then .error (.notDirectory probe)
    else
      match pathResolveExisting v probe with
      | .error e => .error (.errno e probe)
      | .ok parentReal =>
        match joinParentSuffix parentReal suffix outSz with
        | none => .error (.tooLong input)
        | some out => .ok out
  | .error e =>
    if e ≠ .enoent then .error (.errno e probe)
    else
      match v.lstat probe with
      | .ok _ => .error (.notDirectory probe)
      | .error e =>
        if e ≠ .enoent then .error (.errno e probe)
        else if probe = [slash] then .error (.errno e probe)
        else
          match strrchr slash probe with
          | none => .error (.tooLong input)
          | some k =>
            if probe.drop (k + 1) = [] then .error (.tooLong input)
            else
              match prependSuffixComponent suffix pathMax (probe.drop (k + 1)) with
              | none => .error (.tooLong input)
              | some suffix =>
                requestedLoop v input outSz (if k = 0 then probe.take 1 else probe.take k)
                  suffix
termination_by probe.length
decreasing_by
  have hlen : k + 1 < probe.length := by
    rw [← Nat.not_le, ← List.drop_eq_nil_iff]
    assumption
  split_ifs
  · rw [List.length_take]
    omega
  · rw [List.length_take]
    omega

def toCanonicalRequestedDirPath (v : View) (cwd : Option Bytes) (input : Bytes) (outSz : ℕ) :
    Except Refusal Bytes :=
  match toAbsPath cwd input pathMax with
  | none => .error (.tooLong input)
  | some absPath =>
    match normalizeAbsPathLexically absPath pathMax with
    | .error _ => .error (.tooLong input)
    | .ok normalized =>
      if normalized.length ≥ pathMax then .error (.tooLong input)
      else requestedLoop v input outSz normalized []

section Spec
variable {v : View} {cs p q s : List Bytes} {c : Bytes} {l : Loc}

/-- Components without a slash in front. -/
def relative (s : List Bytes) : Bytes := (join slash s).drop 1

theorem slash_relative (h : s ≠ []) : slash :: relative s = join slash s := by
  obtain ⟨c, s, rfl⟩ := List.exists_cons_of_ne_nil h
  rfl

theorem relative_eq_nil_iff (h : ∀ c ∈ s, Ordinary c) : relative s = [] ↔ s = [] := by
  constructor
  · intro hnil
    by_contra hne
    obtain ⟨c, s, rfl⟩ := List.exists_cons_of_ne_nil hne
    have hc := (h c List.mem_cons_self).1.1
    simp [relative] at hnil
    exact hc hnil.1
  · rintro rfl
    rfl

theorem prependSuffixComponent_eq (hs : ∀ x ∈ s, Ordinary x) (hc : Ordinary c) {out : Bytes}
    (h : prependSuffixComponent (relative s) pathMax c = some out) : out = relative (c :: s) := by
  unfold prependSuffixComponent at h
  by_cases hnil : s = []
  · subst hnil
    have hempty : relative [] = [] := rfl
    rw [if_pos hempty] at h
    split_ifs at h
    rw [← Option.some.inj h]
    simp [relative]
  · have hslash : c ≠ [slash] := fun heq => hc.1.2 (heq ▸ List.mem_singleton_self slash)
    rw [if_neg (mt (relative_eq_nil_iff hs).mp hnil)] at h
    unfold pathJoinFast at h
    rw [if_neg hslash] at h
    dsimp only at h
    by_cases hlong : c.length + 1 + (relative s).length + 1 > pathMax
    · rw [if_pos hlong] at h
      cases h
    · rw [if_neg hlong] at h
      dsimp only at h
      split_ifs at h
      rw [← Option.some.inj h, slash_relative hnil]
      simp [relative]

/-- The real path with the suffix behind it. -/
theorem joinParentSuffix_eq (hl : ∀ x ∈ l, Ordinary x) (hs : ∀ x ∈ s, Ordinary x) {outSz : ℕ}
    {out : Bytes} (h : joinParentSuffix (render l) (relative s) outSz = some out) :
    out = render (l ++ s) := by
  unfold joinParentSuffix at h
  by_cases hnil : s = []
  · subst hnil
    have hempty : relative [] = [] := rfl
    rw [if_pos hempty] at h
    split_ifs at h
    rw [← Option.some.inj h, List.append_nil]
  · have hne : l ++ s ≠ [] := by simp [hnil]
    rw [if_neg (mt (relative_eq_nil_iff hs).mp hnil), Server.pathJoinFast_render hl] at h
    split_ifs at h
    rw [← Option.some.inj h, Server.joined, slash_relative hnil, render_eq_join hne, join_append]
    split_ifs with hlnil
    · rw [hlnil]
      rfl
    · rw [render_eq_join hlnil]

theorem fields_pathRstripSlashes (s : Bytes) :
    fields slash (pathRstripSlashes s) = fields slash s := by
  fun_induction pathRstripSlashes s with
  | case1 s h ih =>
    obtain ⟨init, last, rfl⟩ := s.eq_nil_or_concat'.resolve_left (by rintro rfl; simp at h)
    obtain rfl : last = slash := by simpa using h.2
    rw [ih, List.dropLast_concat, fields_append_sep, fields_nil, List.append_nil]
  | case2 => rfl

/-- What the call has found: the first part leads to a directory, every longer part is absent,
also as a symlink, and below the directory there is nothing of the rest. -/
structure Found (v : View) (cs p s : List Bytes) (l : Loc) : Prop where
  split : cs = p ++ s
  leads : v.follow (render p) = .ok l
  dir : v.stat (render p) = .ok true
  real : v.realpath (render p) = .ok (render l)
  absent : ∀ q, p <+: q → q <+: cs → q ≠ p →
    v.stat (render q) = .error .enoent ∧ v.lstat (render q) = .error .enoent
  empty : ∀ t, t <+: s → t ≠ [] → v.fs.entry (l ++ t) = none

variable {out path : Bytes}

theorem View.follow_eq_ok (h : v.follow path = .ok l) :
    v.fs.walk true 40 [] (fields slash path) = .ok l := by
  unfold View.follow at h
  split at h
  · cases h
  · rename_i l' hwalk
    split_ifs at h
    obtain rfl := Except.ok.inj h
    exact hwalk

theorem View.follow_ordinary (h : v.follow path = .ok l) : ∀ x ∈ l, Ordinary x :=
  Fs.walk_ordinary 40 (by simp) (fun _ hx => fields_proper hx) (View.follow_eq_ok h)

theorem View.stat_eq_ok (h : v.stat (render p) = .ok true) :
    ∃ l, v.follow (render p) = .ok l ∧ v.fs.isDir l = true := by
  unfold View.stat at h
  split at h
  · cases h
  · cases hfollow : v.follow (render p) with
    | error e =>
      rw [hfollow] at h
      cases h
    | ok l =>
      rw [hfollow] at h
      exact ⟨l, rfl, Except.ok.inj h⟩

/-- Where `lstat` finds nothing there is nothing in the directory before it. -/
theorem entry_none_of_lstat (hp : ∀ x ∈ p, Ordinary x) (hc : Ordinary c)
    (hwalk : v.fs.walk true 40 [] p = .ok l) (hdir : v.fs.isDir l = true)
    (h : v.lstat (render (p ++ [c])) = .error .enoent) : v.fs.entry (l ++ [c]) = none := by
  by_contra hne
  obtain ⟨i, hi⟩ := Option.ne_none_iff_exists'.mp hne
  obtain ⟨b', hb⟩ := Fs.walk_append_of_ok 40 hwalk
  have hlast : v.fs.walk false 40 [] (p ++ [c]) = .ok (l ++ [c]) := by
    rw [hb false [c] (by simp)]
    exact Fs.walk_last b' hdir hc.2.1 hc.2.2 (by rw [hi]; rfl)
  have hslash : ((render (p ++ [c])).getLast? == some slash) = false :=
    beq_eq_false_iff_ne.mpr (getLast_render_concat hc)
  unfold View.lstat at h
  cases hrefuse : v.refuses .lstat (render (p ++ [c])) with
  | some e =>
    rw [hrefuse] at h
    have henoent : e = .enoent := Except.error.inj h
    exact v.absent .lstat _ (henoent ▸ hrefuse)
  | none =>
    rw [hrefuse] at h
    unfold Fs.lstatPath at h
    dsimp only at h
    rw [hslash, fields_render (ordinary_concat hp hc), hlast] at h
    dsimp only at h
    rw [hi] at h
    cases h

/-- In a tree nothing lies below what is not there. -/
theorem entry_none_below (h : v.fs.entry (l ++ [c]) = none) {t : List Bytes}
    (ht : t <+: c :: s) (hne : t ≠ []) : v.fs.entry (l ++ t) = none := by
  obtain ⟨x, t, rfl⟩ := List.exists_cons_of_ne_nil hne
  obtain ⟨rfl, -⟩ := List.cons_prefix_cons.mp ht
  rcases t.eq_nil_or_concat' with rfl | ⟨init, last, rfl⟩
  · exact h
  · by_contra hsome
    have hdrop : (l ++ x :: (init ++ [last])).dropLast = l ++ [x] ++ init := by
      rw [← List.cons_append, ← List.append_assoc, List.dropLast_concat]
      simp
    have hdir := v.tree.parents _ (Option.isSome_iff_ne_none.mpr hsome) (l ++ [x]) (by
      rw [hdrop]
      exact List.prefix_append _ _)
    obtain ⟨i, hi, -⟩ := Fs.isDir_iff_entry.mp hdir
    rw [h] at hi
    cases hi

theorem View.realpath_eq_ok (h : v.realpath path = .ok out) :
    ∃ l, v.follow path = .ok l ∧ out = render l := by
  unfold View.realpath at h
  split at h
  · cases h
  · split at h
    · cases h
    · rename_i l hl
      split_ifs at h
      exact ⟨l, hl, (Except.ok.inj h).symm⟩

theorem pathResolveExisting_eq_ok (h : pathResolveExisting v path = .ok out) :
    v.realpath path = .ok out := by
  unfold pathResolveExisting at h
  split_ifs at h
  exact h

/-- The loop ends where the probe is a directory. -/
theorem found_of_stat (hq : ∀ x ∈ q, Ordinary x) (hs : ∀ x ∈ s, Ordinary x)
    (habsent : ∀ r, q <+: r → r <+: q ++ s → r ≠ q →
      v.stat (render r) = .error .enoent ∧ v.lstat (render r) = .error .enoent)
    (hstat : v.stat (render q) = .ok true) {real : Bytes}
    (hreal : v.realpath (render q) = .ok real) :
    ∃ l, Found v (q ++ s) q s l ∧ (∀ x ∈ l, Ordinary x) ∧ real = render l := by
  obtain ⟨l, hfollow, rfl⟩ := View.realpath_eq_ok hreal
  obtain ⟨l', hfollow', hdir⟩ := View.stat_eq_ok hstat
  obtain rfl : l' = l := Except.ok.inj (hfollow'.symm.trans hfollow)
  have hwalk := View.follow_eq_ok hfollow
  rw [fields_render hq] at hwalk
  refine ⟨l', ⟨rfl, hfollow, hstat, hreal, habsent, ?_⟩, View.follow_ordinary hfollow, rfl⟩
  intro t ht hne
  cases s with
  | nil => exact absurd (List.prefix_nil.mp ht) hne
  | cons c s =>
    obtain ⟨-, hlstat⟩ := habsent (q ++ [c]) (List.prefix_append q [c])
      ((List.prefix_append_right_inj q).mpr (List.prefix_append [c] s)) (by simp)
    exact entry_none_below
      (entry_none_of_lstat hq (hs c List.mem_cons_self) hwalk hdir hlstat) ht hne

/-- One round: the probe is a directory, or it is not there and loses its last component. -/
theorem requestedLoop_cases {input probe suffix : Bytes} {outSz : ℕ}
    (h : requestedLoop v input outSz probe suffix = .ok out) :
    (v.stat probe = .ok true ∧ ∃ real, v.realpath probe = .ok real ∧
      joinParentSuffix real suffix outSz = some out) ∨
    (v.stat probe = .error .enoent ∧ v.lstat probe = .error .enoent ∧ probe ≠ [slash] ∧
      ∃ k suffix', strrchr slash probe = some k ∧
        prependSuffixComponent suffix pathMax (probe.drop (k + 1)) = some suffix' ∧
        requestedLoop v input outSz (if k = 0 then probe.take 1 else probe.take k) suffix' =
          .ok out) := by
  rw [requestedLoop] at h
  split at h
  · rename_i isDir hstat
    split_ifs at h with hdir
    rw [Bool.not_eq_false] at hdir
    subst hdir
    split at h
    · cases h
    · rename_i real hreal
      split at h
      · cases h
      · rename_i joined hjoined
        obtain rfl := Except.ok.inj h
        exact .inl ⟨hstat, real, pathResolveExisting_eq_ok hreal, hjoined⟩
  · rename_i e hstat
    by_cases he : e = .enoent
    · subst he
      rw [if_neg (not_not.mpr rfl)] at h
      split at h
      · cases h
      · rename_i e hlstat
        by_cases he : e = .enoent
        · subst he
          rw [if_neg (not_not.mpr rfl)] at h
          split_ifs at h with hroot
          split at h
          · cases h
          · rename_i k hk
            split at h
            · cases h
            split at h
            · cases h
            · rename_i suffix' hsuffix
              exact .inr ⟨hstat, hlstat, hroot, k, suffix', hk, hsuffix, h⟩
        · rw [if_pos he] at h
          cases h
    · rw [if_pos he] at h
      cases h

theorem drop_render_concat (cs : List Bytes) (c : Bytes) :
    (render (cs ++ [c])).drop ((if cs = [] then [] else render cs).length + 1) = c := by
  rw [render_concat, List.drop_append]
  simp

/-- The probe and the suffix hold all components between them, and whatever is longer than the
probe is absent. -/
theorem requestedLoop_found (hq : ∀ x ∈ q, Ordinary x) (hs : ∀ x ∈ s, Ordinary x)
    (habsent : ∀ r, q <+: r → r <+: q ++ s → r ≠ q →
      v.stat (render r) = .error .enoent ∧ v.lstat (render r) = .error .enoent)
    {input out : Bytes} {outSz : ℕ}
    (h : requestedLoop v input outSz (render q) (relative s) = .ok out) :
    ∃ p s' l, Found v (q ++ s) p s' l ∧ out = render (l ++ s') := by
  induction q using List.reverseRecOn generalizing s with
  | nil =>
    rcases requestedLoop_cases h with ⟨hstat, real, hreal, hjoined⟩ | ⟨-, -, hroot, -⟩
    · obtain ⟨l, hfound, hl, rfl⟩ := found_of_stat hq hs habsent hstat hreal
      exact ⟨_, _, l, hfound, joinParentSuffix_eq hl hs hjoined⟩
    · exact absurd render_nil hroot
  | append_singleton q c ih =>
    rcases requestedLoop_cases h with
      ⟨hstat, real, hreal, hjoined⟩ | ⟨hstat, hlstat, -, k, suffix, hk, hsuffix, hloop⟩
    · obtain ⟨l, hfound, hl, rfl⟩ := found_of_stat hq hs habsent hstat hreal
      exact ⟨_, _, l, hfound, joinParentSuffix_eq hl hs hjoined⟩
    · have hc : Ordinary c := hq c (by simp)
      have hq' : ∀ x ∈ q, Ordinary x := fun x hx => hq x (List.mem_append_left _ hx)
      have hs' : ∀ x ∈ c :: s, Ordinary x := by
        intro x hx
        rcases List.mem_cons.mp hx with rfl | hx
        · exact hc
        · exact hs x hx
      rw [strrchr_render_concat hc] at hk
      obtain rfl := Option.some.inj hk
      rw [drop_render_concat] at hsuffix
      rw [take_render_concat, prependSuffixComponent_eq hs hc hsuffix] at hloop
      rw [List.append_assoc, List.singleton_append]
      refine ih hq' hs' (fun r hr hrs hne => ?_) hloop
      by_cases hrq : r = q ++ [c]
      · exact hrq ▸ ⟨hstat, hlstat⟩
      · refine habsent r ?_ (by rwa [List.append_assoc, List.singleton_append]) hrq
        obtain ⟨t, rfl⟩ := hr
        obtain ⟨x, t, rfl⟩ := List.exists_cons_of_ne_nil (show t ≠ [] from fun ht => hne (by simp [ht]))
        have hx := ((List.prefix_append_right_inj q).mp hrs)
        obtain ⟨rfl, -⟩ := List.cons_prefix_cons.mp hx
        exact (List.prefix_append_right_inj q).mpr (List.prefix_append [x] t)

/-- What `realpath` returns consists of names. -/
theorem toCanonicalDirPath_eq_some {cwd : Option Bytes} {input : Bytes} {outSz : ℕ}
    (h : toCanonicalDirPath v cwd input outSz = some out) :
    ∃ l, out = render l ∧ ∀ x ∈ l, Ordinary x := by
  unfold toCanonicalDirPath at h
  split at h
  · cases h
  · rename_i tmp htmp
    split_ifs at h
    cases hresolve : pathResolveExisting v tmp with
    | error e =>
      rw [hresolve] at h
      cases h
    | ok real =>
      rw [hresolve] at h
      obtain rfl := Option.some.inj h
      obtain ⟨l, hfollow, rfl⟩ := View.realpath_eq_ok (pathResolveExisting_eq_ok hresolve)
      exact ⟨l, rfl, View.follow_ordinary hfollow⟩

theorem Found.ordinary (h : Found v cs p s l) (hcs : ∀ x ∈ cs, Ordinary x) :
    ∀ x ∈ l ++ s, Ordinary x := by
  intro x hx
  rcases List.mem_append.mp hx with hx | hx
  · exact View.follow_ordinary h.leads x hx
  · exact hcs x (h.split ▸ List.mem_append_right p hx)

/-- There is one longest part. -/
theorem Found.unique {p' s' : List Bytes} {l' : Loc} (h : Found v cs p s l)
    (h' : Found v cs p' s' l') : p = p' ∧ s = s' ∧ l = l' := by
  have hdir : ∀ {p p' s s' : List Bytes} {l l' : Loc}, Found v cs p s l → Found v cs p' s' l' →
      p <+: p' → p = p' := by
    intro p p' s s' l l' h h' hle
    by_contra hne
    have hstat := (h.absent p' hle (h'.split ▸ List.prefix_append p' s') (Ne.symm hne)).1
    rw [h'.dir] at hstat
    cases hstat
  have hp : p = p' := by
    rcases List.prefix_or_prefix_of_prefix (h.split ▸ List.prefix_append p s)
      (h'.split ▸ List.prefix_append p' s') with hle | hle
    · exact hdir h h' hle
    · exact (hdir h' h hle).symm
  subst hp
  refine ⟨rfl, List.append_cancel_left (h.split.symm.trans h'.split), ?_⟩
  exact Except.ok.inj (h.leads.symm.trans h'.leads)

/-- A path that is accepted is split where the longest directory on it ends. -/
theorem toCanonicalRequestedDirPath_found {cwd : Option Bytes} {input : Bytes} {outSz : ℕ}
    (h : toCanonicalRequestedDirPath v cwd input outSz = .ok out) :
    ∃ abs p s l, toAbsPath cwd input pathMax = some abs ∧ Found v (resolve abs) p s l ∧
      out = render (l ++ s) := by
  unfold toCanonicalRequestedDirPath at h
  split at h
  · cases h
  · rename_i abs habs
    rw [normalizeAbsPathLexically_eq] at h
    split at h
    · cases h
    · rename_i normalized hnormalized
      obtain ⟨-, -, -, rfl⟩ := normalizeAbs_ok hnormalized
      split_ifs at h
      have habsent : ∀ r, resolve abs <+: r → r <+: resolve abs ++ [] → r ≠ resolve abs →
          v.stat (render r) = .error .enoent ∧ v.lstat (render r) = .error .enoent := by
        intro r hr hrs hne
        rw [List.append_nil] at hrs
        exact absurd (hrs.eq_of_length (le_antisymm hrs.length_le hr.length_le)) hne
      obtain ⟨p, s, l, hfound, rfl⟩ :=
        requestedLoop_found (s := []) (fun x hx => ordinary_of_mem_resolve hx) (by simp) habsent h
      rw [List.append_nil] at hfound
      exact ⟨abs, p, s, l, habs, hfound, rfl⟩

end Spec

end Ecopy.Traversal
