import Ecopy.Server.Kernel
import Ecopy.Traversal.DstPath
import Ecopy.Traversal.RequestedPath

/-!
# The destination root of a local copy

Before a directory is copied to a local destination, `main` resolves both roots, refuses roots of
which one contains the other, and makes the directories of the destination root that are missing.
`mkdir_p_dir` goes down from `/` by descriptors and does not follow symlinks. It creates nothing
but the directories on its path, so what it makes lies outside the source tree.

Nobody else changes the file system meanwhile.
-/
namespace Ecopy.Traversal
open Protocol (Bytes)
open Ecopy.Path FileSystem Lib.Fields
open Server (Identity Fault newNode)

inductive DirCall where
  | fstatat
  | mkdirat
  | openat
  | close
deriving DecidableEq, Repr

/-- Who makes directories, and which calls fail for reasons that the state does not show. -/
structure Maker where
  who : Identity
  umask : UInt32
  fault : DirCall → Loc → Option Fault

/-- One component: the directory is there or is made, and it is opened. -/
def mkdirChild (m : Maker) (mode : UInt32) (fs : Fs) (cur : Loc) (c : Bytes) :
    Fs × Except Errno (Loc × Bool) :=
  let child := Fs.lexStep cur c
  let opened (fs : Fs) (made : Bool) : Fs × Except Errno (Loc × Bool) :=
    match m.fault .openat child with
    | some f => (fs, .error f.errno)
    | none => (fs, .ok (child, made))
  match m.fault .fstatat child with
  | some f => (fs, .error f.errno)
  | none =>
    match fs.entry child with
    | some i => if (fs.node i).isDir = false then (fs, .error .enotdir) else opened fs false
    | none =>
      match m.fault .mkdirat child with
      | some f => (fs, .error f.errno)
      | none => opened (fs.create child (newNode m.who .directory (mode &&& ~~~m.umask))) true

/-- The loop of `mkdir_p_dir`, with where it ends and whether the last component was made. -/
def mkdirPDirLoop (m : Maker) (mode : UInt32) : Fs → Loc → List Bytes → Bool →
    Fs × Except Errno (Loc × Bool)
  | fs, cur, [], made => (fs, .ok (cur, made))
  | fs, cur, c :: cs, _ =>
    match mkdirChild m mode fs cur c with
    | (fs, .error e) => (fs, .error e)
    | (fs, .ok (child, made)) => mkdirPDirLoop m mode fs child cs made

/-- Whether the last component was made does not show when a slash ends the path. -/
def mkdirPDir (m : Maker) (fs : Fs) (path : Bytes) (mode : UInt32) : Fs × Except Errno Bool :=
  if path.length ≥ pathMax then (fs, .error .enametoolong)
  else if path.head? ≠ some slash then (fs, .error .einval)
  else
    match m.fault .openat [] with
    | some f => (fs, .error f.errno)
    | none =>
      match mkdirPDirLoop m mode fs [] (fields slash path) false with
      | (fs, .error e) => (fs, .error e)
      | (fs, .ok (cur, made)) =>
        match m.fault .close cur with
        | some f => (fs, .error f.errno)
        | none => (fs, .ok (made && path.getLast? != some slash))

def ensureDestinationRoot (m : Maker) (fs : Fs) (cwd : Option Bytes) (dst : Bytes) :
    Fs × Except Errno Bool :=
  match Traversal.toAbsPath cwd dst pathMax with
  | none => (fs, .error .enametoolong)
  | some dstPath => mkdirPDir m fs dstPath 0x1FF

/-- A destination that is only verified has to be there. -/
def canonicalDst (v : View) (cwd : Option Bytes) (verifyOnly : Bool) (dst : Bytes) : Option Bytes :=
  if verifyOnly then toCanonicalDirPath v cwd dst pathMax
  else (toCanonicalRequestedDirPath v cwd dst pathMax).toOption

/-- What `main` does with the arguments of a local copy of a directory: the roots, and whether the
destination root is new. Nothing is returned when it exits. -/
def localRoots (m : Maker) (v : View) (cwd : Option Bytes) (verifyOnly : Bool) (src dst : Bytes) :
    Fs × Option (Roots × Bool) :=
  match toCanonicalDirPath v cwd src pathMax with
  | none => (v.fs, none)
  | some srcAbs =>
    match canonicalDst v cwd verifyOnly dst with
    | none => (v.fs, none)
    | some dstAbs =>
      if isSameOrChildPath srcAbs dstAbs || isSameOrChildPath dstAbs srcAbs then (v.fs, none)
      else if verifyOnly then (v.fs, some (⟨srcAbs, dstAbs⟩, false))
      else
        match ensureDestinationRoot m v.fs cwd dstAbs with
        | (fs, .error _) => (fs, none)
        | (fs, .ok fresh) => (fs, some (⟨srcAbs, dstAbs⟩, fresh))

section Made
variable {m : Maker} {mode : UInt32} {fs : Fs} {cur k : Loc} {c : Bytes} {cs b d : List Bytes}

/-- Something is made under the name only, and the name was free. -/
theorem mkdirChild_fst (m : Maker) (mode : UInt32) (fs : Fs) (cur : Loc) (c : Bytes) :
    (mkdirChild m mode fs cur c).1 = fs ∨
      fs.entry (Fs.lexStep cur c) = none ∧ (mkdirChild m mode fs cur c).1 =
        fs.create (Fs.lexStep cur c) (newNode m.who .directory (mode &&& ~~~m.umask)) := by
  unfold mkdirChild
  dsimp only
  split
  · exact .inl rfl
  · split
    · split
      · exact .inl rfl
      · split
        · exact .inl rfl
        · exact .inl rfl
    · rename_i hnone
      split
      · exact .inl rfl
      · refine .inr ⟨hnone, ?_⟩
        split
        · rfl
        · rfl

theorem mkdirChild_ok {fs' : Fs} {child : Loc} {made : Bool}
    (h : mkdirChild m mode fs cur c = (fs', .ok (child, made))) : child = Fs.lexStep cur c := by
  unfold mkdirChild at h
  dsimp only at h
  split at h
  · cases h
  · split at h
    · split at h
      · cases h
      · split at h
        · cases h
        · cases h
          rfl
    · split at h
      · cases h
      · split at h
        · cases h
        · cases h
          rfl

theorem mkdirChild_entry (hk : k ≠ Fs.lexStep cur c) :
    (mkdirChild m mode fs cur c).1.entry k = fs.entry k := by
  rcases mkdirChild_fst m mode fs cur c with heq | ⟨-, heq⟩
  · rw [heq]
  · rw [heq]
    exact Function.update_of_ne hk _ _

/-- Names that are not on the path stay as they are. -/
theorem mkdirPDirLoop_entry (hcs : ∀ x ∈ cs, Ordinary x) (made : Bool) (hk : ¬ k <+: cur ++ cs) :
    (mkdirPDirLoop m mode fs cur cs made).1.entry k = fs.entry k := by
  induction cs generalizing fs cur made with
  | nil => rfl
  | cons c cs ih =>
    have hc : Fs.lexStep cur c = cur ++ [c] := by
      have hord := hcs c List.mem_cons_self
      unfold Fs.lexStep
      rw [if_neg hord.2.1, if_neg hord.2.2]
    have hpath : cur ++ c :: cs = cur ++ [c] ++ cs := by simp
    rw [hpath] at hk
    have hchild : (mkdirChild m mode fs cur c).1.entry k = fs.entry k := by
      refine mkdirChild_entry fun heq => hk ?_
      rw [heq, hc]
      exact List.prefix_append _ _
    rw [mkdirPDirLoop]
    split
    · rename_i fs' e hstep
      rw [hstep] at hchild
      exact hchild
    · rename_i fs' child made hstep
      rw [hstep] at hchild
      have hmoved := mkdirChild_ok hstep
      rw [hc] at hmoved
      rw [hmoved, ih (fun x hx => hcs x (List.mem_cons_of_mem c hx)) made hk]
      exact hchild

theorem mkdirPDir_entry {path : Bytes} (hpath : ∀ x ∈ fields slash path, Ordinary x)
    (hk : ¬ k <+: fields slash path) : (mkdirPDir m fs path mode).1.entry k = fs.entry k := by
  have hloop : (mkdirPDirLoop m mode fs [] (fields slash path) false).1.entry k = fs.entry k :=
    mkdirPDirLoop_entry hpath false hk
  unfold mkdirPDir
  split_ifs
  · rfl
  · rfl
  · split
    · rfl
    · split
      · rename_i fs' e heq
        rw [heq] at hloop
        exact hloop
      · rename_i fs' cur made heq
        rw [heq] at hloop
        split
        · exact hloop
        · exact hloop

theorem fields_toAbsPath (hd : ∀ x ∈ d, Ordinary x) {cwd : Option Bytes} {outSz : ℕ} {out : Bytes}
    (h : toAbsPath cwd (render d) outSz = some out) : fields slash out = d := by
  unfold toAbsPath at h
  rw [if_pos (head_render d)] at h
  split_ifs at h
  rw [← Option.some.inj h, fields_pathRstripSlashes, fields_render hd]

theorem ensureDestinationRoot_entry (hd : ∀ x ∈ d, Ordinary x) (hk : ¬ k <+: d)
    (cwd : Option Bytes) :
    (ensureDestinationRoot m fs cwd (render d)).1.entry k = fs.entry k := by
  unfold ensureDestinationRoot
  split
  · rfl
  · rename_i path habs
    have hfields := fields_toAbsPath hd habs
    exact mkdirPDir_entry (by rwa [hfields]) (by rwa [hfields])

theorem render_inj (hb : ∀ x ∈ b, Ordinary x) (hd : ∀ x ∈ d, Ordinary x)
    (h : render b = render d) : b = d := by
  rw [← fields_render hb, h, fields_render hd]

/-- The textual test is the component-wise one. -/
theorem isSameOrChildPath_iff (hb : ∀ x ∈ b, Ordinary x) (hd : ∀ x ∈ d, Ordinary x) :
    isSameOrChildPath (render b) (render d) = true ↔ b <+: d := pathUnderRoot_iff hb hd

end Made

section Overlap
variable {m : Maker} {v : View} {cwd : Option Bytes} {verifyOnly : Bool} {src dst : Bytes}
variable {b d k : List Bytes}

theorem canonicalDst_requested {out : Bytes} (h : canonicalDst v cwd false dst = some out) :
    toCanonicalRequestedDirPath v cwd dst pathMax = .ok out := by
  have hdst : (toCanonicalRequestedDirPath v cwd dst pathMax).toOption = some out := h
  cases hresult : toCanonicalRequestedDirPath v cwd dst pathMax with
  | error e =>
    rw [hresult] at hdst
    cases hdst
  | ok path =>
    rw [hresult] at hdst
    rw [Option.some.inj hdst]

theorem canonicalDst_eq_some {out : Bytes} (h : canonicalDst v cwd verifyOnly dst = some out) :
    ∃ l, out = render l ∧ ∀ x ∈ l, Ordinary x := by
  cases verifyOnly with
  | true => exact toCanonicalDirPath_eq_some h
  | false =>
    obtain ⟨abs, p, s, l, -, hfound, rfl⟩ :=
      toCanonicalRequestedDirPath_found (canonicalDst_requested h)
    exact ⟨l ++ s, rfl, hfound.ordinary fun x hx => ordinary_of_mem_resolve hx⟩

/-- `main` exits before it makes anything, or the roots lie apart and at most the destination root
is made. -/
theorem localRoots_cases (m : Maker) (v : View) (cwd : Option Bytes) (verifyOnly : Bool)
    (src dst : Bytes) :
    localRoots m v cwd verifyOnly src dst = (v.fs, none) ∨
      ∃ b d, (∀ x ∈ b, Ordinary x) ∧ (∀ x ∈ d, Ordinary x) ∧
        toCanonicalDirPath v cwd src pathMax = some (render b) ∧
        canonicalDst v cwd verifyOnly dst = some (render d) ∧ ¬ b <+: d ∧ ¬ d <+: b ∧
        ((localRoots m v cwd verifyOnly src dst).1 = v.fs ∨
          (localRoots m v cwd verifyOnly src dst).1 =
            (ensureDestinationRoot m v.fs cwd (render d)).1) ∧
        ∀ roots fresh, (localRoots m v cwd verifyOnly src dst).2 = some (roots, fresh) →
          roots = ⟨render b, render d⟩ := by
  cases hsrc : toCanonicalDirPath v cwd src pathMax with
  | none =>
    left
    unfold localRoots
    rw [hsrc]
  | some srcAbs =>
    cases hdst : canonicalDst v cwd verifyOnly dst with
    | none =>
      left
      unfold localRoots
      rw [hsrc]
      dsimp only
      rw [hdst]
    | some dstAbs =>
      obtain ⟨b, rfl, hb⟩ := toCanonicalDirPath_eq_some hsrc
      obtain ⟨d, rfl, hd⟩ := canonicalDst_eq_some hdst
      unfold localRoots
      rw [hsrc]
      dsimp only
      rw [hdst]
      dsimp only
      by_cases hover : (isSameOrChildPath (render b) (render d) ||
          isSameOrChildPath (render d) (render b)) = true
      · exact .inl (if_pos hover)
      · rw [if_neg hover]
        rw [Bool.or_eq_true, isSameOrChildPath_iff hb hd, isSameOrChildPath_iff hd hb,
          not_or] at hover
        refine .inr ⟨b, d, hb, hd, rfl, rfl, hover.1, hover.2, ?_⟩
        split
        · exact ⟨.inl rfl, fun roots fresh h => (Prod.mk.inj (Option.some.inj h)).1.symm⟩
        · split
          · rename_i fs e heq
            rw [heq]
            exact ⟨.inr rfl, fun roots fresh h => by cases h⟩
          · rename_i fs made heq
            rw [heq]
            exact ⟨.inr rfl, fun roots fresh h => (Prod.mk.inj (Option.some.inj h)).1.symm⟩

/-- A destination in the source tree ends the run before anything is made. -/
theorem localRoots_refuses (hb : ∀ x ∈ b, Ordinary x)
    (hsrc : toCanonicalDirPath v cwd src pathMax = some (render b)) {abs : Bytes}
    (habs : toAbsPath cwd dst pathMax = some abs) {p s : List Bytes} {l : Loc}
    (hfound : Found v (resolve abs) p s l) (hin : b <+: l ++ s) :
    localRoots m v cwd false src dst = (v.fs, none) := by
  rcases localRoots_cases m v cwd false src dst with h | ⟨b', d, hb', hd, hs, ht, hno, -⟩
  · exact h
  · rw [hsrc] at hs
    obtain rfl := render_inj hb hb' (Option.some.inj hs)
    obtain ⟨abs', p', s', l', habs', hfound', hd'⟩ :=
      toCanonicalRequestedDirPath_found (canonicalDst_requested ht)
    rw [habs] at habs'
    obtain rfl := Option.some.inj habs'
    obtain ⟨-, rfl, rfl⟩ := hfound.unique hfound'
    have hord := hfound.ordinary fun x hx => ordinary_of_mem_resolve hx
    obtain rfl := render_inj hd hord hd'
    exact absurd hin hno

/-- The source tree stays as it is. -/
theorem localRoots_entry (hb : ∀ x ∈ b, Ordinary x)
    (hsrc : toCanonicalDirPath v cwd src pathMax = some (render b)) (hk : b <+: k) :
    (localRoots m v cwd verifyOnly src dst).1.entry k = v.fs.entry k := by
  rcases localRoots_cases m v cwd verifyOnly src dst with
    h | ⟨b', d, hb', hd, hs, -, hno, -, hfs | hfs, -⟩
  · rw [h]
  · rw [hfs]
  · rw [hsrc] at hs
    obtain rfl := render_inj hb hb' (Option.some.inj hs)
    rw [hfs]
    exact ensureDestinationRoot_entry hd (fun h => hno (hk.trans h)) cwd

/-- What lies below the destination root is not in the source tree. -/
theorem localRoots_apart (hb : ∀ x ∈ b, Ordinary x)
    (hsrc : toCanonicalDirPath v cwd src pathMax = some (render b)) {roots : Roots} {fresh : Bool}
    (h : (localRoots m v cwd verifyOnly src dst).2 = some (roots, fresh)) :
    ∃ d, roots = ⟨render b, render d⟩ ∧ ∀ k, d <+: k → ¬ b <+: k := by
  rcases localRoots_cases m v cwd verifyOnly src dst with
    heq | ⟨b', d, hb', hd, hs, -, hbd, hdb, -, hroots⟩
  · rw [heq] at h
    cases h
  · rw [hsrc] at hs
    obtain rfl := render_inj hb hb' (Option.some.inj hs)
    refine ⟨d, hroots roots fresh h, fun k hdk hbk => ?_⟩
    rcases List.prefix_or_prefix_of_prefix hbk hdk with hle | hle
    · exact hbd hle
    · exact hdb hle

/-- A destination that is accepted is the real path of its longest directory with the rest behind
it, of which nothing is there. When that lies in the source tree, `main` exits with everything as
it was; in any case it makes nothing in the source tree, and the roots it goes on with lie apart. -/
theorem requested_destination_exact (v : View) (cwd : Option Bytes) (input : Bytes) :
    (∀ outSz out, toCanonicalRequestedDirPath v cwd input outSz = .ok out →
      ∃ abs p s l, toAbsPath cwd input pathMax = some abs ∧ Found v (resolve abs) p s l ∧
        out = render (l ++ s)) ∧
    ∀ m src b, (∀ x ∈ b, Ordinary x) → toCanonicalDirPath v cwd src pathMax = some (render b) →
      (∀ abs p s l, toAbsPath cwd input pathMax = some abs → Found v (resolve abs) p s l →
        b <+: l ++ s → localRoots m v cwd false src input = (v.fs, none)) ∧
      (∀ k, b <+: k → (localRoots m v cwd false src input).1.entry k = v.fs.entry k) ∧
      ∀ roots fresh, (localRoots m v cwd false src input).2 = some (roots, fresh) →
        ∃ d, roots = ⟨render b, render d⟩ ∧ ∀ k, d <+: k → ¬ b <+: k := by
  refine ⟨fun outSz out h => toCanonicalRequestedDirPath_found h, fun m src b hb hsrc => ?_⟩
  refine ⟨fun abs p s l habs hfound hin => localRoots_refuses hb hsrc habs hfound hin,
    fun k hk => localRoots_entry hb hsrc hk, fun roots fresh h => localRoots_apart hb hsrc h⟩

end Overlap

/-- The directory `/s`, and `/t`, a link to it. -/
def linkedFs : Fs where
  entry := fun l =>
    if l = [] then some 0 else if l = [[115]] then some 1 else if l = [[116]] then some 2 else none
  node := fun i => ⟨if i = 2 then .symlink [slash, 115] else .directory, 0x1FF, 0, 0, (0, 0), (0, 0)⟩
  next := 3

theorem linkedFs_entry {l : Loc} {i : ℕ} (h : linkedFs.entry l = some i) :
    l.dropLast = [] ∧ i < 3 := by
  simp only [linkedFs] at h
  split_ifs at h with htop hs ht
  · exact ⟨by rw [htop]; rfl, by rw [← Option.some.inj h]; decide⟩
  · exact ⟨by rw [hs]; rfl, by rw [← Option.some.inj h]; decide⟩
  · exact ⟨by rw [ht]; rfl, by rw [← Option.some.inj h]; decide⟩

theorem linkedFs_tree : linkedFs.Tree := by
  refine ⟨⟨rfl, fun l i hi => (linkedFs_entry hi).2⟩, fun l hl d hd => ?_⟩
  obtain ⟨i, hi⟩ := Option.isSome_iff_exists.mp hl
  rw [(linkedFs_entry hi).1] at hd
  obtain rfl := List.prefix_nil.mp hd
  rfl

def linkedView : View := .free linkedFs linkedFs_tree

theorem toAbsPath_of_ne {cwd : Option Bytes} {path : Bytes} (hhead : path.head? = some slash)
    (hlast : path.getLast? ≠ some slash) {outSz : ℕ} (hlen : path.length < outSz) :
    toAbsPath cwd path outSz = some path := by
  unfold toAbsPath
  rw [if_pos hhead, if_neg (Nat.not_le.mpr hlen), pathRstripSlashes, if_neg fun h => hlast h.2]

/-- The loop looks at `/t/n` and then at `/t`. -/
theorem linkedView_destination :
    toCanonicalRequestedDirPath linkedView none [slash, 116, slash, 110] pathMax =
      .ok (render [[115], [110]]) := by
  have habs : toAbsPath none [slash, 116, slash, 110] pathMax = some [slash, 116, slash, 110] :=
    toAbsPath_of_ne rfl (by decide) (by decide)
  have hnormal : normalizeAbsPathLexically [slash, 116, slash, 110] pathMax =
      .ok [slash, 116, slash, 110] := rfl
  have hlonger : linkedView.stat [slash, 116, slash, 110] = .error .enoent := rfl
  have hentry : linkedView.lstat [slash, 116, slash, 110] = .error .enoent := rfl
  have hcut : Lib.CStrings.strrchr slash [slash, 116, slash, 110] = some 2 := rfl
  have hshorter : linkedView.stat [slash, 116] = .ok true := rfl
  have hreal : pathResolveExisting linkedView [slash, 116] = .ok [slash, 115] := rfl
  have hjoined : joinParentSuffix [slash, 115] [110] pathMax = some (render [[115], [110]]) := rfl
  have hlast : requestedLoop linkedView [slash, 116, slash, 110] pathMax [slash, 116] [110] =
      .ok (render [[115], [110]]) := by
    rw [requestedLoop, hshorter]
    dsimp only
    rw [if_neg (by decide), hreal]
    dsimp only
    rw [hjoined]
  unfold toCanonicalRequestedDirPath
  rw [habs]
  dsimp only
  rw [hnormal]
  dsimp only
  rw [if_neg (by decide), requestedLoop, hlonger]
  dsimp only
  rw [if_neg (by decide), hentry]
  dsimp only
  rw [if_neg (by decide), if_neg (by decide), hcut]
  exact hlast

theorem link_into_source_refused :
    toCanonicalRequestedDirPath linkedView none [slash, 116, slash, 110] pathMax =
        .ok (render [[115], [110]]) ∧
      localRoots ⟨⟨0, 0, [], 1⟩, 0, fun _ _ => none⟩ linkedView none false [slash, 115]
        [slash, 116, slash, 110] = (linkedFs, none) := by
  have hexact := requested_destination_exact linkedView none [slash, 116, slash, 110]
  have hsource : ∀ x ∈ ([[115]] : List Bytes), Ordinary x :=
    ordinary_letter 115 (by decide) (by decide)
  have hnew : Ordinary [110] := ordinary_letter 110 (by decide) (by decide) _ List.mem_cons_self
  have hsrc : toCanonicalDirPath linkedView none [slash, 115] pathMax = some (render [[115]]) := by
    have habs : toAbsPath none [slash, 115] pathMax = some [slash, 115] :=
      toAbsPath_of_ne rfl (by decide) (by decide)
    unfold toCanonicalDirPath
    rw [habs]
    rfl
  obtain ⟨abs, p, s, l, habs, hfound, hout⟩ := hexact.1 _ _ linkedView_destination
  have hls := hfound.ordinary fun x hx => ordinary_of_mem_resolve hx
  have hin : l ++ s = [[115], [110]] := (render_inj (ordinary_concat hsource hnew) hls hout).symm
  refine ⟨linkedView_destination, (hexact.2 _ _ _ hsource hsrc).1 abs p s l habs hfound ?_⟩
  rw [hin]
  exact List.prefix_append [[115]] [[110]]

end Ecopy.Traversal
