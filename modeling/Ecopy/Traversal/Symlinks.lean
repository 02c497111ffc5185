import Ecopy.HardLinks.Create

/-!
# Symlinks that are made again

`symlink_recreate_at` makes a symlink under a temporary name and moves it. At a fresh
destination it makes the symlink under its name at once, and falls back to the move when the
name is there already. Ownership and times are set as well as possible; the link counts as made
whatever becomes of them.

Messages and the counters of the statistics are left out.
-/
namespace Ecopy.Traversal.Symlinks
open Protocol Ecopy.Path FileSystem Server Lib.Calls
open Workers.SmallCopy Workers.Events HardLinks

/-- The ownership part of `apply_symlink_metadata`. -/
def applySymlinkOwner (who : Identity) (path : Bytes) (m : Meta) : Handler Unit := do
  if m.uid = who.euid ∧ m.gid = who.egid then return
  let (uid, gid) := wantedOwner who m.uid m.gid
  if uid = none ∧ gid = none then return
  let _ ← Sys.lchown path uid gid

def applySymlinkMetadata (who : Identity) (cfg : Tuning) (path : Bytes) (m : Meta) :
    Handler Unit := do
  applySymlinkOwner who path m
  if cfg.preserveTimes then
    let _ ← Sys.lutimes path m.atime m.mtime

/-- The part of `symlink_recreate_at` that replaces a name. -/
def symlinkReplaceAt (who : Identity) (cfg : Tuning) (dir name target : Bytes) (m : Meta) :
    Handler Bool := do
  let tmp := atDir dir (makeTempName who.pid (← Sys.nextSeq .put))
  match ← Sys.symlink target tmp with
  | .error _ => return false
  | .ok _ =>
    applySymlinkMetadata who cfg tmp m
    match ← Sys.rename tmp (atDir dir name) with
    | .ok _ => return true
    | .error _ =>
      let _ ← Sys.unlink tmp
      return false

def symlinkRecreateAt (who : Identity) (cfg : Tuning) (dir name target : Bytes) (m : Meta) :
    Handler Bool := do
  if cfg.inplace then
    match ← Sys.symlink target (atDir dir name) with
    | .ok _ =>
      applySymlinkMetadata who cfg (atDir dir name) m
      return true
    | .error .eexist => symlinkReplaceAt who cfg dir name target m
    | .error _ => return false
  else symlinkReplaceAt who cfg dir name target m

/-- Only the node `i` has changed, and its kind has not. -/
structure Retouched (i : ℕ) (fs fs' : Fs) : Prop where
  entry : fs'.entry = fs.entry
  next : fs'.next = fs.next
  nodes : ∀ j, j ≠ i → fs'.node j = fs.node j
  kind : (fs'.node i).kind = (fs.node i).kind

theorem Retouched.refl (i : ℕ) (fs : Fs) : Retouched i fs fs := ⟨rfl, rfl, fun _ _ => rfl, rfl⟩

theorem Retouched.trans {i : ℕ} {fs fs₁ fs₂ : Fs} (h : Retouched i fs fs₁)
    (h' : Retouched i fs₁ fs₂) : Retouched i fs fs₂ where
  entry := h'.entry.trans h.entry
  next := h'.next.trans h.next
  nodes j hj := (h'.nodes j hj).trans (h.nodes j hj)
  kind := h'.kind.trans h.kind

theorem retouched_setNode {i : ℕ} {fs : Fs} {n : Node} (h : n.kind = (fs.node i).kind) :
    Retouched i fs (fs.setNode i n) where
  entry := rfl
  next := rfl
  nodes _ hj := Function.update_of_ne hj _ _
  kind := by
    rw [Fs.setNode]
    simpa using h

section Runs
variable {who : Identity} {cfg : Tuning} {w v : World} {x : Choice} {tr : List Event}
  {dir name target path : Bytes} {m : Meta} {i : ℕ}

theorem changeAt_retouched {f : Node → Node} {out : Except Errno Unit}
    (hi : w.fs.entry (resolve path) = some i) (hf : ∀ n, (f n).kind = n.kind)
    (h : w.changeAt x path f = (out, v)) : Retouched i w.fs v.fs := by
  rcases change_eq h with ⟨e, -, rfl⟩ | ⟨a, fs, -, hok, -, rfl⟩
  · exact .refl _ _
  · obtain ⟨-, hok⟩ := withLoc_ok hok
    split at hok
    · cases hok
    rename_i j n hl
    obtain ⟨hj, rfl⟩ := lookup_eq_ok hl
    obtain rfl := Option.some.inj (hi.symm.trans hj)
    obtain rfl := Except.ok.inj hok
    exact retouched_setNode (hf _)

theorem applySymlinkOwner_retouched (hi : w.fs.entry (resolve path) = some i)
    (h : (applySymlinkOwner who path m).Runs (answer who) w tr v ()) :
    Retouched i w.fs v.fs := by
  unfold applySymlinkOwner at h
  split at h
  · obtain ⟨-, rfl, -⟩ := Prog.runs_ret_iff.mp h
    exact .refl _ _
  dsimp only at h
  split at h
  · obtain ⟨-, rfl, -⟩ := Prog.runs_ret_iff.mp h
    exact .refl _ _
  · obtain ⟨x, r, u, rest, hown, -, hret⟩ := Prog.runs_perform_iff.mp h
    obtain ⟨-, rfl, -⟩ := Prog.runs_ret_iff.mp hret
    exact changeAt_retouched (f := fun n => World.setOwner n _ _) hi (fun _ => rfl)
      (Option.some.inj hown)

theorem applySymlinkMetadata_retouched (hi : w.fs.entry (resolve path) = some i)
    (h : (applySymlinkMetadata who cfg path m).Runs (answer who) w tr v ()) :
    Retouched i w.fs v.fs := by
  obtain ⟨before, after, u, _, rfl, howner, hrest⟩ := Prog.runs_bind_iff.mp h
  have hfirst := applySymlinkOwner_retouched hi howner
  split at hrest
  · obtain ⟨x, r, s, rest, htimes, -, hret⟩ := Prog.runs_perform_iff.mp hrest
    obtain ⟨-, rfl, -⟩ := Prog.runs_ret_iff.mp hret
    exact hfirst.trans
      (changeAt_retouched (f := fun n => { n with atime := m.atime, mtime := m.mtime })
        (by rwa [hfirst.entry]) (fun _ => rfl) (Option.some.inj htimes))
  · obtain ⟨-, rfl, -⟩ := Prog.runs_ret_iff.mp hrest
    exact hfirst

/-- A new symlink stands at `l`, and nothing else has changed. -/
structure Made (fs fs' : Fs) (l : Loc) (target : Bytes) : Prop where
  entry : fs'.entry = Function.update fs.entry l (some fs.next)
  nodes : ∀ j, j ≠ fs.next → fs'.node j = fs.node j
  kind : (fs'.node fs.next).kind = .symlink target

theorem Made.retouched {fs fs₁ fs₂ : Fs} {l : Loc} (h : Made fs fs₁ l target)
    (h' : Retouched fs.next fs₁ fs₂) : Made fs fs₂ l target where
  entry := h'.entry.trans h.entry
  nodes j hj := (h'.nodes j hj).trans (h.nodes j hj)
  kind := h'.kind.trans h.kind

theorem made_of_symlink (h : answer who w x (.symlink target path) = some (.ok (), v)) :
    Made w.fs v.fs (resolve path) target ∧ w.fs.entry (resolve path) = none := by
  rcases answer_symlink h with ⟨e, heq, -⟩ | ⟨fs, -, hadd, rfl⟩
  · cases heq
  obtain ⟨hfree, rfl⟩ := add_eq_ok hadd
  refine ⟨⟨rfl, fun j hj => Function.update_of_ne hj _ _, ?_⟩, hfree⟩
  dsimp only [Fs.create]
  rw [Function.update_self]
  rfl

theorem Made.isFile {fs fs' : Fs} {l : Loc} (h : Made fs fs' l target) : fs'.isFile l = true :=
  Fs.isFile_iff.mpr ⟨fs.next, by rw [h.entry, Function.update_self],
    by simp [Node.isDir, h.kind]⟩

/-- The symlink under the free name `t` is moved to `l`. -/
theorem Made.rename {fs fs₁ fs₂ : Fs} {t l : Loc} (h : Made fs fs₁ t target)
    (hfree : fs.entry t = none) (hb : fs.Sane) (ht : fs₁.Tree) {emptyTarget : Bool}
    (hmove : fs₁.rename t l emptyTarget = .ok fs₂) : Made fs fs₂ l target := by
  have htemp : fs₁.entry t = some fs.next := by rw [h.entry, Function.update_self]
  by_cases hlt : l = t
  · subst hlt
    obtain ⟨-, -, i, hi, ⟨rfl, -⟩ | ⟨-, hne, -⟩⟩ := Fs.rename_eq_ok hmove
    · exact h
    · exact absurd hi hne
  · have hne : fs₁.entry l ≠ fs₁.entry t := by
      rw [htemp, h.entry, Function.update_of_ne hlt]
      intro hold
      exact (Nat.lt_irrefl _ (hb.bounded l _ hold)).elim
    obtain rfl := ht.rename_file h.isFile hmove hne
    refine ⟨?_, h.nodes, h.kind⟩
    dsimp only
    rw [htemp, h.entry, Function.update_idem, ← hfree, Function.update_eq_self]

/-- The name is gone again. -/
theorem Made.unlink {fs fs₁ fs₂ : Fs} {t : Loc} (h : Made fs fs₁ t target)
    (hfree : fs.entry t = none) (hgone : fs₁.unlink t = .ok fs₂) :
    fs₂.entry = fs.entry ∧ ∀ j, j ≠ fs.next → fs₂.node j = fs.node j := by
  obtain ⟨-, rfl⟩ := Fs.unlink_eq_ok hgone
  refine ⟨?_, h.nodes⟩
  dsimp only
  rw [h.entry, Function.update_idem, ← hfree, Function.update_eq_self]

/-- A file was not removed. -/
def UnlinkFails : Event → Prop
  | ⟨.unlink _, (r : Except Errno Unit)⟩ => r.isOk = false
  | _ => False

/-- What is left when no symlink was made. -/
structure Unmade (fs fs' : Fs) : Prop where
  entry : fs'.entry = fs.entry
  nodes : ∀ j, j ≠ fs.next → fs'.node j = fs.node j

theorem symlinkReplaceAt_spec {done : Bool} (ht : w.fs.Tree)
    (h : (symlinkReplaceAt who cfg dir name target m).Runs (answer who) w tr v done)
    (hquiet : done = false → ∀ ev ∈ tr, ¬ UnlinkFails ev) :
    if done then Made w.fs v.fs (resolve (atDir dir name)) target else Unmade w.fs v.fs := by
  obtain ⟨x, n, u, rest, hseq, rfl, hrun⟩ := Prog.runs_perform_iff.mp h
  obtain ⟨rfl, rfl⟩ := Prod.mk.inj (Option.some.inj hseq)
  obtain ⟨y, linked, s, after, hlink, rfl, hafter⟩ := Prog.runs_perform_iff.mp hrun
  cases linked with
  | error e =>
    obtain ⟨-, rfl, rfl⟩ := Prog.runs_ret_iff.mp hafter
    rcases answer_symlink hlink with ⟨-, -, rfl⟩ | ⟨fs, heq, -⟩
    · exact ⟨rfl, fun _ _ => rfl⟩
    · cases heq
  | ok _ =>
    obtain ⟨hmade, hfree⟩ := made_of_symlink hlink
    have hs : s.fs.Tree := by
      refine answer_tree ?_ hlink
      exact ht
    obtain ⟨mid, last, s₂, _, rfl, hmeta, hmove⟩ := Prog.runs_bind_iff.mp hafter
    have hmade₂ := hmade.retouched
      (applySymlinkMetadata_retouched (by rw [hmade.entry, Function.update_self]) hmeta)
    obtain ⟨z, moved, s₃, tail, hrename, rfl, hend⟩ := Prog.runs_perform_iff.mp hmove
    rcases answer_rename hrename with ⟨e, rfl, rfl⟩ | ⟨fs, rfl, -, -, hok, rfl⟩
    · obtain ⟨z', gone, s₄, ending, hunlink, rfl, hret⟩ := Prog.runs_perform_iff.mp hend
      obtain ⟨-, rfl, rfl⟩ := Prog.runs_ret_iff.mp hret
      rcases answer_unlink hunlink with ⟨e', rfl, -⟩ | ⟨fs, -, -, hgone, rfl⟩
      · exact absurd rfl (hquiet rfl
          ⟨.unlink (atDir dir (makeTempName who.pid (w.seq .put + 1))), .error e'⟩ (by simp))
      · obtain ⟨hentry, hnodes⟩ := hmade₂.unlink hfree hgone
        exact ⟨hentry, hnodes⟩
    · obtain ⟨-, rfl, rfl⟩ := Prog.runs_ret_iff.mp hend
      exact hmade₂.rename hfree ht.toSane (tree_of_runs hmeta hs) hok

/-- When it reports success, a new symlink with the target stands under the name and nothing else
has changed; when it does not, nothing has, unless the temporary name could not be removed. -/
theorem symlinkRecreateAt_spec {done : Bool} (ht : w.fs.Tree)
    (h : (symlinkRecreateAt who cfg dir name target m).Runs (answer who) w tr v done)
    (hquiet : done = false → ∀ ev ∈ tr, ¬ UnlinkFails ev) :
    if done then Made w.fs v.fs (resolve (atDir dir name)) target else Unmade w.fs v.fs := by
  unfold symlinkRecreateAt at h
  split at h
  · obtain ⟨x, linked, u, rest, hlink, rfl, hrun⟩ := Prog.runs_perform_iff.mp h
    have hrest : done = false → ∀ ev ∈ rest, ¬ UnlinkFails ev := fun hfailed ev hev =>
      hquiet hfailed ev (List.mem_cons_of_mem _ hev)
    cases linked with
    | ok _ =>
      obtain ⟨hmade, -⟩ := made_of_symlink hlink
      obtain ⟨mid, last, s, _, rfl, hmeta, hret⟩ := Prog.runs_bind_iff.mp hrun
      obtain ⟨-, rfl, rfl⟩ := Prog.runs_ret_iff.mp hret
      exact hmade.retouched
        (applySymlinkMetadata_retouched (by rw [hmade.entry, Function.update_self]) hmeta)
    | error e =>
      obtain rfl : u = w := by
        rcases answer_symlink hlink with ⟨-, -, hu⟩ | ⟨fs, heq, -⟩
        · exact hu
        · cases heq
      cases e with
      | eexist => exact symlinkReplaceAt_spec ht hrun hrest
      | _ =>
        obtain ⟨-, rfl, rfl⟩ := Prog.runs_ret_iff.mp hrun
        exact ⟨rfl, fun _ _ => rfl⟩
  · exact symlinkReplaceAt_spec ht h hquiet

end Runs

/-- Owned by the process, so that only the times are set. -/
def ownMeta : Meta := ⟨0, 0, 0x1FF, (1, 0), (1, 0)⟩

def movedTuning : Tuning := ⟨false, false, 0, false, 1, 0, false, false, true, Nat.one_pos⟩

theorem exists_symlink_run : ∃ tr v,
    (symlinkRecreateAt linker.who movedTuning [] [98] [97] ownMeta).Runs (answer linker.who)
      (.initial (twoNames 2)) tr v true := by
  have hplay : ((symlinkRecreateAt linker.who movedTuning [] [98] [97] ownMeta).play
      (answer linker.who) (.initial (twoNames 2)) (List.replicate 4 ⟨none, 0, false⟩)).map
        (·.2.2) = some true := by decide +kernel
  obtain ⟨⟨tr, v, a⟩, hout, rfl⟩ := Option.map_eq_some_iff.mp hplay
  exact ⟨tr, v, Prog.runs_of_play hout⟩

/-- The file `/b` is replaced by a symlink to `a`. -/
theorem symlinkRecreateAt_spec_file : ∃ v : World,
    Made (twoNames 2) v.fs (resolve [47, 98]) [97] := by
  obtain ⟨tr, v, hrun⟩ := exists_symlink_run
  exact ⟨v, symlinkRecreateAt_spec (twoNames_tree (by decide)) hrun fun h => Bool.noConfusion h⟩

end Ecopy.Traversal.Symlinks
