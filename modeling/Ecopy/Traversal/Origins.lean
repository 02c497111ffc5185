import Ecopy.Traversal.Recorded

/-!
# Where the records of a traversal come from

Nothing is written down that no callback was about: a record of a directory comes from its
`dir_begin`, every other record from the `entry` of an object of its kind. A callback that
fails writes down no more than one that does not.
-/
namespace Ecopy.Traversal
open Protocol (Bytes)
open Ecopy.Path Server HardLinks

variable {o : Options} {r : Roots} {src : Source} {log : List DirWalk.Event} {s : Copy}
  {n : DirWalk.Node} {f : FileEntry} {name : Bytes}

/-- `entry` was called for this name of the directory. -/
def Met (log : List DirWalk.Event) (n : DirWalk.Node) (name : Bytes) : Prop :=
  ∃ e withStat descend child, .entry n e withStat descend child ∈ log ∧ e.name = name

/-- It was called for this regular file. -/
structure Came (o : Options) (src : Source) (log : List DirWalk.Event) (n : DirWalk.Node)
    (f : FileEntry) : Prop where
  met : Met log n f.name
  st : f.st = o.override (src.lstat (childPath n.path f.name))
  isReg : f.st.isReg = true

/-- What is kept of regular files, in the batches and behind them, is as `P` says. -/
structure Carries (P : DirWalk.Node → FileEntry → Prop) (r : Roots) (s : Copy) : Prop where
  batch : ∀ n, ∀ f ∈ s.batch n, P n f
  files : ∀ x ∈ s.files, ∃ n f, P n f ∧ joinUnder n.path f.name = some x.src ∧
    entryDst r n f.name = some x.dst ∧ x.srcSt = f.st

/-- Each record has its callback. -/
structure Sourced (o : Options) (r : Roots) (src : Source) (log : List DirWalk.Event) (s : Copy) :
    Prop where
  dirs : ∀ x ∈ s.dirs, ∃ n, .begun n true ∈ log ∧ x.src = n.path ∧
    dstPathFor r n.path pathMax = some x.dst ∧ x.srcSt = o.override (src.lstat n.path)
  symlinks : ∀ x ∈ s.symlinks, ∃ n name, Met log n name ∧ entryDst r n name = some x.dst ∧
    x.srcSt = o.override (src.lstat (childPath n.path name)) ∧ x.srcSt.isLnk = true ∧
    x.target = src.target x.srcSt.inode
  carried : Carries (Came o src log) r s
  jobs : ∀ j ∈ s.links.jobs, ∃ n f, Came o src log n f ∧ entryDst r n f.name = some j.link

variable {evs : List DirWalk.Event}

theorem Met.append (h : Met log n name) : Met (log ++ evs) n name := by
  obtain ⟨e, withStat, descend, child, hev, hname⟩ := h
  exact ⟨e, withStat, descend, child, List.mem_append_left _ hev, hname⟩

theorem Came.append (h : Came o src log n f) : Came o src (log ++ evs) n f :=
  ⟨h.met.append, h.st, h.isReg⟩

section Carries
variable {P Q : DirWalk.Node → FileEntry → Prop}

theorem Carries.start (P : DirWalk.Node → FileEntry → Prop) (r : Roots) : Carries P r .start :=
  ⟨fun _ _ h => (List.not_mem_nil h).elim, fun _ h => (List.not_mem_nil h).elim⟩

theorem Carries.mono (h : Carries P r s) (hPQ : ∀ n f, P n f → Q n f) : Carries Q r s where
  batch n f hf := hPQ n f (h.batch n f hf)
  files x hx := by
    obtain ⟨n, f, hf, hrest⟩ := h.files x hx
    exact ⟨n, f, hPQ n f hf, hrest⟩

theorem Carries.congr (h : Carries P r s) {t : Copy} (hbatch : t.batch = s.batch)
    (hfiles : t.files = s.files) : Carries P r t :=
  ⟨hbatch ▸ h.batch, hfiles ▸ h.files⟩

theorem Carries.flushFile (h : Carries P r s) (hf : P n f) :
    Carries P r (flushFile r n s f) := by
  unfold Traversal.flushFile
  split
  · rename_i srcPath dstPath hsrc hdst
    refine ⟨h.batch, fun x hx => ?_⟩
    rcases List.mem_append.mp hx with hx | hx
    · exact h.files x hx
    · obtain rfl := List.mem_singleton.mp hx
      exact ⟨n, f, hf, hsrc, hdst, rfl⟩
  · exact h.congr rfl rfl

theorem Carries.flushFiles {items : List FileEntry} (h : Carries P r s)
    (hitems : ∀ f ∈ items, P n f) :
    Carries P r (items.foldl (Traversal.flushFile r n) s) := by
  induction items generalizing s with
  | nil => exact h
  | cons f items ih =>
    have hfirst := h.flushFile (hitems f List.mem_cons_self)
    exact ih hfirst fun g hg => hitems g (List.mem_cons_of_mem f hg)

theorem Carries.update {items : List FileEntry} (h : Carries P r s) (hitems : ∀ f ∈ items, P n f) :
    Carries P r { s with batch := Function.update s.batch n items } := by
  refine ⟨fun m => ?_, h.files⟩
  by_cases hmn : m = n
  · subst hmn
    dsimp only
    rwa [Function.update_self]
  · dsimp only
    rw [Function.update_of_ne hmn]
    exact h.batch m

theorem Carries.flushFileBatch (h : Carries P r s) (n : DirWalk.Node) :
    Carries P r (flushFileBatch r s n) :=
  (h.update fun _ hf => (List.not_mem_nil hf).elim).flushFiles (h.batch n)

theorem Carries.batchFile (h : Carries P r s) (hf : P n f) : Carries P r (batchFile r s n f) := by
  have hadded : Carries P r { s with batch := Function.update s.batch n (s.batch n ++ [f]) } := by
    refine h.update fun g hg => ?_
    rcases List.mem_append.mp hg with hg | hg
    · exact h.batch n g hg
    · rwa [List.mem_singleton.mp hg]
  unfold Traversal.batchFile
  dsimp only
  split
  · exact hadded.flushFileBatch n
  · exact hadded

end Carries

/-- Nothing but the batches and the files has changed, and maybe the failure. -/
structure Beside (s t : Copy) : Prop where
  dirs : t.dirs = s.dirs
  symlinks : t.symlinks = s.symlinks
  links : t.links = s.links

theorem flushFileBatch_beside (r : Roots) (s : Copy) (n : DirWalk.Node) :
    Beside s (flushFileBatch r s n) := by
  have hspec := flushFiles_spec r n (s.batch n) { s with batch := Function.update s.batch n [] }
  exact ⟨hspec.dirs, hspec.symlinks, hspec.links⟩

theorem batchFile_beside (r : Roots) (s : Copy) (n : DirWalk.Node) (f : FileEntry) :
    Beside s (batchFile r s n f) := by
  unfold batchFile
  dsimp only
  split
  · obtain ⟨hdirs, hsymlinks, hlinks⟩ := flushFileBatch_beside r
      { s with batch := Function.update s.batch n (s.batch n ++ [f]) } n
    exact ⟨hdirs, hsymlinks, hlinks⟩
  · exact ⟨rfl, rfl, rfl⟩

theorem Sourced.start (o : Options) (r : Roots) (src : Source) : Sourced o r src [] .start where
  dirs _ h := (List.not_mem_nil h).elim
  symlinks _ h := (List.not_mem_nil h).elim
  carried := .start _ r
  jobs _ h := (List.not_mem_nil h).elim

theorem Sourced.append (h : Sourced o r src log s) : Sourced o r src (log ++ evs) s where
  dirs x hx := by
    obtain ⟨n, hn, hrest⟩ := h.dirs x hx
    exact ⟨n, List.mem_append_left _ hn, hrest⟩
  symlinks x hx := by
    obtain ⟨n, name, hmet, hrest⟩ := h.symlinks x hx
    exact ⟨n, name, hmet.append, hrest⟩
  carried := h.carried.mono fun _ _ hf => hf.append
  jobs j hj := by
    obtain ⟨n, f, hcame, hlink⟩ := h.jobs j hj
    exact ⟨n, f, hcame.append, hlink⟩

theorem Sourced.fail (h : Sourced o r src log s) : Sourced o r src log s.fail :=
  ⟨h.dirs, h.symlinks, h.carried.congr rfl rfl, h.jobs⟩

theorem Sourced.beside {t : Copy} (h : Sourced o r src log s) (ht : Beside s t)
    (hcarried : Carries (Came o src log) r t) : Sourced o r src log t where
  dirs := ht.dirs ▸ h.dirs
  symlinks := ht.symlinks ▸ h.symlinks
  carried := hcarried
  jobs := ht.links ▸ h.jobs

theorem Sourced.flushFileBatch (h : Sourced o r src log s) (n : DirWalk.Node) :
    Sourced o r src log (flushFileBatch r s n) :=
  h.beside (flushFileBatch_beside r s n) (h.carried.flushFileBatch n)

theorem Sourced.batchFile (h : Sourced o r src log s) (hf : Came o src log n f) :
    Sourced o r src log (batchFile r s n f) :=
  h.beside (batchFile_beside r s n f) (h.carried.batchFile hf)

theorem hlGrow_jobs (reg : Registry) : (hlGrow reg).jobs = reg.jobs := by
  unfold hlGrow
  rfl

/-- `hardlinks_note` asks for no link but the one it is called about. -/
theorem mem_jobs_hardlinksNote {mem : Memory} {reg : Registry} {st : LinkStat} {dst : Bytes}
    {j : Job} (hj : j ∈ (hardlinksNote mem reg st dst).2.jobs) : j ∈ reg.jobs ∨ j.link = dst := by
  have hprimary : ∀ {reg : Registry}, j ∈ (notePrimary mem reg st dst).2.jobs → j ∈ reg.jobs := by
    intro reg hj
    unfold notePrimary at hj
    split at hj
    · rwa [Registry.enter_jobs] at hj
    · exact hj
  have hin : ∀ {reg : Registry}, j ∈ (noteIn mem reg st dst).2.jobs →
      j ∈ reg.jobs ∨ j.link = dst := by
    intro reg hj
    unfold noteIn at hj
    split at hj
    · unfold noteSecondary at hj
      split at hj
      · rcases List.mem_append.mp hj with hj | hj
        · exact .inl hj
        · rw [List.mem_singleton.mp hj]
          exact .inr rfl
      · exact .inl hj
    · split at hj
      · split at hj
        · have hgrown : j ∈ (hlGrow reg).jobs := hprimary hj
          rw [hlGrow_jobs] at hgrown
          exact .inl hgrown
        · exact .inl hj
      · exact .inl (hprimary hj)
  unfold hardlinksNote at hj
  split at hj
  · split at hj
    · rw [← hlGrow_jobs reg]
      exact hin hj
    · exact .inl hj
  · exact hin hj

theorem Sourced.noteFile {mem : Memory} {dst : Bytes} (h : Sourced o r src log s)
    (hf : Came o src log n f) (hdst : entryDst r n f.name = some dst) :
    Sourced o r src log (noteFile mem r s n f dst) := by
  have hlinks : ∀ {result : NoteResult} {links : Registry} (failed : Bool),
      hardlinksNote mem s.links ⟨f.st.dev, f.st.ino, f.st.attr⟩ dst = (result, links) →
      Sourced o r src log { s with links := links, failed := failed } := by
    intro result links failed hnote
    refine ⟨h.dirs, h.symlinks, h.carried.congr rfl rfl, fun j hj => ?_⟩
    have hj : j ∈ (hardlinksNote mem s.links ⟨f.st.dev, f.st.ino, f.st.attr⟩ dst).2.jobs := by
      rwa [hnote]
    rcases mem_jobs_hardlinksNote hj with hj | rfl
    · exact h.jobs j hj
    · exact ⟨n, f, hf, hdst⟩
  unfold Traversal.noteFile
  split
  · rename_i links hnote
    exact hlinks s.failed hnote
  · rename_i links hnote
    exact (hlinks true hnote).batchFile hf
  · rename_i links hnote
    exact (hlinks s.failed hnote).batchFile hf

theorem Sourced.walkDirBegin (h : Sourced o r src log s) (hn : .begun n true ∈ log) :
    Sourced o r src log (walkDirBegin o r src s n) := by
  unfold Traversal.walkDirBegin
  split
  · exact h.fail
  · rename_i dst hdst
    refine ⟨fun x hx => ?_, h.symlinks, h.carried.congr rfl rfl, h.jobs⟩
    rcases List.mem_append.mp hx with hx | hx
    · exact h.dirs x hx
    · obtain rfl := List.mem_singleton.mp hx
      exact ⟨n, hn, rfl, hdst, rfl⟩

theorem Sourced.copySymlinkEntry (h : Sourced o r src log s) (hmet : Met log n name)
    (hlnk : (o.override (src.lstat (childPath n.path name))).isLnk = true) :
    Sourced o r src log
      (copySymlinkEntry r src s n name (o.override (src.lstat (childPath n.path name)))) := by
  unfold Traversal.copySymlinkEntry
  dsimp only
  split
  · exact h.fail
  · split
    · exact h.fail
    · rename_i dst hdst
      refine ⟨h.dirs, fun x hx => ?_, h.carried.congr rfl rfl, h.jobs⟩
      rcases List.mem_append.mp hx with hx | hx
      · exact h.symlinks x hx
      · obtain rfl := List.mem_singleton.mp hx
        exact ⟨n, name, hmet, hdst, rfl, hlnk, rfl⟩

theorem Sourced.walkEntry {mem : Bytes → Memory} (h : Sourced o r src log s)
    (hmet : Met log n name) : Sourced o r src log (walkEntry o r src mem s n name) := by
  unfold Traversal.walkEntry
  dsimp only
  split
  · exact h
  split
  · rename_i hlnk
    exact h.copySymlinkEntry hmet hlnk
  split
  · exact h
  rename_i hreg
  have hcame : Came o src log n ⟨name, o.override (src.lstat (childPath n.path name))⟩ :=
    ⟨hmet, rfl, by simpa using hreg⟩
  split
  · exact h.fail
  split
  · split
    · exact h.fail
    · rename_i dst hdst
      exact h.noteFile hcame hdst
  · exact h.batchFile hcame

theorem Sourced.callback {mem : Bytes → Memory} (h : Sourced o r src log s) (ev : DirWalk.Event) :
    Sourced o r src (log ++ [ev]) (callback o r src mem s ev) := by
  have hs : Sourced o r src (log ++ [ev]) s := h.append
  have hev : ev ∈ log ++ [ev] := List.mem_append_right _ List.mem_cons_self
  cases ev with
  | openFailed n => exact hs.fail
  | error path => exact hs.fail
  | begun n ok =>
    cases ok with
    | false => exact hs.fail
    | true => exact hs.walkDirBegin hev
  | entry n e withStat descend child =>
    exact hs.walkEntry ⟨e, withStat, descend, child, hev, rfl⟩
  | ended n ok =>
    cases ok with
    | false => exact hs.fail.flushFileBatch n
    | true => exact hs.flushFileBatch n

theorem sourced_callbacks (o : Options) (r : Roots) (src : Source) (mem : Bytes → Memory)
    (log : List DirWalk.Event) : Sourced o r src log (callbacks o r src mem log) := by
  induction log using List.reverseRecOn with
  | nil => exact .start o r src
  | append_singleton log ev ih =>
    unfold callbacks at ih ⊢
    rw [List.foldl_append]
    exact ih.callback ev

end Ecopy.Traversal
