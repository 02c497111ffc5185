import Ecopy.DirWalk.Visits
import Ecopy.Traversal.Callbacks

/-!
# What the callbacks have written down

Nothing that the traversal has written down is lost again: a file waits in the batch of its
directory until the batch is flushed, and an inode that was seen has its first name among
the files. When every visit is over all batches are empty.
-/
namespace Ecopy.Traversal
open Protocol (Bytes)
open Ecopy.Path Server HardLinks
open DirWalk (history announced)

variable {o : Options} {r : Roots} {src : Source} {mem : Bytes → Memory}
  {s t u : Copy} {n m : DirWalk.Node} {f g : FileEntry}

theorem enough_table : Memory.enough.table = true := rfl

variable {reg : Registry} {dst name : Bytes} {st : SourceStat}

theorem notePrimary_enough {st : LinkStat} {mem : Memory}
    (h : (notePrimary mem reg st dst).1 ≠ .error) :
    notePrimary mem reg st dst = notePrimary .enough reg st dst := by
  unfold notePrimary at h ⊢
  split at h
  · rename_i hrecord
    rw [if_pos hrecord]
    rfl
  · exact absurd rfl h

theorem noteSecondary_enough {e : Entry} {st : LinkStat} {mem : Memory}
    (h : (noteSecondary mem reg e st dst).1 ≠ .error) :
    noteSecondary mem reg e st dst = noteSecondary .enough reg e st dst := by
  unfold noteSecondary at h ⊢
  split at h
  · rename_i hrecord
    rw [if_pos hrecord]
    rfl
  · exact absurd rfl h

theorem noteIn_enough {st : LinkStat} {mem : Memory} (h : (noteIn mem reg st dst).1 ≠ .error) :
    noteIn mem reg st dst = noteIn .enough reg st dst := by
  unfold noteIn at h ⊢
  split
  · rename_i e hfind
    rw [hfind] at h
    exact noteSecondary_enough h
  · rename_i hfind
    rw [hfind] at h
    dsimp only at h
    by_cases hfull : reg.count + 1 > reg.buckets.length * 3 / 4
    · simp only [if_pos hfull] at h ⊢
      split at h
      · rename_i htable
        rw [if_pos htable, if_pos enough_table]
        exact notePrimary_enough h
      · exact absurd rfl h
    · simp only [if_neg hfull] at h ⊢
      exact notePrimary_enough h

/-- A call either fails or does what it does with all the memory it needs. -/
theorem hardlinksNote_enough {st : LinkStat} {mem : Memory}
    (h : (hardlinksNote mem reg st dst).1 ≠ .error) :
    hardlinksNote mem reg st dst = hardlinksNote .enough reg st dst := by
  unfold hardlinksNote at h ⊢
  by_cases hempty : reg.buckets.length = 0
  · simp only [if_pos hempty] at h ⊢
    split at h
    · rename_i htable
      rw [if_pos htable, if_pos enough_table]
      exact noteIn_enough h
    · exact absurd rfl h
  · simp only [if_neg hempty] at h ⊢
    exact noteIn_enough h

/-- The file is in the batch of its directory or has been flushed from it. -/
def Held (r : Roots) (s : Copy) (n : DirWalk.Node) (f : FileEntry) : Prop :=
  f ∈ s.batch n ∨ ∃ x ∈ s.files, joinUnder n.path f.name = some x.src ∧
    entryDst r n f.name = some x.dst ∧ x.srcSt = f.st

/-- What a step of the traversal leaves as it was. -/
structure Grows (r : Roots) (s t : Copy) : Prop where
  sound : t.failed = false → s.failed = false
  dirs : ∀ x ∈ s.dirs, x ∈ t.dirs
  symlinks : ∀ x ∈ s.symlinks, x ∈ t.symlinks
  held : t.failed = false → ∀ n f, Held r s n f → Held r t n f

theorem Grows.refl (s : Copy) : Grows r s s := ⟨id, fun _ => id, fun _ => id, fun _ _ _ => id⟩

theorem Grows.trans (h : Grows r s t) (h' : Grows r t u) : Grows r s u where
  sound hu := h.sound (h'.sound hu)
  dirs x hx := h'.dirs x (h.dirs x hx)
  symlinks x hx := h'.symlinks x (h.symlinks x hx)
  held hu n f hf := h'.held hu n f (h.held (h'.sound hu) n f hf)

theorem Grows.withLinks (s : Copy) (links : Registry) : Grows r s { s with links := links } :=
  ⟨id, fun _ => id, fun _ => id, fun _ _ _ => id⟩

/-- A flushed batch: every file of it is among the files. -/
structure Flushed (r : Roots) (n : DirWalk.Node) (items : List FileEntry) (s t : Copy) : Prop where
  sound : t.failed = false → s.failed = false
  dirs : t.dirs = s.dirs
  symlinks : t.symlinks = s.symlinks
  batch : t.batch = s.batch
  links : t.links = s.links
  files : ∀ x ∈ s.files, x ∈ t.files
  items : t.failed = false → ∀ f ∈ items, ∃ x ∈ t.files, joinUnder n.path f.name = some x.src ∧
    entryDst r n f.name = some x.dst ∧ x.srcSt = f.st

theorem flushFile_spec (r : Roots) (n : DirWalk.Node) (s : Copy) (f : FileEntry) :
    Flushed r n [f] s (flushFile r n s f) := by
  unfold flushFile
  split
  · rename_i srcPath dstPath hsrc hdst
    refine ⟨id, rfl, rfl, rfl, rfl, fun x hx => List.mem_append_left _ hx, fun _ g hg => ?_⟩
    obtain rfl := List.mem_singleton.mp hg
    exact ⟨_, List.mem_append_right _ List.mem_cons_self, hsrc, hdst, rfl⟩
  · exact ⟨nofun, rfl, rfl, rfl, rfl, fun _ => id, nofun⟩

theorem flushFiles_spec (r : Roots) (n : DirWalk.Node) (items : List FileEntry) (s : Copy) :
    Flushed r n items s (items.foldl (flushFile r n) s) := by
  induction items generalizing s with
  | nil =>
    exact ⟨id, rfl, rfl, rfl, rfl, fun _ => id, fun _ _ h => (List.not_mem_nil h).elim⟩
  | cons f items ih =>
    have hfirst := flushFile_spec r n s f
    have hrest := ih (flushFile r n s f)
    refine ⟨fun h => hfirst.sound (hrest.sound h), hrest.dirs.trans hfirst.dirs,
      hrest.symlinks.trans hfirst.symlinks, hrest.batch.trans hfirst.batch,
      hrest.links.trans hfirst.links, fun x hx => hrest.files x (hfirst.files x hx), ?_⟩
    intro hok g hg
    rcases List.mem_cons.mp hg with rfl | hg
    · obtain ⟨x, hx, hspec⟩ := hfirst.items (hrest.sound hok) g List.mem_cons_self
      exact ⟨x, hrest.files x hx, hspec⟩
    · exact hrest.items hok g hg

theorem flushFileBatch_spec (r : Roots) (s : Copy) (n : DirWalk.Node) :
    Grows r s (flushFileBatch r s n) ∧
      (flushFileBatch r s n).batch = Function.update s.batch n [] ∧
      (flushFileBatch r s n).links = s.links := by
  have hspec := flushFiles_spec r n (s.batch n) { s with batch := Function.update s.batch n [] }
  refine ⟨⟨hspec.sound, fun x hx => by rwa [flushFileBatch, hspec.dirs],
    fun x hx => by rwa [flushFileBatch, hspec.symlinks], ?_⟩, hspec.batch, hspec.links⟩
  rintro hok m f (hf | ⟨x, hx, hjoins⟩)
  · by_cases hmn : m = n
    · subst hmn
      exact .inr (hspec.items hok f hf)
    · refine .inl ?_
      rw [flushFileBatch, hspec.batch]
      dsimp only
      rwa [Function.update_of_ne hmn]
  · exact .inr ⟨x, hspec.files x hx, hjoins⟩

theorem batchFile_spec (r : Roots) (s : Copy) (n : DirWalk.Node) (f : FileEntry) :
    Grows r s (batchFile r s n f) ∧ (batchFile r s n f).links = s.links ∧
      (∀ m, m ≠ n → (batchFile r s n f).batch m = s.batch m) ∧
      ((batchFile r s n f).failed = false → Held r (batchFile r s n f) n f) := by
  let added : Copy := { s with batch := Function.update s.batch n (s.batch n ++ [f]) }
  have hadded : Grows r s added := by
    refine ⟨id, fun _ => id, fun _ => id, fun _ m g hg => hg.imp ?_ id⟩
    intro hg
    by_cases hmn : m = n
    · subst hmn
      simpa [added] using Or.inl hg
    · simpa [added, Function.update_of_ne hmn] using hg
  have hheld : Held r added n f := .inl (by simp [added])
  have hother : ∀ m, m ≠ n → added.batch m = s.batch m := fun m hmn =>
    Function.update_of_ne hmn _ _
  have hbatch : batchFile r s n f =
      if (added.batch n).length = fileStatBatch then flushFileBatch r added n else added := rfl
  rw [hbatch]
  split
  · obtain ⟨hgrows, hempty, hlinks⟩ := flushFileBatch_spec r added n
    refine ⟨hadded.trans hgrows, hlinks, ?_, fun hok => hgrows.held hok n f hheld⟩
    intro m hmn
    rw [hempty, Function.update_of_ne hmn, hother m hmn]
  · exact ⟨hadded, rfl, hother, fun _ => hheld⟩

/-- The file that a destination name stands for, and its `struct stat`. -/
def Kept (r : Roots) (s : Copy) (dst : Bytes) (st : SourceStat) : Prop :=
  ∃ n f, entryDst r n f.name = some dst ∧ f.st = st ∧ Held r s n f

theorem Kept.grows (h : Kept r s dst st) (hg : Grows r s t) (hok : t.failed = false) :
    Kept r t dst st := by
  obtain ⟨n, f, hdst, hst, hheld⟩ := h
  exact ⟨n, f, hdst, hst, hg.held hok n f hheld⟩

/-- The objects that were noted have their first names among the files, and so have the jobs. -/
structure Linked (o : Options) (r : Roots) (src : Source) (s : Copy) : Prop where
  firsts : ∃ before, s.links.Knows before ∧ ∀ id first, firstOf before id = some first →
    Kept r s first.dst (o.override (src.statOf id))
  jobs : ∀ j ∈ s.links.jobs, ∃ st, j.attr = st.attr ∧ Kept r s j.primary st

theorem Linked.start (o : Options) (r : Roots) (src : Source) : Linked o r src .start :=
  ⟨⟨[], .empty, fun _ _ h => (Option.some_ne_none _ h.symm).elim⟩,
    fun _ h => (List.not_mem_nil h).elim⟩

theorem Linked.grows (h : Linked o r src s) (hg : Grows r s t) (hok : t.failed = false)
    (hlinks : t.links = s.links) : Linked o r src t := by
  obtain ⟨⟨before, hknows, hfirst⟩, hjobs⟩ := h
  refine ⟨⟨before, hlinks ▸ hknows, fun id first hid => (hfirst id first hid).grows hg hok⟩, ?_⟩
  intro j hj
  obtain ⟨st, hattr, hkept⟩ := hjobs j (hlinks ▸ hj)
  exact ⟨st, hattr, hkept.grows hg hok⟩

/-- The file is held, or its name is to become a link to the name of one that is. -/
def Noted (r : Roots) (s : Copy) (n : DirWalk.Node) (f : FileEntry) : Prop :=
  Held r s n f ∨ ∃ j ∈ s.links.jobs, entryDst r n f.name = some j.link ∧ j.attr = f.st.attr ∧
    Kept r s j.primary f.st

/-- What a callback about `n` does when nothing fails. -/
structure Does (o : Options) (r : Roots) (src : Source) (n : DirWalk.Node) (s t : Copy) : Prop where
  grows : Grows r s t
  linked : Linked o r src t
  jobs : ∀ j ∈ s.links.jobs, j ∈ t.links.jobs
  others : ∀ m, m ≠ n → t.batch m = s.batch m

theorem Does.same (hs : Linked o r src s) (n : DirWalk.Node) : Does o r src n s s :=
  ⟨.refl s, hs, fun _ => id, fun _ _ => rfl⟩

theorem flushFileBatch_does (hs : Linked o r src s)
    (hok : (flushFileBatch r s n).failed = false) :
    Does o r src n s (flushFileBatch r s n) := by
  obtain ⟨hgrows, hbatch, hlinks⟩ := flushFileBatch_spec r s n
  refine ⟨hgrows, hs.grows hgrows hok hlinks, fun j hj => by rwa [hlinks], ?_⟩
  intro m hmn
  rw [hbatch, Function.update_of_ne hmn]

theorem batchFile_does (hs : Linked o r src s) (hok : (batchFile r s n f).failed = false) :
    Does o r src n s (batchFile r s n f) ∧ Noted r (batchFile r s n f) n f := by
  obtain ⟨hgrows, hlinks, hothers, hheld⟩ := batchFile_spec r s n f
  exact ⟨⟨hgrows, hs.grows hgrows hok hlinks, fun j hj => by rwa [hlinks], hothers⟩,
    .inl (hheld hok)⟩

theorem Source.statOf_inode (src : Source) (path : Bytes) :
    src.statOf (src.lstat path).inode = src.lstat path := by
  rw [src.inode_lstat]
  rfl

/-- What holds of the first sightings before a call and of a call that is a first one. -/
theorem firstOf_append_cases {before : List Sighting} {c : Sighting} {P : Inode → Sighting → Prop}
    (h : ∀ id b, firstOf before id = some b → P id b)
    (hnew : firstOf before c.inode = none → P c.inode c) (id : Inode) (b : Sighting)
    (hb : firstOf (before ++ [c]) id = some b) : P id b := by
  rw [firstOf_append] at hb
  cases hid : firstOf before id with
  | some first =>
    rw [hid, Option.some_or] at hb
    exact h id b (hid.trans hb)
  | none =>
    rw [hid, Option.none_or, Option.ite_none_right_eq_some] at hb
    obtain ⟨rfl, hb⟩ := hb
    obtain rfl := Option.some.inj hb
    exact hnew hid

/-- The call about a file, as the registry takes it. -/
def sightingOf (f : FileEntry) (dst : Bytes) : Sighting := ⟨⟨f.st.dev, f.st.ino, f.st.attr⟩, dst⟩

section Notes
variable {links : Registry} {before : List Sighting} {dst : Bytes}

/-- The file is another name of an object that was seen. -/
theorem secondary_does (hs : Linked o r src s) (hok : s.failed = false)
    (hfirst : ∀ id first, firstOf before id = some first →
      Kept r s first.dst (o.override (src.statOf id)))
    (hobject : o.override (src.statOf (sightingOf f dst).inode) = f.st)
    (hdst : entryDst r n f.name = some dst)
    (hnote : HardLinks.Noted s.links before (sightingOf f dst) (.secondary, links)) :
    Does o r src n s { s with links := links } ∧ Noted r { s with links := links } n f := by
  obtain ⟨hresult, hnew, hknows⟩ := hnote
  obtain ⟨first, hsome⟩ : ∃ first, firstOf before (sightingOf f dst).inode = some first := by
    rw [← Option.isSome_iff_exists, firstOf_isSome]
    by_contra hnone
    rw [resultAfter, if_neg hnone] at hresult
    cases hresult
  rw [jobAfter, hsome] at hnew
  change links.jobs = s.links.jobs ++ [⟨first.dst, dst, f.st.attr⟩] at hnew
  have hgrows : Grows r s { s with links := links } := .withLinks s links
  have hkept : Kept r { s with links := links } first.dst f.st :=
    (hobject ▸ hfirst _ first hsome).grows hgrows hok
  refine ⟨⟨hgrows, ⟨⟨_, hknows, ?_⟩, ?_⟩, ?_, fun _ _ => rfl⟩,
    .inr ⟨⟨first.dst, dst, f.st.attr⟩, ?_, hdst, rfl, hkept⟩⟩
  · refine firstOf_append_cases (fun id b hb => (hfirst id b hb).grows hgrows hok) ?_
    intro hnone
    rw [hsome] at hnone
    cases hnone
  · intro j hj
    rw [hnew, List.mem_append, List.mem_singleton] at hj
    rcases hj with hj | rfl
    · obtain ⟨st, hattr, hj⟩ := hs.jobs j hj
      exact ⟨st, hattr, hj.grows hgrows hok⟩
    · exact ⟨f.st, rfl, hkept⟩
  · intro j hj
    rw [hnew]
    exact List.mem_append_left _ hj
  · rw [hnew]
    exact List.mem_append_right _ List.mem_cons_self

/-- The file is the first name of an object. -/
theorem primary_does (hs : Linked o r src s)
    (hok : (batchFile r { s with links := links } n f).failed = false)
    (hfirst : ∀ id first, firstOf before id = some first →
      Kept r s first.dst (o.override (src.statOf id)))
    (hobject : o.override (src.statOf (sightingOf f dst).inode) = f.st)
    (hdst : entryDst r n f.name = some dst)
    (hnote : HardLinks.Noted s.links before (sightingOf f dst) (.primary, links)) :
    Does o r src n s (batchFile r { s with links := links } n f) ∧
      Noted r (batchFile r { s with links := links } n f) n f := by
  obtain ⟨hresult, hnew, hknows⟩ := hnote
  have hnone : jobAfter before (sightingOf f dst) = none := by
    unfold jobAfter
    rw [Option.map_eq_none_iff, ← Option.not_isSome_iff_eq_none, firstOf_isSome]
    intro hsome
    rw [resultAfter, if_pos hsome] at hresult
    cases hresult
  rw [hnone] at hnew
  have hjobs : links.jobs = s.links.jobs := hnew.trans (List.append_nil _)
  obtain ⟨hbatched, hlinks, hothers, hheld⟩ := batchFile_spec r { s with links := links } n f
  have hgrows := (Grows.withLinks (r := r) s links).trans hbatched
  refine ⟨⟨hgrows, ⟨⟨_, by rwa [hlinks], ?_⟩, ?_⟩, ?_, hothers⟩, .inl (hheld hok)⟩
  · refine firstOf_append_cases (fun id b hb => (hfirst id b hb).grows hgrows hok) ?_
    intro _
    rw [hobject]
    exact ⟨n, f, hdst, rfl, hheld hok⟩
  · intro j hj
    rw [hlinks] at hj
    obtain ⟨st, hattr, hj⟩ := hs.jobs j (hjobs ▸ hj)
    exact ⟨st, hattr, hj.grows hgrows hok⟩
  · intro j hj
    rw [hlinks]
    exact hjobs ▸ hj

theorem noteFile_does {mem : Memory} {path : Bytes} (hs : Linked o r src s)
    (hst : f.st = o.override (src.lstat path)) (hdst : entryDst r n f.name = some dst)
    (hok : (noteFile mem r s n f dst).failed = false) :
    Does o r src n s (noteFile mem r s n f dst) ∧ Noted r (noteFile mem r s n f dst) n f := by
  obtain ⟨before, hknows, hfirst⟩ := hs.firsts
  have hinode : (sightingOf f dst).inode = (src.lstat path).inode := by
    change f.st.inode = _
    rw [hst]
    rfl
  have hobject : o.override (src.statOf (sightingOf f dst).inode) = f.st := by
    rw [hinode, src.statOf_inode, hst]
  have hspec := hardlinksNote_spec hknows (sightingOf f dst)
  unfold noteFile at hok ⊢
  cases hout : hardlinksNote mem s.links ⟨f.st.dev, f.st.ino, f.st.attr⟩ dst with
  | mk result links =>
    rw [hout] at hok
    have henough (hne : result ≠ .error) :
        hardlinksNote .enough s.links (sightingOf f dst).st (sightingOf f dst).dst =
          (result, links) := by
      have hcalled :
          (hardlinksNote mem s.links ⟨f.st.dev, f.st.ino, f.st.attr⟩ dst).1 ≠ .error := by
        rw [hout]
        exact hne
      exact (hardlinksNote_enough hcalled).symm.trans hout
    cases result with
    | error =>
      have hfailed : true = false := (batchFile_spec r _ n f).1.sound hok
      exact Bool.noConfusion hfailed
    | secondary =>
      rw [henough nofun] at hspec
      exact secondary_does hs hok hfirst hobject hdst hspec
    | primary =>
      rw [henough nofun] at hspec
      exact primary_does hs hok hfirst hobject hdst hspec

end Notes

theorem SourceStat.type_of_isReg (h : st.isReg = true) : st.isDir = false ∧ st.isLnk = false := by
  have htype : st.fileType = 0o100000 := by simpa [Verify.LocalItem.Stat.isReg] using h
  simp [Verify.LocalItem.Stat.isDir, SourceStat.isLnk, htype]

theorem SourceStat.type_of_isLnk (h : st.isLnk = true) : st.isDir = false ∧ st.isReg = false := by
  have htype : st.fileType = 0o120000 := by simpa [SourceStat.isLnk] using h
  simp [Verify.LocalItem.Stat.isDir, Verify.LocalItem.Stat.isReg, htype]

/-- What `walk_entry` leaves of an entry: a regular file is noted, a symlink made. -/
structure Entered (r : Roots) (src : Source) (s : Copy) (n : DirWalk.Node) (name : Bytes)
    (st : SourceStat) : Prop where
  file : st.isReg = true → Noted r s n ⟨name, st⟩
  symlink : st.isLnk = true → ∃ dst, entryDst r n name = some dst ∧
    ⟨dst, src.target st.inode, st⟩ ∈ s.symlinks

theorem Entered.of_noted (h : Noted r s n ⟨name, st⟩) (hreg : st.isReg = true) :
    Entered r src s n name st where
  file _ := h
  symlink hlnk := by
    rw [(SourceStat.type_of_isReg hreg).2] at hlnk
    cases hlnk

theorem copySymlinkEntry_does (hs : Linked o r src s) (hlnk : st.isLnk = true)
    (hok : (copySymlinkEntry r src s n name st).failed = false) :
    Does o r src n s (copySymlinkEntry r src s n name st) ∧
      Entered r src (copySymlinkEntry r src s n name st) n name st := by
  unfold copySymlinkEntry at hok ⊢
  dsimp only at hok ⊢
  split at hok
  · cases hok
  rename_i hlength
  rw [if_neg hlength]
  split at hok
  · cases hok
  rename_i dst hdst
  have hgrows : Grows r s { s with symlinks := s.symlinks ++ [⟨dst, src.target st.inode, st⟩] } :=
    ⟨id, fun _ => id, fun _ hx => List.mem_append_left _ hx, fun _ _ _ => id⟩
  refine ⟨⟨hgrows, hs.grows hgrows hok rfl, fun _ => id, fun _ _ => rfl⟩, ⟨fun hreg => ?_, ?_⟩⟩
  · rw [(SourceStat.type_of_isReg hreg).2] at hlnk
    cases hlnk
  · exact fun _ => ⟨dst, hdst, List.mem_append_right _ List.mem_cons_self⟩

/-- `walk_entry` passes an entry by, makes a symlink, or takes a regular file down. -/
theorem walkEntry_does (hs : Linked o r src s)
    (hok : (walkEntry o r src mem s n name).failed = false) :
    Does o r src n s (walkEntry o r src mem s n name) ∧
      Entered r src (walkEntry o r src mem s n name) n name
        (o.override (src.lstat (childPath n.path name))) := by
  unfold walkEntry at hok ⊢
  dsimp only at hok ⊢
  generalize hst : o.override (src.lstat (childPath n.path name)) = st at hok ⊢
  split at hok
  · rename_i hdir
    rw [if_pos hdir]
    refine ⟨.same hs n, ⟨fun hreg => ?_, fun hlnk => ?_⟩⟩
    · rw [(SourceStat.type_of_isReg hreg).1] at hdir
      cases hdir
    · rw [(SourceStat.type_of_isLnk hlnk).1] at hdir
      cases hdir
  rename_i hdir
  rw [if_neg hdir]
  split at hok
  · rename_i hlnk
    rw [if_pos hlnk]
    exact copySymlinkEntry_does hs hlnk hok
  rename_i hlnk
  rw [if_neg hlnk]
  split at hok
  · rename_i hother
    rw [if_pos hother]
    refine ⟨.same hs n, ⟨fun hreg => ?_, fun h => absurd h hlnk⟩⟩
    rw [hreg] at hother
    cases hother
  rename_i hreg
  have hreg : st.isReg = true := by simpa using hreg
  rw [if_neg (by simpa using hreg)]
  split at hok
  · cases hok
  rename_i hlength
  rw [if_neg hlength]
  split at hok
  · rename_i hlinks
    rw [if_pos hlinks]
    split at hok
    · cases hok
    rename_i dst hdst
    obtain ⟨hdoes, hnoted⟩ := noteFile_does hs hst.symm hdst hok
    exact ⟨hdoes, .of_noted hnoted hreg⟩
  · rename_i hlinks
    rw [if_neg hlinks]
    obtain ⟨hdoes, hnoted⟩ := batchFile_does hs hok
    exact ⟨hdoes, .of_noted hnoted hreg⟩

/-- The walker or a callback has failed. -/
def Fails : DirWalk.Event → Prop
  | .begun _ ok => ok = false
  | .ended _ ok => ok = false
  | .openFailed _ => True
  | .error _ => True
  | .entry _ _ _ _ _ => False

/-- What is known when nothing has failed so far. -/
structure Known (o : Options) (r : Roots) (src : Source) (log : List DirWalk.Event) (s : Copy) :
    Prop where
  linked : Linked o r src s
  sound : ∀ ev ∈ log, ¬ Fails ev
  dirs : ∀ n, .begun n true ∈ log → ∃ dst, dstPathFor r n.path pathMax = some dst ∧
    ⟨n.path, dst, o.override (src.lstat n.path), n.depth⟩ ∈ s.dirs
  entries : ∀ n e withStat descend child, .entry n e withStat descend child ∈ log →
    Entered r src s n e.name (o.override (src.lstat (childPath n.path e.name)))
  batches : ∀ n, s.batch n = [] ∨
    ∃ ev, (history log n).getLast? = some ev ∧ ∀ ok, ev ≠ .ended n ok

theorem Known.start (o : Options) (r : Roots) (src : Source) : Known o r src [] .start where
  linked := .start o r src
  sound _ h := (List.not_mem_nil h).elim
  dirs _ h := (List.not_mem_nil h).elim
  entries _ _ _ _ _ h := (List.not_mem_nil h).elim
  batches _ := .inl rfl

theorem Noted.does {f : FileEntry} (h : Noted r s m f) (hd : Does o r src n s t)
    (hok : t.failed = false) : Noted r t m f := by
  rcases h with h | ⟨j, hj, hlink, hattr, hkept⟩
  · exact .inl (hd.grows.held hok m f h)
  · exact .inr ⟨j, hd.jobs j hj, hlink, hattr, hkept.grows hd.grows hok⟩

theorem Entered.does (h : Entered r src s m name st) (hd : Does o r src n s t)
    (hok : t.failed = false) : Entered r src t m name st where
  file hreg := (h.file hreg).does hd hok
  symlink hlnk := by
    obtain ⟨dst, hdst, hmem⟩ := h.symlink hlnk
    exact ⟨dst, hdst, hd.grows.symlinks _ hmem⟩

/-- One more callback about `n`, with what it writes down itself. -/
theorem Known.append {log : List DirWalk.Event} {ev : DirWalk.Event} (h : Known o r src log s)
    (hd : Does o r src n s t) (hok : t.failed = false) (hnode : ev.node = some n)
    (hsound : ¬ Fails ev)
    (hdir : ev = .begun n true → ∃ dst, dstPathFor r n.path pathMax = some dst ∧
      ⟨n.path, dst, o.override (src.lstat n.path), n.depth⟩ ∈ t.dirs)
    (hentry : ∀ e withStat descend child, ev = .entry n e withStat descend child →
      Entered r src t n e.name (o.override (src.lstat (childPath n.path e.name))))
    (hbatch : (∃ ok, ev = .ended n ok) → t.batch n = []) : Known o r src (log ++ [ev]) t where
  linked := hd.linked
  sound e he := by
    rcases List.mem_append.mp he with he | he
    · exact h.sound e he
    · rwa [List.mem_singleton.mp he]
  dirs m hm := by
    rcases List.mem_append.mp hm with hm | hm
    · obtain ⟨dst, hdst, hmem⟩ := h.dirs m hm
      exact ⟨dst, hdst, hd.grows.dirs _ hmem⟩
    · have hev := (List.mem_singleton.mp hm).symm
      subst hev
      obtain rfl := Option.some.inj hnode
      exact hdir rfl
  entries m e withStat descend child hm := by
    rcases List.mem_append.mp hm with hm | hm
    · exact (h.entries m e withStat descend child hm).does hd hok
    · have hev := (List.mem_singleton.mp hm).symm
      subst hev
      obtain rfl := Option.some.inj hnode
      exact hentry e withStat descend child rfl
  batches m := by
    by_cases hmn : m = n
    · subst hmn
      by_cases hended : ∃ ok, ev = .ended m ok
      · exact .inl (hbatch hended)
      · refine .inr ⟨ev, ?_, fun ok heq => hended ⟨ok, heq⟩⟩
        rw [DirWalk.history_append]
        simp [history, hnode]
    · have hnone : history [ev] m = [] := by
        refine DirWalk.history_eq_nil hmn ?_
        intro e he
        rw [List.mem_singleton.mp he]
        exact .inl hnode
      rw [hd.others m hmn, DirWalk.history_append, hnone, List.append_nil]
      exact h.batches m

/-- A callback that does not fail. -/
theorem Known.callback {log : List DirWalk.Event} (h : Known o r src log s) (ev : DirWalk.Event)
    (hok : (callback o r src mem s ev).failed = false) :
    Known o r src (log ++ [ev]) (callback o r src mem s ev) := by
  cases ev with
  | openFailed n => cases hok
  | error path => cases hok
  | begun n ok =>
    cases ok with
    | false => cases hok
    | true =>
      change (walkDirBegin o r src s n).failed = false at hok
      change Known o r src _ (walkDirBegin o r src s n)
      unfold walkDirBegin at hok ⊢
      split at hok
      · cases hok
      rename_i dst hdst
      let x : DirRecord := ⟨n.path, dst, o.override (src.lstat n.path), n.depth⟩
      have hgrows : Grows r s { s with dirs := s.dirs ++ [x] } :=
        ⟨id, fun _ hx => List.mem_append_left _ hx, fun _ => id, fun _ _ _ => id⟩
      refine h.append ⟨hgrows, h.linked.grows hgrows hok rfl, fun _ => id, fun _ _ => rfl⟩ hok
        rfl (fun h => Bool.noConfusion h) ?_ (fun _ _ _ _ h => DirWalk.Event.noConfusion h)
        (fun h => h.elim fun _ h => DirWalk.Event.noConfusion h)
      exact fun _ => ⟨dst, hdst, List.mem_append_right _ List.mem_cons_self⟩
  | entry n e withStat descend child =>
    obtain ⟨hdoes, hentered⟩ := walkEntry_does h.linked hok
    refine h.append hdoes hok rfl id (fun h => DirWalk.Event.noConfusion h) ?_
      (fun h => h.elim fun _ h => DirWalk.Event.noConfusion h)
    intro e' a b c heq
    cases heq
    exact hentered
  | ended n ok =>
    cases ok with
    | false =>
      have hfailed : true = false := (flushFileBatch_spec r s.fail n).1.sound hok
      exact Bool.noConfusion hfailed
    | true =>
      have hdoes := flushFileBatch_does h.linked hok
      refine h.append hdoes hok rfl (fun h => Bool.noConfusion h)
        (fun h => DirWalk.Event.noConfusion h)
        (fun _ _ _ _ h => DirWalk.Event.noConfusion h) fun _ => ?_
      change (flushFileBatch r s n).batch n = []
      rw [(flushFileBatch_spec r s n).2.1, Function.update_self]

theorem noteFile_sound {mem : Memory} (h : (noteFile mem r s n f dst).failed = false) :
    s.failed = false := by
  unfold noteFile at h
  split at h
  · exact h
  · have hfailed : true = false := (batchFile_spec r _ n f).1.sound h
    exact Bool.noConfusion hfailed
  · rename_i links _
    exact (batchFile_spec r { s with links := links } n f).1.sound h

theorem copySymlinkEntry_sound (h : (copySymlinkEntry r src s n name st).failed = false) :
    s.failed = false := by
  unfold copySymlinkEntry at h
  dsimp only at h
  split at h
  · cases h
  split at h
  · cases h
  · exact h

theorem walkEntry_sound (h : (walkEntry o r src mem s n name).failed = false) :
    s.failed = false := by
  unfold walkEntry at h
  dsimp only at h
  split at h
  · exact h
  split at h
  · exact copySymlinkEntry_sound h
  split at h
  · exact h
  split at h
  · cases h
  split at h
  · split at h
    · cases h
    · exact noteFile_sound h
  · exact (batchFile_spec r s n _).1.sound h

/-- A failure stays. -/
theorem callback_sound (ev : DirWalk.Event) (h : (callback o r src mem s ev).failed = false) :
    s.failed = false := by
  cases ev with
  | openFailed n => cases h
  | error path => cases h
  | begun n ok =>
    cases ok with
    | false => cases h
    | true =>
      change (walkDirBegin o r src s n).failed = false at h
      unfold walkDirBegin at h
      split at h
      · cases h
      · exact h
  | entry n e withStat descend child => exact walkEntry_sound h
  | ended n ok =>
    cases ok with
    | false =>
      have hfailed : true = false := (flushFileBatch_spec r s.fail n).1.sound h
      exact Bool.noConfusion hfailed
    | true => exact (flushFileBatch_spec r s n).1.sound h

theorem callbacks_known (log : List DirWalk.Event)
    (hok : (callbacks o r src mem log).failed = false) :
    Known o r src log (callbacks o r src mem log) := by
  induction log using List.reverseRecOn with
  | nil => exact .start o r src
  | append_singleton log ev ih =>
    unfold callbacks at *
    rw [List.foldl_append] at hok ⊢
    exact (ih (callback_sound ev hok)).callback ev hok

end Ecopy.Traversal
