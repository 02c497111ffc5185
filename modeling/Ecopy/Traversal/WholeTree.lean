import Ecopy.DirWalk.Reports
import Ecopy.Traversal.Origins
import Ecopy.Verify.CopiedMetadata

/-!
# The traversal takes down the tree

When a traversal is over and nothing has failed, each object that the directory streams have
shown is among the records under its destination name, and nothing else is. This holds for any
number of threads and any order of their steps.
-/
namespace Ecopy.Traversal.WholeTree
open Protocol (Bytes)
open Ecopy.Path Server
open DirWalk (announced history Reported)
open Verify.TreeWalk

/-- What the streams of the directories show: the path below the root, and the listing there. -/
inductive InTree (source : Source) (c : DirWalk.Config) : Bytes → DirWalk.Listing → Prop
  | root : InTree source c [] c.inside
  | entry {below : Bytes} {l : DirWalk.Listing} {x : DirWalk.Entry × DirWalk.Listing} :
      InTree source c below l → (source.lstat (c.root ++ below)).isDir = true → x ∈ l.entries →
      x.1.Proper → InTree source c (below ++ slash :: x.1.name) x.2

variable {o : Options} {source : Source} {c : DirWalk.Config} {dst : Bytes}
  {mem : Bytes → HardLinks.Memory} {s : DirWalk.State c} {n : DirWalk.Node}
  {below : Bytes} {l : DirWalk.Listing}

theorem InTree.suffix (h : InTree source c below l) : Suffix below := by
  induction h with
  | root => exact .inl rfl
  | entry _ _ _ _ ih => exact .inr ih.head_append

theorem shows_of_mem {path : Bytes} {x : DirWalk.Entry × DirWalk.Listing}
    (h : Shows source path l) (hx : x ∈ l.entries) :
    (x.1.stat ≠ .failed →
      (x.1.stat = .directory ↔ (source.lstat (childPath path x.1.name)).isDir = true)) ∧
      Shows source (childPath path x.1.name) x.2 := by
  induction l with
  | eof error => cases hx
  | entry e inside rest _ ih =>
    rcases List.mem_cons.mp hx with rfl | hx
    · exact ⟨h.1, h.2.1⟩
    · exact ih h.2.2 hx

/-- The object at a destination name is taken down: a directory for the end, a symlink made, a
regular file as one to copy or to link. -/
structure TakenDown (o : Options) (source : Source) (copy : Copy) (path dst : Bytes) : Prop where
  dir : (source.lstat path).isDir = true →
    ∃ x ∈ copy.dirs, x.src = path ∧ x.dst = dst ∧ x.srcSt = o.override (source.lstat path)
  symlink : (source.lstat path).isLnk = true →
    ⟨dst, source.target (source.object path), o.override (source.lstat path)⟩ ∈ copy.symlinks
  file : (source.lstat path).isReg = true →
    FileTaken copy dst (o.override (source.lstat path))

theorem override_inode (o : Options) (source : Source) (path : Bytes) :
    (o.override (source.lstat path)).inode = source.object path :=
  source.inode_lstat path

section Complete

theorem reported (h : Succeeded o source c dst mem s) : Reported c s.log := by
  obtain ⟨as, hr, hcalm⟩ := h.reached
  exact (DirWalk.reporting_of_exec hcalm hr).reported

/-- Every directory was begun. -/
theorem begun (h : Succeeded o source c dst mem s) (hn : n ∈ announced c s.log) :
    .begun n true ∈ s.log := by
  obtain ⟨-, -, evs, ok, hhistory, -⟩ := h.visit hn
  refine (mem_of_history (n := n) ?_).1
  rw [hhistory]
  exact List.mem_cons_self

/-- Every entry had its callback. -/
theorem called (h : Succeeded o source c dst mem s) (hn : n ∈ announced c s.log)
    {x : DirWalk.Entry × DirWalk.Listing} (hx : x ∈ n.inside.entries) (hproper : x.1.Proper) :
    DirWalk.Called s n x.1 x.2 := by
  have hquiet : .error n.path ∉ s.log := fun herror => h.known.sound _ herror trivial
  exact h.walk.called (reported h) h.finished (begun h hn) hquiet hx hproper

/-- A directory of the tree, with the node that stands for it. -/
def Visited (s : DirWalk.State c) (source : Source) (below : Bytes) (l : DirWalk.Listing) : Prop :=
  (source.lstat (c.root ++ below)).isDir = true →
    ∃ n ∈ announced c s.log, n.path = c.root ++ below ∧ n.inside = l

theorem takes_dir (h : Succeeded o source c dst mem s)
    (hvisited : Visited s source below l) (hdir : (source.lstat (c.root ++ below)).isDir = true) :
    ∃ x ∈ (callbacks o ⟨c.root, dst⟩ source mem s.log).dirs, x.src = c.root ++ below ∧
      x.dst = dst ++ below ∧ x.srcSt = o.override (source.lstat (c.root ++ below)) := by
  obtain ⟨n, hn, hpath, -⟩ := hvisited hdir
  obtain ⟨out, hout, hrecord⟩ := h.known.dirs n (begun h hn)
  rw [hpath] at hout hrecord
  obtain ⟨rfl, -⟩ := dstPathFor_append c.root dst below hout
  exact ⟨_, hrecord, rfl, rfl, rfl⟩

theorem joinUnder_append (h : Apart c.root dst) {name path : Bytes}
    (hjoin : joinUnder (dst ++ below) name = some path) :
    path = dst ++ (below ++ slash :: name) := by
  rw [childPath_of_joinUnder hjoin, childPath_append h.symm]

/-- An entry of a directory that was visited. -/
theorem takes_entry (h : Succeeded o source c dst mem s) (hn : n ∈ announced c s.log)
    (hpath : n.path = c.root ++ below) {x : DirWalk.Entry × DirWalk.Listing}
    (hx : x ∈ n.inside.entries) (hproper : x.1.Proper) :
    ((source.lstat (c.root ++ (below ++ slash :: x.1.name))).isLnk = true →
        ⟨dst ++ (below ++ slash :: x.1.name),
          source.target (source.object (c.root ++ (below ++ slash :: x.1.name))),
          o.override (source.lstat (c.root ++ (below ++ slash :: x.1.name)))⟩ ∈
        (callbacks o ⟨c.root, dst⟩ source mem s.log).symlinks) ∧
      ((source.lstat (c.root ++ (below ++ slash :: x.1.name))).isReg = true →
        FileTaken (callbacks o ⟨c.root, dst⟩ source mem s.log) (dst ++ (below ++ slash :: x.1.name))
          (o.override (source.lstat (c.root ++ (below ++ slash :: x.1.name))))) := by
  obtain ⟨withStat, descend, child, -, hev, -⟩ := called h hn hx hproper
  have hentered := h.known.entries n x.1 withStat descend child hev
  have hchild : childPath n.path x.1.name = c.root ++ (below ++ slash :: x.1.name) := by
    rw [hpath, childPath_append h.apart]
  rw [hchild] at hentered
  constructor
  · intro hlnk
    obtain ⟨out, hout, hrecord⟩ := hentered.symlink hlnk
    obtain rfl := joinUnder_append h.apart (entryDst_append hpath hout)
    rwa [override_inode] at hrecord
  · intro hreg
    obtain ⟨out, hout, htaken⟩ := h.noted (hentered.file hreg)
    obtain rfl := joinUnder_append h.apart (entryDst_append hpath hout)
    exact htaken

/-- An entry that is a directory has a node of its own. -/
theorem visits_entry (h : Succeeded o source c dst mem s) (hn : n ∈ announced c s.log)
    (hsuffix : Suffix below) (hpath : n.path = c.root ++ below)
    (hshows : Shows source n.path n.inside) {x : DirWalk.Entry × DirWalk.Listing}
    (hx : x ∈ n.inside.entries) (hproper : x.1.Proper) :
    Visited s source (below ++ slash :: x.1.name) x.2 := by
  intro hdir
  obtain ⟨withStat, descend, child, hcalls, hev, hnode⟩ := called h hn hx hproper
  have hchild : childPath n.path x.1.name = c.root ++ (below ++ slash :: x.1.name) := by
    rw [hpath, childPath_append h.apart]
  rw [delivers_eq h.eager, Option.ite_none_left_eq_some] at hcalls
  obtain ⟨hfound, hcalls⟩ := hcalls
  have hstat : x.1.stat ≠ .failed := fun hfailed => hfound (.inr (.inr hfailed))
  have hdirectory := ((shows_of_mem hshows hx).1 hstat).mpr (by rw [hchild]; exact hdir)
  have hdescends : DirWalk.descends c x.1 = true := by
    have hdelivers : DirWalk.delivers c x.1 = some true := by
      rw [delivers_eq h.eager, if_neg hfound]
    simp [DirWalk.descends, hdelivers, hdirectory]
  have hwanted : descend = true := by
    rw [h.answered n x.1 withStat descend child hev]
    unfold walkEntryDescends
    rw [hchild]
    change ((source.lstat (c.root ++ (below ++ slash :: x.1.name))).isDir && _) = true
    rw [hdir, Bool.true_and]
    split
    · rename_i path hjoin
      rw [childPath_of_joinUnder hjoin, hchild, h.apart.not_under hsuffix.head_append]
      rfl
    · rfl
  obtain ⟨id, path, -, hannounced, hjoin⟩ := hnode hwanted hdescends
  refine ⟨_, hannounced, ?_, rfl⟩
  change path = _
  rw [childPath_of_joinUnder hjoin, hchild]

/-- Down to an object of the tree: what the streams show there, and its node if it is a
directory. -/
theorem visited_of_inTree (h : Succeeded o source c dst mem s) (ht : InTree source c below l) :
    Visited s source below l ∧ Shows source (c.root ++ below) l := by
  induction ht with
  | root =>
    refine ⟨fun _ => ⟨c.rootNode, List.mem_cons_self, (List.append_nil _).symm, rfl⟩, ?_⟩
    rw [List.append_nil]
    exact h.shows
  | entry ht hdir hx hproper ih =>
    obtain ⟨hvisited, hshows⟩ := ih
    obtain ⟨n, hn, hpath, rfl⟩ := hvisited hdir
    rw [← hpath] at hshows
    refine ⟨visits_entry h hn ht.suffix hpath hshows hx hproper, ?_⟩
    have hbelow := (shows_of_mem hshows hx).2
    rwa [hpath, childPath_append h.apart] at hbelow

/-- Every object of the tree is taken down under its name at the destination. -/
theorem takenDown_of_inTree (h : Succeeded o source c dst mem s) (ht : InTree source c below l) :
    TakenDown o source (callbacks o ⟨c.root, dst⟩ source mem s.log) (c.root ++ below)
      (dst ++ below) := by
  have hdir := takes_dir h (visited_of_inTree h ht).1
  cases ht with
  | root =>
    refine ⟨hdir, fun hlnk => ?_, fun hreg => ?_⟩
    · rw [List.append_nil] at hlnk
      exact (Bool.false_ne_true ((SourceStat.type_of_isLnk hlnk).1.symm.trans h.rootDir)).elim
    · rw [List.append_nil] at hreg
      exact (Bool.false_ne_true ((isReg_eq_false h.rootDir).symm.trans hreg)).elim
  | entry ht hparent hx hproper =>
    obtain ⟨n, hn, hpath, rfl⟩ := (visited_of_inTree h ht).1 hparent
    obtain ⟨hlnk, hreg⟩ := takes_entry h hn hpath hx hproper
    exact ⟨hdir, hlnk, hreg⟩

end Complete

section Sound

/-- A callback of `entry` was about an entry of its directory. -/
theorem entry_of_callback (h : Succeeded o source c dst mem s) {e : DirWalk.Entry}
    {withStat descend : Bool} {child : Option DirWalk.Node}
    (hev : .entry n e withStat descend child ∈ s.log) : n ∈ announced c s.log ∧
      ∃ inside, (e, inside) ∈ n.inside.entries ∧ DirWalk.delivers c e = some withStat ∧
        DirWalk.Queued c n e inside descend child := by
  have hn := h.walk.settled.ordered.mem_announced hev rfl
  obtain ⟨-, -, evs, ok, hhistory, hdelivered⟩ := h.visit hn
  have hmem : .entry n e withStat descend child ∈ history s.log n :=
    List.mem_filter.mpr ⟨hev, by simp [DirWalk.Event.node]⟩
  rw [hhistory] at hmem
  simp only [List.mem_cons, reduceCtorEq, List.mem_append, List.not_mem_nil, or_false,
    false_or] at hmem
  exact ⟨hn, hdelivered.mem_entries hmem⟩

theorem proper_of_delivers {e : DirWalk.Entry} {withStat : Bool}
    (h : DirWalk.delivers c e = some withStat) : e.Proper := by
  unfold DirWalk.delivers at h
  rw [Option.ite_none_left_eq_some] at h
  exact not_or.mp h.1

/-- The node stands for a directory of the tree. -/
def Stands (source : Source) (n : DirWalk.Node) : Prop :=
  ∃ below, n.path = c.root ++ below ∧ InTree source c below n.inside ∧
    (source.lstat (c.root ++ below)).isDir = true

/-- The node that an entry was given stands for the entry. -/
theorem stands_child (h : Succeeded o source c dst mem s) (hn : Stands (c := c) source n)
    {e : DirWalk.Entry} {withStat descend : Bool} {m : DirWalk.Node}
    (hev : .entry n e withStat descend (some m) ∈ s.log) : Stands (c := c) source m := by
  obtain ⟨below, hpath, ht, hdir⟩ := hn
  obtain ⟨-, inside, hx, hcalls, -, hdescends, id, path, hjoin, rfl⟩ := entry_of_callback h hev
  have hshows := (visited_of_inTree h ht).2
  have hchild : path = c.root ++ (below ++ slash :: e.name) := by
    rw [childPath_of_joinUnder hjoin, hpath, childPath_append h.apart]
  refine ⟨below ++ slash :: e.name, hchild, .entry ht hdir hx (proper_of_delivers hcalls), ?_⟩
  have hstat : e.stat = .directory := by
    unfold DirWalk.descends at hdescends
    rw [Bool.and_eq_true, decide_eq_true_eq, decide_eq_true_eq] at hdescends
    exact hdescends.2
  have hshown := (shows_of_mem hshows hx).1 (by simp [hstat])
  rw [childPath_append h.apart] at hshown
  exact hshown.mp hstat

theorem stands_of_announced (h : Succeeded o source c dst mem s) (k : ℕ) :
    ∀ n ∈ announced c (s.log.take k), Stands (c := c) source n := by
  induction k with
  | zero =>
    intro n hn
    obtain rfl : n = c.rootNode := List.mem_singleton.mp hn
    refine ⟨[], (List.append_nil _).symm, .root, ?_⟩
    rw [List.append_nil]
    exact h.rootDir
  | succ k ih =>
    intro n hn
    rw [List.take_add_one, DirWalk.announced_append, List.mem_append] at hn
    rcases hn with hn | hn
    · exact ih n hn
    · obtain ⟨ev, hev, hchild⟩ := List.mem_filterMap.mp hn
      rw [Option.mem_toList] at hev
      cases ev with
      | entry m e withStat descend child =>
        obtain rfl : child = some n := hchild
        have hm := h.walk.settled.ordered k _ m hev rfl
        exact stands_child h (ih m hm) (List.mem_of_getElem? hev)
      | _ => cases hchild

theorem stands (h : Succeeded o source c dst mem s) (hn : n ∈ announced c s.log) :
    Stands (c := c) source n := by
  refine stands_of_announced h s.log.length n ?_
  rwa [List.take_length]

/-- An entry that was met is an object of the tree; its path and its destination name. -/
theorem inTree_of_met (h : Succeeded o source c dst mem s) {name : Bytes}
    (hmet : Met s.log n name) :
    ∃ below l, InTree source c below l ∧ childPath n.path name = c.root ++ below ∧
      ∀ out, entryDst ⟨c.root, dst⟩ n name = some out → out = dst ++ below := by
  obtain ⟨e, withStat, descend, child, hev, rfl⟩ := hmet
  obtain ⟨hn, inside, hx, hcalls, -⟩ := entry_of_callback h hev
  obtain ⟨below, hpath, ht, hdir⟩ := stands h hn
  refine ⟨below ++ slash :: e.name, inside, .entry ht hdir hx (proper_of_delivers hcalls), ?_, ?_⟩
  · rw [hpath, childPath_append h.apart]
  · intro out hout
    exact joinUnder_append h.apart (entryDst_append hpath hout)

end Sound

/-- A file that was copied is one of the tree. -/
theorem file_of_record (h : Succeeded o source c dst mem s) {x : FileRecord}
    (hx : x ∈ (callbacks o ⟨c.root, dst⟩ source mem s.log).files) :
    ∃ below l, InTree source c below l ∧ (source.lstat (c.root ++ below)).isReg = true ∧
      x.src = c.root ++ below ∧ x.dst = dst ++ below ∧
      x.srcSt = o.override (source.lstat (c.root ++ below)) := by
  obtain ⟨n, f, hcame, hsrc, hdst, hst⟩ :=
    (sourced_callbacks o ⟨c.root, dst⟩ source mem s.log).carried.files x hx
  obtain ⟨below, l, ht, hpath, hout⟩ := inTree_of_met h hcame.met
  have hreg := hcame.isReg
  rw [hcame.st, hpath] at hreg
  refine ⟨below, l, ht, hreg, ?_, hout _ hdst, ?_⟩
  · rw [childPath_of_joinUnder hsrc, hpath]
  · rw [hst, hcame.st, hpath]

/-- The records are those of the objects of the tree. -/
structure Exactly (o : Options) (source : Source) (c : DirWalk.Config) (dst : Bytes) (copy : Copy) :
    Prop where
  all : ∀ below l, InTree source c below l →
    TakenDown o source copy (c.root ++ below) (dst ++ below)
  dirs : ∀ x ∈ copy.dirs, ∃ below l, InTree source c below l ∧
    (source.lstat (c.root ++ below)).isDir = true ∧ x.src = c.root ++ below ∧
    x.dst = dst ++ below ∧ x.srcSt = o.override (source.lstat (c.root ++ below))
  symlinks : ∀ x ∈ copy.symlinks, ∃ below l, InTree source c below l ∧
    (source.lstat (c.root ++ below)).isLnk = true ∧ x.dst = dst ++ below ∧
    x.target = source.target (source.object (c.root ++ below)) ∧
    x.srcSt = o.override (source.lstat (c.root ++ below))
  files : ∀ x ∈ copy.files, ∃ below l, InTree source c below l ∧
    (source.lstat (c.root ++ below)).isReg = true ∧ x.src = c.root ++ below ∧
    x.dst = dst ++ below ∧ x.srcSt = o.override (source.lstat (c.root ++ below))
  links : ∀ j ∈ copy.links.jobs, ∃ below l, InTree source c below l ∧
    (source.lstat (c.root ++ below)).isReg = true ∧ j.link = dst ++ below

/-- The records of a traversal without a failure are exactly those of the tree. -/
theorem traversal_exact (h : Succeeded o source c dst mem s) :
    Exactly o source c dst (callbacks o ⟨c.root, dst⟩ source mem s.log) := by
  have hsourced := sourced_callbacks o ⟨c.root, dst⟩ source mem s.log
  refine ⟨fun below l ht => takenDown_of_inTree h ht, fun x hx => ?_, fun x hx => ?_,
    fun x hx => file_of_record h hx, fun j hj => ?_⟩
  · obtain ⟨n, hbegun, hsrc, hdst, hst⟩ := hsourced.dirs x hx
    obtain ⟨below, hpath, ht, hdir⟩ :=
      stands h (h.walk.settled.ordered.mem_announced hbegun rfl)
    rw [hpath] at hsrc hdst hst
    exact ⟨below, _, ht, hdir, hsrc, (dstPathFor_append c.root dst below hdst).1, hst⟩
  · obtain ⟨n, name, hmet, hdst, hst, hlnk, htarget⟩ := hsourced.symlinks x hx
    obtain ⟨below, l, ht, hpath, hout⟩ := inTree_of_met h hmet
    rw [hst, hpath] at hlnk htarget
    rw [hpath] at hst
    refine ⟨below, l, ht, hlnk, hout _ hdst, ?_, hst⟩
    rwa [override_inode] at htarget
  · obtain ⟨n, f, hcame, hlink⟩ := hsourced.jobs j hj
    obtain ⟨below, l, ht, hpath, hout⟩ := inTree_of_met h hcame.met
    have hreg := hcame.isReg
    rw [hcame.st, hpath] at hreg
    exact ⟨below, l, ht, hreg, hout _ hlink⟩

theorem traversal_exact_small :
    Exactly keepOwner smallSource small [47, 100]
      (callbacks keepOwner ⟨small.root, [47, 100]⟩ smallSource enough smallEnd.log) :=
  traversal_exact (small_succeeded (.inl rfl))

end Ecopy.Traversal.WholeTree
