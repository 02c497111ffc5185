import Ecopy.Traversal.Recorded
import Ecopy.Verify.TreeWalk

/-!
# Verify-only after a copy

The walk of verify-only comes to the files and directories that the traversal has written
down, under the same destination names. What it expects of them is the `struct stat` of the
source; what the copy has asked for is that `struct stat` with the owner of `--uid` and
`--gid`. With effective user 0 a difference is a mismatch, except under the test hook.

That a metadata operation took effect means that the object has what was asked for when
verify-only looks at it.
-/
namespace Ecopy.Verify.TreeWalk
open Protocol (Bytes)
open Ecopy.Path Server LocalItem Traversal
open Lib.Runs
open DirWalk (announced history Delivered Visit)

theorem joinChildPath_eq (parent name : Bytes) :
    joinChildPath parent name = joinUnder parent name := by
  unfold joinChildPath joinUnder pathJoinFast
  by_cases hroot : parent = [slash]
  · subst hroot
    simp only [if_true, List.append_nil, List.length_append, List.length_cons, List.length_nil]
    split_ifs <;> first | rfl | omega
  · simp only [if_neg hroot, List.length_append, List.length_cons, List.length_nil]
    split_ifs <;> first | omega | simp

theorem childPath_of_joinUnder {parent name child : Bytes}
    (h : joinUnder parent name = some child) : child = childPath parent name := by
  unfold joinUnder pathJoinFast at h
  rw [Option.ite_none_left_eq_some] at h
  exact (Option.some.inj h.2).symm

section Roots
variable {src dst : Bytes}

/-- The roots of a local copy: absolute, and neither within the other. -/
structure Apart (src dst : Bytes) : Prop where
  src_head : src.head? = some slash
  dst_head : dst.head? = some slash
  admitted : admits false src dst = true

theorem Apart.overlap (h : Apart src dst) :
    isSameOrChildPath src dst = false ∧ isSameOrChildPath dst src = false := by
  have hadmit := h.admitted
  unfold admits at hadmit
  rwa [Bool.false_or, Bool.not_eq_true', Bool.or_eq_false_iff] at hadmit

theorem Apart.symm (h : Apart src dst) : Apart dst src where
  src_head := h.dst_head
  dst_head := h.src_head
  admitted := by
    obtain ⟨hsrc, hdst⟩ := h.overlap
    simp [admits, hsrc, hdst]

theorem Apart.ne_slash (h : Apart src dst) : src ≠ [slash] := by
  rintro rfl
  have hover := h.overlap.1
  unfold isSameOrChildPath at hover
  rw [if_pos rfl, h.dst_head] at hover
  exact absurd hover (by decide)

/-- Below the root no path is `/`. -/
theorem Apart.append_ne_slash (h : Apart src dst) (below : Bytes) : src ++ below ≠ [slash] := by
  intro heq
  cases src with
  | nil => cases h.src_head
  | cons b src =>
    obtain ⟨rfl, hnil⟩ := List.cons.inj heq
    obtain ⟨rfl, -⟩ := List.append_eq_nil_iff.mp hnil
    exact h.ne_slash rfl

theorem childPath_append (h : Apart src dst) (below name : Bytes) :
    childPath (src ++ below) name = src ++ (below ++ slash :: name) := by
  unfold childPath
  rw [if_neg (h.append_ne_slash below), List.append_assoc]

theorem joinChildPath_append (h : Apart src dst) {below name : Bytes}
    (hlength : (src ++ (below ++ slash :: name)).length < pathMax) :
    joinChildPath (src ++ below) name = some (src ++ (below ++ slash :: name)) := by
  unfold joinChildPath
  rw [if_neg (h.append_ne_slash below)]
  have hjoined : src ++ below ++ [slash] ++ name = src ++ (below ++ slash :: name) := by simp
  rw [hjoined]
  exact if_neg (by omega)

/-- What stands behind the root in a path below it. -/
def Suffix (below : Bytes) : Prop := below = [] ∨ below.head? = some slash

theorem Suffix.head_append {below name : Bytes} (h : Suffix below) :
    (below ++ slash :: name).head? = some slash := by
  rcases h with rfl | h
  · rfl
  · rw [List.head?_append_of_ne_nil, h]
    rintro rfl
    cases h

/-- Nothing below the source is within the destination. -/
theorem Apart.not_under (h : Apart src dst) {below : Bytes} (hbelow : below.head? = some slash) :
    pathIsUnderRoot (src ++ below) dst = false := by
  obtain ⟨hsrc, hdst⟩ := h.overlap
  unfold isSameOrChildPath at hsrc hdst
  rw [if_neg h.ne_slash] at hsrc
  rw [if_neg h.symm.ne_slash] at hdst
  unfold pathIsUnderRoot
  rw [if_neg h.symm.ne_slash]
  by_contra hunder
  rw [Bool.not_eq_false, Bool.and_eq_true, List.isPrefixOf_iff_prefix] at hunder
  obtain ⟨hleading, hnext⟩ := hunder
  rcases le_total dst.length src.length with hle | hle
  · obtain ⟨more, rfl⟩ := List.prefix_of_prefix_length_le hleading (List.prefix_append src _) hle
    rw [List.append_assoc, List.drop_left] at hnext
    rw [List.isPrefixOf_iff_prefix.mpr (List.prefix_append dst more), List.drop_left] at hdst
    cases more with
    | nil => cases hdst
    | cons b more => exact (Bool.false_ne_true (hdst.symm.trans hnext)).elim
  · obtain ⟨more, rfl⟩ := List.prefix_of_prefix_length_le (List.prefix_append src _) hleading hle
    rw [List.isPrefixOf_iff_prefix.mpr (List.prefix_append src more), List.drop_left] at hsrc
    rw [List.prefix_append_right_inj] at hleading
    cases more with
    | nil => cases hsrc
    | cons b more =>
      obtain ⟨tail, rfl⟩ := hleading
      obtain rfl := Option.some.inj hbelow
      cases hsrc

end Roots

/-- A traversal of a source directory that is over, on any number of threads and in any order,
and in which nothing has failed. -/
structure Succeeded (o : Options) (source : Source) (c : DirWalk.Config) (dst : Bytes)
    (mem : Bytes → HardLinks.Memory) (s : DirWalk.State c) : Prop where
  reached : ∃ as, exec DirWalk.step (.start c) as = some s ∧ ∀ a ∈ as, a.Calm
  finished : s.Over
  apart : Apart c.root dst
  eager : c.lazyStat = false
  rootDir : (source.lstat c.root).isDir = true
  shows : Shows source c.root c.inside
  answered : Answered o ⟨c.root, dst⟩ source s.log
  sound : (callbacks o ⟨c.root, dst⟩ source mem s.log).failed = false

section Copied
variable {o : Options} {source : Source} {c : DirWalk.Config} {dst : Bytes}
  {mem : Bytes → HardLinks.Memory} {s : DirWalk.State c} {n : DirWalk.Node} {f : FileEntry}

theorem Succeeded.walk (h : Succeeded o source c dst mem s) : DirWalk.Walk s := by
  obtain ⟨as, hr, hcalm⟩ := h.reached
  exact (DirWalk.walk_of_exec hcalm hr).1

theorem Succeeded.known (h : Succeeded o source c dst mem s) :
    Known o ⟨c.root, dst⟩ source s.log (callbacks o ⟨c.root, dst⟩ source mem s.log) :=
  callbacks_known _ h.sound

theorem mem_of_history {log : List DirWalk.Event} {ev : DirWalk.Event}
    (h : ev ∈ history log n) : ev ∈ log ∧ ev.node = some n := by
  obtain ⟨hmem, hnode⟩ := List.mem_filter.mp h
  exact ⟨hmem, of_decide_eq_true hnode⟩

/-- Every directory had its whole visit. -/
theorem Succeeded.visit (h : Succeeded o source c dst mem s) (hn : n ∈ announced c s.log) :
    n.opens = true ∧ n.streams = true ∧ ∃ evs ok,
      history s.log n = .begun n true :: (evs ++ [.ended n ok]) ∧ Delivered c n n.inside evs := by
  have hsound : ∀ ev ∈ history s.log n, ¬ Fails ev := fun ev hev =>
    h.known.sound ev (mem_of_history hev).1
  have hvisit := h.walk.visit_of_over h.finished hn
  generalize hlog : history s.log n = evs at hvisit hsound
  cases hvisit with
  | refused closed => exact absurd trivial (hsound _ List.mem_cons_self)
  | skipped opens => exact absurd rfl (hsound _ List.mem_cons_self)
  | unread opens blocked => exact absurd rfl (hsound _ (List.mem_cons_of_mem _ List.mem_cons_self))
  | full opens streams evs entries => exact ⟨opens, streams, evs, _, rfl, entries⟩

/-- No batch is left. -/
theorem Succeeded.batch_eq_nil (h : Succeeded o source c dst mem s) (n : DirWalk.Node) :
    (callbacks o ⟨c.root, dst⟩ source mem s.log).batch n = [] := by
  rcases h.known.batches n with hnil | ⟨ev, hlast, hne⟩
  · exact hnil
  obtain ⟨hmem, hnode⟩ := mem_of_history (List.mem_of_getLast? hlast)
  obtain ⟨-, -, evs, ok, hhistory, -⟩ := h.visit (h.walk.settled.ordered.mem_announced hmem hnode)
  rw [hhistory, ← List.cons_append, List.getLast?_concat, Option.some.injEq] at hlast
  exact absurd hlast.symm (hne ok)

theorem Succeeded.held (h : Succeeded o source c dst mem s)
    (hf : Held ⟨c.root, dst⟩ (callbacks o ⟨c.root, dst⟩ source mem s.log) n f) :
    ∃ x ∈ (callbacks o ⟨c.root, dst⟩ source mem s.log).files,
      entryDst ⟨c.root, dst⟩ n f.name = some x.dst ∧ x.srcSt = f.st := by
  rcases hf with hf | ⟨x, hx, -, hdst, hst⟩
  · rw [h.batch_eq_nil n] at hf
    cases hf
  · exact ⟨x, hx, hdst, hst⟩

/-- The file is among those skipped or queued, or becomes a link to one that is. -/
def FileTaken (copy : Copy) (dst : Bytes) (st : SourceStat) : Prop :=
  (∃ x ∈ copy.files, x.dst = dst ∧ x.srcSt = st) ∨
    ∃ j ∈ copy.links.jobs, j.link = dst ∧ j.attr = st.attr ∧
      ∃ x ∈ copy.files, x.dst = j.primary ∧ x.srcSt = st

theorem Succeeded.noted (h : Succeeded o source c dst mem s)
    (hf : Noted ⟨c.root, dst⟩ (callbacks o ⟨c.root, dst⟩ source mem s.log) n f) :
    ∃ path, entryDst ⟨c.root, dst⟩ n f.name = some path ∧
      FileTaken (callbacks o ⟨c.root, dst⟩ source mem s.log) path f.st := by
  rcases hf with hf | ⟨j, hj, hlink, hattr, ⟨m, g, hprimary, hst, hg⟩⟩
  · obtain ⟨x, hx, hdst, hst⟩ := h.held hf
    exact ⟨x.dst, hdst, .inl ⟨x, hx, rfl, hst⟩⟩
  · obtain ⟨x, hx, hdst, hsame⟩ := h.held hg
    rw [hprimary, Option.some.injEq] at hdst
    exact ⟨j.link, hlink, .inr ⟨j, hj, rfl, hattr, x, hx, hdst.symm, hsame.trans hst⟩⟩

/-- What verify-only looks at was written down by the copy. -/
def Taken (o : Options) (source : Source) (copy : Copy) (path dst : Bytes) : Prop :=
  ((source.lstat path).isDir = true ∧
      ∃ x ∈ copy.dirs, x.dst = dst ∧ x.srcSt = o.override (source.lstat path)) ∨
    ((source.lstat path).isReg = true ∧ FileTaken copy dst (o.override (source.lstat path)))

/-- The items are those of the entries, and all of them were written down. -/
structure Covers (o : Options) (source : Source) (copy : Copy) (w : Walk) (entries : List Bytes) :
    Prop where
  items : ∀ item ∈ w.items, ∃ path dst, item = itemOf source path dst ∧ path ∈ entries ∧
    Taken o source copy path dst
  all : ∀ path ∈ entries, ∃ dst, itemOf source path dst ∈ w.items

variable {copy : Copy} {w v : Walk} {entries more : List Bytes} {path : Bytes}

theorem Covers.nil (failed : Bool) : Covers o source copy ⟨failed, []⟩ [] := ⟨nofun, nofun⟩

theorem Covers.append (h : Covers o source copy w entries) (h' : Covers o source copy v more) :
    Covers o source copy (w.andThen v) (entries ++ more) where
  items item hitem := by
    rcases List.mem_append.mp hitem with hitem | hitem
    · obtain ⟨path, dst, heq, hpath, htaken⟩ := h.items item hitem
      exact ⟨path, dst, heq, List.mem_append_left _ hpath, htaken⟩
    · obtain ⟨path, dst, heq, hpath, htaken⟩ := h'.items item hitem
      exact ⟨path, dst, heq, List.mem_append_right _ hpath, htaken⟩
  all path hpath := by
    rcases List.mem_append.mp hpath with hpath | hpath
    · obtain ⟨dst, hitem⟩ := h.all path hpath
      exact ⟨dst, List.mem_append_left _ hitem⟩
    · obtain ⟨dst, hitem⟩ := h'.all path hpath
      exact ⟨dst, List.mem_append_right _ hitem⟩

theorem Covers.single {dst : Bytes} (h : Taken o source copy path dst) :
    Covers o source copy ⟨false, [itemOf source path dst]⟩ [path] where
  items item hitem := ⟨path, dst, List.mem_singleton.mp hitem, List.mem_cons_self, h⟩
  all p hp := by
    rw [List.mem_singleton.mp hp]
    exact ⟨dst, List.mem_cons_self⟩

theorem isReg_eq_false {st : Stat} (h : st.isDir = true) : st.isReg = false := by
  have htype : st.fileType = 0o040000 := by simpa [Stat.isDir] using h
  simp [Stat.isReg, htype]

theorem dstPathFor_append (root dst below : Bytes) {out : Bytes}
    (h : dstPathFor ⟨root, dst⟩ (root ++ below) pathMax = some out) :
    out = dst ++ below ∧ (dst ++ below).length < pathMax := by
  unfold dstPathFor at h
  rw [Option.ite_none_left_eq_some, List.drop_left] at h
  exact ⟨(Option.some.inj h.2).symm, Nat.lt_of_not_ge h.1⟩

theorem entryDst_append {root below name out : Bytes} (hn : n.path = root ++ below)
    (h : entryDst ⟨root, dst⟩ n name = some out) : joinUnder (dst ++ below) name = some out := by
  unfold entryDst at h
  obtain ⟨parent, hparent, hjoin⟩ := Option.bind_eq_some_iff.mp h
  rw [hn] at hparent
  rwa [(dstPathFor_append root dst below hparent).1] at hjoin

/-- A regular file that the traversal came to. -/
theorem Succeeded.covers_file (h : Succeeded o source c dst mem s) {below child : Bytes}
    {e : DirWalk.Entry} {withStat descend : Bool} {k : Option DirWalk.Node}
    (hn : n.path = c.root ++ below) (hev : .entry n e withStat descend k ∈ s.log)
    (hchild : joinChildPath (c.root ++ below) e.name = some child)
    (hreg : (source.lstat child).isReg = true) :
    ∃ childDst, joinChildPath (dst ++ below) e.name = some childDst ∧
      Taken o source (callbacks o ⟨c.root, dst⟩ source mem s.log) child childDst := by
  rw [joinChildPath_eq] at hchild
  have hpath : childPath n.path e.name = child := by
    rw [hn, childPath_of_joinUnder hchild]
  have hentered := h.known.entries n e withStat descend k hev
  rw [hpath] at hentered
  have hnoted := hentered.file hreg
  obtain ⟨childDst, hdst, htaken⟩ := h.noted hnoted
  refine ⟨childDst, ?_, .inr ⟨hreg, ?_⟩⟩
  · rw [joinChildPath_eq]
    exact entryDst_append hn hdst
  · exact htaken

/-- A directory that the traversal has entered. -/
theorem Succeeded.covers_dir (h : Succeeded o source c dst mem s) {below : Bytes}
    {m : DirWalk.Node} (hm : m ∈ announced c s.log) (hpath : m.path = c.root ++ below)
    (hdir : (source.lstat (c.root ++ below)).isDir = true) :
    (dst ++ below).length < pathMax ∧
      Taken o source (callbacks o ⟨c.root, dst⟩ source mem s.log) (c.root ++ below)
        (dst ++ below) := by
  obtain ⟨-, -, evs, ok, hhistory, -⟩ := h.visit hm
  have hbegun : .begun m true ∈ s.log := by
    refine (mem_of_history (n := m) ?_).1
    rw [hhistory]
    exact List.mem_cons_self
  obtain ⟨out, hout, hrecord⟩ := h.known.dirs m hbegun
  rw [hpath] at hout hrecord
  obtain ⟨rfl, hlength⟩ := dstPathFor_append c.root dst below hout
  exact ⟨hlength, .inl ⟨hdir, _, hrecord, rfl, rfl⟩⟩

theorem delivers_eq {e : DirWalk.Entry} (heager : c.lazyStat = false) :
    DirWalk.delivers c e =
      if e.name = dot ∨ e.name = dotdot ∨ e.stat = .failed then none else some true := by
  have hskip : DirWalk.skipStat c e = false := by simp [DirWalk.skipStat, heager]
  unfold DirWalk.delivers
  rw [hskip]
  by_cases hdots : e.name = dot ∨ e.name = dotdot
  · rw [if_pos hdots, if_pos (hdots.imp_right .inl)]
  · rw [if_neg hdots, if_neg Bool.false_ne_true]
    by_cases hfailed : e.stat = .failed
    · rw [if_pos hfailed, if_pos (.inr (.inr hfailed))]
    · rw [if_neg hfailed, if_neg (by tauto)]

/-- An entry that no one is told of, by the walker or by the walk of verify-only. -/
theorem covers_passed {root dst : Bytes} {e : DirWalk.Entry} {below : Bytes → Bytes → Walk}
    {entries : Bytes → List Bytes} (h : e.name = dot ∨ e.name = dotdot ∨ e.stat = .failed) :
    Covers o source copy (submitEntry source root dst e below)
      (entryBelow source root e entries) := by
  unfold submitEntry entryBelow
  rw [if_pos h]
  split
  · exact .nil _
  · split
    · rw [if_pos (by tauto)]
      exact .nil _
    · exact .nil _

/-- The callback of an entry that is a directory leads to a node, and the node to its visit. -/
theorem Succeeded.child (h : Succeeded o source c dst mem s) {below child : Bytes}
    {e : DirWalk.Entry} {inside : DirWalk.Listing} {descend : Bool} {k : Option DirWalk.Node}
    (hbelow : Suffix below) (hn : n.path = c.root ++ below)
    (hev : .entry n e true descend k ∈ s.log)
    (hcalls : DirWalk.delivers c e = some true) (hstat : e.stat = .directory)
    (hqueued : DirWalk.Queued c n e inside descend k)
    (hchild : joinChildPath (c.root ++ below) e.name = some child)
    (hdir : (source.lstat child).isDir = true) :
    ∃ id, n.child id child e inside ∈ announced c s.log := by
  rw [joinChildPath_eq] at hchild
  have hpath : child = c.root ++ (below ++ slash :: e.name) := by
    rw [childPath_of_joinUnder hchild, childPath_append h.apart]
  have hdescend : descend = true := by
    rw [h.answered n e true descend k hev, hn, ← childPath_of_joinUnder hchild]
    unfold walkEntryDescends
    rw [hn, hchild, Bool.and_eq_true]
    refine ⟨hdir, ?_⟩
    change (!pathIsUnderRoot child dst) = true
    rw [hpath, h.apart.not_under hbelow.head_append]
    rfl
  have hdescends : DirWalk.descends c e = true := by
    simp [DirWalk.descends, hcalls, hstat]
  cases k with
  | none =>
    have htooLong := hqueued hdescend hdescends
    rw [hn] at htooLong
    exact (Option.some_ne_none child (hchild.symm.trans htooLong)).elim
  | some m =>
    obtain ⟨-, -, id, path, hjoin, rfl⟩ := hqueued
    rw [hn] at hjoin
    obtain rfl : child = path := Option.some.inj (hchild.symm.trans hjoin)
    refine ⟨id, List.mem_cons_of_mem _ ?_⟩
    exact List.mem_filterMap.mpr ⟨_, hev, rfl⟩

/-- The entry that a callback was made for. -/
theorem Succeeded.covers_entry (h : Succeeded o source c dst mem s) {below : Bytes}
    {e : DirWalk.Entry} {inside : DirWalk.Listing} {descend : Bool} {k : Option DirWalk.Node}
    (hbelow : Suffix below) (hn : n.path = c.root ++ below)
    (hev : .entry n e true descend k ∈ s.log)
    (hcalls : DirWalk.delivers c e = some true)
    (hshown : e.stat = .directory ↔
      (source.lstat (childPath (c.root ++ below) e.name)).isDir = true)
    (hqueued : DirWalk.Queued c n e inside descend k)
    (hinside : ∀ m ∈ announced c s.log, m.path = c.root ++ (below ++ slash :: e.name) →
      m.inside = inside → Covers o source (callbacks o ⟨c.root, dst⟩ source mem s.log)
        (walkEntries source (c.root ++ (below ++ slash :: e.name))
          (dst ++ (below ++ slash :: e.name)) inside)
        (entriesBelow source (c.root ++ (below ++ slash :: e.name)) inside)) :
    Covers o source (callbacks o ⟨c.root, dst⟩ source mem s.log)
      (submitEntry source (c.root ++ below) (dst ++ below) e fun childSrc childDst =>
        walkEntries source childSrc childDst inside)
      (entryBelow source (c.root ++ below) e fun child => entriesBelow source child inside) := by
  have hnamed : ¬(e.name = dot ∨ e.name = dotdot ∨ e.stat = .failed) := by
    intro hpassed
    rw [delivers_eq h.eager, if_pos hpassed] at hcalls
    cases hcalls
  unfold submitEntry entryBelow
  rw [if_neg (by tauto), if_neg hnamed]
  cases hchild : joinChildPath (c.root ++ below) e.name with
  | none => exact .nil _
  | some child =>
    have hpath : child = c.root ++ (below ++ slash :: e.name) := by
      rw [joinChildPath_eq] at hchild
      rw [childPath_of_joinUnder hchild, childPath_append h.apart]
    dsimp only
    by_cases hreg : (source.lstat child).isReg = true
    · obtain ⟨childDst, hjoin, htaken⟩ := h.covers_file hn hev hchild hreg
      rw [hjoin, if_pos hreg]
      dsimp only
      unfold submit
      rw [if_neg (by tauto), if_pos hreg]
      exact .single htaken
    by_cases hdir : (source.lstat child).isDir = true
    · have hstat : e.stat = .directory := by
        rw [hshown, childPath_append h.apart, ← hpath]
        exact hdir
      obtain ⟨id, hm⟩ := h.child hbelow hn hev hcalls hstat hqueued hchild hdir
      subst hpath
      obtain ⟨hlength, htaken⟩ := h.covers_dir hm rfl hdir
      obtain ⟨hopens, hstreams, -⟩ := h.visit hm
      have hreadable : (e.opens && e.streams) = true :=
        Bool.and_eq_true_iff.mpr ⟨hopens, hstreams⟩
      rw [joinChildPath_append h.apart.symm hlength, if_neg hreg, if_pos hdir]
      dsimp only
      unfold submit
      rw [if_neg (by tauto), if_neg hreg, if_pos hdir, hreadable, if_pos rfl]
      exact (Covers.single htaken).append (hinside _ hm rfl rfl)
    · rw [if_neg hreg, if_neg hdir]
      cases joinChildPath (dst ++ below) e.name with
      | none => exact .nil _
      | some childDst =>
        dsimp only
        unfold submit
        rw [if_neg (by tauto), if_neg hreg, if_neg hdir]
        exact .nil _

/-- All that is left of a directory. -/
theorem Succeeded.covers_listing (h : Succeeded o source c dst mem s) {l : DirWalk.Listing}
    {below : Bytes} {n : DirWalk.Node} {evs : List DirWalk.Event} (hbelow : Suffix below)
    (hn : n.path = c.root ++ below) (hshows : Shows source (c.root ++ below) l)
    (hdelivered : Delivered c n l evs) (hlog : ∀ ev ∈ evs, ev ∈ s.log) :
    Covers o source (callbacks o ⟨c.root, dst⟩ source mem s.log)
      (walkEntries source (c.root ++ below) (dst ++ below) l)
      (entriesBelow source (c.root ++ below) l) := by
  induction l generalizing below n evs with
  | eof error => exact .nil _
  | entry e inside rest ihInside ihRest =>
    obtain ⟨hshown, hshowsInside, hshowsRest⟩ := hshows
    cases hdelivered with
    | pass silent rest' =>
      refine (covers_passed ?_).append (ihRest hbelow hn hshowsRest rest' hlog)
      by_contra hnamed
      rw [delivers_eq h.eager, if_neg hnamed] at silent
      cases silent
    | @call _ _ _ tail withStat calls descend k queued rest' =>
      have htail := ihRest hbelow hn hshowsRest rest' fun ev hev =>
        hlog ev (List.mem_cons_of_mem _ hev)
      refine Covers.append ?_ htail
      have hnamed : ¬(e.name = dot ∨ e.name = dotdot ∨ e.stat = .failed) := by
        intro hpassed
        rw [delivers_eq h.eager, if_pos hpassed] at calls
        cases calls
      have hstat : withStat = true := by
        rw [delivers_eq h.eager, if_neg hnamed] at calls
        exact (Option.some.inj calls).symm
      subst hstat
      have hev := hlog _ List.mem_cons_self
      have hdirectory := hshown fun hf => hnamed (.inr (.inr hf))
      refine h.covers_entry hbelow hn hev calls hdirectory queued ?_
      intro m hm hpath hinside
      obtain ⟨-, -, inner, ok, hhistory, hdelivered⟩ := h.visit hm
      rw [hinside] at hdelivered
      rw [childPath_append h.apart] at hshowsInside
      refine ihInside (.inr hbelow.head_append) hpath hshowsInside hdelivered ?_
      intro ev hev
      refine (mem_of_history (n := m) ?_).1
      rw [hhistory]
      exact List.mem_cons_of_mem _ (List.mem_append_left _ hev)

/-- The items of verify-only are those of the files and directories, all written down. -/
theorem Succeeded.covers (h : Succeeded o source c dst mem s) :
    Covers o source (callbacks o ⟨c.root, dst⟩ source mem s.log) (walkTree source c dst)
      (treeEntries source c) := by
  have hm : c.rootNode ∈ announced c s.log := List.mem_cons_self
  have hroot : c.rootNode.path = c.root ++ [] := (List.append_nil _).symm
  obtain ⟨hopens, hstreams, evs, ok, hhistory, hdelivered⟩ := h.visit hm
  have hreadable : (c.opens && c.streams) = true := Bool.and_eq_true_iff.mpr ⟨hopens, hstreams⟩
  have htaken := (h.covers_dir hm hroot (by rw [List.append_nil]; exact h.rootDir)).2
  have hbelow := h.covers_listing (.inl rfl) hroot (by rw [List.append_nil]; exact h.shows)
    hdelivered fun ev hev => by
      refine (mem_of_history (n := c.rootNode) ?_).1
      rw [hhistory]
      exact List.mem_cons_of_mem _ (List.mem_append_left _ hev)
  rw [List.append_nil, List.append_nil] at htaken hbelow
  unfold walkTree submit treeEntries
  rw [if_neg (by rw [isReg_eq_false h.rootDir]; exact Bool.false_ne_true), if_pos h.rootDir,
    if_pos hreadable]
  exact (Covers.single htaken).append hbelow

end Copied

end Ecopy.Verify.TreeWalk
