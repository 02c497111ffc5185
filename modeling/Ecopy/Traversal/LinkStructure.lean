import Ecopy.HardLinks.LinkRuns
import Ecopy.Traversal.FirstNames
import Ecopy.Traversal.WholeTree

/-!
# The hard links of the tree

After a traversal in which nothing has failed, the copy of its files and the links, two files
of the destination are one object exactly when they are one in the source.
-/
namespace Ecopy.Traversal.WholeTree
open Protocol (Bytes)
open Ecopy.Path Server HardLinks
open FileSystem Lib.Calls Lib.Fields
open Workers.Events (Event)
open Verify.TreeWalk

section Names
variable {source : Source} {c : DirWalk.Config} {below below' : Bytes} {l l' : DirWalk.Listing}

/-- The names in the directory streams are names of files. -/
def Plain : DirWalk.Listing → Prop
  | .eof _ => True
  | .entry e inside rest => (e.Proper → Ordinary e.name) ∧ Plain inside ∧ Plain rest

theorem Plain.of_mem (h : Plain l) {x : DirWalk.Entry × DirWalk.Listing} (hx : x ∈ l.entries) :
    (x.1.Proper → Ordinary x.1.name) ∧ Plain x.2 := by
  induction l with
  | eof error => cases hx
  | entry e inside rest _ ih =>
    rcases List.mem_cons.mp hx with rfl | hx
    · exact ⟨h.1, h.2.1⟩
    · exact ih h.2.2 hx

/-- A path below the root is made of the names on the way. -/
theorem InTree.names (h : InTree source c below l) (hplain : Plain c.inside) :
    Plain l ∧ ∃ cs : List Bytes, (∀ x ∈ cs, Ordinary x) ∧ below = join slash cs := by
  induction h with
  | root => exact ⟨hplain, [], fun _ h => (List.not_mem_nil h).elim, rfl⟩
  | @entry _ _ x _ _ hx hproper ih =>
    obtain ⟨hlisting, cs, hcs, rfl⟩ := ih
    obtain ⟨hname, hinside⟩ := hlisting.of_mem hx
    refine ⟨hinside, cs ++ [x.1.name], fun y hy => ?_, ?_⟩
    · rcases List.mem_append.mp hy with hy | hy
      · exact hcs y hy
      · rw [List.mem_singleton.mp hy]
        exact hname hproper
    · rw [join_append, join_cons, join_nil, List.append_nil]

theorem resolve_append_join (dst : Bytes) {cs : List Bytes} (hcs : ∀ x ∈ cs, Ordinary x) :
    resolve (dst ++ join slash cs) = resolve dst ++ cs := by
  have hfields : fields slash (dst ++ join slash cs) = fields slash dst ++ cs := by
    cases cs with
    | nil => simp
    | cons x cs =>
      have hjoin : fields slash (join slash (x :: cs)) = x :: cs :=
        fields_join fun y hy => (hcs y hy).1
      rw [join_cons, fields_sep_cons] at hjoin
      rw [join_cons, fields_append_sep, hjoin]
  rw [resolve, hfields, Fs.resolveFrom_append, resolveFrom_ordinary hcs]
  rfl

/-- The source object for a location at the destination. -/
def objectAt (source : Source) (c : DirWalk.Config) (dst : Bytes) (l : Loc) : Inode :=
  source.object (c.root ++ join slash (l.drop (resolve dst).length))

theorem InTree.objectAt_eq (h : InTree source c below l) (hplain : Plain c.inside) (dst : Bytes) :
    objectAt source c dst (resolve (dst ++ below)) = source.object (c.root ++ below) := by
  obtain ⟨-, cs, hcs, rfl⟩ := h.names hplain
  rw [objectAt, resolve_append_join dst hcs, List.drop_left]

end Names

section Replay
variable {source : Source} {c : DirWalk.Config} {dst : Bytes} {mem : Bytes → Memory}
  {t : DirWalk.State c}

/-- A file with two names in the tree has a link count that says so. -/
def LinksCounted (source : Source) (c : DirWalk.Config) : Prop :=
  ∀ below l below' l', InTree source c below l → InTree source c below' l' →
    (source.lstat (c.root ++ below)).isReg = true →
    source.object (c.root ++ below) = source.object (c.root ++ below') → below ≠ below' →
    (source.lstat (c.root ++ below)).nlink > 1

/-- Each file that was copied is there, and is an object of its own. -/
structure OwnFiles (fs : Fs) (files : List FileRecord) : Prop where
  present : ∀ x ∈ files, (fs.entry (resolve x.dst)).isSome = true
  own : ∀ x ∈ files, ∀ y ∈ files, fs.entry (resolve x.dst) = fs.entry (resolve y.dst) →
    x.dst = y.dst

/-- An object is copied under one name only. -/
theorem copied_once (h : Succeeded o source c dst mem t) (hcounted : LinksCounted source c)
    {x y : FileRecord} (hx : x ∈ (callbacks o ⟨c.root, dst⟩ source mem t.log).files)
    (hy : y ∈ (callbacks o ⟨c.root, dst⟩ source mem t.log).files)
    (hsame : x.srcSt.inode = y.srcSt.inode) : x.dst = y.dst := by
  have hregistered := registered_callbacks h.sound
  have hleads : ∀ z ∈ (callbacks o ⟨c.root, dst⟩ source mem t.log).files, z.srcSt.nlink > 1 →
      Leads (callbacks o ⟨c.root, dst⟩ source mem t.log).links z.srcSt.inode z.dst := by
    intro z hz hmore
    obtain ⟨n, f, hfirst, -, hdst, hst⟩ := hregistered.carried.files z hz
    rw [hst] at hmore ⊢
    exact hfirst hmore _ hdst
  obtain ⟨below, l, ht, hreg, -, hxdst, hxst⟩ := file_of_record h hx
  obtain ⟨below', l', ht', -, -, hydst, hyst⟩ := file_of_record h hy
  by_cases hne : below = below'
  · rw [hxdst, hydst, hne]
  · have hobject : source.object (c.root ++ below) = source.object (c.root ++ below') := by
      rwa [hxst, hyst, override_inode, override_inode] at hsame
    have hmore : x.srcSt.nlink > 1 := by
      rw [hxst]
      exact hcounted below l below' l' ht ht' hreg hobject hne
    have hmore' : y.srcSt.nlink > 1 := by
      rw [hyst]
      change (source.statOf (source.object (c.root ++ below'))).nlink > 1
      rw [← hobject]
      exact hcounted below l below' l' ht ht' hreg hobject hne
    have hlast := hleads y hy hmore'
    rw [← hsame] at hlast
    exact (hleads x hx hmore).unique hlast

/-- A link goes to the name under which its object was copied. -/
theorem job_of_tree (h : Succeeded o source c dst mem t) {j : Job}
    (hj : j ∈ (callbacks o ⟨c.root, dst⟩ source mem t.log).links.jobs) :
    ∃ below l, InTree source c below l ∧ j.link = dst ++ below ∧
      ∃ x ∈ (callbacks o ⟨c.root, dst⟩ source mem t.log).files, x.dst = j.primary ∧
        x.srcSt.inode = source.object (c.root ++ below) := by
  obtain ⟨n, f, hcame, hlink, hleads⟩ := (registered_callbacks h.sound).jobs j hj
  obtain ⟨below, l, ht, hpath, hout⟩ := inTree_of_met h hcame.met
  obtain ⟨before, hknows, hfirst⟩ := h.known.linked.firsts
  rw [leads_iff hknows] at hleads
  obtain ⟨first, hsome, hprimary⟩ := Option.map_eq_some_iff.mp hleads
  obtain ⟨m, g, hgdst, hgst, hheld⟩ := hfirst _ first hsome
  obtain ⟨x, hx, hxdst, hxst⟩ := h.held hheld
  refine ⟨below, l, ht, hout _ hlink, x, hx, ?_, ?_⟩
  · rw [hgdst, Option.some.injEq] at hxdst
    exact hxdst.symm.trans hprimary
  · rw [hxst, hgst, hcame.st, hpath, override_inode]
    exact source.named _

/-- The names of the copied files. -/
def copiedLocs (files : List FileRecord) : Set Loc := {l | ∃ x ∈ files, l = resolve x.dst}

/-- The destination name of a file of the tree was copied or linked. -/
theorem mem_reproduced (h : Succeeded o source c dst mem t) {below : Bytes} {l : DirWalk.Listing}
    (ht : InTree source c below l) (hreg : (source.lstat (c.root ++ below)).isReg = true) :
    resolve (dst ++ below) ∈ copiedLocs (callbacks o ⟨c.root, dst⟩ source mem t.log).files ∪
      linkLocs (callbacks o ⟨c.root, dst⟩ source mem t.log).links.jobs := by
  rcases (takenDown_of_inTree h ht).file hreg with ⟨x, hx, hxdst, -⟩ | ⟨j, hj, hlink, -⟩
  · exact .inl ⟨x, hx, by rw [hxdst]⟩
  · exact .inr ⟨j, hj, by rw [hlink]⟩

theorem objectAt_of_record (h : Succeeded o source c dst mem t) (hplain : Plain c.inside)
    {x : FileRecord} (hx : x ∈ (callbacks o ⟨c.root, dst⟩ source mem t.log).files) :
    objectAt source c dst (resolve x.dst) = x.srcSt.inode := by
  obtain ⟨below, l, ht, -, -, hxdst, hxst⟩ := file_of_record h hx
  rw [hxdst, ht.objectAt_eq hplain, hxst, override_inode]

/-- What holds of the copied files holds of all files once the links are made. -/
theorem reproduced (h : Succeeded o source c dst mem t) (hplain : Plain c.inside)
    (hcounted : LinksCounted source c) {who : Identity} {cfg : Workers.SmallCopy.Tuning}
    (good : Inode → Node → Prop) {w v : World} {tr : List Event} (hw : w.fs.Tree)
    (hpresent : ∀ x ∈ (callbacks o ⟨c.root, dst⟩ source mem t.log).files,
      ∃ i, w.fs.entry (resolve x.dst) = some i ∧ good x.srcSt.inode (w.fs.node i))
    (hown : ∀ x ∈ (callbacks o ⟨c.root, dst⟩ source mem t.log).files,
      ∀ y ∈ (callbacks o ⟨c.root, dst⟩ source mem t.log).files,
        w.fs.entry (resolve x.dst) = w.fs.entry (resolve y.dst) → resolve x.dst = resolve y.dst)
    (hrun : (hardlinksReplay who cfg
      (callbacks o ⟨c.root, dst⟩ source mem t.log).links.jobs).Runs (answer who) w tr v true)
    (hone : ∀ ev ∈ tr, ¬ CrossesDevices ev) :
    Reproduces v.fs (objectAt source c dst) good
      (copiedLocs (callbacks o ⟨c.root, dst⟩ source mem t.log).files ∪
        linkLocs (callbacks o ⟨c.root, dst⟩ source mem t.log).links.jobs) := by
  refine hardlinksReplay_reproduces hw hrun hone ⟨?_, ?_⟩ ?_
  · rintro _ ⟨x, hx, rfl⟩
    rw [objectAt_of_record h hplain hx]
    exact hpresent x hx
  · rintro _ ⟨x, hx, rfl⟩ _ ⟨y, hy, rfl⟩
    constructor
    · intro heq
      rw [hown x hx y hy heq]
    · intro heq
      rw [objectAt_of_record h hplain hx, objectAt_of_record h hplain hy] at heq
      rw [copied_once h hcounted hx hy heq]
  · intro j hj
    obtain ⟨below, l, ht, hlink, x, hx, hprimary, hinode⟩ := job_of_tree h hj
    refine ⟨⟨x, hx, by rw [hprimary]⟩, ?_⟩
    rw [hlink, ht.objectAt_eq hplain, ← hprimary, objectAt_of_record h hplain hx, hinode]

/-- After the links, two files of the destination are one object exactly when they are one in
the source. -/
theorem links_reproduced (h : Succeeded o source c dst mem t) (hplain : Plain c.inside)
    (hcounted : LinksCounted source c) {who : Identity} {cfg : Workers.SmallCopy.Tuning}
    {w v : World} {tr : List Event} (hw : w.fs.Tree)
    (hown : OwnFiles w.fs (callbacks o ⟨c.root, dst⟩ source mem t.log).files)
    (hrun : (hardlinksReplay who cfg
      (callbacks o ⟨c.root, dst⟩ source mem t.log).links.jobs).Runs (answer who) w tr v true)
    (hone : ∀ ev ∈ tr, ¬ CrossesDevices ev) {below below' : Bytes} {l l' : DirWalk.Listing}
    (ht : InTree source c below l) (ht' : InTree source c below' l')
    (hreg : (source.lstat (c.root ++ below)).isReg = true)
    (hreg' : (source.lstat (c.root ++ below')).isReg = true) :
    (v.fs.entry (resolve (dst ++ below))).isSome = true ∧
      (v.fs.entry (resolve (dst ++ below)) = v.fs.entry (resolve (dst ++ below')) ↔
        source.object (c.root ++ below) = source.object (c.root ++ below')) := by
  have hend := reproduced h hplain hcounted (fun _ _ => True) hw
    (fun x hx => (Option.isSome_iff_exists.mp (hown.present x hx)).imp fun _ hi => ⟨hi, trivial⟩)
    (fun x hx y hy heq => by rw [hown.own x hx y hy heq]) hrun hone
  obtain ⟨i, hi, -⟩ := hend.present _ (mem_reproduced h ht hreg)
  refine ⟨by rw [hi]; rfl, ?_⟩
  rw [← ht.objectAt_eq hplain dst, ← ht'.objectAt_eq hplain dst]
  exact hend.shared _ (mem_reproduced h ht hreg) _ (mem_reproduced h ht' hreg')

end Replay

/-- `/s` is a directory, everything else one file with two links. -/
def pairSource : Source where
  object path := (0, if path = [47, 115] then 1 else 2)
  statOf id := { rootStat id with nlink := 2 }
  target _ := []
  data _ := []
  named _ := rfl

/-- `/s` with the names `a` and `b`. -/
def pair : DirWalk.Config where
  threads := 1
  threads_pos := Nat.one_pos
  rawReads := true
  lazyStat := false
  root := [47, 115]
  opens := true
  streams := true
  inside := .entry ⟨[97], .other, .other, true, true⟩ (.eof false)
    (.entry ⟨[98], .other, .other, true, true⟩ (.eof false) (.eof false))

def pairRun : List (DirWalk.Act pair) :=
  [.lock ⟨0, Nat.one_pos⟩, .openDir ⟨0, Nat.one_pos⟩ true, .readEntry ⟨0, Nat.one_pos⟩ false,
    .readEntry ⟨0, Nat.one_pos⟩ false, .readEntry ⟨0, Nat.one_pos⟩ false,
    .finish ⟨0, Nat.one_pos⟩, .lock ⟨0, Nat.one_pos⟩]

def pairEnd : DirWalk.State pair :=
  (Lib.Runs.exec DirWalk.step (.start pair) pairRun).getD (.start pair)

def pairStat : SourceStat := pairSource.lstat [47, 115, 47, 97]

theorem pair_log : pairEnd.log = [.begun pair.rootNode true,
    .entry pair.rootNode ⟨[97], .other, .other, true, true⟩ true false none,
    .entry pair.rootNode ⟨[98], .other, .other, true, true⟩ true false none,
    .ended pair.rootNode true] := rfl

theorem pair_walkEntry (s : Copy) {name : Bytes} (h : name = [97] ∨ name = [98]) :
    walkEntry keepOwner ⟨pair.root, [47, 100]⟩ pairSource enough s pair.rootNode name =
      noteFile .enough ⟨pair.root, [47, 100]⟩ s pair.rootNode ⟨name, pairStat⟩
        ([47, 100, 47] ++ name) := by
  rcases h with rfl | rfl
  · rfl
  · rfl

theorem noteFile_primary {mem : Memory} {r : Roots} {s : Copy} {n : DirWalk.Node} {f : FileEntry}
    {dst : Bytes} {links : Registry}
    (h : hardlinksNote mem s.links (sightingOf f dst).st dst = (.primary, links)) :
    noteFile mem r s n f dst = batchFile r { s with links := links } n f := by
  unfold sightingOf at h
  unfold noteFile
  rw [h]

theorem noteFile_secondary {mem : Memory} {r : Roots} {s : Copy} {n : DirWalk.Node} {f : FileEntry}
    {dst : Bytes} {links : Registry}
    (h : hardlinksNote mem s.links (sightingOf f dst).st dst = (.secondary, links)) :
    noteFile mem r s n f dst = { s with links := links } := by
  unfold sightingOf at h
  unfold noteFile
  rw [h]

/-- The state after the `dir_begin` of `/s`. -/
def pairBegun : Copy :=
  { Copy.start with dirs := [⟨[47, 115], [47, 100], pairSource.lstat [47, 115], 0⟩] }

theorem exists_noted {reg : Registry} {before : List Sighting} (h : reg.Knows before)
    (c : Sighting) : ∃ result links, hardlinksNote .enough reg c.st c.dst = (result, links) ∧
      HardLinks.Noted reg before c (result, links) :=
  ⟨_, _, rfl, hardlinksNote_spec h c⟩

/-- The second name becomes a link to the first. -/
theorem pair_callbacks : ∃ links,
    links.jobs = [⟨[47, 100, 47, 97], [47, 100, 47, 98], pairStat.attr⟩] ∧
    callbacks keepOwner ⟨pair.root, [47, 100]⟩ pairSource enough pairEnd.log =
      walkDirEnd ⟨pair.root, [47, 100]⟩ { pairBegun with
        batch := Function.update pairBegun.batch pair.rootNode [⟨[97], pairStat⟩]
        links := links } pair.rootNode true := by
  obtain ⟨result, links, hfirst, hresult, hjobs, hknows⟩ := exists_noted Registry.Knows.empty
    (sightingOf ⟨[97], pairStat⟩ [47, 100, 47, 97])
  obtain ⟨result', links', hsecond, hresult', hjobs', -⟩ := exists_noted hknows
    (sightingOf ⟨[98], pairStat⟩ [47, 100, 47, 98])
  obtain rfl : result = .primary := hresult
  obtain rfl : result' = .secondary := hresult'
  have hnone : links.jobs = [] := hjobs
  rw [hnone] at hjobs'
  refine ⟨links', hjobs', ?_⟩
  have hbegun : walkDirBegin keepOwner ⟨pair.root, [47, 100]⟩ pairSource .start pair.rootNode =
      pairBegun := rfl
  simp only [callbacks, pair_log, List.foldl_cons, List.foldl_nil, callback, if_true, hbegun]
  rw [pair_walkEntry _ (.inl rfl), pair_walkEntry _ (.inr rfl)]
  have hone := noteFile_primary (r := ⟨pair.root, [47, 100]⟩) (s := pairBegun) (n := pair.rootNode)
    hfirst
  have hbatch : batchFile ⟨pair.root, [47, 100]⟩ { pairBegun with links := links } pair.rootNode
      ⟨[97], pairStat⟩ = { pairBegun with
        batch := Function.update pairBegun.batch pair.rootNode [⟨[97], pairStat⟩]
        links := links } := rfl
  have htwo := noteFile_secondary (r := ⟨pair.root, [47, 100]⟩) (n := pair.rootNode)
    (s := { pairBegun with
        batch := Function.update pairBegun.batch pair.rootNode [⟨[97], pairStat⟩]
        links := links }) hsecond
  change walkDirEnd _ (noteFile _ _ (noteFile _ _ pairBegun pair.rootNode _
    ([47, 100, 47, 97])) pair.rootNode _ [47, 100, 47, 98]) pair.rootNode true = _
  rw [hone, hbatch, htwo]

theorem pair_succeeded : Succeeded keepOwner pairSource pair [47, 100] enough pairEnd where
  reached := ⟨pairRun, rfl, by decide⟩
  finished := by decide
  apart := ⟨rfl, rfl, rfl⟩
  eager := rfl
  rootDir := rfl
  shows := ⟨fun _ => iff_of_false (by decide) (by decide), trivial,
    fun _ => iff_of_false (by decide) (by decide), trivial, trivial⟩
  answered := by
    intro n e withStat descend child hmem
    rw [pair_log] at hmem
    simp only [List.mem_cons, reduceCtorEq, false_or, or_false, List.not_mem_nil,
      DirWalk.Event.entry.injEq] at hmem
    rcases hmem with ⟨rfl, rfl, rfl, rfl, rfl⟩ | ⟨rfl, rfl, rfl, rfl, rfl⟩
    · rfl
    · rfl
  sound := by
    obtain ⟨links, -, hcalls⟩ := pair_callbacks
    rw [hcalls]
    rfl

theorem ordinary_single {b : UInt8} (h : b ≠ slash ∧ b ≠ 46) : Ordinary [b] := by
  refine ⟨⟨List.cons_ne_nil _ _, ?_⟩, ?_, ?_⟩
  · simpa using h.1.symm
  · simpa [dot] using h.2
  · simp [dotdot]

def plainNode (kind : Kind) : Node := ⟨kind, 0x1ED, 0, 0, (0, 0), (0, 0)⟩

/-- `/d` is a directory. -/
def pairHome : Fs := .flat [([100], 1)] (fun _ => plainNode .directory) 2

/-- `/d` with the file `a`. -/
def pairTarget : Fs := pairHome.create [[100], [97]] (plainNode (.regular []))

theorem pairHome_tree : pairHome.Tree := Fs.flat_tree rfl (by decide) (by simp)

theorem pairTarget_tree : pairTarget.Tree :=
  pairHome_tree.add (l := [[100], [97]]) (n := plainNode (.regular [])) rfl

def pairTuning : Workers.SmallCopy.Tuning :=
  ⟨false, false, 0, false, 1, 0, false, false, true, Nat.one_pos⟩

def pairJob : Job := ⟨[47, 100, 47, 97], [47, 100, 47, 98], pairStat.attr⟩

/-- The link can be made. -/
theorem pair_runs_from {w : World}
    (h : ((hardlinksReplay ⟨0, 0, [], 1⟩ pairTuning [pairJob]).play (answer ⟨0, 0, [], 1⟩) w
      [⟨none, 0, false⟩]).map (fun out => (out.1, out.2.2)) =
        some ([⟨.link [47, 100, 47, 97] [47, 100, 47, 98], .ok ()⟩], true)) :
    ∃ tr v, (hardlinksReplay ⟨0, 0, [], 1⟩ pairTuning [pairJob]).Runs (answer ⟨0, 0, [], 1⟩)
      w tr v true ∧ ∀ ev ∈ tr, ¬ CrossesDevices ev := by
  obtain ⟨⟨tr, v, a⟩, hout, heq⟩ := Option.map_eq_some_iff.mp h
  obtain ⟨rfl, rfl⟩ := Prod.mk.inj heq
  refine ⟨_, v, Prog.runs_of_play hout, fun ev hev => ?_⟩
  rw [List.mem_singleton.mp hev]
  intro hcross
  have hrefused : (Except.ok () : Except Errno Unit) = .error .exdev := hcross
  cases hrefused

theorem pair_runs : ∃ tr v, (hardlinksReplay ⟨0, 0, [], 1⟩ pairTuning [pairJob]).Runs
    (answer ⟨0, 0, [], 1⟩) (.initial pairTarget) tr v true ∧ ∀ ev ∈ tr, ¬ CrossesDevices ev :=
  pair_runs_from rfl

theorem pair_linksCounted : LinksCounted pairSource pair := by
  intro below l below' l' _ _ _ _ _
  change (2 : UInt64) > 1
  decide

theorem pair_plain : Plain pair.inside :=
  ⟨fun _ => ordinary_single (by decide), trivial, fun _ => ordinary_single (by decide), trivial,
    trivial⟩

theorem pair_jobs : (callbacks keepOwner ⟨pair.root, [47, 100]⟩ pairSource enough
    pairEnd.log).links.jobs = [pairJob] := by
  obtain ⟨links, hjobs, hcalls⟩ := pair_callbacks
  rw [hcalls]
  exact hjobs

/-- The two names of one file are two names of one file again. -/
theorem links_reproduced_pair : ∃ tr v,
    (hardlinksReplay ⟨0, 0, [], 1⟩ pairTuning [pairJob]).Runs (answer ⟨0, 0, [], 1⟩)
      (.initial pairTarget) tr v true ∧
    (v.fs.entry (resolve [47, 100, 47, 97])).isSome = true ∧
      v.fs.entry (resolve [47, 100, 47, 97]) = v.fs.entry (resolve [47, 100, 47, 98]) := by
  obtain ⟨links, -, hcalls⟩ := pair_callbacks
  obtain ⟨tr, v, hrun, hone⟩ := pair_runs
  have hroot : InTree pairSource pair [] pair.inside := .root
  have ha : InTree pairSource pair [47, 97] (.eof false) :=
    .entry (x := (⟨[97], .other, .other, true, true⟩, .eof false)) hroot rfl List.mem_cons_self
      (by decide)
  have hb : InTree pairSource pair [47, 98] (.eof false) :=
    .entry (x := (⟨[98], .other, .other, true, true⟩, .eof false)) hroot rfl
      (List.mem_cons_of_mem _ List.mem_cons_self) (by decide)
  have hown : OwnFiles (World.initial pairTarget).fs
      (callbacks keepOwner ⟨pair.root, [47, 100]⟩ pairSource enough pairEnd.log).files := by
    rw [hcalls]
    constructor
    · intro x hx
      obtain rfl := List.mem_singleton.mp hx
      rfl
    · intro x hx y hy _
      rw [List.mem_singleton.mp hx, List.mem_singleton.mp hy]
  have hresult := links_reproduced pair_succeeded pair_plain pair_linksCounted pairTarget_tree hown
    (by rw [pair_jobs]; exact hrun) hone ha hb rfl rfl
  exact ⟨tr, v, hrun, hresult.1, hresult.2.mpr rfl⟩

end Ecopy.Traversal.WholeTree
