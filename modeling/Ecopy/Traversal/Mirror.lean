import Ecopy.Traversal.LinkStructure
import Ecopy.Traversal.Symlinks
import Ecopy.Workers.Bystanders

/-!
# The copied tree

A name of the destination comes to stand for its object in one step: a directory is made or found,
a symlink is made or moved in, a finished file is moved in from its temporary name. Everything else
that goes on leaves the names that are done as they are. In whatever order this happens, when every
record of the traversal is done and the links are made, the destination mirrors the tree.

The steps are those of the copied tree first, and then the system calls that are such steps.
-/
namespace Ecopy.Traversal.WholeTree
open Protocol (Bytes)
open Ecopy.Path Server HardLinks
open FileSystem Lib.Calls
open Metadata (answerIds answerIds_tree answer_of_plain)
open Workers.Bystanders
open Workers.Events (Event)
open Verify.TreeWalk

section Placing
variable {kind : Loc → Kind} {S : Set Loc} {l : Loc} {fs₀ fs fs' : Fs}

/-- The names of `S` stand for what they stood for, with the same contents. -/
def Quiet (S : Set Loc) (fs fs' : Fs) : Prop :=
  ∀ l ∈ S, ∀ i, fs.entry l = some i → fs'.entry l = some i ∧ (fs'.node i).kind = (fs.node i).kind

/-- The name `l` comes to stand for an object as it should be, and no other name of `S` does. -/
structure Placed (kind : Loc → Kind) (S : Set Loc) (l : Loc) (fs fs' : Fs) : Prop where
  made : ∃ i, fs'.entry l = some i ∧ (fs'.node i).kind = kind l ∧
    ∀ m ∈ S, m ≠ l → fs'.entry m ≠ some i
  others : Quiet (S \ {l}) fs fs'

/-- From the first state to the second, in any order; the names of the set are done. -/
inductive Copied (kind : Loc → Kind) (fs₀ : Fs) : Set Loc → Fs → Prop
  | start : Copied kind fs₀ ∅ fs₀
  | quiet {S : Set Loc} {fs fs' : Fs} :
      Copied kind fs₀ S fs → Quiet S fs fs' → Copied kind fs₀ S fs'
  | placed {S : Set Loc} {fs fs' : Fs} (l : Loc) :
      Copied kind fs₀ S fs → Placed kind S l fs fs' → Copied kind fs₀ (insert l S) fs'

/-- Each name stands for an object of its own that is as it should be. -/
structure Standing (kind : Loc → Kind) (S : Set Loc) (fs : Fs) : Prop where
  present : ∀ l ∈ S, ∃ i, fs.entry l = some i ∧ (fs.node i).kind = kind l
  own : Set.InjOn fs.entry S

theorem Standing.quiet (h : Standing kind S fs) (hq : Quiet S fs fs') : Standing kind S fs' := by
  have hkept : ∀ l ∈ S, fs'.entry l = fs.entry l := by
    intro l hl
    obtain ⟨i, hi, -⟩ := h.present l hl
    rw [hi, (hq l hl i hi).1]
  constructor
  · intro l hl
    obtain ⟨i, hi, hkind⟩ := h.present l hl
    obtain ⟨hentry, hsame⟩ := hq l hl i hi
    exact ⟨i, hentry, hsame.trans hkind⟩
  · intro l hl m hm heq
    rw [hkept l hl, hkept m hm] at heq
    exact h.own hl hm heq

theorem Standing.mono {T : Set Loc} (h : Standing kind S fs) (hT : T ⊆ S) : Standing kind T fs :=
  ⟨fun l hl => h.present l (hT hl), h.own.mono hT⟩

theorem Standing.placed (h : Standing kind S fs) (hp : Placed kind S l fs fs') :
    Standing kind (insert l S) fs' := by
  have hrest := (h.mono Set.sdiff_subset).quiet hp.others
  obtain ⟨i, hi, hkind, hfree⟩ := hp.made
  have hset : insert l S = insert l (S \ {l}) := Set.insert_sdiff_singleton.symm
  rw [hset]
  constructor
  · rintro m (rfl | hm)
    · exact ⟨i, hi, hkind⟩
    · exact hrest.present m hm
  · rw [Set.injOn_insert fun hl => hl.2 rfl]
    refine ⟨hrest.own, ?_⟩
    rintro ⟨m, hm, heq⟩
    exact hfree m hm.1 hm.2 (heq.trans hi)

theorem Copied.standing (h : Copied kind fs₀ S fs) : Standing kind S fs := by
  induction h with
  | start => exact ⟨fun _ hl => hl.elim, Set.injOn_empty _⟩
  | quiet _ hq ih => exact ih.quiet hq
  | placed l _ hp ih => exact ih.placed hp

/-- A new object stands at `l`. -/
theorem placed_of_new (hs : fs.Sane)
    (hentry : fs'.entry = Function.update fs.entry l (some fs.next))
    (hnodes : ∀ j, j ≠ fs.next → fs'.node j = fs.node j)
    (hkind : (fs'.node fs.next).kind = kind l) : Placed kind S l fs fs' := by
  constructor
  · refine ⟨fs.next, by rw [hentry, Function.update_self], hkind, fun m _ hm heq => ?_⟩
    rw [hentry, Function.update_of_ne hm] at heq
    exact Nat.lt_irrefl _ (hs.bounded m _ heq)
  · intro m hm i hi
    refine ⟨?_, by rw [hnodes i (hs.bounded m i hi).ne]⟩
    rwa [hentry, Function.update_of_ne hm.2]

theorem placed_of_mkdir {who : Identity} {w v : World} {x : Choice} {p : Bytes} {mode : UInt32}
    (hs : w.fs.Sane) (h : answer who w x (.mkdir p mode) = some (.ok (), v))
    (hkind : kind (resolve p) = .directory) : Placed kind S (resolve p) w.fs v.fs := by
  rcases answer_mkdir h with ⟨e, heq, -⟩ | ⟨fs, -, hadd, rfl⟩
  · cases heq
  obtain ⟨-, rfl⟩ := add_eq_ok hadd
  refine placed_of_new hs rfl (fun j hj => Function.update_of_ne hj _ _) ?_
  dsimp only [Fs.create]
  rw [Function.update_self, hkind]
  rfl

theorem placed_of_made {target : Bytes} (hs : fs.Sane) (h : Symlinks.Made fs fs' l target)
    (hkind : kind l = .symlink target) : Placed kind S l fs fs' :=
  placed_of_new hs h.entry h.nodes (h.kind.trans hkind.symm)

/-- A finished file is moved in. -/
theorem placed_of_rename {who : Identity} {w v : World} {x : Choice} {a b : Bytes} {i : ℕ}
    (ht : w.fs.Tree) (h : answer who w x (.rename a b) = some (.ok (), v))
    (hi : w.fs.entry (resolve a) = some i) (hfile : w.fs.isFile (resolve a) = true)
    (ha : resolve a ∉ S) (hkind : (w.fs.node i).kind = kind (resolve b))
    (hfree : ∀ m ∈ S, m ≠ resolve b → w.fs.entry m ≠ some i) :
    Placed kind S (resolve b) w.fs v.fs := by
  rcases answer_rename h with ⟨e, heq, -⟩ | ⟨fs, -, -, -, hmove, rfl⟩
  · cases heq
  by_cases hsame : w.fs.entry (resolve b) = w.fs.entry (resolve a)
  · obtain ⟨-, -, j, hj, ⟨rfl, hb⟩ | ⟨-, hne, -⟩⟩ := Fs.rename_eq_ok hmove
    · exact ⟨⟨i, hsame.trans hi, hkind, hfree⟩, fun m _ j hj => ⟨hj, rfl⟩⟩
    · exact absurd (hsame.trans hj) hne
  · obtain rfl := ht.rename_file hfile hmove hsame
    have hother : ∀ m ∈ S, m ≠ resolve b →
        Function.update (Function.update w.fs.entry (resolve a) none) (resolve b)
          (w.fs.entry (resolve a)) m = w.fs.entry m := by
      intro m hm hmb
      have hma : m ≠ resolve a := fun heq => ha (heq ▸ hm)
      rw [Function.update_of_ne hmb, Function.update_of_ne hma]
    constructor
    · refine ⟨i, (Function.update_self _ _ _).trans hi, hkind, fun m hm hmb heq => ?_⟩
      exact hfree m hm hmb ((hother m hm hmb).symm.trans heq)
    · intro m hm j hj
      exact ⟨(hother m hm.1 hm.2).trans hj, rfl⟩

/-- What spares the names that are done and their objects is quiet. -/
theorem quiet_of_spares (hs : fs.Sane)
    (h : Workers.Bystanders.Spares (fun i => ∃ m ∈ S, fs.entry m = some i) (· ∉ S) fs fs') :
    Quiet S fs fs' := by
  intro m hm i hi
  refine ⟨(h.entry m fun hn => hn hm).trans hi, ?_⟩
  rw [h.node i ⟨m, hm, hi⟩ (hs.bounded m i hi)]

end Placing

section Calls
variable {who : Identity} {kind : Loc → Kind} {S : Set Loc} {w₀ w : World}

/-- System calls of any number of threads in any order. A name is done when it has been made a
directory or a symlink, when it is a directory already, or when a finished file or symlink has been
moved to it. -/
inductive Published (who : Identity) (kind : Loc → Kind) (w₀ : World) : Set Loc → World → Prop
  | start : Published who kind w₀ ∅ w₀
  | other {S : Set Loc} {w v : World} {x : Choice} {c : Server.Call} {r : c.Result} :
      Published who kind w₀ S w → answerIds who w x c = some (r, v) → Quiet S w.fs v.fs →
      Published who kind w₀ S v
  | mkdir {S : Set Loc} {w v : World} {x : Choice} {p : Bytes} {mode : UInt32} :
      Published who kind w₀ S w → answerIds who w x (.mkdir p mode) = some (.ok (), v) →
      kind (resolve p) = .directory → Published who kind w₀ (insert (resolve p) S) v
  | found {S : Set Loc} {w : World} {p : Bytes} {i : ℕ} :
      Published who kind w₀ S w → w.fs.entry (resolve p) = some i →
      (w.fs.node i).kind = .directory → kind (resolve p) = .directory →
      (∀ m ∈ S, m ≠ resolve p → w.fs.entry m ≠ some i) →
      Published who kind w₀ (insert (resolve p) S) w
  | symlink {S : Set Loc} {w v : World} {x : Choice} {target p : Bytes} :
      Published who kind w₀ S w → answerIds who w x (.symlink target p) = some (.ok (), v) →
      kind (resolve p) = .symlink target → Published who kind w₀ (insert (resolve p) S) v
  | rename {S : Set Loc} {w v : World} {x : Choice} {a b : Bytes} {i : ℕ} :
      Published who kind w₀ S w → answerIds who w x (.rename a b) = some (.ok (), v) →
      w.fs.entry (resolve a) = some i → w.fs.isFile (resolve a) = true → resolve a ∉ S →
      (w.fs.node i).kind = kind (resolve b) →
      (∀ m ∈ S, m ≠ resolve b → w.fs.entry m ≠ some i) →
      Published who kind w₀ (insert (resolve b) S) v

theorem Published.tree (h : Published who kind w₀ S w) (ht : w₀.fs.Tree) : w.fs.Tree := by
  induction h with
  | start => exact ht
  | other _ hcall _ ih => exact answerIds_tree ih hcall
  | mkdir _ hcall _ ih => exact answerIds_tree ih hcall
  | found _ _ _ _ _ ih => exact ih
  | symlink _ hcall _ ih => exact answerIds_tree ih hcall
  | rename _ hcall _ _ _ _ _ ih => exact answerIds_tree ih hcall

/-- The calls are steps of the copied tree. -/
theorem Published.copied (h : Published who kind w₀ S w) (ht : w₀.fs.Tree) :
    Copied kind w₀.fs S w.fs := by
  induction h with
  | start => exact .start
  | other _ _ hquiet ih => exact ih.quiet hquiet
  | @mkdir S w v x p mode hrun hcall hkind ih =>
    have hmade : answer who w x (.mkdir p (mode &&& 0x3FF)) = some (.ok (), v) := hcall
    exact ih.placed _ (placed_of_mkdir (hrun.tree ht).toSane hmade hkind)
  | found _ hi hdir hkind hfree ih =>
    exact ih.placed _ ⟨⟨_, hi, hdir.trans hkind.symm, hfree⟩, fun _ _ _ hj => ⟨hj, rfl⟩⟩
  | symlink hrun hcall hkind ih =>
    obtain ⟨hmade, -⟩ := Symlinks.made_of_symlink (answer_of_plain rfl hcall)
    exact ih.placed _ (placed_of_made (hrun.tree ht).toSane hmade hkind)
  | rename hrun hcall hi hfile ha hkind hfree ih =>
    exact ih.placed _ (placed_of_rename (hrun.tree ht) (answer_of_plain rfl hcall) hi hfile ha
      hkind hfree)

/-- What the copies do on their way, as long as the names that are done and their objects are none
of theirs. -/
theorem Published.own {v : World} {x : Choice} {c : Server.Call} {r : c.Result}
    (h : Published who kind w₀ S w) (ht : w₀.fs.Tree)
    (hcall : answerIds who w x c = some (r, v))
    (hown : Own (fun i => ∃ m ∈ S, w.fs.entry m = some i) (· ∉ S) w.fs c) :
    Published who kind w₀ S v := by
  have hs := (h.tree ht).toSane
  refine h.other hcall (quiet_of_spares hs (answerIds_spares ⟨h.tree ht, ?_⟩ hown hcall))
  rintro i ⟨m, -, hi⟩
  exact hs.bounded m i hi

end Calls

section Whole
variable {source : Source} {c : DirWalk.Config} {dst : Bytes} {mem : Bytes → Memory}
  {t : DirWalk.State c} {below below' : Bytes} {l l' : DirWalk.Listing}

/-- An object of the source as it should stand at the destination. -/
def kindOf (source : Source) (id : Inode) : Kind :=
  if (source.statOf id).isDir then .directory
  else if (source.statOf id).isLnk then .symlink (source.target id)
  else if (source.statOf id).isReg then .regular (source.data id)
  else .special

/-- Neither a directory nor a symlink nor a regular file: it is not copied. -/
def Special (st : SourceStat) : Prop := ¬ st.isDir ∧ ¬ st.isLnk ∧ ¬ st.isReg

def kindAt (source : Source) (c : DirWalk.Config) (dst : Bytes) (l : Loc) : Kind :=
  kindOf source (objectAt source c dst l)

/-- The names that the records of a traversal are about. -/
def recorded (copy : Copy) : Set Loc :=
  {l | (∃ x ∈ copy.dirs, l = resolve x.dst) ∨ ∃ x ∈ copy.symlinks, l = resolve x.dst} ∪
    copiedLocs copy.files

/-- Every directory, symlink and regular file of the tree stands at the destination, and two files
there are one object exactly when they are one in the source. -/
structure Mirrored (source : Source) (c : DirWalk.Config) (dst : Bytes) (fs : Fs) : Prop where
  objects : ∀ below l, InTree source c below l → ¬ Special (source.lstat (c.root ++ below)) →
    ∃ i, fs.entry (resolve (dst ++ below)) = some i ∧
      (fs.node i).kind = kindOf source (source.object (c.root ++ below))
  shared : ∀ below l below' l', InTree source c below l → InTree source c below' l' →
    (source.lstat (c.root ++ below)).isReg = true → (source.lstat (c.root ++ below')).isReg = true →
    (fs.entry (resolve (dst ++ below)) = fs.entry (resolve (dst ++ below')) ↔
      source.object (c.root ++ below) = source.object (c.root ++ below'))

/-- Links are made to names of regular files. -/
theorem not_linked (h : Succeeded o source c dst mem t) (hplain : Plain c.inside)
    (ht : InTree source c below l) (hreg : (source.lstat (c.root ++ below)).isReg = false) :
    resolve (dst ++ below) ∉ linkLocs (callbacks o ⟨c.root, dst⟩ source mem t.log).links.jobs := by
  rintro ⟨j, hj, heq⟩
  obtain ⟨below', l', ht', hlink, x, hx, -, hinode⟩ := job_of_tree h hj
  obtain ⟨first, m, -, hfile, -, -, hst⟩ := file_of_record h hx
  have hobject : source.object (c.root ++ below) = source.object (c.root ++ first) := by
    rw [← ht.objectAt_eq hplain dst, heq, hlink, ht'.objectAt_eq hplain dst, ← hinode, hst,
      override_inode]
  have hsame : source.lstat (c.root ++ below) = source.lstat (c.root ++ first) :=
    congrArg source.statOf hobject
  rw [hsame, hfile] at hreg
  cases hreg

/-- When every record is done and the links are made, the destination mirrors the tree. -/
theorem tree_mirrored (h : Succeeded o source c dst mem t) (hplain : Plain c.inside)
    (hcounted : LinksCounted source c) {who : Identity} {cfg : Workers.SmallCopy.Tuning} {fs₀ : Fs}
    {done : Set Loc} {w v : World} {tr : List Event} (hw : w.fs.Tree)
    (hcopied : Copied (kindAt source c dst) fs₀ done w.fs)
    (hall : recorded (callbacks o ⟨c.root, dst⟩ source mem t.log) ⊆ done)
    (hrun : (hardlinksReplay who cfg
      (callbacks o ⟨c.root, dst⟩ source mem t.log).links.jobs).Runs (answer who) w tr v true)
    (hone : ∀ ev ∈ tr, ¬ CrossesDevices ev) : Mirrored source c dst v.fs := by
  have hstanding := hcopied.standing.mono hall
  have hfile : ∀ x ∈ (callbacks o ⟨c.root, dst⟩ source mem t.log).files,
      resolve x.dst ∈ recorded (callbacks o ⟨c.root, dst⟩ source mem t.log) :=
    fun x hx => .inr ⟨x, hx, rfl⟩
  have hend := reproduced h hplain hcounted (fun id n => n.kind = kindOf source id) hw
    (fun x hx => by
      rw [← objectAt_of_record h hplain hx]
      exact hstanding.present _ (hfile x hx))
    (fun x hx y hy heq => hstanding.own (hfile x hx) (hfile y hy) heq) hrun hone
  obtain ⟨hnode, hentry⟩ := hardlinksReplay_others hw hrun hone
  -- what is no file has its own record, and the links leave it alone
  have hother : ∀ below l, InTree source c below l →
      (source.lstat (c.root ++ below)).isReg = false →
      resolve (dst ++ below) ∈ recorded (callbacks o ⟨c.root, dst⟩ source mem t.log) →
      ∃ i, v.fs.entry (resolve (dst ++ below)) = some i ∧
        (v.fs.node i).kind = kindOf source (source.object (c.root ++ below)) := by
    intro below l ht hreg hrecord
    obtain ⟨i, hi, hkind⟩ := hstanding.present _ hrecord
    refine ⟨i, (hentry _ (not_linked h hplain ht hreg) (by rw [hi]; rfl)).trans hi, ?_⟩
    rw [hnode, hkind, kindAt, ht.objectAt_eq hplain]
  constructor
  · intro below l ht htype
    have htaken := takenDown_of_inTree h ht
    by_cases hdir : (source.lstat (c.root ++ below)).isDir = true
    · obtain ⟨x, hx, -, hxdst, -⟩ := htaken.dir hdir
      exact hother below l ht (isReg_eq_false hdir) (.inl (.inl ⟨x, hx, by rw [hxdst]⟩))
    by_cases hlnk : (source.lstat (c.root ++ below)).isLnk = true
    · exact hother below l ht (SourceStat.type_of_isLnk hlnk).2
        (.inl (.inr ⟨_, htaken.symlink hlnk, rfl⟩))
    by_cases hreg : (source.lstat (c.root ++ below)).isReg = true
    · obtain ⟨i, hi, hkind⟩ := hend.present _ (mem_reproduced h ht hreg)
      exact ⟨i, hi, by rw [hkind, ht.objectAt_eq hplain]⟩
    · exact absurd ⟨hdir, hlnk, hreg⟩ htype
  · intro below l below' l' ht ht' hreg hreg'
    rw [← ht.objectAt_eq hplain dst, ← ht'.objectAt_eq hplain dst]
    exact hend.shared _ (mem_reproduced h ht hreg) _ (mem_reproduced h ht' hreg')

/-- Whatever the order of the system calls, when every record is done and the links are made, the
destination mirrors the tree. -/
theorem calls_mirror_tree (h : Succeeded o source c dst mem t) (hplain : Plain c.inside)
    (hcounted : LinksCounted source c) {who : Identity} {cfg : Workers.SmallCopy.Tuning}
    {done : Set Loc} {w₀ w v : World} {tr : List Event} (ht : w₀.fs.Tree)
    (hcalls : Published who (kindAt source c dst) w₀ done w)
    (hall : recorded (callbacks o ⟨c.root, dst⟩ source mem t.log) ⊆ done)
    (hrun : (hardlinksReplay who cfg
      (callbacks o ⟨c.root, dst⟩ source mem t.log).links.jobs).Runs (answer who) w tr v true)
    (hone : ∀ ev ∈ tr, ¬ CrossesDevices ev) : Mirrored source c dst v.fs :=
  tree_mirrored h hplain hcounted (hcalls.tree ht) (hcalls.copied ht) hall hrun hone

end Whole

def afterCall (w : World) (c : Server.Call) : World :=
  ((answerIds ⟨0, 0, [], 1⟩ w ⟨none, 0, false⟩ c).map (·.2)).getD w

/-- There is nothing but the top directory. -/
def bare : World := .initial (.flat [] (fun _ => plainNode .directory) 1)

/-- After the `mkdir` of `/d`. -/
def pairHomeMade : World := afterCall bare (.mkdir [47, 100] 0x1ED)

/-- After the `open` of the temporary file `/d/t`. -/
def pairOpened : World :=
  afterCall pairHomeMade (.openFile [47, 100, 47, 116] ⟨true, true, true, false, false, false⟩ 0x180)

/-- After its move to `/d/a`. -/
def pairMoved : World := afterCall pairOpened (.rename [47, 100, 47, 116] [47, 100, 47, 97])

theorem bare_tree : bare.fs.Tree := Fs.flat_tree rfl (by decide) (by simp)

theorem pair_published : Published ⟨0, 0, [], 1⟩ (kindAt pairSource pair [47, 100]) bare
    (insert [[100], [97]] (insert [[100]] ∅)) pairMoved := by
  have hcall : answerIds ⟨0, 0, [], 1⟩ bare ⟨none, 0, false⟩ (.mkdir [47, 100] 0x1ED) =
      some (.ok (), pairHomeMade) := rfl
  have hmade : Published ⟨0, 0, [], 1⟩ (kindAt pairSource pair [47, 100]) bare (insert [[100]] ∅)
      pairHomeMade := .mkdir .start hcall rfl
  have htemp : [[100], [116]] ∉ (insert [[100]] ∅ : Set Loc) := by simp
  have hopened : Published ⟨0, 0, [], 1⟩ (kindAt pairSource pair [47, 100]) bare (insert [[100]] ∅)
      pairOpened :=
    hmade.own bare_tree (x := ⟨none, 0, false⟩)
      (c := .openFile [47, 100, 47, 116] ⟨true, true, true, false, false, false⟩ 0x180)
      (r := .ok ⟨[47, 100, 47, 116], 2⟩) rfl
      ⟨fun _ => htemp, fun htrunc => Bool.noConfusion htrunc⟩
  refine .rename (x := ⟨none, 0, false⟩) (a := [47, 100, 47, 116]) (b := [47, 100, 47, 97]) (i := 2)
    hopened rfl rfl rfl htemp rfl ?_
  rintro m (rfl | hm) -
  · decide
  · exact hm.elim

theorem pair_recorded : recorded (callbacks keepOwner ⟨pair.root, [47, 100]⟩ pairSource enough
    pairEnd.log) ⊆ insert [[100], [97]] (insert [[100]] ∅) := by
  obtain ⟨links, -, hcalls⟩ := pair_callbacks
  rw [hcalls]
  rintro l ((⟨x, hx, rfl⟩ | ⟨x, hx, -⟩) | ⟨x, hx, rfl⟩)
  · obtain rfl := List.mem_singleton.mp hx
    exact .inr (.inl rfl)
  · exact (List.not_mem_nil hx).elim
  · obtain rfl := List.mem_singleton.mp hx
    exact .inl rfl

theorem calls_mirror_tree_pair : ∃ v : World, Mirrored pairSource pair [47, 100] v.fs := by
  obtain ⟨tr, v, hrun, hone⟩ := pair_runs_from (w := pairMoved) rfl
  exact ⟨v, calls_mirror_tree pair_succeeded pair_plain pair_linksCounted bare_tree pair_published
    pair_recorded (by rw [pair_jobs]; exact hrun) hone⟩

end Ecopy.Traversal.WholeTree
