import Ecopy.Verify.VerifyOnly

/-!
# Verdicts on copied metadata

Every object that verify-only looks at has the metadata that the copy has asked for. So the
verdicts depend on the options alone: they are good exactly when `--uid` and `--gid` ask for
the owners that the source has already.
-/
namespace Ecopy.Verify.TreeWalk
open Protocol (Bytes)
open Ecopy.Path LocalItem Traversal
open Server (Meta)

/-- The object has the metadata that was asked for. -/
structure Preserved (o : Options) (m : Meta) (actual : Stat) : Prop where
  mode : actual.mode &&& 0o7777 = m.mode &&& 0o7777
  uid : actual.uid = m.uid
  gid : actual.gid = m.gid
  times : o.preserveTimes = true → actual.atime = m.atime ∧ actual.mtime = m.mtime

/-- The destination after the copy. A further name of an object is a link to its first name,
or a copy of that where no link was possible. -/
structure TookEffect (o : Options) (copy : Copy) (lstat : Bytes → Option Stat) : Prop where
  dirs : ∀ x ∈ copy.dirs, ∃ actual, lstat x.dst = some actual ∧ actual.isDir = true ∧
    Preserved o x.srcSt.attr actual
  files : ∀ x ∈ copy.files, ∃ actual, lstat x.dst = some actual ∧ actual.isReg = true ∧
    actual.size = x.srcSt.size ∧ Preserved o x.srcSt.attr actual
  links : ∀ j ∈ copy.links.jobs, lstat j.link = lstat j.primary ∨
    ∃ actual first, lstat j.link = some actual ∧ lstat j.primary = some first ∧
      actual.isReg = true ∧ actual.size = first.size ∧ Preserved o j.attr actual

section Verdicts
variable {o : Options} {source : Source} {copy : Copy} {lstat : Bytes → Option Stat}
  {path dst : Bytes} {cfg : Config} {st : SourceStat} {actual : Stat}

/-- What verify-only finds at the destination of a file or directory. -/
structure Like (o : Options) (st : SourceStat) (actual : Stat) : Prop where
  fileType : actual.fileType = st.fileType
  size : st.isDir = false → actual.size = st.size
  preserved : Preserved o (o.override st).attr actual

theorem fileType_eq_of_isReg {a b : Stat} (ha : a.isReg = true) (hb : b.isReg = true) :
    a.fileType = b.fileType := by
  rw [Stat.isReg, beq_iff_eq] at ha hb
  rw [ha, hb]

theorem fileType_eq_of_isDir {a b : Stat} (ha : a.isDir = true) (hb : b.isDir = true) :
    a.fileType = b.fileType := by
  rw [Stat.isDir, beq_iff_eq] at ha hb
  rw [ha, hb]

/-- The file that was written at the first name. -/
theorem TookEffect.file (h : TookEffect o copy lstat) (hreg : st.isReg = true)
    (hx : ∃ x ∈ copy.files, x.dst = dst ∧ x.srcSt = o.override st) :
    ∃ actual, lstat dst = some actual ∧ actual.isReg = true ∧ Like o st actual := by
  obtain ⟨x, hmem, rfl, hst⟩ := hx
  obtain ⟨actual, hlstat, hactual, hsize, hpreserved⟩ := h.files x hmem
  rw [hst] at hsize hpreserved
  exact ⟨actual, hlstat, hactual, fileType_eq_of_isReg hactual hreg, fun _ => hsize, hpreserved⟩

/-- Whatever was written down is found. -/
theorem TookEffect.like (h : TookEffect o copy lstat) (ht : Taken o source copy path dst) :
    ∃ actual, lstat dst = some actual ∧ Like o (source.lstat path) actual := by
  rcases ht with ⟨hdir, x, hx, rfl, hst⟩ | ⟨hreg, hfile | ⟨j, hj, rfl, hattr, hfirst⟩⟩
  · obtain ⟨actual, hlstat, hactual, hpreserved⟩ := h.dirs x hx
    rw [hst] at hpreserved
    refine ⟨actual, hlstat, fileType_eq_of_isDir hactual hdir, ?_, hpreserved⟩
    intro hnot
    rw [hdir] at hnot
    cases hnot
  · obtain ⟨actual, hlstat, -, hlike⟩ := h.file hreg hfile
    exact ⟨actual, hlstat, hlike⟩
  · obtain ⟨first, hprimary, hfirstReg, hlike⟩ := h.file hreg hfirst
    rcases h.links j hj with hsame | ⟨actual, first', hlstat, hprimary', hactual, hsize, hpreserved⟩
    · exact ⟨first, hsame.trans hprimary, hlike⟩
    · obtain rfl : first = first' := Option.some.inj (hprimary.symm.trans hprimary')
      rw [hattr] at hpreserved
      exact ⟨actual, hlstat, fileType_eq_of_isReg hactual hreg,
        fun hdir => hsize.trans (hlike.size hdir), hpreserved⟩

/-- The same options, and a process with effective user 0: an ownership that is not as it should
be counts as unpreservable only for the test hook. -/
structure SameOptions (o : Options) (cfg : Config) : Prop where
  times : cfg.preserveTimes = o.preserveTimes
  privileged : cfg.ownershipUnpreservable = cfg.forceMismatch

theorem override_eq_iff :
    o.override st = st ↔ (o.override st).uid = st.uid ∧ (o.override st).gid = st.gid := by
  constructor
  · intro h
    rw [h]
    exact ⟨rfl, rfl⟩
  · rintro ⟨huid, hgid⟩
    have hfields : o.override st =
        { st with uid := (o.override st).uid, gid := (o.override st).gid } := rfl
    rw [hfields, huid, hgid]

/-- Nothing but the owner can differ. -/
theorem Like.metadataField (h : Like o st actual) (hcfg : SameOptions o cfg) :
    metadataField cfg st.toStat actual st.isDir = none := by
  have htimes : cfg.preserveTimes = true → actual.atime = st.atime ∧ actual.mtime = st.mtime := by
    rw [hcfg.times]
    exact h.preserved.times
  have hmode : actual.mode &&& 0o7777 = st.mode &&& 0o7777 := h.preserved.mode
  unfold LocalItem.metadataField
  rw [if_neg (not_not.mpr h.fileType), if_neg ?_, if_neg (not_not.mpr hmode), if_neg ?_, if_neg ?_]
  · cases htime : cfg.preserveTimes with
    | false => simp
    | true => simp [(htimes htime).2]
  · cases htime : cfg.preserveTimes with
    | false => simp
    | true => simp [(htimes htime).1]
  · cases hdir : st.isDir with
    | true => simp
    | false => simp [h.size hdir]

theorem Like.ownerField_isNone (cfg : Config) (h : Like o st actual) :
    (ownerField cfg st.toStat actual).isNone = true ↔
      o.override st = st ∧ cfg.forceMismatch = false := by
  have huid : actual.uid = (o.override st).uid := h.preserved.uid
  have hgid : actual.gid = (o.override st).gid := h.preserved.gid
  rw [override_eq_iff, ← huid, ← hgid]
  unfold ownerField
  split_ifs with hu hg hforce
  · simp [hu]
  · simp [hg]
  · simp [hforce]
  · simpa [hforce] using ⟨not_not.mp hu, not_not.mp hg⟩

theorem checkMetadata_bad {item : Item} (hmeta : cfg.metadata = true) :
    (checkMetadata cfg item (some actual)).bad = false ↔
      verifyMetadataStat cfg item.srcSt actual item.isDir ≠ .mismatch := by
  unfold checkMetadata
  rw [if_pos hmeta]
  dsimp only
  cases hclass : verifyMetadataStat cfg item.srcSt actual item.isDir <;> simp

/-- The verdict on an object that is as the copy has asked for. -/
theorem Like.bad_iff (h : Like o st actual) (hcfg : SameOptions o cfg) {item : Item}
    (hst : item.srcSt = st.toStat) (hdir : item.isDir = st.isDir) :
    (checkMetadata cfg item (some actual)).bad = false ↔
      cfg.metadata = false ∨ cfg.forceMismatch = true ∨ o.override st = st := by
  cases hmeta : cfg.metadata with
  | false =>
    unfold checkMetadata
    rw [if_neg (by rw [hmeta]; exact Bool.false_ne_true)]
    simp only [true_or, iff_true]
    split_ifs <;> rfl
  | true =>
    rw [checkMetadata_bad hmeta, hst, hdir]
    unfold verifyMetadataStat
    rw [h.metadataField hcfg, if_neg (by simp), hcfg.privileged]
    have howner := h.ownerField_isNone cfg
    by_cases hnone : (ownerField cfg st.toStat actual).isNone = true
    · rw [if_pos hnone]
      simp [(howner.mp hnone).1]
    · rw [if_neg hnone]
      cases hforce : cfg.forceMismatch with
      | true => simp
      | false =>
        have hne : o.override st ≠ st := fun heq => hnone (howner.mpr ⟨heq, hforce⟩)
        simp [hne]

theorem metaBad_eq (cfg : Config) (item : Item) (system : System) :
    (verifyLocalItem cfg item system).metaBad = (checkMetadata cfg item system.lstat).bad := by
  unfold verifyLocalItem
  dsimp only
  split <;> rfl

end Verdicts

/-- Verify-only with the options of the copy finds no metadata mismatch exactly when the owners
that `--uid` and `--gid` ask for are those of the source. -/
theorem verify_only_accepts_iff {o : Options} {source : Source} {c : DirWalk.Config} {dst : Bytes}
    {mem : Bytes → HardLinks.Memory} {s : DirWalk.State c} {lstat : Bytes → Option Stat}
    {cfg : Config} {system : Item → System} (hcopy : Succeeded o source c dst mem s)
    (heffect : TookEffect o (callbacks o ⟨c.root, dst⟩ source mem s.log) lstat)
    (hcfg : SameOptions o cfg) (hsystem : ∀ item, (system item).lstat = lstat item.dst) :
    (∀ report ∈ (verifyRunTree cfg source c dst system).2, report.metaBad = false) ↔
      cfg.metadata = false ∨ cfg.forceMismatch = true ∨
        ∀ path ∈ treeEntries source c, o.override (source.lstat path) = source.lstat path := by
  have hcovers := hcopy.covers
  have hverdict : ∀ path target,
      Taken o source (callbacks o ⟨c.root, dst⟩ source mem s.log) path target →
      ((verifyLocalItem cfg (itemOf source path target)
          (system (itemOf source path target))).metaBad = false ↔
        cfg.metadata = false ∨ cfg.forceMismatch = true ∨
          o.override (source.lstat path) = source.lstat path) := by
    intro path target htaken
    obtain ⟨actual, hlstat, hlike⟩ := heffect.like htaken
    have hfound : lstat (itemOf source path target).dst = some actual := hlstat
    rw [metaBad_eq, hsystem, hfound]
    exact hlike.bad_iff hcfg rfl rfl
  constructor
  · intro hall
    by_contra hcond
    obtain ⟨hmeta, hforce, hpaths⟩ := not_or.mp hcond |>.imp_right not_or.mp
    refine hpaths fun path hpath => ?_
    obtain ⟨target, hitem⟩ := hcovers.all path hpath
    obtain ⟨path', target', heq, -, htaken⟩ := hcovers.items _ hitem
    obtain ⟨rfl, rfl⟩ : path = path' ∧ target = target' :=
      ⟨congrArg Item.src heq, congrArg Item.dst heq⟩
    have hgood := hall _ (List.mem_map_of_mem hitem)
    rcases (hverdict path target htaken).mp hgood with h | h | h
    · exact absurd h hmeta
    · exact absurd h hforce
    · exact h
  · intro hcond report hreport
    obtain ⟨item, hitem, rfl⟩ := List.mem_map.mp hreport
    obtain ⟨path, target, rfl, hpath, htaken⟩ := hcovers.items item hitem
    exact (hverdict path target htaken).mpr (hcond.imp_right (.imp_right fun h => h path hpath))

def rootStat (id : HardLinks.Inode) : SourceStat where
  dev := id.1
  ino := id.2
  mode := if id.2 = 1 then 0o040755 else 0o100644
  uid := 0
  gid := 0
  size := 0
  blocks := 0
  atime := (0, 0)
  mtime := (0, 0)
  size_lt := Nat.two_pow_pos 63
  nlink := 1

/-- `/s` is a directory, everything else one file. -/
def smallSource : Source where
  object path := (0, if path = [47, 115] then 1 else 2)
  statOf := rootStat
  target _ := []
  data _ := []
  named _ := rfl

/-- `/s` with the file `a`. -/
def small : DirWalk.Config where
  threads := 1
  threads_pos := Nat.one_pos
  rawReads := true
  lazyStat := false
  root := [47, 115]
  opens := true
  streams := true
  inside := .entry ⟨[97], .other, .other, true, true⟩ (.eof false) (.eof false)

def smallRun : List (DirWalk.Act small) :=
  [.lock ⟨0, Nat.one_pos⟩, .openDir ⟨0, Nat.one_pos⟩ true, .readEntry ⟨0, Nat.one_pos⟩ false,
    .readEntry ⟨0, Nat.one_pos⟩ false, .finish ⟨0, Nat.one_pos⟩, .lock ⟨0, Nat.one_pos⟩]

def smallEnd : DirWalk.State small :=
  (Lib.Runs.exec DirWalk.step (.start small) smallRun).getD (.start small)

def enough (_ : Bytes) : HardLinks.Memory := .enough

/-- `/d` and `/d/a` as the copy has asked for. -/
def smallTarget (o : Options) (path : Bytes) : Option Stat :=
  let src := if path = [47, 100] then [47, 115] else [47, 115, 47, 97]
  some (o.override (smallSource.lstat src)).toStat

def keepOwner : Options := ⟨none, none, true⟩

def giveAway : Options := ⟨some 1000, none, true⟩

theorem small_succeeded {o : Options} (h : o = keepOwner ∨ o = giveAway) :
    Succeeded o smallSource small [47, 100] enough smallEnd where
  reached := ⟨smallRun, rfl, by decide⟩
  finished := by decide
  apart := ⟨rfl, rfl, rfl⟩
  eager := rfl
  rootDir := rfl
  shows := ⟨fun _ => ⟨nofun, nofun⟩, trivial, trivial⟩
  answered := by
    intro n e withStat descend child hmem
    have hlog : smallEnd.log = [.begun small.rootNode true,
        .entry small.rootNode ⟨[97], .other, .other, true, true⟩ true false none,
        .ended small.rootNode true] := rfl
    rw [hlog] at hmem
    simp only [List.mem_cons, reduceCtorEq, false_or, or_false, List.not_mem_nil,
      DirWalk.Event.entry.injEq] at hmem
    obtain ⟨rfl, rfl, rfl, rfl, rfl⟩ := hmem
    rcases h with rfl | rfl <;> rfl
  sound := by rcases h with rfl | rfl <;> rfl

theorem small_tookEffect {o : Options} (h : o = keepOwner ∨ o = giveAway) :
    TookEffect o (callbacks o ⟨small.root, [47, 100]⟩ smallSource enough smallEnd.log)
      (smallTarget o) := by
  let copy := callbacks o ⟨small.root, [47, 100]⟩ smallSource enough smallEnd.log
  have hdirs : copy.dirs =
      [⟨[47, 115], [47, 100], o.override (smallSource.lstat [47, 115]), 0⟩] := by
    rcases h with rfl | rfl <;> rfl
  have hfiles : copy.files = [⟨[47, 115, 47, 97], [47, 100, 47, 97],
      o.override (smallSource.lstat [47, 115, 47, 97])⟩] := by
    rcases h with rfl | rfl <;> rfl
  have hjobs : copy.links.jobs = [] := by rcases h with rfl | rfl <;> rfl
  refine ⟨fun x hx => ?_, fun x hx => ?_, fun j hj => ?_⟩
  · obtain rfl := List.mem_singleton.mp (hdirs ▸ hx)
    rcases h with rfl | rfl <;> exact ⟨_, rfl, rfl, rfl, rfl, rfl, fun _ => ⟨rfl, rfl⟩⟩
  · obtain rfl := List.mem_singleton.mp (hfiles ▸ hx)
    rcases h with rfl | rfl <;> exact ⟨_, rfl, rfl, rfl, rfl, rfl, rfl, fun _ => ⟨rfl, rfl⟩⟩
  · have hnone : j ∈ ([] : List HardLinks.Job) := hjobs ▸ hj
    cases hnone

/-- `--verify-metadata --verify-only` in a process with effective user 0. -/
def metadataOnly : Config := ⟨true, false, 1, 0, true, false, false⟩

def meeting (lstat : Bytes → Option Stat) (item : Item) : System where
  lstat := lstat item.dst
  openFile _ _ := none
  fstatBefore := none
  fstatAfter := none
  alloc := ⟨fun _ => false, nofun⟩
  quirks := []

/-- Without `--uid` and `--gid` everything is in order. -/
theorem verify_only_accepts_iff_small :
    (verifyRunTree metadataOnly smallSource small [47, 100]
      (meeting (smallTarget keepOwner))).2 ≠ [] ∧
    ∀ report ∈ (verifyRunTree metadataOnly smallSource small [47, 100]
      (meeting (smallTarget keepOwner))).2, report.metaBad = false :=
  ⟨List.cons_ne_nil _ _,
    (verify_only_accepts_iff (small_succeeded (.inl rfl)) (small_tookEffect (.inl rfl)) ⟨rfl, rfl⟩
      fun _ => rfl).mpr (.inr (.inr fun _ _ => rfl))⟩

/-- After `--uid 1000` for files of another owner, verify-only with `--uid 1000` reports them. -/
theorem given_away_is_mismatch :
    ¬ ∀ (o : Options) (source : Source) (c : DirWalk.Config) (dst : Bytes)
      (mem : Bytes → HardLinks.Memory) (s : DirWalk.State c) (lstat : Bytes → Option Stat)
      (cfg : Config) (system : Item → System), Succeeded o source c dst mem s →
      TookEffect o (callbacks o ⟨c.root, dst⟩ source mem s.log) lstat → SameOptions o cfg →
      (∀ item, (system item).lstat = lstat item.dst) →
      ∀ report ∈ (verifyRunTree cfg source c dst system).2, report.metaBad = false := by
  intro hclaim
  have hall := hclaim giveAway smallSource small [47, 100] enough smallEnd (smallTarget giveAway)
    metadataOnly (meeting (smallTarget giveAway)) (small_succeeded (.inr rfl))
    (small_tookEffect (.inr rfl)) ⟨rfl, rfl⟩ (fun _ => rfl)
  have hbad : (verifyLocalItem metadataOnly (itemOf smallSource [47, 115] [47, 100])
      (meeting (smallTarget giveAway) (itemOf smallSource [47, 115] [47, 100]))).metaBad = true :=
    rfl
  have hgood := hall _ List.mem_cons_self
  exact (Bool.false_ne_true (hgood.symm.trans hbad)).elim

end Ecopy.Verify.TreeWalk
