import Ecopy.Traversal.FileBatches
import Ecopy.Traversal.WholeTree

/-!
# A second run

After a copy that has kept the times, the destination has every file of the tree with the size
and the modification time of the source. So a second traversal of the same tree, on any number of
threads and in any order, hands no file to the workers.
-/
namespace Ecopy.Traversal.WholeTree
open Protocol (Bytes)
open Ecopy.Path Server
open Verify.TreeWalk
open Verify.LocalItem (Stat)

/-- What `fstatat` finds of an object. -/
def presenceAt (st : Option Stat) : Presence :=
  presenceOf (st.map fun st => ⟨st.mode, st.size, st.mtime⟩)

/-- The flush has seen the destination as it is. -/
def Looks (r : Roots) (n : DirWalk.Node) (d : Destination) (lstat : Bytes → Option Stat)
    (batch : List FileEntry) : Prop :=
  ∀ present, statDestinationBatch d (batch.map FileEntry.name) = some present →
    ∀ x ∈ batch.zip present, ∀ dst, entryDst r n x.1.name = some dst → x.2 = presenceAt (lstat dst)

section Second
variable {o : Options} {source : Source} {c : DirWalk.Config} {dst : Bytes}
  {mem mem' : Bytes → HardLinks.Memory} {s s' : DirWalk.State c} {lstat : Bytes → Option Stat}
  {n : DirWalk.Node} {d : Destination}

/-- The copy of a file has the size and the modification time that the traversal compares. -/
theorem current_of_like {st : SourceStat} {actual : Stat} (hreg : st.isReg = true)
    (hlike : Like o st actual) (htimes : o.preserveTimes = true) :
    (presenceAt (some actual)).current (o.override st) = true := by
  have hfile : (⟨actual.mode, actual.size, actual.mtime⟩ : DstStat).isReg = true := by
    rw [← hreg]
    change (actual.fileType == 0o100000) = (st.fileType == 0o100000)
    rw [hlike.fileType]
  have hsize : (o.override st).size = actual.size :=
    (hlike.size (SourceStat.type_of_isReg hreg).1).symm
  have hmtime : (o.override st).mtime = actual.mtime := (hlike.preserved.times htimes).2.symm
  unfold presenceAt presenceOf Presence.current
  dsimp only [Option.map_some]
  rw [hfile, sameSizeAndMtime, hsize, hmtime]
  simp

/-- After a copy that has kept the times, no file of the tree is queued again. -/
theorem second_run_copies_nothing (h : Succeeded o source c dst mem s)
    (heffect : TookEffect o (callbacks o ⟨c.root, dst⟩ source mem s.log) lstat)
    (htimes : o.preserveTimes = true) (h' : Succeeded o source c dst mem' s')
    {batch : List FileEntry} (hbatch : ∀ f ∈ batch, Came o source s'.log n f)
    (hlooks : Looks ⟨c.root, dst⟩ n d lstat batch) :
    (flushBatch ⟨c.root, dst⟩ n d batch).enqueued = [] ∧
      ((flushBatch ⟨c.root, dst⟩ n d batch).ok = true →
        (flushBatch ⟨c.root, dst⟩ n d batch).skipped = batch) := by
  by_cases hempty : batch = []
  · subst hempty
    exact ⟨rfl, fun _ => rfl⟩
  cases hpresent : statDestinationBatch d (batch.map FileEntry.name) with
  | none =>
    obtain ⟨hfailed, hnone⟩ := flushBatch_unanswered (r := ⟨c.root, dst⟩) (n := n) hempty hpresent
    refine ⟨hnone, fun hok => ?_⟩
    rw [hfailed] at hok
    cases hok
  | some present =>
    have hspec : Flushes ⟨c.root, dst⟩ n d batch present (flushBatch ⟨c.root, dst⟩ n d batch) :=
      flushBatch_spec hempty hpresent
    have hcurrent : ∀ x ∈ batch.zip present, ∀ out,
        entryDst ⟨c.root, dst⟩ n x.1.name = some out → x.2.current x.1.st = true := by
      intro x hx out hout
      have hcame := hbatch x.1 (List.of_mem_zip hx).1
      obtain ⟨below, l, ht, hpath, hdst⟩ := inTree_of_met h' hcame.met
      have hst : x.1.st = o.override (source.lstat (c.root ++ below)) := by
        rw [hcame.st, hpath]
      have hreg : (source.lstat (c.root ++ below)).isReg = true := by
        have hfile := hcame.isReg
        rwa [hst] at hfile
      obtain ⟨actual, hlstat, hlike⟩ := heffect.like
        (.inr ⟨hreg, (takenDown_of_inTree h ht).file hreg⟩)
      rw [hlooks present hpresent x hx out hout, hdst out hout, hlstat, hst]
      exact current_of_like hreg hlike htimes
    have hnone : (flushBatch ⟨c.root, dst⟩ n d batch).enqueued = [] := by
      rw [hspec.enqueued, List.map_eq_nil_iff, List.filter_eq_nil_iff]
      intro x hx hqueued
      rw [decide_eq_true_eq] at hqueued
      have horder : InOrder ⟨c.root, dst⟩ n d x.1 x.2 :=
        inOrder_of_fine (by rw [hqueued]; rfl)
      obtain ⟨-, out, -, hout⟩ := horder.joins
      rw [(horder.skipped (hcurrent x hx out hout)).1] at hqueued
      cases hqueued
    refine ⟨hnone, fun hok => ?_⟩
    rw [(hspec.parts hok).2, List.filter_eq_self.mpr]
    · exact List.map_fst_zip hspec.length.ge
    · intro x hx
      obtain ⟨-, out, -, hout⟩ := (inOrder_of_fine (hspec.fine hok x hx)).joins
      exact hcurrent x hx out hout

end Second

/-- The destination after the copy of `/s` with the file `a`. -/
def copiedBefore : Destination where
  fresh := false
  remote := false
  fstatat _ := presenceAt (smallTarget keepOwner [47, 100, 47, 97])
  statBulk _ := none
  setMeta _ := true
  queue _ := true
  enqueue _ := true

def copiedFile : FileEntry := ⟨[97], keepOwner.override (smallSource.lstat [47, 115, 47, 97])⟩

theorem second_run_copies_nothing_small :
    (flushBatch ⟨small.root, [47, 100]⟩ small.rootNode copiedBefore
      [copiedFile]).enqueued = [] := by
  have hcame : ∀ f ∈ [copiedFile],
      Came keepOwner smallSource smallEnd.log small.rootNode f := by
    intro f hf
    rw [List.mem_singleton.mp hf]
    exact ⟨⟨⟨[97], .other, .other, true, true⟩, true, false, none,
      List.mem_cons_of_mem _ List.mem_cons_self, rfl⟩, rfl, rfl⟩
  have hlooks : Looks ⟨small.root, [47, 100]⟩ small.rootNode copiedBefore (smallTarget keepOwner)
      [copiedFile] := by
    intro present hpresent x hx dst hdst
    obtain rfl := Option.some.inj hpresent
    obtain rfl := List.mem_singleton.mp hx
    obtain rfl := Option.some.inj hdst
    rfl
  exact (second_run_copies_nothing (small_succeeded (.inl rfl)) (small_tookEffect (.inl rfl)) rfl
    (small_succeeded (.inl rfl)) hcame hlooks).1

end Ecopy.Traversal.WholeTree
