import Ecopy.Traversal.Recorded

/-!
# Files that are skipped and files that are queued

`flush_file_batch` looks at the destination of each file of a batch, unless the destination is
fresh. A regular file with the size and the modification time of the source is skipped, and only
its metadata is set; every other file that can be is queued for the workers. With a remote
destination one request asks about the whole batch.

The answers of the destination, of the workers and of the verification are arguments. Messages
are left out.
-/
namespace Ecopy.Traversal
open Protocol (Bytes)
open Ecopy.Path Server

/-- What is looked at of a `struct stat` at the destination. -/
structure DstStat where
  mode : UInt32
  size : ℕ
  mtime : ℤ × ℤ
deriving DecidableEq, Repr

/-- An entry of `present`, with its `struct stat`. -/
inductive Presence where
  | absent
  | failed
  | found (st : DstStat)
deriving DecidableEq, Repr

/-- `statBulk` is the reply to a request for names, `setMeta` and `queue` say whether the
metadata of a skipped file could be set and the file be queued for the verification. -/
structure Destination where
  fresh : Bool
  remote : Bool
  fstatat : Bytes → Presence
  statBulk : List Bytes → Option (List (Option DstStat))
  setMeta : FileEntry → Bool
  queue : FileEntry → Bool
  enqueue : List FileEntry → Bool

/-- `S_ISREG` -/
def DstStat.isReg (st : DstStat) : Bool := st.mode &&& 0o170000 == 0o100000

def sameSizeAndMtime (st : SourceStat) (dst : DstStat) : Bool :=
  st.size == dst.size && st.mtime == dst.mtime

def presenceOf : Option DstStat → Presence
  | none => .absent
  | some st => .found st

/-- `none` when the request has failed. At a fresh destination nobody looks at the result. -/
def statDestinationBatch (d : Destination) (names : List Bytes) : Option (List Presence) :=
  if d.fresh then some (names.map fun _ => .absent)
  else if d.remote then
    match d.statBulk names with
    | none => none
    | some replies => if replies.length = names.length then some (replies.map presenceOf) else none
  else some (names.map d.fstatat)

/-- What becomes of a file of the batch. -/
inductive Fate where
  | tooLong
  | unseen
  | notRegular
  | unset
  | skipped (verified : Bool)
  | queued
deriving DecidableEq, Repr

def fate (r : Roots) (n : DirWalk.Node) (d : Destination) (f : FileEntry) (p : Presence) : Fate :=
  match joinUnder n.path f.name, entryDst r n f.name with
  | some _, some _ =>
    match p with
    | .failed => .unseen
    | .absent => .queued
    | .found st =>
      if !st.isReg then .notRegular
      else if sameSizeAndMtime f.st st then
        if d.setMeta f then .skipped (d.queue f) else .unset
      else .queued
  | _, _ => .tooLong

/-- `ok` stands for `rc == 0`. -/
structure Flush where
  ok : Bool
  plannedBytes : UInt64
  skippedBytes : UInt64
  skipped : List FileEntry
  enqueued : List FileEntry

def Flush.start : Flush := ⟨true, 0, 0, [], []⟩

/-- The data of a file without its holes. -/
def skipPayload (st : SourceStat) : UInt64 := UInt64.ofNat (min st.size (st.blocks * 512))

/-- One round of the loop. -/
def flushEntry (r : Roots) (n : DirWalk.Node) (d : Destination) (out : Flush)
    (x : FileEntry × Presence) : Flush :=
  match fate r n d x.1 x.2 with
  | .queued =>
    { out with
      plannedBytes := out.plannedBytes + UInt64.ofNat x.1.st.size
      enqueued := out.enqueued ++ [x.1] }
  | .skipped verified =>
    { out with
      ok := out.ok && verified
      skippedBytes := out.skippedBytes + skipPayload x.1.st
      skipped := out.skipped ++ [x.1] }
  | _ => { out with ok := false }

/-- `flush_file_batch` -/
def flushBatch (r : Roots) (n : DirWalk.Node) (d : Destination) (batch : List FileEntry) : Flush :=
  if batch = [] then .start
  else
    match statDestinationBatch d (batch.map FileEntry.name) with
    | none => { Flush.start with ok := false }
    | some present =>
      let out := (batch.zip present).foldl (flushEntry r n d) .start
      { out with ok := out.ok && (out.enqueued.isEmpty || d.enqueue out.enqueued) }

section Batch
variable {r : Roots} {n : DirWalk.Node} {d : Destination} {batch : List FileEntry}
  {out : Flush} {items : List (FileEntry × Presence)}

/-- The file is skipped, whether or not it is queued for the verification. -/
def Fate.skips : Fate → Bool
  | .skipped _ => true
  | _ => false

def Fate.fine : Fate → Bool
  | .queued => true
  | .skipped verified => verified
  | _ => false

/-- The loop keeps the order, and fails with the first file that is not in order. -/
theorem flushEntries_spec (r : Roots) (n : DirWalk.Node) (d : Destination)
    (items : List (FileEntry × Presence)) (out : Flush) :
    let after := items.foldl (flushEntry r n d) out
    after.enqueued =
      out.enqueued ++ (items.filter fun x => fate r n d x.1 x.2 = .queued).map Prod.fst ∧
    after.skipped =
      out.skipped ++ (items.filter fun x => (fate r n d x.1 x.2).skips).map Prod.fst ∧
    after.ok = (out.ok && items.all fun x => (fate r n d x.1 x.2).fine) := by
  induction items generalizing out with
  | nil => simp
  | cons x items ih =>
    obtain ⟨henqueued, hskipped, hok⟩ := ih (flushEntry r n d out x)
    rw [List.foldl_cons]
    dsimp only at henqueued hskipped hok ⊢
    rw [henqueued, hskipped, hok]
    cases hfate : fate r n d x.1 x.2 <;>
      simp [flushEntry, hfate, Fate.skips, Fate.fine, Bool.and_assoc]

/-- The destination has the file as it is in the source. -/
def Presence.current (p : Presence) (st : SourceStat) : Bool :=
  match p with
  | .found dst => dst.isReg && sameSizeAndMtime st dst
  | _ => false

/-- A file that is in order is queued when it is not current, and skipped when it is. -/
structure InOrder (r : Roots) (n : DirWalk.Node) (d : Destination) (f : FileEntry) (p : Presence) :
    Prop where
  joins : ∃ src dst, joinUnder n.path f.name = some src ∧ entryDst r n f.name = some dst
  queued : p.current f.st = false → fate r n d f p = .queued
  skipped : p.current f.st = true → fate r n d f p = .skipped true ∧ d.setMeta f = true ∧
    d.queue f = true

theorem inOrder_of_fine {f : FileEntry} {p : Presence} (h : (fate r n d f p).fine = true) :
    InOrder r n d f p := by
  unfold fate at h
  cases hsrc : joinUnder n.path f.name with
  | none => simp [hsrc, Fate.fine] at h
  | some src =>
  cases hdst : entryDst r n f.name with
  | none => simp [hsrc, hdst, Fate.fine] at h
  | some dst =>
  refine ⟨⟨src, dst, hsrc, hdst⟩, fun hstale => ?_, fun hcurrent => ?_⟩
  · cases p with
    | absent => simp [fate, hsrc, hdst]
    | failed => simp [hsrc, hdst, Fate.fine] at h
    | found st =>
      cases hreg : st.isReg with
      | false => simp [hsrc, hdst, hreg, Fate.fine] at h
      | true =>
        have hdiffers : sameSizeAndMtime f.st st = false := by
          simpa [Presence.current, hreg] using hstale
        simp [fate, hsrc, hdst, hreg, hdiffers]
  · cases p with
    | absent => cases hcurrent
    | failed => cases hcurrent
    | found st =>
      obtain ⟨hreg, hsame⟩ : st.isReg = true ∧ sameSizeAndMtime f.st st = true := by
        simpa [Presence.current] using hcurrent
      cases hset : d.setMeta f with
      | false => simp [hsrc, hdst, hreg, hsame, hset, Fate.fine] at h
      | true =>
        have hqueue : d.queue f = true := by
          simpa [hsrc, hdst, hreg, hsame, hset, Fate.fine] using h
        exact ⟨by simp [fate, hsrc, hdst, hreg, hsame, hset, hqueue], rfl, hqueue⟩

theorem length_statDestinationBatch {names : List Bytes} {present : List Presence}
    (h : statDestinationBatch d names = some present) : present.length = names.length := by
  unfold statDestinationBatch at h
  split at h
  · rw [← Option.some.inj h, List.length_map]
  split at h
  · split at h
    · cases h
    · rw [Option.ite_none_right_eq_some] at h
      rw [← Option.some.inj h.2, List.length_map, h.1]
  · rw [← Option.some.inj h, List.length_map]

/-- What a flush does with the files and what it has seen of their destinations. -/
structure Flushes (r : Roots) (n : DirWalk.Node) (d : Destination) (batch : List FileEntry)
    (present : List Presence) (out : Flush) : Prop where
  length : present.length = batch.length
  enqueued : out.enqueued =
    ((batch.zip present).filter fun x => fate r n d x.1 x.2 = .queued).map Prod.fst
  skipped : out.skipped =
    ((batch.zip present).filter fun x => (fate r n d x.1 x.2).skips).map Prod.fst
  fine : out.ok = true → ∀ x ∈ batch.zip present, (fate r n d x.1 x.2).fine = true

theorem flushBatch_spec {present : List Presence} (hbatch : batch ≠ [])
    (hpresent : statDestinationBatch d (batch.map FileEntry.name) = some present) :
    Flushes r n d batch present (flushBatch r n d batch) := by
  obtain ⟨henqueued, hskipped, hok⟩ := flushEntries_spec r n d (batch.zip present) .start
  unfold flushBatch
  rw [if_neg hbatch, hpresent]
  refine ⟨?_, henqueued, hskipped, fun hfine => ?_⟩
  · rw [length_statDestinationBatch hpresent, List.length_map]
  · have hall := (Bool.and_eq_true _ _).mp hfine |>.1
    rw [hok] at hall
    exact List.all_eq_true.mp hall

theorem flushBatch_unanswered (hbatch : batch ≠ [])
    (hpresent : statDestinationBatch d (batch.map FileEntry.name) = none) :
    (flushBatch r n d batch).ok = false ∧ (flushBatch r n d batch).enqueued = [] := by
  unfold flushBatch
  rw [if_neg hbatch, hpresent]
  exact ⟨rfl, rfl⟩

theorem Flushes.parts {present : List Presence} (h : Flushes r n d batch present out)
    (hok : out.ok = true) :
    out.enqueued = ((batch.zip present).filter fun x => !x.2.current x.1.st).map Prod.fst ∧
      out.skipped = ((batch.zip present).filter fun x => x.2.current x.1.st).map Prod.fst := by
  rw [h.enqueued, h.skipped]
  constructor
  · congr 1
    refine List.filter_congr fun x hx => ?_
    have hx := inOrder_of_fine (h.fine hok x hx)
    cases hcurrent : x.2.current x.1.st with
    | false => simp [hx.queued hcurrent]
    | true => simp [(hx.skipped hcurrent).1]
  · congr 1
    refine List.filter_congr fun x hx => ?_
    have hx := inOrder_of_fine (h.fine hok x hx)
    cases hcurrent : x.2.current x.1.st with
    | false => simp [hx.queued hcurrent, Fate.skips]
    | true => simp [(hx.skipped hcurrent).1, Fate.skips]

/-- The rounds of a batch whose paths all fit. -/
theorem flushFiles_sound {s : Copy} (h : ∀ f ∈ batch, ∃ src dst,
    joinUnder n.path f.name = some src ∧ entryDst r n f.name = some dst) :
    (batch.foldl (flushFile r n) s).failed = s.failed := by
  induction batch generalizing s with
  | nil => rfl
  | cons f batch ih =>
    obtain ⟨src, dst, hsrc, hdst⟩ := h f List.mem_cons_self
    rw [List.foldl_cons, ih fun g hg => h g (List.mem_cons_of_mem f hg)]
    unfold flushFile
    rw [hsrc, hdst]

end Batch

/-- A flush without a failure queues the files of the batch that are not current at the destination
and skips the others, whose metadata it sets. So each file is queued or skipped, and not both; all
of them are among the files that the traversal takes down. -/
theorem flushBatch_exact (r : Roots) (n : DirWalk.Node) (d : Destination) (s : Copy)
    (hok : (flushBatch r n d (s.batch n)).ok = true) :
    let out := flushBatch r n d (s.batch n)
    (out.enqueued ++ out.skipped).Perm (s.batch n) ∧
      (s.batch n ≠ [] → ∃ present,
        statDestinationBatch d ((s.batch n).map FileEntry.name) = some present ∧
        out.enqueued =
          (((s.batch n).zip present).filter fun x => !x.2.current x.1.st).map Prod.fst ∧
        out.skipped = (((s.batch n).zip present).filter fun x => x.2.current x.1.st).map Prod.fst) ∧
      (∀ f ∈ out.skipped, d.setMeta f = true ∧ d.queue f = true) ∧
      (flushFileBatch r s n).failed = s.failed := by
  dsimp only
  generalize hbatch : s.batch n = batch at hok
  by_cases hempty : batch = []
  · subst hempty
    have hnone : flushBatch r n d [] = .start := rfl
    rw [hnone]
    refine ⟨List.Perm.refl _, fun h => absurd rfl h, fun f hf => (List.not_mem_nil hf).elim, ?_⟩
    unfold flushFileBatch
    rw [hbatch]
    rfl
  cases hpresent : statDestinationBatch d (batch.map FileEntry.name) with
  | none =>
    rw [(flushBatch_unanswered hempty hpresent).1] at hok
    cases hok
  | some present =>
    have hspec : Flushes r n d batch present (flushBatch r n d batch) :=
      flushBatch_spec hempty hpresent
    obtain ⟨henqueued, hskipped⟩ := hspec.parts hok
    have hfirsts : (batch.zip present).map Prod.fst = batch :=
      List.map_fst_zip hspec.length.ge
    have hall : ∀ f ∈ batch, ∃ p, InOrder r n d f p ∧ (f, p) ∈ batch.zip present := by
      intro f hf
      rw [← hfirsts] at hf
      obtain ⟨x, hx, rfl⟩ := List.mem_map.mp hf
      exact ⟨x.2, inOrder_of_fine (hspec.fine hok x hx), hx⟩
    refine ⟨?_, fun _ => ⟨present, rfl, henqueued, hskipped⟩, fun f hf => ?_, ?_⟩
    · rw [henqueued, hskipped, ← List.map_append]
      have hparts := List.filter_append_perm (fun x => !x.2.current x.1.st) (batch.zip present)
      simp only [Bool.not_not] at hparts
      have hmapped := hparts.map Prod.fst
      rwa [hfirsts] at hmapped
    · rw [hskipped] at hf
      obtain ⟨x, hx, rfl⟩ := List.mem_map.mp hf
      obtain ⟨hx, hcurrent⟩ := List.mem_filter.mp hx
      exact ((inOrder_of_fine (hspec.fine hok x hx)).skipped hcurrent).2
    · unfold flushFileBatch
      rw [hbatch, flushFiles_sound]
      intro f hf
      obtain ⟨p, hp, -⟩ := hall f hf
      exact hp.joins

/-- A file of one byte that was modified at 1. -/
def plainStat : SourceStat where
  dev := 0
  ino := 1
  mode := 0o100644
  uid := 0
  gid := 0
  size := 1
  blocks := 8
  atime := (0, 0)
  mtime := (1, 0)
  size_lt := Nat.one_lt_two_pow (by decide)
  nlink := 1

/-- The destination has the file `a` already. -/
def halfDone : Destination where
  fresh := false
  remote := false
  fstatat name := if name = [97] then .found ⟨0o100644, 1, (1, 0)⟩ else .absent
  statBulk _ := none
  setMeta _ := true
  queue _ := true
  enqueue _ := true

def halfNode : DirWalk.Node := ⟨0, [47, 115], 0, true, true, .eof false⟩

/-- The batch has the files `a` and `b`. -/
def halfBatch : Copy := { Copy.start with batch := fun _ => [⟨[97], plainStat⟩, ⟨[98], plainStat⟩] }

theorem flushBatch_exact_half :
    (flushBatch ⟨[47, 115], [47, 100]⟩ halfNode halfDone (halfBatch.batch halfNode)).ok = true ∧
    ((flushBatch ⟨[47, 115], [47, 100]⟩ halfNode halfDone (halfBatch.batch halfNode)).enqueued ++
      (flushBatch ⟨[47, 115], [47, 100]⟩ halfNode halfDone (halfBatch.batch halfNode)).skipped).Perm
      [⟨[97], plainStat⟩, ⟨[98], plainStat⟩] :=
  ⟨rfl, (flushBatch_exact ⟨[47, 115], [47, 100]⟩ halfNode halfDone halfBatch rfl).1⟩

end Ecopy.Traversal
