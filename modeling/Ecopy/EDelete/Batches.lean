import Ecopy.EDelete.Deleter
import Ecopy.Lib.CStrings

/-!
# The batches of names

A walker thread packs the names of the directory that it reads into a buffer of its own, and
makes an item of them when the buffer or the count is full and when the directory ends. The
buffer is used again for every batch and every directory, so that behind the bytes in use it
holds what former batches have left. The worker takes the names out of the item by stepping
from NUL to NUL.

`malloc` is a sequence of outcomes. Where it fails the batch, or the name, is dropped and an
error is counted. An item that is ready is handed to `unlink_queue_push`, which drops it after
a stop request; here it counts as produced.
-/
namespace Ecopy.EDelete.Batches
open Lib.CStrings
open Protocol (Bytes)

/-- A string without a NUL. -/
structure CStr where
  bytes : Bytes
  nul_free : 0 ∉ bytes

/-- `dirwalk_node_t`, by what the items take from it. -/
structure DirNode where
  path : CStr
  dev : ℕ
  ino : ℕ

/-- `unlink_item_t`; the data are the path, its NUL and the names. -/
structure UnlinkItem where
  count : ℕ
  dirLen : ℕ
  dirDev : ℕ
  dirIno : ℕ
  data : Bytes
deriving DecidableEq, Repr

/-- `t_batch`, the items that the thread has made, the errors that it has counted, and how often
it has called `malloc`. -/
structure Thread where
  buffer : ℕ → UInt8
  allocated : Bool
  used : ℕ
  count : ℕ
  items : List UnlinkItem
  errors : ℕ
  calls : ℕ

/-- The thread at its start, with whatever `malloc` leaves in the buffer. -/
def Thread.start (buffer : ℕ → UInt8) : Thread := ⟨buffer, false, 0, 0, [], 0, 0⟩

def load (buffer : ℕ → UInt8) (n : ℕ) : Bytes := (List.range n).map buffer

/-- `memcpy` into the buffer. -/
def store (buffer : ℕ → UInt8) (o : ℕ) (data : Bytes) : ℕ → UInt8 := fun i =>
  if o ≤ i ∧ i < o + data.length then data[i - o]! else buffer i

section Source
variable (malloc : ℕ → Bool)

def batchFlush (b : Thread) (node : DirNode) : Thread :=
  if b.count = 0 then b
  else
    let item : UnlinkItem := ⟨b.count, node.path.bytes.length, node.dev, node.ino,
      node.path.bytes ++ 0 :: load b.buffer b.used⟩
    let b := if malloc b.calls then { b with items := b.items ++ [item] }
      else { b with errors := b.errors + 1 }
    { b with used := 0, count := 0, calls := b.calls + 1 }

/-- The buffer, where there is none yet. -/
def allocate (b : Thread) : Thread :=
  if b.allocated then b
  else if malloc b.calls then { b with allocated := true, calls := b.calls + 1 }
  else { b with errors := b.errors + 1, calls := b.calls + 1 }

def batchAdd (node : DirNode) (b : Thread) (name : CStr) : Thread :=
  let b := allocate malloc b
  if b.allocated = false then b
  else
    let nlen := name.bytes.length + 1
    let b := if b.count = unlinkBatch ∨ b.used + nlen > unlinkBatchBytes then
        batchFlush malloc b node
      else b
    if nlen > unlinkBatchBytes then { b with errors := b.errors + 1 }
    else
      { b with
        buffer := store b.buffer b.used (name.bytes ++ [0])
        used := b.used + nlen
        count := b.count + 1 }

/-- A directory with the names that `walk_entry` chooses; `dirwalk` calls `walk_dir_end` for every
directory that it has begun. -/
structure Visit where
  node : DirNode
  names : List CStr

def visit (b : Thread) (v : Visit) : Thread :=
  batchFlush malloc (v.names.foldl (batchAdd malloc v.node) b) v.node

def run (buffer : ℕ → UInt8) (visits : List Visit) : Thread :=
  visits.foldl (visit malloc) (.start buffer)

end Source

/-- The names that `unlink_batch_run` goes through; none where it would read beyond the item. -/
def UnlinkItem.names (it : UnlinkItem) : Option (List Bytes) :=
  unpack it.data it.count (it.dirLen + 1)

/-- The directory that it opens. -/
def UnlinkItem.dir (it : UnlinkItem) : Option Bytes := stringAt it.data 0

section Buffer
variable {buffer : ℕ → UInt8} {n : ℕ} {data : Bytes}

theorem load_store (buffer : ℕ → UInt8) (o : ℕ) (data : Bytes) :
    load (store buffer o data) (o + data.length) = load buffer o ++ data := by
  unfold load
  rw [List.range_add, List.map_append]
  congr 1
  · refine List.map_congr_left fun i hi => ?_
    have hlt := List.mem_range.mp hi
    exact if_neg (by omega)
  · rw [List.map_map]
    apply List.ext_getElem
    · simp
    · intro i hi hi'
      simp [store, hi']

end Buffer

/-- The buffer holds these names. -/
structure Holds (b : Thread) (pending : List CStr) : Prop where
  bytes : load b.buffer b.used = pack (pending.map CStr.bytes)
  count : b.count = pending.length
  few : pending.length ≤ unlinkBatch
  fits : b.used ≤ unlinkBatchBytes
  buffered : pending ≠ [] → b.allocated = true

namespace Holds
variable {b : Thread} {pending : List CStr}

theorem used_eq (h : Holds b pending) : b.used = batchUsed (pending.map CStr.bytes) := by
  have hlen := congrArg List.length h.bytes
  rw [length_pack] at hlen
  simpa [load, batchUsed] using hlen

end Holds

/-- The item has these names of the directory, and it stays within its limits. -/
structure Carries (it : UnlinkItem) (node : DirNode) (names : List CStr) : Prop where
  dir : it.dir = some node.path.bytes
  dev : it.dirDev = node.dev
  ino : it.dirIno = node.ino
  read : it.names = some (names.map CStr.bytes)
  count : it.count = names.length
  few : it.count ≤ unlinkBatch
  fits : it.data.length ≤ node.path.bytes.length + 1 + unlinkBatchBytes

variable {malloc : ℕ → Bool} {b b₀ : Thread} {node : DirNode} {pending added : List CStr}

theorem Holds.carries (h : Holds b pending) (node : DirNode) :
    Carries ⟨b.count, node.path.bytes.length, node.dev, node.ino,
      node.path.bytes ++ 0 :: load b.buffer b.used⟩ node pending where
  dir := @stringAt_append [] _ _ node.path.nul_free
  dev := rfl
  ino := rfl
  read := by
    have hread := @unpack_pack (pending.map CStr.bytes)
      (by simpa using fun s _ => s.nul_free) (node.path.bytes ++ [0]) []
    rw [List.append_nil, List.length_append, List.length_singleton, List.length_map, List.append_assoc,
      List.singleton_append] at hread
    unfold UnlinkItem.names
    dsimp only
    rw [h.bytes, h.count]
    exact hread
  count := h.count
  few := by
    show b.count ≤ unlinkBatch
    rw [h.count]
    exact h.few
  fits := by
    have hfits := h.fits
    simp only [List.length_append, List.length_cons, load, List.length_map, List.length_range]
    omega

theorem holds_nil (hcount : b.count = 0) (hused : b.used = 0) : Holds b [] where
  bytes := by rw [hused]; rfl
  count := hcount
  few := Nat.zero_le _
  fits := by rw [hused]; exact Nat.zero_le _
  buffered h := absurd rfl h

theorem batchFlush_eq_self (h : b.count = 0) : batchFlush malloc b node = b := if_pos h

/-- A flush leaves nothing behind. -/
theorem Holds.flush (h : Holds b pending) : Holds (batchFlush malloc b node) [] := by
  unfold batchFlush
  by_cases hcount : b.count = 0
  · rw [if_pos hcount]
    rw [h.count, List.length_eq_zero_iff] at hcount
    subst hcount
    exact h
  · rw [if_neg hcount]
    exact holds_nil rfl rfl

theorem allocated_batchFlush : (batchFlush malloc b node).allocated = b.allocated := by
  unfold batchFlush
  dsimp only
  split_ifs <;> rfl

/-- How far a directory has come: the items made since `b₀` with the names in them, and the names
that are still in the buffer. Names are lost only with an error, and without a failed allocation
there is no error. -/
structure Progress (malloc : ℕ → Bool) (b₀ b : Thread) (node : DirNode) (added : List CStr)
    (made : List (UnlinkItem × List CStr)) (pending : List CStr) : Prop where
  holds : Holds b pending
  items : b.items = b₀.items ++ made.map Prod.fst
  carry : ∀ m ∈ made, Carries m.1 node m.2
  sublist : (made.flatMap Prod.snd ++ pending).Sublist added
  all : b.errors = b₀.errors → made.flatMap Prod.snd ++ pending = added
  errors : b₀.errors ≤ b.errors
  calls : b₀.calls ≤ b.calls
  clean : (∀ k, b₀.calls ≤ k → k < b.calls → malloc k = true) →
    (∀ s ∈ added, s.bytes.length + 1 ≤ unlinkBatchBytes) → b.errors = b₀.errors

namespace Progress
variable {made : List (UnlinkItem × List CStr)}

/-- An error and one more call that failed, with the same items and a part of the names. -/
theorem failed {b' : Thread} {pending' : List CStr} (h : Progress malloc b₀ b node added made pending)
    (hholds : Holds b' pending') (hsub : pending'.Sublist pending) (hitems : b'.items = b.items)
    (herrors : b'.errors = b.errors + 1) (hcalls : b'.calls = b.calls + 1)
    (hmalloc : malloc b.calls = false) : Progress malloc b₀ b' node added made pending' where
  holds := hholds
  items := by rw [hitems, h.items]
  carry := h.carry
  sublist := (List.Sublist.append_left hsub _).trans h.sublist
  all heq := by
    have hle := h.errors
    omega
  errors := by
    have hle := h.errors
    omega
  calls := by
    have hle := h.calls
    omega
  clean hall _ := by
    have htrue := hall b.calls h.calls (by omega)
    rw [hmalloc] at htrue
    cases htrue

theorem flush (h : Progress malloc b₀ b node added made pending) :
    ∃ made', Progress malloc b₀ (batchFlush malloc b node) node added made' [] := by
  by_cases hcount : b.count = 0
  · rw [batchFlush_eq_self hcount]
    rw [h.holds.count, List.length_eq_zero_iff] at hcount
    subst hcount
    exact ⟨made, h⟩
  · have hholds : Holds (batchFlush malloc b node) [] := h.holds.flush
    cases hmalloc : malloc b.calls with
    | false =>
      refine ⟨made, h.failed hholds (List.nil_sublist _) ?_ ?_ ?_ hmalloc⟩
      · simp [batchFlush, hcount, hmalloc]
      · simp [batchFlush, hcount, hmalloc]
      · simp [batchFlush, hcount, hmalloc]
    | true =>
      have herrors : (batchFlush malloc b node).errors = b.errors := by
        simp [batchFlush, hcount, hmalloc]
      have hcalls : (batchFlush malloc b node).calls = b.calls + 1 := by
        simp [batchFlush, hcount, hmalloc]
      refine ⟨made ++ [(⟨b.count, node.path.bytes.length, node.dev, node.ino,
        node.path.bytes ++ 0 :: load b.buffer b.used⟩, pending)], hholds, ?_, ?_, ?_, ?_, ?_, ?_, ?_⟩
      · rw [List.map_append, ← List.append_assoc, ← h.items]
        simp [batchFlush, hcount, hmalloc]
      · intro m hm
        rcases List.mem_append.mp hm with hm | hm
        · exact h.carry m hm
        · rw [List.mem_singleton.mp hm]
          exact h.holds.carries node
      · simpa using h.sublist
      · intro heq
        rw [herrors] at heq
        simpa using h.all heq
      · rw [herrors]
        exact h.errors
      · rw [hcalls]
        exact Nat.le_succ_of_le h.calls
      · intro hall hfits
        rw [herrors]
        exact h.clean (fun k hk hlt => hall k hk (by omega)) hfits

/-- A name that is not stored, with an error. -/
theorem refuse {b' : Thread} {name : CStr} (h : Progress malloc b₀ b node added made pending)
    (hholds : Holds b' pending) (hitems : b'.items = b.items) (herrors : b'.errors = b.errors + 1)
    (hcalls : b.calls ≤ b'.calls)
    (hcause : (∀ k, b₀.calls ≤ k → k < b'.calls → malloc k = true) →
      ¬ name.bytes.length + 1 ≤ unlinkBatchBytes) :
    Progress malloc b₀ b' node (added ++ [name]) made pending where
  holds := hholds
  items := by rw [hitems, h.items]
  carry := h.carry
  sublist := h.sublist.trans (List.sublist_append_left _ _)
  all heq := by
    have hle := h.errors
    omega
  errors := by
    have hle := h.errors
    omega
  calls := h.calls.trans hcalls
  clean hall hfits := absurd (hfits name (by simp)) (hcause hall)

/-- A name for which there is room. -/
theorem put {name : CStr} (h : Progress malloc b₀ b node added made pending)
    (halloc : b.allocated = true) (hfew : pending.length < unlinkBatch)
    (hroom : b.used + (name.bytes.length + 1) ≤ unlinkBatchBytes) :
    Progress malloc b₀ { b with buffer := store b.buffer b.used (name.bytes ++ [0])
                                used := b.used + (name.bytes.length + 1)
                                count := b.count + 1 }
      node (added ++ [name]) made (pending ++ [name]) where
  holds := by
    refine ⟨?_, ?_, ?_, hroom, fun _ => halloc⟩
    · have hload := load_store b.buffer b.used (name.bytes ++ [0])
      rw [List.length_append, List.length_singleton] at hload
      dsimp only
      rw [hload, h.holds.bytes, List.map_append, pack_append]
      simp [pack]
    · rw [List.length_append, List.length_singleton, ← h.holds.count]
    · rw [List.length_append, List.length_singleton]
      exact hfew
  items := h.items
  carry := h.carry
  sublist := by
    rw [← List.append_assoc]
    exact h.sublist.append_right [name]
  all heq := by rw [← List.append_assoc, h.all heq]
  errors := h.errors
  calls := h.calls
  clean hall hfits := h.clean hall fun s hs => hfits s (List.mem_append_left _ hs)

/-- One name, from the test of the buffer on. -/
theorem addAllocated (h : Progress malloc b₀ b node added made pending) (halloc : b.allocated = true)
    (name : CStr) : ∃ made' pending',
      Progress malloc b₀ (batchAdd malloc node b name) node (added ++ [name]) made' pending' := by
  obtain ⟨made', pending', b', hb', hnext, halloc', hempty⟩ : ∃ made' pending', ∃ b' : Thread,
      b' = (if b.count = unlinkBatch ∨ b.used + (name.bytes.length + 1) > unlinkBatchBytes then
        batchFlush malloc b node else b) ∧ Progress malloc b₀ b' node added made' pending' ∧
          b'.allocated = true ∧
            (pending' = [] ∨ pending'.length < unlinkBatch ∧
              b'.used + (name.bytes.length + 1) ≤ unlinkBatchBytes) := by
    by_cases hfull : b.count = unlinkBatch ∨ b.used + (name.bytes.length + 1) > unlinkBatchBytes
    · obtain ⟨made', hflush⟩ := h.flush
      exact ⟨made', [], _, (if_pos hfull).symm, hflush, allocated_batchFlush.trans halloc, .inl rfl⟩
    · have hfew := h.holds.few
      have hcount := h.holds.count
      rw [not_or] at hfull
      exact ⟨made, pending, b, (if_neg (not_or.mpr hfull)).symm, h, halloc, .inr (by omega)⟩
  have hstart : allocate malloc b = b := if_pos halloc
  unfold batchAdd
  dsimp only
  rw [hstart, if_neg (by simp [halloc]), ← hb']
  by_cases hlong : name.bytes.length + 1 > unlinkBatchBytes
  · rw [if_pos hlong]
    have hh := hnext.holds
    have hrefused : Holds { b' with errors := b'.errors + 1 } pending' :=
      ⟨hh.bytes, hh.count, hh.few, hh.fits, hh.buffered⟩
    exact ⟨made', pending', hnext.refuse hrefused rfl rfl (le_refl _) fun _ => Nat.not_le.mpr hlong⟩
  · rw [if_neg hlong]
    have hroom : pending'.length < unlinkBatch ∧
        b'.used + (name.bytes.length + 1) ≤ unlinkBatchBytes := by
      rcases hempty with rfl | hroom
      · have hused := hnext.holds.used_eq
        have hzero : b'.used = 0 := hused
        rw [hzero]
        exact ⟨by decide, by omega⟩
      · exact hroom
    exact ⟨made', _, hnext.put halloc' hroom.1 hroom.2⟩

theorem add (h : Progress malloc b₀ b node added made pending) (name : CStr) : ∃ made' pending',
    Progress malloc b₀ (batchAdd malloc node b name) node (added ++ [name]) made' pending' := by
  by_cases halloc : b.allocated = true
  · exact h.addAllocated halloc name
  · have hh := h.holds
    cases hmalloc : malloc b.calls with
    | false =>
      have hresult : batchAdd malloc node b name =
          { b with errors := b.errors + 1, calls := b.calls + 1 } := by
        simp [batchAdd, allocate, halloc, hmalloc]
      rw [hresult]
      refine ⟨made, pending, h.refuse ⟨hh.bytes, hh.count, hh.few, hh.fits, hh.buffered⟩ rfl rfl
        (Nat.le_succ _) fun hall => ?_⟩
      have htrue := hall b.calls h.calls (Nat.lt_succ_self _)
      rw [hmalloc] at htrue
      cases htrue
    | true =>
      have hstart : batchAdd malloc node b name =
          batchAdd malloc node { b with allocated := true, calls := b.calls + 1 } name := by
        simp [batchAdd, allocate, halloc, hmalloc]
      rw [hstart]
      have hready : Progress malloc b₀ { b with allocated := true, calls := b.calls + 1 } node added
          made pending :=
        ⟨⟨hh.bytes, hh.count, hh.few, hh.fits, fun _ => rfl⟩, h.items, h.carry, h.sublist, h.all,
          h.errors, Nat.le_succ_of_le h.calls,
          fun hall => h.clean fun k hk hlt => hall k hk (Nat.lt_succ_of_lt hlt)⟩
      exact hready.addAllocated rfl name

end Progress

/-- A directory that is begun with nothing in the buffer. -/
theorem progress_start (h : Holds b []) : Progress malloc b b node [] [] [] :=
  ⟨h, by simp, nofun, List.Sublist.refl _, fun _ => rfl, le_refl _, le_refl _, fun _ _ => rfl⟩

theorem progress_visit (h : Holds b []) (v : Visit) :
    ∃ made, Progress malloc b (visit malloc b v) v.node v.names made [] := by
  obtain ⟨names, hnames⟩ : ∃ names, names = v.names := ⟨_, rfl⟩
  have hadds : ∃ made pending, Progress malloc b (names.foldl (batchAdd malloc v.node) b) v.node
      names made pending := by
    clear hnames
    induction names using List.reverseRecOn with
    | nil => exact ⟨[], [], progress_start h⟩
    | append_singleton names name ih =>
      obtain ⟨made, pending, hprogress⟩ := ih
      rw [List.foldl_concat]
      exact hprogress.add name
  rw [hnames] at hadds
  obtain ⟨made, pending, hprogress⟩ := hadds
  exact hprogress.flush

/-- Between two directories the buffer is empty. -/
theorem holds_run (buffer : ℕ → UInt8) (visits : List Visit) : Holds (run malloc buffer visits) [] := by
  induction visits using List.reverseRecOn with
  | nil => exact holds_nil rfl rfl
  | append_singleton visits v ih =>
    unfold run
    rw [List.foldl_concat]
    obtain ⟨made, hvisit⟩ := progress_visit ih v
    exact hvisit.holds

/-- The items that are made for a directory, after any other directories, carry names of it in the
order in which they were added, and no item reads beyond its data. All names are there unless an
error was counted, and none is unless an allocation failed or a name does not fit the buffer.
Nothing stays in the buffer. -/
theorem visit_items (malloc : ℕ → Bool) (buffer : ℕ → UInt8) (before : List Visit) (v : Visit) :
    let b := run malloc buffer before
    let b' := run malloc buffer (before ++ [v])
    (∃ made : List (UnlinkItem × List CStr), b'.items = b.items ++ made.map Prod.fst ∧
      (∀ m ∈ made, Carries m.1 v.node m.2) ∧ (made.flatMap Prod.snd).Sublist v.names ∧
      (b'.errors = b.errors → made.flatMap Prod.snd = v.names)) ∧
    ((∀ k, b.calls ≤ k → k < b'.calls → malloc k = true) →
      (∀ s ∈ v.names, s.bytes.length + 1 ≤ unlinkBatchBytes) → b'.errors = b.errors) ∧
    b'.count = 0 ∧ b'.used = 0 := by
  have hrun : run malloc buffer (before ++ [v]) = visit malloc (run malloc buffer before) v :=
    List.foldl_concat ..
  have hholds : Holds (run malloc buffer before) [] := holds_run buffer before
  obtain ⟨made, h⟩ : ∃ made, Progress malloc _ _ v.node v.names made [] := progress_visit hholds v
  have hsub := h.sublist
  have hall := h.all
  rw [List.append_nil] at hsub hall
  rw [← hrun] at h hall
  exact ⟨⟨made, h.items, h.carry, hsub, hall⟩, h.clean, h.holds.count, h.holds.used_eq⟩

/-- The second allocation fails, and with it the item of a directory with one file. -/
theorem failed_malloc_loses_names : ¬ ∀ (malloc : ℕ → Bool) (buffer : ℕ → UInt8)
    (before : List Visit) (v : Visit), (∀ s ∈ v.names, s.bytes.length + 1 ≤ unlinkBatchBytes) →
    ∃ made : List (UnlinkItem × List CStr),
      (run malloc buffer (before ++ [v])).items =
        (run malloc buffer before).items ++ made.map Prod.fst ∧
      (∀ m ∈ made, Carries m.1 v.node m.2) ∧ made.flatMap Prod.snd = v.names := by
  intro h
  obtain ⟨made, hitems, -, hnames⟩ := h (fun k => k == 0) (fun _ => 0) []
    ⟨⟨⟨[47, 100], by decide⟩, 1, 2⟩, [⟨[97], by decide⟩]⟩ (by decide)
  have hnone : made.map Prod.fst = [] := by
    have hempty : (run (fun k => k == 0) (fun _ => 0)
      [⟨⟨⟨[47, 100], by decide⟩, 1, 2⟩, [⟨[97], by decide⟩]⟩]).items = [] := by rfl
    have hstart : (run (fun k => k == 0) (fun _ => 0) []).items = [] := rfl
    rw [List.nil_append, hempty, hstart, List.nil_append] at hitems
    exact hitems.symm
  rw [List.map_eq_nil_iff] at hnone
  rw [hnone] at hnames
  cases hnames

end Ecopy.EDelete.Batches
