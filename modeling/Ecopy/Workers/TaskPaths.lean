import Ecopy.Lib.Buffers
import Ecopy.Lib.CStrings
import Ecopy.Server.Handlers

/-!
# The strings of a queued file

A `file_task_t` carries the two paths and the name of its file in one flexible tail. One
function computes how many bytes they take, another one writes them behind a moving pointer,
and the node may come from a file of another directory. The writes of the model fail outside
of the tail.

`path_join_fast` gives the same paths where it is used in place of these, for the directories
that a traversal has: `/` itself and those without a slash at their end.
-/
namespace Ecopy.Workers.TaskPaths
open Lib.Buffers Lib.CStrings
open Protocol (Bytes)
open Ecopy.Path (slash)
open Server (pathJoinFast)

structure CString where
  bytes : Bytes
  nulFree : 0 ∉ bytes

/-- The two directories of a `dir_handle_t`. -/
structure DirHandle where
  src : CString
  dst : CString

/-- A `file_task_t` as far as its tail is concerned; the strings are places in the tail. -/
structure TaskNode where
  dataCap : ℕ
  data : Buf UInt8 dataCap
  src : ℕ
  dst : ℕ
  name : ℕ
  srcLen : UInt32

def sepLen (dir : Bytes) : ℕ :=
  if 0 < dir.length ∧ dir[dir.length - 1]? = some slash then 0 else 1

def fileTaskDataNeed (dir : DirHandle) (nameLen : ℕ) : ℕ :=
  (dir.src.bytes.length + sepLen dir.src.bytes + nameLen + 1) +
    (dir.dst.bytes.length + sepLen dir.dst.bytes + nameLen + 1) + (nameLen + 1)

section
variable {cap : ℕ}

def putSep (data : Buf UInt8 cap) (p : ℕ) (dir : Bytes) : Option (Buf UInt8 cap) :=
  if sepLen dir = 1 then data.write p [slash] else some data

/-- Directory, separator and name from `p` on, and the place behind them. -/
def putPath (data : Buf UInt8 cap) (p : ℕ) (dir name : Bytes) : Option (Buf UInt8 cap × ℕ) := do
  let data ← data.write p dir
  let p := p + dir.length
  let data ← putSep data p dir
  let p := p + sepLen dir
  let data ← data.write p (name ++ [0])
  return (data, p + (name.length + 1))

end

def fileTaskFillPaths (t : TaskNode) (dir : DirHandle) (name : Bytes) : Option TaskNode := do
  let (data, dst) ← putPath t.data 0 dir.src.bytes name
  let (data, last) ← putPath data dst dir.dst.bytes name
  let data ← data.write last (name ++ [0])
  return { t with
    data := data
    src := 0
    dst := dst
    name := last
    srcLen := UInt32.ofNat (dir.src.bytes.length + sepLen dir.src.bytes + name.length) }

/-- What `malloc` returns: nothing, or memory with anything in it. -/
abbrev Malloc := (n : ℕ) → Option (Buf UInt8 n)

def newNode {n : ℕ} (data : Buf UInt8 n) : TaskNode := ⟨n, data, 0, 0, 0, 0⟩

/-- The next recycled node if it is large enough, else a new one. -/
def takeNode (malloc : Malloc) (spares : List TaskNode) (need : ℕ) :
    Option TaskNode × List TaskNode :=
  match spares with
  | [] => ((malloc need).map newNode, [])
  | t :: spares => if t.dataCap < need then ((malloc need).map newNode, spares) else (some t, spares)

inductive Fault where
  | enomem
  | overflow
deriving DecidableEq, Repr

/-- The loop of `workers_enqueue_batch` that builds the nodes: the batch and the nodes left. Each
file has its own call of `malloc`. -/
def buildBatch (dir : DirHandle) : List (CString × Malloc) → List TaskNode →
    Except Fault (List TaskNode × List TaskNode)
  | [], spares => .ok ([], spares)
  | (name, malloc) :: items, spares =>
    let (node, spares) := takeNode malloc spares (fileTaskDataNeed dir name.bytes.length)
    match node with
    | none => .error .enomem
    | some t =>
      match fileTaskFillPaths t dir name.bytes with
      | none => .error .overflow
      | some t => (buildBatch dir items spares).map fun r => (t :: r.1, r.2)

/-- The path that is packed. -/
def taskPath (dir name : Bytes) : Bytes := dir ++ (if sepLen dir = 1 then [slash] else []) ++ name

theorem sepLen_cases (dir : Bytes) : sepLen dir = 0 ∨ sepLen dir = 1 := by
  unfold sepLen
  split_ifs
  · exact Or.inl rfl
  · exact Or.inr rfl

theorem length_taskPath (dir name : Bytes) :
    (taskPath dir name).length = dir.length + sepLen dir + name.length := by
  unfold taskPath
  rw [List.length_append, List.length_append]
  rcases sepLen_cases dir with h | h
  · rw [h]
    rfl
  · rw [h]
    rfl

theorem nul_free_taskPath {dir name : Bytes} (hdir : 0 ∉ dir) (hname : 0 ∉ name) :
    0 ∉ taskPath dir name := by
  unfold taskPath
  rw [List.mem_append, List.mem_append, not_or, not_or]
  refine ⟨⟨hdir, ?_⟩, hname⟩
  split_ifs
  · decide
  · exact List.not_mem_nil

section
variable {cap : ℕ}

/-- A path and its NUL are one block. -/
theorem putPath_eq (data : Buf UInt8 cap) (p : ℕ) (dir name : Bytes) :
    putPath data p dir name =
      (data.write p (taskPath dir name ++ [0])).map (·, p + (taskPath dir name ++ [0]).length) := by
  have hend : p + dir.length + sepLen dir + (name.length + 1) =
      p + (taskPath dir name ++ [0]).length := by
    rw [List.length_append, length_taskPath, List.length_singleton]
    omega
  have hblock : data.write p (taskPath dir name ++ [0]) =
      (data.write p dir).bind fun d => (putSep d (p + dir.length) dir).bind fun d =>
        d.write (p + dir.length + sepLen dir) (name ++ [0]) := by
    rw [taskPath, List.append_assoc, List.append_assoc, ← Buf.write_append]
    congr 1
    funext d
    rcases sepLen_cases dir with h | h
    · rw [putSep, h]
      rfl
    · rw [putSep, h, if_pos rfl, if_pos rfl, ← Buf.write_append]
      rfl
  rw [← hend, hblock, putPath, Option.map_bind]
  congr 1
  funext d
  dsimp only [Function.comp]
  rw [Option.map_bind]
  congr 1
  funext d
  dsimp only [Function.comp]
  cases d.write (p + dir.length + sepLen dir) (name ++ [0]) with
  | none => rfl
  | some d => rfl

end

/-- Everything that is packed into the tail. -/
def packed (dir : DirHandle) (name : Bytes) : Bytes :=
  pack [taskPath dir.src.bytes name, taskPath dir.dst.bytes name, name]

theorem packed_eq (dir : DirHandle) (name : Bytes) : packed dir name =
    (taskPath dir.src.bytes name ++ [0]) ++ ((taskPath dir.dst.bytes name ++ [0]) ++
      (name ++ [0])) := by
  simp [packed, pack]

theorem length_packed (dir : DirHandle) (name : Bytes) :
    (packed dir name).length = fileTaskDataNeed dir name.length := by
  rw [packed_eq, fileTaskDataNeed]
  simp only [List.length_append, length_taskPath, List.length_singleton]
  omega

/-- All writes together are one, at the start of the tail. -/
theorem fileTaskFillPaths_eq (t : TaskNode) (dir : DirHandle) (name : Bytes) :
    fileTaskFillPaths t dir name = (t.data.write 0 (packed dir name)).map fun data =>
      { t with
        data := data
        src := 0
        dst := (taskPath dir.src.bytes name).length + 1
        name := (taskPath dir.src.bytes name).length + 1 +
          ((taskPath dir.dst.bytes name).length + 1)
        srcLen := UInt32.ofNat (taskPath dir.src.bytes name).length } := by
  have hlength : ∀ s : Bytes, (s ++ [0]).length = s.length + 1 := fun s => List.length_append
  rw [fileTaskFillPaths, packed_eq, ← Buf.write_append, ← length_taskPath, putPath_eq, hlength,
    Nat.zero_add]
  cases t.data.write 0 (taskPath dir.src.bytes name ++ [0]) with
  | none => rfl
  | some d =>
    rw [Option.map_some, Option.bind_some, ← Buf.write_append, hlength]
    show ((putPath d ((taskPath dir.src.bytes name).length + 1) dir.dst.bytes name).bind _) = _
    rw [putPath_eq, hlength]
    cases d.write ((taskPath dir.src.bytes name).length + 1)
        (taskPath dir.dst.bytes name ++ [0]) with
    | none => rfl
    | some d =>
      rw [Option.map_some, Option.bind_some, Option.bind_some]
      show ((d.write _ (name ++ [0])).bind _) = _
      cases d.write ((taskPath dir.src.bytes name).length + 1 +
          ((taskPath dir.dst.bytes name).length + 1)) (name ++ [0]) with
      | none => rfl
      | some d => rfl

/-- `/`, or no slash at the end. -/
def Plain (dir : Bytes) : Prop := dir = [slash] ∨ dir.getLast? ≠ some slash

theorem pathJoinFast_eq {dir : Bytes} (h : Plain dir) (name : Bytes) (outSz : ℕ) :
    pathJoinFast dir name outSz =
      if outSz < (taskPath dir name).length + 1 then none else some (taskPath dir name) := by
  have hjoin : ∀ base : Bytes, base ++ slash :: name = taskPath dir name →
      (if base.length + 1 + name.length + 1 > outSz then none else some (base ++ slash :: name)) =
        if outSz < (taskPath dir name).length + 1 then none else some (taskPath dir name) := by
    intro base hbase
    have hlength : (taskPath dir name).length = base.length + 1 + name.length := by
      rw [← hbase, List.length_append, List.length_cons]
      omega
    rw [hbase, hlength]
  rw [pathJoinFast]
  by_cases hroot : dir = [slash]
  · subst hroot
    rw [if_pos rfl]
    exact hjoin [] rfl
  · rw [if_neg hroot]
    apply hjoin
    have hsep : sepLen dir = 1 := by
      have hlast := h.resolve_left hroot
      rw [List.getLast?_eq_getElem?] at hlast
      unfold sepLen
      rw [if_neg fun hslash => hlast hslash.2]
    rw [taskPath, hsep, if_pos rfl, List.append_assoc]
    rfl

/-- The node `t`, filled for a file: as many bytes as were computed, three strings apart from each
other, and they are what the joiner gives. -/
structure Packed (dir : DirHandle) (name : Bytes) (t filled : TaskNode) : Prop where
  room : fileTaskDataNeed dir name.length ≤ t.dataCap
  same : filled.dataCap = t.dataCap
  written : ∃ block, block.length = fileTaskDataNeed dir name.length ∧
    filled.data.cells = block ++ t.data.cells.drop (fileTaskDataNeed dir name.length)
  src : ∃ s, stringAt filled.data.cells filled.src = some s ∧
    filled.src + s.length + 1 ≤ filled.dst ∧ filled.srcLen = UInt32.ofNat s.length ∧
    (Plain dir.src.bytes → ∀ outSz, pathJoinFast dir.src.bytes name outSz =
      if outSz < s.length + 1 then none else some s)
  dst : ∃ s, stringAt filled.data.cells filled.dst = some s ∧
    filled.dst + s.length + 1 ≤ filled.name ∧
    (Plain dir.dst.bytes → ∀ outSz, pathJoinFast dir.dst.bytes name outSz =
      if outSz < s.length + 1 then none else some s)
  name : stringAt filled.data.cells filled.name = some name ∧
    filled.name + name.length + 1 = fileTaskDataNeed dir name.length

theorem fileTaskFillPaths_packed {t : TaskNode} {dir : DirHandle} (name : CString)
    (hroom : fileTaskDataNeed dir name.bytes.length ≤ t.dataCap) :
    ∃ filled, fileTaskFillPaths t dir name.bytes = some filled ∧
      Packed dir name.bytes t filled := by
  have hlength := length_packed dir name.bytes
  have hwrite : 0 + (packed dir name.bytes).length ≤ t.dataCap := by omega
  have hcells : splice t.data.cells 0 (packed dir name.bytes) =
      packed dir name.bytes ++ t.data.cells.drop (fileTaskDataNeed dir name.bytes.length) := by
    rw [splice_zero, hlength]
  have hneed : fileTaskDataNeed dir name.bytes.length =
      (taskPath dir.src.bytes name.bytes).length + 1 +
        ((taskPath dir.dst.bytes name.bytes).length + 1) + (name.bytes.length + 1) := by
    rw [length_taskPath, length_taskPath, fileTaskDataNeed]
  have hsplit : splice t.data.cells 0 (packed dir name.bytes) =
      taskPath dir.src.bytes name.bytes ++ 0 :: (taskPath dir.dst.bytes name.bytes ++
        0 :: (name.bytes ++ 0 ::
          t.data.cells.drop (fileTaskDataNeed dir name.bytes.length))) := by
    rw [hcells]
    simp [packed_eq]
  have hsrc := nul_free_taskPath dir.src.nulFree name.nulFree
  have hdst := nul_free_taskPath dir.dst.nulFree name.nulFree
  rw [fileTaskFillPaths_eq, Buf.write_of_le hwrite, Option.map_some]
  refine ⟨_, rfl, ⟨hroom, rfl, ⟨_, hlength, hcells⟩, ?_, ?_, ?_⟩⟩
  · refine ⟨taskPath dir.src.bytes name.bytes, ?_, ?_, rfl, fun h => pathJoinFast_eq h _⟩
    · exact stringAt_of_split [] _ hsplit rfl hsrc
    · dsimp only
      omega
  · refine ⟨taskPath dir.dst.bytes name.bytes, ?_, le_refl _, fun h => pathJoinFast_eq h _⟩
    refine stringAt_of_split (taskPath dir.src.bytes name.bytes ++ [0]) _
      (hsplit.trans (List.append_cons _ _ _)) ?_ hdst
    rw [List.length_append, List.length_singleton]
  · refine ⟨?_, hneed.symm⟩
    apply stringAt_of_split (taskPath dir.src.bytes name.bytes ++ [0] ++
      (taskPath dir.dst.bytes name.bytes ++ [0]))
      (t.data.cells.drop (fileTaskDataNeed dir name.bytes.length))
    · refine hsplit.trans ?_
      simp
    · rw [List.length_append, List.length_append, List.length_append, List.length_singleton]
    · exact name.nulFree

/-- The node that is taken for a file has room for its strings, wherever it comes from. -/
theorem takeNode_room {malloc : Malloc} {spares : List TaskNode} {need : ℕ} {t : TaskNode}
    (h : (takeNode malloc spares need).1 = some t) : need ≤ t.dataCap := by
  have hnew : ∀ t, (malloc need).map newNode = some t → need ≤ t.dataCap := by
    intro t ht
    obtain ⟨data, -, rfl⟩ := Option.map_eq_some_iff.mp ht
    exact le_refl need
  unfold takeNode at h
  cases spares with
  | nil => exact hnew t h
  | cons x spares =>
    dsimp only at h
    split_ifs at h with hsmall
    · exact hnew t h
    · obtain rfl := Option.some.inj h
      exact Nat.not_lt.mp hsmall

end Ecopy.Workers.TaskPaths
