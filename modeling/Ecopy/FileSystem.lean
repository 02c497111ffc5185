import Ecopy.Path

/-!
# File-system states

A state maps locations to inodes and inodes to nodes. A location is the list of
names from the top directory down; two locations of one inode are hard links.
The operations take locations, that is, paths that have been resolved already.
They check what the kernel checks: that the parents are directories, that the
last name exists or not, and which kinds may replace which. A refused operation
returns an error and no new state.

Times that the kernel sets by itself are not modelled.
-/
namespace Ecopy.FileSystem
open Protocol (Bytes)
open Ecopy.Path (Errno)

abbrev Loc := List Bytes

inductive Kind where
  | directory
  | regular (data : Bytes)
  | symlink (target : Bytes)
  | special
deriving DecidableEq, Repr

structure Node where
  kind : Kind
  mode : UInt32
  uid : UInt32
  gid : UInt32
  atime : ℤ × ℤ
  mtime : ℤ × ℤ
deriving DecidableEq, Repr

def Node.isDir (n : Node) : Bool := n.kind == .directory

@[simp] theorem Node.isDir_iff (n : Node) : n.isDir = true ↔ n.kind = .directory := by
  simp [Node.isDir]

/-- Inode numbers from `next` on are unused. -/
structure Fs where
  entry : Loc → Option ℕ
  node : ℕ → Node
  next : ℕ

namespace Fs
variable {fs : Fs} {l a b : Loc}

def isDir (fs : Fs) (l : Loc) : Bool :=
  match fs.entry l with
  | none => false
  | some i => (fs.node i).isDir

/-- Why `l` cannot be walked through. -/
def dirError (fs : Fs) (l : Loc) : Option Errno :=
  match fs.entry l with
  | none => some .enoent
  | some i => if (fs.node i).isDir then none else some .enotdir

/-- Walk down from `cur`; the first location that is no directory decides. -/
def walkDir (fs : Fs) : Loc → List Bytes → Option Errno
  | cur, [] => fs.dirError cur
  | cur, c :: cs =>
    match fs.dirError cur with
    | some e => some e
    | none => fs.walkDir (cur ++ [c]) cs

def parentError (fs : Fs) (l : Loc) : Option Errno := fs.walkDir [] l.dropLast

theorem dirError_eq_none_iff : fs.dirError l = none ↔ fs.isDir l = true := by
  unfold dirError isDir
  cases fs.entry l with
  | none => simp
  | some i => cases (fs.node i).isDir <;> simp

theorem walkDir_eq_none_iff {cur : Loc} {rest : List Bytes} :
    fs.walkDir cur rest = none ↔ ∀ l, cur <+: l → l <+: cur ++ rest → fs.isDir l = true := by
  induction rest generalizing cur with
  | nil =>
    rw [walkDir, dirError_eq_none_iff, List.append_nil]
    constructor
    · intro h l h₁ h₂
      rwa [← h₁.eq_of_length_le h₂.length_le]
    · intro h
      exact h cur (List.prefix_refl cur) (List.prefix_refl cur)
  | cons c cs ih =>
    rw [walkDir]
    cases hd : fs.dirError cur with
    | some e =>
      refine iff_of_false (by simp) fun h => ?_
      have hdir := h cur (List.prefix_refl cur) (List.prefix_append cur _)
      rw [dirError_eq_none_iff.mpr hdir] at hd
      cases hd
    | none =>
      have happ : cur ++ c :: cs = cur ++ [c] ++ cs := by simp
      have hnext : fs.walkDir (cur ++ [c]) cs = none ↔
          ∀ l, cur ++ [c] <+: l → l <+: cur ++ [c] ++ cs → fs.isDir l = true := ih
      refine hnext.trans ?_
      rw [happ]
      constructor
      · intro h l h₁ h₂
        obtain ⟨t, rfl⟩ := h₁
        cases t with
        | nil =>
          rw [List.append_nil]
          exact dirError_eq_none_iff.mp hd
        | cons x t =>
          refine h _ ?_ h₂
          have hx : x = c := by
            rw [List.append_assoc, List.prefix_append_right_inj] at h₂
            exact (List.cons_prefix_cons.mp h₂).1
          exact ⟨t, by simp [hx]⟩
      · intro h l h₁ h₂
        exact h l ((List.prefix_append cur [c]).trans h₁) h₂

/-- The parents are in order exactly when all of them are directories. -/
theorem parentError_eq_none_iff :
    fs.parentError l = none ↔ ∀ d, d <+: l.dropLast → fs.isDir d = true := by
  rw [parentError, walkDir_eq_none_iff]
  simp

theorem dirError_ne_eexist {e : Errno} (h : fs.dirError l = some e) :
    e ≠ .eexist := by
  unfold dirError at h
  split at h
  · rw [← Option.some.inj h]
    decide
  · split at h
    · cases h
    · rw [← Option.some.inj h]
      decide

theorem walkDir_ne_eexist {cur rest : Loc} {e : Errno}
    (h : fs.walkDir cur rest = some e) : e ≠ .eexist := by
  induction rest generalizing cur with
  | nil => exact dirError_ne_eexist h
  | cons c rest ih =>
    unfold walkDir at h
    split at h
    · rename_i e' he
      rw [← Option.some.inj h]
      exact dirError_ne_eexist he
    · exact ih h

/-- A new inode at `l`. -/
def create (fs : Fs) (l : Loc) (n : Node) : Fs where
  entry := Function.update fs.entry l (some fs.next)
  node := Function.update fs.node fs.next n
  next := fs.next + 1

def setNode (fs : Fs) (i : ℕ) (n : Node) : Fs := { fs with node := Function.update fs.node i n }

/-- Add a new name, for `mkdir` and `symlink`. -/
def add (fs : Fs) (l : Loc) (n : Node) : Except Errno Fs :=
  if l = [] then .error .eexist
  else
    match fs.parentError l with
    | some e => .error e
    | none => if (fs.entry l).isSome then .error .eexist else .ok (fs.create l n)

/-- `direct` is set where a file is created for direct I/O; other opens do not set it. -/
structure OpenFlags where
  write : Bool
  create : Bool
  excl : Bool
  trunc : Bool
  directory : Bool
  direct : Bool
deriving DecidableEq, Repr

/-- `open` without following a final symlink. -/
def openFile (fs : Fs) (l : Loc) (flags : OpenFlags) (n : Node) : Except Errno (ℕ × Fs) :=
  match fs.parentError l with
  | some e => .error e
  | none =>
    match fs.entry l with
    | none => if flags.create then .ok (fs.next, fs.create l n) else .error .enoent
    | some i =>
      if flags.create && flags.excl then .error .eexist
      else
        match (fs.node i).kind with
        | .directory => if flags.write then .error .eisdir else .ok (i, fs)
        | .symlink _ => .error .eloop
        | .special => if flags.directory then .error .enotdir else .ok (i, fs)
        | .regular _ =>
          if flags.directory then .error .enotdir
          else if flags.trunc then
            .ok (i, fs.setNode i { fs.node i with kind := .regular [] })
          else .ok (i, fs)

def unlink (fs : Fs) (l : Loc) : Except Errno Fs :=
  match fs.parentError l with
  | some e => .error e
  | none =>
    match fs.entry l with
    | none => .error .enoent
    | some i =>
      if (fs.node i).isDir then .error .eisdir
      else .ok { fs with entry := Function.update fs.entry l none }

/-- Move whatever is at `a`, with everything below it, to `b`. -/
def move (fs : Fs) (a b : Loc) : Fs :=
  { fs with entry := fun l =>
      if b <+: l then fs.entry (a ++ l.drop b.length)
      else if a <+: l then none
      else fs.entry l }

/-- `rename`. Two names of one inode are left alone, as POSIX asks. A directory
may replace a directory only when that one is empty. States do not list names,
so the caller says whether it is (`emptyTarget`); a target that holds the source
is not. -/
def rename (fs : Fs) (a b : Loc) (emptyTarget : Bool) : Except Errno Fs :=
  match fs.parentError a with
  | some e => .error e
  | none =>
    match fs.parentError b with
    | some e => .error e
    | none =>
      match fs.entry a with
      | none => .error .enoent
      | some i =>
        match fs.entry b with
        | none => if a <+: b then .error .einval else .ok (fs.move a b)
        | some j =>
          if i = j then .ok fs
          else if (fs.node j).isDir then
            if (fs.node i).isDir then
              if a <+: b then .error .einval
              else if b <+: a ∨ emptyTarget = false then .error .enotempty
              else .ok (fs.move a b)
            else .error .eisdir
          else if (fs.node i).isDir then .error .enotdir
          else .ok (fs.move a b)

def link (fs : Fs) (a b : Loc) : Except Errno Fs :=
  match fs.parentError a with
  | some e => .error e
  | none =>
    match fs.entry a with
    | none => .error .enoent
    | some i =>
      match fs.parentError b with
      | some e => .error e
      | none =>
        if (fs.entry b).isSome then .error .eexist
        else if (fs.node i).isDir then .error .eperm
        else .ok { fs with entry := Function.update fs.entry b (some i) }

/-- `data` written into the bytes `old` at `off`, with zeros in a gap. -/
def splice (old : Bytes) (off : ℕ) (data : Bytes) : Bytes :=
  let padded := old ++ List.replicate (off - old.length) 0
  padded.take off ++ data ++ old.drop (off + data.length)

/-- Change the bytes of a regular file; other kinds have none. -/
def modifyData (fs : Fs) (i : ℕ) (f : Bytes → Bytes) : Fs :=
  match (fs.node i).kind with
  | .regular data => fs.setNode i { fs.node i with kind := .regular (f data) }
  | _ => fs

/-- States as they are found: there is a top directory, and names stand for
inodes that exist. -/
structure Sane (fs : Fs) : Prop where
  top : fs.isDir [] = true
  bounded : ∀ l i, fs.entry l = some i → i < fs.next

/-- Entries change only at the locations `P`, objects that exist keep being
directories or not, and new entries use inodes that are accounted for. -/
structure Within (P : Loc → Prop) (fs fs' : Fs) : Prop where
  entry : ∀ l, ¬ P l → fs'.entry l = fs.entry l
  dirs : ∀ i, i < fs.next → (fs'.node i).isDir = (fs.node i).isDir
  bounded : (∀ l i, fs.entry l = some i → i < fs.next) →
    ∀ l i, fs'.entry l = some i → i < fs'.next

theorem Within.refl (P : Loc → Prop) (fs : Fs) : Within P fs fs :=
  ⟨fun _ _ => rfl, fun _ _ => rfl, fun h => h⟩

variable {fs' : Fs}

theorem Within.mono {P Q : Loc → Prop} {fs : Fs} (h : Within P fs fs') (hPQ : ∀ l, P l → Q l) :
    Within Q fs fs' :=
  ⟨fun l hl => h.entry l fun hp => hl (hPQ l hp), h.dirs, h.bounded⟩

theorem Within.isDir {P : Loc → Prop} {fs : Fs} (h : Within P fs fs')
    (hb : ∀ l i, fs.entry l = some i → i < fs.next) {l : Loc} (hl : ¬ P l) :
    fs'.isDir l = fs.isDir l := by
  unfold Fs.isDir
  rw [h.entry l hl]
  cases he : fs.entry l with
  | none => rfl
  | some i => exact h.dirs i (hb l i he)

theorem Sane.within {P : Loc → Prop} {fs : Fs} (hs : fs.Sane) (h : Within P fs fs')
    (htop : ¬ P []) : fs'.Sane :=
  ⟨by rw [h.isDir hs.bounded htop]; exact hs.top, h.bounded hs.bounded⟩

theorem within_create (fs : Fs) (l : Loc) (n : Node) : Within (· = l) fs (fs.create l n) := by
  refine ⟨fun k hk => Function.update_of_ne hk _ _, ?_, ?_⟩
  · intro i hi
    simp only [create]
    rw [Function.update_of_ne (Nat.ne_of_lt hi)]
  · intro h k i hi
    simp only [create, Function.update_apply] at hi
    split_ifs at hi
    · rw [← Option.some.inj hi]
      exact Nat.lt_succ_self _
    · exact Nat.lt_succ_of_lt (h k i hi)

theorem within_setNode {i : ℕ} {n : Node} (h : n.isDir = (fs.node i).isDir) :
    Within (fun _ => False) fs (fs.setNode i n) := by
  refine ⟨fun _ _ => rfl, ?_, fun hb => hb⟩
  intro j _
  simp only [setNode, Function.update_apply]
  split_ifs with hj
  · rw [h, hj]
  · rfl

theorem within_modifyData (fs : Fs) (i : ℕ) (f : Bytes → Bytes) :
    Within (fun _ => False) fs (fs.modifyData i f) := by
  unfold modifyData
  split
  · rename_i data hk
    exact within_setNode (by simp [Node.isDir, hk])
  · exact .refl _ _

theorem within_add {n : Node} (h : fs.add l n = .ok fs') :
    Within (fun k => k = l ∧ fs.entry k = none) fs fs' := by
  unfold add at h
  split at h
  · cases h
  split at h
  · cases h
  split at h
  · cases h
  rename_i hsome
  obtain rfl := Except.ok.inj h
  refine (within_create fs l n).mono fun k hk => ⟨hk, ?_⟩
  rw [hk]
  exact Option.not_isSome_iff_eq_none.mp hsome

theorem within_openFile {flags : OpenFlags} {n : Node} {i : ℕ}
    (h : fs.openFile l flags n = .ok (i, fs')) :
    Within (fun k => (k = l ∧ fs.entry k = none) ∧ flags.create = true) fs fs' := by
  unfold openFile at h
  split at h
  · cases h
  split at h
  · rename_i hnone
    split at h
    · rename_i hcreate
      obtain ⟨-, rfl⟩ := Prod.mk.inj (Except.ok.inj h)
      refine (within_create fs l n).mono fun k hk => ⟨⟨hk, ?_⟩, hcreate⟩
      rw [hk]
      exact hnone
    · cases h
  split at h
  · cases h
  split at h
  · split at h
    · cases h
    · obtain ⟨-, rfl⟩ := Prod.mk.inj (Except.ok.inj h)
      exact .refl _ _
  · cases h
  · split at h
    · cases h
    · obtain ⟨-, rfl⟩ := Prod.mk.inj (Except.ok.inj h)
      exact .refl _ _
  · rename_i data hk
    split at h
    · cases h
    split at h
    · obtain ⟨-, rfl⟩ := Prod.mk.inj (Except.ok.inj h)
      exact (within_setNode (by simp [Node.isDir, hk])).mono fun _ hf => hf.elim
    · obtain ⟨-, rfl⟩ := Prod.mk.inj (Except.ok.inj h)
      exact .refl _ _

/-- What is removed is no directory. -/
theorem within_unlink (h : fs.unlink l = .ok fs') : fs.isDir l = false ∧ Within (· = l) fs fs' := by
  unfold unlink at h
  split at h
  · cases h
  · split at h
    · cases h
    · rename_i i hi
      split_ifs at h with hd
      obtain rfl := Except.ok.inj h
      refine ⟨by simp [isDir, hi, hd], fun k hk => Function.update_of_ne hk _ _, fun _ _ => rfl, ?_⟩
      intro hb k j hj
      simp only [Function.update_apply] at hj
      split_ifs at hj
      exact hb k j hj

theorem within_move (fs : Fs) (a b : Loc) :
    Within (fun k => a <+: k ∨ b <+: k) fs (fs.move a b) := by
  refine ⟨?_, fun _ _ => rfl, ?_⟩
  · intro k hk
    rw [not_or] at hk
    simp only [move]
    rw [if_neg hk.2, if_neg hk.1]
  · intro hb k j hj
    simp only [move] at hj
    split_ifs at hj
    · exact hb _ j hj
    · exact hb k j hj

/-- A rename changes nothing, or it moves `a` to a `b` that is not above it. -/
theorem within_rename {emptyTarget : Bool} (h : fs.rename a b emptyTarget = .ok fs') :
    fs' = fs ∨ ((∀ d, d <+: a.dropLast → fs.isDir d = true) ∧
      (fs.isDir b = true → ¬ b <+: a) ∧ Within (fun k => a <+: k ∨ b <+: k) fs fs') := by
  unfold rename at h
  split at h
  · cases h
  rename_i hpa
  split at h
  · cases h
  split at h
  · cases h
  rename_i i hi
  have hparents := parentError_eq_none_iff.mp hpa
  split at h
  · rename_i hj
    split_ifs at h
    obtain rfl := Except.ok.inj h
    exact .inr ⟨hparents, by simp [isDir, hj], within_move fs a b⟩
  · rename_i j hj
    split_ifs at h with hij hdj hdi hab hba hdi'
    · exact .inl (Except.ok.inj h).symm
    · obtain rfl := Except.ok.inj h
      rw [not_or] at hba
      exact .inr ⟨hparents, fun _ => hba.1, within_move fs a b⟩
    · obtain rfl := Except.ok.inj h
      exact .inr ⟨hparents, by simp [isDir, hj, hdj], within_move fs a b⟩

theorem within_link (h : fs.link a b = .ok fs') :
    Within (fun k => k = b ∧ fs.entry k = none) fs fs' := by
  unfold link at h
  split at h
  · cases h
  split at h
  · cases h
  rename_i i hi
  split at h
  · cases h
  split_ifs at h with hb hd
  obtain rfl := Except.ok.inj h
  refine ⟨?_, fun _ _ => rfl, ?_⟩
  · intro k hk
    refine Function.update_of_ne ?_ _ _
    rintro rfl
    exact hk ⟨rfl, Option.not_isSome_iff_eq_none.mp hb⟩
  · intro hbound k j hj
    simp only [Function.update_apply] at hj
    split_ifs at hj
    · exact hbound a j (hi.trans hj)
    · exact hbound k j hj

end Fs

end Ecopy.FileSystem
