import Ecopy.Workers.Contents

/-!
# What the mode of a file lets a process do

A file is opened by its name only when the class of the user has the bit for it: the owner,
the group, or everybody else. The kernel of the server model refuses an open whenever the
environment wants it to; here `EACCES` tells the truth about the mode of the file. The
directories above are open to the user.
-/
namespace Ecopy.Workers.Access
open Protocol Ecopy.Path FileSystem Server Lib.Calls
open SmallCopy OtherCopies Events CallsMade Metadata Contents

/-- The bit that the class of the user needs. -/
def accessBit (who : Identity) (n : Node) (write : Bool) : UInt32 :=
  if n.uid = who.euid then if write then 0x80 else 0x100
  else if n.gid = who.egid ∨ n.gid ∈ who.groups then if write then 0x10 else 0x20
  else if write then 0x2 else 0x4

def permits (who : Identity) (n : Node) (write : Bool) : Bool :=
  who.euid == 0 || n.mode &&& accessBit who n write != 0

/-- An open that the mode of a regular file refuses. -/
def denies (who : Identity) (fs : Fs) (path : Bytes) (flags : Fs.OpenFlags) : Bool :=
  match locate path with
  | .error _ => false
  | .ok l =>
    match lookup fs l with
    | .error _ => false
    | .ok (_, n) =>
      !(flags.create && flags.excl) && Node.isRegular n && !permits who n flags.write

/-- The kernel with the modes of files. -/
def answerAccess (who : Identity) (w : World) (x : Choice) :
    (c : Call) → Option (c.Result × World)
  | .openFile path flags mode =>
    if x.fault = none ∨ x.fault = some .access then
      if denies who w.fs path flags then some (.error .eacces, w)
      else answerIds who w { x with fault := none } (.openFile path flags mode)
    else answerIds who w x (.openFile path flags mode)
  | c => answerIds who w x c

section Kernel
variable {who : Identity} {w v : World} {x : Choice} {fs : Fs} {path : Bytes} {flags : Fs.OpenFlags}
  {mode : UInt32} {tr : List Event}

/-- Nothing new can happen. -/
theorem exists_answerIds {c : Call} {r : c.Result} (h : answerAccess who w x c = some (r, v)) :
    ∃ y, answerIds who w y c = some (r, v) := by
  cases c with
  | openFile path flags mode =>
    simp only [answerAccess] at h
    split_ifs at h with hx hdenied
    · obtain ⟨rfl, rfl⟩ := Prod.mk.inj (Option.some.inj h)
      exact ⟨⟨some .access, 0, false⟩, rfl⟩
    · exact ⟨_, h⟩
    · exact ⟨_, h⟩
  | _ => exact ⟨x, h⟩

theorem ids_of_access {α : Type} {m : Handler α} {a : α} (h : m.Runs (answerAccess who) w tr v a) :
    m.Runs (answerIds who) w tr v a :=
  h.weaken fun _ _ _ _ _ => exists_answerIds

theorem walkDir_error {cur rest : Loc} {e : Errno} (h : fs.walkDir cur rest = some e) :
    e = .enoent ∨ e = .enotdir := by
  have hdir : ∀ l e, fs.dirError l = some e → e = .enoent ∨ e = .enotdir := by
    intro l e he
    unfold Fs.dirError at he
    split at he
    · exact .inl (Option.some.inj he).symm
    · split at he
      · cases he
      · exact .inr (Option.some.inj he).symm
  induction rest generalizing cur with
  | nil => exact hdir cur e h
  | cons c rest ih =>
    unfold Fs.walkDir at h
    split at h
    · rename_i e' he
      rw [← Option.some.inj h]
      exact hdir cur e' he
    · exact ih h

/-- What the tree of names refuses is neither the mode nor direct I/O. -/
theorem openFile_error {l : Loc} {n : Node} {e : Errno} (h : fs.openFile l flags n = .error e) :
    e ≠ .eacces ∧ directIoFallbackErrno e = false := by
  unfold Fs.openFile at h
  split at h
  · rename_i e' he
    obtain rfl := Except.error.inj h
    rcases walkDir_error he with rfl | rfl <;> exact ⟨by decide, rfl⟩
  · repeat' split at h
    all_goals cases h <;> exact ⟨by decide, rfl⟩

/-- A refusal tells the truth. -/
theorem denied_of_eacces (h : answerAccess who w x (.openFile path flags mode) = some (.error .eacces, v)) :
    denies who w.fs path flags = true ∧ v = w := by
  have hkernel : ∀ y : Choice, y.fault ≠ some .access →
      answerIds who w y (.openFile path flags mode) ≠ some (.error .eacces, v) := by
    intro y hy hanswer
    have hout := congrArg Prod.fst (Option.some.inj hanswer)
    simp only [World.change] at hout
    split at hout
    · rename_i f hf
      cases f <;> cases hout
      exact hy hf
    · split at hout
      · rename_i e he
        obtain rfl := Except.error.inj hout
        split at he
        · rename_i e' hlocate
          obtain rfl := Except.error.inj he
          unfold locate at hlocate
          split at hlocate <;> cases hlocate
        · split at he
          · rename_i e' hopen
            obtain rfl := Except.error.inj he
            exact (openFile_error hopen).1 rfl
          · cases he
      · cases hout
  simp only [answerAccess] at h
  split_ifs at h with hx hdenied
  · exact ⟨hdenied, (Prod.mk.inj (Option.some.inj h)).2.symm⟩
  · exact absurd h (hkernel _ (by simp))
  · exact absurd h (hkernel _ fun heq => hx (.inr heq))

/-- The path leads to the object `i`. -/
structure Reaches (fs : Fs) (path : Bytes) (i : ℕ) : Prop where
  ne_nil : path ≠ []
  parents : fs.parentError (resolve path) = none
  entry : fs.entry (resolve path) = some i

/-- The path names nothing yet, in a directory that is there. -/
structure Free (fs : Fs) (path : Bytes) : Prop where
  ne_nil : path ≠ []
  parents : fs.parentError (resolve path) = none
  entry : fs.entry (resolve path) = none

variable {i : ℕ}

theorem Reaches.locate (h : Reaches fs path i) : locate path = .ok (resolve path) := if_neg h.ne_nil

theorem Reaches.lookup (h : Reaches fs path i) :
    lookup fs (resolve path) = .ok (i, fs.node i) := by
  simp only [Server.lookup, h.parents, h.entry]

theorem Reaches.not_denied (h : Reaches fs path i) (hok : permits who (fs.node i) flags.write = true) :
    denies who fs path flags = false := by
  simp [denies, h.locate, h.lookup, hok]

theorem Reaches.denied (h : Reaches fs path i) (hcreate : flags.create = false)
    (hreg : Node.isRegular (fs.node i) = true) (hno : permits who (fs.node i) flags.write = false) :
    denies who fs path flags = true := by
  simp [denies, h.locate, h.lookup, hcreate, hreg, hno]

theorem parents_within {P : Loc → Prop} {fs' : Fs} {l : Loc} (h : fs.parentError l = none)
    (hs : fs.Sane) (hw : Fs.Within P fs fs') (hP : ∀ k, P k → fs.entry k = none) :
    fs'.parentError l = none := by
  rw [Fs.parentError_eq_none_iff]
  intro d hd
  have hdir := Fs.parentError_eq_none_iff.mp h d hd
  rw [hw.isDir hs.bounded, hdir]
  intro hp
  rw [Fs.isDir, hP d hp] at hdir
  cases hdir

/-- Names that stand for something, and parents, outlast a new name. -/
theorem Reaches.within {P : Loc → Prop} {fs' : Fs} (h : Reaches fs path i) (hs : fs.Sane)
    (hw : Fs.Within P fs fs') (hP : ∀ k, P k → fs.entry k = none) : Reaches fs' path i := by
  refine ⟨h.ne_nil, parents_within h.parents hs hw hP, ?_⟩
  · rw [hw.entry, h.entry]
    intro hp
    have hi := h.entry
    rw [hP _ hp] at hi
    cases hi

/-- A new file. -/
theorem Free.create (h : Free fs path) (hs : fs.Sane) (n : Node) :
    Reaches (fs.create (resolve path) n) path fs.next := by
  have hw := Fs.within_create fs (resolve path) n
  refine ⟨h.ne_nil, parents_within h.parents hs hw ?_, Function.update_self ..⟩
  rintro k rfl
  exact h.entry

/-- The environment lets the call be. -/
def calmly : Choice := ⟨none, 0, true⟩

theorem open_reached (who : Identity) (flags : Fs.OpenFlags) (mode : UInt32)
    (h : Reaches w.fs path i) (hreg : Node.isRegular (w.fs.node i) = true)
    (hok : permits who (w.fs.node i) flags.write = true) (hcreate : flags.create = false)
    (htrunc : flags.trunc = false) (hdir : flags.directory = false) :
    ∃ v, answerAccess who w calmly (.openFile path flags mode) = some (.ok ⟨path, i⟩, v) ∧
      v.fs = w.fs ∧ v.seq = w.seq := by
  obtain ⟨data, hk⟩ : ∃ data, (w.fs.node i).kind = .regular data := by
    unfold Node.isRegular at hreg
    split at hreg
    · exact ⟨_, ‹_›⟩
    · cases hreg
  have hopen : w.fs.openFile (resolve path) flags (newNode who (.regular []) mode) = .ok (i, w.fs) := by
    simp [Fs.openFile, h.parents, h.entry, hk, hcreate, htrunc, hdir]
  refine ⟨{ w with touched := w.touched ++ if flags.write then [path] else [] }, ?_, rfl, rfl⟩
  simp only [answerAccess, calmly, true_or, if_true, h.not_denied hok, Bool.false_eq_true, if_false]
  exact answer_open_ok rfl h.ne_nil hopen

theorem open_denied (h : Reaches w.fs path i) (hcreate : flags.create = false)
    (hreg : Node.isRegular (w.fs.node i) = true)
    (hno : permits who (w.fs.node i) flags.write = false) :
    answerAccess who w calmly (.openFile path flags mode) = some (.error .eacces, w) := by
  simp [answerAccess, calmly, h.denied hcreate hreg hno]

theorem open_free (who : Identity) (flags : Fs.OpenFlags) (mode : UInt32) (h : Free w.fs path)
    (hcreate : flags.create = true) :
    ∃ v, answerAccess who w calmly (.openFile path flags mode) = some (.ok ⟨path, w.fs.next⟩, v) ∧
      v.fs = w.fs.create (resolve path) (newNode who (.regular []) mode) ∧ v.seq = w.seq := by
  have hlocate : locate path = .ok (resolve path) := if_neg h.ne_nil
  have hopen : w.fs.openFile (resolve path) flags (newNode who (.regular []) mode) =
      .ok (w.fs.next, w.fs.create (resolve path) (newNode who (.regular []) mode)) := by
    simp [Fs.openFile, h.parents, h.entry, hcreate]
  have hallowed : denies who w.fs path flags = false := by
    simp [denies, hlocate, lookup, h.parents, h.entry]
  refine ⟨{ w with
    fs := w.fs.create (resolve path) (newNode who (.regular []) mode)
    touched := w.touched ++ if flags.write then [path] else [] }, ?_, rfl, rfl⟩
  simp only [answerAccess, calmly, true_or, if_true, hallowed, Bool.false_eq_true, if_false]
  exact answer_open_ok rfl h.ne_nil hopen

end Kernel

/-- Two nodes that let the same users in. -/
structure SameAccess (m n : Node) : Prop where
  uid : n.uid = m.uid
  gid : n.gid = m.gid
  mode : n.mode &&& 0x1FF = m.mode &&& 0x1FF

theorem SameAccess.refl (n : Node) : SameAccess n n := ⟨rfl, rfl, rfl⟩

theorem SameAccess.trans {k m n : Node} (h : SameAccess k m) (h' : SameAccess m n) : SameAccess k n :=
  ⟨h'.uid.trans h.uid, h'.gid.trans h.gid, h'.mode.trans h.mode⟩

section Kept
variable {who : Identity} {w v u : World} {x : Choice} {tr : List Event} {i : ℕ} {m n : Node}

theorem access_modifyData (fs : Fs) (j : ℕ) (f : Bytes → Bytes) :
    SameAccess (fs.node i) ((fs.modifyData j f).node i) := by
  unfold Fs.modifyData
  split
  · by_cases hij : i = j
    · subst hij
      exact ⟨by simp [Fs.setNode], by simp [Fs.setNode], by simp [Fs.setNode]⟩
    · simp only [Fs.setNode, Function.update_of_ne hij]
      exact .refl _
  · exact .refl _

theorem access_dropIds (fs : Fs) (j : ℕ) : SameAccess (fs.node i) ((dropIds fs j).node i) := by
  unfold dropIds
  split
  · exact .refl _
  · by_cases hij : i = j
    · subst hij
      refine ⟨by simp [Fs.setNode], by simp [Fs.setNode], ?_⟩
      have hmask : (0xFFFFF3FF : UInt32) &&& 0x1FF = 0x1FF := rfl
      simp [Fs.setNode, withoutIds, UInt32.and_assoc, hmask]
    · simp only [Fs.setNode, Function.update_of_ne hij]
      exact .refl _

/-- Moving data keeps everybody's access. -/
theorem access_moves {c : Call} {r : c.Result} (hc : Moves c)
    (h : answerIds who w x c = some (r, v)) : SameAccess (w.fs.node i) (v.fs.node i) := by
  have hsame : v.fs = w.fs → SameAccess (w.fs.node i) (v.fs.node i) := by
    intro hfs
    rw [hfs]
    exact .refl _
  cases c with
  | openFile p flags mode => exact hsame (openFile_looks hc h)
  | fstat | lstat | stat | close | pread => exact hsame (by rw [query_eq (Option.some.inj h)])
  | attempt => exact hsame (by rw [← (Prod.mk.inj (Option.some.inj h)).2])
  | ftruncate fd size =>
    rcases answer_ftruncate (answer_of_plain rfl h) with ⟨e, -, rfl⟩ | ⟨-, -, rfl⟩
    · exact .refl _
    · exact access_modifyData ..
  | fallocate fd size =>
    rcases answer_fallocate (answer_of_plain rfl h) with ⟨e, -, rfl⟩ | ⟨-, rfl⟩
    · exact .refl _
    · exact access_modifyData ..
  | pwrite fd off data =>
    obtain ⟨u, hanswer, hv⟩ := exists_drop (by simp) h
    have hu : SameAccess (w.fs.node i) (u.fs.node i) := by
      rcases answer_pwrite hanswer with ⟨e, -, rfl⟩ | ⟨e, n, -, rfl⟩ | ⟨-, -, rfl⟩
      · exact .refl _
      · exact access_modifyData ..
      · exact access_modifyData ..
    rcases hv with rfl | ⟨j, -, rfl⟩
    · exact hu
    · exact hu.trans (access_dropIds ..)
  | _ => exact hc.elim

theorem accessed {α : Type} {m : Handler α} {a : α} (hm : m.Keeps Moves fun _ _ => True)
    (h : m.Runs (answerIds who) w tr v a) : SameAccess (w.fs.node i) (v.fs.node i) := by
  induction h with
  | ret => exact .refl _
  | call x hx _ ih => exact (access_moves hm.1 hx).trans (ih (hm.2 _ trivial))

end Kept

/-- The open file has its name, belongs to the user, and has the permissions of a mode. -/
structure Owned (who : Identity) (w : World) (target : Target) (mode : UInt32) : Prop where
  entry : w.fs.entry (resolve target.path) = some target.fd.ino
  isDir : (w.fs.node target.fd.ino).isDir = false
  uid : (w.fs.node target.fd.ino).uid = who.euid
  mode : (w.fs.node target.fd.ino).mode &&& 0x1FF = mode &&& 0x1FF

section Owned
variable {who : Identity} {w v u : World} {tr : List Event} {target : Target} {mode : UInt32}

theorem Owned.moved {α : Type} {m : Handler α} {a : α} (h : Owned who w target mode)
    (hm : m.Keeps Moves fun _ _ => True) (hrun : m.Runs (answerAccess who) w tr v a) :
    Owned who v target mode := by
  obtain ⟨hv, -⟩ := Metadata.moved hm (ids_of_access hrun) h.isDir
  have hsame : SameAccess _ _ := accessed (i := target.fd.ino) hm (ids_of_access hrun)
  constructor
  · rw [hv.entry, h.entry]
  · rw [hv.isDir, h.isDir]
  · rw [hsame.uid, h.uid]
  · rw [hsame.mode, h.mode]

/-- The owner needs one bit. -/
theorem Owned.permits_iff (h : Owned who w target mode) (huser : who.euid ≠ 0) (write : Bool) :
    permits who (w.fs.node target.fd.ino) write = true ↔
      mode &&& (if write then 0x80 else 0x100) ≠ 0 := by
  have hbit : (0x1FF : UInt32) &&& (if write then 0x80 else 0x100) = if write then 0x80 else 0x100 := by
    cases write <;> rfl
  have hmask : ∀ k : UInt32, k &&& (if write then 0x80 else 0x100) =
      k &&& 0x1FF &&& (if write then 0x80 else 0x100) := by
    intro k
    rw [UInt32.and_assoc, hbit]
  rw [permits, accessBit, if_pos h.uid, hmask, h.mode, ← hmask]
  simp [huser]

theorem Owned.not_denied (h : Owned who w target mode) {flags : Fs.OpenFlags}
    (hok : permits who (w.fs.node target.fd.ino) flags.write = true) :
    denies who w.fs target.path flags = false := by
  unfold denies
  split
  · rfl
  rename_i l hl
  obtain ⟨-, rfl⟩ := locate_ok hl
  simp only [lookup, h.entry]
  split
  · rfl
  · rename_i j n heq
    split at heq
    · cases heq
    · obtain ⟨rfl, rfl⟩ := Prod.mk.inj (Except.ok.inj heq)
      simp [hok]

/-- An open of such a file is refused for its mode only. -/
theorem Owned.opens (h : Owned who w target mode) {x : Choice} {flags : Fs.OpenFlags} {m : UInt32}
    (hok : permits who (w.fs.node target.fd.ino) flags.write = true) :
    answerAccess who w x (.openFile target.path flags m) ≠ some (.error .eacces, v) := by
  intro hx
  have hdenied := (denied_of_eacces hx).1
  rw [h.not_denied hok] at hdenied
  cases hdenied

theorem copyDataMode_and (mode : UInt32) :
    copyDataMode mode &&& 0x80 ≠ 0 ∧ copyDataMode mode &&& 0x100 ≠ 0 := by
  have hsplit : ∀ bit : UInt32, copyDataMode mode &&& bit = (mode &&& 0x1FF &&& bit) ||| (0x180 &&& bit) := by
    intro bit
    apply UInt32.toBitVec_inj.1
    simp only [copyDataMode, UInt32.toBitVec_and, UInt32.toBitVec_or]
    exact BitVec.and_or_distrib_right
  have hwrite : (0x180 : UInt32) &&& 0x80 ≠ 0 := by decide
  have hread : (0x180 : UInt32) &&& 0x100 ≠ 0 := by decide
  rw [hsplit, hsplit]
  exact ⟨fun h => hwrite (UInt32.or_eq_zero_iff.mp h).2, fun h => hread (UInt32.or_eq_zero_iff.mp h).2⟩

end Owned

end Ecopy.Workers.Access
