import Ecopy.Metadata.Ownership

/-!
# Modes as the kernel keeps them

`mkdir` applies the sticky bit and the permissions of its mode, but neither set-id bit. A
write by an unprivileged process takes the set-id bits from a file, and so does a `chown`
of a file that is granted. The kernel of the server model says nothing about this; here its
answers are completed.
-/
namespace Ecopy.Metadata
open Protocol Ecopy.Path FileSystem Server Lib.Calls
open Workers.Events

/-- `~(S_ISUID | S_ISGID)` -/
def withoutIds (mode : UInt32) : UInt32 := mode &&& 0xFFFFF3FF

theorem withoutIds_and (mode : UInt32) : withoutIds mode &&& 0xFFF = mode &&& 0x3FF := by
  rw [withoutIds, UInt32.and_assoc]
  rfl

/-- A mode without set-id bits. -/
theorem and_eq_iff_noIds (mode : UInt32) :
    mode &&& 0x3FF = mode &&& 0xFFF ↔ mode &&& 0xC00 = 0 := by
  constructor
  · intro h
    have hids : (mode &&& 0x3FF) &&& 0xC00 = (mode &&& 0xFFF) &&& 0xC00 := by rw [h]
    rw [UInt32.and_assoc, UInt32.and_assoc] at hids
    have hzero : (0x3FF : UInt32) &&& 0xC00 = 0 := rfl
    have hkeep : (0xFFF : UInt32) &&& 0xC00 = 0xC00 := rfl
    rw [hzero, hkeep, UInt32.and_zero] at hids
    exact hids.symm
  · intro h
    have hsplit : mode &&& (0x3FF ||| 0xC00) = mode &&& 0x3FF ||| mode &&& 0xC00 := by
      apply UInt32.toBitVec_inj.1
      simp only [UInt32.toBitVec_and, UInt32.toBitVec_or]
      exact BitVec.and_or_distrib_left
    have hall : (0x3FF : UInt32) ||| 0xC00 = 0xFFF := rfl
    rw [hall, h] at hsplit
    simpa using hsplit.symm

theorem and_mask (mode : UInt32) : mode &&& 0xFFF &&& 0xFFF = mode &&& 0xFFF := by
  rw [UInt32.and_assoc, UInt32.and_self]

/-- The set-id bits of a file are taken away. -/
def dropIds (fs : Fs) (i : ℕ) : Fs :=
  if (fs.node i).isDir then fs
  else fs.setNode i { fs.node i with mode := withoutIds (fs.node i).mode }

/-- What a write has written. -/
def written (data : Bytes) : Except (Errno × ℕ) Unit → ℕ
  | .ok _ => data.length
  | .error (_, n) => n

/-- A granted `chown` that asks for something. -/
def granted (uid gid : Option UInt32) (r : Except Errno Unit) : Bool :=
  r.isOk && (uid.isSome || gid.isSome)

def answerIds (who : Identity) (w : World) (x : Choice) : (c : Call) → Option (c.Result × World)
  | .mkdir path mode => answer who w x (.mkdir path (mode &&& 0x3FF))
  | .pwrite fd offset data => (answer who w x (.pwrite fd offset data)).map fun out =>
    (out.1, if who.euid ≠ 0 ∧ written data out.1 ≠ 0
      then { out.2 with fs := dropIds out.2.fs fd.ino } else out.2)
  | .fchown fd uid gid => (answer who w x (.fchown fd uid gid)).map fun out =>
    (out.1, if granted uid gid out.1
      then { out.2 with fs := dropIds out.2.fs fd.ino } else out.2)
  | c => answer who w x c

/-- The calls whose answer is not completed. -/
def Call.plain : Call → Bool
  | .mkdir _ _ | .pwrite _ _ _ | .fchown _ _ _ => false
  | _ => true

/-- The call may change the object `i`. -/
def Touches (w : World) (i : ℕ) : Call → Prop
  | .fallocate fd _ | .ftruncate fd _ | .pwrite fd _ _ | .fchown fd _ _ | .fchmod fd _
  | .futimens fd _ _ => fd.ino = i
  | .lchown p _ _ | .lutimes p _ _ => w.fs.entry (resolve p) = some i
  | .openFile p flags _ => flags.trunc = true ∧ w.fs.entry (resolve p) = some i
  | _ => False

/-- An event that takes the set-id bits from its file whoever the process is. -/
def chowned : Event → Bool
  | ⟨.fchown _ uid gid, (r : Except Errno Unit)⟩ => granted uid gid r
  | _ => false

/-- Names and kinds stay, and the object `i` ends with the given mode. -/
structure Moded (w v : World) (i : ℕ) (mode : UInt32) : Prop where
  entry : v.fs.entry = w.fs.entry
  isDir : (v.fs.node i).isDir = (w.fs.node i).isDir
  mode : (v.fs.node i).mode = mode

section Answers
variable {who : Identity} {w v u : World} {x : Choice} {tr : List Event} {fd : Fd} {m : Meta}

@[simp] theorem withoutIds_withoutIds (mode : UInt32) :
    withoutIds (withoutIds mode) = withoutIds mode := by
  rw [withoutIds, withoutIds, UInt32.and_assoc, UInt32.and_self]

theorem Moded.refl (w : World) (i : ℕ) : Moded w w i (w.fs.node i).mode := ⟨rfl, rfl, rfl⟩

theorem Moded.trans {i : ℕ} {mode mode' : UInt32} (h : Moded w u i mode) (h' : Moded u v i mode') :
    Moded w v i mode' :=
  ⟨h'.entry.trans h.entry, h'.isDir.trans h.isDir, h'.mode⟩

theorem answer_of_plain {c : Call} {r : c.Result} (hc : Call.plain c = true)
    (h : answerIds who w x c = some (r, v)) : answer who w x c = some (r, v) := by
  cases c with
  | mkdir | pwrite | fchown => cases hc
  | _ => exact h

theorem answerIds_pwrite_eq {off : ℤ} {data : Bytes} :
    answerIds who w x (.pwrite fd off data) = (answer who w x (.pwrite fd off data)).map
      fun out => (out.1, if who.euid ≠ 0 ∧ written data out.1 ≠ 0
        then { out.2 with fs := dropIds out.2.fs fd.ino } else out.2) :=
  rfl

theorem answerIds_fchown_eq {uid gid : Option UInt32} :
    answerIds who w x (.fchown fd uid gid) = (answer who w x (.fchown fd uid gid)).map
      fun out => (out.1, if granted uid gid out.1
        then { out.2 with fs := dropIds out.2.fs fd.ino } else out.2) :=
  rfl

/-- Where a completed answer comes from, unless a directory is made: an answer of the
kernel, after which set-id bits may be gone from the object that was written or whose owner
was changed. -/
theorem exists_drop {c : Call} {r : c.Result} (hc : ∀ p mode, c ≠ .mkdir p mode)
    (h : answerIds who w x c = some (r, v)) :
    ∃ u, answer who w x c = some (r, u) ∧
      (v = u ∨ ∃ j, Touches w j c ∧ v = { u with fs := dropIds u.fs j }) := by
  cases c with
  | mkdir p mode => exact absurd rfl (hc p mode)
  | pwrite fd _ _ | fchown fd _ _ =>
    unfold answerIds at h
    obtain ⟨⟨r', u⟩, hanswer, heq⟩ := Option.map_eq_some_iff.mp h
    obtain ⟨rfl, hv⟩ := Prod.mk.inj heq
    refine ⟨u, hanswer, ?_⟩
    split at hv
    · exact .inr ⟨fd.ino, rfl, hv.symm⟩
    · exact .inl hv.symm
  | _ => exact ⟨v, answer_of_plain rfl h, .inl rfl⟩

theorem openFile_entry {p : Bytes} {flags : Fs.OpenFlags} {mode : UInt32}
    (h : answerIds who w x (.openFile p flags mode) = some (.ok fd, v)) :
    v.fs.entry (resolve p) = some fd.ino := by
  rcases answer_openFile (answer_of_plain rfl h) with ⟨e, he, -⟩ | ⟨i, fs, -, -, hfd, hopen, rfl⟩
  · cases he
  · cases hfd
    exact Fs.openFile_entry hopen

theorem dropIds_entry (fs : Fs) (i : ℕ) : (dropIds fs i).entry = fs.entry := by
  unfold dropIds
  split <;> rfl

theorem dropIds_isDir (fs : Fs) (i : ℕ) : ((dropIds fs i).node i).isDir = (fs.node i).isDir := by
  unfold dropIds
  split
  · rfl
  · simp [Fs.setNode, Node.isDir]

theorem dropIds_other {fs : Fs} {i j : ℕ} (h : i ≠ j) : (dropIds fs j).node i = fs.node i := by
  unfold dropIds
  split
  · rfl
  · exact Function.update_of_ne h _ _

theorem dropIds_kind (fs : Fs) (i j : ℕ) : ((dropIds fs j).node i).kind = (fs.node i).kind := by
  unfold dropIds
  split
  · rfl
  · simp only [Fs.setNode, Function.update_apply]
    split_ifs with hi
    · rw [hi]
    · rfl

theorem dropIds_next (fs : Fs) (i : ℕ) : (dropIds fs i).next = fs.next := by
  unfold dropIds
  split <;> rfl

theorem dropIds_mode {fs : Fs} {i : ℕ} (h : (fs.node i).isDir = false) :
    ((dropIds fs i).node i).mode = withoutIds (fs.node i).mode := by
  unfold dropIds
  simp [h, Fs.setNode]

/-- Bits that are dropped under a condition. -/
theorem moded_dropIds {i : ℕ} (hdir : (w.fs.node i).isDir = false) {b : Prop} [Decidable b] {s : World}
    (hs : s = if b then { w with fs := dropIds w.fs i } else w) :
    Moded w s i (if b then withoutIds (w.fs.node i).mode else (w.fs.node i).mode) := by
  subst hs
  split
  · exact ⟨dropIds_entry .., dropIds_isDir .., dropIds_mode hdir⟩
  · exact .refl w i

theorem moded_setNode {n : Node} {mode : UInt32} (hv : v.fs = w.fs.setNode fd.ino n)
    (hdir : n.isDir = (w.fs.node fd.ino).isDir) (hmode : n.mode = mode) :
    Moded w v fd.ino mode := by
  refine ⟨?_, ?_, ?_⟩
  · rw [hv]
    rfl
  · rw [hv]
    simpa [Fs.setNode] using hdir
  · rw [hv]
    simpa [Fs.setNode] using hmode

theorem moded_writeData (w : World) (fd : Fd) (off : ℕ) (data : Bytes) :
    Moded w (w.writeData fd off data) fd.ino (w.fs.node fd.ino).mode := by
  unfold World.writeData Fs.modifyData
  dsimp only
  split
  · rename_i old hk
    exact moded_setNode rfl (by simp [Node.isDir, hk]) rfl
  · exact ⟨rfl, rfl, rfl⟩

theorem answerIds_fchmod {mode : UInt32} {r : Except Errno Unit}
    (h : answerIds who w x (.fchmod fd mode) = some (r, v)) :
    Moded w v fd.ino (if r.isOk then mode &&& 0xFFF else (w.fs.node fd.ino).mode) := by
  rcases answer_node h with ⟨e, rfl, rfl⟩ | ⟨rfl, hv⟩
  · exact .refl _ _
  · exact moded_setNode hv rfl rfl

theorem answerIds_futimens {atime mtime : Time} {r : Except Errno Unit}
    (h : answerIds who w x (.futimens fd atime mtime) = some (r, v)) :
    Moded w v fd.ino (w.fs.node fd.ino).mode := by
  rcases answer_node h with ⟨e, rfl, rfl⟩ | ⟨rfl, hv⟩
  · exact .refl _ _
  · exact moded_setNode hv rfl rfl

theorem answerIds_fchown {uid gid : Option UInt32} {r : Except Errno Unit}
    (hdir : (w.fs.node fd.ino).isDir = false)
    (h : answerIds who w x (.fchown fd uid gid) = some (r, v)) :
    Moded w v fd.ino (if granted uid gid r then withoutIds (w.fs.node fd.ino).mode
      else (w.fs.node fd.ino).mode) := by
  obtain ⟨⟨r', u⟩, hanswer, heq⟩ := Option.map_eq_some_iff.mp (answerIds_fchown_eq ▸ h)
  obtain ⟨rfl, hv⟩ := Prod.mk.inj heq
  have hu : Moded w u fd.ino (w.fs.node fd.ino).mode := by
    rcases answer_node hanswer with ⟨e, rfl, rfl⟩ | ⟨rfl, hu⟩
    · exact .refl _ _
    · exact moded_setNode hu rfl rfl
  have hdrop := moded_dropIds (hu.isDir.trans hdir) hv.symm
  rw [hu.mode] at hdrop
  exact hu.trans hdrop

theorem answerIds_pwrite {off : ℤ} {data : Bytes} {r : Except (Errno × ℕ) Unit}
    (hdir : (w.fs.node fd.ino).isDir = false)
    (h : answerIds who w x (.pwrite fd off data) = some (r, v)) :
    Moded w v fd.ino (if who.euid ≠ 0 ∧ written data r ≠ 0 then withoutIds (w.fs.node fd.ino).mode
      else (w.fs.node fd.ino).mode) := by
  obtain ⟨⟨r', u⟩, hanswer, heq⟩ := Option.map_eq_some_iff.mp (answerIds_pwrite_eq ▸ h)
  obtain ⟨rfl, hv⟩ := Prod.mk.inj heq
  have hu : Moded w u fd.ino (w.fs.node fd.ino).mode := by
    rcases answer_pwrite hanswer with ⟨e, -, rfl⟩ | ⟨e, n, -, rfl⟩ | ⟨-, -, rfl⟩
    · exact .refl _ _
    · exact moded_writeData ..
    · exact moded_writeData ..
  have hdrop := moded_dropIds (hu.isDir.trans hdir) hv.symm
  rw [hu.mode] at hdrop
  exact hu.trans hdrop

/-- The owner part of a metadata pass. -/
theorem applyOwner_moded {res : Option Errno} (hdir : (w.fs.node fd.ino).isDir = false)
    (h : (applyOwner who fd m).Runs (answerIds who) w tr v res) :
    Moded w v fd.ino (if tr.any chowned then withoutIds (w.fs.node fd.ino).mode
      else (w.fs.node fd.ino).mode) := by
  unfold applyOwner at h
  split at h
  · obtain ⟨rfl, rfl, -⟩ := Prog.runs_ret_iff.mp h
    exact .refl _ _
  dsimp only at h
  split at h
  · obtain ⟨rfl, rfl, -⟩ := Prog.runs_ret_iff.mp h
    exact .refl _ _
  · obtain ⟨x, changed, u, rest, hchown, rfl, hrun⟩ := Prog.runs_perform_iff.mp h
    have hu := answerIds_fchown hdir hchown
    have hend : rest = [] ∧ v = u := by
      cases changed with
      | ok _ => exact ⟨(Prog.runs_ret_iff.mp hrun).1, (Prog.runs_ret_iff.mp hrun).2.1⟩
      | error e => exact ⟨(Prog.runs_ret_iff.mp hrun).1, (Prog.runs_ret_iff.mp hrun).2.1⟩
    obtain ⟨rfl, rfl⟩ := hend
    simpa [chowned] using hu

end Answers

end Ecopy.Metadata
