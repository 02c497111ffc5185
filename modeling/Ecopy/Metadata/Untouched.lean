import Ecopy.Metadata.SetIds

/-!
# Objects that a call leaves alone

A call touches the object behind its descriptor, or at its path when it changes times or
owner there or opens the file to be emptied. Every other object is the same afterwards,
whatever becomes of the names.
-/
namespace Ecopy.Metadata
open Protocol Ecopy.Path FileSystem Server Lib.Calls

section Untouched
variable {who : Identity} {w v u : World} {x : Choice} {i : ℕ}
variable {fs : Fs} {c : Call} {f : Node → Node} {out : Except Errno Unit} {r : c.Result}

theorem setNode_other {j : ℕ} {n : Node} (h : j ≠ i) : (fs.setNode j n).node i = fs.node i :=
  Function.update_of_ne h.symm _ _

theorem modifyData_other {j : ℕ} {f : Bytes → Bytes} (h : j ≠ i) :
    (fs.modifyData j f).node i = fs.node i := by
  unfold Fs.modifyData
  split
  · exact setNode_other h
  · rfl

theorem add_other {fs' : Fs} {l : Loc} {n : Node} (hi : i < fs.next) (h : fs.add l n = .ok fs') :
    fs'.node i = fs.node i := by
  unfold Fs.add at h
  split at h
  · cases h
  split at h
  · cases h
  split at h
  · cases h
  · rw [← Except.ok.inj h]
    exact Function.update_of_ne hi.ne _ _

theorem changeNode_other {fd : Fd} (hi : fd.ino ≠ i) (h : w.changeNode x fd f = (out, v)) :
    v.fs.node i = w.fs.node i := by
  rcases change_eq h with ⟨e, -, rfl⟩ | ⟨a, fs, -, hok, -, rfl⟩
  · rfl
  · obtain ⟨-, rfl⟩ := Prod.mk.inj (Except.ok.inj hok)
    exact setNode_other hi

theorem changeAt_other {p : Bytes} (hi : w.fs.entry (resolve p) ≠ some i)
    (h : w.changeAt x p f = (out, v)) : v.fs.node i = w.fs.node i := by
  rcases change_eq h with ⟨e, -, rfl⟩ | ⟨a, fs, -, hok, -, rfl⟩
  · rfl
  · obtain ⟨-, hok⟩ := withLoc_ok hok
    split at hok
    · cases hok
    rename_i j n hl
    obtain ⟨hentry, rfl⟩ := lookup_eq_ok hl
    rw [← Except.ok.inj hok]
    apply setNode_other
    rintro rfl
    exact hi hentry

theorem openFile_other {p : Bytes} {flags : Fs.OpenFlags} {mode : UInt32} {r : Except Errno Fd}
    (hi : i < w.fs.next) (hc : ¬ (flags.trunc = true ∧ w.fs.entry (resolve p) = some i))
    (h : answer who w x (.openFile p flags mode) = some (r, v)) : v.fs.node i = w.fs.node i := by
  rcases answer_openFile h with ⟨e, -, rfl⟩ | ⟨j, fs, -, -, -, hopen, rfl⟩
  · rfl
  obtain ⟨-, ⟨-, -, -, rfl⟩ | ⟨hentry, -, ⟨data, -, rfl⟩ | ⟨-, -, rfl⟩⟩⟩ := Fs.openFile_eq_ok hopen
  · exact Function.update_of_ne hi.ne _ _
  · dsimp only
    split
    · rename_i htrunc
      apply setNode_other
      rintro rfl
      exact hc ⟨htrunc, hentry⟩
    · rfl
  · rfl

/-- The frame rule of the kernel. -/
theorem answer_untouched (hi : i < w.fs.next) (hc : ¬ Touches w i c)
    (h : answer who w x c = some (r, v)) : v.fs.node i = w.fs.node i := by
  cases c with
  | openFile p flags mode => exact openFile_other hi hc h
  | lstat | stat | openDir | pread | fstat | fsync | close => rw [query_eq (Option.some.inj h)]
  | fallocate fd size =>
    rcases answer_fallocate h with ⟨e, -, rfl⟩ | ⟨-, rfl⟩
    · rfl
    · exact modifyData_other hc
  | ftruncate fd size =>
    rcases answer_ftruncate h with ⟨e, -, rfl⟩ | ⟨-, -, rfl⟩
    · rfl
    · exact modifyData_other hc
  | pwrite fd offset data =>
    rcases answer_pwrite h with ⟨e, -, rfl⟩ | ⟨e, n, -, rfl⟩ | ⟨-, -, rfl⟩
    · rfl
    · exact modifyData_other hc
    · exact modifyData_other hc
  | fchown | fchmod | futimens => exact changeNode_other hc (Option.some.inj h)
  | lchown | lutimes => exact changeAt_other hc (Option.some.inj h)
  | mkdir p mode =>
    rcases answer_mkdir h with ⟨e, -, rfl⟩ | ⟨fs, -, hadd, rfl⟩
    · rfl
    · exact add_other hi hadd
  | symlink target p =>
    rcases answer_symlink h with ⟨e, -, rfl⟩ | ⟨fs, -, hadd, rfl⟩
    · rfl
    · exact add_other hi hadd
  | link a b =>
    rcases answer_link h with ⟨e, -, rfl⟩ | ⟨fs, -, hlink, rfl⟩
    · rfl
    · obtain ⟨-, -, rfl⟩ := Fs.link_eq_ok hlink
      rfl
  | rename a b =>
    rcases answer_rename h with ⟨e, -, rfl⟩ | ⟨fs, -, -, -, hr, rfl⟩
    · rfl
    · obtain ⟨-, -, j, -, ⟨rfl, -⟩ | ⟨rfl, -⟩⟩ := Fs.rename_eq_ok hr
      · rfl
      · rfl
  | unlink p =>
    rcases answer_unlink h with ⟨e, -, rfl⟩ | ⟨fs, -, -, hu, rfl⟩
    · rfl
    · obtain ⟨-, rfl⟩ := Fs.unlink_eq_ok hu
      rfl
  | claimDir dir => rw [answer_claimDir h]
  | sync | findFile | addFile | updateFile | removeFile | takeFiles | settleDir | dirMode | nextSeq
  | settings | setSettings | attempt | logError | logVerify | noteUnpreserved | report =>
    obtain ⟨-, rfl⟩ := Prod.mk.inj (Option.some.inj h)
    rfl

theorem exists_answer (h : answerIds who w x c = some (r, v)) :
    ∃ (c' : Call) (r' : c'.Result) (u : World), answer who w x c' = some (r', u) ∧
      (∀ i, Touches w i c' ↔ Touches w i c) ∧
      (v = u ∨ ∃ j, Touches w j c ∧ v = { u with fs := dropIds u.fs j }) := by
  by_cases hm : ∃ p mode, c = .mkdir p mode
  · obtain ⟨p, mode, rfl⟩ := hm
    exact ⟨.mkdir p (mode &&& 0x3FF), r, v, h, fun _ => Iff.rfl, .inl rfl⟩
  · obtain ⟨u, hanswer, hv⟩ := exists_drop (fun p mode hc => hm ⟨p, mode, hc⟩) h
    exact ⟨c, r, u, hanswer, fun _ => Iff.rfl, hv⟩

/-- Directories keep their set-id bits. -/
theorem dropIds_dir {j : ℕ} (h : (fs.node i).isDir = true) : (dropIds fs j).node i = fs.node i := by
  by_cases hj : i = j
  · subst hj
    unfold dropIds
    rw [if_pos h]
  · exact dropIds_other hj

theorem answerIds_untouched (hi : i < w.fs.next) (hc : ¬ Touches w i c)
    (h : answerIds who w x c = some (r, v)) : v.fs.node i = w.fs.node i := by
  obtain ⟨c', r', u, hanswer, htouch, rfl | ⟨j, hj, rfl⟩⟩ := exists_answer h
  · exact answer_untouched hi (mt (htouch i).mp hc) hanswer
  · have hne : i ≠ j := by
      rintro rfl
      exact hc hj
    exact (dropIds_other hne).trans (answer_untouched hi (mt (htouch i).mp hc) hanswer)

theorem answerIds_lasting (h : answerIds who w x c = some (r, v)) : Lasting w.fs v.fs := by
  obtain ⟨c', r', u, hanswer, -, rfl | ⟨j, -, rfl⟩⟩ := exists_answer h
  · exact answer_lasting hanswer
  · have hlast := answer_lasting hanswer
    refine ⟨hlast.next.trans (dropIds_next u.fs j).ge, ?_⟩
    intro i hi
    have hkind : ((dropIds u.fs j).node i).isDir = (u.fs.node i).isDir := by
      simp only [Node.isDir, dropIds_kind]
    exact hkind.trans (hlast.dirs i hi)

theorem modifyData_dir {j : ℕ} {f : Bytes → Bytes} (h : (fs.node i).isDir = true) :
    (fs.modifyData j f).node i = fs.node i := by
  unfold Fs.modifyData
  split
  · rename_i data hk
    apply setNode_other
    rintro rfl
    simp [Node.isDir, hk] at h
  · rfl

theorem setNode_mode {j : ℕ} {n : Node} (h : n.mode = (fs.node j).mode) :
    ((fs.setNode j n).node i).mode = (fs.node i).mode := by
  simp only [Fs.setNode, Function.update_apply]
  split_ifs with hi
  · rw [h, hi]
  · rfl

theorem changeNode_mode {fd : Fd} (h : w.changeNode x fd f = (out, v))
    (hf : ∀ n, (f n).mode = n.mode) : (v.fs.node i).mode = (w.fs.node i).mode := by
  rcases change_eq h with ⟨e, -, rfl⟩ | ⟨a, fs, -, hok, -, rfl⟩
  · rfl
  · obtain ⟨-, rfl⟩ := Prod.mk.inj (Except.ok.inj hok)
    exact setNode_mode (hf _)

theorem changeAt_mode {p : Bytes} (h : w.changeAt x p f = (out, v))
    (hf : ∀ n, (f n).mode = n.mode) : (v.fs.node i).mode = (w.fs.node i).mode := by
  rcases change_eq h with ⟨e, -, rfl⟩ | ⟨a, fs, -, hok, -, rfl⟩
  · rfl
  · obtain ⟨-, hok⟩ := withLoc_ok hok
    split at hok
    · cases hok
    rename_i j n hl
    obtain ⟨-, rfl⟩ := lookup_eq_ok hl
    rw [← Except.ok.inj hok]
    exact setNode_mode (hf _)

/-- Nothing but `fchmod` changes the mode of a directory. -/
theorem answer_dir_mode (hi : i < w.fs.next) (hd : (w.fs.node i).isDir = true)
    (hc : ∀ fd mode, c = .fchmod fd mode → fd.ino ≠ i) (h : answer who w x c = some (r, v)) :
    (v.fs.node i).mode = (w.fs.node i).mode := by
  by_cases ht : Touches w i c
  swap
  · rw [answer_untouched hi ht h]
  cases c with
  | fallocate fd size =>
    rcases answer_fallocate h with ⟨e, -, rfl⟩ | ⟨-, rfl⟩
    · rfl
    · rw [modifyData_dir hd]
  | ftruncate fd size =>
    rcases answer_ftruncate h with ⟨e, -, rfl⟩ | ⟨-, -, rfl⟩
    · rfl
    · rw [modifyData_dir hd]
  | pwrite fd offset data =>
    rcases answer_pwrite h with ⟨e, -, rfl⟩ | ⟨e, n, -, rfl⟩ | ⟨-, -, rfl⟩
    · rfl
    · exact congrArg Node.mode (modifyData_dir hd)
    · exact congrArg Node.mode (modifyData_dir hd)
  | fchown | futimens => exact changeNode_mode (Option.some.inj h) fun _ => rfl
  | fchmod fd mode => exact absurd ht (hc fd mode rfl)
  | lchown | lutimes => exact changeAt_mode (Option.some.inj h) fun _ => rfl
  | openFile p flags mode =>
    rcases answer_openFile h with ⟨e, -, rfl⟩ | ⟨j, fs, -, -, -, hopen, rfl⟩
    · rfl
    obtain ⟨-, ⟨hnone, -, -, -⟩ | ⟨hentry, -, ⟨data, hk, -⟩ | ⟨-, -, rfl⟩⟩⟩ :=
      Fs.openFile_eq_ok hopen
    · rw [ht.2] at hnone
      cases hnone
    · rw [ht.2] at hentry
      cases hentry
      simp [Node.isDir, hk] at hd
    · rfl
  | _ => exact ht.elim

theorem answerIds_dir_mode (hi : i < w.fs.next) (hd : (w.fs.node i).isDir = true)
    (hc : ∀ fd mode, c = .fchmod fd mode → fd.ino ≠ i) (h : answerIds who w x c = some (r, v)) :
    (v.fs.node i).mode = (w.fs.node i).mode := by
  by_cases ht : Touches w i c
  swap
  · rw [answerIds_untouched hi ht h]
  obtain ⟨u, hanswer, rfl | ⟨j, -, rfl⟩⟩ := exists_drop (by rintro p mode rfl; exact ht) h
  · exact answer_dir_mode hi hd hc hanswer
  · have hd' : (u.fs.node i).isDir = true := ((answer_lasting hanswer).dirs i hi).trans hd
    rw [dropIds_dir hd', answer_dir_mode hi hd hc hanswer]

theorem openFile_bounded {p : Bytes} {flags : Fs.OpenFlags} {mode : UInt32} {fd : Fd}
    (ht : w.fs.Tree) (h : answerIds who w x (.openFile p flags mode) = some (.ok fd, v)) :
    fd.ino < v.fs.next := by
  have hlast := answerIds_lasting h
  rcases answer_openFile (answer_of_plain rfl h) with ⟨e, he, -⟩ | ⟨j, fs, -, -, hfd, hopen, rfl⟩
  · cases he
  cases hfd
  obtain ⟨-, ⟨-, -, rfl, rfl⟩ | ⟨hentry, -⟩⟩ := Fs.openFile_eq_ok hopen
  · exact Nat.lt_succ_self _
  · exact (ht.bounded _ _ hentry).trans_le hlast.next

theorem answerIds_tree (ht : w.fs.Tree) {c : Call} {r : c.Result}
    (h : answerIds who w x c = some (r, v)) : v.fs.Tree := by
  obtain ⟨c', r', u, hanswer, -, rfl | ⟨j, -, rfl⟩⟩ := exists_answer h
  · exact answer_tree ht hanswer
  · have hu := answer_tree ht hanswer
    unfold dropIds
    split
    · exact hu
    · exact hu.nodes (Fs.within_setNode rfl)

end Untouched

end Ecopy.Metadata
