import Ecopy.FileTree
import Ecopy.Server.Confinement
import Ecopy.Server.Passive

/-!
# What calls do to names and to the table of open files

Most calls are calm: they give no object a new name, take none away and leave the
table alone. For each of the others there is one lemma that says what its answer
tells about the state before and after.
-/
namespace Ecopy.Server
open Protocol Ecopy.Path FileSystem Lib.Calls

section Effects
variable {who : Identity} {w v : World} {x : Choice}

/-- Without a fault the call does what the state allows. -/
theorem change_of_ok {α : Type} {paths : List Bytes} {res : Except Errno (α × Fs)}
    {out : Except Errno α} (h : w.change x paths res = (out, v)) (hx : x.fault = none) {a : α}
    {fs : Fs} (hres : res = .ok (a, fs)) :
    out = .ok a ∧ v = { w with fs := fs, touched := w.touched ++ paths } := by
  subst hres
  simp only [World.change, hx] at h
  obtain ⟨rfl, rfl⟩ := Prod.mk.inj h
  exact ⟨rfl, rfl⟩

theorem query_eq {α : Type} {res out : Except Errno α} (h : w.query x res = (out, v)) : v = w := by
  unfold World.query at h
  split at h
  · exact (Prod.mk.inj h).2.symm
  · exact (Prod.mk.inj h).2.symm

variable {fd : Fd} {p : Bytes} {f : Node → Node} {out res : Except Errno Unit}

theorem answer_open_ok {flags : Fs.OpenFlags} {mode : UInt32} {i : ℕ} {fs : Fs}
    (hx : x.fault = none) (hp : p ≠ [])
    (hopen : w.fs.openFile (resolve p) flags (newNode who (.regular []) mode) = .ok (i, fs)) :
    answer who w x (.openFile p flags mode) = some (.ok ⟨p, i⟩, { w with
      fs := fs, touched := w.touched ++ if flags.write then [p] else [] }) := by
  have hlocate : locate p = .ok (resolve p) := if_neg hp
  simp only [answer, hlocate, hopen, World.change, hx]
  rfl

theorem answer_pread_ok (who : Identity) {fd : Fd} {len : ℕ} (off : ℤ) {data : Bytes} (hx : x.fault = none)
    (hk : (w.fs.node fd.ino).kind = .regular data) (hlen : off.toNat + len ≤ data.length) :
    answer who w x (.pread fd len off) = some (.ok ((data.drop off.toNat).take len), w) := by
  simp only [answer, hk, if_pos hlen, World.query, hx]
  rfl

structure Calm (w v : World) : Prop where
  within : Fs.Within (fun _ => False) w.fs v.fs
  files : v.files = w.files

theorem Calm.refl (w : World) : Calm w w := ⟨.refl _ _, rfl⟩

theorem Calm.entry (h : Calm w v) : v.fs.entry = w.fs.entry :=
  funext fun l => h.within.entry l id

def Call.calm : Call → Bool
  | .openFile _ flags _ => !flags.create
  | .mkdir _ _ | .rename _ _ | .unlink _ | .symlink _ _ | .link _ _ | .addFile _ | .updateFile _
  | .removeFile _ | .takeFiles => false
  | _ => true

theorem calm_openFile {flags : Fs.OpenFlags} {mode : UInt32} :
    (Call.openFile p flags mode).calm = true ↔ flags.create = false :=
  iff_of_eq (Bool.not_eq_true' _)

theorem calm_of_passive {c : Call} (h : Passive c) : c.calm = true := by
  cases c with
  | openFile p flags mode => exact calm_openFile.mpr h.2.1
  | mkdir | rename | unlink | symlink | link | addFile | updateFile | removeFile | takeFiles =>
    exact h.elim
  | _ => rfl

theorem calm_change {α : Type} {paths : List Bytes} {res : Except Errno (α × Fs)}
    {out : Except Errno α} (h : w.change x paths res = (out, v))
    (hres : ∀ a fs, res = .ok (a, fs) → Fs.Within (fun _ => False) w.fs fs) : Calm w v := by
  rcases change_eq h with ⟨e, -, rfl⟩ | ⟨a, fs, -, hok, -, rfl⟩
  · exact .refl _
  · exact ⟨hres a fs hok, rfl⟩

theorem calm_changeNode (h : w.changeNode x fd f = (out, v)) (hf : ∀ n, (f n).isDir = n.isDir) :
    Calm w v := by
  refine calm_change h fun a fs heq => ?_
  obtain ⟨-, rfl⟩ := Prod.mk.inj (Except.ok.inj heq)
  exact Fs.within_setNode (hf _)

theorem calm_changeAt (h : w.changeAt x p f = (out, v)) (hf : ∀ n, (f n).isDir = n.isDir) :
    Calm w v := by
  refine calm_change h fun a fs heq => ?_
  obtain ⟨-, heq⟩ := withLoc_ok heq
  split at heq
  · cases heq
  rename_i i n hl
  obtain ⟨-, rfl⟩ := lookup_eq_ok hl
  obtain rfl := Except.ok.inj heq
  exact Fs.within_setNode (hf _)

theorem calm_modifyData {f : Bytes → Bytes}
    (h : w.change x [fd.path] (.ok ((), w.fs.modifyData fd.ino f)) = (out, v)) : Calm w v := by
  refine calm_change h fun a fs heq => ?_
  obtain ⟨-, rfl⟩ := Prod.mk.inj (Except.ok.inj heq)
  exact Fs.within_modifyData ..

theorem calm_writeData (fd : Fd) (off : ℕ) (data : Bytes) : Calm w (w.writeData fd off data) :=
  ⟨Fs.within_modifyData .., rfl⟩

theorem answer_calm {c : Call} {res : c.Result} (hc : c.calm = true)
    (h : answer who w x c = some (res, v)) : Calm w v := by
  cases c with
  | openFile p flags mode =>
    have hcreate : flags.create = false := calm_openFile.mp hc
    rcases answer_openFile h with ⟨e, -, rfl⟩ | ⟨i, fs, -, -, -, hopen, rfl⟩
    · exact .refl _
    · refine ⟨(Fs.within_openFile hopen).mono fun k hk => ?_, rfl⟩
      rw [hcreate] at hk
      exact Bool.false_ne_true hk.2
  | mkdir | rename | unlink | symlink | link | addFile | updateFile | removeFile | takeFiles =>
    cases hc
  | lstat p => exact query_eq (Option.some.inj h) ▸ .refl _
  | stat p => exact query_eq (Option.some.inj h) ▸ .refl _
  | openDir p => exact query_eq (Option.some.inj h) ▸ .refl _
  | pread fd len offset => exact query_eq (Option.some.inj h) ▸ .refl _
  | fstat fd => exact query_eq (Option.some.inj h) ▸ .refl _
  | fsync fd => exact query_eq (Option.some.inj h) ▸ .refl _
  | close fd => exact query_eq (Option.some.inj h) ▸ .refl _
  | fallocate fd size => exact calm_modifyData (Option.some.inj h)
  | ftruncate fd size =>
    simp only [answer] at h
    split at h
    · obtain ⟨-, rfl⟩ := Prod.mk.inj (Option.some.inj h)
      exact .refl _
    · exact calm_modifyData (Option.some.inj h)
  | pwrite fd offset data =>
    simp only [answer] at h
    split at h
    · obtain ⟨-, rfl⟩ := Prod.mk.inj (Option.some.inj h)
      exact .refl _
    split at h
    · obtain ⟨-, rfl⟩ := Prod.mk.inj (Option.some.inj h)
      exact calm_writeData ..
    · obtain ⟨-, rfl⟩ := Prod.mk.inj (Option.some.inj h)
      exact calm_writeData ..
  | fchown fd uid gid => exact calm_changeNode (Option.some.inj h) fun n => rfl
  | fchmod fd mode => exact calm_changeNode (Option.some.inj h) fun n => rfl
  | futimens fd atime mtime => exact calm_changeNode (Option.some.inj h) fun n => rfl
  | lchown p uid gid => exact calm_changeAt (Option.some.inj h) fun n => rfl
  | lutimes p atime mtime => exact calm_changeAt (Option.some.inj h) fun n => rfl
  | claimDir dir =>
    simp only [answer] at h
    split at h
    · cases h
    · obtain ⟨-, rfl⟩ := Prod.mk.inj (Option.some.inj h)
      exact .refl _
    · obtain ⟨-, rfl⟩ := Prod.mk.inj (Option.some.inj h)
      exact .refl _
    split at h
    · obtain ⟨-, rfl⟩ := Prod.mk.inj (Option.some.inj h)
      exact .refl _
    · obtain ⟨-, rfl⟩ := Prod.mk.inj (Option.some.inj h)
      exact ⟨.refl _ _, rfl⟩
  | sync | findFile | settleDir | dirMode | nextSeq | settings | setSettings | attempt | logError
  | logVerify | noteUnpreserved | report =>
    obtain ⟨-, rfl⟩ := Prod.mk.inj (Option.some.inj h)
    exact ⟨.refl _ _, rfl⟩

theorem answer_mkdir {mode : UInt32} (h : answer who w x (.mkdir p mode) = some (res, v)) :
    (∃ e, res = .error e ∧ v = w) ∨ ∃ fs, res = .ok () ∧
      w.fs.add (resolve p) (newNode who .directory mode) = .ok fs ∧
      v = { w with fs := fs, touched := w.touched ++ [p] } := by
  rcases change_eq (Option.some.inj h) with herr | ⟨a, fs, -, hok, rfl, rfl⟩
  · exact .inl herr
  · exact .inr ⟨fs, rfl, (withLoc_ok hok).2, rfl⟩

theorem answer_symlink {target : Bytes} (h : answer who w x (.symlink target p) = some (res, v)) :
    (∃ e, res = .error e ∧ v = w) ∨ ∃ fs, res = .ok () ∧
      w.fs.add (resolve p) (newNode who (.symlink target) 0x1FF) = .ok fs ∧
      v = { w with fs := fs, touched := w.touched ++ [p] } := by
  rcases change_eq (Option.some.inj h) with herr | ⟨a, fs, -, hok, rfl, rfl⟩
  · exact .inl herr
  · have hadd := (withLoc_ok hok).2
    split at hadd
    · cases hadd
    · exact .inr ⟨fs, rfl, hadd, rfl⟩

theorem answer_link {a b : Bytes} (h : answer who w x (.link a b) = some (res, v)) :
    (∃ e, res = .error e ∧ v = w) ∨ ∃ fs, res = .ok () ∧
      w.fs.link (resolve a) (resolve b) = .ok fs ∧
      v = { w with fs := fs, touched := w.touched ++ [a, b] } := by
  rcases change_eq (Option.some.inj h) with herr | ⟨u, fs, -, hok, rfl, rfl⟩
  · exact .inl herr
  · exact .inr ⟨fs, rfl, (withLocs_ok hok).2.2, rfl⟩

theorem answer_rename {a b : Bytes} (h : answer who w x (.rename a b) = some (res, v)) :
    (∃ e, res = .error e ∧ v = w) ∨ ∃ fs, res = .ok () ∧ a ≠ [] ∧ b ≠ [] ∧
      w.fs.rename (resolve a) (resolve b) x.emptyTarget = .ok fs ∧
      v = { w with fs := fs, touched := w.touched ++ [a, b] } := by
  rcases change_eq (Option.some.inj h) with herr | ⟨u, fs, -, hok, rfl, rfl⟩
  · exact .inl herr
  · obtain ⟨ha, hb, hok⟩ := withLocs_ok hok
    exact .inr ⟨fs, rfl, ha, hb, hok, rfl⟩

theorem answer_unlink (h : answer who w x (.unlink p) = some (res, v)) :
    (∃ e, res = .error e ∧ v = w) ∨ ∃ fs, res = .ok () ∧ p ≠ [] ∧
      w.fs.unlink (resolve p) = .ok fs ∧
      v = { w with fs := fs, touched := w.touched ++ [p] } := by
  rcases change_eq (Option.some.inj h) with herr | ⟨a, fs, -, hok, rfl, rfl⟩
  · exact .inl herr
  · obtain ⟨hp, hok⟩ := withLoc_ok hok
    exact .inr ⟨fs, rfl, hp, hok, rfl⟩

/-- An undisturbed `unlink` of a file removes its name. -/
theorem unlink_file (ht : w.fs.Tree) {p : Bytes} {res : Except Errno Unit} (hx : x.fault = none)
    (hfile : w.fs.isFile (resolve p) = true) (hp : p ≠ [])
    (h : answer who w x (.unlink p) = some (res, v)) :
    res = .ok () ∧ v.files = w.files ∧
      v.fs = { w.fs with entry := Function.update w.fs.entry (resolve p) none } := by
  obtain ⟨i, hi, hd⟩ := Fs.isFile_iff.mp hfile
  have hparent : w.fs.parentError (resolve p) = none :=
    Fs.parentError_eq_none_iff.mpr (ht.parents _ (by simp [hi]))
  have hok : World.withLoc p w.fs.unlink =
      .ok ((), { w.fs with entry := Function.update w.fs.entry (resolve p) none }) := by
    simp [World.withLoc, locate, hp, Fs.unlink, hparent, hi, hd]
  obtain ⟨rfl, rfl⟩ := change_of_ok (Option.some.inj h) hx hok
  exact ⟨rfl, rfl, rfl⟩

theorem answer_tree (ht : w.fs.Tree) {c : Call} {res : c.Result}
    (h : answer who w x c = some (res, v)) : v.fs.Tree := by
  by_cases hc : c.calm = true
  · exact ht.nodes (answer_calm hc h).within
  cases c with
  | openFile p flags mode =>
    rcases answer_openFile h with ⟨e, -, rfl⟩ | ⟨i, fs, -, -, -, hopen, rfl⟩
    · exact ht
    · exact ht.openFile hopen
  | mkdir p mode =>
    rcases answer_mkdir h with ⟨e, -, rfl⟩ | ⟨fs, -, hadd, rfl⟩
    · exact ht
    · exact ht.add hadd
  | symlink target p =>
    rcases answer_symlink h with ⟨e, -, rfl⟩ | ⟨fs, -, hadd, rfl⟩
    · exact ht
    · exact ht.add hadd
  | link a b =>
    rcases answer_link h with ⟨e, -, rfl⟩ | ⟨fs, -, hlink, rfl⟩
    · exact ht
    · exact ht.link hlink
  | rename a b =>
    rcases answer_rename h with ⟨e, -, rfl⟩ | ⟨fs, -, -, -, hr, rfl⟩
    · exact ht
    · exact ht.rename hr
  | unlink p =>
    rcases answer_unlink h with ⟨e, -, rfl⟩ | ⟨fs, -, -, hu, rfl⟩
    · exact ht
    · exact ht.unlink hu
  | addFile | updateFile | removeFile | takeFiles =>
    obtain ⟨-, rfl⟩ := Prod.mk.inj (Option.some.inj h)
    exact ht
  | _ => exact absurd rfl hc

/-- The inode that `stat` finds at the end of all symlinks. -/
def statIno (fs : Fs) (l : Loc) : Option ℕ :=
  match follow fs 40 l with
  | .error _ => none
  | .ok l => fs.entry l

theorem answer_stat {i : ℕ} {n : Node} (h : answer who w x (.stat p) = some (.ok (i, n), v)) :
    statIno w.fs (resolve p) = some i := by
  have hout := congrArg Prod.fst (Option.some.inj h)
  simp only [World.query] at hout
  split at hout
  · cases hout
  split at hout
  · cases hout
  rename_i l hl
  obtain ⟨-, rfl⟩ := locate_ok hl
  split at hout
  · cases hout
  · rename_i l' hfollow
    simp only [statIno, hfollow]
    exact (lookup_eq_ok hout).1

theorem lstat_found {i : ℕ} {n : Node} (h : answer who w x (.lstat p) = some (.ok (i, n), v)) :
    w.fs.entry (resolve p) = some i ∧ n = w.fs.node i := by
  have hout := congrArg Prod.fst (Option.some.inj h)
  simp only [World.query] at hout
  split at hout
  · cases hout
  split at hout
  · cases hout
  rename_i l hl
  obtain ⟨-, rfl⟩ := locate_ok hl
  exact lookup_eq_ok hout

theorem answer_claimDir {dir : Bytes} {claim : Claim}
    (h : answer who w x (.claimDir dir) = some (claim, v)) : v.fs = w.fs := by
  simp only [answer] at h
  split at h
  · cases h
  · obtain ⟨-, rfl⟩ := Prod.mk.inj (Option.some.inj h)
    rfl
  · obtain ⟨-, rfl⟩ := Prod.mk.inj (Option.some.inj h)
    rfl
  split at h
  · obtain ⟨-, rfl⟩ := Prod.mk.inj (Option.some.inj h)
    rfl
  · obtain ⟨-, rfl⟩ := Prod.mk.inj (Option.some.inj h)
    rfl

theorem answer_pwrite {offset : ℤ} {data : Bytes} {res : Except (Errno × ℕ) Unit}
    (h : answer who w x (.pwrite fd offset data) = some (res, v)) :
    (∃ e, res = .error (e, 0) ∧ v = w) ∨
      (∃ e n, res = .error (e, n) ∧ v = w.writeData fd offset.toNat (data.take x.progress)) ∨
      res = .ok () ∧ 0 ≤ offset ∧ v = w.writeData fd offset.toNat data := by
  simp only [answer] at h
  split at h
  · obtain ⟨rfl, rfl⟩ := Prod.mk.inj (Option.some.inj h)
    exact .inl ⟨_, rfl, rfl⟩
  rename_i hoffset
  split at h
  · obtain ⟨rfl, rfl⟩ := Prod.mk.inj (Option.some.inj h)
    exact .inr (.inl ⟨_, _, rfl, rfl⟩)
  · obtain ⟨rfl, rfl⟩ := Prod.mk.inj (Option.some.inj h)
    exact .inr (.inr ⟨rfl, Int.not_lt.mp hoffset, rfl⟩)

theorem answer_ftruncate {size : ℤ} (h : answer who w x (.ftruncate fd size) = some (res, v)) :
    (∃ e, res = .error e ∧ v = w) ∨ res = .ok () ∧ 0 ≤ size ∧ v = { w with
      fs := w.fs.modifyData fd.ino (World.resize size.toNat)
      touched := w.touched ++ [fd.path] } := by
  simp only [answer] at h
  split at h
  · obtain ⟨rfl, rfl⟩ := Prod.mk.inj (Option.some.inj h)
    exact .inl ⟨_, rfl, rfl⟩
  rename_i hsize
  rcases change_eq (Option.some.inj h) with herr | ⟨a, fs, -, hok, rfl, rfl⟩
  · exact .inl herr
  · obtain ⟨-, rfl⟩ := Prod.mk.inj (Except.ok.inj hok)
    exact .inr ⟨rfl, Int.not_lt.mp hsize, rfl⟩

theorem answer_fallocate {size : ℤ} (h : answer who w x (.fallocate fd size) = some (res, v)) :
    (∃ e, res = .error e ∧ v = w) ∨ res = .ok () ∧ v = { w with
      fs := w.fs.modifyData fd.ino fun data =>
        if data.length < size.toNat then World.resize size.toNat data else data
      touched := w.touched ++ [fd.path] } := by
  rcases change_eq (Option.some.inj h) with herr | ⟨a, fs, -, hok, rfl, rfl⟩
  · exact .inl herr
  · obtain ⟨-, rfl⟩ := Prod.mk.inj (Except.ok.inj hok)
    exact .inr ⟨rfl, rfl⟩

theorem change_next {α : Type} {paths : List Bytes} {res : Except Errno (α × Fs)}
    {out : Except Errno α} (h : w.change x paths res = (out, v))
    (hres : ∀ a fs, res = .ok (a, fs) → fs.next = w.fs.next) : v.fs.next = w.fs.next := by
  rcases change_eq h with ⟨e, -, rfl⟩ | ⟨a, fs, -, hok, -, rfl⟩
  · rfl
  · exact hres a fs hok

theorem modifyData_next (fs : Fs) (i : ℕ) (f : Bytes → Bytes) : (fs.modifyData i f).next = fs.next := by
  unfold Fs.modifyData
  split <;> rfl

theorem changeAt_next (h : w.changeAt x p f = (out, v)) : v.fs.next = w.fs.next := by
  apply change_next h
  intro a fs heq
  obtain ⟨-, heq⟩ := withLoc_ok heq
  split at heq
  · cases heq
  · obtain rfl := Except.ok.inj heq
    rfl

theorem changeNode_next (h : w.changeNode x fd f = (out, v)) : v.fs.next = w.fs.next := by
  apply change_next h
  intro a fs heq
  obtain ⟨-, rfl⟩ := Prod.mk.inj (Except.ok.inj heq)
  rfl

theorem changeData_next {f : Bytes → Bytes}
    (h : w.change x [fd.path] (.ok ((), w.fs.modifyData fd.ino f)) = (out, v)) :
    v.fs.next = w.fs.next := by
  apply change_next h
  intro a fs heq
  obtain ⟨-, rfl⟩ := Prod.mk.inj (Except.ok.inj heq)
  exact modifyData_next ..

theorem calm_next {c : Call} {res : c.Result} (hc : c.calm = true)
    (h : answer who w x c = some (res, v)) : v.fs.next = w.fs.next := by
  cases c with
  | openFile p flags mode =>
    have hcreate : flags.create = false := calm_openFile.mp hc
    rcases answer_openFile h with ⟨e, -, rfl⟩ | ⟨i, fs, -, -, -, hopen, rfl⟩
    · rfl
    · obtain ⟨-, ⟨-, hyes, -⟩ | ⟨-, -, ⟨data, -, rfl⟩ | ⟨-, -, rfl⟩⟩⟩ := Fs.openFile_eq_ok hopen
      · rw [hcreate] at hyes
        cases hyes
      · split <;> rfl
      · rfl
  | mkdir | rename | unlink | symlink | link | addFile | updateFile | removeFile | takeFiles =>
    cases hc
  | lstat | stat | openDir | pread | fstat | fsync | close => rw [query_eq (Option.some.inj h)]
  | fallocate fd size => exact changeData_next (Option.some.inj h)
  | ftruncate fd size =>
    simp only [answer] at h
    split at h
    · obtain ⟨-, rfl⟩ := Prod.mk.inj (Option.some.inj h)
      rfl
    · exact changeData_next (Option.some.inj h)
  | pwrite fd offset data =>
    simp only [answer] at h
    split at h
    · obtain ⟨-, rfl⟩ := Prod.mk.inj (Option.some.inj h)
      rfl
    split at h
    · obtain ⟨-, rfl⟩ := Prod.mk.inj (Option.some.inj h)
      exact modifyData_next ..
    · obtain ⟨-, rfl⟩ := Prod.mk.inj (Option.some.inj h)
      exact modifyData_next ..
  | fchown | fchmod | futimens => exact changeNode_next (Option.some.inj h)
  | lchown | lutimes => exact changeAt_next (Option.some.inj h)
  | claimDir dir => rw [answer_claimDir h]
  | sync | findFile | settleDir | dirMode | nextSeq | settings | setSettings | attempt | logError
  | logVerify | noteUnpreserved | report =>
    obtain ⟨-, rfl⟩ := Prod.mk.inj (Option.some.inj h)
    rfl

theorem add_next {fs fs' : Fs} {l : Loc} {n : Node} (h : fs.add l n = .ok fs') :
    fs'.next = fs.next + 1 := by
  unfold Fs.add at h
  split at h
  · cases h
  split at h
  · cases h
  split at h
  · cases h
  · obtain rfl := Except.ok.inj h
    rfl

/-- Inode numbers are not used twice, and an object does not become a directory or cease to
be one. -/
structure Lasting (fs fs' : Fs) : Prop where
  next : fs.next ≤ fs'.next
  dirs : ∀ i, i < fs.next → (fs'.node i).isDir = (fs.node i).isDir

theorem answer_lasting {c : Call} {res : c.Result} (h : answer who w x c = some (res, v)) :
    Lasting w.fs v.fs := by
  by_cases hc : c.calm = true
  · exact ⟨(calm_next hc h).ge, (answer_calm hc h).within.dirs⟩
  have hsame : Lasting w.fs w.fs := ⟨le_refl _, fun _ _ => rfl⟩
  cases c with
  | openFile p flags mode =>
    rcases answer_openFile h with ⟨e, -, rfl⟩ | ⟨i, fs, -, -, -, hopen, rfl⟩
    · exact hsame
    · refine ⟨?_, (Fs.within_openFile hopen).dirs⟩
      obtain ⟨-, ⟨-, -, -, rfl⟩ | ⟨-, -, ⟨data, -, rfl⟩ | ⟨-, -, rfl⟩⟩⟩ := Fs.openFile_eq_ok hopen
      · exact Nat.le_succ _
      · split <;> exact le_refl _
      · exact le_refl _
  | mkdir p mode =>
    rcases answer_mkdir h with ⟨e, -, rfl⟩ | ⟨fs, -, hadd, rfl⟩
    · exact hsame
    · exact ⟨(Nat.le_succ _).trans (add_next hadd).ge, (Fs.within_add hadd).dirs⟩
  | symlink target p =>
    rcases answer_symlink h with ⟨e, -, rfl⟩ | ⟨fs, -, hadd, rfl⟩
    · exact hsame
    · exact ⟨(Nat.le_succ _).trans (add_next hadd).ge, (Fs.within_add hadd).dirs⟩
  | link a b =>
    rcases answer_link h with ⟨e, -, rfl⟩ | ⟨fs, -, hlink, rfl⟩
    · exact hsame
    · obtain ⟨-, -, rfl⟩ := Fs.link_eq_ok hlink
      exact ⟨hsame.next, hsame.dirs⟩
  | rename a b =>
    rcases answer_rename h with ⟨e, -, rfl⟩ | ⟨fs, -, -, -, hr, rfl⟩
    · exact hsame
    · obtain ⟨-, -, i, -, ⟨rfl, -⟩ | ⟨rfl, -⟩⟩ := Fs.rename_eq_ok hr
      · exact hsame
      · exact ⟨hsame.next, hsame.dirs⟩
  | unlink p =>
    rcases answer_unlink h with ⟨e, -, rfl⟩ | ⟨fs, -, -, hu, rfl⟩
    · exact hsame
    · obtain ⟨-, rfl⟩ := Fs.unlink_eq_ok hu
      exact ⟨hsame.next, hsame.dirs⟩
  | addFile | updateFile | removeFile | takeFiles =>
    obtain ⟨-, rfl⟩ := Prod.mk.inj (Option.some.inj h)
    exact hsame
  | _ => exact absurd rfl hc

end Effects

end Ecopy.Server
