import Ecopy.Metadata.Untouched
import Ecopy.Server.TempFiles

/-!
# What calls do to directories

`mkdir` alone makes a directory, and `fchmod` alone changes the mode of one. No directory is taken
away: `unlink` refuses it, and only files are renamed.
-/
namespace Ecopy.Metadata.DirSteps
open Protocol Ecopy.Path FileSystem Server Lib.Calls

/-- The directory at `l`. -/
def DirAt (fs : Fs) (l : Loc) (i : ℕ) : Prop := fs.entry l = some i ∧ (fs.node i).isDir = true

/-- Directories stay what they are, but for new ones at `made` and new modes of `changed`. -/
structure Steps (made : Loc → Prop) (changed : ℕ → Prop) (fs fs' : Fs) : Prop where
  next : fs.next ≤ fs'.next
  kinds : ∀ i, i < fs.next → (fs'.node i).isDir = (fs.node i).isDir
  kept : ∀ l i, DirAt fs l i → DirAt fs' l i
  fresh : ∀ l i, DirAt fs' l i → DirAt fs l i ∨ i = fs.next ∧ made l ∧ fs.entry l = none
  mode : ∀ i, i < fs.next → (fs.node i).isDir = true → ¬ changed i →
    (fs'.node i).mode = (fs.node i).mode

section DirAt
variable {fs : Fs} {l d : Loc} {i j : ℕ}

theorem DirAt.isDir (h : DirAt fs l i) : fs.isDir l = true := Fs.isDir_iff_entry.mpr ⟨i, h⟩

theorem exists_dirAt (h : fs.isDir l = true) : ∃ i, DirAt fs l i := Fs.isDir_iff_entry.mp h

theorem DirAt.unique (h : DirAt fs l i) (h' : DirAt fs l j) : i = j :=
  Option.some.inj (h.1.symm.trans h'.1)

theorem DirAt.bounded (ht : fs.Tree) (h : DirAt fs l i) : i < fs.next := ht.bounded l i h.1

theorem DirAt.ne_of_not_isDir (h : DirAt fs l i) (hd : fs.isDir d = false) : l ≠ d := by
  rintro rfl
  rw [h.isDir] at hd
  cases hd

theorem isDir_eq_false_of_none (h : fs.entry l = none) : fs.isDir l = false := by
  simp [Fs.isDir, h]

end DirAt

section Steps
variable {made : Loc → Prop} {changed : ℕ → Prop} {fs fs' : Fs}

/-- Directories, as far as their names are concerned. -/
structure Names (made : Loc → Prop) (fs fs' : Fs) : Prop where
  kept : ∀ l i, DirAt fs l i → DirAt fs' l i
  fresh : ∀ l i, DirAt fs' l i → DirAt fs l i ∨ i = fs.next ∧ made l ∧ fs.entry l = none

theorem Names.refl (made : Loc → Prop) (fs : Fs) : Names made fs fs := ⟨fun _ _ => id, fun _ _ => .inl⟩

theorem Names.mono {made' : Loc → Prop} (h : Names made fs fs') (hm : ∀ l, made l → made' l) :
    Names made' fs fs' :=
  ⟨h.kept, fun l i hi => (h.fresh l i hi).imp_right fun hnew => ⟨hnew.1, hm l hnew.2.1, hnew.2.2⟩⟩

/-- Only nodes change, and none becomes a directory or ceases to be one. -/
theorem names_of_within (hb : ∀ l i, fs.entry l = some i → i < fs.next)
    (h : Fs.Within (fun _ => False) fs fs') : Names made fs fs' := by
  have hentry : ∀ l, fs'.entry l = fs.entry l := fun l => h.entry l id
  constructor
  · exact fun l i hi => ⟨(hentry l).trans hi.1, (h.dirs i (hb l i hi.1)).trans hi.2⟩
  · intro l i hi
    have hold := (hentry l).symm.trans hi.1
    exact .inl ⟨hold, (h.dirs i (hb l i hold)).symm.trans hi.2⟩

/-- A new object. -/
theorem names_create (ht : fs.Tree) {l : Loc} {n : Node} (hl : fs.entry l = none)
    (hmade : n.isDir = true → made l) : Names made fs (fs.create l n) := by
  have hwithin := Fs.within_create fs l n
  have hne : ∀ k i, DirAt fs k i → k ≠ l := by
    rintro k i ⟨hi, -⟩ rfl
    rw [hl] at hi
    cases hi
  constructor
  · intro k i hi
    refine ⟨(hwithin.entry k (hne k i hi)).trans hi.1, ?_⟩
    exact (hwithin.dirs i (hi.bounded ht)).trans hi.2
  · intro k i hi
    by_cases hk : k = l
    · subst hk
      obtain ⟨hentry, hdir⟩ := hi
      have hnew : fs.next = i := by simpa [Fs.create] using hentry
      subst hnew
      exact .inr ⟨rfl, hmade (by simpa [Fs.create] using hdir), hl⟩
    · have hold := (hwithin.entry k hk).symm.trans hi.1
      exact .inl ⟨hold, (hwithin.dirs i (ht.bounded k i hold)).symm.trans hi.2⟩

/-- Another object under a name, or none. -/
def rebind (fs : Fs) (l : Loc) (e : Option ℕ) : Fs :=
  { fs with entry := Function.update fs.entry l e }

theorem names_rebind {l : Loc} {e : Option ℕ} (hl : fs.isDir l = false)
    (he : ∀ i, e = some i → (fs.node i).isDir = false) : Names made fs (rebind fs l e) := by
  constructor
  · intro k i hi
    exact ⟨(Function.update_of_ne (hi.ne_of_not_isDir hl) _ _).trans hi.1, hi.2⟩
  · intro k i hi
    by_cases hk : k = l
    · subst hk
      have hentry : e = some i := by simpa [rebind] using hi.1
      have hdir : (fs.node i).isDir = true := hi.2
      rw [he i hentry] at hdir
      cases hdir
    · exact .inl ⟨(Function.update_of_ne hk _ _).symm.trans hi.1, hi.2⟩

theorem Names.trans {fs₁ : Fs} (h : Names made fs fs₁) (h' : Names (fun _ => False) fs₁ fs') :
    Names made fs fs' := by
  refine ⟨fun l i hi => h'.kept l i (h.kept l i hi), fun l i hi => h.fresh l i ?_⟩
  exact (h'.fresh l i hi).resolve_right fun hnew => hnew.2.1

/-- A file is moved. -/
theorem names_move (ht : fs.Tree) {a b : Loc} {i : ℕ} (hi : fs.entry a = some i)
    (ha : fs.isDir a = false) (hb : fs.isDir b = false) (hba : ¬ b <+: a) :
    Names made fs (fs.move a b) := by
  have hfile : (fs.node i).isDir = false := by simpa [Fs.isDir, hi] using ha
  have hb' : (rebind fs a none).isDir b = false := by
    unfold rebind Fs.isDir
    dsimp only
    by_cases hab : b = a
    · rw [hab, Function.update_self]
    · rw [Function.update_of_ne hab]
      exact hb
  have hmove : fs.move a b = rebind (rebind fs a none) b (some i) := by
    unfold rebind
    rw [← hi, ← ht.move_file ha hb hba]
    rfl
  rw [hmove]
  refine (names_rebind ha (by simp)).trans (names_rebind hb' fun j hj => ?_)
  rw [← Option.some.inj hj]
  exact hfile

end Steps

section Answers
variable {who : Identity} {w v u : World} {x : Choice} {c : Call} {r : c.Result}

/-- The locations where the call makes a directory. -/
def makes : Call → Loc → Prop
  | .mkdir p _, l => l = resolve p
  | _, _ => False

/-- The objects whose mode the call changes. -/
def remodes : Call → ℕ → Prop
  | .fchmod fd _, i => fd.ino = i
  | _, _ => False

/-- No directory is renamed. -/
def MovesFile (fs : Fs) : Call → Prop
  | .rename a _ => fs.isDir (resolve a) = false
  | _ => True

theorem names_of_answer (ht : w.fs.Tree) (hfile : MovesFile w.fs c)
    (h : answer who w x c = some (r, v)) : Names (makes c) w.fs v.fs := by
  by_cases hc : c.calm = true
  · exact names_of_within ht.bounded (answer_calm hc h).within
  cases c with
  | openFile p flags mode =>
    rcases answer_openFile h with ⟨e, -, rfl⟩ | ⟨i, fs, -, -, -, hopen, rfl⟩
    · exact .refl _ _
    · obtain ⟨-, ⟨hnone, -, -, rfl⟩ | ⟨hentry, -, ⟨data, hk, rfl⟩ | ⟨-, -, rfl⟩⟩⟩ :=
        Fs.openFile_eq_ok hopen
      · exact names_create ht hnone (by simp [newNode])
      · dsimp only
        split
        · exact names_of_within ht.bounded (Fs.within_setNode (by simp [Node.isDir, hk]))
        · exact .refl _ _
      · exact .refl _ _
  | mkdir p mode =>
    rcases answer_mkdir h with ⟨e, -, rfl⟩ | ⟨fs, -, hadd, rfl⟩
    · exact .refl _ _
    · obtain ⟨hnone, rfl⟩ := add_eq_ok hadd
      exact names_create ht hnone fun _ => rfl
  | symlink target p =>
    rcases answer_symlink h with ⟨e, -, rfl⟩ | ⟨fs, -, hadd, rfl⟩
    · exact .refl _ _
    · obtain ⟨hnone, rfl⟩ := add_eq_ok hadd
      exact names_create ht hnone (by simp [newNode])
  | link a b =>
    rcases answer_link h with ⟨e, -, rfl⟩ | ⟨fs, -, hlink, rfl⟩
    · exact .refl _ _
    · obtain ⟨hnone, hfile, rfl⟩ := Fs.link_eq_ok hlink
      obtain ⟨j, hj, hjd⟩ := Fs.isFile_iff.mp hfile
      refine names_rebind (isDir_eq_false_of_none hnone) fun i hi => ?_
      rw [hj] at hi
      rw [← Option.some.inj hi]
      exact hjd
  | rename a b =>
    rcases answer_rename h with ⟨e, -, rfl⟩ | ⟨fs, -, -, -, hr, rfl⟩
    · exact .refl _ _
    · obtain ⟨-, -, i, hi, ⟨rfl, -⟩ | ⟨rfl, -, -, hba, hdirs⟩⟩ := Fs.rename_eq_ok hr
      · exact .refl _ _
      · have ha : w.fs.isDir (resolve a) = false := hfile
        have hb : w.fs.isDir (resolve b) = false := by
          by_contra hd
          rw [hdirs (Bool.eq_true_of_not_eq_false hd)] at ha
          cases ha
        exact names_move ht hi ha hb hba
  | unlink p =>
    rcases answer_unlink h with ⟨e, -, rfl⟩ | ⟨fs, -, -, hu, rfl⟩
    · exact .refl _ _
    · obtain ⟨hisFile, rfl⟩ := Fs.unlink_eq_ok hu
      obtain ⟨j, hj, hjd⟩ := Fs.isFile_iff.mp hisFile
      exact names_rebind (by simp [Fs.isDir, hj, hjd]) (by simp)
  | addFile | updateFile | removeFile | takeFiles =>
    obtain ⟨-, rfl⟩ := Prod.mk.inj (Option.some.inj h)
    exact .refl _ _
  | _ => exact absurd rfl hc

theorem names_dropIds {fs : Fs} (ht : fs.Tree) (i : ℕ) {made : Loc → Prop} :
    Names made fs (dropIds fs i) := by
  unfold dropIds
  split
  · exact .refl _ _
  · exact names_of_within ht.bounded (Fs.within_setNode rfl)

theorem names_of_answerIds (ht : w.fs.Tree) (hfile : MovesFile w.fs c)
    (h : answerIds who w x c = some (r, v)) : Names (makes c) w.fs v.fs := by
  by_cases hm : ∃ p mode, c = .mkdir p mode
  · obtain ⟨p, mode, rfl⟩ := hm
    have hmkdir : Names (makes (.mkdir p (mode &&& 0x3FF))) w.fs v.fs :=
      names_of_answer (r := r) ht trivial h
    exact hmkdir
  obtain ⟨u, hanswer, rfl | ⟨j, -, rfl⟩⟩ := exists_drop (fun p mode hc => hm ⟨p, mode, hc⟩) h
  · exact names_of_answer ht hfile hanswer
  · exact (names_of_answer ht hfile hanswer).trans (names_dropIds (answer_tree ht hanswer) j)

/-- The rule for every call. -/
theorem steps_of_answer (ht : w.fs.Tree) (hfile : MovesFile w.fs c)
    (h : answerIds who w x c = some (r, v)) : Steps (makes c) (remodes c) w.fs v.fs := by
  have hlast := answerIds_lasting h
  have hnames := names_of_answerIds ht hfile h
  refine ⟨hlast.next, hlast.dirs, hnames.kept, hnames.fresh, ?_⟩
  intro i hi hd hc
  refine answerIds_dir_mode hi hd ?_ h
  rintro fd mode rfl heq
  exact hc heq

theorem change_dirCache {α : Type} {paths : List Bytes} {res : Except Errno (α × Fs)}
    {out : Except Errno α} (h : w.change x paths res = (out, v)) : v.dirCache = w.dirCache := by
  rcases change_eq h with ⟨e, -, rfl⟩ | ⟨a, fs, -, -, -, rfl⟩
  · rfl
  · rfl

/-- The calls that write to the directory cache. -/
def caches : Call → Bool
  | .claimDir _ | .settleDir _ _ => true
  | _ => false

theorem answer_dirCache (hc : caches c = false) (h : answer who w x c = some (r, v)) :
    v.dirCache = w.dirCache := by
  cases c with
  | claimDir | settleDir => cases hc
  | lstat | stat | openDir | pread | fstat | fsync | close => rw [query_eq (Option.some.inj h)]
  | mkdir | openFile | fallocate | fchown | fchmod | futimens | rename | unlink | symlink | link
  | lchown | lutimes => exact change_dirCache (Option.some.inj h)
  | ftruncate fd size =>
    rcases answer_ftruncate h with ⟨e, -, rfl⟩ | ⟨-, -, rfl⟩
    · rfl
    · rfl
  | pwrite fd offset data =>
    rcases answer_pwrite h with ⟨e, -, rfl⟩ | ⟨e, k, -, rfl⟩ | ⟨-, -, rfl⟩
    · rfl
    · rfl
    · rfl
  | sync | findFile | addFile | updateFile | removeFile | takeFiles | dirMode | nextSeq | settings
  | setSettings | attempt | logError | logVerify | noteUnpreserved | report =>
    obtain ⟨-, rfl⟩ := Prod.mk.inj (Option.some.inj h)
    rfl

theorem answerIds_dirCache (hc : caches c = false) (h : answerIds who w x c = some (r, v)) :
    v.dirCache = w.dirCache := by
  by_cases hm : ∃ p mode, c = .mkdir p mode
  · obtain ⟨p, mode, rfl⟩ := hm
    exact answer_dirCache (c := .mkdir p (mode &&& 0x3FF)) rfl h
  obtain ⟨u, hanswer, hv⟩ := exists_drop (fun p mode hc => hm ⟨p, mode, hc⟩) h
  rw [← answer_dirCache hc hanswer]
  rcases hv with rfl | ⟨j, -, rfl⟩ <;> rfl

/-- A mode that is recorded now was so before, or is recorded by this call. -/
theorem recorded_of_answerIds {d : Bytes} {m : UInt32} (h : answerIds who w x c = some (r, v))
    (hv : v.dirCache d = some (.ready (some m))) :
    w.dirCache d = some (.ready (some m)) ∨ c = .settleDir d (.ready (some m)) := by
  by_cases hc : caches c = false
  · left
    rw [← answerIds_dirCache hc h]
    exact hv
  cases c with
  | claimDir dir =>
    have hanswer := answer_of_plain (c := .claimDir dir) rfl h
    simp only [answer] at hanswer
    split at hanswer
    · cases hanswer
    · obtain ⟨-, rfl⟩ := Prod.mk.inj (Option.some.inj hanswer)
      exact .inl hv
    · obtain ⟨-, rfl⟩ := Prod.mk.inj (Option.some.inj hanswer)
      exact .inl hv
    · split at hanswer
      · obtain ⟨-, rfl⟩ := Prod.mk.inj (Option.some.inj hanswer)
        exact .inl hv
      · obtain ⟨-, rfl⟩ := Prod.mk.inj (Option.some.inj hanswer)
        simp only [Function.update_apply] at hv
        split_ifs at hv
        · cases hv
        · exact .inl hv
  | settleDir dir state =>
    obtain ⟨-, rfl⟩ := Prod.mk.inj (Option.some.inj (answer_of_plain (c := .settleDir dir state) rfl h))
    simp only [Function.update_apply] at hv
    split_ifs at hv with hd
    · subst hd
      rw [Option.some.inj hv]
      exact .inr rfl
    · exact .inl hv
  | _ => exact absurd rfl hc

/-- A directory that has been made has the mode that was asked for, less the set-id bits. -/
theorem mkdir_made {p : Bytes} {mode : UInt32}
    (h : answerIds who w x (.mkdir p mode) = some (.ok (), v)) :
    DirAt v.fs (resolve p) w.fs.next ∧ (v.fs.node w.fs.next).mode = mode &&& 0x3FF := by
  have hmkdir : answer who w x (.mkdir p (mode &&& 0x3FF)) = some (.ok (), v) := h
  rcases answer_mkdir hmkdir with ⟨e, he, -⟩ | ⟨fs, -, hadd, rfl⟩
  · cases he
  · obtain ⟨-, rfl⟩ := add_eq_ok hadd
    refine ⟨⟨by simp [Fs.create], by simp [Fs.create, newNode, Node.isDir]⟩, ?_⟩
    have hbits : mode &&& 0x3FF &&& 0xFFF = mode &&& 0x3FF := by
      rw [UInt32.and_assoc]
      rfl
    simp [Fs.create, newNode, hbits]

theorem mkdir_ok {p : Bytes} {mode : UInt32} (h : answerIds who w x (.mkdir p mode) = some (.ok (), v)) :
    DirAt v.fs (resolve p) w.fs.next ∧
      (v.fs.node w.fs.next).mode &&& 0x1FF = mode &&& 0x1FF := by
  obtain ⟨hdir, hmode⟩ := mkdir_made h
  refine ⟨hdir, ?_⟩
  rw [hmode, UInt32.and_assoc]
  rfl

theorem entry_of_add_eexist {fs : Fs} {l : Loc} {n : Node} (ht : fs.Tree)
    (h : fs.add l n = .error .eexist) : fs.entry l ≠ none := by
  unfold Fs.add at h
  split at h
  · rename_i hnil
    subst hnil
    obtain ⟨i, hi, -⟩ := Fs.isDir_iff_entry.mp ht.top
    rw [hi]
    exact Option.some_ne_none i
  split at h
  · rename_i e he
    rw [Except.error.inj h] at he
    exact absurd rfl (Fs.walkDir_ne_eexist he)
  split at h
  · rename_i he
    exact Option.isSome_iff_ne_none.mp he
  · cases h

/-- `EEXIST` tells the truth. -/
theorem mkdir_eexist {p : Bytes} {mode : UInt32} (ht : w.fs.Tree)
    (h : answerIds who w x (.mkdir p mode) = some (.error .eexist, v)) :
    v.fs = w.fs ∧ w.fs.entry (resolve p) ≠ none := by
  have hmkdir : answer who w x (.mkdir p (mode &&& 0x3FF)) = some (.error .eexist, v) := h
  have heq := Option.some.inj hmkdir
  simp only [World.change] at heq
  split at heq
  · rename_i f _
    exact absurd (Except.error.inj (Prod.mk.inj heq).1) f.errno_ne_eexist
  split at heq
  · rename_i e he
    obtain ⟨hres, rfl⟩ := Prod.mk.inj heq
    obtain rfl := Except.error.inj hres
    refine ⟨rfl, ?_⟩
    unfold World.withLoc locate at he
    split at he
    · rename_i hl
      split at hl
      · rw [← Except.error.inj hl] at he
        cases he
      · cases hl
    · rename_i l hl
      split at hl
      · cases hl
      rw [← Except.ok.inj hl] at he
      split at he
      · rename_i e hadd
        rw [Except.error.inj he] at hadd
        exact entry_of_add_eexist ht hadd
      · cases he
  · cases (Prod.mk.inj heq).1

end Answers

end Ecopy.Metadata.DirSteps
