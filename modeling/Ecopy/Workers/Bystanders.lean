import Ecopy.HardLinks.Replay
import Ecopy.Lib.Interference
import Ecopy.Metadata.Untouched
import Ecopy.Workers.Contents

/-!
# Files that are not copied

A run may add, replace and remove some names, `ours`; the objects `O` are to stay as they
are. The calls of the copies are sorted by what they may do to either. A file that the run
has made, or found under a name of its own, is at its disposal, and it stays so whatever the
other copies do.
-/
namespace Ecopy.Workers.Bystanders
open Protocol Ecopy.Path FileSystem Server Lib.Calls
open SmallCopy OtherCopies Events CallsMade Contents Metadata

/-- The objects to spare are there. -/
structure Sound (O : ℕ → Prop) (fs : Fs) : Prop where
  tree : fs.Tree
  bounded : ∀ i, O i → i < fs.next

/-- An object the run may do with as it likes. -/
structure AtHand (O : ℕ → Prop) (fs : Fs) (i : ℕ) : Prop where
  free : ¬ O i
  bounded : i < fs.next
  file : (fs.node i).isDir = false

/-- The objects `O` and all names but `ours` are left alone. -/
structure Spares (O : ℕ → Prop) (ours : Loc → Prop) (fs fs' : Fs) : Prop where
  sound : Sound O fs → Sound O fs'
  next : fs.next ≤ fs'.next
  dirs : ∀ i, i < fs.next → (fs'.node i).isDir = (fs.node i).isDir
  regular : ∀ i, i < fs.next → Node.isRegular (fs'.node i) = Node.isRegular (fs.node i)
  node : ∀ i, O i → i < fs.next → fs'.node i = fs.node i
  entry : ∀ l, ¬ ours l → fs'.entry l = fs.entry l

/-- The same, and a name that is new stands for something at hand. -/
structure Steady (O : ℕ → Prop) (ours : Loc → Prop) (fs fs' : Fs) : Prop
    extends Spares O ours fs fs' where
  fresh : ∀ l i, fs'.entry l = some i → fs.entry l = some i ∨ AtHand O fs' i

section Relations
variable {O : ℕ → Prop} {ours : Loc → Prop} {fs fs₁ fs₂ : Fs}

theorem Spares.refl (fs : Fs) : Spares O ours fs fs :=
  ⟨id, le_refl _, fun _ _ => rfl, fun _ _ => rfl, fun _ _ _ => rfl, fun _ _ => rfl⟩

theorem Spares.trans (h : Spares O ours fs fs₁) (h' : Spares O ours fs₁ fs₂) :
    Spares O ours fs fs₂ := by
  constructor
  · exact fun hs => h'.sound (h.sound hs)
  · exact h.next.trans h'.next
  · exact fun i hi => (h'.dirs i (hi.trans_le h.next)).trans (h.dirs i hi)
  · exact fun i hi => (h'.regular i (hi.trans_le h.next)).trans (h.regular i hi)
  · exact fun i hO hi => (h'.node i hO (hi.trans_le h.next)).trans (h.node i hO hi)
  · exact fun l hl => (h'.entry l hl).trans (h.entry l hl)

theorem AtHand.spared {i : ℕ} (h : AtHand O fs i) (hs : Spares O ours fs fs₁) : AtHand O fs₁ i :=
  ⟨h.free, h.bounded.trans_le hs.next, (hs.dirs i h.bounded).trans h.file⟩

theorem Steady.refl (fs : Fs) : Steady O ours fs fs := ⟨.refl fs, fun _ _ => .inl⟩

theorem Steady.trans (h : Steady O ours fs fs₁) (h' : Steady O ours fs₁ fs₂) :
    Steady O ours fs fs₂ := by
  refine ⟨h.toSpares.trans h'.toSpares, ?_⟩
  intro l i hi
  rcases h'.fresh l i hi with hi | hi
  · rcases h.fresh l i hi with hi | hi
    · exact .inl hi
    · exact .inr (hi.spared h'.toSpares)
  · exact .inr hi

/-- Whatever stands at `l` is at hand. -/
def Held (O : ℕ → Prop) (fs : Fs) (l : Loc) : Prop := ∀ i, fs.entry l = some i → AtHand O fs i

theorem Held.steady {l : Loc} (h : Held O fs l) (hs : Steady O ours fs fs₁) : Held O fs₁ l := by
  intro i hi
  rcases hs.fresh l i hi with hi | hi
  · exact (h i hi).spared hs.toSpares
  · exact hi

end Relations

/-- A call that changes no names and nothing in `O`, whatever the state. -/
def Gentle (O : ℕ → Prop) : Call → Prop
  | .openFile _ flags _ => flags.create = false ∧ flags.trunc = false
  | .fallocate fd _ | .ftruncate fd _ | .pwrite fd _ _ | .fchown fd _ _ | .fchmod fd _
  | .futimens fd _ _ => ¬ O fd.ino
  | .mkdir _ _ | .rename _ _ | .unlink _ | .symlink _ _ | .link _ _ | .lchown _ _ _
  | .lutimes _ _ _ => False
  | _ => True

/-- A call of a run on its own names. -/
def Own (O : ℕ → Prop) (ours : Loc → Prop) (fs : Fs) : Call → Prop
  | .openFile p flags _ => (flags.create = true → ours (resolve p)) ∧ (flags.trunc = true →
      ∀ i, fs.entry (resolve p) = some i → Node.isRegular (fs.node i) = true → ¬ O i)
  | .rename a b => ours (resolve a) ∧ ours (resolve b) ∧ fs.isDir (resolve a) = false
  | .unlink p => ours (resolve p)
  | .link _ b => ours (resolve b)
  | c => Gentle O c

/-- A name is given to things at hand only. -/
def GivesOwn (O : ℕ → Prop) (fs : Fs) : Call → Prop
  | .rename a _ => Held O fs (resolve a)
  | .link _ _ => False
  | _ => True

theorem Gentle.own {O : ℕ → Prop} {ours : Loc → Prop} {fs : Fs} {c : Call} (h : Gentle O c) :
    Own O ours fs c ∧ GivesOwn O fs c := by
  cases c with
  | openFile p flags mode =>
    obtain ⟨hcreate, htrunc⟩ := h
    exact ⟨⟨by simp [hcreate], by simp [htrunc]⟩, trivial⟩
  | rename | unlink | link => exact h.elim
  | _ => exact ⟨h, trivial⟩

section Calls
variable {who : Identity} {w v u : World} {x : Choice} {O : ℕ → Prop} {ours : Loc → Prop}
variable {i : ℕ}

theorem isRegular_setNode {fs : Fs} {j : ℕ} {n : Node}
    (h : Node.isRegular n = Node.isRegular (fs.node j)) :
    Node.isRegular ((fs.setNode j n).node i) = Node.isRegular (fs.node i) := by
  simp only [Fs.setNode, Function.update_apply]
  split_ifs with hi
  · rw [h, hi]
  · rfl

theorem isRegular_modifyData {fs : Fs} {j : ℕ} {f : Bytes → Bytes} :
    Node.isRegular ((fs.modifyData j f).node i) = Node.isRegular (fs.node i) := by
  unfold Fs.modifyData
  split
  · rename_i data hk
    exact isRegular_setNode (by simp [Node.isRegular, hk])
  · rfl

theorem isRegular_changeNode {fd : Fd} {f : Node → Node} {out : Except Errno Unit}
    (h : w.changeNode x fd f = (out, v)) (hf : ∀ n, (f n).kind = n.kind) :
    Node.isRegular (v.fs.node i) = Node.isRegular (w.fs.node i) := by
  rcases change_eq h with ⟨e, -, rfl⟩ | ⟨a, fs, -, hok, -, rfl⟩
  · rfl
  · obtain ⟨-, rfl⟩ := Prod.mk.inj (Except.ok.inj hok)
    exact isRegular_setNode (by simp [Node.isRegular, hf])

theorem isRegular_changeAt {p : Bytes} {f : Node → Node} {out : Except Errno Unit}
    (h : w.changeAt x p f = (out, v)) (hf : ∀ n, (f n).kind = n.kind) :
    Node.isRegular (v.fs.node i) = Node.isRegular (w.fs.node i) := by
  rcases change_eq h with ⟨e, -, rfl⟩ | ⟨a, fs, -, hok, -, rfl⟩
  · rfl
  · obtain ⟨-, hok⟩ := withLoc_ok hok
    split at hok
    · cases hok
    rename_i j n hl
    obtain ⟨-, rfl⟩ := lookup_eq_ok hl
    rw [← Except.ok.inj hok]
    exact isRegular_setNode (by simp [Node.isRegular, hf])

variable {c : Call} {r : c.Result}

/-- A regular file stays one, and nothing else becomes one. -/
theorem answer_isRegular (hi : i < w.fs.next) (h : answer who w x c = some (r, v)) :
    Node.isRegular (v.fs.node i) = Node.isRegular (w.fs.node i) := by
  by_cases ht : Touches w i c
  swap
  · rw [answer_untouched hi ht h]
  cases c with
  | fallocate fd size =>
    rcases answer_fallocate h with ⟨e, -, rfl⟩ | ⟨-, rfl⟩
    · rfl
    · exact isRegular_modifyData
  | ftruncate fd size =>
    rcases answer_ftruncate h with ⟨e, -, rfl⟩ | ⟨-, -, rfl⟩
    · rfl
    · exact isRegular_modifyData
  | pwrite fd offset data =>
    rcases answer_pwrite h with ⟨e, -, rfl⟩ | ⟨e, n, -, rfl⟩ | ⟨-, -, rfl⟩
    · rfl
    · exact isRegular_modifyData
    · exact isRegular_modifyData
  | fchown | fchmod | futimens => exact isRegular_changeNode (Option.some.inj h) fun _ => rfl
  | lchown | lutimes => exact isRegular_changeAt (Option.some.inj h) fun _ => rfl
  | openFile p flags mode =>
    rcases answer_openFile h with ⟨e, -, rfl⟩ | ⟨j, fs, -, -, -, hopen, rfl⟩
    · rfl
    obtain ⟨-, ⟨hnone, -, -, -⟩ | ⟨hentry, -, ⟨data, hk, rfl⟩ | ⟨-, -, rfl⟩⟩⟩ :=
      Fs.openFile_eq_ok hopen
    · rw [ht.2] at hnone
      cases hnone
    · dsimp only
      split
      · exact isRegular_setNode (by simp [Node.isRegular, hk])
      · rfl
    · rfl
  | _ => exact ht.elim

theorem answerIds_isRegular (hi : i < w.fs.next) (h : answerIds who w x c = some (r, v)) :
    Node.isRegular (v.fs.node i) = Node.isRegular (w.fs.node i) := by
  obtain ⟨c', r', u, hanswer, -, rfl | ⟨j, -, rfl⟩⟩ := exists_answer h
  · exact answer_isRegular hi hanswer
  · rw [← answer_isRegular hi hanswer]
    simp only [Node.isRegular, dropIds_kind]

/-- What a call does to names that are not its own. -/
theorem answer_entry (ht : w.fs.Tree) (hc : Own O ours w.fs c)
    (h : answer who w x c = some (r, v)) {l : Loc} (hl : ¬ ours l) :
    v.fs.entry l = w.fs.entry l := by
  by_cases hcalm : c.calm = true
  · rw [(answer_calm hcalm h).entry]
  have hne : ∀ {k : Loc}, ours k → l ≠ k := by
    rintro k hk rfl
    exact hl hk
  cases c with
  | openFile p flags mode =>
    rcases answer_openFile h with ⟨e, -, rfl⟩ | ⟨j, fs, -, -, -, hopen, rfl⟩
    · rfl
    · apply (Fs.within_openFile hopen).entry
      rintro ⟨⟨rfl, -⟩, hcreate⟩
      exact hl (hc.1 hcreate)
  | link a b =>
    rcases answer_link h with ⟨e, -, rfl⟩ | ⟨fs, -, hlink, rfl⟩
    · rfl
    · obtain ⟨-, -, rfl⟩ := Fs.link_eq_ok hlink
      exact Function.update_of_ne (hne hc) _ _
  | rename a b =>
    rcases answer_rename h with ⟨e, -, rfl⟩ | ⟨fs, -, -, -, hr, rfl⟩
    · rfl
    · obtain ⟨ha, hb, hfile⟩ := hc
      obtain ⟨-, -, j, hj, ⟨rfl, -⟩ | ⟨rfl, -, -, hba, hdirs⟩⟩ := Fs.rename_eq_ok hr
      · rfl
      · have hbfile : w.fs.isDir (resolve b) = false := by
          by_contra hd
          rw [hdirs (Bool.eq_true_of_not_eq_false hd)] at hfile
          cases hfile
        dsimp only
        rw [ht.move_file hfile hbfile hba, Function.update_of_ne (hne hb),
          Function.update_of_ne (hne ha)]
  | unlink p =>
    rcases answer_unlink h with ⟨e, -, rfl⟩ | ⟨fs, -, -, hu, rfl⟩
    · rfl
    · obtain ⟨-, rfl⟩ := Fs.unlink_eq_ok hu
      exact Function.update_of_ne (hne hc) _ _
  | mkdir | symlink => exact hc.elim
  | addFile | updateFile | removeFile | takeFiles =>
    obtain ⟨-, rfl⟩ := Prod.mk.inj (Option.some.inj h)
    rfl
  | _ => exact absurd rfl hcalm

theorem answerIds_entry (ht : w.fs.Tree) (hc : Own O ours w.fs c)
    (h : answerIds who w x c = some (r, v)) {l : Loc} (hl : ¬ ours l) :
    v.fs.entry l = w.fs.entry l := by
  obtain ⟨u, hanswer, rfl | ⟨j, -, rfl⟩⟩ := exists_drop (by rintro p mode rfl; exact hc) h
  · exact answer_entry ht hc hanswer hl
  · exact (congrFun (dropIds_entry u.fs j) l).trans (answer_entry ht hc hanswer hl)

theorem answerIds_node (hc : Own O ours w.fs c) (h : answerIds who w x c = some (r, v)) {i : ℕ}
    (hO : O i) (hi : i < w.fs.next) : v.fs.node i = w.fs.node i := by
  by_cases ht : Touches w i c
  swap
  · exact answerIds_untouched hi ht h
  cases c with
  | openFile p flags mode =>
    rcases answer_openFile (answer_of_plain rfl h) with ⟨e, -, rfl⟩ | ⟨j, fs, -, -, -, hopen, rfl⟩
    · rfl
    obtain ⟨-, ⟨hnone, -, -, -⟩ | ⟨hentry, -, ⟨data, hk, -⟩ | ⟨-, -, rfl⟩⟩⟩ :=
      Fs.openFile_eq_ok hopen
    · rw [ht.2] at hnone
      cases hnone
    · have hij : i = j := Option.some.inj (ht.2.symm.trans hentry)
      subst hij
      exact absurd hO (hc.2 ht.1 i ht.2 (by simp [Node.isRegular, hk]))
    · rfl
  | fallocate | ftruncate | pwrite | fchown | fchmod | futimens =>
    have hino : _ = i := ht
    rw [← hino] at hO
    exact absurd hO hc
  | lchown | lutimes => exact hc.elim
  | _ => exact ht.elim

theorem answerIds_spares (hs : Sound O w.fs) (hc : Own O ours w.fs c)
    (h : answerIds who w x c = some (r, v)) : Spares O ours w.fs v.fs := by
  have hlast := answerIds_lasting h
  constructor
  · intro hs
    exact ⟨answerIds_tree hs.tree h, fun i hi => (hs.bounded i hi).trans_le hlast.next⟩
  · exact hlast.next
  · exact hlast.dirs
  · exact fun i hi => answerIds_isRegular hi h
  · exact fun i hO hi => answerIds_node hc h hO hi
  · exact fun l hl => answerIds_entry hs.tree hc h hl

/-- The names of an object that is new. -/
theorem answer_fresh (hs : Sound O w.fs) (hc : Own O ours w.fs c) (hg : GivesOwn O w.fs c)
    (h : answer who w x c = some (r, v)) {l : Loc} {i : ℕ} (hi : v.fs.entry l = some i) :
    w.fs.entry l = some i ∨ AtHand O v.fs i := by
  by_cases hcalm : c.calm = true
  · exact .inl ((congrFun (answer_calm hcalm h).entry l).symm.trans hi)
  cases c with
  | openFile p flags mode =>
    rcases answer_openFile h with ⟨e, -, rfl⟩ | ⟨j, fs, -, -, -, hopen, rfl⟩
    · exact .inl hi
    obtain ⟨-, ⟨-, -, rfl, rfl⟩ | ⟨-, -, ⟨data, -, rfl⟩ | ⟨-, -, rfl⟩⟩⟩ := Fs.openFile_eq_ok hopen
    · simp only [Fs.create, Function.update_apply] at hi
      split_ifs at hi
      · obtain rfl := Option.some.inj hi
        refine .inr ⟨fun hO => (hs.bounded _ hO).ne rfl, Nat.lt_succ_self _, ?_⟩
        simp [Fs.create, newNode, Node.isDir]
      · exact .inl hi
    · dsimp only at hi
      split at hi
      · exact .inl hi
      · exact .inl hi
    · exact .inl hi
  | rename a b =>
    rcases answer_rename h with ⟨e, -, rfl⟩ | ⟨fs, -, -, -, hr, rfl⟩
    · exact .inl hi
    obtain ⟨-, -, hfile⟩ := hc
    obtain ⟨-, -, j, hj, ⟨rfl, -⟩ | ⟨rfl, -, -, hba, hdirs⟩⟩ := Fs.rename_eq_ok hr
    · exact .inl hi
    · have hbfile : w.fs.isDir (resolve b) = false := by
        by_contra hd
        rw [hdirs (Bool.eq_true_of_not_eq_false hd)] at hfile
        cases hfile
      dsimp only at hi
      rw [hs.tree.move_file hfile hbfile hba] at hi
      simp only [Function.update_apply] at hi
      split_ifs at hi
      · have hat : AtHand O w.fs i := hg i hi
        exact .inr ⟨hat.free, hat.bounded, hat.file⟩
      · exact .inl hi
  | unlink p =>
    rcases answer_unlink h with ⟨e, -, rfl⟩ | ⟨fs, -, -, hu, rfl⟩
    · exact .inl hi
    · obtain ⟨-, rfl⟩ := Fs.unlink_eq_ok hu
      simp only [Function.update_apply] at hi
      split_ifs at hi
      exact .inl hi
  | mkdir | symlink => exact hc.elim
  | link => exact hg.elim
  | addFile | updateFile | removeFile | takeFiles =>
    obtain ⟨-, rfl⟩ := Prod.mk.inj (Option.some.inj h)
    exact .inl hi
  | _ => exact absurd rfl hcalm

theorem answerIds_steady (hs : Sound O w.fs) (hc : Own O ours w.fs c) (hg : GivesOwn O w.fs c)
    (h : answerIds who w x c = some (r, v)) : Steady O ours w.fs v.fs := by
  refine ⟨answerIds_spares hs hc h, ?_⟩
  intro l i hi
  by_cases hplain : Metadata.Call.plain c = true
  · exact answer_fresh hs hc hg (answer_of_plain hplain h) hi
  -- a write or a change of owner, which changes no name
  have hcalm : c.calm = true := by
    cases c with
    | mkdir => exact hc.elim
    | pwrite | fchown => rfl
    | _ => exact absurd rfl hplain
  obtain ⟨u, hanswer, rfl | ⟨j, -, rfl⟩⟩ := exists_drop (by rintro p mode rfl; exact hc) h
  · exact .inl ((congrFun (answer_calm hcalm hanswer).entry l).symm.trans hi)
  · rw [dropIds_entry, (answer_calm hcalm hanswer).entry] at hi
    exact .inl hi

end Calls

/-- The condition on a step. A file that is opened to be emptied, and one that is looked
for to change its mode, is none of those to spare. At the paths `plain` this holds of
anything that is opened, and they are no symlinks when they are looked at. -/
def Watchful (plain : Bytes → Prop) (O : ℕ → Prop) (w : World) : Call → Prop
  | .openFile p flags _ => flags.trunc = true → ∀ i, w.fs.entry (resolve p) = some i →
      (Node.isRegular (w.fs.node i) = true ∨ plain p) → ¬ O i
  | .stat p => ∀ i, statIno w.fs (resolve p) = some i → ¬ O i
  | .lstat p => plain p → ∀ i target, w.fs.entry (resolve p) = some i →
      (w.fs.node i).kind ≠ .symlink target
  | _ => True

/-- What the copies do to the state. -/
def Moved (O : ℕ → Prop) (ours : Loc → Prop) (w v : World) : Prop := Steady O ours w.fs v.fs

instance (O : ℕ → Prop) (ours : Loc → Prop) : Std.Refl (Moved O ours) := ⟨fun w => .refl w.fs⟩

instance (O : ℕ → Prop) (ours : Loc → Prop) : IsTrans World (Moved O ours) :=
  ⟨fun _ _ _ h h' => Steady.trans h h'⟩

abbrev Among (who : Identity) (plain : Bytes → Prop) (O : ℕ → Prop) (ours : Loc → Prop) {α : Type}
    (post : World → α → Prop) (m : Handler α) (w : World) : Prop :=
  m.Amid (answerIds who) (fun v c => Sound O v.fs ∧ Watchful plain O v c) (Moved O ours)
    (Moved O ours) post w

/-- An open file of a copy, under the name it is written under. -/
structure Secure (O : ℕ → Prop) (w : World) (target : Target) : Prop where
  fd : ¬ O target.fd.ino
  path : Held O w.fs (resolve target.path)

/-- A file that has just been opened: it is at hand if it is regular. -/
structure Taken (O : ℕ → Prop) (w : World) (path : Bytes) (fd : Fd) : Prop where
  bounded : fd.ino < w.fs.next
  file : (w.fs.node fd.ino).isDir = false
  free : Node.isRegular (w.fs.node fd.ino) = true → ¬ O fd.ino
  entry : ∀ i, w.fs.entry (resolve path) = some i → i = fd.ino ∨ AtHand O w.fs i

section Programs
variable {who : Identity} {cfg : Tuning} {t : Task} {w v u : World} {x : Choice}
  {plain : Bytes → Prop} {O : ℕ → Prop} {ours : Loc → Prop} {α β : Type}
variable {path : Bytes} {target : Target} {m : Handler α} {fd : Fd} {post : World → β → Prop}

theorem Secure.moved (h : Secure O w target) (hv : Moved O ours w v) : Secure O v target :=
  ⟨h.fd, h.path.steady hv⟩

theorem Taken.moved (h : Taken O w path fd) (hv : Moved O ours w v) : Taken O v path fd := by
  constructor
  · exact h.bounded.trans_le hv.next
  · exact (hv.dirs _ h.bounded).trans h.file
  · rw [hv.regular _ h.bounded]
    exact h.free
  · intro i hi
    rcases hv.fresh _ i hi with hi | hi
    · rcases h.entry i hi with hi | hi
      · exact .inl hi
      · exact .inr (hi.spared hv.toSpares)
    · exact .inr hi

variable {fdIn : Fd} {flags : Fs.OpenFlags} {mode : UInt32}

theorem Taken.secure {direct : Bool} (h : Taken O w path fd)
    (hreg : Node.isRegular (w.fs.node fd.ino) = true) : Secure O w ⟨path, fd, direct, mode⟩ := by
  refine ⟨h.free hreg, ?_⟩
  intro i hi
  rcases h.entry i hi with rfl | hi
  · exact ⟨h.free hreg, h.bounded, h.file⟩
  · exact hi

theorem taken_openFile {p : Bytes} (hs : Sound O w.fs) (hwrite : flags.write = true)
    (hfree : (flags.create && flags.excl) = false → ∀ i, w.fs.entry (resolve p) = some i →
      Node.isRegular (w.fs.node i) = true → ¬ O i)
    (h : answerIds who w x (.openFile p flags mode) = some (.ok fd, v)) : Taken O v p fd := by
  have hentry := openFile_entry h
  have hbounded : fd.ino < v.fs.next := openFile_bounded hs.tree h
  have hset : ∀ i, v.fs.entry (resolve p) = some i → i = fd.ino ∨ AtHand O v.fs i :=
    fun i hi => .inl (Option.some.inj (hi.symm.trans hentry))
  rcases answer_openFile (answer_of_plain rfl h) with ⟨e, he, -⟩ | ⟨j, fs, -, -, hfd, hopen, rfl⟩
  · cases he
  obtain rfl := Except.ok.inj hfd
  obtain ⟨-, ⟨-, -, rfl, rfl⟩ | ⟨hj, hexcl, hfound⟩⟩ := Fs.openFile_eq_ok hopen
  · refine ⟨hbounded, by simp [Fs.create, newNode, Node.isDir], ?_, hset⟩
    exact fun _ hO => (hs.bounded _ hO).ne rfl
  · have hj' : j < w.fs.next := hs.tree.bounded _ _ hj
    have hreg := answerIds_isRegular hj' h
    have hdir := (answerIds_lasting h).dirs j hj'
    refine ⟨hbounded, ?_, ?_, hset⟩
    · rw [hdir]
      rcases hfound with ⟨data, hk, -⟩ | ⟨-, hnd, -⟩
      · simp [Node.isDir, hk]
      · exact hnd hwrite
    · intro hr
      exact hfree hexcl j hj (hreg.symm.trans hr)

theorem fstat_ok {i : ℕ} {n : Node} (h : answerIds who w x (.fstat fd) = some (.ok (i, n), v)) :
    n = w.fs.node fd.ino := by
  have hout := congrArg Prod.fst (Option.some.inj h)
  simp only [World.query] at hout
  split at hout
  · cases hout
  · exact (Prod.mk.inj (Except.ok.inj hout)).2.symm

theorem among_gentle (h : m.Keeps (Gentle O) fun _ _ => True) (w : World) :
    Among who plain O ours (fun _ _ => True) m w := by
  apply Prog.Amid.of_safe ?_ h w
  intro v x c r u hG hc hx
  obtain ⟨hown, hgives⟩ : Own O ours v.fs c ∧ GivesOwn O v.fs c := hc.own
  exact answerIds_steady hG.1 hown hgives hx

/-- One call of a copy, then the rest. -/
theorem among_call {post : World → α → Prop} {c : Call} {f : c.Result → Handler α}
    (hown : ∀ v, Moved O ours w v → Watchful plain O v c → Own O ours v.fs c ∧ GivesOwn O v.fs c)
    (hf : ∀ v x r u, Moved O ours w v → Moved O ours w u → Sound O v.fs → Watchful plain O v c →
      answerIds who v x c = some (r, u) → Among who plain O ours post (f r) u) :
    Among who plain O ours post (Prog.perform c >>= f) w := by
  intro v hv hG x r u hx
  obtain ⟨hc, hg⟩ := hown v hv hG.2
  have hu : Moved O ours v u := answerIds_steady hG.1 hc hg hx
  exact ⟨hu, hf v x r u hv (Steady.trans hv hu) hG.1 hG.2 hx⟩

theorem among_seq {P : World → Prop} {mid : World → α → Prop} {f : α → Handler β}
    (hP : ∀ v u, Moved O ours v u → P v → P u) (hw : P w) (hm : Among who plain O ours mid m w)
    (hf : ∀ v a, P v → mid v a → Among who plain O ours post (f a) v) :
    Among who plain O ours post (m >>= f) w :=
  (hm.keep hP (fun _ _ => id) hw).bind fun v a h => hf v a h.1 h.2

/-- A created or reopened file that is kept is at hand. -/
theorem among_keepTarget (direct : Bool) (h : Taken O w path fd) :
    Among who plain O ours (fun v kept => ∀ target, kept = .ok target →
      Secure O v target ∧ target.path = path) (keepTarget path direct (.ok fd)) w := by
  refine among_seq (P := (Taken O · path fd)) (fun v u hu hv => hv.moved hu) h
    (among_gentle (keeps_attemptIf trivial direct) w) ?_
  intro v switched hv _
  refine among_call (c := Call.fstat fd) (fun _ _ _ => Gentle.own trivial) ?_
  intro s x st u hs hu hsound _ hstat
  cases st with
  | error e =>
    refine among_call (c := Call.close fd) (fun _ _ _ => Gentle.own trivial) ?_
    intro _ _ _ _ _ _ _ _ _ z _ target heq
    cases heq
  | ok n =>
    obtain ⟨i, n⟩ := n
    obtain rfl := fstat_ok hstat
    obtain rfl := query_eq (Option.some.inj hstat)
    by_cases hreg : Node.isRegular (u.fs.node fd.ino) = true
    · change Among who plain O ours _ (keepValidated path fd switched
        (if Node.isRegular (u.fs.node fd.ino) then .ok ((u.fs.node fd.ino).mode &&& 0xFFF)
          else .error .eexist)) u
      rw [if_pos hreg]
      intro z hz target heq
      obtain rfl := Except.ok.inj heq
      exact ⟨((hv.moved hu).secure hreg).moved hz, rfl⟩
    · change Among who plain O ours _ (keepValidated path fd switched
        (if Node.isRegular (u.fs.node fd.ino) then .ok ((u.fs.node fd.ino).mode &&& 0xFFF)
          else .error .eexist)) u
      rw [if_neg hreg]
      refine among_call (c := Call.close fd) (fun _ _ _ => Gentle.own trivial) ?_
      intro _ _ _ _ _ _ _ _ _ z _ target heq
      cases heq

/-- What the functions that open a destination promise. -/
def Opened (O : ℕ → Prop) (ours : Loc → Prop) (v : World) (target : Target) : Prop :=
  Secure O v target ∧ ours (resolve target.path)

theorem Opened.moved (h : Opened O ours w target) (hv : Moved O ours w v) :
    Opened O ours v target :=
  ⟨h.1.moved hv, h.2⟩

theorem among_openKeep (direct : Bool) (hwrite : flags.write = true) (hours : ours (resolve path))
    (hfree : ∀ v, Moved O ours w v → Watchful plain O v (.openFile path flags mode) →
      (flags.create && flags.excl) = false → ∀ i, v.fs.entry (resolve path) = some i →
        Node.isRegular (v.fs.node i) = true → ¬ O i)
    {opened : Except Errno Fd} {x : Choice} (hw : Moved O ours w v) (hs : Sound O v.fs)
    (hwatch : Watchful plain O v (.openFile path flags mode))
    (h : answerIds who v x (.openFile path flags mode) = some (opened, u)) :
    Among who plain O ours (fun z kept => ∀ target, kept = .ok target → Opened O ours z target)
      (keepTarget path direct opened) u := by
  cases opened with
  | error e => exact fun _ _ target heq => nomatch heq
  | ok fd =>
    apply (among_keepTarget direct (taken_openFile hs hwrite (hfree v hw hwatch) h)).mono
    intro z kept hkept target heq
    obtain ⟨hsec, hpath⟩ := hkept target heq
    exact ⟨hsec, hpath ▸ hours⟩

theorem among_openTempCreatedOnce (mode : UInt32) (direct : Bool) (hours : ours (resolve path)) :
    Among who plain O ours (fun z kept => ∀ target, kept = .ok target → Opened O ours z target)
      (openTempCreatedOnce path mode direct) w := by
  refine among_call (c := Call.openFile path (createFlags false direct) mode) ?_ ?_
  · intro v _ _
    exact ⟨⟨fun _ => hours, by simp [createFlags]⟩, trivial⟩
  · intro v x opened u hv _ hs hwatch h
    exact among_openKeep direct rfl hours (by simp [createFlags]) hv hs hwatch h

theorem among_createTempAt (mode : UInt32)
    (htemp : ∀ n, ours (resolve (atDir t.dstDir (makeTempName who.pid n)))) (attempts : ℕ) :
    Among who plain O ours (fun z made => ∀ target, made = some target → Opened O ours z target)
      (createTempAt mode who cfg t attempts) w := by
  induction attempts generalizing w with
  | zero => exact fun _ _ target heq => by cases heq
  | succ attempts ih =>
    refine among_call (c := Call.nextSeq .put) (fun _ _ _ => Gentle.own trivial) ?_
    intro v x n u _ _ _ _ _
    have hbuffered : ∀ s : World, Among who plain O ours
        (fun z made => ∀ target, made = some target → Opened O ours z target)
        (createBuffered (atDir t.dstDir (makeTempName who.pid n)) mode
          (createTempAt mode who cfg t attempts)) s := by
      intro s
      refine (among_openTempCreatedOnce mode false (htemp n)).bind ?_
      intro z kept hkept
      cases kept with
      | ok target =>
        intro y hy target' heq
        obtain rfl := Option.some.inj heq
        exact (hkept target rfl).moved hy
      | error e =>
        cases e with
        | eexist => exact ih
        | _ => exact fun _ _ target heq => by cases heq
    dsimp only
    split
    · refine (among_openTempCreatedOnce _ true (htemp n)).bind ?_
      intro z kept hkept
      cases kept with
      | ok target =>
        intro y hy target' heq
        obtain rfl := Option.some.inj heq
        exact (hkept target rfl).moved hy
      | error e =>
        have hrest : ∀ e' : Errno, Among who plain O ours
            (fun z made => ∀ target, made = some target → Opened O ours z target)
            (createFallback (atDir t.dstDir (makeTempName who.pid n)) mode e'
              (createTempAt mode who cfg t attempts)) z := by
          intro e'
          unfold createFallback
          split
          · refine among_call (c := Call.unlink _) (fun _ _ _ => ⟨htemp n, trivial⟩) ?_
            exact fun _ _ _ s _ _ _ _ _ => hbuffered s
          · exact fun _ _ target heq => by cases heq
        cases e with
        | eexist => exact ih
        | _ => exact hrest _
    · exact hbuffered u

theorem among_fchmodat (path : Bytes) (mode : UInt32) :
    Among who plain O ours (fun _ _ => True) (fchmodat path mode) w := by
  refine among_call (c := Call.stat path) (fun _ _ _ => Gentle.own trivial) ?_
  intro v x st u _ _ _ hwatch hstat
  cases st with
  | error e => exact fun _ _ => trivial
  | ok n =>
    obtain ⟨i, n⟩ := n
    have hi : ¬ O i := hwatch i (answer_stat (answer_of_plain rfl hstat))
    refine among_call (c := Call.fchmod ⟨path, i⟩ mode) (fun _ _ _ => Gentle.own hi) ?_
    exact fun _ _ _ _ _ _ _ _ _ _ _ => trivial

theorem among_openFinalCreatedOnce (mode : UInt32) (direct : Bool) (hours : ours (resolve path)) :
    Among who plain O ours (fun z kept => ∀ target, kept = .ok target → Opened O ours z target)
      (openFinalCreatedOnce path mode direct) w := by
  have hown : ∀ v, Watchful plain O v (.openFile path (createFlags true direct) mode) →
      Own O ours v.fs (.openFile path (createFlags true direct) mode) ∧
        GivesOwn O v.fs (.openFile path (createFlags true direct) mode) :=
    fun v hwatch => ⟨⟨fun _ => hours, fun ht i hi hr => hwatch ht i hi (.inl hr)⟩, trivial⟩
  have hkeep : ∀ (s : World) (opened : Except Errno Fd) x v u, Moved O ours s v → Sound O v.fs →
      Watchful plain O v (.openFile path (createFlags true direct) mode) →
      answerIds who v x (.openFile path (createFlags true direct) mode) = some (opened, u) →
      Among who plain O ours (fun z kept => ∀ target, kept = .ok target → Opened O ours z target)
        (keepTarget path direct opened) u :=
    fun s opened x v u hv hs hwatch h =>
      among_openKeep direct rfl hours (fun _ _ hwatch _ i hi hr => hwatch rfl i hi (.inl hr)) hv hs
        hwatch h
  refine among_call (c := Call.openFile path (createFlags true direct) mode) (fun v _ => hown v) ?_
  intro v x opened u hv _ hs hwatch h
  have hkept := hkeep w opened x v u hv hs hwatch h
  by_cases hacces : opened = .error .eacces
  · subst hacces
    refine (among_fchmodat path _).bind ?_
    intro z moded _
    cases moded with
    | error e => exact fun _ _ target heq => nomatch heq
    | ok _ =>
      refine among_call (c := Call.openFile path (createFlags true direct) mode) (fun v _ => hown v) ?_
      intro v x opened u hv _ hs hwatch h
      exact hkeep z opened x v u hv hs hwatch h
  · cases opened with
    | ok fd => exact hkept
    | error e =>
      cases e with
      | eacces => exact absurd rfl hacces
      | _ => exact hkept

theorem among_createFinal (hours : ours (resolve t.dst)) :
    Among who plain O ours (fun z made => ∀ target, made = some target → Opened O ours z target)
      (createFinalWriteAtMaybeDirect cfg t) w := by
  have hbuffered : ∀ s : World, Among who plain O ours
      (fun z made => ∀ target, made = some target → Opened O ours z target) (do
        return (← openFinalCreatedOnce t.dst (bufferedCreateMode t.attr.mode) false).toOption :
          Handler (Option Target)) s := by
    intro s
    refine (among_openFinalCreatedOnce _ _ hours).bind ?_
    intro z kept hkept y hy target heq
    cases kept with
    | error e => cases heq
    | ok kept =>
      obtain rfl := Option.some.inj heq
      exact (hkept kept rfl).moved hy
  unfold createFinalWriteAtMaybeDirect
  dsimp only
  split
  · refine (among_openFinalCreatedOnce _ _ hours).bind ?_
    intro z kept hkept
    cases kept with
    | ok kept =>
      intro y hy target heq
      obtain rfl := Option.some.inj heq
      exact (hkept kept rfl).moved hy
    | error e =>
      dsimp only
      split
      · exact hbuffered z
      · exact fun _ _ target heq => nomatch heq
  · exact hbuffered w

theorem gentle_of_looks (h : LooksOnly m) : m.Keeps (Gentle O) fun _ _ => True := by
  apply h.weaken
  · intro c hc
    cases c with
    | openFile | lstat | stat | fstat | close | attempt => exact hc
    | _ => exact hc.elim
  · exact fun _ _ => id

theorem gentle_of_movesTo (hfd : ¬ O fd.ino) (h : MovesDataTo fd m) :
    m.Keeps (Gentle O) fun _ _ => True := by
  apply h.weaken
  · intro c hc
    cases c with
    | pwrite out _ _ | ftruncate out _ | fallocate out _ =>
      have hout : out = fd := hc
      rw [← hout] at hfd
      exact hfd
    | pread | openFile | lstat | stat | fstat | close | attempt => exact hc
    | _ => exact hc.elim
  · exact fun _ _ => id

theorem gentle_of_tendsTo (hfd : ¬ O fd.ino) (h : TendsOnlyTo fd m) :
    m.Keeps (Gentle O) fun _ _ => True := by
  apply h.weaken
  · intro c hc
    cases c with
    | fchown out _ _ | fchmod out _ | futimens out _ _ =>
      have hout : out = fd := hc
      rw [← hout] at hfd
      exact hfd
    | openFile | lstat | stat | fstat | close | attempt => exact hc
    | _ => exact hc.elim
  · exact fun _ _ => id

/-- A copy that goes on with the file it has opened. -/
theorem among_after {f : α → Handler β} (h : Opened O ours w target)
    (hm : Among who plain O ours (fun _ _ => True) m w)
    (hf : ∀ v a, Opened O ours v target → Among who plain O ours post (f a) v) :
    Among who plain O ours post (m >>= f) w :=
  among_seq (P := (Opened O ours · target)) (fun _ _ hu hv => hv.moved hu) h hm
    fun v a hv _ => hf v a hv

theorem among_close {f : Except Errno Unit → Handler β} (h : Opened O ours w target)
    (hf : ∀ v a, Opened O ours v target → Among who plain O ours post (f a) v) :
    Among who plain O ours post (Prog.perform (Call.close fd) >>= f) w :=
  among_call (fun _ _ _ => Gentle.own trivial) fun _ _ r u _ hu _ _ _ => hf u r (h.moved hu)

theorem among_lastClose (fd : Fd) (a : α) :
    Among who plain O ours (fun _ _ => True) (Prog.perform (Call.close fd) >>= fun _ => Prog.ret a) w :=
  among_call (fun _ _ _ => Gentle.own trivial) fun _ _ _ _ _ _ _ _ _ _ _ => trivial

theorem among_openExisting (h : Held O w.fs (resolve path)) :
    Among who plain O ours (fun z kept => ∀ target, kept = .ok target → Secure O z target)
      (openTempWriteExistingAtBuffered path) w := by
  refine among_call (c := Call.openFile path _ 0) (fun _ _ _ => Gentle.own ⟨rfl, rfl⟩) ?_
  intro v x opened u hv _ hs _ hopen
  cases opened with
  | error e => exact fun _ _ target heq => nomatch heq
  | ok fd =>
    have htaken : Taken O u path fd :=
      taken_openFile hs rfl (fun _ i hi _ => (h.steady hv i hi).free) hopen
    apply (among_keepTarget false htaken).mono
    exact fun z kept hkept target heq => (hkept target heq).1

theorem among_copyTailBufferedAt (start stop : ℕ) (h : Opened O ours w target) :
    Among who plain O ours (fun _ _ => True) (copyTailBufferedAt t target.path start stop) w := by
  unfold copyTailBufferedAt
  split
  · exact fun _ _ => trivial
  refine among_after h (among_gentle (gentle_of_looks looks_openReadAtBuffered) w) ?_
  intro v source hv
  cases source with
  | none => exact fun _ _ => trivial
  | some source =>
    refine (among_openExisting hv.1.path).bind ?_
    intro u again hagain
    cases again with
    | error e => exact among_lastClose _ _
    | ok again =>
      have hmove := gentle_of_movesTo (hagain again rfl).fd
        (movesTo_copyTailBufferedFds source.1 again.fd start stop)
      refine among_gentle (Prog.Keeps.bind hmove ?_) u
      intro done
      exact Prog.Keeps.call (c := Call.close _) trivial fun _ _ =>
        Prog.Keeps.call (c := Call.close _) trivial fun _ _ => trivial

theorem among_preserveFdMetadata (m : Meta) (known : Option UInt32) (h : ¬ O fd.ino) :
    Among who plain O ours (fun _ _ => True) (preserveFdMetadata who cfg fd m known) w :=
  among_gentle (gentle_of_tendsTo h (tendsTo_preserveFdMetadata fd m known)) w

/-- What is opened is new, or it is what stood there. -/
theorem free_openFile {p : Bytes} (hs : Sound O w.fs)
    (hfree : ∀ i, w.fs.entry (resolve p) = some i → ¬ O i)
    (hopen : answerIds who w x (.openFile p flags mode) = some (.ok fd, v)) : ¬ O fd.ino := by
  rcases answer_openFile (answer_of_plain rfl hopen) with ⟨e, he, -⟩ | ⟨j, fs, -, -, hfd, hok, rfl⟩
  · cases he
  obtain rfl := Except.ok.inj hfd
  obtain ⟨-, ⟨-, -, rfl, -⟩ | ⟨hj, -⟩⟩ := Fs.openFile_eq_ok hok
  · exact fun hO => (hs.bounded _ hO).ne rfl
  · exact hfree j hj

theorem among_preservePathMetadataAt (m : Meta) (h : Held O w.fs (resolve path)) :
    Among who plain O ours (fun _ _ => True) (preservePathMetadataAt who cfg path m) w := by
  refine among_call (c := Call.openFile path _ 0) (fun _ _ _ => Gentle.own ⟨rfl, rfl⟩) ?_
  intro v x opened u hv _ hs _ hopen
  cases opened with
  | error e => exact fun _ _ => trivial
  | ok fd =>
  have hfd : ¬ O fd.ino := free_openFile hs (fun i hi => (h.steady hv i hi).free) hopen
  refine among_call (c := Call.fstat fd) (fun _ _ _ => Gentle.own trivial) ?_
  intro s y st z _ _ _ _ _
  have hclose : ∀ (done : Bool) (y : World), Among who plain O ours (fun _ _ => True) (do
      let _ ← Sys.close fd
      return done : Handler Bool) y :=
    fun done y => among_lastClose fd done
  cases st with
  | error e => exact hclose false z
  | ok n =>
    obtain ⟨j, n⟩ := n
    dsimp only
    split
    · exact (among_preserveFdMetadata m none hfd).bind fun y done _ => hclose done y
    · exact hclose false z

theorem among_renameTempToFinalAt (hdst : ours (resolve t.dst)) (h : Opened O ours w target) :
    Among who plain O ours (fun _ _ => True) (renameTempToFinalAt t target.path) w := by
  refine among_call (c := Call.lstat target.path) (fun _ _ _ => Gentle.own trivial) ?_
  intro v x found u _ hu _ _ _
  cases found with
  | error e => exact fun _ _ => trivial
  | ok found =>
  obtain ⟨i, n⟩ := found
  dsimp only
  split
  · exact fun _ _ => trivial
  refine among_call (c := Call.lstat t.dst) (fun _ _ _ => Gentle.own trivial) ?_
  intro s y there z _ hz _ _ _
  have hsec : Opened O ours z target := (h.moved hu).moved hz
  have hmove : ∀ free : Bool,
      Among who plain O ours (fun _ _ => True) (renameIfFree t target.path free) z := by
    intro free
    unfold renameIfFree
    split
    · exact fun _ _ => trivial
    refine among_call (c := Call.rename target.path t.dst) ?_ ?_
    · intro y hy _
      have hheld : Held O y.fs (resolve target.path) := hsec.1.path.steady hy
      refine ⟨⟨hsec.2, hdst, ?_⟩, hheld⟩
      by_contra hdir
      obtain ⟨i, hi, hd⟩ := Fs.isDir_iff_entry.mp (Bool.eq_true_of_not_eq_false hdir)
      rw [(hheld i hi).file] at hd
      cases hd
    · intro y x renamed r _ _ _ _ _
      cases renamed <;> exact fun _ _ => trivial
  cases there with
  | ok m => exact hmove _
  | error e => exact hmove _

theorem among_finishBuffered {pos : ℕ} {bulkDirect : Bool} (hdst : ours (resolve t.dst))
    (h : Opened O ours w target) :
    Among who plain O ours (fun _ _ => True)
      (finishBuffered who cfg t fdIn target pos bulkDirect) w := by
  have htail : ∀ y : World, Opened O ours y target →
      Among who plain O ours (fun _ _ => True) (finishOpen who cfg t fdIn target pos) y := by
    intro y hy
    refine among_after hy (among_gentle (gentle_of_movesTo hy.1.fd (movesTo_copyTailBufferedFds ..))
      y) ?_
    intro z done hz
    cases done with
    | false => exact fun _ _ => trivial
    | true =>
    refine among_after hz (among_preserveFdMetadata t.attr _ hz.1.fd) ?_
    intro r kept hr
    cases kept with
    | false => exact fun _ _ => trivial
    | true =>
    refine among_close hr ?_
    intro q closed hq
    cases closed with
    | error e => exact fun _ _ => trivial
    | ok _ =>
      dsimp only
      split
      · exact fun _ _ => trivial
      · exact (among_renameTempToFinalAt hdst hq).bind fun _ _ _ _ _ => trivial
  refine among_call (c := Call.attempt) (fun _ _ _ => Gentle.own trivial) ?_
  intro v x done u _ hu _ _ _
  split
  · exact fun _ _ => trivial
  · exact htail u (h.moved hu)

theorem among_finishDirect (hdst : ours (resolve t.dst)) (h : Opened O ours w target) :
    Among who plain O ours (fun _ _ => True) (finishDirect who cfg t target) w := by
  refine among_close h ?_
  intro v closed hv
  refine among_after hv (among_copyTailBufferedAt _ _ hv) ?_
  intro u done hu
  cases done with
  | false => exact fun _ _ => trivial
  | true =>
  refine among_after hu (among_preservePathMetadataAt t.attr hu.1.path) ?_
  intro z kept hz
  cases kept with
  | false => exact fun _ _ => trivial
  | true =>
    split
    · rename_i heq
      cases heq
    split
    · exact fun _ _ => trivial
    · exact (among_renameTempToFinalAt hdst hz).bind fun _ _ _ _ _ => trivial

theorem among_copyContent {inDirect : Bool} (hdst : ours (resolve t.dst))
    (h : Opened O ours w target) :
    Among who plain O ours (fun _ _ => True) (copyContent who cfg t fdIn inDirect target) w := by
  refine among_call (c := Call.attempt) (fun _ _ _ => Gentle.own trivial) ?_
  intro v x done u _ hu _ _ _
  have hu := h.moved hu
  cases done with
  | false => exact fun _ _ => trivial
  | true =>
  refine among_after hu (among_gentle (keeps_attemptIf trivial _) u) ?_
  intro z switched hz
  refine among_after hz (among_gentle (gentle_of_movesTo hz.1.fd (movesTo_copyLoop ..)) z) ?_
  intro y copied hy
  cases copied with
  | none => exact fun _ _ => trivial
  | some copied =>
    obtain ⟨pos, bulkDirect⟩ := copied
    dsimp only
    split
    · exact among_finishDirect hdst hy
    · exact among_finishBuffered hdst hy

theorem among_leaveTarget {done stillOpen : Bool} (h : Opened O ours w target) :
    Among who plain O ours (fun _ _ => True) (leaveTarget fdIn target done stillOpen) w := by
  have hunlink : ∀ y : World, Opened O ours y target → Among who plain O ours (fun _ _ => True) (do
      let _ ← Sys.unlink target.path
      return false : Handler Bool) y := by
    intro y hy
    refine among_call (c := Call.unlink target.path) (fun _ _ _ => ⟨hy.2, trivial⟩) ?_
    exact fun _ _ _ _ _ _ _ _ _ _ _ => trivial
  refine among_close h ?_
  intro v _ hv
  cases done with
  | true =>
    cases stillOpen with
    | true => exact among_lastClose _ _
    | false => exact fun _ _ => trivial
  | false =>
    cases stillOpen with
    | true => exact among_close hv fun u _ hu => hunlink u hu
    | false => exact hunlink v hv

theorem among_createTarget (hdst : ours (resolve t.dst))
    (htemp : ∀ n, ours (resolve (atDir t.dstDir (makeTempName who.pid n)))) :
    Among who plain O ours (fun z made => ∀ target, made = some target → Opened O ours z target)
      (createTarget who cfg t) w := by
  unfold createTarget
  split
  · exact among_createFinal hdst
  · rw [createTempAt_buffered]
    exact among_createTempAt _ htemp 100

theorem among_create (r : Route) (hdst : ours (resolve t.dst))
    (htemp : ∀ n, ours (resolve (atDir t.dstDir (makeTempName who.pid n)))) :
    Among who plain O ours (fun z made => ∀ target, made = some target → Opened O ours z target)
      (r.create who cfg t) w := by
  cases r with
  | small => exact among_createTarget hdst htemp
  | sparse seek =>
    simp only [Route.create, createTempAt_buffered]
    exact among_createTempAt _ htemp 100
  | large holes ranges => exact among_createTempAt _ htemp 100

theorem among_finishTemp (hdst : ours (resolve t.dst)) (h : Opened O ours w target) :
    Among who plain O ours (fun _ _ => True) (finishTemp who cfg t target) w := by
  refine among_after h (among_preserveFdMetadata t.attr _ h.1.fd) ?_
  intro v kept hv
  cases kept with
  | false => exact fun _ _ => trivial
  | true =>
  refine among_close hv ?_
  intro u closed hu
  cases closed with
  | error e => exact fun _ _ => trivial
  | ok _ => exact (among_renameTempToFinalAt hdst hu).bind fun _ _ _ _ _ => trivial

theorem among_sparseContent {seek : ℕ → Seek} (hdst : ours (resolve t.dst))
    (h : Opened O ours w target) :
    Among who plain O ours (fun _ _ => True) (sparseContent who cfg t seek fdIn target) w := by
  refine among_call (c := Call.attempt) (fun _ _ _ => Gentle.own trivial) ?_
  intro v x done u _ hu _ _ _
  have hu := h.moved hu
  cases done with
  | false => exact fun _ _ => trivial
  | true =>
  refine among_after hu (among_gentle (gentle_of_movesTo hu.1.fd (movesTo_copyDataExtents ..)) u) ?_
  intro z copied hz
  cases copied with
  | false => exact fun _ _ => trivial
  | true =>
  refine among_call (c := Call.ftruncate target.fd t.size)
    (fun _ _ _ => Gentle.own hz.1.fd) ?_
  intro y x cut r _ hr _ _ _
  cases cut with
  | error e => exact fun _ _ => trivial
  | ok _ => exact among_finishTemp hdst (hz.moved hr)

theorem among_largeContent {sparse : Bool} {ranges : List (ℕ × ℕ)} (hdst : ours (resolve t.dst))
    (h : Opened O ours w target) :
    Among who plain O ours (fun _ _ => True)
      (largeContent who cfg t sparse ranges fdIn target) w := by
  refine among_after h (among_gentle (gentle_of_movesTo h.1.fd (movesTo_presize ..)) w) ?_
  intro v sized hv
  cases sized with
  | false => exact fun _ _ => trivial
  | true =>
  refine among_call (c := Call.attempt) (fun _ _ _ => Gentle.own trivial) ?_
  intro z x done u _ hu _ _ _
  have hu := hv.moved hu
  cases done with
  | false => exact fun _ _ => trivial
  | true =>
  refine among_after hu (among_gentle (gentle_of_movesTo hu.1.fd (movesTo_moveRanges ..)) u) ?_
  intro y copied hy
  cases copied with
  | false => exact fun _ _ => trivial
  | true =>
  refine among_after hy (among_copyTailBufferedAt _ _ hy) ?_
  intro r tail hr
  cases tail with
  | false => exact fun _ _ => trivial
  | true => exact among_finishTemp hdst hr

theorem among_finish (r : Route) {source : Fd × Bool} {target : Target} (hdst : ours (resolve t.dst))
    (h : Opened O ours w target) :
    Among who plain O ours (fun _ _ => True) (r.finish who cfg t source target) w := by
  cases r with
  | small =>
    refine among_after h (among_copyContent hdst h) ?_
    exact fun z out hz => among_leaveTarget hz
  | sparse seek =>
    simp only [Route.finish]
    split
    · refine among_close h ?_
      intro z _ hz
      refine among_seq (P := (Opened O ours · target)) (fun _ _ hu hv => hv.moved hu) hz
        (among_openExisting hz.1.path) ?_
      intro y again hy hagain
      cases again with
      | error e => exact among_leaveTarget hy
      | ok again =>
        have hreopened : Opened O ours y { target with fd := again.fd } :=
          ⟨⟨(hagain again rfl).fd, hy.1.path⟩, hy.2⟩
        refine among_after hreopened (among_sparseContent hdst hreopened) ?_
        exact fun z out hz => among_leaveTarget hz
    · refine among_after h (among_sparseContent hdst h) ?_
      exact fun z out hz => among_leaveTarget hz
  | large holes ranges =>
    refine among_after h (among_largeContent hdst h) ?_
    exact fun z out hz => among_leaveTarget hz

/-- A file, copied among others. -/
theorem among_copy (r : Route) (hdst : ours (resolve t.dst))
    (htemp : ∀ n, ours (resolve (atDir t.dstDir (makeTempName who.pid n)))) :
    Among who plain O ours (fun _ _ => True) (r.copy who cfg t) w := by
  rw [r.copy_eq]
  refine (among_gentle (gentle_of_looks (looks_openSource r)) w).bind ?_
  intro v source _
  cases source with
  | none => exact fun _ _ => trivial
  | some source =>
    refine (among_create r hdst htemp).bind ?_
    intro u made hmade
    cases made with
    | none => exact among_lastClose _ _
    | some target => exact among_finish r hdst (hmade target rfl)

end Programs

end Ecopy.Workers.Bystanders
