import Ecopy.FileSystem

/-!
# Trees

In a file system as it is found, everything that has a name lies in directories.
All operations keep this. With it, a rename between two different objects is seen
to be a move in which neither name lies below the other.
-/
namespace Ecopy.FileSystem
open Protocol (Bytes)
open Ecopy.Path (Errno)

namespace Fs
variable {fs fs' : Fs} {l a b : Loc}

/-- Something that is no directory. -/
def isFile (fs : Fs) (l : Loc) : Bool :=
  match fs.entry l with
  | none => false
  | some i => !(fs.node i).isDir

theorem isFile_iff : fs.isFile l = true ↔ ∃ i, fs.entry l = some i ∧ (fs.node i).isDir = false := by
  unfold isFile
  cases fs.entry l <;> simp

theorem isDir_iff_entry :
    fs.isDir l = true ↔ ∃ i, fs.entry l = some i ∧ (fs.node i).isDir = true := by
  unfold isDir
  cases fs.entry l <;> simp

theorem isDir_of_not_isFile (he : (fs.entry l).isSome = true) (h : fs.isFile l = false) :
    fs.isDir l = true := by
  unfold isFile at h
  unfold isDir
  cases hl : fs.entry l with
  | none => simp [hl] at he
  | some i => simpa [hl] using h

theorem isFile_eq_false_of_isDir (h : fs.isDir l = true) : fs.isFile l = false := by
  obtain ⟨i, hi, hd⟩ := isDir_iff_entry.mp h
  simp [isFile, hi, hd]

structure Tree (fs : Fs) : Prop extends fs.Sane where
  parents : ∀ l, (fs.entry l).isSome = true → ∀ d, d <+: l.dropLast → fs.isDir d = true

theorem prefix_dropLast_of_ne {d : Loc} (h : d <+: l) (hne : d ≠ l) : d <+: l.dropLast := by
  rcases l.eq_nil_or_concat' with rfl | ⟨init, c, rfl⟩
  · exact absurd (List.prefix_nil.mp h) hne
  · rw [List.dropLast_concat]
    exact (List.prefix_concat_iff.mp h).resolve_left hne

theorem tree_of_prefix (h : fs.Sane)
    (hp : ∀ l, (fs.entry l).isSome = true → ∀ d, d <+: l → d ≠ l → fs.isDir d = true) :
    fs.Tree := by
  refine ⟨h, fun l hl d hd => ?_⟩
  by_cases hne : d = l
  · have hnil : l = [] := by
      rcases l.eq_nil_or_concat' with rfl | ⟨init, c, rfl⟩
      · rfl
      · have := hd.length_le
        simp [hne] at this
    rw [hne, hnil]
    exact h.top
  · exact hp l hl d (hd.trans l.dropLast_prefix) hne

theorem Tree.isDir_of_prefix (h : fs.Tree) (hl : (fs.entry l).isSome = true) {d : Loc}
    (hd : d <+: l) (hne : d ≠ l) : fs.isDir d = true :=
  h.parents l hl d (prefix_dropLast_of_ne hd hne)

/-- Nothing lies below a file. -/
theorem Tree.eq_of_prefix (h : fs.Tree) (hl : (fs.entry l).isSome = true) {d : Loc}
    (hd : d <+: l) (hfile : fs.isDir d = false) : d = l := by
  by_contra hne
  rw [h.isDir_of_prefix hl hd hne] at hfile
  cases hfile

theorem Tree.isDir_within {P : Loc → Prop} (h : fs.Tree) (hw : Within P fs fs') {d : Loc}
    (hd : fs.isDir d = true) (hP : ¬ P d) : fs'.isDir d = true := by
  rw [hw.isDir h.bounded hP]
  exact hd

/-- A new name in a directory. -/
theorem Tree.insert (h : fs.Tree) (hw : Within (fun k => k = l ∧ fs.entry k = none) fs fs')
    (hp : fs.parentError l = none) : fs'.Tree := by
  have hkeep : ∀ d, fs.isDir d = true → fs'.isDir d = true := by
    intro d hd
    refine h.isDir_within hw hd ?_
    rintro ⟨-, hnone⟩
    obtain ⟨i, hi, -⟩ := isDir_iff_entry.mp hd
    rw [hi] at hnone
    cases hnone
  refine ⟨⟨hkeep _ h.top, hw.bounded h.bounded⟩, ?_⟩
  intro k hk d hd
  by_cases hkl : k = l
  · subst hkl
    exact hkeep d (parentError_eq_none_iff.mp hp d hd)
  · refine hkeep d (h.parents k ?_ d hd)
    rwa [hw.entry k fun hP => hkl hP.1] at hk

/-- Changes of nodes only. -/
theorem Tree.nodes (h : fs.Tree) (hw : Within (fun _ => False) fs fs') : fs'.Tree := by
  have hkeep : ∀ d, fs.isDir d = true → fs'.isDir d = true := fun d hd => h.isDir_within hw hd id
  refine ⟨⟨hkeep _ h.top, hw.bounded h.bounded⟩, ?_⟩
  intro k hk d hd
  rw [hw.entry k id] at hk
  exact hkeep d (h.parents k hk d hd)

theorem Tree.add (h : fs.Tree) {n : Node} (ha : fs.add l n = .ok fs') : fs'.Tree := by
  refine h.insert (within_add ha) ?_
  unfold Fs.add at ha
  split at ha
  · cases ha
  · split at ha
    · cases ha
    · assumption

/-- What a successful open has found or made. -/
theorem openFile_eq_ok {flags : OpenFlags} {n : Node} {i : ℕ}
    (ho : fs.openFile l flags n = .ok (i, fs')) :
    fs.parentError l = none ∧
      ((fs.entry l = none ∧ flags.create = true ∧ i = fs.next ∧ fs' = fs.create l n) ∨
        fs.entry l = some i ∧ (flags.create && flags.excl) = false ∧
          ((∃ data, (fs.node i).kind = .regular data ∧
              fs' = if flags.trunc then fs.setNode i { fs.node i with kind := .regular [] } else fs) ∨
            (∀ data, (fs.node i).kind ≠ .regular data) ∧
              (flags.write = true → (fs.node i).isDir = false) ∧ fs' = fs)) := by
  unfold openFile at ho
  split at ho
  · cases ho
  rename_i hparent
  refine ⟨hparent, ?_⟩
  split at ho
  · rename_i hnone
    split at ho
    · rename_i hcreate
      obtain ⟨rfl, rfl⟩ := Prod.mk.inj (Except.ok.inj ho)
      exact .inl ⟨hnone, hcreate, rfl, rfl⟩
    · cases ho
  rename_i j hj
  split at ho
  · cases ho
  rename_i hexcl
  have hexcl : (flags.create && flags.excl) = false := Bool.eq_false_iff.mpr hexcl
  split at ho
  · rename_i hk
    split at ho
    · cases ho
    · rename_i hwrite
      obtain ⟨rfl, rfl⟩ := Prod.mk.inj (Except.ok.inj ho)
      exact .inr ⟨hj, hexcl, .inr ⟨by simp [hk], fun hw => absurd hw hwrite, rfl⟩⟩
  · cases ho
  · rename_i hk
    split at ho
    · cases ho
    · obtain ⟨rfl, rfl⟩ := Prod.mk.inj (Except.ok.inj ho)
      exact .inr ⟨hj, hexcl, .inr ⟨by simp [hk], fun _ => by simp [Node.isDir, hk], rfl⟩⟩
  · rename_i data hk
    split at ho
    · cases ho
    split at ho
    · rename_i htrunc
      obtain ⟨rfl, rfl⟩ := Prod.mk.inj (Except.ok.inj ho)
      exact .inr ⟨hj, hexcl, .inl ⟨data, hk, by rw [if_pos htrunc]⟩⟩
    · rename_i htrunc
      obtain ⟨rfl, rfl⟩ := Prod.mk.inj (Except.ok.inj ho)
      exact .inr ⟨hj, hexcl, .inl ⟨data, hk, by rw [if_neg htrunc]⟩⟩

theorem openFile_entry {flags : OpenFlags} {n : Node} {i : ℕ}
    (ho : fs.openFile l flags n = .ok (i, fs')) : fs'.entry l = some i := by
  obtain ⟨-, ⟨-, -, rfl, rfl⟩ | ⟨hi, -, ⟨data, -, rfl⟩ | ⟨-, -, rfl⟩⟩⟩ := openFile_eq_ok ho
  · exact Function.update_self ..
  · split <;> exact hi
  · exact hi

theorem Tree.openFile (h : fs.Tree) {flags : OpenFlags} {n : Node} {i : ℕ}
    (ho : fs.openFile l flags n = .ok (i, fs')) : fs'.Tree :=
  h.insert ((within_openFile ho).mono fun _ hk => hk.1) (openFile_eq_ok ho).1

theorem parentError_of_link (hl : fs.link a b = .ok fs') : fs.parentError b = none := by
  unfold link at hl
  split at hl
  · cases hl
  split at hl
  · cases hl
  split at hl
  · cases hl
  · assumption

theorem link_eq_ok (h : fs.link a b = .ok fs') :
    fs.entry b = none ∧ fs.isFile a = true ∧
      fs' = { fs with entry := Function.update fs.entry b (fs.entry a) } := by
  unfold link at h
  split at h
  · cases h
  split at h
  · cases h
  rename_i i hi
  split at h
  · cases h
  split_ifs at h with hb hd
  refine ⟨Option.not_isSome_iff_eq_none.mp hb,
    isFile_iff.mpr ⟨i, hi, Bool.eq_false_iff.mpr hd⟩, ?_⟩
  rw [hi]
  exact (Except.ok.inj h).symm

/-- `EEXIST` tells the truth. -/
theorem entry_of_link_eexist (h : fs.link a b = .error .eexist) :
    (fs.entry b).isSome = true := by
  unfold link at h
  split at h
  · rename_i e he
    rw [Except.error.inj h] at he
    exact absurd rfl (walkDir_ne_eexist he)
  split at h
  · cases h
  split at h
  · rename_i e he
    rw [Except.error.inj h] at he
    exact absurd rfl (walkDir_ne_eexist he)
  split_ifs at h with hb hd
  · exact hb
  · cases h

theorem Tree.link (h : fs.Tree) (hl : fs.link a b = .ok fs') : fs'.Tree :=
  h.insert (within_link hl) (parentError_of_link hl)

theorem unlink_eq_ok (hu : fs.unlink l = .ok fs') :
    fs.isFile l = true ∧ fs' = { fs with entry := Function.update fs.entry l none } := by
  unfold unlink at hu
  split at hu
  · cases hu
  split at hu
  · cases hu
  rename_i i hi
  split_ifs at hu with hd
  exact ⟨isFile_iff.mpr ⟨i, hi, Bool.eq_false_iff.mpr hd⟩, (Except.ok.inj hu).symm⟩

theorem Tree.unlink (h : fs.Tree) (hu : fs.unlink l = .ok fs') : fs'.Tree := by
  obtain ⟨hnd, hw⟩ := within_unlink hu
  obtain ⟨-, rfl⟩ := unlink_eq_ok hu
  have hkeep : ∀ d, fs.isDir d = true →
      isDir { fs with entry := Function.update fs.entry l none } d = true := by
    intro d hd
    refine h.isDir_within hw hd ?_
    rintro rfl
    rw [hnd] at hd
    cases hd
  refine ⟨⟨hkeep _ h.top, hw.bounded h.bounded⟩, ?_⟩
  intro k hk d hd
  by_cases hkl : k = l
  · subst hkl
    simp at hk
  · refine hkeep d (h.parents k ?_ d hd)
    simpa [hkl] using hk

/-- A rename of one object to a name of another: a move in which neither name lies
below the other. -/
theorem rename_eq_ok {emptyTarget : Bool} (hr : fs.rename a b emptyTarget = .ok fs') :
    fs.parentError a = none ∧ fs.parentError b = none ∧ ∃ i, fs.entry a = some i ∧
      ((fs' = fs ∧ fs.entry b = some i) ∨
        (fs' = fs.move a b ∧ fs.entry b ≠ some i ∧ ¬ a <+: b ∧ ¬ b <+: a ∧
          (fs.isDir b = true → fs.isDir a = true))) := by
  unfold rename at hr
  split at hr
  · cases hr
  rename_i hpa
  split at hr
  · cases hr
  rename_i hpb
  split at hr
  · cases hr
  rename_i i hi
  refine ⟨hpa, hpb, i, hi, ?_⟩
  have habove : ∀ {c d : Loc}, c <+: d → c ≠ d → fs.parentError d = none → fs.isDir c = true :=
    fun hcd hne hp => parentError_eq_none_iff.mp hp _ (prefix_dropLast_of_ne hcd hne)
  split at hr
  · rename_i hj
    split_ifs at hr with hab
    refine .inr ⟨(Except.ok.inj hr).symm, by simp [hj], hab, fun hba => ?_, by simp [isDir, hj]⟩
    have hne : b ≠ a := by
      rintro rfl
      rw [hi] at hj
      cases hj
    obtain ⟨k, hk, -⟩ := isDir_iff_entry.mp (habove hba hne hpa)
    rw [hj] at hk
    cases hk
  · rename_i j hj
    split_ifs at hr with hij hdj hdi hab hba hdi'
    · exact .inl ⟨(Except.ok.inj hr).symm, by rw [hj, hij]⟩
    · rw [not_or] at hba
      refine .inr ⟨(Except.ok.inj hr).symm, ?_, hab, hba.1, fun _ => by simpa [isDir, hi] using hdi⟩
      rw [hj]
      exact fun heq => hij (Option.some.inj heq).symm
    · have hne : a ≠ b := by
        rintro rfl
        rw [hi] at hj
        exact hij (Option.some.inj hj)
      refine .inr ⟨(Except.ok.inj hr).symm, ?_, fun hab => ?_, fun hba => ?_, fun hd => ?_⟩
      · rw [hj]
        exact fun heq => hij (Option.some.inj heq).symm
      · obtain ⟨k, hk, hkd⟩ := isDir_iff_entry.mp (habove hab hne hpb)
        obtain rfl := Option.some.inj (hi.symm.trans hk)
        exact hdi' hkd
      · obtain ⟨k, hk, hkd⟩ := isDir_iff_entry.mp (habove hba hne.symm hpa)
        obtain rfl := Option.some.inj (hj.symm.trans hk)
        exact hdj hkd
      · exact absurd (by simpa [isDir, hj] using hd) hdj

section Move

theorem move_entry_below (fs : Fs) (a : Loc) {k : Loc} (h : b <+: k) :
    (fs.move a b).entry k = fs.entry (a ++ k.drop b.length) := by
  simp [move, h]

theorem move_entry_source (fs : Fs) {k : Loc} (hb : ¬ b <+: k) (ha : a <+: k) :
    (fs.move a b).entry k = none := by
  simp [move, hb, ha]

theorem move_entry_other (fs : Fs) {k : Loc} (hb : ¬ b <+: k) (ha : ¬ a <+: k) :
    (fs.move a b).entry k = fs.entry k := by
  simp [move, hb, ha]

theorem Tree.move (h : fs.Tree) (hpb : fs.parentError b = none) (hab : ¬ a <+: b)
    (hba : ¬ b <+: a) : (fs.move a b).Tree := by
  have hother : ∀ d, ¬ b <+: d → ¬ a <+: d → fs.isDir d = true → (fs.move a b).isDir d = true := by
    intro d hb ha hd
    obtain ⟨i, hi, hid⟩ := isDir_iff_entry.mp hd
    exact isDir_iff_entry.mpr ⟨i, by rw [move_entry_other fs hb ha, hi], hid⟩
  refine tree_of_prefix ⟨?_, (within_move fs a b).bounded h.bounded⟩ ?_
  · refine hother [] (fun hb => ?_) (fun ha => ?_) h.top
    · exact hba (List.prefix_nil.mp hb ▸ List.nil_prefix)
    · exact hab (List.prefix_nil.mp ha ▸ List.nil_prefix)
  intro k hk d hd hne
  by_cases hbk : b <+: k
  · obtain ⟨t, rfl⟩ := hbk
    rw [move_entry_below fs a (List.prefix_append b t), List.drop_left] at hk
    rcases List.prefix_or_prefix_of_prefix hd (List.prefix_append b t) with hdb | hbd
    · by_cases hdeq : d = b
      · -- the moved object itself, which has something below it
        subst hdeq
        have hdir : fs.isDir a = true := by
          refine h.isDir_of_prefix hk (List.prefix_append a t) fun heq => hne ?_
          have : t = [] := by simpa using heq
          simp [this]
        obtain ⟨i, hi, hid⟩ := isDir_iff_entry.mp hdir
        refine isDir_iff_entry.mpr ⟨i, ?_, hid⟩
        rw [move_entry_below fs a (List.prefix_refl d)]
        simpa using hi
      · refine hother d (fun hbd => hdeq (hdb.eq_of_length_le hbd.length_le))
          (fun had => hab (had.trans hdb)) ?_
        exact parentError_eq_none_iff.mp hpb d (prefix_dropLast_of_ne hdb hdeq)
    · obtain ⟨u, rfl⟩ := hbd
      have hut : u <+: t := (List.prefix_append_right_inj b).mp hd
      have hdir : fs.isDir (a ++ u) = true := by
        refine h.isDir_of_prefix hk ((List.prefix_append_right_inj a).mpr hut) fun heq => hne ?_
        rw [List.append_cancel_left heq]
      obtain ⟨i, hi, hid⟩ := isDir_iff_entry.mp hdir
      refine isDir_iff_entry.mpr ⟨i, ?_, hid⟩
      rw [move_entry_below fs a (List.prefix_append b u), List.drop_left, hi]
  · have hak : ¬ a <+: k := by
      intro hak
      rw [move_entry_source fs hbk hak] at hk
      cases hk
    rw [move_entry_other fs hbk hak] at hk
    exact hother d (fun hbd => hbk (hbd.trans hd)) (fun had => hak (had.trans hd))
      (h.isDir_of_prefix hk hd hne)

theorem Tree.rename (h : fs.Tree) {emptyTarget : Bool}
    (hr : fs.rename a b emptyTarget = .ok fs') : fs'.Tree := by
  obtain ⟨-, hpb, i, -, ⟨rfl, -⟩ | ⟨rfl, -, hab, hba, -⟩⟩ := rename_eq_ok hr
  · exact h
  · exact h.move hpb hab hba

/-- A file that is moved leaves its old name, appears under the new one and changes
nothing else. -/
theorem Tree.move_file (h : fs.Tree) (ha : fs.isDir a = false) (hb : fs.isDir b = false)
    (hba : ¬ b <+: a) :
    (fs.move a b).entry = Function.update (Function.update fs.entry a none) b (fs.entry a) := by
  have hbelow : ∀ d k : Loc, fs.isDir d = false → d <+: k → k ≠ d → fs.entry k = none := by
    intro d k hd hk hne
    by_contra hsome
    exact hne (h.eq_of_prefix (Option.isSome_iff_ne_none.mpr hsome) hk hd).symm
  funext k
  simp only [Function.update_apply]
  by_cases hbk : b <+: k
  · rw [move_entry_below fs a hbk]
    obtain ⟨t, rfl⟩ := hbk
    rw [List.drop_left]
    by_cases ht : t = []
    · simp [ht]
    · have hka : b ++ t ≠ a := fun heq => hba (heq ▸ List.prefix_append b t)
      rw [if_neg (by simpa using ht), if_neg hka, hbelow b _ hb (List.prefix_append b t) (by simpa using ht),
        hbelow a _ ha (List.prefix_append a t) (by simpa using ht)]
  · have hkb : k ≠ b := fun heq => hbk (heq ▸ List.prefix_refl k)
    rw [if_neg hkb]
    by_cases hak : a <+: k
    · rw [move_entry_source fs hbk hak]
      split_ifs with hka
      · rfl
      · exact (hbelow a k ha hak hka).symm
    · rw [move_entry_other fs hbk hak, if_neg fun heq : k = a => hak (heq ▸ List.prefix_refl k)]

/-- The rename of a file over another object. -/
theorem Tree.rename_file (h : fs.Tree) {emptyTarget : Bool} (ha : fs.isFile a = true)
    (hr : fs.rename a b emptyTarget = .ok fs') (hne : fs.entry b ≠ fs.entry a) :
    fs' = { fs with
      entry := Function.update (Function.update fs.entry a none) b (fs.entry a) } := by
  have hnd : fs.isDir a = false := by
    by_contra hd
    rw [isFile_eq_false_of_isDir (Bool.eq_true_of_not_eq_false hd)] at ha
    cases ha
  obtain ⟨-, -, i, hi, ⟨-, hsame⟩ | ⟨rfl, -, -, hba, hdirs⟩⟩ := rename_eq_ok hr
  · exact absurd (hsame.trans hi.symm) hne
  · have hb : fs.isDir b = false := by
      by_contra hd
      rw [hdirs (Bool.eq_true_of_not_eq_false hd)] at hnd
      cases hnd
    rw [← h.move_file hnd hb hba]
    rfl

end Move

/-- One directory, inode 0, with files in it. -/
def flat (names : List (Bytes × ℕ)) (node : ℕ → Node) (next : ℕ) : Fs where
  entry := fun l =>
    match l with
    | [] => some 0
    | [c] => names.lookup c
    | _ => none
  node := node
  next := next

theorem flat_tree {names : List (Bytes × ℕ)} {node : ℕ → Node} {next : ℕ}
    (htop : (node 0).isDir = true) (hnext : 0 < next) (hnames : ∀ p ∈ names, p.2 < next) :
    (flat names node next).Tree := by
  have hsane : (flat names node next).Sane := by
    constructor
    · exact htop
    · intro l i hi
      match l with
      | [] =>
        obtain rfl := Option.some.inj hi
        exact hnext
      | [c] =>
        obtain ⟨before, after, heq, -⟩ := List.lookup_eq_some_iff.mp hi
        exact hnames (c, i) (by simp [heq])
      | _ :: _ :: _ => cases hi
  refine tree_of_prefix hsane ?_
  intro l hl d hd hne
  match l with
  | [] => exact absurd (List.prefix_nil.mp hd) hne
  | [c] =>
    rcases List.prefix_cons_iff.mp hd with rfl | ⟨t, rfl, ht⟩
    · exact htop
    · exact absurd (by rw [List.prefix_nil.mp ht]) hne
  | _ :: _ :: _ => cases hl

end Fs

end Ecopy.FileSystem
