import Ecopy.Metadata.LocalMode

/-!
# What is in the files of a local copy

The bytes of the source stay as they are while the destination is made, and a copy from
prefixes of the source leaves a prefix of it. What a metadata pass does is of no concern to
the bytes. This stage says nothing about which ranges a copy moves.
-/
namespace Ecopy.Workers.Contents
open Protocol Ecopy.Path FileSystem Server Lib.Calls
open SmallCopy OtherCopies Events CallsMade Metadata

/-- A range of the source written over a prefix of it that reaches the range. -/
theorem splice_take {data : Bytes} {m off len : ℕ} (hoff : off ≤ m) (hlen : off + len ≤ data.length) :
    Fs.splice (data.take m) off ((data.drop off).take len) = data.take (max m (off + len)) := by
  have hpad : off - (data.take m).length = 0 := by simp; omega
  have hrange : ((data.drop off).take len).length = len := by simp; omega
  have hjoin : data.take off ++ (data.drop off).take len = data.take (off + len) :=
    (List.take_add ..).symm
  unfold Fs.splice
  simp only [hpad, List.replicate_zero, List.append_nil, hrange, List.take_take, Nat.min_eq_left hoff,
    hjoin]
  by_cases hm : m ≤ off + len
  · rw [List.drop_eq_nil_of_le (by simp; omega), List.append_nil, Nat.max_eq_right hm]
  · have hshort : data.take (off + len) = (data.take m).take (off + len) := by
      rw [List.take_take, Nat.min_eq_left (by omega)]
    rw [hshort, List.take_append_drop, Nat.max_eq_left (by omega)]

/-- The rest of the source written behind a gap. -/
theorem splice_gap {data : Bytes} {m off : ℕ} (hm : m ≤ off) (hoff : off ≤ data.length) :
    Fs.splice (data.take m) off (data.drop off) = data ↔
      ∀ k, m ≤ k → k < off → data[k]? = some 0 := by
  have hlen : (data.take m).length = m := by simp; omega
  have hpadded : (data.take m ++ List.replicate (off - m) 0).take off =
      data.take m ++ List.replicate (off - m) 0 :=
    List.take_of_length_le (by simp; omega)
  have hdrop : (data.take m).drop (off + (data.drop off).length) = [] :=
    List.drop_eq_nil_of_le (by omega)
  have hsplit : data = data.take m ++ (data.drop m).take (off - m) ++ data.drop off := by
    rw [← List.take_add, Nat.add_sub_cancel' hm, List.take_append_drop]
  unfold Fs.splice
  rw [hlen, hdrop, List.append_nil, hpadded]
  constructor
  · intro h k hk hk'
    rw [← h, List.getElem?_append_left (by simp; omega), List.getElem?_append_right (by omega), hlen]
    rw [List.getElem?_replicate, if_pos (by omega)]
  · intro h
    have hzeros : (data.drop m).take (off - m) = List.replicate (off - m) 0 := by
      apply List.ext_getElem?
      intro k
      by_cases hk : k < off - m
      · rw [List.getElem?_take_of_lt hk, List.getElem?_drop, h _ (by omega) (by omega)]
        simp [hk]
      · rw [List.getElem?_eq_none (by simp; omega), List.getElem?_eq_none (by simp; omega)]
    conv_rhs => rw [hsplit, hzeros]

/-- The regular file `i` has these bytes. -/
def Holds (w : World) (i : ℕ) (data : Bytes) : Prop := (w.fs.node i).kind = .regular data

section Calls
variable {who : Identity} {w v u : World} {x : Choice} {tr : List Event} {i : ℕ} {l : Loc}
  {data old : Bytes} {fd : Fd}

theorem Holds.of_kind (h : Holds w i data) (hk : (v.fs.node i).kind = (w.fs.node i).kind) :
    Holds v i data :=
  hk.trans h

theorem Holds.isDir (h : Holds w i data) : (w.fs.node i).isDir = false := by
  have hk : (w.fs.node i).kind = .regular data := h
  simp [Node.isDir, hk]

theorem Holds.unique (h : Holds w i data) (h' : Holds w i old) : data = old :=
  Kind.regular.inj (h.symm.trans h')

theorem pread_ok {off len : ℕ} (hdata : Holds w fd.ino data)
    (h : answerIds who w x (.pread fd len off) = some (.ok old, v)) :
    v = w ∧ old = (data.drop off).take len ∧ off + len ≤ data.length := by
  obtain rfl := query_eq (Option.some.inj h)
  refine ⟨rfl, ?_⟩
  have hout := congrArg Prod.fst (Option.some.inj h)
  have hk : (v.fs.node fd.ino).kind = .regular data := hdata
  simp only [World.query] at hout
  split at hout
  · cases hout
  rw [hk] at hout
  dsimp only at hout
  split at hout
  · rename_i hfits
    refine ⟨?_, by simpa using hfits⟩
    simpa using (Except.ok.inj hout).symm
  · cases hout

theorem modifyData_kind {fs : Fs} {j : ℕ} {f : Bytes → Bytes} (h : j ≠ i) :
    ((fs.modifyData j f).node i).kind = (fs.node i).kind := by
  unfold Fs.modifyData
  split
  · simp only [Fs.setNode, Function.update_of_ne h.symm]
  · rfl

theorem holds_modifyData {j : ℕ} {f : Bytes → Bytes} (hold : Holds w j old)
    (hv : v.fs = w.fs.modifyData j f) : Holds v j (f old) := by
  have hk : (w.fs.node j).kind = .regular old := hold
  unfold Holds
  rw [hv, Fs.modifyData, hk]
  simp [Fs.setNode]

/-- What a write leaves in its file, and in all others. -/
theorem pwrite_holds {off : ℕ} {r : Except (Errno × ℕ) Unit} (hold : Holds w fd.ino old)
    (h : answerIds who w x (.pwrite fd off data) = some (r, v)) :
    Holds v fd.ino (Fs.splice old off (data.take (written data r))) ∧ written data r ≤ data.length ∧
      ∀ i, fd.ino ≠ i → (v.fs.node i).kind = (w.fs.node i).kind := by
  obtain ⟨u, hanswer, hv⟩ := exists_drop (by simp) h
  have hkind : ∀ i, (v.fs.node i).kind = (u.fs.node i).kind := by
    intro i
    rcases hv with rfl | ⟨j, -, rfl⟩
    · rfl
    · exact dropIds_kind ..
  have hnonneg : ¬ ((off : ℤ) < 0) := by omega
  simp only [answer, if_neg hnonneg] at hanswer
  split at hanswer
  · obtain ⟨rfl, rfl⟩ := Prod.mk.inj (Option.some.inj hanswer)
    have htake : data.take (min x.progress data.length) = data.take x.progress := by
      rcases Nat.le_total x.progress data.length with hle | hle
      · rw [Nat.min_eq_left hle]
      · rw [Nat.min_eq_right hle, List.take_length, List.take_of_length_le hle]
    refine ⟨?_, Nat.min_le_right _ _, fun i hi => (hkind i).trans (modifyData_kind hi)⟩
    apply Holds.of_kind _ (hkind _)
    rw [written, htake]
    exact holds_modifyData (f := fun bytes => Fs.splice bytes off (data.take x.progress)) hold rfl
  · obtain ⟨rfl, rfl⟩ := Prod.mk.inj (Option.some.inj hanswer)
    refine ⟨?_, le_refl _, fun i hi => (hkind i).trans (modifyData_kind hi)⟩
    apply Holds.of_kind _ (hkind _)
    rw [written, List.take_length]
    exact holds_modifyData (f := fun bytes => Fs.splice bytes off data) hold rfl

end Calls

/-- The calls that tend to metadata. -/
def Tends : Call → Prop
  | .fchmod _ _ | .fchown _ _ _ | .futimens _ _ _ => True
  | c => Looks c

/-- Calls that look up files or change the metadata behind one descriptor. -/
def TendsTo (fd : Fd) : Call → Prop
  | .fchown out _ _ | .fchmod out _ | .futimens out _ _ => out = fd
  | c => Looks c

/-- The calls that make a destination, with nothing to lose but at `l`. -/
def Prepares (l : Loc) : Call → Prop
  | .openFile p flags _ => flags.trunc = true → resolve p = l
  | .fstat _ | .stat _ | .close _ | .attempt | .fchmod _ _ | .unlink _ | .nextSeq _ => True
  | _ => False

/-- An object that is there, under another name than `l` at least. -/
structure Apart (l : Loc) (i : ℕ) (w : World) : Prop where
  bounded : i < w.fs.next
  entry : w.fs.entry l ≠ some i

section Frames
variable {who : Identity} {w v u : World} {x : Choice} {tr : List Event} {i : ℕ} {l : Loc}

theorem changeNode_kind {fd : Fd} {f : Node → Node} {r : Except Errno Unit}
    (hf : ∀ n, (f n).kind = n.kind) (h : some (w.changeNode x fd f) = some (r, v)) (i : ℕ) :
    (v.fs.node i).kind = (w.fs.node i).kind ∧ v.fs.entry = w.fs.entry ∧ v.fs.next = w.fs.next := by
  rcases answer_node h with ⟨e, -, rfl⟩ | ⟨-, hv⟩
  · exact ⟨rfl, rfl, rfl⟩
  · rw [hv]
    refine ⟨?_, rfl, rfl⟩
    simp only [Fs.setNode, Function.update_apply]
    split_ifs with hi
    · rw [hf, hi]
    · rfl

/-- What one such call does to the bytes of the files. -/
theorem answerIds_tends {c : Call} {r : c.Result} (hc : Tends c)
    (h : answerIds who w x c = some (r, v)) (i : ℕ) :
    (v.fs.node i).kind = (w.fs.node i).kind ∧ v.fs.entry = w.fs.entry ∧ v.fs.next = w.fs.next := by
  cases c with
  | fchmod =>
    apply changeNode_kind _ h i
    exact fun _ => rfl
  | futimens =>
    apply changeNode_kind _ h i
    exact fun _ => rfl
  | fchown fd uid gid =>
    obtain ⟨u, hanswer, hv⟩ := exists_drop (by simp) h
    obtain ⟨hkind, hentry, hnext⟩ := changeNode_kind (by exact fun _ => rfl) hanswer i
    rcases hv with rfl | ⟨j, -, rfl⟩
    · exact ⟨hkind, hentry, hnext⟩
    · exact ⟨(dropIds_kind ..).trans hkind, (dropIds_entry ..).trans hentry,
        (dropIds_next ..).trans hnext⟩
  | openFile | fstat | lstat | stat | close | attempt =>
    rw [answerIds_looks (by exact hc) h]
    exact ⟨rfl, rfl, rfl⟩
  | _ => exact hc.elim

theorem tended {α : Type} {m : Handler α} {a : α} (hm : m.Keeps Tends fun _ _ => True)
    (h : m.Runs (answerIds who) w tr v a) (i : ℕ) :
    (v.fs.node i).kind = (w.fs.node i).kind ∧ v.fs.entry = w.fs.entry := by
  induction h with
  | ret => exact ⟨rfl, rfl⟩
  | call x hx _ ih =>
    obtain ⟨hkind, hentry, -⟩ := answerIds_tends hm.1 hx i
    obtain ⟨hkind', hentry'⟩ := ih (hm.2 _ trivial)
    exact ⟨hkind'.trans hkind, hentry'.trans hentry⟩

theorem apart_openFile {p : Bytes} {flags : Fs.OpenFlags} {mode : UInt32} {r : Except Errno Fd}
    (ha : Apart l i w) (hl : flags.trunc = true → resolve p = l)
    (h : answerIds who w x (.openFile p flags mode) = some (r, v)) :
    (v.fs.node i).kind = (w.fs.node i).kind ∧ Apart l i v := by
  rcases answer_openFile h with ⟨e, -, rfl⟩ | ⟨j, fs, -, -, -, hopen, rfl⟩
  · exact ⟨rfl, ha⟩
  obtain ⟨-, ⟨hfree, -, rfl, rfl⟩ | ⟨hj, -, ⟨bytes, hk, rfl⟩ | ⟨-, -, rfl⟩⟩⟩ := Fs.openFile_eq_ok hopen
  · have hne : i ≠ w.fs.next := Nat.ne_of_lt ha.bounded
    refine ⟨by simp [Fs.create, Function.update_of_ne hne], Nat.lt_succ_of_lt ha.bounded, ?_⟩
    simp only [Fs.create, Function.update_apply]
    split_ifs
    · exact fun heq => hne (Option.some.inj heq).symm
    · exact ha.entry
  · split
    · rename_i htrunc
      have hne : i ≠ j := by
        rintro rfl
        rw [hl htrunc] at hj
        exact ha.entry hj
      exact ⟨by simp [Fs.setNode, Function.update_of_ne hne], ha.bounded, ha.entry⟩
    · exact ⟨rfl, ha.bounded, ha.entry⟩
  · exact ⟨rfl, ha.bounded, ha.entry⟩

theorem answerIds_prepares {c : Call} {r : c.Result} (hc : Prepares l c) (ha : Apart l i w)
    (h : answerIds who w x c = some (r, v)) :
    (v.fs.node i).kind = (w.fs.node i).kind ∧ Apart l i v := by
  cases c with
  | openFile p flags mode => exact apart_openFile ha hc h
  | fstat | stat | close =>
    rw [query_eq (Option.some.inj h)]
    exact ⟨rfl, ha⟩
  | attempt | nextSeq =>
    obtain ⟨-, rfl⟩ := Prod.mk.inj (Option.some.inj h)
    exact ⟨rfl, ha.bounded, ha.entry⟩
  | fchmod =>
    obtain ⟨hkind, hentry, hnext⟩ := answerIds_tends (by trivial) h i
    exact ⟨hkind, hnext ▸ ha.bounded, hentry ▸ ha.entry⟩
  | unlink p =>
    rcases answer_unlink (answer_of_plain rfl h) with ⟨e, -, rfl⟩ | ⟨fs, -, -, hu, rfl⟩
    · exact ⟨rfl, ha⟩
    · obtain ⟨-, j, -, -, rfl⟩ := Fs.unlink_eq_ok hu
      refine ⟨rfl, ha.bounded, ?_⟩
      simp only [Function.update_apply]
      split_ifs
      · exact nofun
      · exact ha.entry
  | _ => exact hc.elim

/-- A file that is not at `l` keeps its bytes. -/
theorem prepared {α : Type} {m : Handler α} {a : α} (hm : m.Keeps (Prepares l) fun _ _ => True)
    (h : m.Runs (answerIds who) w tr v a) (ha : Apart l i w) :
    (v.fs.node i).kind = (w.fs.node i).kind ∧ Apart l i v := by
  induction h with
  | ret => exact ⟨rfl, ha⟩
  | call x hx _ ih =>
    obtain ⟨hkind, hstep⟩ := answerIds_prepares hm.1 ha hx
    obtain ⟨hkind', hrest⟩ := ih (hm.2 _ trivial) hstep
    exact ⟨hkind'.trans hkind, hrest⟩

end Frames

section Programs
variable {who : Identity} {cfg : Tuning} {t : Task} {l : Loc}

abbrev TendsOnly {α : Type} (m : Handler α) : Prop := m.Keeps Tends fun _ _ => True

/-- The metadata of one descriptor only. -/
abbrev TendsOnlyTo {α : Type} (fd : Fd) (m : Handler α) : Prop := m.Keeps (TendsTo fd) fun _ _ => True

theorem tends_of_looks {α : Type} {m : Handler α} (h : LooksOnly m) : TendsOnly m := by
  apply h.weaken
  · intro c hc
    cases c with
    | fchmod | fchown | futimens => trivial
    | _ => exact hc
  · exact fun _ _ => id

theorem tendsTo_preserveFdMetadata (fd : Fd) (m : Meta) (known : Option UInt32) :
    TendsOnlyTo fd (preserveFdMetadata who cfg fd m known) :=
  keeps_preserveFdMetadata (fun _ _ => rfl) (fun _ => rfl) (fun _ _ => rfl) m known

theorem tends_preserveFdMetadata (fd : Fd) (m : Meta) (known : Option UInt32) :
    TendsOnly (preserveFdMetadata who cfg fd m known) :=
  keeps_preserveFdMetadata (fun _ _ => trivial) (fun _ => trivial) (fun _ _ => trivial) m known

theorem tends_preservePathMetadataAt (path : Bytes) (m : Meta) :
    TendsOnly (preservePathMetadataAt who cfg path m) :=
  keeps_preservePathMetadataAt ⟨rfl, rfl⟩ (fun _ => trivial) (fun _ => trivial) (fun _ _ _ => trivial)
    (fun _ _ => trivial) (fun _ _ _ => trivial) m

abbrev PreparesOnly {α : Type} (l : Loc) (m : Handler α) : Prop :=
  m.Keeps (Prepares l) fun _ _ => True

theorem prepares_createFinal :
    PreparesOnly (resolve t.dst) (createFinalWriteAtMaybeDirect cfg t) :=
  keeps_createFinal trivial (fun _ => trivial) (fun _ => trivial) (fun _ _ _ => rfl) trivial
    fun _ _ => trivial

theorem prepares_createTempAt (mode : UInt32) (attempts : ℕ) :
    PreparesOnly l (createTempAt mode who cfg t attempts) :=
  keeps_createTempAt trivial (fun _ => trivial) (fun _ => trivial) mode trivial (fun _ _ _ => nofun)
    (fun _ => trivial) attempts

end Programs

end Ecopy.Workers.Contents
