import Ecopy.Lib.Duties
import Ecopy.Server.DirectOpens
import Ecopy.Server.Effects

/-!
# Temporary files

A file whose name starts with `.ecopy.tmp.` is a stray when the server created it
and no entry of the table of open files stands for it. A handler that creates a
temporary file has a duty: to remove it, to rename it or to put it into the table. An
entry stands for its temporary name also where the open has failed, which may have left
a file.

`N` is the set of locations with a temporary name at which there is no directory.
It does not change while the server runs, because nothing with such a name is ever
asked for.
-/
namespace Ecopy.Server
open Protocol Ecopy.Path FileSystem Lib.Calls

def reserved (name : Bytes) : Bool := tmpPrefix.isPrefixOf name

def isTemp (l : Loc) : Bool :=
  match l.getLast? with
  | some name => reserved name
  | none => false

theorem isTemp_concat (l : Loc) (name : Bytes) : isTemp (l ++ [name]) = reserved name := by
  simp [isTemp]

/-- The file is open under a temporary name. -/
def OpenFile.streams (f : OpenFile) : Bool := !f.inplace && f.fd.isSome

def InTable (w : World) (l : Loc) : Prop :=
  ∃ f ∈ w.files, f.inplace = false ∧ resolve f.tmpPath = l

/-- A temporary file that is not from before the server, and not in the table. -/
structure Stray (fs₀ : Fs) (w : World) (l : Loc) : Prop where
  temp : isTemp l = true
  file : w.fs.isFile l = true
  new : w.fs.entry l ≠ fs₀.entry l
  lost : ¬ InTable w l

/-- No symbolic link is on the way. -/
def straight (fs : Fs) (p : Bytes) : Bool :=
  (resolve p).dropLast.inits.all fun d =>
    match fs.entry d with
    | none => true
    | some i =>
      match (fs.node i).kind with
      | .symlink _ => false
      | _ => true

/-- What is assumed of the environment: a file that exists can be removed, a rename does not
find two names of one object, which would leave both, and names that come and go are not reached
through symbolic links. -/
def obliging (fs : Fs) (x : Choice) : Call → Bool
  | .unlink p => straight fs p && (!fs.isFile (resolve p) || x.fault.isNone)
  | .rename a b =>
    straight fs a && straight fs b &&
      ((fs.entry (resolve a)).isNone || fs.entry (resolve b) != fs.entry (resolve a))
  | .openFile p _ _ | .mkdir p _ | .symlink _ p => straight fs p
  | .link a b => straight fs a && straight fs b
  | _ => true

def answerObliging (who : Identity) (w : World) (x : Choice) (c : Call) :
    Option (c.Result × World) :=
  if obliging w.fs x c then answerDirect who w x c else none

theorem answerObliging_eq_some {who : Identity} {w v : World} {x : Choice} {c : Call}
    {res : c.Result} : answerObliging who w x c = some (res, v) ↔
      obliging w.fs x c = true ∧ answerDirect who w x c = some (res, v) := by
  simp [answerObliging]

theorem obliging_unlink {fs : Fs} {x : Choice} {p : Bytes} (h : obliging fs x (.unlink p) = true)
    (hfile : fs.isFile (resolve p) = true) : x.fault = none := by
  simpa [hfile] using (Bool.and_eq_true_iff.mp h).2

theorem obliging_rename {fs : Fs} {x : Choice} {a b : Bytes} {i : ℕ}
    (h : obliging fs x (.rename a b) = true) (hi : fs.entry (resolve a) = some i) :
    fs.entry (resolve b) ≠ fs.entry (resolve a) := by
  simpa [hi] using (Bool.and_eq_true_iff.mp h).2

def tempDuty : Prog.Duty Call.Result Loc where
  incurs
    | .openFile p flags _, (r : Except Errno Fd), l =>
      ((∃ fd, r = .ok fd) ∨ flags.direct = true) ∧ flags.create = true ∧ resolve p = l ∧
        isTemp l = true
    | .symlink _ p, (r : Except Errno Unit), l => r = .ok () ∧ resolve p = l ∧ isTemp l = true
    | .link _ b, (r : Except Errno Unit), l => r = .ok () ∧ resolve b = l ∧ isTemp l = true
    | _, _, _ => False
  discharges
    | .unlink p, _, l => resolve p = l
    | .rename a _, (r : Except Errno Unit), l => r = .ok () ∧ resolve a = l
    | .addFile f, _, l => f.inplace = false ∧ resolve f.tmpPath = l
    | _, _, _ => False

section Calls
variable (N : Loc → Prop)

/-- The temporary name of a file that is open under it, and its final name. -/
def TableOk (f : OpenFile) : Prop :=
  f.streams = true → isTemp (resolve f.tmpPath) = true ∧ N (resolve f.tmpPath) ∧
    isTemp (resolve f.finalPath) = false

/-- The calls of the handlers that do not change entries of the table. -/
def TempOk : Call → Prop
  | .mkdir p _ => isTemp (resolve p) = false
  | .openFile _ flags _ => flags.create = true → flags.write = true
  | .rename a b => isTemp (resolve a) = true ∧ N (resolve a) ∧ isTemp (resolve b) = false
  | .addFile f => TableOk N f
  | .updateFile _ | .removeFile _ | .takeFiles => False
  | _ => True

/-- No directory stands where a temporary file was created. -/
def TempResp : (c : Call) → c.Result → Prop
  | .openFile p flags _, (r : Except Errno Fd) =>
    (∃ fd, r = .ok fd) → flags.create = true → isTemp (resolve p) = true → N (resolve p)
  | .symlink _ p, (r : Except Errno Unit) =>
    r = .ok () → isTemp (resolve p) = true → N (resolve p)
  | .link _ b, (r : Except Errno Unit) => r = .ok () → isTemp (resolve b) = true → N (resolve b)
  | _, _ => True

structure Orderly (w : World) : Prop where
  tree : w.fs.Tree
  dirs : ∀ l, isTemp l = true → (w.fs.isDir l = true ↔ ¬ N l)
  files : ∀ f ∈ w.files, TableOk N f

end Calls

section Answers
variable {N : Loc → Prop} {fs₀ : Fs} {who : Identity} {w v : World} {x : Choice} {l : Loc}
variable {fs : Fs} {t : List Bytes}

theorem Fs.Within.isFile {P : Loc → Prop} {fs' : Fs} (h : Fs.Within P fs fs')
    (hb : ∀ l i, fs.entry l = some i → i < fs.next) (hl : ¬ P l) : fs'.isFile l = fs.isFile l := by
  unfold Fs.isFile
  rw [h.entry l hl]
  cases he : fs.entry l with
  | none => rfl
  | some i => simp only [h.dirs i (hb l i he)]

theorem isFile_congr {fs' : Fs} (hentry : fs'.entry l = fs.entry l) (hnode : fs'.node = fs.node) :
    fs'.isFile l = fs.isFile l := by
  unfold Fs.isFile
  rw [hentry, hnode]

/-- Where the entry is the same and was a file, it is the same stray. -/
theorem Stray.back (h : Stray fs₀ v l) (hfile : w.fs.isFile l = true)
    (hentry : v.fs.entry l = w.fs.entry l) (hfiles : ∀ k, InTable w k → InTable v k) :
    Stray fs₀ w l :=
  ⟨h.temp, hfile, hentry ▸ h.new, fun hin => h.lost (hfiles l hin)⟩

theorem inTable_congr (h : v.files = w.files) {k : Loc} (hin : InTable w k) : InTable v k := by
  obtain ⟨f, hf, hs⟩ := hin
  exact ⟨f, h ▸ hf, hs⟩

theorem Orderly.calm (ho : Orderly N w) (h : Calm w v) : Orderly N v where
  tree := ho.tree.nodes h.within
  dirs k hk := by
    rw [h.within.isDir ho.tree.bounded id]
    exact ho.dirs k hk
  files := by
    rw [h.files]
    exact ho.files

theorem Stray.calm (ho : Orderly N w) (h : Calm w v) (hs : Stray fs₀ v l) : Stray fs₀ w l := by
  refine hs.back ?_ (h.within.entry l id) fun k => inTable_congr h.files
  rw [← Fs.Within.isFile h.within ho.tree.bounded id]
  exact hs.file

/-- A new name that is no directory, or no temporary one. -/
theorem Orderly.insert {k : Loc} (ho : Orderly N w) {t : List Bytes}
    (hw : Fs.Within (fun j => j = k ∧ w.fs.entry j = none) w.fs fs) (ht : fs.Tree)
    (hk : isTemp k = true → w.fs.entry k = none → fs.isDir k = false) :
    Orderly N { w with fs := fs, touched := t } where
  tree := ht
  dirs j hj := by
    by_cases hnew : j = k ∧ w.fs.entry j = none
    · obtain ⟨rfl, hnone⟩ := hnew
      have hold : w.fs.isDir j = false := by simp [Fs.isDir, hnone]
      rw [← ho.dirs j hj]
      simp [hold, hk hj hnone]
    · change fs.isDir j = true ↔ ¬ N j
      rw [hw.isDir ho.tree.bounded hnew]
      exact ho.dirs j hj
  files := ho.files

theorem Stray.insert {k : Loc} (ho : Orderly N w) {t : List Bytes}
    (hw : Fs.Within (fun j => j = k ∧ w.fs.entry j = none) w.fs fs)
    (hs : Stray fs₀ { w with fs := fs, touched := t } l) (hl : ¬ (l = k ∧ w.fs.entry l = none)) :
    Stray fs₀ w l := by
  refine hs.back ?_ (hw.entry l hl) fun _ h => h
  rw [← Fs.Within.isFile hw ho.tree.bounded hl]
  exact hs.file

theorem not_dir_of_create {fs' : Fs} {n : Node} (h : fs' = fs.create l n) (hn : n.isDir = false) :
    fs'.isDir l = false := by
  simp [h, Fs.create, Fs.isDir, hn]

theorem link_not_dir {fs' : Fs} {a b : Loc} (h : fs.link a b = .ok fs') :
    fs.entry b = none ∧ fs'.isDir b = false := by
  unfold Fs.link at h
  split at h
  · cases h
  split at h
  · cases h
  split at h
  · cases h
  split_ifs at h with hb hd
  obtain rfl := Except.ok.inj h
  exact ⟨Option.not_isSome_iff_eq_none.mp hb, by simpa [Fs.isDir] using Bool.eq_false_iff.mpr hd⟩

/-- What `open` with `O_CREAT` gives is no directory. -/
theorem openFile_not_dir {fs' : Fs} {flags : Fs.OpenFlags} {n : Node} {i : ℕ}
    (h : fs.openFile l flags n = .ok (i, fs')) (hn : n.isDir = false)
    (hwrite : flags.write = true) : fs.isDir l = false ∧ fs'.isDir l = false := by
  obtain ⟨-, ⟨hnone, -, -, rfl⟩ | ⟨hi, -, ⟨data, hk, rfl⟩ | ⟨-, hd, rfl⟩⟩⟩ := Fs.openFile_eq_ok h
  · exact ⟨by simp [Fs.isDir, hnone], not_dir_of_create rfl hn⟩
  · have hbefore : fs.isDir l = false := by simp [Fs.isDir, hi, Node.isDir, hk]
    refine ⟨hbefore, ?_⟩
    split
    · simp [Fs.isDir, hi, Node.isDir, Fs.setNode]
    · exact hbefore
  · simp [Fs.isDir, hi, hd hwrite]

theorem Orderly.create {n : Node} {p : Bytes} (ho : Orderly N w)
    (hadd : w.fs.add (resolve p) n = .ok fs) (hn : isTemp (resolve p) = true → n.isDir = false) :
    Orderly N { w with fs := fs, touched := t } := by
  obtain ⟨-, hfs⟩ := add_eq_ok hadd
  exact ho.insert (Fs.within_add hadd) (ho.tree.add hadd) fun ht _ => not_dir_of_create hfs (hn ht)

theorem Orderly.not_dir (ho : Orderly N w) (hl : isTemp l = true) (hd : w.fs.isDir l = false) :
    N l := by
  by_contra hN
  rw [(ho.dirs l hl).mpr hN] at hd
  cases hd

/-- A name that goes away, and was no directory. -/
theorem Orderly.remove {k : Loc} (ho : Orderly N w) {fs : Fs} (hu : w.fs.unlink k = .ok fs) :
    Orderly N { w with fs := fs, touched := t } where
  tree := ho.tree.unlink hu
  dirs j hj := by
    rw [← ho.dirs j hj]
    obtain ⟨hfile, hw⟩ := Fs.within_unlink hu
    by_cases hjk : j = k
    · subst hjk
      obtain ⟨-, rfl⟩ := Fs.unlink_eq_ok hu
      simp [Fs.isDir] at hfile ⊢
      exact hfile
    · change fs.isDir j = true ↔ _
      rw [hw.isDir ho.tree.bounded hjk]
  files := ho.files

theorem Stray.remove {k : Loc} (hu : w.fs.unlink k = .ok fs)
    (hs : Stray fs₀ { w with fs := fs, touched := t } l) : l ≠ k ∧ Stray fs₀ w l := by
  obtain ⟨-, rfl⟩ := Fs.unlink_eq_ok hu
  have hlk : l ≠ k := by
    rintro rfl
    have := hs.file
    simp [Fs.isFile] at this
  have hentry : Function.update w.fs.entry k none l = w.fs.entry l := Function.update_of_ne hlk _ _
  refine ⟨hlk, hs.back ?_ hentry fun _ h => h⟩
  have hcongr : Fs.isFile { w.fs with entry := Function.update w.fs.entry k none } l =
      w.fs.isFile l := isFile_congr hentry rfl
  exact hcongr.symm.trans hs.file

/-- A temporary file that is renamed to another kind of name. -/
theorem rename_temp {a b : Loc} (ho : Orderly N w) (ha : isTemp a = true) (hN : N a)
    (hb : isTemp b = false) (hne : w.fs.entry b ≠ w.fs.entry a)
    (hr : w.fs.rename a b x.emptyTarget = .ok fs) :
    (∀ k, isTemp k = true → fs.entry k = if k = a then none else w.fs.entry k) ∧
      fs.node = w.fs.node := by
  have hfile : w.fs.isFile a = true := by
    obtain ⟨-, -, i, hi, -⟩ := Fs.rename_eq_ok hr
    refine Fs.isFile_iff.mpr ⟨i, hi, ?_⟩
    by_contra hd
    exact (ho.dirs a ha).mp (Fs.isDir_iff_entry.mpr ⟨i, hi, Bool.eq_true_of_not_eq_false hd⟩) hN
  obtain rfl := ho.tree.rename_file hfile hr hne
  refine ⟨fun k hk => ?_, rfl⟩
  have hkb : k ≠ b := by
    rintro rfl
    rw [hb] at hk
    cases hk
  simp only [Function.update_apply, if_neg hkb]

theorem Orderly.rename {a b : Loc} (ho : Orderly N w) (ha : isTemp a = true) (hN : N a)
    (hb : isTemp b = false) (hne : w.fs.entry b ≠ w.fs.entry a)
    (hr : w.fs.rename a b x.emptyTarget = .ok fs) :
    Orderly N { w with fs := fs, touched := t } where
  tree := ho.tree.rename hr
  dirs k hk := by
    obtain ⟨hentry, hnode⟩ := rename_temp ho ha hN hb hne hr
    rw [← ho.dirs k hk]
    change fs.isDir k = true ↔ _
    unfold Fs.isDir
    rw [hentry k hk, hnode]
    split_ifs with hka
    · subst hka
      have hd : ¬ w.fs.isDir k = true := fun hd => (ho.dirs k hk).mp hd hN
      unfold Fs.isDir at hd
      simpa using hd
    · rfl
  files := ho.files

theorem Stray.rename {a b : Loc} (ho : Orderly N w) (ha : isTemp a = true) (hN : N a)
    (hb : isTemp b = false) (hne : w.fs.entry b ≠ w.fs.entry a)
    (hr : w.fs.rename a b x.emptyTarget = .ok fs)
    (hs : Stray fs₀ { w with fs := fs, touched := t } l) : l ≠ a ∧ Stray fs₀ w l := by
  obtain ⟨hentry, hnode⟩ := rename_temp ho ha hN hb hne hr
  have hl : fs.entry l = if l = a then none else w.fs.entry l := hentry l hs.temp
  have hla : l ≠ a := by
    rintro rfl
    have hfile : fs.isFile l = true := hs.file
    rw [if_pos rfl] at hl
    simp [Fs.isFile, hl] at hfile
  rw [if_neg hla] at hl
  exact ⟨hla, hs.back ((isFile_congr hl hnode).symm.trans hs.file) hl fun _ h => h⟩

variable (fs₀) in
/-- The answer to a call of a dutiful handler: what is stray afterwards was stray
before, or the call has created it. -/
theorem answer_temp {c : Call} {res : c.Result} (ho : Orderly N w) (hc : TempOk N c)
    (h : answerObliging who w x c = some (res, v)) :
    TempResp N c res ∧ Orderly N v ∧ ∀ l, Stray fs₀ v l →
      (Stray fs₀ w l ∧ ¬ tempDuty.discharges c res l) ∨ tempDuty.incurs c res l := by
  obtain ⟨hx, h⟩ := answerObliging_eq_some.mp h
  rcases answerDirect_cases h with h | ⟨p, flags, mode, fs, e, rfl, hcreate, hdirect, hres, hadd, rfl⟩
  swap
  · -- the file is left behind
    obtain rfl := eq_of_heq hres
    refine ⟨?_, ho.create hadd fun _ => rfl, fun l hs => ?_⟩
    · rintro ⟨fd, hfd⟩
      cases hfd
    by_cases hl : l = resolve p
    · exact .inr ⟨.inr hdirect, hcreate, hl.symm, hs.temp⟩
    · exact .inl ⟨hs.insert ho (Fs.within_add hadd) fun hk => hl hk.1, fun hf => hf⟩
  cases c with
  | mkdir p mode =>
    rcases answer_mkdir h with ⟨e, -, rfl⟩ | ⟨fs, rfl, hadd, rfl⟩
    · exact ⟨trivial, ho, fun l hs => .inl ⟨hs, fun hf => hf⟩⟩
    refine ⟨trivial, ho.create hadd fun ht => ?_, fun l hs => .inl ⟨?_, fun hf => hf⟩⟩
    · rw [hc] at ht
      cases ht
    · refine hs.insert ho (Fs.within_add hadd) ?_
      rintro ⟨rfl, -⟩
      have ht := hs.temp
      rw [hc] at ht
      cases ht
  | openFile p flags mode =>
    by_cases hcreate : flags.create = true
    · have hwrite : flags.write = true := hc hcreate
      rcases answer_openFile h with ⟨e, rfl, rfl⟩ | ⟨i, fs, -, -, rfl, hopen, rfl⟩
      · refine ⟨?_, ho, fun l hs => .inl ⟨hs, fun hf => hf⟩⟩
        rintro ⟨fd, hfd⟩
        cases hfd
      obtain ⟨hold, hnew⟩ := openFile_not_dir hopen rfl hwrite
      have hw : Fs.Within (fun j => j = resolve p ∧ w.fs.entry j = none) w.fs fs :=
        (Fs.within_openFile hopen).mono fun _ hk => hk.1
      refine ⟨fun _ _ ht => ho.not_dir ht hold, ho.insert hw (ho.tree.openFile hopen)
        fun _ _ => hnew, fun l hs => ?_⟩
      by_cases hl : l = resolve p
      · exact .inr ⟨.inl ⟨_, rfl⟩, hcreate, hl.symm, hs.temp⟩
      · exact .inl ⟨hs.insert ho hw fun hk => hl hk.1, fun hf => hf⟩
    · have hcalm : Calm w v := answer_calm (calm_openFile.mpr (Bool.eq_false_of_not_eq_true hcreate)) h
      exact ⟨fun _ hcr => absurd hcr hcreate, ho.calm hcalm,
        fun l hs => .inl ⟨hs.calm ho hcalm, fun hf => hf⟩⟩
  | symlink target p =>
    rcases answer_symlink h with ⟨e, rfl, rfl⟩ | ⟨fs, rfl, hadd, rfl⟩
    · exact ⟨fun hok => (nomatch hok), ho, fun l hs => .inl ⟨hs, fun hf => hf⟩⟩
    obtain ⟨hnone, -⟩ := add_eq_ok hadd
    refine ⟨fun _ ht => ho.not_dir ht (by simp [Fs.isDir, hnone]), ho.create hadd fun _ => rfl,
      fun l hs => ?_⟩
    by_cases hl : l = resolve p
    · exact .inr ⟨rfl, hl.symm, hs.temp⟩
    · exact .inl ⟨hs.insert ho (Fs.within_add hadd) fun hk => hl hk.1, fun hf => hf⟩
  | link a b =>
    rcases answer_link h with ⟨e, rfl, rfl⟩ | ⟨fs, rfl, hlink, rfl⟩
    · exact ⟨fun hok => (nomatch hok), ho, fun l hs => .inl ⟨hs, fun hf => hf⟩⟩
    obtain ⟨hnone, hdir⟩ := link_not_dir hlink
    refine ⟨fun _ ht => ho.not_dir ht (by simp [Fs.isDir, hnone]),
      ho.insert (Fs.within_link hlink) (ho.tree.link hlink) fun _ _ => hdir, fun l hs => ?_⟩
    by_cases hl : l = resolve b
    · exact .inr ⟨rfl, hl.symm, hs.temp⟩
    · exact .inl ⟨hs.insert ho (Fs.within_link hlink) fun hk => hl hk.1, fun hf => hf⟩
  | rename a b =>
    obtain ⟨ha, hN, hb⟩ := hc
    rcases answer_rename h with ⟨e, rfl, rfl⟩ | ⟨fs, rfl, -, -, hr, rfl⟩
    · exact ⟨trivial, ho, fun l hs => .inl ⟨hs, fun hf => nomatch hf.1⟩⟩
    have hne : w.fs.entry (resolve b) ≠ w.fs.entry (resolve a) := by
      obtain ⟨-, -, i, hi, -⟩ := Fs.rename_eq_ok hr
      exact obliging_rename hx hi
    refine ⟨trivial, ho.rename ha hN hb hne hr, fun l hs => .inl ?_⟩
    obtain ⟨hla, hs⟩ := hs.rename ho ha hN hb hne hr
    exact ⟨hs, fun hf => hla hf.2.symm⟩
  | unlink p =>
    rcases answer_unlink h with ⟨e, rfl, rfl⟩ | ⟨fs, rfl, -, hu, rfl⟩
    · refine ⟨trivial, ho, fun l hs => .inl ⟨hs, ?_⟩⟩
      -- an existing file would have been removed
      rintro rfl
      have hp : p ≠ [] := by
        rintro rfl
        exact Bool.false_ne_true hs.temp
      obtain ⟨hok, -⟩ := unlink_file ho.tree (obliging_unlink hx hs.file) hs.file hp h
      cases hok
    · refine ⟨trivial, ho.remove hu, fun l hs => .inl ?_⟩
      obtain ⟨hne, hs⟩ := hs.remove hu
      exact ⟨hs, fun hf => hne hf.symm⟩
  | addFile f =>
    obtain ⟨-, rfl⟩ := Prod.mk.inj (Option.some.inj h)
    refine ⟨trivial, ⟨ho.tree, ho.dirs, fun g hg => ?_⟩, fun l hs => .inl ⟨?_, fun hd => ?_⟩⟩
    · rcases List.mem_cons.mp hg with rfl | hg
      · exact hc
      · exact ho.files g hg
    · refine hs.back hs.file rfl fun k hk => ?_
      obtain ⟨g, hg, hgs⟩ := hk
      exact ⟨g, List.mem_cons_of_mem _ hg, hgs⟩
    · exact hs.lost ⟨f, List.mem_cons_self, hd⟩
  | updateFile f => exact hc.elim
  | removeFile id => exact hc.elim
  | takeFiles => exact hc.elim
  | _ =>
    have hcalm : Calm w v := answer_calm rfl h
    exact ⟨trivial, ho.calm hcalm, fun l hs => .inl ⟨hs.calm ho hcalm, fun hf => hf⟩⟩

end Answers

end Ecopy.Server
