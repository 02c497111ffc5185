import Ecopy.Server.TempHandlers

/-!
# The table of open files

The handlers of `WRITE`, `FTRUNCATE`, `COMMIT` and `ABORT` and the cleanup at the end
of the input work on the table. They run undisturbed, and take a file out of the table
only when its temporary name is gone.
-/
namespace Ecopy.Server
open Protocol Ecopy.Path FileSystem Lib.Calls

/-- What a table entry says about names. The other fields change with the transfer. -/
def OpenFile.names (f : OpenFile) : UInt64 × Option Fd × Bool × Bytes × Bytes :=
  (f.id, f.fd, f.inplace, f.tmpPath, f.finalPath)

section Table
variable {N : Loc → Prop} {fs₀ : Fs} {who : Identity} {w v : World} {x : Choice}
  {f g : OpenFile} {fid : UInt64}

/-- Nothing has changed but contents and the state of transfers. -/
structure Settled (w v : World) : Prop where
  within : Fs.Within (fun _ => False) w.fs v.fs
  files : v.files.map OpenFile.names = w.files.map OpenFile.names

theorem Calm.settled (h : Calm w v) : Settled w v := ⟨h.within, by rw [h.files]⟩

theorem tableOk_congr (h : g.names = f.names) (hf : TableOk N f) : TableOk N g := by
  simp only [OpenFile.names, Prod.mk.injEq] at h
  obtain ⟨-, hfd, hin, htmp, hfinal⟩ := h
  simpa only [TableOk, OpenFile.streams, hfd, hin, htmp, hfinal] using hf

theorem tmpPath_congr (h : g.names = f.names) : g.inplace = f.inplace ∧ g.tmpPath = f.tmpPath := by
  simp only [OpenFile.names, Prod.mk.injEq] at h
  obtain ⟨-, -, hin, htmp, -⟩ := h
  exact ⟨hin, htmp⟩

theorem exists_of_names (h : v.files.map OpenFile.names = w.files.map OpenFile.names)
    (hg : g ∈ v.files) : ∃ f ∈ w.files, g.names = f.names := by
  have hmem : g.names ∈ w.files.map OpenFile.names := h ▸ List.mem_map_of_mem hg
  obtain ⟨f, hf, hfg⟩ := List.mem_map.mp hmem
  exact ⟨f, hf, hfg.symm⟩

theorem Orderly.settled (ho : Orderly N w) (h : Settled w v) : Orderly N v where
  tree := ho.tree.nodes h.within
  dirs k hk := by
    rw [h.within.isDir ho.tree.bounded id]
    exact ho.dirs k hk
  files g hg := by
    obtain ⟨f, hf, hfg⟩ := exists_of_names h.files hg
    exact tableOk_congr hfg (ho.files f hf)

theorem Stray.settled {l : Loc} (ho : Orderly N w) (h : Settled w v) (hs : Stray fs₀ v l) :
    Stray fs₀ w l := by
  refine hs.back ?_ (h.within.entry l id) fun k hk => ?_
  · rw [← Fs.Within.isFile h.within ho.tree.bounded id]
    exact hs.file
  · obtain ⟨f, hf, hin, htmp⟩ := hk
    obtain ⟨g, hg, hfg⟩ := exists_of_names h.files.symm hf
    obtain ⟨h₁, h₂⟩ := tmpPath_congr hfg
    exact ⟨g, hg, by rw [← h₁, hin], by rw [← h₂, htmp]⟩

/-- The state between two frames. -/
structure Kept (N : Loc → Prop) (fs₀ : Fs) (w : World) : Prop where
  orderly : Orderly N w
  none : ∀ l, ¬ Stray fs₀ w l

theorem Kept.settled (h : Kept N fs₀ w) (hs : Settled w v) : Kept N fs₀ v :=
  ⟨h.orderly.settled hs, fun l hl => h.none l (hl.settled h.orderly hs)⟩

/-- Where the table says that `f` is the file with this number. -/
def Found (w : World) (f : OpenFile) : Prop :=
  (w.files.map OpenFile.names).find? (·.1 == f.id) = some f.names

theorem found_of_find? (h : w.files.find? (·.id == fid) = some f) : Found w f ∧ f.id = fid := by
  have hid : f.id = fid := by simpa using List.find?_some h
  refine ⟨?_, hid⟩
  unfold Found
  rw [List.find?_map, hid]
  exact congrArg (Option.map OpenFile.names) h

variable {α : Type} {c : Call} {files : List OpenFile} {post : World → α → Prop} {r : c.Result}

theorem replaceFile_names (h : (files.map OpenFile.names).find? (·.1 == g.id) = some g.names) :
    (replaceFile g files).map OpenFile.names = files.map OpenFile.names := by
  induction files with
  | nil => rfl
  | cons k files ih =>
    rw [List.map_cons, List.find?_cons] at h
    unfold replaceFile
    by_cases hk : k.id = g.id
    · have hbeq : (k.names.1 == g.id) = true := beq_iff_eq.mpr hk
      rw [hbeq] at h
      rw [if_pos hk, List.map_cons, List.map_cons, Option.some.inj h]
    · have hbeq : (k.names.1 == g.id) = false := beq_eq_false_iff_ne.mpr hk
      rw [hbeq] at h
      rw [if_neg hk, List.map_cons, List.map_cons, ih h]

/-- Calm calls, and updates of the entry of `f`. -/
def Rewrites (f : OpenFile) : Call → Prop
  | .updateFile g => g.names = f.names
  | c => c.calm = true

theorem rewrites_of_calm (h : c.calm = true) : Rewrites f c := by
  cases c with
  | updateFile => cases h
  | _ => exact h

theorem answer_of_calm (hc : c.calm = true) (h : answerDirect who w x c = some (r, v)) :
    answer who w x c = some (r, v) := by
  rcases answerDirect_cases h with h | ⟨p, flags, mode, fs, e, rfl, hcreate, -⟩
  · exact h
  · rw [calm_openFile.mp hc] at hcreate
    cases hcreate

theorem answer_rewrites (hw : Kept N fs₀ w ∧ Found w f) (hc : Rewrites f c)
    (h : answerObliging who w x c = some (r, v)) : True ∧ Kept N fs₀ v ∧ Found v f := by
  obtain ⟨-, h⟩ := answerObliging_eq_some.mp h
  have hsettled : Settled w v := by
    by_cases hcalm : c.calm = true
    · exact (answer_calm hcalm (answer_of_calm hcalm h)).settled
    cases c with
    | updateFile g =>
      obtain ⟨-, rfl⟩ := Prod.mk.inj (Option.some.inj h)
      have hid : g.id = f.id := congrArg Prod.fst hc
      exact ⟨.refl _ _, replaceFile_names (by rw [hid, hc]; exact hw.2)⟩
    | _ => exact absurd hc hcalm
  refine ⟨trivial, hw.1.settled hsettled, ?_⟩
  unfold Found
  rw [hsettled.files]
  exact hw.2

theorem alone_rewrites {m : Handler α} (hm : m.Keeps (Rewrites f) fun _ _ => True)
    (hw : Kept N fs₀ w) (hf : Found w f) :
    m.Alone (answerObliging who) (fun v _ => Kept N fs₀ v) w :=
  (Prog.Safe.alone (fun _ _ _ _ _ => answer_rewrites) hm ⟨hw, hf⟩).mono fun _ _ h => h.1.1

theorem Calms.rewrites {m : Handler α} (h : Calms m) : m.Keeps (Rewrites f) fun _ _ => True :=
  h.weaken (fun _ => rewrites_of_calm) fun _ _ hr => hr

theorem rewrites_updateFile (h : g.names = f.names) :
    (Sys.updateFile g).Keeps (Rewrites f) fun _ _ => True :=
  Prog.Keeps.last (c := Call.updateFile g) h

theorem rewrites_writeBuffered (h : g.names = f.names) (fd : Fd) (offset : ℤ) (data : Bytes) :
    (writeBuffered g fd offset data).Keeps (Rewrites f) fun _ _ => True := by
  refine Prog.Keeps.bind (calms_pwriteAll fd offset data).rewrites ?_
  intro res
  rcases res with ⟨e, n⟩ | a
  · exact rewrites_updateFile h
  · trivial

theorem alone_findFile_cases {k : Option OpenFile → Handler α}
    (hnone : w.files.find? (·.id == fid) = none → (k none).Alone (answerObliging who) post w)
    (hsome : ∀ f, w.files.find? (·.id == fid) = some f →
      (k (some f)).Alone (answerObliging who) post w) :
    (Sys.findFile fid >>= k).Alone (answerObliging who) post w := by
  intro x r t hr
  obtain ⟨-, hr⟩ := answerObliging_eq_some.mp hr
  have hfound : some (w.files.find? (·.id == fid), w) = some (r, t) := hr
  obtain ⟨rfl, rfl⟩ := Prod.mk.inj (Option.some.inj hfound)
  cases hf : w.files.find? (·.id == fid) with
  | none => exact hnone hf
  | some f => exact hsome f hf

theorem alone_handleWrite (payload : Bytes) (hw : Kept N fs₀ w) :
    (handleWrite payload).Alone (answerObliging who) (fun v _ => Kept N fs₀ v) w := by
  unfold handleWrite
  cases decodeWrite payload with
  | none => exact hw
  | some q =>
    refine alone_findFile_cases (fun _ => hw) fun f hf => ?_
    refine alone_rewrites ?_ hw (found_of_find? hf).1
    dsimp only
    split
    · rename_i fd _ _
      -- the fallback to buffered writes
      have hback : (do
          Sys.updateFile { f with direct := false }
          writeBuffered { f with direct := false } fd q.2.1 q.2.2).Keeps (Rewrites f)
            fun _ _ => True :=
        Prog.Keeps.bind (rewrites_updateFile rfl) fun _ =>
          rewrites_writeBuffered (g := { f with direct := false }) rfl _ _ _
      split
      · refine Prog.Keeps.call (c := Call.attempt) rfl ?_
        intro ready _
        change Prog.Keeps _ _ (if _ then _ else _)
        split
        · refine Prog.Keeps.bind (calms_pwriteAll fd _ _).rewrites ?_
          intro res
          split
          · trivial
          · exact hback
          · exact rewrites_updateFile rfl
        · exact hback
      · exact rewrites_writeBuffered rfl _ _ _
    · trivial

theorem alone_handleFtruncate (payload : Bytes) (hw : Kept N fs₀ w) :
    (handleFtruncate payload).Alone (answerObliging who) (fun v _ => Kept N fs₀ v) w := by
  refine alone_findFile_cases (fun _ => hw) fun f hf => ?_
  refine alone_rewrites ?_ hw (found_of_find? hf).1
  dsimp only
  split
  · refine Prog.Keeps.call (c := Call.ftruncate _ _) rfl ?_
    intro res _
    cases res with
    | ok a => trivial
    | error e => exact rewrites_updateFile rfl
  · trivial

/-- No file is left at the temporary name of `f`. -/
def Gone (f : OpenFile) (w : World) : Prop :=
  f.inplace = false → w.fs.isFile (resolve f.tmpPath) = false

theorem mem_of_eraseP (h : files.find? (·.id == fid) = some f) (hg : g ∈ files) :
    g = f ∨ g ∈ files.eraseP (·.id == fid) := by
  induction files with
  | nil => cases h
  | cons k files ih =>
    rw [List.find?_cons] at h
    rw [List.eraseP_cons]
    cases hk : (k.id == fid) with
    | true =>
      rw [hk] at h
      obtain rfl := Option.some.inj h
      rcases List.mem_cons.mp hg with rfl | hg
      · exact .inl rfl
      · exact .inr hg
    | false =>
      rw [hk] at h
      rcases List.mem_cons.mp hg with rfl | hg
      · exact .inr List.mem_cons_self
      · exact (ih h hg).imp_right (List.mem_cons_of_mem k)

theorem Kept.removeFile (hw : Kept N fs₀ w) (hf : w.files.find? (·.id == fid) = some f)
    (hgone : Gone f w) : Kept N fs₀ { w with files := w.files.eraseP (·.id == fid) } := by
  refine ⟨⟨hw.orderly.tree, hw.orderly.dirs, ?_⟩, fun l hs => hw.none l ?_⟩
  · exact fun g hg => hw.orderly.files g (List.mem_of_mem_eraseP hg)
  · refine ⟨hs.temp, hs.file, hs.new, ?_⟩
    rintro ⟨g, hg, hin, hl⟩
    rcases mem_of_eraseP hf hg with rfl | hg
    · have hfile : w.fs.isFile l = true := hs.file
      rw [← hl, hgone hin] at hfile
      cases hfile
    · exact hs.lost ⟨g, hg, hin, hl⟩

theorem alone_removeFile {k : Unit → Handler α}
    (h : (k ()).Alone (answerObliging who) post { w with files := w.files.eraseP (·.id == fid) }) :
    (Sys.removeFile fid >>= k).Alone (answerObliging who) post w := by
  intro x r t hr
  obtain ⟨-, hr⟩ := answerObliging_eq_some.mp hr
  obtain ⟨rfl, rfl⟩ := Prod.mk.inj (Option.some.inj hr)
  exact h

/-- What is in the table does not change, and nothing is left behind. -/
structure Same (N : Loc → Prop) (fs₀ : Fs) (files : List OpenFile) (w : World) : Prop where
  kept : Kept N fs₀ w
  files : w.files = files

theorem answer_files (hc : ∀ f, c ≠ .addFile f) (hok : TempOk N c)
    (h : answerDirect who w x c = some (r, v)) : v.files = w.files := by
  rcases answerDirect_cases h with h | ⟨-, -, -, fs, -, -, -, -, -, -, rfl⟩
  swap
  · rfl
  by_cases hcalm : c.calm = true
  · exact (answer_calm hcalm h).files
  cases c with
  | mkdir p mode => rcases answer_mkdir h with ⟨e, -, rfl⟩ | ⟨fs, -, -, rfl⟩ <;> rfl
  | openFile p flags mode =>
    rcases answer_openFile h with ⟨e, -, rfl⟩ | ⟨i, fs, -, -, -, -, rfl⟩ <;> rfl
  | symlink target p => rcases answer_symlink h with ⟨e, -, rfl⟩ | ⟨fs, -, -, rfl⟩ <;> rfl
  | link a b => rcases answer_link h with ⟨e, -, rfl⟩ | ⟨fs, -, -, rfl⟩ <;> rfl
  | rename a b => rcases answer_rename h with ⟨e, -, rfl⟩ | ⟨fs, -, -, -, -, rfl⟩ <;> rfl
  | unlink p => rcases answer_unlink h with ⟨e, -, rfl⟩ | ⟨fs, -, -, -, rfl⟩ <;> rfl
  | addFile f => exact absurd rfl (hc f)
  | updateFile f => exact hok.elim
  | removeFile id => exact hok.elim
  | takeFiles => exact hok.elim
  | _ => exact absurd rfl hcalm

/-- Calls that create nothing leave nothing behind. -/
theorem Same.answer (hw : Same N fs₀ files w) (hok : TempOk N c) (hc : ∀ f, c ≠ .addFile f)
    (hi : ∀ l, ¬ tempDuty.incurs c r l) (h : answerObliging who w x c = some (r, v)) :
    Same N fs₀ files v := by
  obtain ⟨-, ho, hs⟩ := answer_temp fs₀ hw.kept.orderly hok h
  refine ⟨⟨ho, fun l hl => ?_⟩, ?_⟩
  · rcases hs l hl with ⟨hold, -⟩ | hnew
    · exact hw.kept.none l hold
    · exact hi l hnew
  · rw [answer_files hc hok (answerObliging_eq_some.mp h).2, hw.files]

theorem alone_calms {m : Handler α} (hm : Calms m) (hw : Same N fs₀ files w) :
    m.Alone (answerObliging who) (fun v _ => Same N fs₀ files v) w := by
  refine (Prog.Safe.alone (I := Same N fs₀ files) ?_ hm hw).mono fun _ _ h => h.1
  intro s x c r t hs hc hr
  refine ⟨trivial, hs.answer (gentle_of_calm hc).tempOk ?_ ((gentle_of_calm hc).incurs r) hr⟩
  rintro f rfl
  cases hc

/-- After `unlink` there is no file. -/
theorem alone_unlink {p : Bytes} {k : Except Errno Unit → Handler α} (hw : Same N fs₀ files w)
    (hk : ∀ r v, Same N fs₀ files v → v.fs.isFile (resolve p) = false →
      (k r).Alone (answerObliging who) post v) :
    (Sys.unlink p >>= k).Alone (answerObliging who) post w := by
  intro x r t hr
  refine hk r t (hw.answer (c := Call.unlink p) trivial (by simp) (fun l hl => hl) hr) ?_
  obtain ⟨hx, h⟩ := answerObliging_eq_some.mp hr
  rcases answer_unlink h with ⟨e, rfl, rfl⟩ | ⟨fs, rfl, -, hu, rfl⟩
  · by_contra hfile
    have hfile : t.fs.isFile (resolve p) = true := Bool.eq_true_of_not_eq_false hfile
    have hp : p ≠ [] := by
      rintro rfl
      have htop : t.fs.isFile (resolve []) = false :=
        Fs.isFile_eq_false_of_isDir hw.kept.orderly.tree.top
      rw [htop] at hfile
      cases hfile
    obtain ⟨hok, -⟩ := unlink_file hw.kept.orderly.tree (obliging_unlink hx hfile) hfile hp h
    cases hok
  · obtain ⟨-, rfl⟩ := Fs.unlink_eq_ok hu
    simp [Fs.isFile]

/-- The rename at the end of a commit: when it succeeds, the temporary name is gone. -/
theorem alone_renameTmp {k : Except Errno Unit → Handler α} (hw : Same N fs₀ files w)
    (hf : TableOk N f) (hs : f.streams = true)
    (hk : ∀ r v, Same N fs₀ files v → (r = .ok () → Gone f v) →
      (k r).Alone (answerObliging who) post v) :
    (Sys.rename f.tmpPath f.finalPath >>= k).Alone (answerObliging who) post w := by
  intro x r t hr
  have hok : TempOk N (.rename f.tmpPath f.finalPath) := hf hs
  refine hk r t (hw.answer (c := Call.rename _ _) hok (by simp) (fun l hl => hl) hr) ?_
  rintro rfl -
  obtain ⟨hx, h⟩ := answerObliging_eq_some.mp hr
  rcases answer_rename h with ⟨e, he, -⟩ | ⟨fs, -, -, -, hren, rfl⟩
  · cases he
  have hne : w.fs.entry (resolve f.finalPath) ≠ w.fs.entry (resolve f.tmpPath) := by
    obtain ⟨-, -, i, hi, -⟩ := Fs.rename_eq_ok hren
    exact obliging_rename hx hi
  obtain ⟨hentry, -⟩ := rename_temp hw.kept.orderly hok.1 hok.2.1 hok.2.2 hne hren
  have hnone : fs.entry (resolve f.tmpPath) = none := by
    rw [hentry _ hok.1, if_pos rfl]
  simp [Fs.isFile, hnone]

theorem alone_commitOpen {fd : Fd} (m : Meta) (hw : Same N fs₀ files w) (hf : TableOk N f)
    (hfd : f.fd = some fd) :
    (commitOpen who f fd m).Alone (answerObliging who)
      (fun v status => Same N fs₀ files v ∧ (status = none → Gone f v)) w := by
  have hrename : ∀ (status : Option Errno) (w : World), Same N fs₀ files w →
      (commitRename f status).Alone (answerObliging who)
        (fun v status => Same N fs₀ files v ∧ (status = none → Gone f v)) w := by
    intro status w hw
    unfold commitRename
    split
    · rename_i hskip
      refine ⟨hw, fun hnone hin => ?_⟩
      simp [hnone, hin] at hskip
    · rename_i hgo
      have hin : f.inplace = false := by
        simp only [Bool.or_eq_true, not_or] at hgo
        simpa using hgo.2
      refine alone_renameTmp hw hf (by simp [OpenFile.streams, hin, hfd]) fun r v hv hgone => ?_
      cases r with
      | error e => exact ⟨hv, fun hnone => absurd hnone (Option.some_ne_none _)⟩
      | ok a => exact ⟨hv, fun _ => hgone rfl⟩
  have hclose : ∀ (status : Option Errno) (w : World), Same N fs₀ files w →
      (commitClose f fd status).Alone (answerObliging who)
        (fun v status => Same N fs₀ files v ∧ (status = none → Gone f v)) w :=
    fun status w hw => (alone_calms (calms_close fd) hw).bind fun v closed hv => hrename _ v hv
  have hsync : Calms (Sys.fsync fd) := Prog.Keeps.last (c := Call.fsync fd) rfl
  refine (alone_calms hsync hw).bind fun v synced hv => ?_
  cases synced with
  | error e => exact hclose (some e) v hv
  | ok a => exact (alone_calms (calms_applyMeta fd m false) hv).bind fun u r hu => hclose _ u hu

theorem alone_handleCommit {cfg : Config} (hwho : cfg.who = who) (id : UInt64) (payload : Bytes)
    (hw : Kept N fs₀ w) :
    (handleCommit cfg id payload).Alone (answerObliging who) (fun v _ => Kept N fs₀ v) w := by
  refine alone_findFile_cases (fun _ => hw) fun f hf => ?_
  have htable : TableOk N f := hw.orderly.files f (List.mem_of_find?_eq_some hf)
  have hsame : Same N fs₀ w.files w := ⟨hw, rfl⟩
  have hend : ∀ (status : Option Errno) (v : World), Same N fs₀ w.files v →
      (status = none → Gone f v) → Prog.Alone (answerObliging who) (fun v _ => Kept N fs₀ v) (do
        if status.isSome && !f.inplace then
          let _ ← Sys.unlink f.tmpPath
        Sys.removeFile (decodeCommit payload).1
        return replyStatus id status : Handler Frame) v := by
    intro status v hv hgone
    split
    · refine alone_unlink hv fun r u hu hnone => alone_removeFile ?_
      exact hu.kept.removeFile (hu.files ▸ hf) fun _ => hnone
    · rename_i hskip
      refine alone_removeFile (hv.kept.removeFile (hv.files ▸ hf) fun hin => hgone ?_ hin)
      simpa [hin] using hskip
  dsimp only
  split
  · exact (alone_calms (calms_close _) hsame).bind fun v _ hv =>
      hend (some _) v hv fun h => absurd h (Option.some_ne_none _)
  · exact hend (some _) w hsame fun h => absurd h (Option.some_ne_none _)
  · exact hend (some _) w hsame fun h => absurd h (Option.some_ne_none _)
  · rename_i fd _ hfd
    rw [hwho]
    exact (alone_commitOpen _ hsame htable hfd).bind fun v status hv => hend status v hv.1 hv.2

theorem alone_handleAbort (payload : Bytes) (hw : Kept N fs₀ w) :
    (handleAbort payload).Alone (answerObliging who) (fun v _ => Kept N fs₀ v) w := by
  refine alone_findFile_cases (fun _ => hw) fun f hf => ?_
  have hend : ∀ v : World, Same N fs₀ w.files v →
      Prog.Alone (answerObliging who) (fun v _ => Kept N fs₀ v) (do
        if !f.inplace then
          let _ ← Sys.unlink f.tmpPath
        Sys.removeFile (decodeFid payload) : Handler Unit) v := by
    intro v hv
    split
    · refine alone_unlink hv fun r u hu hnone => alone_removeFile (k := fun _ => .ret ()) ?_
      exact hu.kept.removeFile (hu.files ▸ hf) fun _ => hnone
    · rename_i hskip
      refine alone_removeFile (k := fun _ => .ret ())
        (hv.kept.removeFile (hv.files ▸ hf) fun hin => ?_)
      simp [hin] at hskip
  dsimp only
  split
  · exact (alone_calms (calms_close _) ⟨hw, rfl⟩).bind fun v _ hv => hend v hv
  · exact hend w ⟨hw, rfl⟩

/-- Only files that are still to be discarded are left. -/
structure Discarding (N : Loc → Prop) (fs₀ : Fs) (files : List OpenFile) (w : World) : Prop where
  orderly : Orderly N w
  empty : w.files = []
  left : ∀ l, Stray fs₀ w l → ∃ f ∈ files, f.inplace = false ∧ resolve f.tmpPath = l

theorem Discarding.answer (hw : Discarding N fs₀ files w) (hok : TempOk N c)
    (hc : ∀ f, c ≠ .addFile f) (hi : ∀ l, ¬ tempDuty.incurs c r l)
    (h : answerObliging who w x c = some (r, v)) :
    Discarding N fs₀ files v ∧ ∀ l, Stray fs₀ v l → ¬ tempDuty.discharges c r l := by
  obtain ⟨-, ho, hs⟩ := answer_temp fs₀ hw.orderly hok h
  have hback : ∀ l, Stray fs₀ v l → Stray fs₀ w l ∧ ¬ tempDuty.discharges c r l :=
    fun l hl => (hs l hl).resolve_right (hi l)
  refine ⟨⟨ho, ?_, fun l hl => hw.left l (hback l hl).1⟩, fun l hl => (hback l hl).2⟩
  rw [answer_files hc hok (answerObliging_eq_some.mp h).2, hw.empty]

/-- No temporary file is left but those that were there before. -/
def Clean (fs₀ : Fs) (w : World) : Prop :=
  ∀ l, isTemp l = true → w.fs.isFile l = true → w.fs.entry l = fs₀.entry l

theorem clean_of_none (h : ∀ l, ¬ Stray fs₀ w l) (hgone : ∀ f ∈ w.files, Gone f w) :
    Clean fs₀ w := by
  intro l ht hfile
  by_contra hnew
  refine h l ⟨ht, hfile, hnew, ?_⟩
  rintro ⟨f, hf, hin, hl⟩
  rw [← hl, hgone f hf hin] at hfile
  cases hfile

theorem alone_discardFiles (files : List OpenFile) (hw : Discarding N fs₀ files w) :
    (discardFiles files).Alone (answerObliging who) (fun v _ => Clean fs₀ v) w := by
  induction files generalizing w with
  | nil =>
    refine clean_of_none (fun l hl => ?_) (by simp [hw.empty])
    obtain ⟨f, hf, -⟩ := hw.left l hl
    cases hf
  | cons f files ih =>
    have hrest : ∀ v, Discarding N fs₀ (f :: files) v →
        (∀ l, Stray fs₀ v l → f.inplace = false → resolve f.tmpPath ≠ l) →
        (discardFiles files).Alone (answerObliging who) (fun v _ => Clean fs₀ v) v := by
      intro v hv hf
      refine ih ⟨hv.orderly, hv.empty, fun l hl => ?_⟩
      obtain ⟨g, hg, hin, hgl⟩ := hv.left l hl
      rcases List.mem_cons.mp hg with rfl | hg
      · exact absurd hgl (hf l hl hin)
      · exact ⟨g, hg, hin, hgl⟩
    have hunlink : ∀ v, Discarding N fs₀ (f :: files) v → Prog.Alone (answerObliging who)
        (fun v _ => Clean fs₀ v) (do
          if !f.inplace && f.tmpPath ≠ [] then
            let _ ← Sys.unlink f.tmpPath
          discardFiles files : Handler Unit) v := by
      intro v hv
      split
      · intro x r t hr
        obtain ⟨ht, hgone⟩ := hv.answer (c := Call.unlink f.tmpPath) trivial (by simp)
          (fun l hl => hl) hr
        exact hrest t ht fun l hl _ heq => hgone l hl heq
      · rename_i hskip
        refine hrest v hv fun l hl hin heq => hskip ?_
        have hne : f.tmpPath ≠ [] := by
          intro hnil
          have htemp := hl.temp
          rw [← heq, hnil] at htemp
          cases htemp
        simp [hin, hne]
    unfold discardFiles
    dsimp only
    split
    · intro x r t hr
      exact hunlink t (hw.answer (c := Call.close _) trivial (by simp) (fun l hl => hl) hr).1
    · exact hunlink w hw

/-- At the end of the input the table is emptied, and its temporary files with it. -/
theorem alone_cleanup (hw : Kept N fs₀ w) :
    cleanup.Alone (answerObliging who) (fun v _ => Clean fs₀ v) w := by
  intro x r t hr
  obtain ⟨-, hr⟩ := answerObliging_eq_some.mp hr
  obtain ⟨rfl, rfl⟩ := Prod.mk.inj (Option.some.inj hr)
  have hempty : Orderly N { w with files := [] } :=
    ⟨hw.orderly.tree, hw.orderly.dirs, fun f hf => by cases hf⟩
  change Prog.Alone _ _ (discardFiles w.files >>= fun _ => .ret none) _
  refine Prog.Alone.bind (alone_discardFiles w.files ⟨hempty, rfl, fun l hl => ?_⟩)
    fun v _ hv => hv
  by_contra hout
  exact hw.none l ⟨hl.temp, hl.file, hl.new, fun hin => hout hin⟩

end Table

end Ecopy.Server
