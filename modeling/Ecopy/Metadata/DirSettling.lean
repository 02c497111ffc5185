import Ecopy.HardLinks.Replay
import Ecopy.Metadata.DirMakers

/-!
# Programs that set the modes of directories

At the end of a copy every directory that the walk has come to gets the mode of its source. No
directory is made any more, so the one that is opened under a path stays there.
-/
namespace Ecopy.Metadata.DirMakers
open Protocol Ecopy.Path FileSystem Server Lib.Calls
open DirSteps
open Remote.Handshake (Settings)

section Settled
variable {n : ℕ} {who : Fin n → Identity} {p : Plan} {s t : Shared n} {c : Fin n}
variable {l : Loc} {path : Bytes} {fd : Fd} {m : Meta}

/-- A directory of this run at `l` has the mode it is to end with. -/
def Settled (p : Plan) (s : Shared n) (l : Loc) : Prop :=
  ∀ i, p.base.next ≤ i → DirAt s.fs l i → p.Right l (s.fs.node i).mode

theorem Settled.onward (h : Settled p s l) (ho : Onward p .none s t) : Settled p t l := by
  intro i hnew hi
  rcases ho.fresh l i hi with hi | ⟨-, hallow⟩
  · rcases ho.mode l i hnew hi with heq | hright
    · rw [heq]
      exact h i hnew hi
    · exact hright
  · exact hallow.elim

/-- The descriptor is that of the directory at `l`, if there is one. -/
structure Opened (s : Shared n) (l : Loc) (fd : Fd) : Prop where
  only : ∀ i, DirAt s.fs l i → i = fd.ino
  old : fd.ino < s.fs.next
  there : (s.fs.node fd.ino).isDir = true → DirAt s.fs l fd.ino

theorem Opened.onward (h : Opened s l fd) (ho : Onward p .none s t) : Opened t l fd where
  only := by
    intro i hi
    rcases ho.fresh l i hi with hi | ⟨-, hallow⟩
    · exact h.only i hi
    · exact hallow.elim
  old := h.old.trans_le ho.next
  there := fun hd => ho.kept l fd.ino (h.there ((ho.kinds fd.ino h.old).symm.trans hd))

theorem Works.of_plain {α : Type} {P : Permit} {prog : Handler α} {post : α → Prop}
    (h : prog.Safe Plain (fun _ _ => True) post) (s : Shared n) :
    Works who p P c prog (fun _ a => post a) s :=
  Prog.Amid.of_safe (fun _ _ _ _ _ _ hplain hanswer ht =>
    onward_of_answer ht (permitted_of_plain hplain) hanswer) h s

theorem opened_of_answer {x : Choice} {directory : Bool} {u : Shared n} (hs : Tidy p s)
    (h : answer who c s x (.openFile path (readFlags directory) 0) = some (.ok fd, u)) :
    Opened u (resolve path) fd := by
  obtain ⟨⟨r, w⟩, hanswer, heq⟩ := Option.map_eq_some_iff.mp h
  obtain ⟨rfl, rfl⟩ := Prod.mk.inj heq
  rcases answer_openFile (answer_of_plain (c := .openFile path (readFlags directory) 0) rfl hanswer) with
    ⟨e, he, -⟩ | ⟨i, fs, -, -, hfd, hopen, rfl⟩
  · cases he
  · cases hfd
    obtain ⟨-, ⟨-, hcreate, -, -⟩ | ⟨hentry, -, ⟨data, hk, rfl⟩ | ⟨-, -, rfl⟩⟩⟩ :=
      Fs.openFile_eq_ok hopen
    · cases hcreate
    · exact ⟨fun j hj => Option.some.inj (hj.1.symm.trans hentry), hs.tree.bounded _ _ hentry,
        fun hd => ⟨hentry, hd⟩⟩
    · exact ⟨fun j hj => Option.some.inj (hj.1.symm.trans hentry), hs.tree.bounded _ _ hentry,
        fun hd => ⟨hentry, hd⟩⟩

theorem works_openForMeta (hs : Tidy p s) (hpath : resolve path = l) :
    Works who p .none c (openForMeta path) (fun t r => ∀ fd, r = .ok fd → Opened t l fd) s := by
  subst hpath
  refine Works.plain hs trivial fun t x r u ht _ hanswer hu _ => ?_
  cases r with
  | ok fd =>
    refine Works.ret hu fun v _ ho fd' heq => ?_
    cases heq
    exact (opened_of_answer ht hanswer).onward ho
  | error e =>
    refine Works.plain hu trivial fun v x r y hv _ hanswer' hy _ => ?_
    refine Works.ret hy fun z _ ho fd' heq => ?_
    subst heq
    exact (opened_of_answer hv hanswer').onward ho

theorem resolve_atDir_split (hl : ∀ x ∈ l, Ordinary x)
    (hbase : (splitDirBase (render l)).2 ≠ []) :
    resolve (atDir (splitDirBase (render l)).1 (splitDirBase (render l)).2) = l := by
  obtain ⟨init, last, rfl⟩ := l.eq_nil_or_concat'.resolve_left (by
    rintro rfl
    exact hbase (by rw [splitDirBase_slash]))
  rw [splitDirBase_render (hl last (by simp)),
    resolve_atDir (fun x hx => hl x (List.mem_append_left _ hx)) (hl last (by simp))]

theorem works_openTarget (cfg : Config) (hs : Tidy p s) (hl : ∀ x ∈ l, Ordinary x) :
    Works who p .none c (openTarget cfg (render l)) (fun t r => ∀ fd, r = .ok fd → Opened t l fd)
      s := by
  have hdirect : ∀ t, Tidy p t → Works who p .none c (openForMeta (render l))
      (fun t r => ∀ fd, r = .ok fd → Opened t l fd) t :=
    fun t ht => works_openForMeta ht (resolve_render hl)
  unfold openTarget
  dsimp only
  split
  · rename_i hsplit
    refine Works.plain hs trivial fun t x r u _ _ _ hu _ => ?_
    cases r with
    | error e => exact hdirect u hu
    | ok _ =>
      change Works who p .none c (openForMeta (atDir _ _) >>= _) _ u
      refine Works.bind hu (works_openForMeta hu (resolve_atDir_split hl hsplit.2.2.1)) ?_
      intro v r hv _ hopened
      cases r with
      | ok fd =>
        refine Works.ret hv fun w _ ho fd' heq => ?_
        cases heq
        exact (hopened fd rfl).onward ho
      | error e => exact hdirect v hv
  · exact hdirect s hs

theorem plain_applyOwner (who : Identity) (fd : Fd) (m : Meta) :
    (applyOwner who fd m).Keeps Plain fun _ _ => True := by
  unfold applyOwner
  split
  · trivial
  · dsimp only
    split
    · trivial
    · refine .call trivial fun r _ => ?_
      cases r with
      | ok _ => trivial
      | error e =>
        dsimp only
        split
        · trivial
        · trivial

/-- The call that sets the mode. -/
theorem works_fchmod (hs : Tidy p s) (hopened : Opened s l fd)
    (hwant : p.want l = some (bits m.mode)) :
    Works who p .none c (Sys.fchmod fd (m.mode &&& 0xFFF))
      (fun t (r : Except Errno Unit) => r.isOk = true → Settled p t l) s := by
  have hright : ∀ t : Shared n, Tidy p t → Opened t l fd →
      Permitted p .none t (.fchmod fd (m.mode &&& 0xFFF)) := by
    intro t ht ho
    refine ⟨trivial, fun _ => False.elim, ?_, by simp⟩
    intro fd' mode' l' heq hnew hi
    cases heq
    rw [ht.unique l' l fd.ino hnew hi (ho.there hi.2)]
    unfold Plan.Right
    rw [bits_and]
    exact hwant
  refine Works.step hs fun t ht ho => ⟨hright t ht (hopened.onward ho), ?_⟩
  intro x r u hanswer hu ho'
  refine Works.ret hu fun v _ ho₂ hok => Settled.onward (fun i hnew hi => ?_) ho₂
  obtain ⟨⟨r', w⟩, hcall, heq⟩ := Option.map_eq_some_iff.mp hanswer
  obtain ⟨rfl, rfl⟩ := Prod.mk.inj heq
  have hino := ((hopened.onward ho).onward ho').only i hi
  subst hino
  have hmode := (answerIds_fchmod hcall).mode
  rw [if_pos hok] at hmode
  unfold Plan.Right
  change p.want l = some (bits (w.fs.node fd.ino).mode)
  rw [hmode, bits_and, bits_and]
  exact hwant

/-- A mode that is recorded is one that has been settled. -/
theorem settled_of_made (h : Made p s l (m.mode &&& 0xFFF))
    (hwant : p.want l = some (bits m.mode)) : Settled p s l := by
  obtain ⟨i, -, hi, hmode⟩ := h
  intro j _ hj
  rw [← hi.unique hj]
  rcases hmode with heq | hright
  · unfold Plan.Right
    rw [heq, bits_and]
    exact hwant
  · exact hright

theorem made_of_dirMode {x : Choice} {dir : Bytes} {mode : UInt32} {u : Shared n} (hs : Tidy p s)
    (h : answer who c s x (.dirMode dir) = some (some mode, u)) : Made p u (resolve dir) mode := by
  obtain ⟨⟨r, w⟩, hanswer, heq⟩ := Option.map_eq_some_iff.mp h
  obtain ⟨rfl, rfl⟩ := Prod.mk.inj heq
  obtain ⟨hr, rfl⟩ := Prod.mk.inj (Option.some.inj (answer_of_plain (c := .dirMode dir) rfl hanswer))
  refine hs.cached c dir mode ?_
  change (s.view c).dirCache dir = _
  cases hcache : (s.view c).dirCache dir with
  | none =>
    rw [hcache] at hr
    cases hr
  | some state =>
    rw [hcache] at hr
    cases state with
    | ready known => exact congrArg (fun known => some (DirState.ready known)) hr
    | _ => cases hr

theorem works_times {first : Option (Errno × MetaOp)} (hs : Tidy p s)
    (h : first = none → Settled p s l) :
    Works who p .none c (applyTimes fd m first) (fun t r => r = none → Settled p t l) s := by
  have hend : ∀ t, Tidy p t → Onward p .none s t → ∀ r : Option (Errno × MetaOp),
      (r = none → first = none) →
      Works who p .none c (.ret r) (fun t r => r = none → Settled p t l) t :=
    fun t ht ho r hr => Works.ret ht fun u _ ho' hnone => (h (hr hnone)).onward (ho.trans ho')
  refine Works.plain hs trivial fun t x settings u _ ho _ hu ho' => ?_
  change Works who p .none c (if (settings : Settings).preserveTimes = true then _ else _) _ u
  split
  · refine Works.plain hu trivial fun v x r w _ ho₂ _ hw ho₃ => ?_
    have hall := ((ho.trans ho').trans ho₂).trans ho₃
    cases r with
    | ok _ => exact hend w hw hall first id
    | error e => exact hend w hw hall _ fun hnone => by cases first <;> simp_all
  · exact hend u hu (ho.trans ho') first id

theorem works_applyMeta {modeIsSet : Bool} (hs : Tidy p s) (hopened : Opened s l fd)
    (hwant : p.want l = some (bits m.mode)) (hset : modeIsSet = true → Settled p s l) :
    Works who p .none c (applyMeta (who c) fd m modeIsSet) (fun t r => r = none → Settled p t l)
      s := by
  refine Works.bind hs (Works.of_plain (plain_applyOwner (who c) fd m) s) fun t owner ht ho _ => ?_
  cases modeIsSet with
  | true => exact works_times ht fun _ => (hset rfl).onward ho
  | false =>
    change Works who p .none c (Sys.fchmod fd (m.mode &&& 0xFFF) >>= _) _ t
    refine Works.bind ht (works_fchmod ht (hopened.onward ho) hwant) fun u r hu _ hr => ?_
    cases r with
    | ok _ => exact works_times hu fun _ => hr rfl
    | error e =>
      refine works_times hu fun hnone => ?_
      cases owner with
      | none => cases hnone
      | some e => cases hnone

theorem works_logError {P : Permit} {e : Errno} (hs : Tidy p s) :
    Works who p P c (Sys.logError path e) (fun t _ => (t.mem c).errors ≠ []) s := by
  refine Works.plain hs trivial fun t x r u _ _ hanswer hu _ => ?_
  refine Works.ret hu fun v _ ho => ho.errors c ?_
  obtain ⟨⟨r', w⟩, hcall, heq⟩ := Option.map_eq_some_iff.mp hanswer
  obtain ⟨-, rfl⟩ := Prod.mk.inj heq
  obtain ⟨-, rfl⟩ := Prod.mk.inj (Option.some.inj (answer_of_plain (c := .logError path e) rfl hcall))
  simp [Shared.store]

/-- `handle_setmeta` for a directory: an error is logged, or the mode is right. -/
theorem works_handleSetmeta {cfg : Config} {payload : Bytes} (hwho : cfg.who = who c)
    (hdecode : decodeSetmeta payload = some (path, m, true)) (hl : ∀ x ∈ l, Ordinary x)
    (hplace : ∀ norm, resolvePath cfg.root path = .ok norm → norm = render l)
    (hwant : p.want l = some (bits m.mode)) (hs : Tidy p s) :
    Works who p .none c (handleSetmeta cfg payload)
      (fun t _ => (t.mem c).errors ≠ [] ∨ Settled p t l) s := by
  have hlog : ∀ t path e, Tidy p t → Works who p .none c (Sys.logError path e)
      (fun t _ => (t.mem c).errors ≠ [] ∨ Settled p t l) t :=
    fun t path e ht => (works_logError ht).mono fun _ _ => .inl
  unfold handleSetmeta
  rw [hdecode]
  dsimp only
  cases hnorm : resolvePath cfg.root path with
  | error e => exact hlog s _ e hs
  | ok norm =>
    obtain rfl := hplace norm hnorm
    refine Works.bind hs (works_openTarget cfg hs hl) fun t opened ht _ hopened => ?_
    cases opened with
    | error e => exact hlog t _ e ht
    | ok fd =>
      refine Works.plain ht trivial fun u x (known : Option UInt32) v hu ho hanswer hv ho' => ?_
      have hopened' : Opened v l fd := ((hopened fd rfl).onward ho).onward ho'
      have hknown : ∀ b : Bool, ((true && known == some (m.mode &&& 0xFFF)) && b) = true →
          Settled p v l := by
        intro b hb
        have hmode : known = some (m.mode &&& 0xFFF) := by
          simpa using (Bool.and_eq_true_iff.mp hb).1
        rw [hmode] at hanswer
        have hmade := made_of_dirMode hu hanswer
        rw [resolve_render hl] at hmade
        exact settled_of_made hmade hwant
      rw [hwho]
      change Works who p .none c (applyMeta (who c) fd m _ >>= _) _ v
      refine Works.bind hv (works_applyMeta hv hopened' hwant (hknown _)) ?_
      intro w r hw _ hr
      refine Works.plain hw trivial fun y x closed z _ ho₂ _ hz ho₃ => ?_
      cases r with
      | some e => exact hlog z _ e.1 hz
      | none =>
        cases closed with
        | error e => exact hlog z _ e hz
        | ok _ =>
          refine Works.ret hz fun y _ ho₄ => ?_
          exact .inr ((hr rfl).onward ((ho₂.trans ho₃).trans ho₄))

/-- `preserve_path_metadata`, which says whether it could set the mode. -/
theorem works_preservePathMetadata {cfg : Workers.SmallCopy.Tuning} (hpath : resolve path = l)
    (hwant : p.want l = some (bits m.mode)) (hs : Tidy p s) :
    Works who p .none c (HardLinks.preservePathMetadata (who c) cfg path m)
      (fun t ok => ok = true → Settled p t l) s := by
  have hfailed : ∀ t, Tidy p t → Works who p .none c (.ret false)
      (fun t ok => ok = true → Settled p t l) t :=
    fun t ht => Works.ret ht fun _ _ _ hok => absurd hok (by decide)
  refine Works.plain hs trivial fun t x r u ht _ hanswer hu _ => ?_
  cases r with
  | error e => exact hfailed u hu
  | ok fd =>
    have hopened := opened_of_answer ht hanswer
    rw [hpath] at hopened
    have hset : Works who p .none c (Workers.SmallCopy.preserveFdMetadata (who c) cfg fd m none)
        (fun v ok => ok = true → Settled p v l) u := by
      unfold Workers.SmallCopy.preserveFdMetadata
      refine Works.bind hu (Works.of_plain (plain_applyOwner (who c) fd m) u) ?_
      intro v owner hv ho _
      cases owner with
      | some e => exact hfailed v hv
      | none =>
        refine Works.bind hv (works_fchmod hv (hopened.onward ho) hwant) ?_
        intro w r hw _ hr
        cases r with
        | error e => exact hfailed w hw
        | ok _ =>
          change Works who p .none c (if cfg.preserveTimes = true then _ else _) _ w
          split
          · exact Works.plain hw trivial fun y x r z _ ho₂ _ hz ho₃ =>
              Works.ret hz fun _ _ ho₄ _ => (hr rfl).onward ((ho₂.trans ho₃).trans ho₄)
          · exact Works.ret hw fun _ _ ho₂ _ => (hr rfl).onward ho₂
    change Works who p .none c (Workers.SmallCopy.preserveFdMetadata (who c) cfg fd m none >>= _) _ u
    refine Works.bind hu hset ?_
    intro v ok hv _ hok
    exact Works.plain hv trivial fun y x r z _ ho₂ _ hz ho₃ =>
      Works.ret hz fun _ _ ho₄ hdone => (hok hdone).onward ((ho₂.trans ho₃).trans ho₄)

end Settled

end Ecopy.Metadata.DirMakers
