import Ecopy.Metadata.DirRuns
import Ecopy.Server.StatBulk

/-!
# What holds at every stage of a copy

While files are copied, directories are made as counterparts of those that the walk has come to,
and nowhere else. When the metadata of directories is set, none is made any more, and each is still
to be done, or under way, or done.
-/
namespace Ecopy.Metadata.DirMakers
open Protocol Ecopy.Path FileSystem Server Lib.Calls Lib.Fields Lib.Runs
open Traversal (Maker Roots View Walked toCanonicalDirPath localRoots traversalStart dstPathFor)

section Place
variable {ss ds rel : List Bytes} {path dst norm name : Bytes}

theorem resolve_pathJoinFast {base : Bytes} {outsz : ℕ} (hname : Ordinary name)
    (h : pathJoinFast base name outsz = some path) : resolve path = resolve base ++ [name] := by
  have hfields : fields slash name = [name] := by
    have hone : fields slash (join slash [name]) = [name] := fields_join (by simpa using hname.1)
    rwa [join_cons, join_nil, List.append_nil, fields_sep_cons] at hone
  have hstep : ∀ out, resolveFrom out [name] = out ++ [name] := by
    intro out
    exact resolveFrom_ordinary (by simpa using hname)
  have hout : ∀ b : Bytes, (if b.length + 1 + name.length + 1 > outsz then none
      else some (b ++ slash :: name)) = some path → resolve path = resolve b ++ [name] := by
    intro b hb
    split at hb
    · cases hb
    · rw [← Option.some.inj hb, resolve_base_name, hfields, hstep]
  by_cases hroot : base = [slash]
  · subst hroot
    exact hout [] h
  · refine hout base ?_
    unfold pathJoinFast at h
    rwa [if_neg hroot] at h

theorem prefix_of_resolvePath (hds : ∀ x ∈ ds, Ordinary x)
    (h : resolvePath (render ds) path = .ok norm) : ds <+: resolve path := by
  have hnorm := resolvePath_norm h
  unfold resolvePath at h
  split at h
  · cases h
  · split at h
    · rename_i out _ hunder
      rw [Except.ok.inj h, hnorm] at hunder
      exact (pathUnderRoot_iff hds fun c hc => ordinary_of_mem_resolve hc).mp hunder
    · cases h

/-- Below `/`, the first name is glued to the last one of another root. -/
theorem resolve_glued {init : List Bytes} {last c : Bytes} {cs : List Bytes}
    (hinit : ∀ x ∈ init, Ordinary x) (hlast : Ordinary last) (hc : Ordinary c)
    (hcs : ∀ x ∈ cs, Ordinary x) :
    resolve (render (init ++ [last]) ++ (c ++ join slash cs)) = init ++ [last ++ c] ++ cs := by
  have hglued : Ordinary (last ++ c) := by
    have hlen := List.length_pos_of_ne_nil hlast.1.1
    have hlen' := List.length_pos_of_ne_nil hc.1.1
    refine ⟨⟨by simp [hlast.1.1], ?_⟩, ?_, ?_⟩
    · rw [List.mem_append, not_or]
      exact ⟨hlast.1.2, hc.1.2⟩
    · intro heq
      have hdot := congrArg List.length heq
      rw [List.length_append] at hdot
      change last.length + c.length = 1 at hdot
      omega
    · intro heq
      have hdots := congrArg List.length heq
      rw [List.length_append] at hdots
      change last.length + c.length = 2 at hdots
      have hone : last.length = 1 := by omega
      have hhead : last = dot := by
        have htake := congrArg (List.take 1) heq
        rwa [List.take_append_of_le_length (by omega), List.take_of_length_le (by omega)] at htake
      exact hlast.2.1 hhead
  have hpath : render (init ++ [last]) ++ (c ++ join slash cs) =
      render (init ++ [last ++ c]) ++ join slash cs := by
    rw [render_eq_join (by simp), render_eq_join (by simp)]
    simp
  rw [hpath]
  refine Traversal.resolve_render_append_join ?_ hcs
  intro x hx
  rcases List.mem_append.mp hx with hx | hx
  · exact hinit x hx
  · rw [List.mem_singleton.mp hx]
    exact hglued

/-- The counterpart lies in its place, or outside the root. -/
theorem resolve_dstPathFor (hss : ∀ x ∈ ss, Ordinary x) (hds : ∀ x ∈ ds, Ordinary x)
    (h : Walked (render ss) rel path)
    (hdst : dstPathFor ⟨render ss, render ds⟩ path pathMax = some dst) :
    resolve dst = ds ++ rel ∨ ss = [] ∧ ∀ tail, ¬ ds <+: resolve dst ++ tail := by
  by_cases hs : ss = []
  · subst hs
    obtain ⟨rfl, hrel, -⟩ := h.spec hss
    rw [List.nil_append] at hdst
    unfold dstPathFor at hdst
    dsimp only at hdst
    rw [Traversal.drop_slash] at hdst
    split at hdst
    · cases hdst
    · obtain rfl := Option.some.inj hdst
      cases rel with
      | nil =>
        left
        simpa using resolve_render hds
      | cons c cs =>
        rw [join_cons, List.tail_cons]
        rcases ds.eq_nil_or_concat' with rfl | ⟨init, last, rfl⟩
        · left
          exact resolve_render hrel
        · right
          have hc := hrel c List.mem_cons_self
          rw [resolve_glued (fun x hx => hds x (by simp [hx])) (hds last (by simp)) hc
            fun x hx => hrel x (List.mem_cons_of_mem c hx)]
          refine ⟨rfl, fun tail hin => hc.1.1 ?_⟩
          rw [List.append_assoc, List.append_assoc, List.prefix_append_right_inj] at hin
          have hhead := (List.cons_prefix_cons.mp hin).1
          simpa using hhead
  · left
    have hmap := Traversal.mapsTo_of_src hss hds hs h
    unfold Traversal.MapsTo at hmap
    rwa [hdst] at hmap

end Place

section Works
variable {n : ℕ} {who : Fin n → Identity} {p : Plan} {P : Permit} {s t : Shared n} {c : Fin n}

theorem answer_begun {x : Choice} {call : Call} {r : call.Result}
    (h : answer who c s x call = some (r, t)) : t.begun = s.begun := by
  obtain ⟨⟨r', w⟩, -, heq⟩ := Option.map_eq_some_iff.mp h
  obtain ⟨rfl, rfl⟩ := Prod.mk.inj heq
  rfl

/-- A program of the run makes its next call. -/
theorem Works.advance {α : Type} {x : Choice} {m m' : Handler α} {post : Shared n → α → Prop}
    (hs : Tidy p s) (h : Works who p P c m post s)
    (hadv : Prog.advance (answer who c) s x m = some (t, m')) :
    Tidy p t ∧ Onward p P s t ∧ t.begun = s.begun ∧ Works who p P c m' post t := by
  cases m with
  | ret a => cases hadv
  | call call k =>
    obtain ⟨⟨r, u⟩, hanswer, heq⟩ := Option.map_eq_some_iff.mp hadv
    obtain ⟨rfl, rfl⟩ := Prod.mk.inj heq
    obtain ⟨hguar, hrest⟩ := h s (refl s) trivial x r u hanswer
    obtain ⟨hu, ho⟩ := hguar hs
    exact ⟨hu, ho, answer_begun hanswer, hrest⟩

theorem Works.moved {α : Type} {m : Handler α} {post : Shared n → α → Prop}
    (h : Works who p P c m post s) (ht : Tidy p t) (ho : Onward p P s t) :
    Works who p P c m post t :=
  Prog.Amid.moved h fun _ => ⟨ht, ho⟩

theorem permitted_of_harmless {call : Call} (h : harmless s call = true) :
    Permitted p P s call := by
  cases call with
  | mkdir | claimDir | settleDir => cases h
  | fchmod fd mode =>
    refine ⟨trivial, fun _ => False.elim, ?_, by simp⟩
    intro fd' mode' l heq _ hdir
    cases heq
    have hfile : (s.fs.node fd.ino).isDir = false := by simpa [harmless] using h
    rw [hdir.2] at hfile
    cases hfile
  | rename a b =>
    have hfile : s.fs.isDir (resolve a) = false := by simpa [harmless] using h
    exact ⟨hfile, fun _ => False.elim, by simp, by simp⟩
  | _ => exact permitted_of_plain trivial

/-- What is allowed to none is allowed to all. -/
theorem Onward.of_none (h : Onward p .none s t) : Onward p P s t :=
  ⟨h.next, h.kinds, h.begun, h.errors, h.kept, fun l i hi => (h.fresh l i hi).imp_right
    fun hnew => hnew.2.elim, h.mode⟩

end Works

/-- While it is copied, the counterparts of the directories that have been begun may be made. -/
def copyPermit (root : Loc) : Permit where
  allows := fun begun l => ∃ rel ∈ begun, l = root ++ rel
  mono := fun hsub ⟨rel, hrel, heq⟩ => ⟨rel, hsub hrel, heq⟩

section Invariant
variable {n : ℕ} {S : Setup n} {s : State n} {t : Shared n} {r : Record} {j : Job n}

def Setup.remote (S : Setup n) : Bool :=
  match S.destination with
  | .path _ _ _ => false
  | .server _ _ _ _ => true

/-- What is recorded is a directory that has been begun, with its place and its metadata. -/
structure Sound (S : Setup n) (roots : Roots) (begun : List (List Bytes)) (r : Record) : Prop where
  walked : Walked roots.src r.rel r.path
  begun : r.rel ∈ begun
  dst : dstPathFor roots r.path pathMax = some r.dst
  attr : S.source.lookup r.rel = some r.attr

/-- Since the way to the root was made, directories have been made only as counterparts. -/
structure Underway (S : Setup n) (s : State n) : Prop where
  names : ∀ x ∈ S.root, Ordinary x
  roots : ∃ ss, s.roots = ⟨render ss, render S.root⟩ ∧ (∀ x ∈ ss, Ordinary x) ∧
    (S.remote = false → ss ≠ [])
  config : ∀ c cfg, s.config c = some cfg → cfg.root = render S.root ∧ cfg.who = S.who c
  tidy : Tidy S.plan s.shared
  since : ∃ s₀ : Shared n, Paved S.base S.way s₀.fs ∧ (∀ l ∈ S.way, s₀.fs.entry l ≠ none) ∧
    Onward S.plan (copyPermit S.root) s₀ s.shared
  closed : ∀ rel ∈ s.shared.begun, ∀ k, k <+: rel → k ∈ s.shared.begun
  begun : ∀ rel ∈ s.shared.begun, (S.source.lookup rel).isSome = true
  queue : ∀ f ∈ s.queue, Walked s.roots.src f.rel f.path ∧
    ∀ k, k <+: f.rel → k ≠ f.rel → k ∈ s.shared.begun
  records : ∀ r ∈ s.records, Sound S s.roots s.shared.begun r
  tasks : ∀ j ∈ s.jobs, ∀ r, j.task = .begins r → Sound S s.roots s.shared.begun r

/-- Something has been counted as an error, or the directory has its mode. -/
def Done (S : Setup n) (t : Shared n) (rel : List Bytes) : Prop :=
  (∃ c, (t.mem c).errors ≠ []) ∨ Settled S.plan t (S.root ++ rel)

/-- What a job leaves behind. -/
def Outcome (S : Setup n) (j : Job n) (t : Shared n) (ok : Bool) : Prop :=
  ∀ r, j.task = .settles r → ok = true → Done S t r.rel

def Complete (S : Setup n) (s : State n) : Prop := ∀ e ∈ S.source, ∃ r ∈ s.records, r.rel = e.1

/-- A directory is still to be done, or it is under way, or it is done. -/
def Accounted (S : Setup n) (s : State n) (todo : List Record) (r : Record) : Prop :=
  r ∈ todo ∨ (∃ j ∈ s.jobs, j.task = .settles r) ∨ Done S s.shared r.rel

/-- Depending on how far the run is. -/
def Stage (S : Setup n) (s : State n) : Prop :=
  match s.phase with
  | .starting left => ∃ arg, (∃ fs tree hosts, S.destination = .server fs tree hosts arg) ∧
      (∃ ss, s.roots.src = render ss ∧ ∀ x ∈ ss, Ordinary x) ∧ s.jobs = [] ∧
      Onset S.base (serverWay arg) s.shared ∧
      ∀ c, Starts S.who S.base (serverWay arg) c (left c) (Answered arg) s.shared
  | .copying => Underway S s ∧ ∀ j ∈ s.jobs,
      Works S.who S.plan (copyPermit S.root) j.process j.rest (fun _ _ => True) s.shared
  | .finalizing todo => Underway S s ∧ (∀ r ∈ todo, r ∈ s.records) ∧
      (∀ j ∈ s.jobs, (∃ r, j.task = .settles r) ∧
        Works S.who S.plan .none j.process j.rest (Outcome S j) s.shared) ∧
      (s.failed = false → Complete S s ∧ ∀ r ∈ s.records, Accounted S s todo r)
  | .finished => s.jobs = [] ∧
      (s.failed = false → Underway S s ∧ Complete S s ∧ ∀ r ∈ s.records, Done S s.shared r.rel)

theorem Done.onward {rel : List Bytes} (h : Done S s.shared rel)
    (ho : Onward S.plan .none s.shared t) : Done S t rel := by
  rcases h with ⟨c, hc⟩ | hset
  · exact .inl ⟨c, ho.errors c hc⟩
  · exact .inr (hset.onward ho)

/-- The shared state has moved, and nothing else. -/
theorem Underway.move (h : Underway S s) (ht : Tidy S.plan t)
    (ho : Onward S.plan (copyPermit S.root) s.shared t) (hb : t.begun = s.shared.begun) :
    Underway S { s with shared := t } where
  names := h.names
  roots := h.roots
  config := h.config
  tidy := ht
  since := by
    obtain ⟨s₀, hpaved, hall, hsince⟩ := h.since
    exact ⟨s₀, hpaved, hall, hsince.trans ho⟩
  closed := hb ▸ h.closed
  begun := hb ▸ h.begun
  queue := hb ▸ h.queue
  records := hb ▸ h.records
  tasks := hb ▸ h.tasks

/-- The shared state has not moved. -/
theorem Underway.change (h : Underway S s) {phase : Phase n} {queue : List Found}
    {records : List Record} {jobs : List (Job n)} {failed : Bool}
    (hqueue : ∀ f ∈ queue, Walked s.roots.src f.rel f.path ∧
      ∀ k, k <+: f.rel → k ≠ f.rel → k ∈ s.shared.begun)
    (hrecords : ∀ r ∈ records, Sound S s.roots s.shared.begun r)
    (htasks : ∀ j ∈ jobs, ∀ r, j.task = .begins r → Sound S s.roots s.shared.begun r) :
    Underway S ⟨s.shared, phase, s.roots, s.config, queue, records, jobs, failed⟩ :=
  ⟨h.names, h.roots, h.config, h.tidy, h.since, h.closed, h.begun, hqueue, hrecords, htasks⟩

/-- The way to the root is there. -/
theorem Underway.above (h : Underway S s) {k : Loc} (hk : k <+: S.root) (hne : k ≠ S.root)
    (hroot : S.root ∈ S.way) : ∃ i, DirSteps.DirAt s.shared.fs k i := by
  obtain ⟨s₀, hpaved, hall, hsince⟩ := h.since
  have hentry := Option.ne_none_iff_isSome.mp (hall S.root hroot)
  obtain ⟨i, hi⟩ := DirSteps.exists_dirAt (hpaved.tree.isDir_of_prefix hentry hk hne)
  exact ⟨i, hsince.kept k i hi⟩

theorem root_mem_way (S : Setup n) : S.root ∈ S.way := by
  unfold Setup.way Setup.root
  cases S.destination with
  | path maker tuning dst => exact (List.mem_inits _ _).mpr (List.prefix_refl _)
  | server fs tree hosts arg => simp [serverWay]

/-- All the way to a counterpart there are directories, or they may be made. -/
theorem Underway.reach (h : Underway S s) {rel : List Bytes} (hrel : rel ∈ s.shared.begun)
    (hnames : ∀ x ∈ rel, Ordinary x) :
    Reach (copyPermit S.root) s.shared (S.root ++ rel) := by
  refine ⟨fun x hx => (List.mem_append.mp hx).elim (h.names x) (hnames x), fun k hk => ?_⟩
  by_cases hin : S.root <+: k
  · obtain ⟨k', rfl⟩ := hin
    rw [List.prefix_append_right_inj] at hk
    exact .inr ⟨k', h.closed rel hrel k' hk, rfl⟩
  · left
    have hout := (List.prefix_or_prefix_of_prefix hk (List.prefix_append S.root rel)).resolve_right hin
    refine h.above hout ?_ (root_mem_way S)
    rintro rfl
    exact hin (List.prefix_refl _)

/-- The names of what is recorded, and where it lies. -/
theorem Underway.place (h : Underway S s) (hr : Sound S s.roots s.shared.begun r) :
    (∀ x ∈ r.rel, Ordinary x) ∧
      (S.remote = false → resolve r.dst = S.root ++ r.rel) ∧
      (∀ norm, resolvePath (render S.root) r.dst = .ok norm → norm = render (S.root ++ r.rel)) ∧
      ∀ name path norm, Ordinary name → pathJoinFast r.dst name pathMax = some path →
        resolvePath (render S.root) path = .ok norm →
          (splitDirBase norm).1 = render (S.root ++ r.rel) := by
  obtain ⟨ss, hroots, hss, hlocal⟩ := h.roots
  obtain ⟨hwalked, -, hdst, -⟩ := hr
  rw [hroots] at hwalked hdst
  refine ⟨(hwalked.spec hss).2.1, ?_, ?_, ?_⟩
  · intro hremote
    rcases resolve_dstPathFor hss h.names hwalked hdst with hat | ⟨hnil, -⟩
    · exact hat
    · exact absurd hnil (hlocal hremote)
  · intro norm hnorm
    rcases resolve_dstPathFor hss h.names hwalked hdst with hat | ⟨-, hout⟩
    · rw [resolvePath_norm hnorm, hat]
    · have hin := prefix_of_resolvePath h.names hnorm
      exact absurd (by rwa [List.append_nil]) (hout [])
  · intro name path norm hname hjoin hnorm
    have hpath := resolve_pathJoinFast hname hjoin
    rcases resolve_dstPathFor hss h.names hwalked hdst with hat | ⟨-, hout⟩
    · rw [(resolve_split hnorm).1, hpath, List.dropLast_concat, hat]
    · have hin := prefix_of_resolvePath h.names hnorm
      rw [hpath] at hin
      exact absurd hin (hout [name])

theorem want_append (S : Setup n) (rel : List Bytes) :
    S.plan.want (S.root ++ rel) = (S.source.lookup rel).map fun m => bits m.mode := by
  change (if S.root <+: S.root ++ rel then
    (S.source.lookup ((S.root ++ rel).drop S.root.length)).map fun m => bits m.mode else none) = _
  rw [if_pos (List.prefix_append _ _), List.drop_left]

theorem Sound.want {roots : Roots} {begun : List (List Bytes)} (h : Sound S roots begun r) :
    S.plan.want (S.root ++ r.rel) = some (bits r.attr.mode) := by
  rw [want_append, h.attr]
  rfl

variable {u : State n} {c : Fin n}

theorem works_dirBegin (h : Underway S s) (hr : Sound S s.roots s.shared.begun r) (mode : UInt32) :
    Works S.who S.plan (copyPermit S.root) c (S.dirBegin r.dst mode)
      (fun _ _ => True) s.shared := by
  have hplace := (h.place hr).2.1
  unfold Setup.remote at hplace
  unfold Setup.dirBegin
  split
  · rename_i maker tuning dst hdest
    rw [hdest] at hplace
    have hfine : Fine (copyPermit S.root) s.shared (resolve r.dst) := by
      rw [hplace rfl]
      exact .inr ⟨r.rel, hr.begun, rfl⟩
    exact Works.bind h.tidy (works_openOrCreateTargetDirPath h.tidy hfine) fun t _ ht _ _ =>
      Works.ret ht fun _ _ _ => trivial
  · exact Works.ret h.tidy fun _ _ _ => trivial

theorem works_making {cfg : Config} {q : Request} {m : Handler Bool} (h : Underway S s)
    (hr : Sound S s.roots s.shared.begun r) (hcfg : s.config c = some cfg)
    (hm : making cfg r q = some m) :
    Works S.who S.plan (copyPermit S.root) c m (fun _ _ => True) s.shared := by
  obtain ⟨hnames, -, hat, hchild⟩ := h.place hr
  have hreach := h.reach hr.begun hnames
  rw [← (h.config c cfg hcfg).1] at hat hchild
  unfold making at hm
  split at hm
  · split at hm
    · rename_i path mode hdecode
      split at hm
      · rename_i heq
        subst heq
        rw [← Option.some.inj hm]
        exact Works.bind h.tidy (works_handleMkdir h.tidy hdecode hat hreach) fun t _ ht _ _ =>
          Works.ret ht fun _ _ _ => trivial
      · cases hm
    · cases hm
  · split at hm
    · rename_i hjoin
      rw [← Option.some.inj hm]
      refine Works.bind h.tidy (works_ensureParent h.tidy ?_ hreach) fun t _ ht _ _ =>
        Works.ret ht fun _ _ _ => trivial
      exact fun norm => hchild _ _ norm hjoin.1 hjoin.2
    · cases hm

theorem works_finalizeOne {payload : Bytes} {m : Handler Bool} (h : Underway S s)
    (hr : Sound S s.roots s.shared.begun r) (hm : S.finalizeOne (s.config c) r payload = some m) :
    Works S.who S.plan .none c m (fun t ok => ok = true → Done S t r.rel) s.shared := by
  obtain ⟨hnames, hlocal, hat, -⟩ := h.place hr
  have hall : ∀ x ∈ S.root ++ r.rel, Ordinary x :=
    fun x hx => (List.mem_append.mp hx).elim (h.names x) (hnames x)
  unfold Setup.finalizeOne at hm
  split at hm
  · rename_i maker tuning dst hdest
    have hwho : S.who c = maker.who := by
      unfold Setup.who
      rw [hdest]
    have hremote : S.remote = false := by
      unfold Setup.remote
      rw [hdest]
    rw [← Option.some.inj hm, ← hwho]
    exact (works_preservePathMetadata (hlocal hremote) hr.want h.tidy).mono
      fun t ok hset hok => .inr (hset hok)
  · rename_i cfg hdest hcfg
    split at hm
    · rename_i hdecode
      obtain ⟨hroot, hwho⟩ := h.config c cfg hcfg
      rw [← hroot] at hat
      have hwant : S.plan.want (S.root ++ r.rel) = some (bits (sent r.attr).mode) := by
        rw [hr.want]
        exact congrArg some (bits_and _).symm
      rw [← Option.some.inj hm]
      refine Works.bind h.tidy (works_handleSetmeta hwho hdecode hall hat hwant h.tidy) ?_
      intro t _ ht _ hdone
      refine Works.ret ht fun u _ ho _ => ?_
      rcases hdone with herr | hset
      · exact .inl ⟨c, ho.errors c herr⟩
      · exact .inr (hset.onward ho)
    · cases hm
  · cases hm

theorem Underway.task_set (h : Underway S s) {i : ℕ} {m : Handler Bool} (hj : s.jobs[i]? = some j) :
    ∀ k ∈ s.jobs.set i { j with rest := m }, ∀ r, k.task = .begins r →
      Sound S s.roots s.shared.begun r := by
  intro k hk r hr
  rcases List.mem_or_eq_of_mem_set hk with hk | rfl
  · exact h.tasks k hk r hr
  · exact h.tasks j (List.mem_of_getElem? hj) r hr

theorem stage_advance {i : ℕ} {x : Choice} (h : Stage S s) (hs : next S s (.advance i x) = some u) :
    Stage S u := by
  simp only [next] at hs
  split at hs
  swap
  · cases hs
  rename_i j hj
  have hmem := List.mem_of_getElem? hj
  obtain ⟨⟨t, j'⟩, hadv, rfl⟩ := Option.map_eq_some_iff.mp hs
  obtain ⟨⟨t', m⟩, hrest, heq⟩ := Option.map_eq_some_iff.mp hadv
  obtain ⟨rfl, rfl⟩ := Prod.mk.inj heq
  unfold Stage at h ⊢
  dsimp only at hrest ⊢
  cases hphase : s.phase with
  | starting left =>
    rw [hphase] at h
    obtain ⟨-, -, -, hnone, -⟩ := h
    rw [hnone] at hmem
    cases hmem
  | finished =>
    rw [hphase] at h
    rw [h.1] at hmem
    cases hmem
  | copying =>
    rw [hphase] at h
    obtain ⟨hway, hjobs⟩ := h
    obtain ⟨ht, ho, hb, hm⟩ := (hjobs j hmem).advance hway.tidy hrest
    refine ⟨(hway.move ht ho hb).change (hb ▸ hway.queue) (hb ▸ hway.records)
      (hb ▸ hway.task_set hj), fun k hk => ?_⟩
    rcases List.mem_or_eq_of_mem_set hk with hk | rfl
    · exact (hjobs k hk).moved ht ho
    · exact hm
  | finalizing todo =>
    rw [hphase] at h
    obtain ⟨hway, htodo, hjobs, hall⟩ := h
    obtain ⟨ht, ho, hb, hm⟩ := (hjobs j hmem).2.advance hway.tidy hrest
    refine ⟨(hway.move ht ho.of_none hb).change (hb ▸ hway.queue) (hb ▸ hway.records)
      (hb ▸ hway.task_set hj), htodo, fun k hk => ?_, fun hok => ⟨(hall hok).1, fun r hr => ?_⟩⟩
    · rcases List.mem_or_eq_of_mem_set hk with hk | rfl
      · exact ⟨(hjobs k hk).1, (hjobs k hk).2.moved ht ho⟩
      · exact ⟨(hjobs j hmem).1, hm⟩
    · rcases (hall hok).2 r hr with hleft | ⟨k, hk, htask⟩ | hdone
      · exact .inl hleft
      · refine .inr (.inl ?_)
        obtain ⟨a, ha⟩ := List.mem_iff_getElem?.mp hk
        by_cases hai : a = i
        · subst hai
          rw [hj] at ha
          cases ha
          exact ⟨_, List.mem_set (List.getElem?_eq_some_iff.mp hj).1 _, htask⟩
        · refine ⟨k, ?_, htask⟩
          exact List.mem_iff_getElem?.mpr ⟨a, by rw [List.getElem?_set_ne (Ne.symm hai), ha]⟩
      · exact .inr (.inr (hdone.onward ho))

theorem stage_other {x : Choice} {call : Call} (h : Stage S s)
    (hs : next S s (.other c x call) = some u) : Stage S u := by
  simp only [next] at hs
  split at hs
  · rename_i hphase
    split at hs
    · rename_i hharm
      obtain ⟨⟨r, t⟩, hanswer, rfl⟩ := Option.map_eq_some_iff.mp hs
      unfold Stage at h ⊢
      rw [hphase] at h
      dsimp only
      rw [hphase]
      obtain ⟨hway, hjobs⟩ := h
      obtain ⟨ht, ho⟩ := onward_of_answer hway.tidy (permitted_of_harmless hharm) hanswer
      have hb := answer_begun hanswer
      exact ⟨(hway.move ht ho hb).change (hb ▸ hway.queue) (hb ▸ hway.records) (hb ▸ hway.tasks),
        fun k hk => (hjobs k hk).moved ht ho⟩
    · cases hs
  · rename_i todo hphase
    split at hs
    · rename_i hharm
      obtain ⟨⟨r, t⟩, hanswer, rfl⟩ := Option.map_eq_some_iff.mp hs
      unfold Stage at h ⊢
      rw [hphase] at h
      dsimp only
      rw [hphase]
      obtain ⟨hway, htodo, hjobs, hall⟩ := h
      have hmoved := onward_of_answer (P := .none) hway.tidy (permitted_of_harmless hharm) hanswer
      obtain ⟨ht, ho⟩ := hmoved
      have hb := answer_begun hanswer
      refine ⟨(hway.move ht ho.of_none hb).change (hb ▸ hway.queue) (hb ▸ hway.records)
        (hb ▸ hway.tasks), htodo, fun k hk => ⟨(hjobs k hk).1, (hjobs k hk).2.moved ht ho⟩,
        fun hok => ⟨(hall hok).1, fun r hr => ?_⟩⟩
      exact ((hall hok).2 r hr).imp_right fun hrest => hrest.imp_right fun hdone => hdone.onward ho
    · cases hs
  · cases hs

theorem stage_found {k : ℕ} {name : Bytes} (h : Stage S s)
    (hs : next S s (.found k name) = some u) : Stage S u := by
  simp only [next] at hs
  split at hs
  swap
  · cases hs
  rename_i r hphase hr
  split at hs
  swap
  · cases hs
  rename_i hname
  unfold Stage at h
  rw [hphase] at h
  obtain ⟨hway, hjobs⟩ := h
  have hrec := hway.records r (List.mem_of_getElem? hr)
  split at hs
  · cases hs
    unfold Stage
    dsimp only
    rw [hphase]
    exact ⟨hway.change hway.queue hway.records hway.tasks, hjobs⟩
  · rename_i path hjoin
    cases hs
    unfold Stage
    dsimp only
    rw [hphase]
    refine ⟨hway.change ?_ hway.records hway.tasks, hjobs⟩
    intro f hf
    rcases List.mem_append.mp hf with hf | hf
    · exact hway.queue f hf
    · rw [List.mem_singleton.mp hf]
      refine ⟨hrec.walked.child hname.1 hjoin, fun k hk hne => ?_⟩
      exact hway.closed r.rel hrec.begun k ((List.prefix_concat_iff.mp hk).resolve_left hne)

/-- A directory has been begun. -/
theorem Underway.begin (h : Underway S s) {f : Found} {attr : Meta} (hf : f ∈ s.queue)
    (hattr : S.source.lookup f.rel = some attr) :
    Underway S { s with shared := { s.shared with begun := f.rel :: s.shared.begun } } ∧
      Onward S.plan (copyPermit S.root) s.shared
        { s.shared with begun := f.rel :: s.shared.begun } := by
  have hsub : s.shared.begun ⊆ f.rel :: s.shared.begun := List.subset_cons_self _ _
  have ho : Onward S.plan (copyPermit S.root) s.shared
      { s.shared with begun := f.rel :: s.shared.begun } :=
    ⟨le_refl _, fun _ _ => rfl, hsub, fun _ hc => hc, fun _ _ hi => hi, fun _ _ hi => .inl hi,
      fun _ _ _ _ => .inl rfl⟩
  have hsound : ∀ {r : Record}, Sound S s.roots s.shared.begun r →
      Sound S s.roots (f.rel :: s.shared.begun) r :=
    fun hr => ⟨hr.walked, hsub hr.begun, hr.dst, hr.attr⟩
  have hdirs := (h.queue f hf).2
  refine ⟨⟨h.names, h.roots, h.config, ?_, ?_, ?_, ?_, ?_, ?_, ?_⟩, ho⟩
  · exact ⟨h.tidy.tree, h.tidy.next, h.tidy.unique, h.tidy.cached⟩
  · obtain ⟨s₀, hpaved, hall, hsince⟩ := h.since
    exact ⟨s₀, hpaved, hall, hsince.trans ho⟩
  · intro rel hrel k hk
    rcases List.mem_cons.mp hrel with rfl | hrel
    · by_cases hne : k = f.rel
      · rw [hne]
        exact List.mem_cons_self
      · exact hsub (hdirs k hk hne)
    · exact hsub (h.closed rel hrel k hk)
  · intro rel hrel
    rcases List.mem_cons.mp hrel with rfl | hrel
    · rw [hattr]
      rfl
    · exact h.begun rel hrel
  · exact fun g hg => ⟨(h.queue g hg).1, fun k hk hne => hsub ((h.queue g hg).2 k hk hne)⟩
  · exact fun r hr => hsound (h.records r hr)
  · exact fun j hj r hr => hsound (h.tasks j hj r hr)

theorem stage_begin {i : ℕ} (h : Stage S s) (hs : next S s (.begin i c) = some u) : Stage S u := by
  simp only [next] at hs
  split at hs
  swap
  · cases hs
  rename_i f hphase hf
  unfold Stage at h
  rw [hphase] at h
  obtain ⟨hway, hjobs⟩ := h
  have hmem := List.mem_of_getElem? hf
  split at hs
  · rename_i dst attr hdst hattr
    cases hs
    obtain ⟨hbegun, ho⟩ := hway.begin hmem hattr
    have hsound : Sound S s.roots (f.rel :: s.shared.begun) ⟨f, dst, attr⟩ :=
      ⟨(hway.queue f hmem).1, List.mem_cons_self, hdst, hattr⟩
    unfold Stage
    dsimp only
    rw [hphase]
    refine ⟨hbegun.change ?_ hbegun.records ?_, ?_⟩
    · exact fun g hg => hbegun.queue g (List.mem_of_mem_eraseIdx hg)
    · refine List.forall_mem_append.mpr ⟨hbegun.tasks, List.forall_mem_singleton.mpr ?_⟩
      intro r hr
      cases hr
      exact hsound
    · refine List.forall_mem_append.mpr ⟨?_, List.forall_mem_singleton.mpr ?_⟩
      · exact fun j hj => (hjobs j hj).moved hbegun.tidy ho
      · exact works_dirBegin hbegun hsound attr.mode
  · cases hs
    unfold Stage
    dsimp only
    rw [hphase]
    refine ⟨hway.change ?_ hway.records hway.tasks, hjobs⟩
    exact fun g hg => hway.queue g (List.mem_of_mem_eraseIdx hg)

theorem stage_send {k : ℕ} {q : Request} (h : Stage S s) (hs : next S s (.send k c q) = some u) :
    Stage S u := by
  simp only [next] at hs
  split at hs
  swap
  · cases hs
  rename_i r cfg hphase hr hcfg
  obtain ⟨m, hm, rfl⟩ := Option.map_eq_some_iff.mp hs
  unfold Stage at h ⊢
  rw [hphase] at h
  dsimp only
  rw [hphase]
  obtain ⟨hway, hjobs⟩ := h
  refine ⟨hway.change hway.queue hway.records ?_, ?_⟩
  · refine List.forall_mem_append.mpr ⟨hway.tasks, List.forall_mem_singleton.mpr ?_⟩
    intro r' hr'
    cases hr'
  · refine List.forall_mem_append.mpr ⟨hjobs, List.forall_mem_singleton.mpr ?_⟩
    exact works_making hway (hway.records r (List.mem_of_getElem? hr)) hcfg hm

theorem stage_ended {i : ℕ} (h : Stage S s) (hs : next S s (.ended i) = some u) : Stage S u := by
  simp only [next] at hs
  split at hs
  swap
  · cases hs
  rename_i c ok task hj
  have hmem := List.mem_of_getElem? hj
  obtain rfl := Option.some.inj hs
  unfold Stage at h
  cases hphase : s.phase with
  | starting left =>
    rw [hphase] at h
    obtain ⟨-, -, -, hnone, -⟩ := h
    rw [hnone] at hmem
    cases hmem
  | finished =>
    rw [hphase] at h
    rw [h.1] at hmem
    cases hmem
  | copying =>
    rw [hphase] at h
    obtain ⟨hway, hjobs⟩ := h
    have htasks : ∀ j ∈ s.jobs.eraseIdx i, ∀ r, j.task = .begins r →
        Sound S s.roots s.shared.begun r :=
      fun j hj => hway.tasks j (List.mem_of_mem_eraseIdx hj)
    have hleft : ∀ j ∈ s.jobs.eraseIdx i,
        Works S.who S.plan (copyPermit S.root) j.process j.rest (fun _ _ => True) s.shared :=
      fun j hj => hjobs j (List.mem_of_mem_eraseIdx hj)
    cases task with
    | begins r =>
      cases ok with
      | true =>
        unfold Stage State.close
        dsimp only
        rw [if_pos rfl, hphase]
        refine ⟨hway.change hway.queue ?_ htasks, hleft⟩
        intro r' hr'
        rcases List.mem_append.mp hr' with hr' | hr'
        · exact hway.records r' hr'
        · rw [List.mem_singleton.mp hr']
          exact hway.tasks _ hmem r rfl
      | false =>
        unfold Stage State.close
        dsimp only
        rw [if_neg Bool.false_ne_true, hphase]
        exact ⟨hway.change hway.queue hway.records htasks, hleft⟩
    | makes =>
      unfold Stage State.close
      dsimp only
      rw [hphase]
      exact ⟨hway.change hway.queue hway.records htasks, hleft⟩
    | settles r =>
      unfold Stage State.close
      dsimp only
      rw [hphase]
      exact ⟨hway.change hway.queue hway.records htasks, hleft⟩
  | finalizing todo =>
    rw [hphase] at h
    obtain ⟨hway, htodo, hjobs, hall⟩ := h
    obtain ⟨⟨r, rfl⟩, hworks⟩ := hjobs _ hmem
    unfold Stage State.close
    dsimp only
    rw [hphase]
    refine ⟨hway.change hway.queue hway.records fun j hj =>
      hway.tasks j (List.mem_of_mem_eraseIdx hj), htodo,
      fun j hj => hjobs j (List.mem_of_mem_eraseIdx hj), fun hnot => ?_⟩
    obtain ⟨hfailed, hok⟩ := Bool.or_eq_false_iff.mp hnot
    refine ⟨(hall hfailed).1, fun r' hr' => ?_⟩
    rcases (hall hfailed).2 r' hr' with hleft | ⟨k, hk, htask⟩ | hdone
    · exact .inl hleft
    · obtain ⟨a, ha⟩ := List.mem_iff_getElem?.mp hk
      by_cases hai : a = i
      · subst hai
        rw [hj] at ha
        cases ha
        exact .inr (.inr (hworks s.shared (refl _) r' htask (by simpa using hok)))
      · exact .inr (.inl ⟨k, List.mem_eraseIdx_iff_getElem?.mpr ⟨a, hai, ha⟩, htask⟩)
    · exact .inr (.inr hdone)

theorem stage_finalize (h : Stage S s) (hs : next S s .finalize = some u) : Stage S u := by
  simp only [next] at hs
  split at hs
  swap
  · cases hs
  rename_i hphase
  split at hs
  swap
  · cases hs
  rename_i hready
  obtain rfl := Option.some.inj hs
  unfold Stage at h ⊢
  rw [hphase] at h
  obtain ⟨hway, -⟩ := h
  have hnone : s.jobs = [] := List.isEmpty_iff.mp hready.2.1
  refine ⟨hway.change hway.queue hway.records hway.tasks, fun _ hr => hr, ?_, fun hok => ⟨?_, ?_⟩⟩
  · dsimp only
    rw [hnone]
    exact fun j hj => absurd hj List.not_mem_nil
  · exact hready.2.2.resolve_left (by rw [show s.failed = false from hok]; decide)
  · exact fun r hr => .inl hr

theorem stage_settle {i : ℕ} {payload : Bytes} (h : Stage S s)
    (hs : next S s (.settle i c payload) = some u) : Stage S u := by
  simp only [next] at hs
  split at hs
  swap
  · cases hs
  rename_i todo hphase
  split at hs
  swap
  · cases hs
  rename_i r hr
  obtain ⟨m, hm, rfl⟩ := Option.map_eq_some_iff.mp hs
  unfold Stage at h ⊢
  rw [hphase] at h
  dsimp only
  obtain ⟨hway, htodo, hjobs, hall⟩ := h
  have hsound := hway.records r (htodo r (List.mem_of_getElem? hr))
  refine ⟨hway.change hway.queue hway.records ?_, fun r' hr' =>
    htodo r' (List.mem_of_mem_eraseIdx hr'), ?_, fun hok => ⟨(hall hok).1, fun r' hr' => ?_⟩⟩
  · refine List.forall_mem_append.mpr ⟨hway.tasks, List.forall_mem_singleton.mpr ?_⟩
    intro r' hr'
    cases hr'
  · refine List.forall_mem_append.mpr ⟨hjobs, List.forall_mem_singleton.mpr ?_⟩
    refine ⟨⟨r, rfl⟩, (works_finalizeOne hway hsound hm).mono fun t ok hdone r' heq hok => ?_⟩
    cases heq
    exact hdone hok
  · rcases (hall hok).2 r' hr' with hleft | ⟨k, hk, htask⟩ | hdone
    · obtain ⟨a, ha⟩ := List.mem_iff_getElem?.mp hleft
      by_cases hai : a = i
      · subst hai
        rw [hr] at ha
        cases ha
        exact .inr (.inl ⟨_, List.mem_append_right _ (List.mem_singleton_self _), rfl⟩)
      · exact .inl (List.mem_eraseIdx_iff_getElem?.mpr ⟨a, hai, ha⟩)
    · exact .inr (.inl ⟨k, List.mem_append_left _ hk, htask⟩)
    · exact .inr (.inr hdone)

theorem stage_finish (h : Stage S s) (hs : next S s .finish = some u) : Stage S u := by
  simp only [next] at hs
  split at hs
  swap
  · cases hs
  rename_i hphase
  split at hs
  swap
  · cases hs
  rename_i hempty
  obtain rfl := Option.some.inj hs
  unfold Stage at h ⊢
  rw [hphase] at h
  obtain ⟨hway, -, -, hall⟩ := h
  have hnone : s.jobs = [] := List.isEmpty_iff.mp hempty
  refine ⟨hnone, fun hok => ⟨hway.change hway.queue hway.records hway.tasks, (hall hok).1,
    fun r hr => ?_⟩⟩
  rcases (hall hok).2 r hr with hleft | ⟨k, hk, -⟩ | hdone
  · cases hleft
  · rw [hnone] at hk
    cases hk
  · exact hdone

theorem stage_lose (h : Stage S s) (hs : next S s .lose = some u) : Stage S u := by
  simp only [next] at hs
  split at hs
  · rename_i hphase
    cases hs
    unfold Stage at h ⊢
    rw [hphase] at h
    dsimp only
    rw [hphase]
    exact ⟨h.1.change h.1.queue h.1.records h.1.tasks, h.2⟩
  · rename_i todo hphase
    cases hs
    unfold Stage at h ⊢
    rw [hphase] at h
    dsimp only
    rw [hphase]
    exact ⟨h.1.change h.1.queue h.1.records h.1.tasks, h.2.1, h.2.2.1, fun hok => nomatch hok⟩
  · cases hs

theorem tidy_of_paved {p : Plan} {way : List Loc} (h : Paved p.base way t.fs)
    (hblank : ∀ c d, (t.mem c).dirCache d = none) : Tidy p t where
  tree := h.tree
  next := h.next
  unique := fun l l' i hi hl hl' => h.unique l l' i hi hl.1 hl'.1
  cached := by
    intro c d m hd
    rw [hblank] at hd
    cases hd

/-- The way to the root is there, and the walk begins. -/
theorem stage_copying {ss : List Bytes} {src dst : Bytes} {config : Fin n → Option Config}
    (hpaved : Paved S.base S.way t.fs) (hall : ∀ l ∈ S.way, t.fs.entry l ≠ none)
    (hblank : ∀ c d, (t.mem c).dirCache d = none) (hbegun : t.begun = [])
    (hsrc : src = render ss) (hss : ∀ x ∈ ss, Ordinary x) (hlocal : S.remote = false → ss ≠ [])
    (hdst : dst = render S.root) (hnames : ∀ x ∈ S.root, Ordinary x)
    (hconfig : ∀ c cfg, config c = some cfg → cfg.root = render S.root ∧ cfg.who = S.who c) :
    Stage S (copying t config src dst) := by
  unfold copying
  cases hroots : traversalStart src dst with
  | none => exact ⟨rfl, fun hok => nomatch hok⟩
  | some roots =>
    have heq : roots = ⟨render ss, render S.root⟩ := by
      unfold traversalStart at hroots
      split at hroots
      · cases hroots
      · rw [← Option.some.inj hroots, hsrc, hdst]
    subst heq
    refine ⟨⟨hnames, ⟨ss, rfl, hss, hlocal⟩, hconfig, tidy_of_paved hpaved hblank,
      ⟨t, hpaved, hall, .refl t⟩, ?_, ?_, ?_, ?_, ?_⟩, ?_⟩
    · dsimp only
      rw [hbegun]
      exact fun rel hrel => absurd hrel List.not_mem_nil
    · dsimp only
      rw [hbegun]
      exact fun rel hrel => absurd hrel List.not_mem_nil
    · intro f hf
      rw [List.mem_singleton.mp hf]
      exact ⟨Walked.root, fun k hk hne => absurd (List.prefix_nil.mp hk) hne⟩
    · exact fun r hr => absurd hr List.not_mem_nil
    · exact fun j hj => absurd hj List.not_mem_nil
    · exact fun j hj => absurd hj List.not_mem_nil

theorem start_local {maker : Maker} {cfg : Workers.SmallCopy.Tuning} {dst : Bytes} {fs : Fs}
    {roots : Roots} {fresh : Bool} (h : S.destination = .path maker cfg dst)
    (hroots : S.localStart maker dst = (fs, some (roots, fresh))) :
    S.start = copying (blank fs) (fun _ => none) roots.src roots.dst := by
  unfold Setup.start
  rw [h]
  dsimp only
  rw [hroots]

theorem root_local {maker : Maker} {cfg : Workers.SmallCopy.Tuning} {dst : Bytes} {fs : Fs}
    {roots : Roots} {fresh : Bool} (h : S.destination = .path maker cfg dst)
    (hroots : S.localStart maker dst = (fs, some (roots, fresh))) : S.root = resolve roots.dst := by
  unfold Setup.root
  rw [h]
  dsimp only
  rw [hroots]

theorem stage_start (S : Setup n) : Stage S S.start := by
  unfold Setup.start
  cases hdest : S.destination with
  | path maker tuning dst =>
    dsimp only
    split
    · exact ⟨rfl, fun hok => nomatch hok⟩
    · rename_i fs roots fresh hlocal
      obtain ⟨b, d, rfl, hb, hd, hne, hpaved, hdir⟩ :=
        paved_localRoots (m := { maker with umask := 0 }) rfl hlocal
      have hroot : S.root = d := by
        rw [root_local hdest hlocal]
        exact resolve_render hd
      have hway : S.way = d.inits := by
        unfold Setup.way
        rw [hdest]
        dsimp only
        rw [hroot]
      have hbase : S.base = S.client.fs := by
        unfold Setup.base
        rw [hdest]
      refine stage_copying (by rw [hbase, hway]; exact hpaved) ?_ (fun _ _ => rfl) rfl rfl hb
        (fun _ => hne) (by rw [hroot]) (by rw [hroot]; exact hd) (fun _ _ h => nomatch h)
      intro l hl
      rw [hway, List.mem_inits] at hl
      obtain ⟨i, hi, -⟩ := DirSteps.exists_dirAt hdir
      have hdirs : fs.isDir l = true := by
        by_cases hld : l = d
        · rw [hld]
          exact hdir
        · exact hpaved.tree.isDir_of_prefix (by rw [hi]; rfl) hl hld
      obtain ⟨j, hj, -⟩ := DirSteps.exists_dirAt hdirs
      change fs.entry l ≠ none
      rw [hj]
      exact Option.some_ne_none j
  | server fs tree hosts arg =>
    dsimp only
    split
    · exact ⟨rfl, fun hok => nomatch hok⟩
    · rename_i src hsrc
      have hbase : S.base = fs := by
        unfold Setup.base
        rw [hdest]
      have honset : Onset S.base (serverWay arg) (blank (n := n) fs) := by
        refine ⟨?_, fun _ _ => rfl, rfl⟩
        rw [hbase]
        exact .refl tree _
      exact ⟨arg, ⟨fs, tree, hosts, hdest⟩, Traversal.toCanonicalDirPath_eq_some hsrc, rfl, honset,
        fun c => starts_serverStart honset⟩

theorem stage_connect (h : Stage S s) (hs : next S s (.connect c) = some u) : Stage S u := by
  simp only [next] at hs
  split at hs
  swap
  · cases hs
  rename_i left hphase
  split at hs
  swap
  · cases hs
  obtain ⟨named, hnamed, rfl⟩ := Option.map_eq_some_iff.mp hs
  unfold Stage at h
  rw [hphase] at h
  obtain ⟨arg, ⟨fs, tree, hosts, hdest⟩, ⟨ss, hsrc, hss⟩, -, honset, hstarts⟩ := h
  have hroot : S.root = resolve arg := by
    unfold Setup.root
    rw [hdest]
  have hway : S.way = serverWay arg := by
    unfold Setup.way
    rw [hdest]
  have hremote : S.remote = true := by
    unfold Setup.remote
    rw [hdest]
  have hanswered : ∀ d out, answerOf (left d) = some out →
      out.1 = render (resolve arg) ∧ ∀ l ∈ serverWay arg, s.shared.fs.entry l ≠ none := by
    intro d out hout
    have hd := hstarts d
    cases hleft : left d with
    | call call k =>
      rw [hleft] at hout
      cases hout
    | ret a =>
      rw [hleft] at hout hd
      obtain rfl : a = some out := hout
      exact hd s.shared (refl _) out.1 out.2 rfl
  refine stage_copying (by rw [hway]; exact honset.paved) ?_ honset.blank honset.begun hsrc hss
    (fun hfalse => by rw [hremote] at hfalse; cases hfalse) ?_ ?_ ?_
  · rw [hway]
    exact (hanswered c named hnamed).2
  · rw [hroot]
    exact (hanswered c named hnamed).1
  · rw [hroot]
    exact fun x hx => ordinary_of_mem_resolve hx
  · intro d cfg hcfg
    obtain ⟨out, hout, hcfg⟩ := Option.bind_eq_some_iff.mp hcfg
    unfold Setup.config at hcfg
    unfold Setup.who
    rw [hdest] at hcfg ⊢
    obtain rfl := Option.some.inj hcfg
    rw [hroot]
    exact ⟨(hanswered d out hout).1, rfl⟩

theorem stage_startStep {x : Choice} (h : Stage S s) (hs : next S s (.start c x) = some u) :
    Stage S u := by
  simp only [next] at hs
  split at hs
  swap
  · cases hs
  rename_i left hphase
  obtain ⟨⟨t, m⟩, hadv, rfl⟩ := Option.map_eq_some_iff.mp hs
  unfold Stage at h ⊢
  rw [hphase] at h
  dsimp only
  obtain ⟨arg, hdest, hsrc, hnone, honset, hstarts⟩ := h
  have hc := hstarts c
  cases hleft : left c with
  | ret a =>
    rw [hleft] at hadv
    cases hadv
  | call call k =>
    rw [hleft] at hadv hc
    obtain ⟨⟨r, t'⟩, hanswer, heq⟩ := Option.map_eq_some_iff.mp hadv
    obtain ⟨rfl, rfl⟩ := Prod.mk.inj heq
    obtain ⟨hguar, hk⟩ := hc s.shared (refl _) trivial x r t' hanswer
    refine ⟨arg, hdest, hsrc, hnone, (hguar honset).1, fun d => ?_⟩
    by_cases hdc : d = c
    · subst hdc
      rw [Function.update_self]
      exact hk
    · rw [Function.update_of_ne hdc]
      exact Prog.Amid.moved (hstarts d) hguar

/-- Every step of a run. -/
theorem next_stage {a : Action n} (h : Stage S s) (hs : next S s a = some u) : Stage S u := by
  cases a with
  | start c x => exact stage_startStep h hs
  | connect c => exact stage_connect h hs
  | found k name => exact stage_found h hs
  | begin i c => exact stage_begin h hs
  | lose => exact stage_lose h hs
  | send k c q => exact stage_send h hs
  | other c x call => exact stage_other h hs
  | advance i x => exact stage_advance h hs
  | ended i => exact stage_ended h hs
  | finalize => exact stage_finalize h hs
  | settle i c payload => exact stage_settle h hs
  | finish => exact stage_finish h hs

end Invariant

end Ecopy.Metadata.DirMakers
