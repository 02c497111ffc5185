import Ecopy.Server.ConfinedHandlers

/-!
# Confined runs of the server

When the server starts to serve, its root exists and can be walked to: the chain
of `mkdir` calls has ended in success or in `EEXIST`, or, for a read-only
server, `lstat` has found a directory. From then on every run whose frames do
not aim out of the root changes names below the root only, whatever the order
of the pool's jobs and whatever calls fail.
-/
namespace Ecopy.Server
open Protocol Ecopy.Path FileSystem Lib.Calls Lib.Runs

section Start
variable {host : Host} {root : Bytes} {w v : World} {x : Choice}

/-- The way to `r` exists. -/
def Ready (r : Loc) (fs : Fs) : Prop :=
  (∀ l, l <+: r → l ≠ r → fs.isDir l = true) ∧ (fs.entry r).isSome = true

/-- A process that has not served anything yet. -/
structure Fresh (w : World) : Prop where
  sane : w.fs.Sane
  files : w.files = []
  cache : w.dirCache = fun _ => none

theorem ready_of_parents {fs : Fs} {l : Loc} (hp : fs.parentError l = none)
    (he : (fs.entry l).isSome = true) : Ready l fs := by
  refine ⟨?_, he⟩
  intro d hd hne
  refine Fs.parentError_eq_none_iff.mp hp d ?_
  rcases l.eq_nil_or_concat with rfl | ⟨init, last, rfl⟩
  · exact absurd (List.prefix_nil.mp hd) hne
  · rw [List.concat_eq_append, List.dropLast_concat] at *
    exact (List.prefix_concat_iff.mp hd).resolve_left hne

/-- Only an existing name is refused with `EEXIST`. -/
theorem ready_of_add_eexist {fs : Fs} (hs : fs.Sane) {l : Loc} {n : Node}
    (h : fs.add l n = .error .eexist) : Ready l fs := by
  unfold Fs.add at h
  split at h
  · rename_i hnil
    subst hnil
    refine ⟨fun l hl hne => absurd (List.prefix_nil.mp hl) hne, ?_⟩
    have htop := hs.top
    unfold Fs.isDir at htop
    split at htop
    · cases htop
    · rename_i he
      rw [he]
      rfl
  split at h
  · rename_i e he
    rw [Except.error.inj h] at he
    exact absurd rfl (Fs.walkDir_ne_eexist he)
  · rename_i hp
    split at h
    · rename_i he
      exact ready_of_parents hp he
    · cases h

theorem ready_of_add {fs fs' : Fs} (hs : fs.Sane) {l : Loc} {n : Node}
    (h : fs.add l n = .ok fs') : Ready l fs' := by
  have hw := Fs.within_add h
  unfold Fs.add at h
  split at h
  · cases h
  split at h
  · cases h
  rename_i hp
  split at h
  · cases h
  obtain rfl := Except.ok.inj h
  have hparents : ∀ d, d <+: l.dropLast → (fs.create l n).isDir d = true := by
    intro d hd
    have hdir := Fs.parentError_eq_none_iff.mp hp d hd
    rwa [hw.isDir hs.bounded]
    rintro ⟨-, hnone⟩
    simp [Fs.isDir, hnone] at hdir
  refine ready_of_parents (Fs.parentError_eq_none_iff.mpr hparents) ?_
  simp [Fs.create]

theorem Fresh.mkdir {who : Identity} {p : Bytes} {mode : UInt32} {res : Except Errno Unit}
    (hw : Fresh w) (h : answer who w x (.mkdir p mode) = some (res, v)) :
    Fresh v ∧ (res = .ok () ∨ res = .error .eexist → Ready (resolve p) v.fs) := by
  have heq := Option.some.inj h
  simp only [World.change] at heq
  split at heq
  · rename_i f _
    obtain ⟨rfl, rfl⟩ := Prod.mk.inj heq
    refine ⟨hw, ?_⟩
    rintro (hres | hres)
    · cases hres
    · exact absurd (Except.error.inj hres) f.errno_ne_eexist
  split at heq
  · rename_i e he
    obtain ⟨rfl, rfl⟩ := Prod.mk.inj heq
    refine ⟨hw, ?_⟩
    rintro (hres | hres)
    · cases hres
    · obtain rfl := Except.error.inj hres
      unfold World.withLoc locate at he
      split at he
      · rename_i hl
        split at hl
        · rw [← Except.error.inj hl] at he
          cases he
        · cases hl
      · rename_i l hl
        split at hl
        · cases hl
        rw [← Except.ok.inj hl] at he
        split at he
        · rename_i e hadd
          rw [Except.error.inj he] at hadd
          exact ready_of_add_eexist hw.sane hadd
        · cases he
  · rename_i a fs' hok
    obtain ⟨rfl, rfl⟩ := Prod.mk.inj heq
    obtain ⟨-, hadd⟩ := withLoc_ok hok
    refine ⟨⟨hw.sane.within (Fs.within_add hadd) ?_, hw.files, hw.cache⟩, ?_⟩
    · rintro ⟨-, hnone⟩
      have htop := hw.sane.top
      simp [Fs.isDir, hnone] at htop
    · exact fun _ => ready_of_add hw.sane hadd

theorem Fresh.lstat {who : Identity} {p : Bytes} {res : Except Errno (ℕ × Node)}
    (hw : Fresh w) (h : answer who w x (.lstat p) = some (res, v)) :
    Fresh v ∧ ∀ i n, res = .ok (i, n) → Ready (resolve p) v.fs := by
  have heq := Option.some.inj h
  simp only [World.query] at heq
  split at heq
  · obtain ⟨rfl, rfl⟩ := Prod.mk.inj heq
    refine ⟨hw, fun i n hres => ?_⟩
    cases hres
  obtain ⟨rfl, rfl⟩ := Prod.mk.inj heq
  refine ⟨hw, ?_⟩
  intro i n hres
  split at hres
  · cases hres
  rename_i l hl
  obtain ⟨-, rfl⟩ := locate_ok hl
  unfold lookup at hres
  split at hres
  · cases hres
  rename_i hp
  split at hres
  · cases hres
  · rename_i j hj
    exact ready_of_parents hp (by rw [hj]; rfl)

/-- The chain of `mkdir` calls ends with the root itself. -/
theorem mkdirAll_ready {who : Identity} (ps : List Bytes) (p : Bytes) (hw : Fresh w) :
    (mkdirAll (ps ++ [p])).Alone (answer who)
      (fun v e => Fresh v ∧ (e = none → Ready (resolve p) v.fs)) w := by
  induction ps generalizing w with
  | nil =>
    refine Prog.Alone.perform (c := Call.mkdir p 0x1FF) ?_
    intro x res v h
    obtain ⟨hv, hready⟩ := hw.mkdir h
    split
    · exact ⟨hv, fun _ => hready (.inl rfl)⟩
    · exact ⟨hv, fun _ => hready (.inr rfl)⟩
    · exact ⟨hv, fun he => nomatch he⟩
  | cons q ps ih =>
    refine Prog.Alone.perform (c := Call.mkdir q 0x1FF) ?_
    intro x res v h
    obtain ⟨hv, -⟩ := hw.mkdir h
    split
    · exact ih hv
    · exact ih hv
    · exact ⟨hv, fun he => nomatch he⟩

/-- What a process knows when it starts to serve. -/
def Started (root : Bytes) (w : World) (res : Option (Bytes × Bool)) : Prop :=
  Fresh w ∧ ∀ norm present, res = some (norm, present) →
    norm = render (resolve root) ∧ Ready (resolve root) w.fs

theorem Fresh.started_none {root : Bytes} (hw : Fresh w) : Started root w none := by
  refine ⟨hw, fun norm present h => ?_⟩
  cases h

theorem serverStart_ready {who : Identity} (root : Bytes) (readOnly : Bool) (hw : Fresh w) :
    (serverStart root readOnly).Alone (answer who) (Started root) w := by
  unfold serverStart
  split
  · exact hw.started_none
  rename_i habs
  refine Prog.Alone.perform (c := Call.lstat root) ?_
  intro x res v h
  obtain ⟨hv, hstat⟩ := hw.lstat h
  have hend : ∀ present ready u, Fresh u → (ready = true → Ready (resolve root) u.fs) →
      (servedRoot root present ready).Alone (answer who) (Started root) u := by
    intro present ready u hu hready
    unfold servedRoot
    split
    · exact hu.started_none
    · rename_i hset
      split
      · exact hu.started_none
      · rename_i norm hnorm
        refine ⟨hu, ?_⟩
        intro norm' present' heq
        obtain ⟨rfl, -⟩ := Prod.mk.inj (Option.some.inj heq)
        refine ⟨?_, hready (by simpa using hset)⟩
        by_cases hlen : root.length < pathMax
        · rw [normalizeAbs_eq (by simpa using habs) hlen] at hnorm
          exact (Except.ok.inj hnorm).symm
        · rw [normalizeAbs_long (by simpa using habs) (Nat.not_lt.mp hlen)] at hnorm
          cases hnorm
  cases readOnly with
  | true =>
    refine hend _ _ v hv ?_
    intro hpresent
    cases res with
    | error e => cases hpresent
    | ok st => exact hstat st.1 st.2 rfl
  | false =>
    have hmkdir : (mkdirP root).Alone (answer who)
        (fun u e => Fresh u ∧ (e = none → Ready (resolve root) u.fs)) v := by
      unfold mkdirP
      split
      · refine ⟨hv, fun he => ?_⟩
        cases he
      · exact mkdirAll_ready _ root hv
    refine Prog.Alone.bind hmkdir ?_
    rintro u e ⟨hu, he⟩
    exact hend _ _ u hu fun hnone => he (Option.isNone_iff_eq_none.mp hnone)

/-- Nothing else happens before the process serves. -/
def Booting (who : Identity) (root : Bytes) (s : Process) : Prop :=
  ∀ m, s.phase = .starting m →
    s.jobs = [] ∧ s.inline = none ∧ m.Alone (answer who) (Started root) s.world

theorem booting_boot {fs : Fs} (hfs : fs.Sane) (root : Bytes) (readOnly : Bool) :
    Booting host.who root (Process.boot fs root readOnly) := by
  intro m hm
  obtain rfl := Phase.starting.inj hm
  exact ⟨rfl, rfl, serverStart_ready root readOnly ⟨hfs, rfl, rfl⟩⟩

theorem next_booting {s u : Process} {a : Action} (hb : Booting host.who root s)
    (hs : next host s a = some u) : Booting host.who root u := by
  intro m hm
  cases a with
  | start x =>
    simp only [next] at hs
    split at hs
    · rename_i m₀ hm₀
      obtain ⟨⟨w, m'⟩, hadv, rfl⟩ := Option.map_eq_some_iff.mp hs
      obtain ⟨hjobs, hinline, halone⟩ := hb m₀ hm₀
      obtain rfl := Phase.starting.inj hm
      exact ⟨hjobs, hinline, halone.advance hadv⟩
    · cases hs
  | serve =>
    simp only [next] at hs
    split at hs
    · obtain rfl := Option.some.inj hs
      cases hm
    · obtain rfl := Option.some.inj hs
      cases hm
    · cases hs
  | receive f =>
    simp only [next] at hs
    split at hs
    · rename_i cfg hphase _
      split at hs
      · obtain rfl := Option.some.inj hs
        cases hphase.symm.trans hm
      split at hs
      · split at hs
        · obtain rfl := Option.some.inj hs
          cases hm
        · obtain rfl := Option.some.inj hs
          cases hphase.symm.trans hm
      · cases hs
    · cases hs
  | endOfInput =>
    simp only [next] at hs
    split at hs
    · split at hs
      · obtain rfl := Option.some.inj hs
        cases hm
      · cases hs
    · cases hs
  | job i x =>
    simp only [next] at hs
    split at hs
    · rename_i k hk
      obtain ⟨p, -, rfl⟩ := Option.map_eq_some_iff.mp hs
      rw [(hb m hm).1] at hk
      cases hk
    · cases hs
  | jobDone i =>
    simp only [next] at hs
    split at hs
    · rename_i hk
      obtain rfl := Option.some.inj hs
      rw [(hb m hm).1] at hk
      cases hk
    · cases hs
  | inline x =>
    simp only [next] at hs
    split at hs
    · rename_i k hk
      obtain ⟨p, -, rfl⟩ := Option.map_eq_some_iff.mp hs
      rw [(hb m hm).2.1] at hk
      cases hk
    · cases hs
  | inlineDone =>
    simp only [next] at hs
    split at hs
    · rename_i hk
      obtain rfl := Option.some.inj hs
      rw [(hb m hm).2.1] at hk
      cases hk
    · cases hs

end Start

section Runs
variable {host : Host} {fs : Fs} {root : Bytes} {readOnly : Bool} {r : Loc} {rootIsDir : Bool}
  {fs₀ : Fs} {s u : Process} {a : Action}

/-- The step does not bring in a frame that aims out of the root. -/
def Inside (s : Process) (a : Action) : Prop :=
  ∀ cfg f, s.phase = .serving cfg → a = .receive f →
    aims cfg.root (s.world.fs.isDir (resolve cfg.root)) f = false

structure Confining (r : Loc) (rootIsDir : Bool) (fs₀ : Fs) (s : Process) : Prop where
  world : WorldOk r rootIsDir fs₀ s.world
  handlers : Guarded (Allowed r rootIsDir) (Honest r rootIsDir) s
  phase : ∀ m, s.phase ≠ .starting m
  config : ∀ cfg, s.phase = .serving cfg → cfg.root = render r

theorem next_confining (hr : ∀ c ∈ r, Ordinary c) (htop : r = [] → rootIsDir = true)
    (hin : Inside s a) (hc : Confining r rootIsDir fs₀ s) (hs : next host s a = some u) :
    Confining r rootIsDir fs₀ u := by
  have hhandle : ∀ cfg f, s.phase = .serving cfg → a = .receive f →
      Good r rootIsDir (handle cfg f) := by
    intro cfg f hphase ha
    have hroot := hc.config cfg hphase
    refine good_handle hr hroot htop ?_
    have hnot := hin cfg f hphase ha
    rwa [hroot, resolve_render hr, hc.world.intact.rootDir, ← hroot] at hnot
  have hanswer : ∀ w x c res v, WorldOk r rootIsDir fs₀ w → Allowed r rootIsDir c →
      answer host.who w x c = some (res, v) →
      Honest r rootIsDir c res ∧ WorldOk r rootIsDir fs₀ v :=
    fun w x c res v hw hok h => answer_allowed hw hok h
  obtain ⟨hworld, hguard⟩ := next_guarded hanswer hhandle good_cleanup
    (fun m hm => absurd hm (hc.phase m)) hc.world hc.handlers hs
  rcases next_phase hc.phase hs with heq | heq
  · exact ⟨hworld, hguard, by rw [heq]; exact hc.phase, by rw [heq]; exact hc.config⟩
  · exact ⟨hworld, hguard, by simp [heq], by simp [heq]⟩

/-- Serving starts with an intact way to the root and nothing touched. -/
theorem confining_serve (hfs : fs.Sane) {bs : List Action} {s₀ s₁ : Process} {cfg : Config}
    (hstart : exec (next host) (Process.boot fs root readOnly) bs = some s₀)
    (hserve : next host s₀ .serve = some s₁) (hcfg : s₁.phase = .serving cfg) :
    Confining (resolve root) (s₁.world.fs.isDir (resolve root)) s₁.world.fs s₁ ∧
      s₁.world.fs.Sane := by
  have hb : Booting host.who root s₀ := Reachable.invariant ⟨bs, hstart⟩
    (booting_boot hfs root readOnly) fun s a u hs hn => next_booting hs hn
  simp only [next] at hserve
  split at hserve
  · obtain rfl := Option.some.inj hserve
    cases hcfg
  · rename_i norm present hm
    obtain rfl := Option.some.inj hserve
    obtain ⟨hjobs, hinline, hfresh, hready⟩ := hb _ hm
    obtain ⟨hnorm, habove, hroot⟩ := hready norm present rfl
    refine ⟨⟨⟨⟨habove, hroot, rfl, fun _ _ => rfl, hfresh.sane.bounded⟩, ?_, ?_, ?_⟩, ?_, ?_, ?_⟩,
      hfresh.sane⟩
    · simp [hfresh.files]
    · simp [hfresh.cache]
    · exact fun p hp => absurd hp List.not_mem_nil
    · refine ⟨fun m hm => ?_, by simp [hjobs], by simp [hinline]⟩
      cases hm
    · intro m h
      cases h
    · intro cfg' h
      rw [← Phase.serving.inj h]
      exact hnorm
  · cases hserve

/-- In every run of the server whose frames do not aim out of its root, every
path that was changed lies at or below the root, and the only names that come,
go or are exchanged since serving began lie strictly below it. -/
theorem mutations_confined (hfs : fs.Sane) {bs as : List Action} {s₀ s₁ : Process} {cfg : Config}
    (hstart : exec (next host) (Process.boot fs root readOnly) bs = some s₀)
    (hserve : next host s₀ .serve = some s₁) (hcfg : s₁.phase = .serving cfg)
    (hin : Along (next host) Inside s₁ as) (hrun : exec (next host) s₁ as = some s) :
    (∀ p ∈ s.world.touched, resolve root <+: resolve p) ∧
      ∀ l, (resolve root <+: l → l = resolve root) →
        s.world.fs.entry l = s₁.world.fs.entry l := by
  obtain ⟨hc, hsane⟩ := confining_serve hfs hstart hserve hcfg
  have hend := hin.invariant (fun s a u hg hi hs => next_confining
    (fun c hc => ordinary_of_mem_resolve hc) (fun hnil => by rw [hnil]; exact hsane.top) hg hi hs)
    hc hrun
  exact ⟨hend.world.touched, hend.world.intact.outside⟩

end Runs

-- A server for `/r`, in a file system with the two directories `/` and `/r`.
def homeFs : Fs where
  entry := fun l => if l = [] then some 0 else if l = [[114]] then some 1 else none
  node := fun _ => ⟨.directory, 0x1ED, 0, 0, (0, 0), (0, 0)⟩
  next := 2

def homeRoot : Bytes := [47, 114]

def superuser : Host := ⟨⟨0, 0, [], 1⟩, Remote.Handshake.terse, fun _ => []⟩

def success : Choice := ⟨none, 0, false⟩

theorem homeFs_sane : homeFs.Sane := by
  refine ⟨by decide, ?_⟩
  intro l i h
  simp only [homeFs] at h ⊢
  split_ifs at h
  · cases h
    decide
  · cases h
    decide

/-- `lstat` and `mkdir` of the root, which is there. -/
def homeBooted : Process :=
  (exec (next superuser) (Process.boot homeFs homeRoot false) [.start success, .start success]).get
    (by decide +kernel)

def homeServing : Process := (next superuser homeBooted .serve).get (by decide +kernel)

/-- `MKDIR /r/a` -/
def mkdirFrame : Frame := ⟨.mkdir, 0, [4, 0, 0, 0, 47, 114, 47, 97, 0xED, 1, 0, 0]⟩

/-- `PUTFILE /r`, not in place -/
def putRootFrame : Frame := ⟨.putfile, 0, List.replicate 52 0 ++ [2, 0, 0, 0, 47, 114]⟩

theorem mutations_confined_mkdir :
    ∃ s, exec (next superuser) homeServing
        (.receive mkdirFrame :: List.replicate 3 (.inline success)) = some s ∧
      s.world.touched = [[47, 114, 47, 97]] ∧
      (∀ p ∈ s.world.touched, resolve homeRoot <+: resolve p) ∧
      ∀ l, (resolve homeRoot <+: l → l = resolve homeRoot) →
        s.world.fs.entry l = homeServing.world.fs.entry l := by
  have hrun : (exec (next superuser) homeServing
      (.receive mkdirFrame :: List.replicate 3 (.inline success))).map (·.world.touched) =
      some [[47, 114, 47, 97]] := by decide +kernel
  obtain ⟨s, hs, htouched⟩ := Option.map_eq_some_iff.mp hrun
  have hin : Along (next superuser) Inside homeServing
      (.receive mkdirFrame :: List.replicate 3 (.inline success)) := by
    refine Along.of_forall ?_ _
    intro a ha s cfg f _ heq
    subst heq
    simp only [List.mem_cons, List.mem_replicate, Action.receive.injEq] at ha
    rcases ha with rfl | ⟨-, h⟩
    · rfl
    · cases h
  exact ⟨s, hs, htouched, mutations_confined homeFs_sane (Option.some_get _).symm
    (Option.some_get _).symm rfl hin hs⟩

/-- The temporary file of a `PUTFILE` of the root is created next to the root. -/
theorem putfile_leaves_root :
    ∃ s, exec (next superuser) homeServing
        (.receive putRootFrame :: List.replicate 7 (.inline success)) = some s ∧
      (∃ p ∈ s.world.touched, ¬ resolve homeRoot <+: resolve p) ∧
      ∃ l, l.dropLast = (resolve homeRoot).dropLast ∧
        homeServing.world.fs.entry l = none ∧ (s.world.fs.entry l).isSome = true := by
  have hrun : (exec (next superuser) homeServing
      (.receive putRootFrame :: List.replicate 7 (.inline success))).map (fun s =>
        (decide (∃ p ∈ s.world.touched, ¬ resolve homeRoot <+: resolve p),
          (s.world.fs.entry [tmpNamePut 1 1]).isSome)) = some (true, true) := by decide +kernel
  obtain ⟨s, hs, heq⟩ := Option.map_eq_some_iff.mp hrun
  simp only [Prod.mk.injEq, decide_eq_true_eq] at heq
  exact ⟨s, hs, heq.1, [tmpNamePut 1 1], by decide +kernel, by decide +kernel, heq.2⟩

end Ecopy.Server
