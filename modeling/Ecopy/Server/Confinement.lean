import Ecopy.Server.Process

/-!
# Confinement of the server to its root

A call is allowed when every path it can change lies at or below the root. The
chain of `mkdir` calls is the exception: it may name the root or a directory
above it, and these exist, so that nothing is created and the chain stops. Names
are removed only strictly below the root, or where the root is a directory that
cannot be unlinked.

The handlers confine the path they decode, but create temporary files in its
parent. For the root itself that parent is outside. `aims` singles out the
frames that do this; all others make allowed calls only, in every state and
with every answer the kernel can give.
-/
namespace Ecopy.Server
open Protocol Ecopy.Path FileSystem Lib.Calls Lib.Runs

/-- The path is the root, and the root has a parent. -/
def namesRoot (root path : Bytes) : Bool :=
  root != [slash] &&
    match resolvePath root path with
    | .ok norm => norm == root
    | .error _ => false

/-- The frames that reach out of the root: a temporary name is put next to the
root, or the root itself is removed. -/
def aims (root : Bytes) (rootIsDir : Bool) (f : Frame) : Bool :=
  match f.type with
  | .open =>
    match decodeOpen f.payload with
    | none => false
    | some q => !q.inplace && namesRoot root q.path
  | .putfile =>
    match decodePutfile f.payload with
    | none => false
    | some q => !q.inplace && namesRoot root q.path
  | .symlink =>
    match decodeSymlink f.payload with
    | none => false
    | some q => namesRoot root q.path
  | .link =>
    match decodeLink f.payload with
    | none => false
    | some (primary, path) => (resolvePath root primary).isOk && namesRoot root path
  | .unlink =>
    match decodePath f.payload with
    | none => false
    | some path => !rootIsDir && namesRoot root path
  | _ => false

section Calls
variable (r : Loc) (rootIsDir : Bool)

/-- A path that is empty, so that no call succeeds on it, or confined. -/
def Confined (p : Bytes) : Prop := p = [] ∨ r <+: resolve p

def StrictlyConfined (p : Bytes) : Prop := p = [] ∨ (r <+: resolve p ∧ resolve p ≠ r)

/-- A path that may be given to `unlink`. -/
def Removable (p : Bytes) : Prop := StrictlyConfined r p ∨ (resolve p = r ∧ rootIsDir = true)

/-- Files in the table keep to the root, whatever request uses them later. -/
structure FileOk (f : OpenFile) : Prop where
  fd : ∀ fd, f.fd = some fd → r <+: resolve fd.path
  final : Confined r f.finalPath
  tmp : f.inplace = false → Removable r rootIsDir f.tmpPath
  renamed : f.inplace = false → f.fd.isSome = true → StrictlyConfined r f.tmpPath

def Allowed : Call → Prop
  | .mkdir p _ => p ≠ [] ∧ (r <+: resolve p ∨ resolve p <+: r)
  | .openFile p flags _ => (flags.write = false ∧ flags.create = false) ∨ Confined r p
  | .fallocate fd _ | .ftruncate fd _ | .pwrite fd _ _ | .fchown fd _ _ | .fchmod fd _
  | .futimens fd _ _ => r <+: resolve fd.path
  | .rename a b => StrictlyConfined r a ∧ Confined r b
  | .unlink p => Removable r rootIsDir p
  | .symlink _ p => StrictlyConfined r p
  | .link a b => Confined r a ∧ Confined r b
  | .lchown p _ _ | .lutimes p _ _ => Confined r p
  | .addFile f | .updateFile f => FileOk r rootIsDir f
  | .settleDir dir (.ready _) => dir = render r → rootIsDir = true
  | _ => True

/-- What the answers to allowed calls tell. -/
def Honest : (c : Call) → c.Result → Prop
  | .mkdir p _, res => resolve p <+: r → res ≠ .ok () ∧ res ≠ .error .enoent
  | .lstat p, res => ∀ i n, res = .ok (i, n) → resolve p = r → n.isDir = true → rootIsDir = true
  | .openFile p _ _, res => ∀ fd, res = .ok fd → fd.path = p ∧ p ≠ []
  | .findFile _, res => ∀ f, res = some f → FileOk r rootIsDir f
  | .takeFiles, (res : List OpenFile) => ∀ f ∈ res, FileOk r rootIsDir f
  | .claimDir dir, res => res = .ready → dir = render r → rootIsDir = true
  | _, _ => True

variable (fs₀ : Fs)

/-- The file system below a confined server: the way to the root is intact and
no name has changed since `fs₀` but below the root. -/
structure Intact (fs : Fs) : Prop where
  above : ∀ l, l <+: r → l ≠ r → fs.isDir l = true
  root : (fs.entry r).isSome = true
  rootDir : fs.isDir r = rootIsDir
  outside : ∀ l, (r <+: l → l = r) → fs.entry l = fs₀.entry l
  bounded : ∀ l i, fs.entry l = some i → i < fs.next

structure WorldOk (w : World) : Prop where
  intact : Intact r rootIsDir fs₀ w.fs
  files : ∀ f ∈ w.files, FileOk r rootIsDir f
  cache : ∀ m, w.dirCache (render r) = some (.ready m) → rootIsDir = true
  touched : ∀ p ∈ w.touched, r <+: resolve p

end Calls

section Answers
variable {r : Loc} {rootIsDir : Bool} {fs₀ : Fs} {w v : World} {x : Choice} {fs fs' : Fs}

/-- An operation that changes entries strictly below the root only. -/
theorem Intact.within {P : Loc → Prop} (hi : Intact r rootIsDir fs₀ fs) (h : Fs.Within P fs fs')
    (hP : ∀ l, P l → r <+: l) (hr : ¬ P r) : Intact r rootIsDir fs₀ fs' := by
  have habove : ∀ l, l <+: r → l ≠ r → ¬ P l := by
    intro l hl hne hp
    exact hne (hl.eq_of_length_le (hP l hp).length_le)
  constructor
  · intro l hl hne
    rw [h.isDir hi.bounded (habove l hl hne)]
    exact hi.above l hl hne
  · rw [h.entry r hr]
    exact hi.root
  · rw [h.isDir hi.bounded hr]
    exact hi.rootDir
  · intro l hl
    refine (h.entry l fun hp => ?_).trans (hi.outside l hl)
    exact hr (hl (hP l hp) ▸ hp)
  · exact h.bounded hi.bounded

theorem Intact.exists_of_prefix (hi : Intact r rootIsDir fs₀ fs) {l : Loc} (hl : l <+: r) :
    (fs.entry l).isSome = true := by
  by_cases hne : l = r
  · rw [hne]
    exact hi.root
  · have hd := hi.above l hl hne
    unfold Fs.isDir at hd
    cases he : fs.entry l with
    | none => simp [he] at hd
    | some i => rfl

/-- New entries never replace the root. -/
theorem Intact.absent_ne_root (hi : Intact r rootIsDir fs₀ fs) {l : Loc} (h : fs.entry l = none) :
    l ≠ r := by
  rintro rfl
  have := hi.root
  simp [h] at this

theorem Intact.fresh (hi : Intact r rootIsDir fs₀ fs) {l : Loc} (hl : r <+: l)
    (h : Fs.Within (fun k => k = l ∧ fs.entry k = none) fs fs') : Intact r rootIsDir fs₀ fs' := by
  refine hi.within h ?_ fun hp => hi.absent_ne_root hp.2 rfl
  rintro k ⟨rfl, -⟩
  exact hl

theorem Intact.nodes (hi : Intact r rootIsDir fs₀ fs)
    (h : Fs.Within (fun _ => False) fs fs') : Intact r rootIsDir fs₀ fs' :=
  hi.within h (fun _ hp => hp.elim) fun hp => hp

theorem Intact.unlink (hi : Intact r rootIsDir fs₀ fs) {l : Loc} (hl : r <+: l)
    (hroot : l = r → rootIsDir = true) (h : fs.unlink l = .ok fs') : Intact r rootIsDir fs₀ fs' := by
  obtain ⟨hnd, hw⟩ := Fs.within_unlink h
  have hne : l ≠ r := by
    intro heq
    rw [heq, hi.rootDir, hroot heq] at hnd
    cases hnd
  refine hi.within hw ?_ fun hp => hne hp.symm
  rintro k rfl
  exact hl

theorem Intact.rename (hi : Intact r rootIsDir fs₀ fs) {a b : Loc} {e : Bool} (ha : r <+: a)
    (hane : a ≠ r) (hb : r <+: b) (h : fs.rename a b e = .ok fs') :
    Intact r rootIsDir fs₀ fs' := by
  rcases Fs.within_rename h with rfl | ⟨hparents, hnot, hw⟩
  · exact hi
  -- the root is a directory above `a`, so it cannot be the target
  have hrdir : fs.isDir r = true := by
    refine hparents r ?_
    obtain ⟨t, rfl⟩ := ha
    rcases t.eq_nil_or_concat with rfl | ⟨init, last, rfl⟩
    · simp at hane
    · rw [List.concat_eq_append, ← List.append_assoc, List.dropLast_concat]
      exact List.prefix_append r init
  have hbne : b ≠ r := by
    rintro rfl
    exact hnot hrdir ha
  refine hi.within hw ?_ ?_
  · rintro k (hk | hk)
    · exact ha.trans hk
    · exact hb.trans hk
  · rintro (hk | hk)
    · exact hane (hk.eq_of_length_le ha.length_le)
    · exact hbne (hk.eq_of_length_le hb.length_le)

/-- A call that changes the file system: nothing happens, or the new state and
the recorded paths are in order. -/
theorem change_eq {α : Type} {paths : List Bytes} {res : Except Errno (α × Fs)}
    {out : Except Errno α} (h : w.change x paths res = (out, v)) :
    (∃ e, out = .error e ∧ v = w) ∨ ∃ a fs, x.fault = none ∧ res = .ok (a, fs) ∧ out = .ok a ∧
      v = { w with fs := fs, touched := w.touched ++ paths } := by
  unfold World.change at h
  split at h
  · obtain ⟨rfl, rfl⟩ := Prod.mk.inj h
    exact .inl ⟨_, rfl, rfl⟩
  rename_i hfault
  split at h
  · obtain ⟨rfl, rfl⟩ := Prod.mk.inj h
    exact .inl ⟨_, rfl, rfl⟩
  · obtain ⟨rfl, rfl⟩ := Prod.mk.inj h
    exact .inr ⟨_, _, hfault, rfl, rfl, rfl⟩

theorem WorldOk.changed {paths : List Bytes} (hw : WorldOk r rootIsDir fs₀ w)
    (hi : Intact r rootIsDir fs₀ fs) (hp : ∀ p ∈ paths, r <+: resolve p) :
    WorldOk r rootIsDir fs₀ { w with fs := fs, touched := w.touched ++ paths } := by
  refine ⟨hi, hw.files, hw.cache, ?_⟩
  intro p hmem
  rcases List.mem_append.mp hmem with hmem | hmem
  · exact hw.touched p hmem
  · exact hp p hmem

theorem WorldOk.change {α : Type} {paths : List Bytes} {res : Except Errno (α × Fs)}
    {out : Except Errno α} (hw : WorldOk r rootIsDir fs₀ w)
    (h : (out, v) = w.change x paths res)
    (hfs : ∀ a fs', res = .ok (a, fs') →
      Intact r rootIsDir fs₀ fs' ∧ ∀ p ∈ paths, r <+: resolve p) :
    WorldOk r rootIsDir fs₀ v := by
  rcases change_eq h.symm with ⟨e, -, rfl⟩ | ⟨a, fs, -, hok, -, rfl⟩
  · exact hw
  · obtain ⟨hi, hp⟩ := hfs a fs hok
    exact hw.changed hi hp

theorem WorldOk.query {α : Type} {res out : Except Errno α} (hw : WorldOk r rootIsDir fs₀ w)
    (h : (out, v) = w.query x res) : WorldOk r rootIsDir fs₀ v := by
  unfold World.query at h
  split at h
  · obtain ⟨-, rfl⟩ := Prod.mk.inj h
    exact hw
  · obtain ⟨-, rfl⟩ := Prod.mk.inj h
    exact hw

variable {p : Bytes} {out : Except Errno Unit}

theorem locate_ok {l : Loc} (h : locate p = .ok l) : p ≠ [] ∧ l = resolve p := by
  unfold locate at h
  split at h
  · cases h
  · rename_i hne
    exact ⟨hne, (Except.ok.inj h).symm⟩

theorem withLoc_ok {f : Loc → Except Errno Fs} {a : Unit} (h : World.withLoc p f = .ok (a, fs')) :
    p ≠ [] ∧ f (resolve p) = .ok fs' := by
  unfold World.withLoc at h
  split at h
  · cases h
  rename_i l hl
  obtain ⟨hne, rfl⟩ := locate_ok hl
  split at h
  · cases h
  · rename_i fs'' hf
    obtain ⟨-, rfl⟩ := Prod.mk.inj (Except.ok.inj h)
    exact ⟨hne, hf⟩

theorem withLocs_ok {q : Bytes} {f : Loc → Loc → Except Errno Fs} {a : Unit}
    (h : World.withLocs p q f = .ok (a, fs')) :
    p ≠ [] ∧ q ≠ [] ∧ f (resolve p) (resolve q) = .ok fs' := by
  unfold World.withLocs at h
  split at h
  · cases h
  rename_i l hl
  obtain ⟨hne, rfl⟩ := locate_ok hl
  exact ⟨hne, withLoc_ok h⟩

theorem Confined.under (h : Confined r p) (hne : p ≠ []) : r <+: resolve p :=
  h.resolve_left hne

theorem StrictlyConfined.under (h : StrictlyConfined r p) (hne : p ≠ []) :
    r <+: resolve p ∧ resolve p ≠ r :=
  h.resolve_left hne

theorem StrictlyConfined.confined (h : StrictlyConfined r p) : Confined r p :=
  h.imp_right And.left

theorem WorldOk.changeNode {fd : Fd} {f : Node → Node} (hw : WorldOk r rootIsDir fs₀ w)
    (hfd : r <+: resolve fd.path) (h : (out, v) = w.changeNode x fd f)
    (hf : ∀ n, (f n).isDir = n.isDir) : WorldOk r rootIsDir fs₀ v := by
  refine hw.change h ?_
  intro a fs' heq
  obtain ⟨-, rfl⟩ := Prod.mk.inj (Except.ok.inj heq)
  exact ⟨hw.intact.nodes (Fs.within_setNode (hf _)), by simpa using hfd⟩

theorem lookup_eq_ok {l : Loc} {i : ℕ} {n : Node} (h : lookup fs l = .ok (i, n)) :
    fs.entry l = some i ∧ n = fs.node i := by
  unfold lookup at h
  split at h
  · cases h
  split at h
  · cases h
  · rename_i j hj
    obtain ⟨rfl, rfl⟩ := Prod.mk.inj (Except.ok.inj h)
    exact ⟨hj, rfl⟩

theorem WorldOk.changeAt {f : Node → Node} (hw : WorldOk r rootIsDir fs₀ w) (hp : Confined r p)
    (h : (out, v) = w.changeAt x p f) (hf : ∀ n, (f n).isDir = n.isDir) :
    WorldOk r rootIsDir fs₀ v := by
  refine hw.change h ?_
  intro a fs' heq
  obtain ⟨hne, heq⟩ := withLoc_ok heq
  split at heq
  · cases heq
  rename_i i n hl
  obtain ⟨-, rfl⟩ := lookup_eq_ok hl
  obtain rfl := Except.ok.inj heq
  exact ⟨hw.intact.nodes (Fs.within_setNode (hf _)), by simpa using hp.under hne⟩

theorem WorldOk.modifyData {fd : Fd} {f : Bytes → Bytes} (hw : WorldOk r rootIsDir fs₀ w)
    (hfd : r <+: resolve fd.path)
    (h : (out, v) = w.change x [fd.path] (.ok ((), w.fs.modifyData fd.ino f))) :
    WorldOk r rootIsDir fs₀ v := by
  refine hw.change h ?_
  intro a fs' heq
  obtain ⟨-, rfl⟩ := Prod.mk.inj (Except.ok.inj heq)
  exact ⟨hw.intact.nodes (Fs.within_modifyData ..), by simpa using hfd⟩

theorem WorldOk.writeData {fd : Fd} {off : ℕ} {data : Bytes} (hw : WorldOk r rootIsDir fs₀ w)
    (hfd : r <+: resolve fd.path) : WorldOk r rootIsDir fs₀ (w.writeData fd off data) := by
  refine ⟨hw.intact.nodes (Fs.within_modifyData ..), hw.files, hw.cache, ?_⟩
  intro p hp
  rcases List.mem_append.mp hp with hp | hp
  · exact hw.touched p hp
  · rw [List.mem_singleton.mp hp]
    exact hfd

/-- The way to the root exists, so `mkdir` there neither succeeds nor misses a
parent. -/
theorem Intact.add_above (hi : Intact r rootIsDir fs₀ fs) {l : Loc} (hl : l <+: r) (n : Node) :
    fs.add l n = .error .eexist := by
  unfold Fs.add
  split
  · rfl
  rename_i hne
  have hparent : fs.parentError l = none := by
    rw [Fs.parentError_eq_none_iff]
    intro d hd
    have hdl : d <+: l := hd.trans (List.dropLast_prefix l)
    refine hi.above d (hdl.trans hl) ?_
    rintro rfl
    have h₁ := hd.length_le
    have h₂ := hl.length_le
    have h₃ := List.length_pos_iff.mpr hne
    rw [List.length_dropLast] at h₁
    omega
  rw [hparent]
  simp [hi.exists_of_prefix hl]

theorem mem_replaceFile {f g : OpenFile} {files : List OpenFile}
    (h : g ∈ replaceFile f files) : g = f ∨ g ∈ files := by
  induction files with
  | nil => cases h
  | cons k files ih =>
    unfold replaceFile at h
    split at h
    · rcases List.mem_cons.mp h with h | h
      · exact .inl h
      · exact .inr (List.mem_cons_of_mem k h)
    · rcases List.mem_cons.mp h with h | h
      · exact .inr (h ▸ List.mem_cons_self)
      · exact (ih h).imp_right (List.mem_cons_of_mem k)

theorem answer_openFile {who : Identity} {flags : Fs.OpenFlags} {mode : UInt32}
    {res : Except Errno Fd} (h : answer who w x (.openFile p flags mode) = some (res, v)) :
    (∃ e, res = .error e ∧ v = w) ∨ ∃ i fs, x.fault = none ∧ p ≠ [] ∧ res = .ok ⟨p, i⟩ ∧
      w.fs.openFile (resolve p) flags (newNode who (.regular []) mode) = .ok (i, fs) ∧
      v = { w with fs := fs, touched := w.touched ++ if flags.write then [p] else [] } := by
  rcases change_eq (Option.some.inj h) with herr | ⟨a, fs, hx, hok, rfl, rfl⟩
  · exact .inl herr
  split at hok
  · cases hok
  rename_i l hl
  obtain ⟨hne, rfl⟩ := locate_ok hl
  split at hok
  · cases hok
  rename_i i fs' hopen
  obtain ⟨rfl, rfl⟩ := Prod.mk.inj (Except.ok.inj hok)
  exact .inr ⟨i, fs', hx, hne, rfl, hopen, rfl⟩

/-- Answers to allowed calls are honest and leave the world in order. -/
theorem answer_allowed {who : Identity} {c : Call} {res : c.Result}
    (hw : WorldOk r rootIsDir fs₀ w) (hc : Allowed r rootIsDir c)
    (h : answer who w x c = some (res, v)) :
    Honest r rootIsDir c res ∧ WorldOk r rootIsDir fs₀ v := by
  cases c with
  | mkdir p mode =>
    have heq := Option.some.inj h
    refine ⟨?_, hw.change heq.symm ?_⟩
    · intro hp
      have hexist : World.withLoc p (fun l => w.fs.add l (newNode who .directory mode)) =
          .error .eexist := by
        simp [World.withLoc, locate, hc.1, hw.intact.add_above hp]
      simp only [World.change, hexist] at heq
      split at heq
      · rename_i f _
        rw [← (Prod.mk.inj heq).1]
        exact ⟨fun he => (nomatch he), fun he => f.errno_ne_enoent (Except.error.inj he)⟩
      · rw [← (Prod.mk.inj heq).1]
        exact ⟨fun he => (nomatch he), fun he => nomatch Except.error.inj he⟩
    · intro a fs' hok
      obtain ⟨-, hadd⟩ := withLoc_ok hok
      have hunder : r <+: resolve p := by
        rcases hc.2 with hp | hp
        · exact hp
        · rw [hw.intact.add_above hp] at hadd
          cases hadd
      exact ⟨hw.intact.fresh hunder (Fs.within_add hadd), by simpa using hunder⟩
  | lstat p =>
    have heq := Option.some.inj h
    refine ⟨?_, hw.query heq.symm⟩
    intro i n hres hp hn
    subst hres
    simp only [World.query] at heq
    split at heq
    · cases (Prod.mk.inj heq).1
    have hres := (Prod.mk.inj heq).1
    split at hres
    · cases hres
    rename_i l hl
    obtain ⟨-, rfl⟩ := locate_ok hl
    obtain ⟨he, rfl⟩ := lookup_eq_ok hres
    rw [← hw.intact.rootDir]
    rw [hp] at he
    simp only [Fs.isDir, he]
    exact hn
  | stat p => exact ⟨trivial, hw.query (Option.some.inj h).symm⟩
  | openFile p flags mode =>
    rcases answer_openFile h with ⟨e, rfl, rfl⟩ | ⟨i, fs, -, hne, rfl, hopen, rfl⟩
    · exact ⟨fun fd hfd => absurd hfd (by simp), hw⟩
    have hwithin := Fs.within_openFile hopen
    refine ⟨?_, ?_⟩
    · intro fd hfd
      obtain rfl := Except.ok.inj hfd
      exact ⟨rfl, hne⟩
    · rcases hc with ⟨hwrite, hcreate⟩ | hp
      · refine hw.changed (hw.intact.nodes (hwithin.mono ?_)) (by simp [hwrite])
        intro k hk
        rw [hcreate] at hk
        exact Bool.false_ne_true hk.2
      · refine hw.changed (hw.intact.fresh (hp.under hne) (hwithin.mono fun k hk => hk.1)) ?_
        intro q hq
        split at hq
        · rw [List.mem_singleton.mp hq]
          exact hp.under hne
        · cases hq
  | openDir p => exact ⟨trivial, hw.query (Option.some.inj h).symm⟩
  | fallocate fd size => exact ⟨trivial, hw.modifyData hc (Option.some.inj h).symm⟩
  | ftruncate fd size =>
    refine ⟨trivial, ?_⟩
    simp only [answer] at h
    split at h
    · obtain ⟨-, rfl⟩ := Prod.mk.inj (Option.some.inj h)
      exact hw
    · exact hw.modifyData hc (Option.some.inj h).symm
  | pwrite fd offset data =>
    refine ⟨trivial, ?_⟩
    simp only [answer] at h
    split at h
    · obtain ⟨-, rfl⟩ := Prod.mk.inj (Option.some.inj h)
      exact hw
    split at h
    · obtain ⟨-, rfl⟩ := Prod.mk.inj (Option.some.inj h)
      exact hw.writeData hc
    · obtain ⟨-, rfl⟩ := Prod.mk.inj (Option.some.inj h)
      exact hw.writeData hc
  | pread fd len offset => exact ⟨trivial, hw.query (Option.some.inj h).symm⟩
  | fstat fd => exact ⟨trivial, hw.query (Option.some.inj h).symm⟩
  | fsync fd => exact ⟨trivial, hw.query (Option.some.inj h).symm⟩
  | close fd => exact ⟨trivial, hw.query (Option.some.inj h).symm⟩
  | fchown fd uid gid =>
    exact ⟨trivial, hw.changeNode hc (Option.some.inj h).symm fun _ => rfl⟩
  | fchmod fd mode => exact ⟨trivial, hw.changeNode hc (Option.some.inj h).symm fun _ => rfl⟩
  | futimens fd atime mtime =>
    exact ⟨trivial, hw.changeNode hc (Option.some.inj h).symm fun _ => rfl⟩
  | rename p q =>
    refine ⟨trivial, hw.change (Option.some.inj h).symm ?_⟩
    intro a fs' hok
    obtain ⟨hp, hq, hren⟩ := withLocs_ok hok
    obtain ⟨hunder, hne⟩ := hc.1.under hp
    refine ⟨hw.intact.rename hunder hne (hc.2.under hq) hren, ?_⟩
    simp [hunder, hc.2.under hq]
  | unlink p =>
    refine ⟨trivial, hw.change (Option.some.inj h).symm ?_⟩
    intro a fs' hok
    obtain ⟨hp, hun⟩ := withLoc_ok hok
    have hunder : r <+: resolve p ∧ (resolve p = r → rootIsDir = true) := by
      rcases hc with hc | hc
      · exact ⟨(hc.under hp).1, fun heq => absurd heq (hc.under hp).2⟩
      · exact ⟨by rewrite [hc.1]; exact List.prefix_refl r, fun _ => hc.2⟩
    exact ⟨hw.intact.unlink hunder.1 hunder.2 hun, by simpa using hunder.1⟩
  | symlink target p =>
    refine ⟨trivial, hw.change (Option.some.inj h).symm ?_⟩
    intro a fs' hok
    obtain ⟨hp, hadd⟩ := withLoc_ok hok
    have hunder := (hc.under hp).1
    split at hadd
    · cases hadd
    · exact ⟨hw.intact.fresh hunder (Fs.within_add hadd), by simpa using hunder⟩
  | link p q =>
    refine ⟨trivial, hw.change (Option.some.inj h).symm ?_⟩
    intro a fs' hok
    obtain ⟨hp, hq, hlink⟩ := withLocs_ok hok
    refine ⟨hw.intact.fresh (hc.2.under hq) (Fs.within_link hlink), ?_⟩
    simp [hc.1.under hp, hc.2.under hq]
  | lchown p uid gid =>
    exact ⟨trivial, hw.changeAt hc (Option.some.inj h).symm fun _ => rfl⟩
  | lutimes p atime mtime =>
    exact ⟨trivial, hw.changeAt hc (Option.some.inj h).symm fun _ => rfl⟩
  | findFile id =>
    obtain ⟨rfl, rfl⟩ := Prod.mk.inj (Option.some.inj h)
    exact ⟨fun f hf => hw.files f (List.mem_of_find?_eq_some hf), hw⟩
  | addFile f =>
    obtain ⟨-, rfl⟩ := Prod.mk.inj (Option.some.inj h)
    refine ⟨trivial, hw.intact, ?_, hw.cache, hw.touched⟩
    intro g hg
    rcases List.mem_cons.mp hg with rfl | hg
    · exact hc
    · exact hw.files g hg
  | updateFile f =>
    obtain ⟨-, rfl⟩ := Prod.mk.inj (Option.some.inj h)
    refine ⟨trivial, hw.intact, ?_, hw.cache, hw.touched⟩
    intro g hg
    rcases mem_replaceFile hg with rfl | hg
    · exact hc
    · exact hw.files g hg
  | removeFile id =>
    obtain ⟨-, rfl⟩ := Prod.mk.inj (Option.some.inj h)
    exact ⟨trivial, hw.intact, fun g hg => hw.files g (List.mem_of_mem_eraseP hg), hw.cache,
      hw.touched⟩
  | takeFiles =>
    obtain ⟨rfl, rfl⟩ := Prod.mk.inj (Option.some.inj h)
    exact ⟨hw.files, hw.intact, by simp, hw.cache, hw.touched⟩
  | claimDir dir =>
    simp only [answer] at h
    split at h
    · cases h
    · rename_i m hm
      obtain ⟨rfl, rfl⟩ := Prod.mk.inj (Option.some.inj h)
      refine ⟨?_, hw⟩
      rintro - rfl
      exact hw.cache _ hm
    · obtain ⟨rfl, rfl⟩ := Prod.mk.inj (Option.some.inj h)
      exact ⟨by simp [Honest], hw⟩
    · split at h
      · obtain ⟨rfl, rfl⟩ := Prod.mk.inj (Option.some.inj h)
        exact ⟨by simp [Honest], hw⟩
      · obtain ⟨rfl, rfl⟩ := Prod.mk.inj (Option.some.inj h)
        refine ⟨by simp [Honest], hw.intact, hw.files, ?_, hw.touched⟩
        intro m hm
        simp only [Function.update_apply] at hm
        split at hm
        · cases hm
        · exact hw.cache m hm
  | settleDir dir state =>
    obtain ⟨-, rfl⟩ := Prod.mk.inj (Option.some.inj h)
    refine ⟨trivial, hw.intact, hw.files, ?_, hw.touched⟩
    intro m hm
    simp only [Function.update_apply] at hm
    split at hm
    · rename_i hdir
      rw [Option.some.inj hm] at hc
      exact hc hdir.symm
    · exact hw.cache m hm
  | dirMode dir =>
    obtain ⟨-, rfl⟩ := Prod.mk.inj (Option.some.inj h)
    exact ⟨trivial, hw⟩
  | sync | settings | attempt | report =>
    obtain ⟨-, rfl⟩ := Prod.mk.inj (Option.some.inj h)
    exact ⟨trivial, hw⟩
  | nextSeq counter =>
    obtain ⟨-, rfl⟩ := Prod.mk.inj (Option.some.inj h)
    exact ⟨trivial, hw.intact, hw.files, hw.cache, hw.touched⟩
  | setSettings settings =>
    obtain ⟨-, rfl⟩ := Prod.mk.inj (Option.some.inj h)
    exact ⟨trivial, hw.intact, hw.files, hw.cache, hw.touched⟩
  | logError p e =>
    obtain ⟨-, rfl⟩ := Prod.mk.inj (Option.some.inj h)
    exact ⟨trivial, hw.intact, hw.files, hw.cache, hw.touched⟩
  | logVerify kind p e =>
    obtain ⟨-, rfl⟩ := Prod.mk.inj (Option.some.inj h)
    exact ⟨trivial, hw.intact, hw.files, hw.cache, hw.touched⟩
  | noteUnpreserved =>
    obtain ⟨-, rfl⟩ := Prod.mk.inj (Option.some.inj h)
    exact ⟨trivial, hw.intact, hw.files, hw.cache, hw.touched⟩

end Answers

end Ecopy.Server
