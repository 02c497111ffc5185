import Ecopy.EDelete.Containment

/-!
# Runs without errors in a tree

The file system is a tree below the start path, nobody else touches it, no
system call fails and nobody asks for a shutdown. A directory stream returns
every entry once, and the end only when all entries that are still there have
been returned; entries that the deleter removes in the meantime were returned
before. What remains of the file system in such a run is `Kept`, and every
directory that a thread holds is the one its path leads to.
-/
namespace Ecopy.EDelete
open Protocol (Bytes)
open Ecopy.Path (dot dotdot slash render resolve Ordinary pathMax Errno)
open Server (pathJoinFast)
open DirWalk (DType)
open FileSystem Lib.Runs

variable {c : Config}

/-- A tree of ordinary names, in which a directory has only one. -/
structure Plain (fs : Fs) : Prop extends fs.Tree where
  single : ∀ l l' i, fs.entry l = some i → fs.entry l' = some i → (fs.node i).isDir = true → l = l'
  names : ∀ l, (fs.entry l).isSome = true → ∀ x ∈ l, Ordinary x

/-- The file system as `main` finds it. -/
structure Config.Tree (c : Config) : Prop extends Plain c.world.fs where
  start : c.world.fs.isDir c.top = true

/-- A type that the directory stream may report. -/
def TypeOf : DType → Bool → Prop
  | .unknown, _ => True
  | .directory, isDir => isDir = true
  | .other, isDir => isDir = false

/-- What a stream returns that has returned `given` so far. -/
structure Streams (fs : Fs) (l : Loc) (given : List Bytes) (chunk : List (Bytes × DType)) :
    Prop where
  once : (chunk.map Prod.fst).Nodup
  fresh : ∀ e ∈ chunk, e.1 ∉ given
  all : chunk = [] → ∀ x, (fs.entry (l ++ [x])).isSome = true → x ∈ given
  truthful : ∀ e ∈ chunk, ∀ i, fs.entry (l ++ [e.1]) = some i → TypeOf e.2 (fs.node i).isDir

/-- Nobody interferes, and calls fail only where the deleter itself has removed something. -/
def Calm (s : State c) : Act c → Prop
  | .openNode _ fault => fault = false
  | .checkNode _ streams => streams = true
  | .readDir i l chunk => l ≠ none ∧ ∀ n given at_dir, s.walker i = .reading n given [] →
      l = some at_dir → Streams s.world.fs at_dir given chunk
  | .readEntry _ l => l ≠ none
  | .openBatch _ fault => fault = false
  | .unlinkName _ l _ fault => l ≠ none ∧ fault = false
  | .removeStep k l empty fault => l ≠ none ∧ fault = false ∧
      ∀ level later p d ds at_dir, s.main = .removing level later →
        level[k]? = some (p, d :: ds) → l = some at_dir →
        (empty = true ↔ ∀ x, s.world.fs.entry (at_dir ++ [nameOf d.path] ++ [x]) = none)
  | .shutdown => False
  | .tamper _ => False
  | _ => True

variable {s : State c} {log : List Event} {l : Loc}
variable {u : State c} {dir : Bytes} {names : List Bytes}

theorem Move.errors_le {a : Act c} (h : Move s a u) : s.errors ≤ u.errors := by
  cases h <;> simp

/-- A run without errors keeps what every move without an error keeps. -/
theorem calm_invariant {I : State c → Prop} (hstart : I (State.start c))
    (hstep : ∀ s a u, Move s a u → Calm s a → s.errors = 0 → u.errors = 0 → s.stop = false →
      I s → I u)
    {as : List (Act c)} {s : State c} (hcalm : Along step Calm (State.start c) as)
    (hr : exec step (State.start c) as = some s) (herrors : s.errors = 0) : I s := by
  have h : s.stop = false ∧ (s.errors = 0 → I s) := by
    refine hcalm.invariant (I := fun s => s.stop = false ∧ (s.errors = 0 → I s)) ?_
      ⟨rfl, fun _ => hstart⟩ hr
    intro s a u ha hs hu
    have hmove := step_move hu
    have hle := hmove.errors_le
    constructor
    · cases hmove <;> first | exact hs.1 | exact ha.elim
    · intro hnone
      have hbefore : s.errors = 0 := by omega
      exact hstep s a u hmove ha hbefore hnone hs.1 (hs.2 hbefore)
  exact h.2 herrors

theorem render_concat (hne : l ≠ []) (name : Bytes) :
    render (l ++ [name]) = render l ++ slash :: name := by
  rw [Path.render_eq_join hne, Path.render_eq_join (by simp), Lib.Fields.join_append]
  simp [Lib.Fields.join]

theorem isDir_of_entry {fs : Fs} {i : ℕ} (hi : fs.entry l = some i)
    (hdir : (fs.node i).isDir = true) : fs.isDir l = true :=
  Fs.isDir_iff.mpr ⟨i, hi, hdir⟩

/-- The path of a directory leads to it. -/
theorem openDir_render {fs : Fs} (hparents : ∀ d, d <+: l.dropLast → fs.isDir d = true)
    (hnames : ∀ x ∈ l, Ordinary x) {i : ℕ} (hi : fs.entry l = some i)
    (hdir : (fs.node i).isDir = true) : openDir fs (render l) = .ok i := by
  have hres : Path.resolveFrom [] l = l := Path.resolveFrom_ordinary hnames
  have hway : ∀ v ∈ Fs.visited [] l, fs.isDir v = true := by
    intro v hv
    have hbelow := (Fs.prefix_of_mem_visited (Fs.noPops_ordinary hnames) v hv).2
    rw [hres] at hbelow
    by_cases heq : v = l
    · rw [heq]
      exact isDir_of_entry hi hdir
    · exact hparents v (Fs.prefix_dropLast_of_ne hbelow heq)
  have hwalk : ∀ follow, fs.walk follow 40 [] l = .ok l := by
    intro follow
    have hthrough : fs.walk follow 40 [] l = .ok (Path.resolveFrom [] l) :=
      Fs.walk_through 40 hway
    rwa [hres] at hthrough
  unfold openDir Fs.lstatPath
  dsimp only
  rw [Path.fields_render hnames, hwalk]
  simp [isDir_of_entry hi hdir, hi, hdir]

/-- Where nothing but directories is on the way, a walk ends there or not at all. -/
theorem walk_dirs {fs : Fs} (follow : Bool) (budget : ℕ) {cur cs : Loc}
    (hnames : ∀ x ∈ cs, Ordinary x)
    (hway : ∀ p, cur <+: p → p <+: cur ++ cs → fs.entry p = none ∨ fs.isDir p = true) :
    fs.walk follow budget cur cs = .ok (cur ++ cs) ∨
      ∃ e, fs.walk follow budget cur cs = .error e := by
  induction cs generalizing cur with
  | nil =>
    rw [List.append_nil]
    exact Or.inl (Fs.walk_nil budget)
  | cons x cs ih =>
    have hx := hnames x List.mem_cons_self
    have hnext : cur ++ x :: cs = cur ++ [x] ++ cs := by simp
    by_cases hdir : fs.isDir cur = true
    · rcases hway (cur ++ [x]) (List.prefix_append _ _) ⟨cs, by simp⟩ with hnone | hsome
      · exact Or.inr (Fs.walk_cons_error budget (Or.inr ⟨hx.2.1, hx.2.2, hnone⟩))
      · obtain ⟨i, hi, hkind⟩ := Fs.isDir_iff.mp hsome
        have hstep : Fs.lexStep cur x = cur ++ [x] := by simp [Fs.lexStep, hx.2.1, hx.2.2]
        have hwalk : fs.walk follow budget cur (x :: cs) =
            fs.walk follow budget (cur ++ [x]) cs := by
          rw [Fs.walk_cons budget hdir, hstep]
          intro _ _
          refine ⟨i, hi, fun target hlink => ?_⟩
          rw [Node.isDir_iff, hlink] at hkind
          cases hkind
        rw [hwalk, hnext]
        apply ih
        · exact fun y hy => hnames y (List.mem_cons_of_mem x hy)
        · intro p hlow hhigh
          apply hway p ((List.prefix_append _ _).trans hlow)
          rw [hnext]
          exact hhigh
    · exact Or.inr (Fs.walk_cons_error budget (Or.inl (Bool.eq_false_iff.mpr hdir)))

theorem openDir_entry {fs : Fs} (hnames : ∀ x ∈ l, Ordinary x)
    (hway : ∀ p, p <+: l → fs.entry p = none ∨ fs.isDir p = true) {fd : ℕ}
    (h : openDir fs (render l) = .ok fd) : fs.entry l = some fd := by
  unfold openDir Fs.lstatPath at h
  dsimp only at h
  rw [Path.fields_render hnames] at h
  have hwalk := walk_dirs ((render l).getLast? == some slash) 40 hnames
    (fun p _ (hp : p <+: [] ++ l) => hway p hp)
  rcases hwalk with hok | ⟨e, he⟩
  · rw [hok] at h
    dsimp only at h
    split at h
    · cases h
    · next i n hstat =>
      split_ifs at hstat h
      cases h
      split at hstat
      · cases hstat
      · next j hj =>
        cases hstat
        exact hj
  · rw [he] at h
    cases h

/-- The path of a directory at or below the start. -/
structure At (c : Config) (path : Bytes) (ino : ℕ) : Prop where
  rendered : path = render (resolve path)
  entry : c.world.fs.entry (resolve path) = some ino
  dir : (c.world.fs.node ino).isDir = true
  below : c.top <+: resolve path

theorem At.ne_nil {path : Bytes} {ino : ℕ} (h : At c path ino) : resolve path ≠ [] := by
  intro hnil
  have htop := h.below
  rw [hnil] at htop
  exact c.top_ne (List.prefix_nil.mp htop)

theorem At.root (htree : c.Tree) : At c (render c.top) c.rootIno := by
  have hres : resolve (render c.top) = c.top := Path.resolve_render c.ordinary
  obtain ⟨i, hi, hdir⟩ := Fs.isDir_iff.mp htree.start
  have hopened := openDir_render (htree.parents c.top (by rw [hi]; rfl)) c.ordinary hi hdir
  rw [c.root_found] at hopened
  cases hopened
  constructor
  · rw [hres]
  · rw [hres]
    exact hi
  · exact hdir
  · rw [hres]

theorem At.child (htree : c.Tree) {path joined name : Bytes} {ino child : ℕ} (h : At c path ino)
    (hchild : c.world.fs.entry (resolve path ++ [name]) = some child)
    (hdir : (c.world.fs.node child).isDir = true)
    (hjoin : pathJoinFast path name pathMax = some joined) :
    At c joined child ∧ resolve joined = resolve path ++ [name] := by
  have hnames := htree.names _ (by rw [hchild]; rfl)
  have hslash : path ≠ [slash] := by
    intro hroot
    apply h.ne_nil
    rw [hroot]
    rfl
  have hjoined : joined = render (resolve path ++ [name]) := by
    unfold pathJoinFast at hjoin
    rw [if_neg hslash] at hjoin
    dsimp only at hjoin
    split_ifs at hjoin
    cases hjoin
    rw [render_concat h.ne_nil, ← h.rendered]
  have hres : resolve joined = resolve path ++ [name] := by
    rw [hjoined, Path.resolve_render hnames]
  refine ⟨⟨?_, ?_, hdir, ?_⟩, hres⟩
  · rw [hres, hjoined]
  · rw [hres]
    exact hchild
  · rw [hres]
    exact h.below.trans (List.prefix_append _ _)

/-- What `rmdir_one` takes for the parent and the name. -/
theorem At.split (htree : c.Tree) {d : DirRec} (h : At c d.path d.ino) :
    d.parent = render (resolve d.path).dropLast ∧
      (resolve d.path).dropLast ++ [nameOf d.path] = resolve d.path := by
  have hnames := htree.names _ (by rw [h.entry]; rfl)
  obtain hnil | ⟨init, x, hloc⟩ := (resolve d.path).eq_nil_or_concat'
  · exact absurd hnil h.ne_nil
  have hx : Ordinary x := hnames x (by rw [hloc]; simp)
  have hpath : d.path = Lib.Fields.join slash init ++ slash :: x := by
    rw [h.rendered, hloc, Path.render_eq_join (by simp), Lib.Fields.join_append]
    simp
  have hrev : d.path.reverse = x.reverse ++ slash :: (Lib.Fields.join slash init).reverse := by
    rw [hpath]
    simp
  have hall : ∀ b ∈ x.reverse, (b != slash) = true := by
    intro b hb
    rw [List.mem_reverse] at hb
    exact bne_iff_ne.mpr fun heq => hx.1.2 (heq ▸ hb)
  have hparent : parentOf d.path = Lib.Fields.join slash init := by
    unfold parentOf
    rw [hrev, List.dropWhile_append_of_pos hall]
    simp
  have hname : nameOf d.path = x := by
    unfold nameOf
    rw [hparent, hpath, ← List.singleton_append, ← List.append_assoc, List.drop_left' (by simp)]
  rw [hloc, List.dropLast_concat, hname]
  refine ⟨?_, rfl⟩
  unfold DirRec.parent
  rw [hparent]
  unfold render
  cases init with
  | nil => rfl
  | cons y ys => simp

def MainPc.phase : MainPc → ℕ
  | .walking => 0
  | .draining => 1
  | .removing _ _ => 2
  | .complete => 3

/-- Entries only go, and none outside the start path; directories stay until the removal pass. -/
structure Kept (s : State c) : Prop where
  node : s.world.fs.node = c.world.fs.node
  entry : ∀ l, s.world.fs.entry l = none ∨ s.world.fs.entry l = c.world.fs.entry l
  closed : ∀ l l', l <+: l' → (s.world.fs.entry l').isSome = true →
    (s.world.fs.entry l).isSome = true
  below : ∀ l, ¬ c.top <+: l → s.world.fs.entry l = c.world.fs.entry l
  dirs : s.main.phase ≤ 1 → ∀ l, c.world.fs.isDir l = true →
    s.world.fs.entry l = c.world.fs.entry l

theorem Kept.start (htree : c.Tree) : Kept (State.start c) where
  node := rfl
  entry := fun _ => Or.inr rfl
  closed := by
    intro l l' hle hsome
    by_cases heq : l = l'
    · rw [heq]
      exact hsome
    · have hdir := htree.parents l' hsome l (Fs.prefix_dropLast_of_ne hle heq)
      obtain ⟨i, hi, -⟩ := Fs.isDir_iff.mp hdir
      exact Option.isSome_iff_exists.mpr ⟨i, hi⟩
  below := fun _ _ => rfl
  dirs := fun _ _ _ => rfl

theorem Kept.of_some (hs : Kept s) {l : Loc} {i : ℕ} (h : s.world.fs.entry l = some i) :
    c.world.fs.entry l = some i := by
  rcases hs.entry l with hnone | hsame
  · rw [hnone] at h
    cases h
  · rw [← hsame]
    exact h

/-- Where a descriptor's directory is. -/
theorem Kept.loc_eq (hs : Kept s) (htree : c.Tree) {l l' : Loc} {fd : ℕ}
    (h : s.world.fs.entry l = some fd) (h' : c.world.fs.entry l' = some fd)
    (hdir : (c.world.fs.node fd).isDir = true) : l = l' :=
  htree.single l l' fd (hs.of_some h) h' hdir

theorem Kept.tree (hs : Kept s) (htree : c.Tree) {l : Loc}
    (h : (s.world.fs.entry l).isSome = true) (d : Loc) (hd : d <+: l.dropLast) :
    s.world.fs.isDir d = true := by
  obtain ⟨i, hi⟩ := Option.isSome_iff_exists.mp
    (hs.closed d l (hd.trans (List.dropLast_prefix l)) h)
  obtain ⟨j, hj⟩ := Option.isSome_iff_exists.mp h
  have hdir := htree.parents l (by rw [hs.of_some hj]; rfl) d hd
  obtain ⟨k, hk, hkind⟩ := Fs.isDir_iff.mp hdir
  rw [hs.of_some hi] at hk
  cases hk
  exact isDir_of_entry hi (by rw [hs.node]; exact hkind)

/-- The path of a directory that is still there. -/
theorem Kept.openDir (hs : Kept s) (htree : c.Tree) {l : Loc} {i : ℕ}
    (hi : s.world.fs.entry l = some i) (hdir : (c.world.fs.node i).isDir = true) :
    openDir s.world.fs (render l) = .ok i := by
  apply openDir_render
  · exact hs.tree htree (by rw [hi]; rfl)
  · exact htree.names l (by rw [hs.of_some hi]; rfl)
  · exact hi
  · rw [hs.node]
    exact hdir

/-- What `rmdir_one` opens is the parent. -/
theorem Kept.parent (hs : Kept s) (htree : c.Tree) {d : DirRec} (hd : At c d.path d.ino) {fd : ℕ}
    (h : EDelete.openDir s.world.fs d.parent = .ok fd) :
    s.world.fs.entry (resolve d.path).dropLast = some fd := by
  have hnames := htree.names _ (by rw [hd.entry]; rfl)
  rw [(hd.split htree).1] at h
  apply openDir_entry _ _ h
  · exact fun x hx => hnames x (List.mem_of_mem_dropLast hx)
  · intro p hp
    obtain ⟨i, hi, hdir⟩ := Fs.isDir_iff.mp (htree.parents _ (by rw [hd.entry]; rfl) p hp)
    rcases hs.entry p with hnone | hsame
    · exact Or.inl hnone
    · rw [hi] at hsame
      exact Or.inr (isDir_of_entry hsame (by rw [hs.node]; exact hdir))

/-- A name goes below which there is nothing. -/
theorem Kept.unlink (hs : Kept s) (x : Loc) (i : ℕ) (now : ℤ) (hbelow : c.top <+: x)
    (hleaf : ∀ l, x <+: l → (s.world.fs.entry l).isSome = true → l = x)
    (hdirs : s.main.phase ≤ 1 → c.world.fs.isDir x = false) :
    Kept { s with world := s.world.unlink x i now } where
  node := hs.node
  entry := by
    intro l
    by_cases hl : l = x
    · subst hl
      exact Or.inl (Function.update_self ..)
    · dsimp only
      rw [unlink_entry_of_ne i now hl]
      exact hs.entry l
  closed := by
    intro l l' hle hsome
    dsimp only at hsome ⊢
    have hl' : l' ≠ x := by
      rintro rfl
      simp [World.unlink] at hsome
    rw [unlink_entry_of_ne i now hl'] at hsome
    have hl : l ≠ x := by
      rintro rfl
      exact hl' (hleaf l' hle hsome)
    rw [unlink_entry_of_ne i now hl]
    exact hs.closed l l' hle hsome
  below := by
    intro l hl
    dsimp only
    have hne : l ≠ x := by
      rintro rfl
      exact hl hbelow
    rw [unlink_entry_of_ne i now hne]
    exact hs.below l hl
  dirs := by
    intro hphase l hdir
    dsimp only
    have hl : l ≠ x := by
      rintro rfl
      rw [hdirs hphase] at hdir
      cases hdir
    rw [unlink_entry_of_ne i now hl]
    exact hs.dirs hphase l hdir

/-- Nothing lies below what is no directory. -/
theorem Kept.leaf (hs : Kept s) (htree : c.Tree) {x : Loc} {i : ℕ}
    (hi : s.world.fs.entry x = some i) (hfile : (c.world.fs.node i).isDir = false) (l : Loc)
    (hle : x <+: l) (hsome : (s.world.fs.entry l).isSome = true) : l = x := by
  by_contra hne
  have hdir := hs.tree htree hsome x (Fs.prefix_dropLast_of_ne hle (Ne.symm hne))
  obtain ⟨j, hj, hkind⟩ := Fs.isDir_iff.mp hdir
  rw [hi] at hj
  cases hj
  rw [hs.node, hfile] at hkind
  cases hkind

theorem Kept.empty (hs : Kept s) {x : Loc} (hempty : ∀ y, s.world.fs.entry (x ++ [y]) = none)
    (l : Loc) (hle : x <+: l) (hsome : (s.world.fs.entry l).isSome = true) : l = x := by
  obtain ⟨rest, rfl⟩ := hle
  cases rest with
  | nil => simp
  | cons y ys =>
    have hpre := hs.closed (x ++ [y]) (x ++ y :: ys) ⟨ys, by simp⟩ hsome
    rw [hempty y] at hpre
    cases hpre

structure Node.Ok (c : Config) (n : Node) : Prop extends At c n.path n.ino where
  depth : n.depth + c.top.length = (resolve n.path).length

structure DirRec.Ok (c : Config) (d : DirRec) : Prop extends At c d.path d.ino where
  depth : d.depth + c.top.length = (resolve d.path).length

/-- The location that `walk_entry` chose to delete. -/
def Event.picks : Event → Option Loc
  | .entry n name true => some (resolve n.path ++ [name])
  | _ => none

def picked (log : List Event) : List Loc := log.filterMap Event.picks

/-- A non-directory that was chosen. -/
def Target (c : Config) (log : List Event) (l : Loc) : Prop :=
  c.world.fs.isFile l = true ∧ l ∈ picked log

def Targets (c : Config) (log : List Event) (dir : Bytes) (names : List Bytes) : Prop :=
  ∀ x ∈ names, Target c log (resolve dir ++ [x])

/-- The rest of a buffer holds entries that were there from the start. -/
def Entries (c : Config) (dir : Bytes) (buf : List (Bytes × DType)) : Prop :=
  ∀ e ∈ buf, e.1 ≠ dot ∧ e.1 ≠ dotdot →
    ∃ i, c.world.fs.entry (resolve dir ++ [e.1]) = some i ∧
      TypeOf e.2 (c.world.fs.node i).isDir

def WalkPc.Ok (c : Config) (log : List Event) (b : List Bytes) : WalkPc → Prop
  | .opening n => n.Ok c
  | .checking n _ => n.Ok c
  | .reading n _ buf => n.Ok c ∧ Targets c log n.path b ∧ Entries c n.path buf
  | .pushing n child _ buf =>
    n.Ok c ∧ child.Ok c ∧ Targets c log n.path b ∧ Entries c n.path buf
  | .submitting n name _ buf =>
    n.Ok c ∧ Target c log (resolve n.path ++ [name]) ∧ Targets c log n.path b ∧
      Entries c n.path buf
  | .ending n => n.Ok c ∧ Targets c log n.path b
  | _ => True

structure Item.Ok (c : Config) (log : List Event) (it : Item) : Prop extends At c it.dir it.ino where
  names : Targets c log it.dir it.names

def WorkPc.Ok (c : Config) (log : List Event) : WorkPc → Prop
  | .working items => ∀ it ∈ items, it.Ok c log
  | .checking it _ items => it.Ok c log ∧ ∀ x ∈ items, x.Ok c log
  | .unlinking dir fd names items =>
    At c dir fd ∧ Targets c log dir names ∧ ∀ x ∈ items, x.Ok c log
  | _ => True

/-- `rmdir_one` holds the parent of its directory. -/
def RmPc.Ok (c : Config) (d : DirRec) : RmPc → Prop
  | .ready => True
  | .opened fd => c.world.fs.entry (resolve d.path).dropLast = some fd
  | .checked fd => c.world.fs.entry (resolve d.path).dropLast = some fd

def RmOk (c : Config) (t : RmPc × List DirRec) : Prop :=
  (∀ d ∈ t.2, d.Ok c) ∧ ∀ d ds, t.2 = d :: ds → t.1.Ok c d

def MainPc.Ok (c : Config) : MainPc → Prop
  | .removing level later => (∀ t ∈ level, RmOk c t) ∧ ∀ d ∈ later, d.Ok c
  | _ => True

structure Placed (s : State c) : Prop where
  queue : ∀ n ∈ s.queue, n.Ok c
  walker : ∀ i, (s.walker i).Ok c s.log (s.batch i)
  chan : ∀ j, ∀ it ∈ s.chan j, it.Ok c s.log
  worker : ∀ j, (s.worker j).Ok c s.log
  dirs : ∀ d ∈ s.dirs, d.Ok c
  main : s.main.Ok c

theorem Placed.start (htree : c.Tree) : Placed (State.start c) where
  queue := by
    intro n hn
    rw [List.mem_singleton.mp hn]
    refine ⟨At.root htree, ?_⟩
    have hres : resolve (render c.top) = c.top := Path.resolve_render c.ordinary
    simp [Config.rootNode, hres]
  walker := fun _ => trivial
  chan := nofun
  worker := fun _ => trivial
  dirs := nofun
  main := trivial

theorem Placed.walker_at (hs : Placed s) {i : Fin c.threads} {p : WalkPc} (h : s.walker i = p) :
    p.Ok c s.log (s.batch i) :=
  h ▸ hs.walker i

theorem Placed.worker_at (hs : Placed s) {j : Fin c.workers} {p : WorkPc} (h : s.worker j = p) :
    p.Ok c s.log :=
  h ▸ hs.worker j

theorem Placed.main_at (hs : Placed s) {m : MainPc} (h : s.main = m) : m.Ok c :=
  h ▸ hs.main

theorem mem_picked_append (h : l ∈ picked log) (ev : Event) : l ∈ picked (log ++ [ev]) := by
  unfold picked at h ⊢
  rw [List.filterMap_append]
  exact List.mem_append_left _ h

theorem Target.note (h : Target c log l) (ev : Event) : Target c (log ++ [ev]) l :=
  ⟨h.1, mem_picked_append h.2 ev⟩

theorem Targets.note (h : Targets c log dir names) (ev : Event) :
    Targets c (log ++ [ev]) dir names :=
  fun x hx => (h x hx).note ev

theorem Targets.nil : Targets c log dir [] := nofun

theorem Targets.add {name : Bytes} {b : List Bytes} {e : ℕ} (h : Targets c log dir names)
    (hname : Target c log (resolve dir ++ [name])) (hb : Added names name b e) :
    Targets c log dir b := by
  cases hb with
  | added => exact List.forall_mem_append.mpr ⟨h, List.forall_mem_singleton.mpr hname⟩
  | tooLong => exact h

theorem Entries.tail {e : Bytes × DType} {buf : List (Bytes × DType)}
    (h : Entries c dir (e :: buf)) : Entries c dir buf :=
  fun x hx => h x (List.mem_cons_of_mem e hx)

theorem WalkPc.Ok.note {b : List Bytes} {p : WalkPc} (h : p.Ok c log b) (ev : Event) :
    p.Ok c (log ++ [ev]) b := by
  cases p with
  | reading n given buf => exact ⟨h.1, h.2.1.note ev, h.2.2⟩
  | pushing n child given buf => exact ⟨h.1, h.2.1, h.2.2.1.note ev, h.2.2.2⟩
  | submitting n name given buf => exact ⟨h.1, h.2.1.note ev, h.2.2.1.note ev, h.2.2.2⟩
  | ending n => exact ⟨h.1, h.2.note ev⟩
  | _ => exact h

theorem Item.Ok.note {it : Item} (h : it.Ok c log) (ev : Event) : it.Ok c (log ++ [ev]) :=
  ⟨h.toAt, h.names.note ev⟩

theorem WorkPc.Ok.note {p : WorkPc} (h : p.Ok c log) (ev : Event) : p.Ok c (log ++ [ev]) := by
  cases p with
  | working items => exact fun it hit => (h it hit).note ev
  | checking it fd items => exact ⟨h.1.note ev, fun x hx => (h.2 x hx).note ev⟩
  | unlinking dir fd names items =>
    exact ⟨h.1, h.2.1.note ev, fun x hx => (h.2.2 x hx).note ev⟩
  | _ => trivial

theorem Placed.note (hs : Placed s) (ev : Event) : Placed { s with log := s.log ++ [ev] } where
  queue := hs.queue
  walker := fun i => (hs.walker i).note ev
  chan := fun j it hit => (hs.chan j it hit).note ev
  worker := fun j => (hs.worker j).note ev
  dirs := hs.dirs
  main := hs.main

theorem Placed.walkBatch (hs : Placed s) {i : Fin c.threads} {p : WalkPc} {b : List Bytes}
    (h : p.Ok c s.log b) :
    Placed { s with
      batch := Function.update s.batch i b
      walker := Function.update s.walker i p } := by
  refine { hs with walker := fun k => ?_ }
  dsimp only
  by_cases hk : k = i
  · subst hk
    rw [Function.update_self, Function.update_self]
    exact h
  · rw [Function.update_of_ne hk, Function.update_of_ne hk]
    exact hs.walker k

theorem Placed.walk (hs : Placed s) {i : Fin c.threads} {p : WalkPc}
    (h : p.Ok c s.log (s.batch i)) : Placed { s with walker := Function.update s.walker i p } := by
  have hmoved := hs.walkBatch (i := i) (b := s.batch i) h
  rw [Function.update_eq_self] at hmoved
  exact hmoved

theorem Placed.work (hs : Placed s) {j : Fin c.workers} {p : WorkPc} (h : p.Ok c s.log) :
    Placed { s with worker := Function.update s.worker j p } := by
  refine { hs with worker := fun k => ?_ }
  dsimp only
  by_cases hk : k = j
  · subst hk
    rw [Function.update_self]
    exact h
  · rw [Function.update_of_ne hk]
    exact hs.worker k

theorem Placed.setChan (hs : Placed s) {j : Fin c.workers} {items : List Item}
    (h : ∀ it ∈ items, it.Ok c s.log) :
    Placed { s with chan := Function.update s.chan j items } := by
  refine { hs with chan := fun k => ?_ }
  dsimp only
  by_cases hk : k = j
  · subst hk
    rw [Function.update_self]
    exact h
  · rw [Function.update_of_ne hk]
    exact hs.chan k

theorem Placed.flush (hs : Placed s) {i : Fin c.threads} {n : Node}
    {chan : Fin c.workers → List Item} (h : Flushed s i n chan) (hn : n.Ok c)
    (hnames : Targets c s.log n.path (s.batch i)) : Placed { s with chan := chan } := by
  cases h with
  | dropped off => exact hs
  | queued on =>
    apply hs.setChan
    exact List.forall_mem_append.mpr
      ⟨hs.chan _, List.forall_mem_singleton.mpr ⟨hn.toAt, hnames⟩⟩

/-- One thread of the removal pass goes on. -/
theorem RmOk.set {level : List (RmPc × List DirRec)} (h : ∀ t ∈ level, RmOk c t) (k : ℕ)
    {t : RmPc × List DirRec} (ht : RmOk c t) : ∀ t' ∈ level.set k t, RmOk c t' := by
  intro t' ht'
  rcases List.mem_or_eq_of_mem_set ht' with hmem | rfl
  · exact h t' hmem
  · exact ht

theorem mem_slice {level : List DirRec} {count idx : ℕ} {d : DirRec}
    (h : d ∈ slice level count idx) : d ∈ level :=
  List.mem_of_mem_take (List.mem_of_mem_drop h)

theorem nextLevel_mem (c : Config) (later : List DirRec) :
    (∀ t ∈ (nextLevel c later).1, t.1 = .ready ∧ ∀ d ∈ t.2, d ∈ later) ∧
      ∀ d ∈ (nextLevel c later).2, d ∈ later := by
  cases later with
  | nil => exact ⟨nofun, nofun⟩
  | cons d ds =>
    constructor
    · intro t ht
      obtain ⟨idx, -, rfl⟩ := List.mem_map.mp ht
      refine ⟨rfl, fun x hx => ?_⟩
      rcases List.mem_cons.mp (mem_slice hx) with rfl | hmem
      · exact List.mem_cons_self
      · exact List.mem_cons_of_mem d ((List.takeWhile_sublist _).subset hmem)
    · intro x hx
      exact List.mem_cons_of_mem d ((List.dropWhile_sublist _).subset hx)

theorem mem_picked_self (log : List Event) (n : Node) (name : Bytes) :
    resolve n.path ++ [name] ∈ picked (log ++ [.entry n name true]) := by
  unfold picked
  rw [List.filterMap_append]
  exact List.mem_append_right _ (by simp [Event.picks])

/-- What `Seen` says about the file system as it was in the beginning. -/
theorem Seen.entry (hkept : Kept s) (htree : c.Tree) {n : Node} {name : Bytes} {t : DType}
    {l : Option Loc} {st : Option Stat} (h : Seen s n name t l st) (hn : n.Ok c)
    {buf : List (Bytes × DType)} (hbuf : Entries c n.path ((name, t) :: buf))
    (hproper : name ≠ dot ∧ name ≠ dotdot) :
    ∃ i, c.world.fs.entry (resolve n.path ++ [name]) = some i ∧
      (c.world.fs.node i).isDir = false ∧ ∀ x, st = some x → x = s.world.stat i := by
  cases h with
  | lazily skip =>
    obtain ⟨i, hi, htype⟩ := hbuf (name, t) List.mem_cons_self hproper
    refine ⟨i, hi, ?_, nofun⟩
    simp only [skipStat, Bool.and_eq_true, bne_iff_ne, ne_eq] at skip
    cases t with
    | unknown => exact absurd rfl skip.1.2
    | directory => exact absurd rfl skip.2
    | other => exact htype
  | stat at_dir child given dir entry file =>
    have hloc : at_dir = resolve n.path := hkept.loc_eq htree dir hn.entry hn.dir
    rw [hloc] at entry
    refine ⟨child, hkept.of_some entry, ?_, ?_⟩
    · rw [← hkept.node]
      exact file
    · rintro x hx
      cases hx
      rfl

theorem Seen.target (hkept : Kept s) (htree : c.Tree) {n : Node} {name : Bytes} {t : DType}
    {l : Option Loc} {st : Option Stat} (h : Seen s n name t l st) (hn : n.Ok c)
    {buf : List (Bytes × DType)} (hbuf : Entries c n.path ((name, t) :: buf))
    (hproper : name ≠ dot ∧ name ≠ dotdot) :
    Target c (s.log ++ [.entry n name true]) (resolve n.path ++ [name]) := by
  obtain ⟨i, hi, hfile, -⟩ := h.entry hkept htree hn hbuf hproper
  exact ⟨Fs.isFile_iff.mpr ⟨i, hi, hfile⟩, mem_picked_self s.log n name⟩

theorem Added.errors {b : List Bytes} {name : Bytes} {e : ℕ} (h : Added names name b e)
    (he : e = 0) : b = names ++ [name] := by
  cases h with
  | added => rfl
  | tooLong => cases he

theorem Move.placed {a : Act c} (h : Move s a u) (htree : c.Tree) (hcalm : Calm s a)
    (hbefore : s.errors = 0) (herrors : u.errors = 0) (hstop : s.stop = false)
    (htraced : Traced s) (hkept : Kept s) (hs : Placed s) : Placed u := by
  cases h with
  | popNode i n queue idle first =>
    have hqueue := hs.queue
    rw [first] at hqueue
    have hmoved := hs.walk (i := i) (p := .opening n) (hqueue n List.mem_cons_self)
    exact { hmoved with queue := fun m hm => hqueue m (List.mem_cons_of_mem n hm) }
  | walkerExit i idle complete => exact hs.walk (p := .exited) trivial
  | nodeOpened i n fd at_node opened =>
    have hat := hs.walker_at at_node
    exact hs.walk (p := .checking n fd) hat
  | nodeBegun i n k w at_node dir counted =>
    have hat := hs.walker_at at_node
    have hbatch := htraced.walker_at at_node
    have hp : (WalkPc.reading n [] []).Ok c s.log (s.batch i) := by
      rw [hbatch.2]
      exact ⟨hat, .nil, nofun⟩
    have hmoved := (hs.walk hp).note (.begun n)
    refine { hmoved with dirs := fun d hd => ?_ }
    dsimp only at hd
    split_ifs at hd
    · exact hs.dirs d hd
    · rcases List.mem_append.mp hd with hd | hd
      · exact hs.dirs d hd
      · rw [List.mem_singleton.mp hd]
        exact ⟨hat.toAt, hat.depth⟩
  | filled i n given l chunk at_end dir real more =>
    have hat := hs.walker_at at_end
    have hstream := hcalm.2 n given l at_end rfl
    have hloc : l = resolve n.path := hkept.loc_eq htree dir hat.1.entry hat.1.dir
    have hp : (WalkPc.reading n (given ++ chunk.map Prod.fst) chunk).Ok c
        (s.log ++ [.read s.world.fs l (chunk.map Prod.fst)]) (s.batch i) := by
      refine ⟨hat.1, hat.2.1.note _, fun e he hproper => ?_⟩
      have hreal := (real e he).resolve_right (not_or.mpr hproper)
      obtain ⟨x, hx⟩ := Option.isSome_iff_exists.mp hreal
      have htype := hstream.truthful e he x hx
      rw [hkept.node] at htype
      exact ⟨x, hloc ▸ hkept.of_some hx, htype⟩
    exact (hs.note _).walk hp
  | eof i n given l at_end dir =>
    have hat := hs.walker_at at_end
    exact hs.walk (p := .ending n) ⟨hat.1, hat.2.1⟩
  | stopReading i n given buf l at_entry stopping =>
    rw [hstop] at stopping
    cases stopping
  | skipDots i n given name t buf l at_entry dots =>
    have hat := hs.walker_at at_entry
    exact hs.walk (p := .reading n given buf) ⟨hat.1, hat.2.1, hat.2.2.tail⟩
  | descend i n given name t buf l child path at_entry proper dir entry is_dir joined =>
    have hat := hs.walker_at at_entry
    have hloc : l = resolve n.path := hkept.loc_eq htree dir hat.1.entry hat.1.dir
    rw [hloc] at entry
    rw [hkept.node] at is_dir
    obtain ⟨hchild, hres⟩ := hat.1.toAt.child htree (hkept.of_some entry) is_dir joined
    have hdepth : n.depth + 1 + c.top.length = (resolve path).length := by
      rw [hres, List.length_append, List.length_singleton, ← hat.1.depth]
      omega
    have hp : (WalkPc.pushing n ⟨path, child, n.depth + 1⟩ given buf).Ok c s.log (s.batch i) :=
      ⟨hat.1, ⟨hchild, hdepth⟩, hat.2.1, hat.2.2.tail⟩
    exact (hs.walk hp).note _
  | keep i n given name t buf l st k w at_entry proper seen chosen counted =>
    have hat := hs.walker_at at_entry
    have hp : (WalkPc.reading n given buf).Ok c s.log (s.batch i) :=
      ⟨hat.1, hat.2.1, hat.2.2.tail⟩
    have hmoved := (hs.walk hp).note (.entry n name false)
    exact { hmoved with }
  | count i n given name t buf l st k w at_entry proper seen chosen counted dry =>
    have hat := hs.walker_at at_entry
    have hp : (WalkPc.reading n given buf).Ok c s.log (s.batch i) :=
      ⟨hat.1, hat.2.1, hat.2.2.tail⟩
    have hmoved := (hs.walk hp).note (.entry n name true)
    exact { hmoved with }
  | full i n given name t buf l st k w at_entry proper seen chosen counted delete =>
    have hat := hs.walker_at at_entry
    have htarget := seen.target hkept htree hat.1 hat.2.2 proper
    have hp : (WalkPc.submitting n name given buf).Ok c (s.log ++ [.entry n name true])
        (s.batch i) := ⟨hat.1, htarget, hat.2.1.note _, hat.2.2.tail⟩
    have hmoved := (hs.note (.entry n name true)).walk hp
    exact { hmoved with }
  | add i n given name t buf l st k w b e at_entry proper seen chosen counted delete kept =>
    have hat := hs.walker_at at_entry
    have htarget := seen.target hkept htree hat.1 hat.2.2 proper
    have hp : (WalkPc.reading n given buf).Ok c (s.log ++ [.entry n name true]) b :=
      ⟨hat.1, (hat.2.1.note _).add htarget kept, hat.2.2.tail⟩
    have hmoved := (hs.note (.entry n name true)).walkBatch (i := i) hp
    exact { hmoved with }
  | pushed i n child given buf at_push =>
    have hat := hs.walker_at at_push
    have hmoved := hs.walk (i := i) (p := .reading n given buf) ⟨hat.1, hat.2.2⟩
    exact { hmoved with
      queue := List.forall_mem_append.mpr ⟨hs.queue, List.forall_mem_singleton.mpr hat.2.1⟩ }
  | submitted i n name given buf chan b e at_push sent kept =>
    have hat := hs.walker_at at_push
    have hp : (WalkPc.reading n given buf).Ok c s.log b :=
      ⟨hat.1, Targets.nil.add hat.2.1 kept, hat.2.2.2⟩
    have hmoved := (hs.flush sent hat.1 hat.2.2.1).walkBatch (i := i) hp
    exact { hmoved with }
  | flushed i n chan at_end sent delete =>
    have hat := hs.walker_at at_end
    have hp : (WalkPc.ending n).Ok c s.log [] := ⟨hat.1, .nil⟩
    have hmoved := (hs.flush sent hat.1 hat.2).walkBatch (i := i) hp
    have hsame : Function.update s.walker i (.ending n) = s.walker := by
      rw [← at_end, Function.update_eq_self]
    rw [hsame] at hmoved
    exact hmoved
  | dirEnd i n at_end empty =>
    have hmoved := hs.walk (i := i) (p := .leaving) trivial
    exact { hmoved with }
  | finish i done at_end last =>
    have hmoved := hs.walk (i := i) (p := .top) trivial
    exact { hmoved with }
  | taken j idle some_items =>
    have hp : (WorkPc.working (s.chan j)).Ok c s.log := hs.chan j
    have hnone : ∀ it ∈ ([] : List Item), it.Ok c s.log := nofun
    exact (hs.setChan hnone).work hp
  | workerExit j idle complete => exact hs.work (p := .exited) trivial
  | rested j fault at_end => exact hs.work (p := .idle) trivial
  | batchSkipped j fault it items e at_item why =>
    have hat := hs.worker_at at_item
    have hp : (WorkPc.working items).Ok c s.log := fun x hx => hat x (List.mem_cons_of_mem it hx)
    have hmoved := hs.work (j := j) hp
    exact { hmoved with }
  | batchOpened j it fd items at_item opened =>
    have hat := hs.worker_at at_item
    have hp : (WorkPc.checking it fd items).Ok c s.log :=
      ⟨hat it List.mem_cons_self, fun x hx => hat x (List.mem_cons_of_mem it hx)⟩
    exact hs.work hp
  | batchChecked j it items at_item dir =>
    have hat := hs.worker_at at_item
    exact hs.work (p := .unlinking it.dir it.ino it.names items) ⟨hat.1.toAt, hat.1.names, hat.2⟩
  | batchDone j dir fd items l now fault at_end =>
    have hat := hs.worker_at at_end
    exact hs.work (p := .working items) hat.2.2
  | unlinkMissed j dir fd name names items l now fault e at_name why =>
    have hat := hs.worker_at at_name
    have hp : (WorkPc.unlinking dir fd names items).Ok c s.log :=
      ⟨hat.1, fun x hx => hat.2.1 x (List.mem_cons_of_mem name hx), hat.2.2⟩
    have hmoved := hs.work (j := j) hp
    exact { hmoved with }
  | unlinked j dir fd name names items l now child at_name found entry file =>
    have hat := hs.worker_at at_name
    have hp : (WorkPc.unlinking dir fd names items).Ok c s.log :=
      ⟨hat.1, fun x hx => hat.2.1 x (List.mem_cons_of_mem name hx), hat.2.2⟩
    have hmoved := hs.work (j := j) hp
    exact { hmoved with }
  | dryOver walking left dry => exact { hs with main := trivial }
  | close walking left delete => exact { hs with main := trivial }
  | interrupted draining left stopping => exact { hs with chan := nofun, main := trivial }
  | drained draining left =>
    refine { hs with chan := nofun, main := ⟨nofun, fun d hd => hs.dirs d ?_⟩ }
    exact List.mem_mergeSort.mp hd
  | removalOver level removing joined => exact { hs with main := trivial }
  | levelOver level later removing joined more =>
    have hat := hs.main_at removing
    have hnext := nextLevel_mem c later
    refine { hs with main := ⟨fun t ht => ?_, fun d hd => hat.2 d (hnext.2 d hd)⟩ }
    obtain ⟨hready, hmem⟩ := hnext.1 t ht
    refine ⟨fun d hd => hat.2 d (hmem d hd), fun d ds _ => ?_⟩
    rw [hready]
    trivial
  | rmSkipped k l empty fault level later p d ds e removing at_rec why =>
    have hat := hs.main_at removing
    have hrec := hat.1 _ (List.mem_of_getElem? at_rec)
    have ht : RmOk c (.ready, ds) :=
      ⟨fun x hx => hrec.1 x (List.mem_cons_of_mem d hx), fun _ _ _ => trivial⟩
    exact { hs with main := ⟨RmOk.set hat.1 k ht, hat.2⟩ }
  | rmOpened k l empty level later d ds fd removing at_rec opened =>
    have hat := hs.main_at removing
    have hrec := hat.1 _ (List.mem_of_getElem? at_rec)
    have hd := hrec.1 d List.mem_cons_self
    have hparent := hkept.parent htree hd.toAt opened
    have ht : RmOk c (.opened fd, d :: ds) := by
      refine ⟨hrec.1, fun x xs hx => ?_⟩
      cases hx
      exact hkept.of_some hparent
    exact { hs with main := ⟨RmOk.set hat.1 k ht, hat.2⟩ }
  | rmChecked k l empty fault level later d ds fd removing at_rec found entry dir =>
    have hat := hs.main_at removing
    have hrec := hat.1 _ (List.mem_of_getElem? at_rec)
    have ht : RmOk c (.checked fd, d :: ds) := by
      refine ⟨hrec.1, fun x xs hx => ?_⟩
      exact hrec.2 x xs hx
    exact { hs with main := ⟨RmOk.set hat.1 k ht, hat.2⟩ }
  | removed k l level later d ds fd child removing at_rec found entry dir =>
    have hat := hs.main_at removing
    have hrec := hat.1 _ (List.mem_of_getElem? at_rec)
    have ht : RmOk c (.ready, ds) :=
      ⟨fun x hx => hrec.1 x (List.mem_cons_of_mem d hx), fun _ _ _ => trivial⟩
    exact { hs with main := ⟨RmOk.set hat.1 k ht, hat.2⟩ }
  | shutdown => exact hcalm.elim
  | tamper w => exact hcalm.elim
  | nodeUnread i n k w at_node => cases hcalm
  | readFailed i n given chunk at_end => exact absurd rfl hcalm.1
  | _ =>
    dsimp only at herrors
    omega

/-- Where a thread of the removal pass that holds the parent is about to remove a directory. -/
theorem Placed.held (hs : Placed s) (htree : c.Tree) (hkept : Kept s)
    {level : List (RmPc × List DirRec)} {later : List DirRec}
    (hmain : s.main = .removing level later) {k : ℕ} {p : RmPc} {d : DirRec} {ds : List DirRec}
    (hrec : level[k]? = some (p, d :: ds)) {fd : ℕ} (hp : p = .opened fd ∨ p = .checked fd)
    {l : Loc} (hl : s.world.fs.entry l = some fd) : l ++ [nameOf d.path] = resolve d.path := by
  have hat := hs.main_at hmain
  have hok := hat.1 _ (List.mem_of_getElem? hrec)
  have hd := hok.1 d List.mem_cons_self
  have hparent : c.world.fs.entry (resolve d.path).dropLast = some fd := by
    rcases hp with rfl | rfl
    · exact hok.2 d ds rfl
    · exact hok.2 d ds rfl
  obtain ⟨i, hi, hkind⟩ := Fs.isDir_iff.mp
    (htree.parents _ (by rw [hd.entry]; rfl) _ (List.prefix_refl _))
  rw [hparent] at hi
  cases hi
  rw [hkept.loc_eq htree hl hparent hkind]
  exact (hd.toAt.split htree).2

theorem Move.kept {a : Act c} (h : Move s a u) (htree : c.Tree) (hcalm : Calm s a)
    (hplaced : Placed s) (hs : Kept s) : Kept u := by
  cases h with
  | unlinked j dir fd name names items l now child at_name found entry file =>
    have hat := hplaced.worker_at at_name
    have hloc : l = resolve dir := hs.loc_eq htree found hat.1.entry hat.1.dir
    have hfile : (c.world.fs.node child).isDir = false := by
      rw [← hs.node]
      exact file
    have hnotdir : c.world.fs.isDir (l ++ [name]) = false := by
      unfold Fs.isDir
      rw [hs.of_some entry]
      exact hfile
    have hmoved := hs.unlink (l ++ [name]) child now
      (hloc ▸ hat.1.below.trans (List.prefix_append _ _)) (hs.leaf htree entry hfile)
      fun _ => hnotdir
    exact { hmoved with }
  | removed k l level later d ds fd child removing at_rec found entry dir =>
    have hat := hplaced.main_at removing
    have hrec := hat.1 _ (List.mem_of_getElem? at_rec)
    have hd := hrec.1 d List.mem_cons_self
    have hloc := hplaced.held htree hs removing at_rec (Or.inr rfl) found
    have hempty := (hcalm.2.2 level later _ d ds l removing at_rec rfl).mp rfl
    have hlate : ¬s.main.phase ≤ 1 := by
      rw [removing]
      simp [MainPc.phase]
    have hmoved := hs.unlink (l ++ [nameOf d.path]) child (s.world.ctime child)
      (hloc ▸ hd.below) (hs.empty hempty) (fun hphase => absurd hphase hlate)
    refine { hmoved with dirs := fun hphase => ?_ }
    simp [MainPc.phase] at hphase
  | tamper w => exact hcalm.elim
  | close walking left delete =>
    exact { hs with dirs := fun _ => hs.dirs (by simp [walking, MainPc.phase]) }
  | dryOver walking left dry => exact { hs with dirs := nofun }
  | interrupted draining left stopping => exact { hs with dirs := nofun }
  | drained draining left => exact { hs with dirs := nofun }
  | removalOver level removing joined => exact { hs with dirs := nofun }
  | levelOver level later removing joined more => exact { hs with dirs := nofun }
  | rmSkipped k l empty fault level later p d ds e removing at_rec why =>
    exact { hs with dirs := nofun }
  | rmOpened k l empty level later d ds fd removing at_rec opened =>
    exact { hs with dirs := nofun }
  | rmChecked k l empty fault level later d ds fd removing at_rec found entry dir =>
    exact { hs with dirs := nofun }
  | _ => exact { hs with }

/-- What holds in every run without errors. -/
structure Ground (s : State c) : Prop where
  traced : Traced s
  kept : Kept s
  placed : Placed s

theorem Ground.start (htree : c.Tree) : Ground (State.start c) :=
  ⟨Traced.start c, Kept.start htree, Placed.start htree⟩

theorem Move.ground {a : Act c} (h : Move s a u) (htree : c.Tree) (hcalm : Calm s a)
    (hbefore : s.errors = 0) (herrors : u.errors = 0) (hstop : s.stop = false) (hs : Ground s) :
    Ground u :=
  ⟨h.traced hs.traced, h.kept htree hcalm hs.placed hs.kept,
    h.placed htree hcalm hbefore herrors hstop hs.traced hs.kept hs.placed⟩

end Ecopy.EDelete
