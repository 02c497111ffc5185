import Ecopy.Lib.Interference
import Ecopy.Metadata.DirModes
import Ecopy.Metadata.DirSteps
import Ecopy.Workers.SmallCopy

/-!
# Programs that make directories

The processes of a run share the file system: the client alone for a local destination, one server
for each connection for a remote one. Each has a memory of its own. A plan says which mode each
location is to end with, and a permit where directories may be made.

Whatever the others do, a directory that the run has made stays, and its mode changes only to the
one it is to have. What a process has recorded of a directory is the mode it was made with, and
either that is still its mode or the right one has been set since.
-/
namespace Ecopy.Metadata.DirMakers
open Protocol Ecopy.Path FileSystem Server Lib.Calls
open DirSteps

/-- `begun` are the directories that the walk has come to. -/
structure Shared (n : ℕ) where
  fs : Fs
  mem : Fin n → World
  begun : List (List Bytes)

section Answer
variable {n : ℕ}

/-- The world as one process sees it. -/
def Shared.view (s : Shared n) (c : Fin n) : World := { s.mem c with fs := s.fs }

def Shared.store (s : Shared n) (c : Fin n) (w : World) : Shared n :=
  { s with fs := w.fs, mem := Function.update s.mem c w }

def answer (who : Fin n → Identity) (c : Fin n) (s : Shared n) (x : Choice) (call : Call) :
    Option (call.Result × Shared n) :=
  (answerIds (who c) (s.view c) x call).map fun out => (out.1, s.store c out.2)

end Answer

/-- The state before the run, the root of the destination, and the directories of the source with
what is recorded of them. -/
structure Plan where
  base : Fs
  root : Loc
  source : List (List Bytes × Meta)

/-- The bits of `rwxrwxrwx`. -/
def bits (mode : UInt32) : UInt32 := mode &&& 0x1FF

/-- The permission bits that the directory at `l` is to end with, where it has a counterpart. -/
def Plan.want (p : Plan) (l : Loc) : Option UInt32 :=
  if p.root <+: l then (p.source.lookup (l.drop p.root.length)).map fun m => bits m.mode else none

def Plan.Right (p : Plan) (l : Loc) (mode : UInt32) : Prop := p.want l = some (bits mode)

/-- Where directories may be made, depending on how far the walk is. -/
structure Permit where
  allows : List (List Bytes) → Loc → Prop
  mono : ∀ {done done' l}, done ⊆ done' → allows done l → allows done' l

def Permit.none : Permit := ⟨fun _ _ => False, fun _ => False.elim⟩

section Relations
variable {n : ℕ} {p : Plan} {P : Permit} {s t u : Shared n} {l : Loc} {m : UInt32}

/-- A directory of this run was made with the mode `m`, and has it or the right one. -/
def Made (p : Plan) (s : Shared n) (l : Loc) (m : UInt32) : Prop :=
  ∃ i, p.base.next ≤ i ∧ DirAt s.fs l i ∧
    (bits (s.fs.node i).mode = bits m ∨ p.Right l (s.fs.node i).mode)

structure Tidy (p : Plan) (s : Shared n) : Prop where
  tree : s.fs.Tree
  next : p.base.next ≤ s.fs.next
  unique : ∀ l l' i, p.base.next ≤ i → DirAt s.fs l i → DirAt s.fs l' i → l = l'
  cached : ∀ c d m, (s.mem c).dirCache d = some (.ready (some m)) → Made p s (resolve d) m

/-- What any process may do to the others. -/
structure Onward (p : Plan) (P : Permit) (s t : Shared n) : Prop where
  next : s.fs.next ≤ t.fs.next
  kinds : ∀ i, i < s.fs.next → (t.fs.node i).isDir = (s.fs.node i).isDir
  begun : s.begun ⊆ t.begun
  errors : ∀ c, (s.mem c).errors ≠ [] → (t.mem c).errors ≠ []
  kept : ∀ l i, DirAt s.fs l i → DirAt t.fs l i
  fresh : ∀ l i, DirAt t.fs l i → DirAt s.fs l i ∨ p.base.next ≤ i ∧ P.allows t.begun l
  mode : ∀ l i, p.base.next ≤ i → DirAt s.fs l i →
    (t.fs.node i).mode = (s.fs.node i).mode ∨ p.Right l (t.fs.node i).mode

def Rely (p : Plan) (P : Permit) (s t : Shared n) : Prop := Tidy p s → Tidy p t ∧ Onward p P s t

theorem Onward.refl (s : Shared n) : Onward p P s s where
  next := le_refl _
  kinds := fun _ _ => rfl
  begun := fun _ h => h
  errors := fun _ h => h
  kept := fun _ _ h => h
  fresh := fun _ _ h => .inl h
  mode := fun _ _ _ _ => .inl rfl

theorem Onward.trans (h : Onward p P s t) (h' : Onward p P t u) : Onward p P s u where
  next := h.next.trans h'.next
  kinds := fun i hi => (h'.kinds i (hi.trans_le h.next)).trans (h.kinds i hi)
  begun := fun _ hx => h'.begun (h.begun hx)
  errors := fun c hc => h'.errors c (h.errors c hc)
  kept := fun l i hi => h'.kept l i (h.kept l i hi)
  fresh := by
    intro l i hi
    rcases h'.fresh l i hi with hi | hi
    · rcases h.fresh l i hi with hi | ⟨hnew, hallow⟩
      · exact .inl hi
      · exact .inr ⟨hnew, P.mono h'.begun hallow⟩
    · exact .inr hi
  mode := by
    intro l i hnew hi
    rcases h'.mode l i hnew (h.kept l i hi) with heq | hright
    · rw [heq]
      exact h.mode l i hnew hi
    · exact .inr hright

instance : Std.Refl (Rely (n := n) p P) := ⟨fun s hs => ⟨hs, .refl s⟩⟩

instance : IsTrans (Shared n) (Rely p P) where
  trans := by
    intro s t u hst htu hs
    obtain ⟨ht, h⟩ := hst hs
    obtain ⟨hu, h'⟩ := htu ht
    exact ⟨hu, h.trans h'⟩

theorem Made.onward (h : Made p s l m) (ho : Onward p P s t) : Made p t l m := by
  obtain ⟨i, hnew, hi, hmode⟩ := h
  refine ⟨i, hnew, ho.kept l i hi, ?_⟩
  rcases ho.mode l i hnew hi with heq | hright
  · rwa [heq]
  · exact .inr hright

/-- There is a directory, or one may be made. -/
def Fine (P : Permit) (s : Shared n) (l : Loc) : Prop := (∃ i, DirAt s.fs l i) ∨ P.allows s.begun l

theorem Fine.onward (h : Fine P s l) (ho : Onward p P s t) : Fine P t l := by
  rcases h with ⟨i, hi⟩ | hallow
  · exact .inl ⟨i, ho.kept l i hi⟩
  · exact .inr (P.mono ho.begun hallow)

end Relations

section Calls
variable {n : ℕ} {who : Fin n → Identity} {p : Plan} {P : Permit} {s t : Shared n} {c : Fin n}
variable {x : Choice} {call : Call} {r : call.Result}

/-- What the plan and the permit ask of a call. -/
structure Permitted (p : Plan) (P : Permit) (s : Shared n) (call : Call) : Prop where
  file : MovesFile s.fs call
  made : ∀ l, makes call l → Fine P s l
  mode : ∀ fd mode l, call = .fchmod fd mode → p.base.next ≤ fd.ino → DirAt s.fs l fd.ino →
    p.Right l mode
  cache : ∀ d m, call = .settleDir d (.ready (some m)) → Made p s (resolve d) m

/-- The calls that ask for nothing. -/
def Plain : Call → Prop
  | .mkdir _ _ | .fchmod _ _ | .rename _ _ | .settleDir _ _ => False
  | _ => True

theorem permitted_of_plain (h : Plain call) : Permitted p P s call := by
  cases call with
  | mkdir | fchmod | rename | settleDir => exact h.elim
  | _ => exact ⟨trivial, fun _ => False.elim, by simp, by simp⟩

theorem bits_and (mode : UInt32) : bits (mode &&& 0xFFF) = bits mode := by
  unfold bits
  rw [UInt32.and_assoc]
  rfl

theorem makes_unique {l l' : Loc} (h : makes call l) (h' : makes call l') : l = l' := by
  cases call with
  | mkdir q mode => exact Eq.trans h (Eq.symm h')
  | _ => exact h.elim

/-- The rule for one call of one process. -/
theorem onward_of_answer (hs : Tidy p s) (hp : Permitted p P s call)
    (h : answer who c s x call = some (r, t)) : Tidy p t ∧ Onward p P s t := by
  obtain ⟨⟨r', w⟩, hanswer, heq⟩ := Option.map_eq_some_iff.mp h
  obtain ⟨rfl, rfl⟩ := Prod.mk.inj heq
  have hsteps : Steps (makes call) (remodes call) s.fs w.fs := steps_of_answer hs.tree hp.file hanswer
  have hold : ∀ l i, DirAt s.fs l i → i < s.fs.next := fun l i hi => hi.bounded hs.tree
  have honward : Onward p P s (s.store c w) := by
    refine ⟨hsteps.next, hsteps.kinds, fun _ hx => hx, ?_, hsteps.kept, ?_, ?_⟩
    · intro d hd
      by_cases hcd : d = c
      · subst hcd
        have herr : w.errors ≠ [] := DirModes.answerIds_errors hanswer hd
        simpa [Shared.store] using herr
      · simpa [Shared.store, hcd] using hd
    · intro l i hi
      rcases hsteps.fresh l i hi with hi | ⟨rfl, hmade, hnone⟩
      · exact .inl hi
      · refine .inr ⟨hs.next, ?_⟩
        rcases hp.made l hmade with ⟨j, hj, -⟩ | hallow
        · rw [hnone] at hj
          cases hj
        · exact hallow
    · intro l i hnew hi
      by_cases hchange : remodes call i
      · cases call with
        | fchmod fd mode =>
          obtain rfl : fd.ino = i := hchange
          have hmoded := answerIds_fchmod hanswer
          have hmode := hmoded.mode
          cases hok : r'.isOk with
          | false =>
            rw [hok] at hmode
            exact .inl hmode
          | true =>
            right
            have hset : (w.fs.node fd.ino).mode = mode &&& 0xFFF := by simpa [hok] using hmode
            unfold Plan.Right
            change p.want l = some (bits (w.fs.node fd.ino).mode)
            rw [hset, bits_and]
            exact hp.mode fd mode l rfl hnew hi
        | _ => exact hchange.elim
      · exact .inl (hsteps.mode i (hold l i hi) hi.2 hchange)
  refine ⟨⟨answerIds_tree hs.tree hanswer, hs.next.trans hsteps.next, ?_, ?_⟩, honward⟩
  · intro l l' i hnew hi hi'
    rcases hsteps.fresh l i hi with hi | ⟨rfl, hmade, -⟩
    · rcases hsteps.fresh l' i hi' with hi' | ⟨rfl, -, -⟩
      · exact hs.unique l l' i hnew hi hi'
      · exact absurd (hold l _ hi) (lt_irrefl _)
    · rcases hsteps.fresh l' _ hi' with hi' | ⟨-, hmade', -⟩
      · exact absurd (hold l' _ hi') (lt_irrefl _)
      · exact makes_unique hmade hmade'
  · intro d dir m hd
    have hmade : Made p s (resolve dir) m := by
      by_cases hdc : d = c
      · subst hdc
        have hw : w.dirCache dir = some (.ready (some m)) := by simpa [Shared.store] using hd
        rcases recorded_of_answerIds hanswer hw with hbefore | hcall
        · exact hs.cached d dir m hbefore
        · exact hp.cache dir m hcall
      · exact hs.cached d dir m (by simpa [Shared.store, hdc] using hd)
    exact hmade.onward honward

/-- What a program of one process comes to, whatever the others do meanwhile. -/
abbrev Works {α : Type} (who : Fin n → Identity) (p : Plan) (P : Permit) (c : Fin n) (m : Handler α)
    (post : Shared n → α → Prop) (s : Shared n) : Prop :=
  m.Amid (answer who c) (fun _ _ => True) (Rely p P) (Rely p P) post s

variable {α : Type} {post : Shared n → α → Prop}

theorem Works.ret {a : α} (hs : Tidy p s) (h : ∀ t, Tidy p t → Onward p P s t → post t a) :
    Works who p P c (.ret a) post s :=
  fun t hst => h t (hst hs).1 (hst hs).2

theorem Works.step {k : call.Result → Handler α} (hs : Tidy p s)
    (h : ∀ t, Tidy p t → Onward p P s t → Permitted p P t call ∧
      ∀ x r u, answer who c t x call = some (r, u) → Tidy p u → Onward p P t u →
        Works who p P c (k r) post u) : Works who p P c (.call call k) post s := by
  intro t hst _ x r u hanswer
  obtain ⟨ht, ho⟩ := hst hs
  obtain ⟨hp, hk⟩ := h t ht ho
  obtain ⟨hu, ho'⟩ := onward_of_answer ht hp hanswer
  exact ⟨fun _ => ⟨hu, ho'⟩, hk x r u hanswer hu ho'⟩

/-- A call that asks for nothing. -/
theorem Works.plain {k : call.Result → Handler α} (hs : Tidy p s) (hplain : Plain call)
    (h : ∀ t x r u, Tidy p t → Onward p P s t → answer who c t x call = some (r, u) → Tidy p u →
      Onward p P t u → Works who p P c (k r) post u) : Works who p P c (.call call k) post s :=
  Works.step hs fun t ht ho => ⟨permitted_of_plain hplain, fun x r u ha hu ho' =>
    h t x r u ht ho ha hu ho'⟩

theorem Works.bind {β : Type} {m : Handler α} {f : α → Handler β} {mid : Shared n → α → Prop}
    {post : Shared n → β → Prop} (hs : Tidy p s) (h : Works who p P c m mid s)
    (hf : ∀ t a, Tidy p t → Onward p P s t → mid t a → Works who p P c (f a) post t) :
    Works who p P c (m >>= f) post s := by
  have hstable : ∀ t u, Rely p P t u → Tidy p t ∧ Onward p P s t → Tidy p u ∧ Onward p P s u := by
    rintro t u htu ⟨ht, ho⟩
    obtain ⟨hu, ho'⟩ := htu ht
    exact ⟨hu, ho.trans ho'⟩
  have hkept := Prog.Amid.keep hstable (fun _ _ h => h) h ⟨hs, .refl s⟩
  exact hkept.bind fun t a ⟨⟨ht, ho⟩, hmid⟩ => hf t a ht ho hmid

theorem Works.mono {m : Handler α} {post' : Shared n → α → Prop} (h : Works who p P c m post s)
    (hp : ∀ t a, post t a → post' t a) : Works who p P c m post' s :=
  Prog.Amid.mono h hp

end Calls

section Server
variable {n : ℕ} {who : Fin n → Identity} {p : Plan} {P : Permit} {s t u : Shared n} {c : Fin n}
variable {x : Choice} {l : Loc} {dir : Bytes} {mode m : UInt32}

theorem made_of_mkdir (hs : Tidy p s)
    (h : answer who c s x (.mkdir dir mode) = some (.ok (), u)) : Made p u (resolve dir) mode := by
  obtain ⟨⟨r, w⟩, hanswer, heq⟩ := Option.map_eq_some_iff.mp h
  obtain ⟨rfl, rfl⟩ := Prod.mk.inj heq
  obtain ⟨hdir, hbits⟩ := mkdir_ok hanswer
  exact ⟨s.fs.next, hs.next, hdir, .inl hbits⟩

/-- What is recorded is known to hold. -/
def Known (p : Plan) (s : Shared n) (dir : Bytes) (r : Except Errno (Option UInt32)) : Prop :=
  ∀ m, r = .ok (some m) → Made p s (resolve dir) m

theorem works_settle {r : Except Errno (Option UInt32)} (hs : Tidy p s) (hr : Known p s dir r) :
    Works who p P c (settle dir r) (fun _ _ => True) s := by
  cases r with
  | ok known =>
    refine Works.step hs fun t ht ho => ⟨⟨trivial, fun _ => False.elim, by simp, ?_⟩, ?_⟩
    · rintro d m heq
      cases heq
      exact (hr m rfl).onward ho
    · exact fun x r u _ hu _ => Works.ret hu fun _ _ _ => trivial
  | error e =>
    refine Works.step hs fun t ht ho => ⟨⟨trivial, fun _ => False.elim, by simp, by simp⟩, ?_⟩
    exact fun x r u _ hu _ => Works.ret hu fun _ _ _ => trivial

theorem works_existingPathIsDir (hs : Tidy p s) :
    Works who p P c (existingPathIsDir dir) (fun _ _ => True) s := by
  refine Works.plain hs trivial fun t x r u _ _ _ hu _ => ?_
  cases r with
  | ok found => exact Works.ret hu fun _ _ _ => trivial
  | error e => exact Works.ret hu fun _ _ _ => trivial

theorem works_mkdirOutcome {r : Except Errno Unit} (hs : Tidy p s)
    (hr : r = .ok () → Made p s (resolve dir) mode) :
    Works who p P c (mkdirOutcome dir mode r) (fun t out => Known p t dir out) s := by
  cases r with
  | ok _ =>
    refine Works.ret hs fun t ht ho => ?_
    rintro m heq
    cases heq
    obtain ⟨i, hnew, hi, hmode⟩ := (hr rfl).onward ho
    exact ⟨i, hnew, hi, by rwa [bits_and]⟩
  | error e =>
    have hrefused : ∀ e', Works who p P c
        (.ret (.error e' : Except Errno (Option UInt32)) : Handler (Except Errno (Option UInt32)))
        (fun t out => Known p t dir out) s :=
      fun e' => Works.ret hs fun t _ _ m heq => by cases heq
    cases e with
    | eexist =>
      refine Works.bind hs (works_existingPathIsDir hs) fun t out ht _ _ => ?_
      cases out with
      | none => exact Works.ret ht fun u _ _ m heq => by cases heq
      | some e => exact Works.ret ht fun u _ _ m heq => by cases heq
    | _ => exact hrefused _

/-- The call makes directories only where they may be made. -/
theorem works_ensureDirBounded (fuel : ℕ) (hl : ∀ x ∈ l, Ordinary x) (hs : Tidy p s)
    (hfine : ∀ k, k <+: l → Fine P s k) :
    Works who p P c (ensureDirBounded fuel (render l) mode) (fun _ _ => True) s := by
  induction fuel generalizing l mode s with
  | zero => exact Works.ret hs fun _ _ _ => trivial
  | succ fuel ih =>
    have hmkdir : ∀ t, Onward p P s t → Permitted p P t (.mkdir (render l) mode) := by
      intro t ho
      refine ⟨trivial, ?_, by simp, by simp⟩
      rintro k rfl
      rw [resolve_render hl]
      exact (hfine l (List.prefix_refl l)).onward ho
    have hrest : ∀ t (r : Except Errno Unit), Tidy p t →
        (r = .ok () → Made p t (resolve (render l)) mode) →
        Works who p P c (mkdirOutcome (render l) mode r >>= settle (render l))
          (fun _ _ => True) t :=
      fun t r ht hr => Works.bind ht (works_mkdirOutcome ht hr) fun _ _ hu _ => works_settle hu
    refine Works.plain hs trivial fun t x claim u ht ho _ hu ho' => ?_
    cases claim with
    | ready => exact Works.ret hu fun _ _ _ => trivial
    | failed e => exact Works.ret hu fun _ _ _ => trivial
    | claimed =>
      refine Works.step hu fun v hv ho₂ => ⟨hmkdir v ((ho.trans ho').trans ho₂), ?_⟩
      intro x r w hanswer hw ho₃
      cases r with
      | ok _ => exact hrest w (.ok ()) hw fun _ => made_of_mkdir hv hanswer
      | error e =>
        cases e with
        | enoent =>
          have hrefused : ∀ t e, Tidy p t →
              Works who p P c (settle (render l) (.error e)) (fun _ _ => True) t :=
            fun t e ht => works_settle ht fun m heq => by cases heq
          change Works who p P c (if (splitDirBase (render l)).1 = render l then _ else _)
            (fun _ _ => True) w
          split
          · exact hrefused w _ hw
          · rename_i hparent
            obtain ⟨init, c, rfl⟩ := l.eq_nil_or_concat'.resolve_left (by
              rintro rfl
              exact hparent (by rw [splitDirBase_slash]; rfl))
            rw [splitDirBase_render (hl c (by simp))]
            have hall := ((ho.trans ho').trans ho₂).trans ho₃
            refine Works.bind hw (ih (fun x hx => hl x (List.mem_append_left _ hx)) hw
              fun k hk => (hfine k (hk.trans (List.prefix_append init [c]))).onward hall) ?_
            intro y out hy ho₄ _
            cases out with
            | some e => exact hrefused y e hy
            | none =>
              refine Works.step hy fun z hz ho₅ =>
                ⟨hmkdir z ((hall.trans ho₄).trans ho₅), ?_⟩
              intro x r w' hanswer' hw' _
              refine hrest w' r hw' ?_
              rintro rfl
              exact made_of_mkdir hz hanswer'
        | _ => exact hrest w _ hw (by simp)

/-- There are directories on all the way to `l`, or they may be made. -/
structure Reach (P : Permit) (s : Shared n) (l : Loc) : Prop where
  ordinary : ∀ x ∈ l, Ordinary x
  fine : ∀ k, k <+: l → Fine P s k

theorem works_handleMkdir {cfg : Config} {payload path : Bytes} (hs : Tidy p s)
    (hdecode : decodeMkdir payload = some (path, mode))
    (hplace : ∀ norm, resolvePath cfg.root path = .ok norm → norm = render l)
    (h : Reach P s l) : Works who p P c (handleMkdir cfg payload) (fun _ _ => True) s := by
  have hlog : ∀ t path e, Tidy p t →
      Works who p P c (Sys.logError path e) (fun _ _ => True) t :=
    fun t path e ht => Works.plain ht trivial fun _ _ _ _ _ _ _ hu _ => Works.ret hu fun _ _ _ => trivial
  unfold handleMkdir
  rw [hdecode]
  dsimp only
  cases hnorm : resolvePath cfg.root path with
  | error e => exact hlog s path e hs
  | ok norm =>
    obtain rfl := hplace norm hnorm
    refine Works.bind hs (works_ensureDirBounded _ h.ordinary hs h.fine) fun t out ht _ _ => ?_
    cases out with
    | none => exact Works.ret ht fun _ _ _ => trivial
    | some e => exact hlog t _ e ht

/-- What `handle_putfile`, `handle_open`, `handle_symlink` and `handle_link` begin with: the
directory of the new name. -/
def ensureParent (cfg : Config) (path : Bytes) (mode : UInt32) : Handler (Option Errno) :=
  match resolvePath cfg.root path with
  | .error e => return some e
  | .ok norm => ensureDirCachedMode (splitDirBase norm).1 mode

theorem works_ensureParent {cfg : Config} {path : Bytes} (hs : Tidy p s)
    (hplace : ∀ norm, resolvePath cfg.root path = .ok norm → (splitDirBase norm).1 = render l)
    (h : Reach P s l) : Works who p P c (ensureParent cfg path mode) (fun _ _ => True) s := by
  unfold ensureParent
  cases hnorm : resolvePath cfg.root path with
  | error e => exact Works.ret hs fun _ _ _ => trivial
  | ok norm =>
    dsimp only
    rw [hplace norm hnorm]
    exact works_ensureDirBounded _ h.ordinary hs h.fine

end Server

section Client
variable {n : ℕ} {who : Fin n → Identity} {p : Plan} {P : Permit} {s : Shared n} {c : Fin n}
variable {path : Bytes}

/-- What `lstat` has found is opened, if it is a directory. -/
def openFoundDir (path : Bytes) : Except Errno (ℕ × Node) → Handler (Except Errno Fd)
  | .error e => return .error e
  | .ok (_, n) => if n.isDir then Sys.openFile path (readFlags true) 0 else return .error .eexist

/-- `open_or_create_target_dir_path` -/
def openOrCreateTargetDirPath (path : Bytes) (mode : UInt32) : Handler (Except Errno Fd) := do
  match ← Sys.lstat path with
  | .error .enoent =>
    match ← Sys.mkdir path ((mode &&& 0xFFF) ||| 0x1C0) with
    | .ok _ | .error .eexist => openFoundDir path (← Sys.lstat path)
    | .error e => return .error e
  | found => openFoundDir path found

theorem works_openFoundDir (hs : Tidy p s) (found : Except Errno (ℕ × Node)) :
    Works who p P c (openFoundDir path found) (fun _ _ => True) s := by
  cases found with
  | error e => exact Works.ret hs fun _ _ _ => trivial
  | ok out =>
    obtain ⟨i, n⟩ := out
    change Works who p P c (if n.isDir = true then _ else _) _ s
    split
    · exact Works.plain hs trivial fun _ _ _ _ _ _ _ hu _ => Works.ret hu fun _ _ _ => trivial
    · exact Works.ret hs fun _ _ _ => trivial

theorem works_openOrCreateTargetDirPath {mode : UInt32} (hs : Tidy p s)
    (hfine : Fine P s (resolve path)) :
    Works who p P c (openOrCreateTargetDirPath path mode) (fun _ _ => True) s := by
  refine Works.plain hs trivial fun t x found u _ ho _ hu ho' => ?_
  have hfound : ∀ found, Works who p P c (openFoundDir path found) (fun _ _ => True) u :=
    works_openFoundDir hu
  cases found with
  | ok out => exact hfound (.ok out)
  | error e =>
    cases e with
    | enoent =>
      refine Works.step hu fun v hv ho₂ => ⟨⟨trivial, ?_, by simp, by simp⟩, ?_⟩
      · rintro k rfl
        exact hfine.onward ((ho.trans ho').trans ho₂)
      · intro x r w _ hw _
        have hagain : Works who p P c (Sys.lstat path >>= openFoundDir path)
            (fun _ _ => True) w :=
          Works.plain hw trivial fun _ _ found _ _ _ _ hy _ => works_openFoundDir hy found
        cases r with
        | ok _ => exact hagain
        | error e =>
          cases e with
          | eexist => exact hagain
          | _ => exact Works.ret hw fun _ _ _ => trivial
    | _ => exact hfound (.error _)

end Client

end Ecopy.Metadata.DirMakers
