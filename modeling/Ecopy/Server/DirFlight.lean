import Ecopy.Server.DirCache

/-!
# One creation in flight for each path

The invariant of the directory cache. A path has at most one entry. An entry in the state
`CREATING` is owned by one call, any other by none; what a thread owns, its calls in the order
of their nesting, is a path, its parent, and so on. A settled entry never changes, and who
returns for its path returns what it says.
-/
namespace Ecopy.Server.DirCache
open Lib.Runs Lib.Threads
open Protocol (Bytes)
open Ecopy.Path (Errno splitDirBase slash dot pathMax)

/-- `p` is the directory that a call for `d` asks for when `d` cannot be made. -/
def ParentOf (p d : Bytes) : Prop := p = (splitDirBase d).1 ∧ p ≠ d

/-- A strict ancestor. -/
abbrev Ancestor : Bytes → Bytes → Prop := Relation.TransGen ParentOf

/-- The calls of a thread wait for the parents of their paths. -/
def Nested : Bytes → List Outer → Prop
  | _, [] => True
  | d, o :: outer => ParentOf d o.dir ∧ o.dir ≠ [] ∧ Nested o.dir outer

theorem splitDirBase_ne_nil (dir : Bytes) : (splitDirBase dir).1 ≠ [] := by
  unfold splitDirBase
  dsimp only
  split_ifs with hbase hdir
  · exact List.cons_ne_nil _ _
  · exact List.cons_ne_nil _ _
  · exact hdir

variable {ι : Type*}

/-- An entry that has left `CREATING`. -/
def Settled (s : State ι) (dir : Bytes) (state : CacheState) : Prop :=
  state ≠ .creating ∧ ∃ e en, s.entry e = some en ∧ en.path = dir ∧ en.state = state

/-- What a call knows of the shared state. -/
def CallSound (s : State ι) : Call → Prop
  | .waiting dir e => ∃ en, s.entry e = some en ∧ en.path = dir
  | .settling dir _ none => s.dirs dir = true
  | _ => True

structure ThreadSound (s : State ι) (t : Thread) : Prop where
  last : t.lastDir = [] ∨ Settled s t.lastDir .ready
  nonempty : ∀ call outer, t.running = some (call, outer) → call.dir ≠ []
  nested : ∀ call outer, t.running = some (call, outer) → Nested call.dir outer
  call : ∀ call outer, t.running = some (call, outer) → CallSound s call

def State.creating (s : State ι) (e : ℕ) : Bool :=
  (s.entry e).any fun en => en.state = .creating

structure TableSound (s : State ι) : Prop where
  listed : ∀ b e, e ∈ s.buckets b ↔ ∃ en, s.entry e = some en ∧ slot en.path = b
  unique : ∀ e e' en en', s.entry e = some en → s.entry e' = some en' → en.path = en'.path → e = e'
  ready : ∀ e en, s.entry e = some en → en.state = .ready → s.dirs en.path = true

variable [Fintype ι] [DecidableEq ι]

/-- How many calls own an entry. -/
def State.owners (s : State ι) (e : ℕ) : ℕ :=
  total (fun t => (t.owned.map Prod.snd).count e) s.thread

structure Sound (s : State ι) : Prop where
  table : TableSound s
  owned : ∀ i, ∀ p ∈ (s.thread i).owned, ∃ en, s.entry p.2 = some en ∧ en.path = p.1
  once : ∀ e, s.owners e = (s.creating e).toNat
  thread : ∀ i, ThreadSound s (s.thread i)
  log : ∀ x ∈ s.returned, x.result = none → s.dirs x.dir = true

/-- Settled entries stay, and whoever returns for a path that has an entry returns what the
entry says. -/
structure Faithful (s s' : State ι) : Prop where
  stable : ∀ e en, s.entry e = some en → en.state ≠ .creating → s'.entry e = some en
  same : s'.returned = s.returned ∨ ∃ x, s'.returned = x :: s.returned ∧
    ∀ e en, s'.entry e = some en → en.path = x.dir → en.state = .ofResult x.result

/-- The shared state only grows. -/
structure Grows (s s' : State ι) : Prop where
  entries : ∀ e en, s.entry e = some en → ∃ en', s'.entry e = some en' ∧ en'.path = en.path ∧
    (en.state ≠ .creating → en'.state = en.state)
  dirs : ∀ p, s.dirs p = true → s'.dirs p = true

section Sound
variable {s s' : State ι} {i : ι} {t : Thread} {call : Call} {outer : List Outer} {dir : Bytes}
  {e : ℕ} {en : Entry} {result : Option Errno}

omit [Fintype ι] [DecidableEq ι] in
theorem Grows.of_eq (hentry : s'.entry = s.entry) (hdirs : s'.dirs = s.dirs) : Grows s s' := by
  constructor
  · intro e en h
    exact ⟨en, by rw [hentry]; exact h, rfl, fun _ => rfl⟩
  · intro p h
    rw [hdirs]
    exact h

omit [Fintype ι] [DecidableEq ι] in
theorem Settled.mono {state : CacheState} (h : Settled s dir state) (hg : Grows s s') :
    Settled s' dir state := by
  obtain ⟨hne, e, en, hentry, hpath, hstate⟩ := h
  obtain ⟨en', hentry', hpath', hstate'⟩ := hg.entries e en hentry
  refine ⟨hne, e, en', hentry', hpath'.trans hpath, ?_⟩
  rw [hstate' (by rw [hstate]; exact hne), hstate]

omit [Fintype ι] [DecidableEq ι] in
theorem CallSound.mono (h : CallSound s call) (hg : Grows s s') : CallSound s' call := by
  cases call with
  | waiting dir e =>
    obtain ⟨en, hentry, hpath⟩ := h
    obtain ⟨en', hentry', hpath', -⟩ := hg.entries e en hentry
    exact ⟨en', hentry', hpath'.trans hpath⟩
  | settling dir e result =>
    cases result with
    | none => exact hg.dirs dir h
    | some err => trivial
  | start dir mode => trivial
  | making dir mode e => trivial
  | checking dir e => trivial
  | again dir mode e => trivial

omit [Fintype ι] [DecidableEq ι] in
theorem ThreadSound.mono (h : ThreadSound s t) (hg : Grows s s') : ThreadSound s' t :=
  ⟨h.last.imp_right fun hlast => hlast.mono hg, h.nonempty, h.nested,
    fun call outer hrun => (h.call call outer hrun).mono hg⟩

theorem Thread.owned_deliver (t : Thread) (outer : List Outer) (result : Option Errno) :
    (t.deliver outer result).owned = outerOwned outer := by
  cases outer with
  | nil => rfl
  | cons o outer =>
    cases result with
    | none => rfl
    | some err => rfl

omit [Fintype ι] [DecidableEq ι] in
theorem ThreadSound.deliver (hlast : t.lastDir = [] ∨ Settled s t.lastDir .ready)
    (hnested : Nested dir outer) (result : Option Errno) :
    ThreadSound s (t.deliver outer result) := by
  cases outer with
  | nil =>
    refine ⟨hlast, ?_, ?_, ?_⟩
    · intro call outer h
      cases h
    · intro call outer h
      cases h
    · intro call outer h
      cases h
  | cons o outer =>
    obtain ⟨-, hne, hrest⟩ := hnested
    cases result with
    | none =>
      refine ⟨hlast, ?_, ?_, ?_⟩
      · intro call outer' h
        cases h
        exact hne
      · intro call outer' h
        cases h
        exact hrest
      · intro call outer' h
        cases h
        trivial
    | some err =>
      refine ⟨hlast, ?_, ?_, ?_⟩
      · intro call outer' h
        cases h
        exact hne
      · intro call outer' h
        cases h
        exact hrest
      · intro call outer' h
        cases h
        trivial

omit [Fintype ι] [DecidableEq ι] in
theorem ThreadSound.goto (hlast : t.lastDir = [] ∨ Settled s t.lastDir .ready) (hne : call.dir ≠ [])
    (hnested : Nested call.dir outer) (hcall : CallSound s call) :
    ThreadSound s { t with running := some (call, outer) } := by
  refine ⟨hlast, ?_, ?_, ?_⟩
  · intro call' outer' h
    cases h
    exact hne
  · intro call' outer' h
    cases h
    exact hnested
  · intro call' outer' h
    cases h
    exact hcall

theorem State.owners_set (s : State ι) (i : ι) (t : Thread) (e : ℕ) :
    (s.set i t).owners e + ((s.thread i).owned.map Prod.snd).count e =
      s.owners e + (t.owned.map Prod.snd).count e :=
  total_update _ _ _ _

omit [Fintype ι] in
theorem State.set_self (s : State ι) (i : ι) (t : Thread) : (s.set i t).thread i = t :=
  Function.update_self _ _ _

omit [Fintype ι] in
theorem State.set_of_ne (s : State ι) {i j : ι} (h : j ≠ i) (t : Thread) :
    (s.set i t).thread j = s.thread j :=
  Function.update_of_ne h _ _

/-- The shared state grows and one thread moves, with the claims that it loses or wins. -/
theorem Sound.move (h : Sound s) (s' : State ι) (hthread : s'.thread = s.thread) (hg : Grows s s')
    (htable : TableSound s') (ht : ThreadSound s' t)
    (howned : ∀ p ∈ t.owned, ∃ en, s'.entry p.2 = some en ∧ en.path = p.1)
    (honce : ∀ e, (s'.creating e).toNat + ((s.thread i).owned.map Prod.snd).count e =
      (s.creating e).toNat + (t.owned.map Prod.snd).count e)
    (hlog : ∀ x ∈ s'.returned, x.result = none → s'.dirs x.dir = true) :
    Sound (s'.set i t) := by
  have hset : Grows s' (s'.set i t) := Grows.of_eq rfl rfl
  refine ⟨⟨htable.listed, htable.unique, htable.ready⟩, ?_, ?_, ?_, hlog⟩
  · intro j p hp
    by_cases hj : j = i
    · rw [hj, State.set_self] at hp
      exact howned p hp
    · rw [State.set_of_ne s' hj, hthread] at hp
      obtain ⟨en, hentry, hpath⟩ := h.owned j p hp
      obtain ⟨en', hentry', hpath', -⟩ := hg.entries p.2 en hentry
      exact ⟨en', hentry', hpath'.trans hpath⟩
  · intro e
    have howners := s'.owners_set i t e
    have hsame : s'.owners e = s.owners e := by
      unfold State.owners
      rw [hthread]
    rw [hthread, hsame, h.once] at howners
    have hcount := honce e
    show (s'.set i t).owners e = (s'.creating e).toNat
    omega
  · intro j
    by_cases hj : j = i
    · rw [hj, State.set_self]
      exact ht.mono hset
    · rw [State.set_of_ne s' hj, hthread]
      exact ((h.thread j).mono hg).mono hset

/-- The state after a return has been recorded. -/
def State.record (s : State ι) (dir : Bytes) (result : Option Errno) : State ι :=
  { s with returned := ⟨dir, result⟩ :: s.returned }

/-- One thread moves and keeps its claims; nothing shared changes. -/
theorem Sound.set (h : Sound s) (ht : ThreadSound s t) (howned : t.owned = (s.thread i).owned) :
    Sound (s.set i t) := by
  apply h.move s rfl (Grows.of_eq rfl rfl) h.table ht
  · rw [howned]
    exact h.owned i
  · intro e
    rw [howned]
  · exact h.log

/-- A call returns without having claimed its path. -/
theorem Sound.return (h : Sound s) (hrun : (s.thread i).running = some (call, outer))
    (hfree : call.owned = []) (hlast : t.lastDir = [] ∨ Settled s t.lastDir .ready)
    (hdirs : result = none → s.dirs call.dir = true) :
    Sound (s.deliver i t outer call.dir result) := by
  have hgrows : Grows s (s.record call.dir result) := Grows.of_eq rfl rfl
  have howned : (s.thread i).owned = outerOwned outer := by
    unfold Thread.owned
    rw [hrun, Option.elim_some, hfree, List.nil_append]
  have hthread : ThreadSound s (t.deliver outer result) :=
    ThreadSound.deliver hlast ((h.thread i).nested call outer hrun) result
  apply h.move (s.record call.dir result) rfl hgrows
    ⟨h.table.listed, h.table.unique, h.table.ready⟩ (hthread.mono hgrows)
  · rw [Thread.owned_deliver, ← howned]
    exact h.owned i
  · intro e
    rw [Thread.owned_deliver, ← howned]
    rfl
  · intro x hx hnone
    rcases List.mem_cons.mp hx with rfl | hx
    · exact hdirs hnone
    · exact h.log x hx hnone

/-- A path without an entry gets one. -/
theorem Sound.insert (h : Sound s) {mode : ℕ} (hrun : (s.thread i).running = some (.start dir mode, outer))
    (hmiss : ∀ x en, s.entry x = some en → en.path ≠ dir) (hfree : s.entry e = none) :
    Sound ((s.insert e dir).goto i (.making dir mode e) outer) := by
  have hentry : ∀ x, (s.insert e dir).entry x = if x = e then some ⟨dir, .creating, none⟩ else
      s.entry x := fun x => Function.update_apply _ _ _ _
  have hother : ∀ x en, s.entry x = some en → x ≠ e := by
    rintro x en hx rfl
    rw [hfree] at hx
    cases hx
  have hgrows : Grows s (s.insert e dir) := by
    constructor
    · intro x en hx
      refine ⟨en, ?_, rfl, fun _ => rfl⟩
      rw [hentry, if_neg (hother x en hx)]
      exact hx
    · exact fun p hp => hp
  have hti := h.thread i
  apply h.move (s.insert e dir) rfl hgrows
  · constructor
    · intro b x
      show x ∈ Function.update s.buckets (slot dir) (e :: s.buckets (slot dir)) b ↔ _
      rw [Function.update_apply]
      by_cases hx : x = e
      · subst hx
        rw [hentry, if_pos rfl]
        have hnot : ∀ b, x ∉ s.buckets b := by
          intro b hmem
          obtain ⟨en, hen, -⟩ := (h.table.listed b x).mp hmem
          rw [hfree] at hen
          cases hen
        split_ifs with hb
        · simp [hb]
        · simp [hnot b, eq_comm, hb]
      · rw [hentry, if_neg hx, ← h.table.listed]
        split_ifs with hb
        · rw [hb, List.mem_cons, or_iff_right hx]
        · exact Iff.rfl
    · intro x y enx eny hx hy hpath
      rw [hentry] at hx hy
      split_ifs at hx hy with hxe hye hye
      · rw [hxe, hye]
      · cases hx
        exact absurd hpath.symm (hmiss y eny hy)
      · cases hy
        exact absurd hpath (hmiss x enx hx)
      · exact h.table.unique x y enx eny hx hy hpath
    · intro x enx hx hready
      rw [hentry] at hx
      split_ifs at hx
      · cases hx
        cases hready
      · exact h.table.ready x enx hx hready
  · refine ThreadSound.goto (hti.mono hgrows).last ?_ ?_ trivial
    · exact hti.nonempty (.start dir mode) outer hrun
    · exact hti.nested (.start dir mode) outer hrun
  · intro p hp
    rcases List.mem_cons.mp hp with rfl | hp
    · exact ⟨_, (hentry e).trans (if_pos rfl), rfl⟩
    · have hold : p ∈ (s.thread i).owned := by
        unfold Thread.owned
        rw [hrun]
        exact hp
      obtain ⟨en, hen, hpath⟩ := h.owned i p hold
      obtain ⟨en', hen', hpath', -⟩ := hgrows.entries p.2 en hen
      exact ⟨en', hen', hpath'.trans hpath⟩
  · intro x
    have hold : (s.thread i).owned = outerOwned outer := by
      unfold Thread.owned
      rw [hrun]
      rfl
    rw [hold]
    show _ = (s.creating x).toNat + (e :: (outerOwned outer).map Prod.snd).count x
    rw [List.count_cons]
    unfold State.creating
    rw [hentry]
    by_cases hx : x = e
    · rw [if_pos hx, hx, hfree, if_pos (beq_self_eq_true e)]
      show 1 + _ = 0 + (_ + 1)
      omega
    · rw [if_neg hx, if_neg (by simpa using Ne.symm hx)]
      omega
  · exact h.log

omit [Fintype ι] [DecidableEq ι] in
theorem write_entry (hentry : s.entry e = some en) (f : Entry → Entry) (x : ℕ) :
    (s.write e f).entry x = if x = e then some (f en) else s.entry x := by
  show Function.update s.entry e ((s.entry e).map f) x = _
  rw [Function.update_apply, hentry]
  rfl

omit [Fintype ι] [DecidableEq ι] in
theorem TableSound.write (h : TableSound s) (hentry : s.entry e = some en) {f : Entry → Entry}
    (hpath : (f en).path = en.path) (hready : (f en).state = .ready → s.dirs en.path = true) :
    TableSound (s.write e f) := by
  have hback : ∀ x enx, (s.write e f).entry x = some enx →
      ∃ en', s.entry x = some en' ∧ enx.path = en'.path := by
    intro x enx hx
    rw [write_entry hentry] at hx
    split_ifs at hx with hxe
    · cases hx
      exact ⟨en, by rw [hxe]; exact hentry, hpath⟩
    · exact ⟨enx, hx, rfl⟩
  constructor
  · intro b x
    show x ∈ s.buckets b ↔ _
    rw [h.listed, write_entry hentry]
    split_ifs with hxe
    · subst hxe
      constructor
      · rintro ⟨en', hen', hb⟩
        rw [hentry] at hen'
        cases hen'
        exact ⟨f en, rfl, by rw [hpath]; exact hb⟩
      · rintro ⟨en', hen', hb⟩
        cases hen'
        exact ⟨en, hentry, by rw [← hpath]; exact hb⟩
    · exact Iff.rfl
  · intro x y enx eny hx hy hsame
    obtain ⟨en', hx', hpathx⟩ := hback x enx hx
    obtain ⟨en'', hy', hpathy⟩ := hback y eny hy
    exact h.unique x y en' en'' hx' hy' (by rw [← hpathx, ← hpathy]; exact hsame)
  · intro x enx hx hstate
    show s.dirs enx.path = true
    rw [write_entry hentry] at hx
    split_ifs at hx
    · cases hx
      rw [hpath]
      exact hready hstate
    · exact h.ready x enx hx hstate

omit [Fintype ι] [DecidableEq ι] in
theorem Grows.write (hentry : s.entry e = some en) {f : Entry → Entry}
    (hpath : (f en).path = en.path) (hstate : en.state ≠ .creating → (f en).state = en.state) :
    Grows s (s.write e f) := by
  constructor
  · intro x enx hx
    rw [write_entry hentry]
    split_ifs with hxe
    · rw [hxe, hentry] at hx
      cases hx
      exact ⟨f en, rfl, hpath, hstate⟩
    · exact ⟨enx, hx, rfl, fun _ => rfl⟩
  · exact fun p hp => hp

omit [Fintype ι] [DecidableEq ι] in
theorem TableSound.exist (h : TableSound s) {dirs : Bytes → Bool}
    (hdirs : ∀ p, s.dirs p = true → dirs p = true) : TableSound { s with dirs := dirs } :=
  ⟨h.listed, h.unique, fun x enx hx hstate => hdirs _ (h.ready x enx hx hstate)⟩

omit [Fintype ι] [DecidableEq ι] in
theorem Grows.exist (h : Grows s s') {dirs : Bytes → Bool}
    (hdirs : ∀ p, s'.dirs p = true → dirs p = true) : Grows s { s' with dirs := dirs } :=
  ⟨h.entries, fun p hp => hdirs p (h.dirs p hp)⟩

omit [Fintype ι] [DecidableEq ι] in
theorem dirs_update (s : State ι) (p q : Bytes) (h : s.dirs q = true) :
    Function.update s.dirs p true q = true := by
  rw [Function.update_apply]
  split_ifs
  · rfl
  · exact h

section Owner
variable (h : Sound s) (hrun : (s.thread i).running = some (call, outer))
include h hrun

omit h in
omit [Fintype ι] [DecidableEq ι] in
theorem owned_of_running : (s.thread i).owned = call.owned ++ outerOwned outer := by
  unfold Thread.owned
  rw [hrun]
  rfl

omit [DecidableEq ι] in
/-- The entry that a call owns is the one that is being created. -/
theorem Sound.own (hown : call.owned = [(dir, e)]) :
    ∃ en, s.entry e = some en ∧ en.path = dir ∧ en.state = .creating := by
  have howned := owned_of_running hrun
  obtain ⟨en, hentry, hpath⟩ := h.owned i (dir, e) (by rw [howned, hown]; simp)
  refine ⟨en, hentry, hpath, ?_⟩
  have hone := h.once e
  have hpos : 0 < ((s.thread i).owned.map Prod.snd).count e := by
    apply List.count_pos_iff.mpr
    rw [howned, hown]
    simp
  have hle : ((s.thread i).owned.map Prod.snd).count e ≤ s.owners e :=
    Finset.single_le_sum (f := fun j => ((s.thread j).owned.map Prod.snd).count e)
      (fun _ _ => Nat.zero_le _) (Finset.mem_univ i)
  unfold State.creating at hone
  rw [hentry, Option.any_some] at hone
  by_contra hstate
  rw [decide_eq_false hstate, Bool.toNat_false] at hone
  omega

/-- A call goes on to another place and keeps its claims. -/
theorem Sound.goto {call' : Call} {outer' : List Outer}
    (hown : call'.owned ++ outerOwned outer' = call.owned ++ outerOwned outer)
    (hne : call'.dir ≠ []) (hnested : Nested call'.dir outer') (hcall : CallSound s call') :
    Sound (s.goto i call' outer') := by
  apply h.set
  · exact ThreadSound.goto (h.thread i).last hne hnested hcall
  · rw [owned_of_running hrun]
    exact hown

/-- The directory of a call was made. -/
theorem Sound.made (hown : call.owned = [(dir, e)]) (hdir : call.dir = dir) (mode : ℕ) :
    Sound ((s.made e dir mode).goto i (.settling dir e none) outer) := by
  obtain ⟨en, hentry, hpath, hstate⟩ := h.own hrun hown
  have hwrite : Grows s (s.write e fun en => { en with mode := some (mode % 2 ^ 12) }) :=
    Grows.write hentry rfl fun _ => rfl
  have hgrows : Grows s (s.made e dir mode) := hwrite.exist (dirs_update s dir)
  have htable : TableSound (s.made e dir mode) := by
    have hw := h.table.write hentry (f := fun en => { en with mode := some (mode % 2 ^ 12) }) rfl
      fun hr => absurd (hstate.symm.trans hr) (by simp)
    exact hw.exist (dirs_update s dir)
  have hti := h.thread i
  have howned := owned_of_running hrun
  apply h.move (s.made e dir mode) rfl hgrows htable
  · refine ThreadSound.goto (hti.mono hgrows).last ?_ ?_ ?_
    · exact hdir ▸ hti.nonempty call outer hrun
    · exact hdir ▸ hti.nested call outer hrun
    · exact Function.update_self _ _ _
  · intro p hp
    have hold : p ∈ (s.thread i).owned := by
      rw [howned, hown]
      exact hp
    obtain ⟨en, hen, hp'⟩ := h.owned i p hold
    obtain ⟨en', hen', hpath', -⟩ := hgrows.entries p.2 en hen
    exact ⟨en', hen', hpath'.trans hp'⟩
  · intro x
    rw [howned, hown]
    have hsame : (s.made e dir mode).creating x = s.creating x := by
      unfold State.creating
      show ((s.write e _).entry x).any _ = _
      rw [write_entry hentry]
      split_ifs with hx
      · rw [hx, hentry]
        rfl
      · rfl
    rw [hsame]
    rfl
  · intro x hx hnone
    exact dirs_update s dir x.dir (h.log x hx hnone)

end Owner

theorem Thread.lastDir_remember (t : Thread) (dir : Bytes) (result : Option Errno) :
    (t.remember dir result).lastDir = if result = none then dir else t.lastDir := by
  cases result with
  | none => rfl
  | some err => rfl

theorem CacheState.ofResult_ne (result : Option Errno) : CacheState.ofResult result ≠ .creating := by
  cases result with
  | none => exact CacheState.noConfusion
  | some err => exact CacheState.noConfusion

/-- A claim is settled and the call returns. -/
theorem Sound.settle (h : Sound s) (hrun : (s.thread i).running = some (.settling dir e result, outer)) :
    Sound ((s.write e fun en => { en with state := .ofResult result }).leave i outer dir result) := by
  obtain ⟨en, hentry, hpath, hstate⟩ := h.own hrun rfl
  have hgrows : Grows s (s.write e fun en => { en with state := .ofResult result }) :=
    Grows.write hentry rfl fun hne => absurd hstate hne
  have hti := h.thread i
  have hdirs : result = none → s.dirs dir = true := by
    intro hnone
    have hcall := hti.call _ _ hrun
    rw [hnone] at hcall
    exact hcall
  have htable : TableSound (s.write e fun en => { en with state := .ofResult result }) := by
    apply h.table.write hentry rfl
    intro hready
    rw [hpath]
    apply hdirs
    cases result with
    | none => rfl
    | some err => cases hready
  have howned := owned_of_running hrun
  have hrecord : Grows (s.write e fun en => { en with state := .ofResult result })
      ((s.write e fun en => { en with state := .ofResult result }).record dir result) :=
    Grows.of_eq rfl rfl
  have hlast : ((s.thread i).remember dir result).lastDir = [] ∨
      Settled (s.write e fun en => { en with state := .ofResult result })
        ((s.thread i).remember dir result).lastDir .ready := by
    rw [Thread.lastDir_remember]
    split_ifs with hnone
    · refine Or.inr ⟨CacheState.noConfusion, e, { en with state := .ofResult result }, ?_, hpath, ?_⟩
      · rw [write_entry hentry, if_pos rfl]
      · rw [hnone]
        rfl
    · exact (hti.mono hgrows).last
  have hthread := ThreadSound.deliver hlast (hti.nested _ _ hrun) result
  apply h.move ((s.write e fun en => { en with state := .ofResult result }).record dir result) rfl
    ⟨hgrows.entries, hgrows.dirs⟩ ⟨htable.listed, htable.unique, htable.ready⟩ (hthread.mono hrecord)
  · rw [Thread.owned_deliver]
    intro p hp
    obtain ⟨en, hen, hp'⟩ := h.owned i p (by rw [howned]; exact List.mem_append_right _ hp)
    obtain ⟨en', hen', hpath', -⟩ := hgrows.entries p.2 en hen
    exact ⟨en', hen', hpath'.trans hp'⟩
  · intro x
    rw [Thread.owned_deliver, howned, Call.owned, List.singleton_append, List.map_cons,
      List.count_cons]
    unfold State.creating
    show (((s.write e _).entry x).any _).toNat + _ = _
    rw [write_entry hentry]
    by_cases hx : x = e
    · rw [if_pos hx, hx, hentry, if_pos (beq_self_eq_true e), Option.any_some, Option.any_some,
        decide_eq_false (CacheState.ofResult_ne result), decide_eq_true hstate]
      show 0 + (_ + 1) = 1 + _
      omega
    · rw [if_neg hx, if_neg (by simpa using Ne.symm hx)]
      omega
  · intro x hx hnone
    rcases List.mem_cons.mp hx with rfl | hx
    · exact hdirs hnone
    · exact h.log x hx hnone

omit [DecidableEq ι] in
/-- Something outside makes a directory. -/
theorem Sound.appear (h : Sound s) (p : Bytes) :
    Sound { s with dirs := Function.update s.dirs p true } := by
  have hgrows : Grows s { s with dirs := Function.update s.dirs p true } :=
    (Grows.of_eq rfl rfl).exist (dirs_update s p)
  refine ⟨h.table.exist (dirs_update s p), h.owned, h.once, fun i => (h.thread i).mono hgrows, ?_⟩
  intro x hx hnone
  exact dirs_update s p x.dir (h.log x hx hnone)

def Good (s s' : State ι) : Prop := Sound s' ∧ Faithful s s'

omit [Fintype ι] [DecidableEq ι] in
theorem Faithful.of_eq (hentry : s'.entry = s.entry) (hlog : s'.returned = s.returned) :
    Faithful s s' :=
  ⟨fun e en h _ => by rw [hentry]; exact h, Or.inl hlog⟩

omit [Fintype ι] [DecidableEq ι] in
/-- A path has one state. -/
theorem TableSound.only (h : TableSound s) (hentry : s.entry e = some en) (hpath : en.path = dir)
    {x : ℕ} {enx : Entry} (hx : s.entry x = some enx) (hxpath : enx.path = dir) :
    enx.state = en.state := by
  have heq := h.unique x e enx en hx hentry (hxpath.trans hpath.symm)
  rw [heq, hentry] at hx
  cases hx
  rfl

/-- A call reads what was settled. -/
theorem good_read (h : Sound s) (hrun : (s.thread i).running = some (call, outer))
    (hfree : call.owned = []) (hentry : s.entry e = some en) (hpath : en.path = call.dir)
    (hstep : s.read i outer call.dir en.state = some s') : Good s s' := by
  have hread : ∀ result, en.state = .ofResult result →
      Good s (s.leave i outer call.dir result) := by
    intro result hstate
    have hdirs : result = none → s.dirs call.dir = true := by
      intro hnone
      rw [← hpath]
      apply h.table.ready e en hentry
      rw [hstate, hnone]
      rfl
    refine ⟨h.return hrun hfree ?_ hdirs, fun _ _ hx _ => hx, Or.inr ⟨_, rfl, ?_⟩⟩
    · rw [Thread.lastDir_remember]
      split_ifs with hnone
      · refine Or.inr ⟨CacheState.noConfusion, e, en, hentry, hpath, ?_⟩
        rw [hstate, hnone]
        rfl
      · exact (h.thread i).last
    · intro x enx hx hxpath
      exact (h.table.only hentry hpath hx hxpath).trans hstate
  cases hstate : en.state with
  | creating =>
    rw [hstate] at hstep
    cases hstep
  | ready =>
    rw [hstate] at hstep
    cases hstep
    exact hread none hstate
  | failed err =>
    rw [hstate] at hstep
    cases hstep
    exact hread (some err) hstate

omit [Fintype ι] [DecidableEq ι] in
theorem find_eq_none (h : TableSound s) (hfind : s.dirCacheFindLocked dir = none) (x : ℕ)
    (en : Entry) (hx : s.entry x = some en) : en.path ≠ dir := by
  intro hpath
  have hmem : x ∈ s.buckets (slot dir) := (h.listed (slot dir) x).mpr ⟨en, hx, by rw [hpath]⟩
  have hno := List.find?_eq_none.mp hfind x hmem
  rw [hx] at hno
  simp [hpath] at hno

omit [Fintype ι] [DecidableEq ι] in
theorem find_eq_some (hfind : s.dirCacheFindLocked dir = some e) (hentry : s.entry e = some en) :
    en.path = dir := by
  have hyes := List.find?_some hfind
  rw [hentry] at hyes
  simpa using hyes

theorem good_start (h : Sound s) {mode : ℕ} {answer : Answer}
    (hrun : (s.thread i).running = some (.start dir mode, outer))
    (hstep : advance s i answer (.start dir mode) outer = some s') : Good s s' := by
  have hti := h.thread i
  simp only [advance] at hstep
  by_cases hlast : dir = (s.thread i).lastDir
  · rw [if_pos hlast] at hstep
    cases hstep
    rcases hti.last with hnil | ⟨-, e, en, hentry, hpath, hstate⟩
    · exact absurd (hlast.trans hnil) (hti.nonempty _ _ hrun)
    · rw [← hlast] at hpath
      refine ⟨h.return hrun rfl hti.last fun _ => ?_, fun _ _ hx _ => hx, Or.inr ⟨_, rfl, ?_⟩⟩
      · show s.dirs dir = true
        rw [← hpath]
        exact h.table.ready e en hentry hstate
      · intro x enx hx hxpath
        exact (h.table.only hentry hpath hx hxpath).trans hstate
  · rw [if_neg hlast] at hstep
    cases hfind : s.dirCacheFindLocked dir with
    | some e =>
      rw [hfind] at hstep
      dsimp only at hstep
      cases hentry : s.entry e with
      | none =>
        rw [hentry] at hstep
        cases hstep
      | some en =>
        rw [hentry] at hstep
        dsimp only at hstep
        have hpath := find_eq_some hfind hentry
        by_cases hstate : en.state = .creating
        · rw [if_pos hstate] at hstep
          cases hstep
          refine ⟨h.goto hrun rfl ?_ ?_ ⟨en, hentry, hpath⟩, Faithful.of_eq rfl rfl⟩
          · exact hti.nonempty (.start dir mode) outer hrun
          · exact hti.nested (.start dir mode) outer hrun
        · rw [if_neg hstate] at hstep
          exact good_read h hrun rfl hentry hpath hstep
    | none =>
      rw [hfind] at hstep
      have hmiss := find_eq_none h.table hfind
      cases answer with
      | ok => cases hstep
      | error err =>
        cases hstep
        refine ⟨h.return hrun rfl hti.last ?_, fun _ _ hx _ => hx, Or.inr ⟨_, rfl, ?_⟩⟩
        · intro hnone
          cases hnone
        intro x enx hx hxpath
        exact absurd hxpath (hmiss x enx hx)
      | node e =>
        dsimp only at hstep
        split_ifs at hstep with hused
        cases hstep
        have hfree : s.entry e = none := Option.not_isSome_iff_eq_none.mp hused
        refine ⟨h.insert hrun hmiss hfree, ?_, Or.inl rfl⟩
        intro x enx hx _
        show Function.update s.entry e _ x = _
        rw [Function.update_of_ne]
        · exact hx
        · rintro rfl
          rw [hfree] at hx
          cases hx

theorem good_waiting (h : Sound s) {answer : Answer}
    (hrun : (s.thread i).running = some (.waiting dir e, outer))
    (hstep : advance s i answer (.waiting dir e) outer = some s') : Good s s' := by
  obtain ⟨en, hentry, hpath⟩ := (h.thread i).call _ _ hrun
  simp only [advance] at hstep
  rw [hentry] at hstep
  exact good_read h hrun rfl hentry hpath hstep

theorem good_afterMkdir (h : Sound s) {mode : ℕ} {first : Bool} {answer : Answer}
    (hrun : (s.thread i).running = some (call, outer)) (hown : call.owned = [(dir, e)])
    (hdir : call.dir = dir)
    (hstep : afterMkdir s i dir mode e outer first answer = some s') : Good s s' := by
  have hti := h.thread i
  have hne : dir ≠ [] := hdir ▸ hti.nonempty call outer hrun
  have hnested : Nested dir outer := hdir ▸ hti.nested call outer hrun
  cases answer with
  | ok =>
    simp only [afterMkdir] at hstep
    split_ifs at hstep
    cases hstep
    refine ⟨h.made hrun hown hdir mode, ?_, Or.inl rfl⟩
    obtain ⟨en, hentry, -, hstate⟩ := h.own hrun hown
    intro x enx hx hsettled
    show (s.write e _).entry x = _
    rw [write_entry hentry, if_neg]
    · exact hx
    · rintro rfl
      rw [hentry] at hx
      cases hx
      exact hsettled hstate
  | error err =>
    simp only [afterMkdir] at hstep
    split_ifs at hstep with hexist hparent
    · cases hstep
      exact ⟨h.goto hrun (by rw [hown]; rfl) hne hnested trivial, Faithful.of_eq rfl rfl⟩
    · cases hstep
      refine ⟨h.goto hrun (by rw [hown]; rfl) ?_ ⟨⟨rfl, hparent.2.2⟩, hne, hnested⟩ trivial,
        Faithful.of_eq rfl rfl⟩
      exact splitDirBase_ne_nil dir
    · cases hstep
      exact ⟨h.goto hrun (by rw [hown]; rfl) hne hnested trivial, Faithful.of_eq rfl rfl⟩
  | node x => cases hstep

theorem good_checking (h : Sound s) {answer : Answer}
    (hrun : (s.thread i).running = some (.checking dir e, outer))
    (hstep : advance s i answer (.checking dir e) outer = some s') : Good s s' := by
  have hti := h.thread i
  have hne : dir ≠ [] := hti.nonempty _ _ hrun
  have hnested : Nested dir outer := hti.nested _ _ hrun
  cases answer with
  | ok =>
    simp only [advance] at hstep
    split_ifs at hstep with hdirs
    cases hstep
    exact ⟨h.goto hrun rfl hne hnested hdirs, Faithful.of_eq rfl rfl⟩
  | error err =>
    cases hstep
    exact ⟨h.goto hrun rfl hne hnested trivial, Faithful.of_eq rfl rfl⟩
  | node x => cases hstep

theorem good_settling (h : Sound s) {answer : Answer}
    (hrun : (s.thread i).running = some (.settling dir e result, outer))
    (hstep : advance s i answer (.settling dir e result) outer = some s') : Good s s' := by
  obtain ⟨en, hentry, hpath, hstate⟩ := h.own hrun rfl
  cases hstep
  have hsound := h.settle hrun
  refine ⟨hsound, ?_, Or.inr ⟨_, rfl, ?_⟩⟩
  · intro x enx hx hsettled
    show (s.write e _).entry x = _
    rw [write_entry hentry, if_neg]
    · exact hx
    · rintro rfl
      rw [hentry] at hx
      cases hx
      exact hsettled hstate
  · intro x enx hx hxpath
    have hnew : (s.write e fun en => { en with state := .ofResult result }).entry e =
        some { en with state := .ofResult result } := by
      rw [write_entry hentry, if_pos rfl]
    exact hsound.table.only hnew hpath hx hxpath

theorem good_step (h : Sound s) {a : Action ι} (hstep : step s a = some s') : Good s s' := by
  cases a with
  | ensure i dir mode =>
    simp only [step] at hstep
    cases hrun : (s.thread i).running with
    | some r =>
      rw [hrun] at hstep
      cases hstep
    | none =>
      rw [hrun] at hstep
      dsimp only at hstep
      split_ifs at hstep with hdir
      cases hstep
      refine ⟨h.set ?_ ?_, Faithful.of_eq rfl rfl⟩
      · exact ThreadSound.goto (h.thread i).last hdir.1 trivial trivial
      · unfold Thread.owned
        rw [hrun]
        rfl
  | advance i answer =>
    simp only [step] at hstep
    cases hrun : (s.thread i).running with
    | none =>
      rw [hrun] at hstep
      cases hstep
    | some r =>
      obtain ⟨call, outer⟩ := r
      rw [hrun] at hstep
      dsimp only at hstep
      cases call with
      | start dir mode => exact good_start h hrun hstep
      | waiting dir e => exact good_waiting h hrun hstep
      | making dir mode e => exact good_afterMkdir h hrun rfl rfl hstep
      | checking dir e => exact good_checking h hrun hstep
      | again dir mode e => exact good_afterMkdir h hrun rfl rfl hstep
      | settling dir e result => exact good_settling h hrun hstep
  | appear path =>
    cases hstep
    exact ⟨h.appear path, Faithful.of_eq rfl rfl⟩

omit [DecidableEq ι] in
theorem sound_init : Sound (init : State ι) := by
  refine ⟨⟨?_, ?_, ?_⟩, ?_, ?_, ?_, ?_⟩
  · intro b e
    constructor
    · exact fun h => (List.not_mem_nil h).elim
    · rintro ⟨en, h, -⟩
      cases h
  · intro e e' en en' h
    cases h
  · intro e en h
    cases h
  · exact fun i p hp => (List.not_mem_nil hp).elim
  · intro e
    exact total_eq_zero_iff.mpr fun _ => rfl
  · intro i
    refine ⟨Or.inl rfl, ?_, ?_, ?_⟩
    · intro call outer h
      cases h
    · intro call outer h
      cases h
    · intro call outer h
      cases h
  · exact fun x hx => (List.not_mem_nil hx).elim

theorem sound_reachable (h : Reachable step init s) : Sound s := by
  apply h.invariant sound_init
  intro s a s' hs hstep
  exact (good_step hs hstep).1

end Sound

end Ecopy.Server.DirCache
