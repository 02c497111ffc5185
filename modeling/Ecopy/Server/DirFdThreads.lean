import Ecopy.Server.DirFdCache

/-!
# Threads that share the descriptor cache

A call of `dir_fd_acquire` is cut into the steps that other threads can come between: the
look-up under the lock, the recursive call for the parent, `openat`, `open`, the release of
the parent, the second look-up with the insertion, and the `close` after a lost race. What the
kernel and `malloc` answer is given with the step. A thread has at most one call running and
holds the entries that its calls returned until it releases them.
-/
namespace Ecopy.Server.DirFdCache
open Lib.Recency Lib.Runs Lib.Threads
open Protocol (Bytes)
open Ecopy.Path (slash splitDirBase pathUnderRoot)

/-- Where a call of `dir_fd_acquire` is. -/
inductive Call where
  | lookup (dir : Bytes)
  | openAt (dir : Bytes) (pe : ℕ)
  | openPath (dir : Bytes) (pe : Option ℕ)
  | releasing (dir : Bytes) (pe fd : Option ℕ)
  | inserting (dir : Bytes) (fd : ℕ)
  | closing (fd : ℕ) (result : Option ℕ)
deriving DecidableEq

/-- The entries that a call has pinned so far. -/
def Call.pins : Call → List ℕ
  | .lookup _ => []
  | .openAt _ pe => [pe]
  | .openPath _ pe => pe.toList
  | .releasing _ pe _ => pe.toList
  | .inserting _ _ => []
  | .closing _ result => result.toList

/-- The descriptors that a call has opened and not yet given away. -/
def Call.fds : Call → List ℕ
  | .lookup _ => []
  | .openAt _ _ => []
  | .openPath _ _ => []
  | .releasing _ _ fd => fd.toList
  | .inserting _ fd => [fd]
  | .closing fd _ => [fd]

/-- A running call with the directories whose calls wait for it, the innermost first. -/
structure Thread where
  running : Option (Call × List Bytes)
  held : List ℕ
deriving DecidableEq

def Thread.pins (t : Thread) : List ℕ := (t.running.elim [] fun r => r.1.pins) ++ t.held

def Thread.fds (t : Thread) : List ℕ := t.running.elim [] fun r => r.1.fds

/-- The stamps are not in the source: they record when an entry was acquired last. -/
structure State (ι : Type*) where
  cache : Cache
  thread : ι → Thread
  clock : ℕ
  stamp : ℕ → ℕ

inductive Action (ι : Type*) where
  | acquire (i : ι) (dir : Bytes)
  | release (i : ι) (e : ℕ)
  | advance (i : ι) (answer : Option ℕ)

def useParent (root dir : Bytes) : Bool :=
  let parent := (splitDirBase dir).1
  let base := (splitDirBase dir).2
  dir ≠ root && parent ≠ dir && base ≠ [] && base ≠ [slash] && pathUnderRoot root parent

/-- The call returns, to the call that waits for it or to the thread. -/
def Thread.deliver (t : Thread) (callers : List Bytes) (result : Option ℕ) : Thread :=
  match callers with
  | [] => { running := none, held := result.toList ++ t.held }
  | dir :: callers =>
    match result with
    | some pe => { t with running := some (.openAt dir pe, callers) }
    | none => { t with running := some (.openPath dir none, callers) }

variable {ι : Type*} [DecidableEq ι]

def State.set (s : State ι) (i : ι) (t : Thread) : State ι :=
  { s with thread := Function.update s.thread i t }

def State.goto (s : State ι) (i : ι) (call : Call) (callers : List Bytes) : State ι :=
  s.set i { s.thread i with running := some (call, callers) }

def State.deliver (s : State ι) (i : ι) (callers : List Bytes) (result : Option ℕ) : State ι :=
  s.set i ((s.thread i).deliver callers result)

/-- Record that an entry is acquired. -/
def State.acquired (s : State ι) (e : ℕ) (c : Cache) : State ι :=
  { s with cache := c, clock := s.clock + 1, stamp := Function.update s.stamp e s.clock }

def Cache.setOpen (c : Cache) (fd : ℕ) (on : Bool) : Cache :=
  { c with isOpen := Function.update c.isOpen fd on }

/-- One step of a call. A new descriptor is one that is not open, and allocated memory is not
in use. -/
def advance (cap : ℤ) (root : Bytes) (s : State ι) (i : ι) (answer : Option ℕ) :
    Call → List Bytes → Option (State ι)
  | .lookup dir, callers =>
    if cap ≤ 0 then some (s.deliver i callers none)
    else
      match dfdLookupPinLocked s.cache dir (dirCacheHash dir) with
      | some (e, c) => some ((s.acquired e c).deliver i callers (some e))
      | none =>
        if useParent root dir then
          some (s.goto i (.lookup (splitDirBase dir).1) (dir :: callers))
        else some (s.goto i (.openPath dir none) callers)
  | .openAt dir pe, callers =>
    match answer with
    | some fd =>
      if s.cache.isOpen fd then none
      else some ({ s with cache := s.cache.setOpen fd true }.goto i
        (.releasing dir (some pe) (some fd)) callers)
    | none => some (s.goto i (.openPath dir (some pe)) callers)
  | .openPath dir pe, callers =>
    match answer with
    | some fd =>
      if s.cache.isOpen fd then none
      else some ({ s with cache := s.cache.setOpen fd true }.goto i
        (.releasing dir pe (some fd)) callers)
    | none => some (s.goto i (.releasing dir pe none) callers)
  | .releasing dir pe fd, callers =>
    let s := { s with cache := pe.elim s.cache (dirFdRelease s.cache) }
    match fd with
    | some fd => some (s.goto i (.inserting dir fd) callers)
    | none => some (s.deliver i callers none)
  | .inserting dir fd, callers =>
    match dfdLookupPinLocked s.cache dir (dirCacheHash dir) with
    | some (e, c) => some ((s.acquired e c).goto i (.closing fd (some e)) callers)
    | none =>
      match answer with
      | none => some (s.goto i (.closing fd none) callers)
      | some e =>
        if (s.cache.entry e).isSome then none
        else
          let c := dfdEvictLocked cap (dfdInsert s.cache e fd dir (dirCacheHash dir))
          some ((s.acquired e c).deliver i callers (some e))
  | .closing fd result, callers =>
    some ({ s with cache := s.cache.setOpen fd false }.deliver i callers result)

def step (cap : ℤ) (root : Bytes) (s : State ι) : Action ι → Option (State ι)
  | .acquire i dir =>
    match (s.thread i).running with
    | some _ => none
    | none => some (s.goto i (.lookup dir) [])
  | .release i e =>
    match (s.thread i).running with
    | some _ => none
    | none =>
      if e ∈ (s.thread i).held then
        some ({ s with cache := dirFdRelease s.cache e }.set i
          { s.thread i with held := (s.thread i).held.erase e })
      else none
  | .advance i answer =>
    match (s.thread i).running with
    | some (call, callers) => advance cap root s i answer call callers
    | none => none

def init : State ι where
  cache := Cache.empty
  thread := fun _ => ⟨none, []⟩
  clock := 0
  stamp := fun _ => 0

variable [Fintype ι]

/-- How often an entry was acquired and not yet released, over all threads. -/
def State.outstanding (s : State ι) (e : ℕ) : ℕ := total (fun t => t.pins.count e) s.thread

/-- How many calls are about to use a descriptor that is not in the cache. -/
def State.inFlight (s : State ι) (fd : ℕ) : ℕ := total (fun t => t.fds.count fd) s.thread

def Cache.refcount (c : Cache) (e : ℕ) : ℕ := (c.entry e).elim 0 Entry.refcount

/-- What holds between the cache, the record of acquisitions, and what the threads hold. -/
structure Sound (c : Cache) (l : List ℕ) (clock : ℕ) (stamp pins fds : ℕ → ℕ) : Prop where
  consistent : Consistent c l
  recent : Recent stamp l
  past : ∀ e ∈ l, stamp e < clock
  owned : Owned c l fds
  counted : ∀ e, c.refcount e = pins e

/-- What one step may do to the entries. -/
structure Careful (cap : ℤ) (c : Cache) (stamp : ℕ → ℕ) (c' : Cache) (stamp' : ℕ → ℕ) : Prop where
  /-- An entry in use stays what it is. -/
  kept : ∀ e en, c.entry e = some en → 0 < en.refcount →
    ∃ en', c'.entry e = some en' ∧ en'.fd = en.fd ∧ en'.path = en.path
  /-- What goes was not in use, and was acquired before all that stay and are not in use. -/
  oldest : ∀ e en, c.entry e = some en → c'.entry e = none → en.refcount = 0 ∧
    ∀ e' en', c'.entry e' = some en' → en'.refcount = 0 → stamp e < stamp' e'
  /-- When an entry comes, the others make room for it as far as they can. -/
  room : ∀ e, c.entry e = none → (c'.entry e).isSome → c'.count ≤ cap ∨
    ∀ e' en', c'.entry e' = some en' → 0 < en'.refcount

section Sound
variable {c c' : Cache} {l : List ℕ} {clock : ℕ} {stamp stamp' pins pins' fds fds' : ℕ → ℕ}
  {cap : ℤ} {e fd : ℕ} {en : Entry} {path : Bytes}

theorem Careful.of_same (h : c'.entry = c.entry) : Careful cap c stamp c' stamp' := by
  constructor
  · intro e en hentry _
    exact ⟨en, by rw [h]; exact hentry, rfl, rfl⟩
  · intro e en hentry hgone
    rw [h, hentry] at hgone
    cases hgone
  · intro e hnone hsome
    rw [h, hnone] at hsome
    cases hsome

/-- Only one entry is written, and it keeps its descriptor and its path. -/
theorem Careful.of_write {en' : Entry} (hentry : c.entry e = some en)
    (h : c'.entry = Function.update c.entry e (some en')) (hfd : en'.fd = en.fd)
    (hpath : en'.path = en.path) : Careful cap c stamp c' stamp' := by
  have hlive : ∀ x enx, c.entry x = some enx →
      ∃ en', c'.entry x = some en' ∧ en'.fd = enx.fd ∧ en'.path = enx.path := by
    intro x enx hx
    rw [h]
    by_cases hxe : x = e
    · subst hxe
      rw [hentry] at hx
      cases hx
      exact ⟨en', Function.update_self _ _ _, hfd, hpath⟩
    · rw [Function.update_of_ne hxe]
      exact ⟨enx, hx, rfl, rfl⟩
  constructor
  · intro x enx hx _
    exact hlive x enx hx
  · intro x enx hx hgone
    obtain ⟨en', hx', -⟩ := hlive x enx hx
    rw [hx'] at hgone
    cases hgone
  · intro x hnone hsome
    have hxe : x ≠ e := by
      rintro rfl
      rw [hentry] at hnone
      cases hnone
    rw [h, Function.update_of_ne hxe, hnone] at hsome
    cases hsome

theorem Sound.congr (h : Sound c l clock stamp pins fds) (hpins : ∀ x, pins' x = pins x)
    (hfds : ∀ x, fds' x = fds x) : Sound c l clock stamp pins' fds' := by
  rw [funext hpins, funext hfds]
  exact h

theorem refcount_of_entry (hentry : c.entry e = some en) : c.refcount e = en.refcount := by
  rw [Cache.refcount, hentry]
  rfl

theorem refcount_of_write {en' : Entry} (h : c'.entry = Function.update c.entry e (some en'))
    (x : ℕ) : c'.refcount x = if x = e then en'.refcount else c.refcount x := by
  unfold Cache.refcount
  rw [h, Function.update_apply]
  split_ifs
  · rfl
  · rfl

theorem Owned.write {l' : List ℕ} {en' : Entry} (h : Owned c l fds) (hperm : l'.Perm l)
    (hentry : c.entry e = some en) (hwrite : c'.entry = Function.update c.entry e (some en'))
    (hfd : en'.fd = en.fd) (hopen : c'.isOpen = c.isOpen) : Owned c' l' fds := by
  intro x
  have hsame : c'.owns x = c.owns x := by
    funext y
    unfold Cache.owns
    rw [hwrite]
    by_cases hy : y = e
    · rw [hy, Function.update_self, hentry, Option.any_some, Option.any_some, hfd]
    · rw [Function.update_of_ne hy]
  rw [hsame, hopen, hperm.countP_eq]
  exact h x

theorem count_singleton_eq (e x : ℕ) : [e].count x = if x = e then 1 else 0 := by
  rw [List.count_singleton]
  by_cases h : x = e
  · simp [h]
  · simp [h, Ne.symm h]

theorem Sound.hit (h : Sound c l clock stamp pins fds) (hit : Hit c l path e c')
    (hpins : ∀ x, pins' x = pins x + [e].count x) (hfds : ∀ x, fds' x = fds x) :
    (∃ l', Sound c' l' (clock + 1) (Function.update stamp e clock) pins' fds') ∧
      Careful cap c stamp c' (Function.update stamp e clock) := by
  obtain ⟨en, hentry, hpath, hwrite⟩ := hit.found
  have he := h.consistent.mem_of_entry hentry
  have hnodup := h.consistent.lru.nodup
  have hrest : ∀ x ∈ l.erase e, stamp x < clock := fun x hx => h.past x (List.mem_of_mem_erase hx)
  have hrecent : Recent stamp (l.erase e) := h.recent.sublist List.erase_sublist
  constructor
  · refine ⟨e :: l.erase e, hit.consistent, hrecent.use hnodup.not_mem_erase hrest, ?_, ?_, ?_⟩
    · intro x hx
      rw [Function.update_apply]
      split_ifs with hxe
      · exact Nat.lt_succ_self clock
      · have hx := hrest x ((List.mem_cons.mp hx).resolve_left hxe)
        omega
    · rw [funext hfds]
      exact h.owned.write (List.perm_cons_erase he).symm hentry hwrite rfl hit.isOpen
    · intro x
      have hx := h.counted x
      rw [refcount_of_write hwrite, hpins, count_singleton_eq]
      split_ifs with hxe
      · subst hxe
        rw [refcount_of_entry hentry] at hx
        rw [← hx]
        rfl
      · exact hx
  · exact Careful.of_write hentry hwrite rfl rfl

theorem Sound.release (h : Sound c l clock stamp pins fds)
    (hpins : ∀ x, pins' x + [e].count x = pins x) (hfds : ∀ x, fds' x = fds x) :
    (∃ l', Sound (dirFdRelease c e) l' clock stamp pins' fds') ∧
      Careful cap c stamp (dirFdRelease c e) stamp := by
  have hone := hpins e
  rw [count_singleton_eq, if_pos rfl, ← h.counted] at hone
  obtain ⟨en, hentry⟩ : ∃ en, c.entry e = some en := by
    cases hentry : c.entry e with
    | some en => exact ⟨en, rfl⟩
    | none =>
      rw [Cache.refcount, hentry] at hone
      cases hone
  rw [refcount_of_entry hentry] at hone
  obtain ⟨hwrite, hcons⟩ := h.consistent.release hentry
  constructor
  · refine ⟨l, hcons, h.recent, h.past, ?_, ?_⟩
    · rw [funext hfds]
      exact h.owned.write (List.Perm.refl l) hentry hwrite rfl rfl
    · intro x
      have hx := h.counted x
      have hx' := hpins x
      rw [count_singleton_eq] at hx'
      rw [refcount_of_write hwrite]
      split_ifs at hx' ⊢ with hxe
      · subst hxe
        rw [refcount_of_entry hentry] at hx
        unfold Entry.unpin
        dsimp only
        rw [if_pos (by omega)]
        omega
      · rw [hx]
        exact hx'.symm
  · exact Careful.of_write hentry hwrite rfl rfl

theorem Sound.opened (h : Sound c l clock stamp pins fds) (hclosed : c.isOpen fd = false)
    (hpins : ∀ x, pins' x = pins x) (hfds : ∀ x, fds' x = fds x + [fd].count x) :
    Sound (c.setOpen fd true) l clock stamp pins' fds' := by
  refine ⟨⟨h.consistent.lru, h.consistent.live, h.consistent.chained, h.consistent.counted,
    h.consistent.hashed, h.consistent.unique⟩, h.recent, h.past, ?_, ?_⟩
  · intro x
    have hx := h.owned x
    show l.countP (c.owns x) + fds' x = (Function.update c.isOpen fd true x).toNat
    rw [hfds, count_singleton_eq, Function.update_apply]
    split_ifs with hxfd
    · rw [hxfd, hclosed, Bool.toNat_false] at hx
      rw [hxfd, Bool.toNat_true]
      omega
    · exact hx
  · intro x
    rw [hpins]
    exact h.counted x

theorem Sound.closed (h : Sound c l clock stamp pins fds)
    (hpins : ∀ x, pins' x = pins x) (hfds : ∀ x, fds' x + [fd].count x = fds x) :
    Sound (c.setOpen fd false) l clock stamp pins' fds' := by
  refine ⟨⟨h.consistent.lru, h.consistent.live, h.consistent.chained, h.consistent.counted,
    h.consistent.hashed, h.consistent.unique⟩, h.recent, h.past, ?_, ?_⟩
  · intro x
    have hx := h.owned x
    have hx' := hfds x
    have hle := Bool.toNat_le (c.isOpen x)
    show l.countP (c.owns x) + fds' x = (Function.update c.isOpen fd false x).toNat
    rw [count_singleton_eq] at hx'
    rw [Function.update_apply]
    split_ifs at hx' ⊢ with hxfd
    · rw [Bool.toNat_false]
      omega
    · omega
  · intro x
    rw [hpins]
    exact h.counted x

section Insert
variable (hcons : Consistent c l) (hfree : c.entry e = none)
include hfree

omit hfree in
theorem dfdInsert_entry (c : Cache) (e fd : ℕ) (path : Bytes) (hash x : ℕ) :
    (dfdInsert c e fd path hash).entry x = if x = e then some ⟨fd, 1, hash, path⟩ else c.entry x :=
  Function.update_apply _ _ _ _

include hcons in
theorem Owned.insert (h : Owned c l fds) (path : Bytes) (hash : ℕ)
    (hfds : ∀ x, fds' x + [fd].count x = fds x) :
    Owned (dfdInsert c e fd path hash) (e :: l) fds' := by
  intro x
  have hsame : l.countP ((dfdInsert c e fd path hash).owns x) = l.countP (c.owns x) := by
    apply List.countP_congr
    intro y hy
    have hne : y ≠ e := by
      rintro rfl
      obtain ⟨en, hentry⟩ := hcons.entry_of_mem hy
      rw [hfree] at hentry
      cases hentry
    unfold Cache.owns
    rw [dfdInsert_entry, if_neg hne]
  have hnew : (dfdInsert c e fd path hash).owns x e = (fd == x) := by
    unfold Cache.owns
    rw [dfdInsert_entry, if_pos rfl]
    rfl
  rw [List.countP_cons, hsame, hnew]
  have hx := h x
  have hx' := hfds x
  rw [List.count_singleton] at hx'
  show _ = (c.isOpen x).toNat
  omega

/-- A new entry takes its descriptor over, and others make room. -/
theorem Sound.insert (h : Sound c l clock stamp pins fds)
    (hmiss : ∀ x, c.path x ≠ some path) (hpins : ∀ x, pins' x = pins x + [e].count x)
    (hfds : ∀ x, fds' x + [fd].count x = fds x) :
    (∃ l', Sound (dfdEvictLocked cap (dfdInsert c e fd path (dirCacheHash path))) l' (clock + 1)
      (Function.update stamp e clock) pins' fds') ∧
      Careful cap c stamp (dfdEvictLocked cap (dfdInsert c e fd path (dirCacheHash path)))
        (Function.update stamp e clock) := by
  have hentry1 := dfdInsert_entry c e fd path (dirCacheHash path)
  have hcons1 := h.consistent.insert hfree hmiss fd
  have howned1 := h.owned.insert h.consistent hfree path (dirCacheHash path) hfds
  obtain ⟨hcons', howned', hkept⟩ := hcons1.evict howned1 cap
  have hsub := (shed_sublist (dfdInsert c e fd path (dirCacheHash path)).pinned
    ((dfdInsert c e fd path (dirCacheHash path)).count - cap).toNat (e :: l).reverse).reverse
  rw [List.reverse_reverse] at hsub
  generalize hc1 : dfdInsert c e fd path (dirCacheHash path) = c1 at *
  generalize hl' : (shed c1.pinned (c1.count - cap).toNat (e :: l).reverse).reverse = l' at *
  have hnot : e ∉ l := (List.nodup_cons.mp hcons1.lru.nodup).1
  have hrecent : Recent (Function.update stamp e clock) (e :: l) := h.recent.use hnot h.past
  have hmem : ∀ x, x ∈ l' ↔ x ∈ shed c1.pinned (c1.count - cap).toNat (e :: l).reverse := by
    intro x
    rw [← hl', List.mem_reverse]
  have hcount1 : ∀ x, c1.refcount x = pins' x := by
    intro x
    rw [Cache.refcount, hentry1, hpins, ← h.counted, count_singleton_eq]
    split_ifs with hx
    · rw [hx, Cache.refcount, hfree]
      rfl
    · rfl
  have hpinned : ∀ x en, c1.entry x = some en → c1.pinned x = decide (0 < en.refcount) := by
    intro x en hx
    rw [Cache.pinned, hx]
    rfl
  have hgone : ∀ x en, c1.entry x = some en → x ∉ l' → en.refcount = 0 := by
    intro x en hx hxl
    have hin := List.mem_reverse.mpr (hcons1.mem_of_entry hx)
    have hunused := unused_of_shed hin fun hshed => hxl ((hmem x).mpr hshed)
    rw [hpinned x en hx, decide_eq_false_iff_not] at hunused
    omega
  have hleft : ∀ x en, (dfdEvictLocked cap c1).entry x = some en →
      x ∈ l' ∧ c1.entry x = some en := by
    intro x en hx
    have hxl := hcons'.mem_of_entry hx
    exact ⟨hxl, by rw [← hkept x hxl]; exact hx⟩
  constructor
  · refine ⟨l', hcons', hrecent.sublist hsub, ?_, howned', ?_⟩
    · intro x hx
      rw [Function.update_apply]
      split_ifs with hxe
      · exact Nat.lt_succ_self clock
      · have hx := h.past x ((List.mem_cons.mp (hsub.subset hx)).resolve_left hxe)
        omega
    · intro x
      rw [← hcount1 x]
      unfold Cache.refcount
      by_cases hxl : x ∈ l'
      · rw [hkept x hxl]
      · have hdead : (dfdEvictLocked cap c1).entry x = none := by
          cases hx : (dfdEvictLocked cap c1).entry x with
          | none => rfl
          | some en => exact absurd (hleft x en hx).1 hxl
        rw [hdead]
        cases hx : c1.entry x with
        | none => rfl
        | some en => exact (hgone x en hx hxl).symm
  · constructor
    · intro x en hx hpos
      have hxe : x ≠ e := by
        rintro rfl
        rw [hfree] at hx
        cases hx
      have hx1 : c1.entry x = some en := by
        rw [hentry1, if_neg hxe]
        exact hx
      have hxl : x ∈ l' := by
        by_contra hxl
        exact absurd (hgone x en hx1 hxl) (Nat.ne_of_gt hpos)
      exact ⟨en, by rw [hkept x hxl]; exact hx1, rfl, rfl⟩
    · intro x en hx hdead
      have hxe : x ≠ e := by
        rintro rfl
        rw [hfree] at hx
        cases hx
      have hx1 : c1.entry x = some en := by
        rw [hentry1, if_neg hxe]
        exact hx
      have hxl : x ∉ l' := by
        intro hxl
        rw [hkept x hxl, hx1] at hdead
        cases hdead
      refine ⟨hgone x en hx1 hxl, ?_⟩
      intro y eny hy hzero
      obtain ⟨hyl, hy1⟩ := hleft y eny hy
      have hunused : c1.pinned y = false := by
        rw [hpinned y eny hy1, hzero]
        rfl
      have hlt := shed_order hrecent.reverse (List.mem_reverse.mpr (hcons1.mem_of_entry hx1))
        (fun hshed => hxl ((hmem x).mpr hshed)) ((hmem y).mp hyl) hunused
      rw [Function.update_of_ne hxe] at hlt
      exact hlt
    · intro x _ _
      have hlen := length_shed c1.pinned (c1.count - cap).toNat (e :: l).reverse
      rcases hlen with hlen | hall
      · left
        have hcount := hcons'.counted
        have hcount1 := hcons1.counted
        rw [← List.length_reverse, hl', List.length_reverse] at hlen
        omega
      · right
        intro y eny hy
        obtain ⟨hyl, hy1⟩ := hleft y eny hy
        have hused := hall y ((hmem y).mp hyl)
        rw [hpinned y eny hy1, decide_eq_true_eq] at hused
        exact hused

end Insert
end Sound

section Threads
variable {s s' : State ι} {i : ι} {call call' : Call}
  {callers callers' : List Bytes} {cap : ℤ} {root : Bytes}

theorem Thread.pins_deliver (t : Thread) (callers : List Bytes) (result : Option ℕ) :
    (t.deliver callers result).pins = result.toList ++ t.held := by
  cases callers with
  | nil => rfl
  | cons dir callers =>
    cases result with
    | none => rfl
    | some pe => rfl

theorem Thread.fds_deliver (t : Thread) (callers : List Bytes) (result : Option ℕ) :
    (t.deliver callers result).fds = [] := by
  cases callers with
  | nil => rfl
  | cons dir callers =>
    cases result with
    | none => rfl
    | some pe => rfl

theorem State.outstanding_set (s : State ι) (i : ι) (t : Thread) (x : ℕ) :
    (s.set i t).outstanding x + (s.thread i).pins.count x = s.outstanding x + t.pins.count x :=
  total_update _ _ _ _

theorem State.inFlight_set (s : State ι) (i : ι) (t : Thread) (x : ℕ) :
    (s.set i t).inFlight x + (s.thread i).fds.count x = s.inFlight x + t.fds.count x :=
  total_update _ _ _ _

section Running
variable (hrun : (s.thread i).running = some (call, callers))
include hrun

theorem State.outstanding_goto (call' : Call) (callers' : List Bytes) (x : ℕ) :
    (s.goto i call' callers').outstanding x + call.pins.count x =
      s.outstanding x + call'.pins.count x := by
  have hset := s.outstanding_set i ⟨some (call', callers'), (s.thread i).held⟩ x
  unfold Thread.pins at hset
  rw [hrun, Option.elim_some, Option.elim_some, List.count_append, List.count_append] at hset
  dsimp only at hset
  show (s.set i ⟨some (call', callers'), (s.thread i).held⟩).outstanding x + _ = _
  omega

theorem State.inFlight_goto (call' : Call) (callers' : List Bytes) (x : ℕ) :
    (s.goto i call' callers').inFlight x + call.fds.count x =
      s.inFlight x + call'.fds.count x := by
  have hset := s.inFlight_set i { s.thread i with running := some (call', callers') } x
  unfold Thread.fds at hset
  rw [hrun, Option.elim_some, Option.elim_some] at hset
  exact hset

theorem State.outstanding_deliver (callers' : List Bytes) (result : Option ℕ) (x : ℕ) :
    (s.deliver i callers' result).outstanding x + call.pins.count x =
      s.outstanding x + result.toList.count x := by
  have hset := s.outstanding_set i ((s.thread i).deliver callers' result) x
  rw [Thread.pins_deliver] at hset
  unfold Thread.pins at hset
  rw [hrun, Option.elim_some, List.count_append, List.count_append] at hset
  dsimp only at hset
  unfold State.deliver
  omega

theorem State.inFlight_deliver (callers' : List Bytes) (result : Option ℕ) (x : ℕ) :
    (s.deliver i callers' result).inFlight x + call.fds.count x = s.inFlight x := by
  have hset := s.inFlight_set i ((s.thread i).deliver callers' result) x
  rw [Thread.fds_deliver] at hset
  unfold Thread.fds at hset
  rw [hrun, Option.elim_some] at hset
  exact hset

end Running

/-- The invariant of the threads and the cache. -/
def Inv (s : State ι) : Prop :=
  ∃ l, Sound s.cache l s.clock s.stamp s.outstanding s.inFlight

omit [DecidableEq ι] in
theorem inv_init : Inv (init : State ι) := by
  have hzero : ∀ x, (init : State ι).outstanding x = 0 := fun x => total_eq_zero_iff.mpr fun _ => rfl
  have hnone : ∀ x, (init : State ι).inFlight x = 0 := fun x => total_eq_zero_iff.mpr fun _ => rfl
  refine ⟨[], Consistent.empty, List.Pairwise.nil, fun e he => (List.not_mem_nil he).elim, ?_, ?_⟩
  · intro fd
    rw [hnone]
    rfl
  · intro e
    rw [hzero]
    rfl

/-- A state with another cache and other stamps, and the step of one thread. -/
def Good (cap : ℤ) (s s' : State ι) : Prop :=
  Inv s' ∧ Careful cap s.cache s.stamp s'.cache s'.stamp

section Advance
variable {answer : Option ℕ} (h : Inv s)
include h

/-- A thread goes on to another call with the same pins and descriptors. -/
theorem good_goto {call' : Call} {callers' : List Bytes}
    (hrun : (s.thread i).running = some (call, callers)) (hpins : call'.pins = call.pins)
    (hfds : call'.fds = call.fds) : Good cap s (s.goto i call' callers') := by
  obtain ⟨l, h⟩ := h
  refine ⟨⟨l, h.congr (fun x => ?_) fun x => ?_⟩, Careful.of_same rfl⟩
  · have hgoto := State.outstanding_goto hrun call' callers' x
    rw [hpins] at hgoto
    exact Nat.add_right_cancel hgoto
  · have hgoto := State.inFlight_goto hrun call' callers' x
    rw [hfds] at hgoto
    exact Nat.add_right_cancel hgoto

variable {dir : Bytes}

theorem good_lookup (hrun : (s.thread i).running = some (.lookup dir, callers))
    (hstep : advance cap root s i answer (.lookup dir) callers = some s') : Good cap s s' := by
  obtain ⟨l, h⟩ := h
  have hlookup := h.consistent.lookup dir
  simp only [advance] at hstep
  by_cases hcap : cap ≤ 0
  · rw [if_pos hcap] at hstep
    cases hstep
    refine ⟨⟨l, h.congr ?_ ?_⟩, Careful.of_same rfl⟩
    · exact State.outstanding_deliver hrun callers none
    · exact State.inFlight_deliver hrun callers none
  · rw [if_neg hcap] at hstep
    cases hres : dfdLookupPinLocked s.cache dir (dirCacheHash dir) with
    | some found =>
      obtain ⟨e, c⟩ := found
      rw [hres] at hlookup hstep
      cases hstep
      exact h.hit hlookup (State.outstanding_deliver hrun callers (some e))
        (State.inFlight_deliver hrun callers (some e))
    | none =>
      rw [hres] at hstep
      dsimp only at hstep
      split_ifs at hstep
      · cases hstep
        exact good_goto ⟨l, h⟩ hrun rfl rfl
      · cases hstep
        exact good_goto ⟨l, h⟩ hrun rfl rfl

theorem good_openAt {pe : ℕ} (hrun : (s.thread i).running = some (.openAt dir pe, callers))
    (hstep : advance cap root s i answer (.openAt dir pe) callers = some s') : Good cap s s' := by
  obtain ⟨l, h⟩ := h
  cases answer with
  | some fd =>
    simp only [advance] at hstep
    split_ifs at hstep with hopen
    cases hstep
    refine ⟨⟨l, h.opened (Bool.eq_false_iff.mpr hopen) ?_ ?_⟩, Careful.of_same rfl⟩
    · intro x
      exact Nat.add_right_cancel (State.outstanding_goto hrun (.releasing dir (some pe) (some fd))
        callers x)
    · exact State.inFlight_goto hrun (.releasing dir (some pe) (some fd)) callers
  | none =>
    cases hstep
    exact good_goto ⟨l, h⟩ hrun rfl rfl

theorem good_openPath {pe : Option ℕ}
    (hrun : (s.thread i).running = some (.openPath dir pe, callers))
    (hstep : advance cap root s i answer (.openPath dir pe) callers = some s') : Good cap s s' := by
  obtain ⟨l, h⟩ := h
  cases answer with
  | some fd =>
    simp only [advance] at hstep
    split_ifs at hstep with hopen
    cases hstep
    refine ⟨⟨l, h.opened (Bool.eq_false_iff.mpr hopen) ?_ ?_⟩, Careful.of_same rfl⟩
    · intro x
      exact Nat.add_right_cancel (State.outstanding_goto hrun (.releasing dir pe (some fd))
        callers x)
    · exact State.inFlight_goto hrun (.releasing dir pe (some fd)) callers
  | none =>
    cases hstep
    exact good_goto ⟨l, h⟩ hrun rfl rfl

theorem good_releasing {pe fd : Option ℕ}
    (hrun : (s.thread i).running = some (.releasing dir pe fd, callers))
    (hstep : advance cap root s i answer (.releasing dir pe fd) callers = some s') :
    Good cap s s' := by
  obtain ⟨l, h⟩ := h
  have hcounts : (∀ x, s'.outstanding x + pe.toList.count x = s.outstanding x) ∧
      (∀ x, s'.inFlight x = s.inFlight x) ∧ s'.clock = s.clock ∧ s'.stamp = s.stamp ∧
      s'.cache = pe.elim s.cache (dirFdRelease s.cache) := by
    cases fd with
    | some fd =>
      cases hstep
      refine ⟨State.outstanding_goto hrun (.inserting dir fd) callers, ?_, rfl, rfl, rfl⟩
      intro x
      exact Nat.add_right_cancel (State.inFlight_goto hrun (.inserting dir fd) callers x)
    | none =>
      cases hstep
      exact ⟨State.outstanding_deliver hrun callers none, State.inFlight_deliver hrun callers none,
        rfl, rfl, rfl⟩
  obtain ⟨hpins, hfds, hclock, hstamp, hcache⟩ := hcounts
  unfold Good Inv
  rw [hclock, hstamp, hcache]
  cases pe with
  | some pe => exact h.release hpins hfds
  | none => exact ⟨⟨l, h.congr hpins hfds⟩, Careful.of_same rfl⟩

theorem good_inserting {fd : ℕ} (hrun : (s.thread i).running = some (.inserting dir fd, callers))
    (hstep : advance cap root s i answer (.inserting dir fd) callers = some s') :
    Good cap s s' := by
  obtain ⟨l, h⟩ := h
  have hlookup := h.consistent.lookup dir
  simp only [advance] at hstep
  cases hres : dfdLookupPinLocked s.cache dir (dirCacheHash dir) with
  | some found =>
    obtain ⟨e, c⟩ := found
    rw [hres] at hlookup hstep
    cases hstep
    apply h.hit hlookup
    · exact State.outstanding_goto hrun (.closing fd (some e)) callers
    · intro x
      exact Nat.add_right_cancel (State.inFlight_goto hrun (.closing fd (some e)) callers x)
  | none =>
    rw [hres] at hlookup hstep
    cases answer with
    | none =>
      cases hstep
      exact good_goto ⟨l, h⟩ hrun rfl rfl
    | some e =>
      dsimp only at hstep
      split_ifs at hstep with hused
      cases hstep
      have hfree : s.cache.entry e = none := Option.not_isSome_iff_eq_none.mp hused
      exact h.insert hfree hlookup (State.outstanding_deliver hrun callers (some e))
        (State.inFlight_deliver hrun callers (some e))

theorem good_closing {fd : ℕ} {result : Option ℕ}
    (hrun : (s.thread i).running = some (.closing fd result, callers))
    (hstep : advance cap root s i answer (.closing fd result) callers = some s') :
    Good cap s s' := by
  obtain ⟨l, h⟩ := h
  cases hstep
  refine ⟨⟨l, h.closed ?_ ?_⟩, Careful.of_same rfl⟩
  · intro x
    exact Nat.add_right_cancel (State.outstanding_deliver hrun callers result x)
  · exact State.inFlight_deliver hrun callers result

theorem good_step {a : Action ι} (hstep : step cap root s a = some s') : Good cap s s' := by
  cases a with
  | acquire i dir =>
    cases hrun : (s.thread i).running with
    | some r =>
      simp only [step, hrun] at hstep
      cases hstep
    | none =>
      simp only [step, hrun] at hstep
      cases hstep
      obtain ⟨l, h⟩ := h
      refine ⟨⟨l, h.congr ?_ ?_⟩, Careful.of_same rfl⟩
      · intro x
        have hset := s.outstanding_set i ⟨some (.lookup dir, []), (s.thread i).held⟩ x
        unfold Thread.pins at hset
        rw [hrun] at hset
        exact Nat.add_right_cancel hset
      · intro x
        have hset := s.inFlight_set i ⟨some (.lookup dir, []), (s.thread i).held⟩ x
        unfold Thread.fds at hset
        rw [hrun] at hset
        exact hset
  | release i e =>
    cases hrun : (s.thread i).running with
    | some r =>
      simp only [step, hrun] at hstep
      cases hstep
    | none =>
      simp only [step, hrun] at hstep
      split_ifs at hstep with hheld
      cases hstep
      obtain ⟨l, h⟩ := h
      apply h.release
      · intro x
        have hset := s.outstanding_set i ⟨none, (s.thread i).held.erase e⟩ x
        have hcount := (List.perm_cons_erase hheld).count_eq x
        rw [← List.singleton_append, List.count_append] at hcount
        unfold Thread.pins at hset
        rw [hrun, Option.elim_none, List.nil_append, hcount] at hset
        dsimp only [Option.elim_none, List.nil_append] at hset
        show (s.set i ⟨none, (s.thread i).held.erase e⟩).outstanding x + _ = _
        omega
      · intro x
        have hset := s.inFlight_set i ⟨none, (s.thread i).held.erase e⟩ x
        unfold Thread.fds at hset
        rw [hrun] at hset
        exact hset
  | advance i answer =>
    cases hrun : (s.thread i).running with
    | none =>
      simp only [step, hrun] at hstep
      cases hstep
    | some r =>
      obtain ⟨call, callers⟩ := r
      simp only [step, hrun] at hstep
      cases call with
      | lookup dir => exact good_lookup h hrun hstep
      | openAt dir pe => exact good_openAt h hrun hstep
      | openPath dir pe => exact good_openPath h hrun hstep
      | releasing dir pe fd => exact good_releasing h hrun hstep
      | inserting dir fd => exact good_inserting h hrun hstep
      | closing fd result => exact good_closing h hrun hstep

end Advance

theorem inv_reachable (h : Reachable (step cap root) init s) : Inv s := by
  apply h.invariant inv_init
  intro s a s' hinv hstep
  exact (good_step hinv hstep).1

/-- The cache through any run: its links hold one list in the order of the last acquisitions,
an entry is pinned once for each acquisition that is not released, its descriptor is open as
long as it lives, and a step takes away only the oldest of the entries nobody holds, until
the cache is down to its size or everything in it is held. -/
theorem dirFdCache_sound (h : Reachable (step cap root) init s) :
    (∃ l, Consistent s.cache l ∧ Recent s.stamp l) ∧
      (∀ e en, s.cache.entry e = some en →
        en.refcount = s.outstanding e ∧ s.cache.isOpen en.fd = true) ∧
      (∀ e, s.cache.entry e = none → s.outstanding e = 0) ∧
      ∀ a s', step cap root s a = some s' →
        (∀ e en, s.cache.entry e = some en → 0 < en.refcount →
          ∃ en', s'.cache.entry e = some en' ∧ en'.fd = en.fd ∧ en'.path = en.path ∧
            s'.cache.isOpen en.fd = true) ∧
        (∀ e en, s.cache.entry e = some en → s'.cache.entry e = none → en.refcount = 0 ∧
          ∀ e' en', s'.cache.entry e' = some en' → en'.refcount = 0 → s.stamp e < s'.stamp e') ∧
        (∀ e, s.cache.entry e = none → (s'.cache.entry e).isSome → s'.cache.count ≤ cap ∨
          ∀ e' en', s'.cache.entry e' = some en' → 0 < en'.refcount) := by
  have hinv := inv_reachable h
  obtain ⟨l, hsound⟩ := id hinv
  refine ⟨⟨l, hsound.consistent, hsound.recent⟩, ?_, ?_, ?_⟩
  · intro e en hentry
    constructor
    · rw [← hsound.counted, refcount_of_entry hentry]
    · exact hsound.owned.isOpen hsound.consistent hentry
  · intro e hnone
    rw [← hsound.counted, Cache.refcount, hnone]
    rfl
  · intro a s' hstep
    obtain ⟨⟨l', hsound'⟩, hcareful⟩ := good_step hinv hstep
    refine ⟨?_, hcareful.oldest, hcareful.room⟩
    intro e en hentry hpos
    obtain ⟨en', hentry', hfd, hpath⟩ := hcareful.kept e en hentry hpos
    refine ⟨en', hentry', hfd, hpath, ?_⟩
    rw [← hfd]
    exact hsound'.owned.isOpen hsound'.consistent hentry'

end Threads

/-- One thread opens `/a` below a cache of one entry: the entry of `/` has to go. -/
def evictingRun : List (Action Unit) :=
  [.acquire () [slash, 97], .advance () none, .advance () none, .advance () (some 3),
    .advance () none, .advance () (some 0), .advance () (some 4), .advance () none,
    .advance () (some 1)]

theorem dirFdCache_sound_evicting :
    ∃ s, exec (step 1 [slash]) (init : State Unit) evictingRun = some s ∧
      s.cache.entry 0 = none ∧ s.cache.isOpen 3 = false ∧
      (∃ l, Consistent s.cache l ∧ Recent s.stamp l) := by
  have hrun : ((exec (step 1 [slash]) (init : State Unit) evictingRun).any fun s =>
      decide (s.cache.entry 0 = none) && !s.cache.isOpen 3) = true := by decide +kernel
  obtain ⟨s, hs, hgone⟩ := (Option.any_eq_true _ _).mp hrun
  rw [Bool.and_eq_true, decide_eq_true_eq, Bool.not_eq_true'] at hgone
  exact ⟨s, hs, hgone.1, hgone.2, (dirFdCache_sound ⟨evictingRun, hs⟩).1⟩

end Ecopy.Server.DirFdCache
