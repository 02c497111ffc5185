import Ecopy.Lib.Links
import Ecopy.Lib.Recency
import Ecopy.Lib.Runs
import Ecopy.Lib.Threads
import Ecopy.Path

/-!
# The cache of directory descriptors

The server keeps `O_PATH` descriptors of directories. An entry is linked twice: on the chain
of its hash bucket, and on a list in the order of last use. The functions under `g_dfd_lock`
follow the source link by link; nodes are numbers, and the fields of a node are functions of
it. `Consistent` says that all these links together hold one list of entries. Each function
has one lemma: what it does to that list.
-/
namespace Ecopy.Server.DirFdCache
open Lib.Links Lib.Recency
open Protocol (Bytes)

def dfdBuckets : ℕ := 2 ^ 16

def dirCacheHashLoop : Bytes → ℕ → ℕ
  | [], h => h
  | b :: path, h => dirCacheHashLoop path ((h ^^^ b.toNat) * 1099511628211 % 2 ^ 64)

def dirCacheHash (path : Bytes) : ℕ :=
  let h := dirCacheHashLoop path 1469598103934665603
  (h ^^^ h / 2 ^ 32) % 2 ^ 32

structure Entry where
  fd : ℕ
  refcount : ℕ
  hash : ℕ
  path : Bytes
deriving DecidableEq

def Entry.bucket (en : Entry) : ℕ := en.hash % dfdBuckets

/-- The cache with the descriptors of the process. A node that was not allocated, or that was
freed, has no entry. -/
structure Cache where
  entry : ℕ → Option Entry
  hnext : ℕ → Option ℕ
  buckets : ℕ → Option ℕ
  lru : Dll ℕ
  count : ℤ
  isOpen : ℕ → Bool

def Cache.empty : Cache where
  entry := fun _ => none
  hnext := fun _ => none
  buckets := fun _ => none
  lru := Dll.empty
  count := 0
  isOpen := fun _ => false

def Cache.isFor (c : Cache) (path : Bytes) (hash e : ℕ) : Bool :=
  (c.entry e).any fun en => en.hash == hash && en.path == path

def dfdLookupPinLocked (c : Cache) (path : Bytes) (hash : ℕ) : Option (ℕ × Cache) :=
  -- there are `count` nodes, so no chain is longer
  match (walk c.hnext c.count.toNat (c.buckets (hash % dfdBuckets))).find? (c.isFor path hash) with
  | none => none
  | some e =>
    let pinned := (c.entry e).map fun en => { en with refcount := en.refcount + 1 }
    some (e, { c with
      entry := Function.update c.entry e pinned
      lru := (c.lru.unlink e).pushFront e })

/-- Unlink an entry from its chain and from the list, close its descriptor and free it. -/
def dfdDrop (c : Cache) (e : ℕ) (en : Entry) : Cache :=
  let chain := unlinkChain c.hnext (c.buckets en.bucket) e c.count.toNat
  { entry := Function.update c.entry e none
    hnext := chain.2
    buckets := Function.update c.buckets en.bucket chain.1
    lru := c.lru.unlink e
    count := c.count - 1
    isOpen := Function.update c.isOpen en.fd false }

def dfdEvictLoop (cap : ℤ) : ℕ → Cache → Option ℕ → Cache
  | 0, c, _ => c
  | _ + 1, c, none => c
  | fuel + 1, c, some e =>
    if c.count > cap then
      -- read before the node is freed
      let prev := c.lru.prev e
      match c.entry e with
      | some en => dfdEvictLoop cap fuel (if en.refcount = 0 then dfdDrop c e en else c) prev
      | none => c
    else c

def dfdEvictLocked (cap : ℤ) (c : Cache) : Cache := dfdEvictLoop cap c.count.toNat c c.lru.tail

def dirFdRelease (c : Cache) (e : ℕ) : Cache :=
  let unpinned := (c.entry e).map fun en =>
    { en with refcount := if en.refcount > 0 then en.refcount - 1 else en.refcount }
  { c with entry := Function.update c.entry e unpinned }

/-- Link a new entry, pinned once. -/
def dfdInsert (c : Cache) (e fd : ℕ) (path : Bytes) (hash : ℕ) : Cache :=
  let en : Entry := ⟨fd, 1, hash, path⟩
  { c with
    entry := Function.update c.entry e (some en)
    hnext := Function.update c.hnext e (c.buckets en.bucket)
    buckets := Function.update c.buckets en.bucket (some e)
    lru := c.lru.pushFront e
    count := c.count + 1 }

def Cache.path (c : Cache) (e : ℕ) : Option Bytes := (c.entry e).map Entry.path

/-- The chain in which an entry for a path belongs. -/
def slot (path : Bytes) : ℕ := dirCacheHash path % dfdBuckets

/-- The links of the cache hold one list of entries: it is the list in order of use, its
members are the live entries, each of them is on the chain of its bucket and on no other,
the counter is its length, and no two of them have one path. -/
structure Consistent (c : Cache) (l : List ℕ) : Prop where
  lru : c.lru.Holds l
  live : ∀ e, e ∈ l ↔ (c.path e).isSome
  chained : ∀ b, ∃ chain, Follows c.hnext (c.buckets b) chain ∧ chain.Nodup ∧
    ∀ e, e ∈ chain ↔ ∃ p, c.path e = some p ∧ slot p = b
  counted : c.count = l.length
  hashed : ∀ e en, c.entry e = some en → en.hash = dirCacheHash en.path
  unique : ∀ e e' p, c.path e = some p → c.path e' = some p → e = e'

section Consistent
variable {c : Cache} {l : List ℕ} {e : ℕ} {en : Entry} {path : Bytes}

theorem Consistent.empty : Consistent Cache.empty [] where
  lru := Dll.Holds.empty
  live := fun e => ⟨fun h => (List.not_mem_nil h).elim, fun h => (Bool.false_ne_true h).elim⟩
  chained := fun b => ⟨[], rfl, List.nodup_nil, fun e =>
    ⟨fun h => (List.not_mem_nil h).elim, fun ⟨_, h, _⟩ => by cases h⟩⟩
  counted := rfl
  hashed := fun e en h => by cases h
  unique := fun e e' p h => by cases h

theorem Cache.path_of_entry (h : c.entry e = some en) : c.path e = some en.path := by
  rw [Cache.path, h]
  rfl

theorem Cache.entry_of_path (h : c.path e = some path) :
    ∃ en, c.entry e = some en ∧ en.path = path := by
  rw [Cache.path, Option.map_eq_some_iff] at h
  exact h

theorem Consistent.mem_of_entry (h : Consistent c l) (hentry : c.entry e = some en) : e ∈ l := by
  rw [h.live, Cache.path_of_entry hentry]
  rfl

theorem Consistent.entry_of_mem (h : Consistent c l) (he : e ∈ l) : ∃ en, c.entry e = some en := by
  obtain ⟨p, hp⟩ := Option.isSome_iff_exists.mp ((h.live e).mp he)
  obtain ⟨en, hen, -⟩ := Cache.entry_of_path hp
  exact ⟨en, hen⟩

theorem Consistent.bucket_eq (h : Consistent c l) (hentry : c.entry e = some en) :
    en.bucket = slot en.path := by
  unfold Entry.bucket slot
  rw [h.hashed e en hentry]

/-- A chain is not longer than the list. -/
theorem Consistent.length_chain (h : Consistent c l) {b : ℕ} {chain : List ℕ}
    (hnodup : chain.Nodup) (hmem : ∀ e, e ∈ chain ↔ ∃ p, c.path e = some p ∧ slot p = b) :
    chain.length ≤ c.count.toNat := by
  have hsub : chain ⊆ l := by
    intro e he
    obtain ⟨p, hp, -⟩ := (hmem e).mp he
    rw [h.live, hp]
    rfl
  rw [h.counted, Int.toNat_natCast]
  exact (hnodup.subperm hsub).length_le

/-- Writing a field that is no link, hash or path keeps the list. -/
theorem Consistent.write (h : Consistent c l) (hentry : c.entry e = some en) {en' : Entry}
    (hhash : en'.hash = en.hash) (hpath : en'.path = en.path) :
    Consistent { c with entry := Function.update c.entry e (some en') } l := by
  have hsame : ∀ x, Cache.path { c with entry := Function.update c.entry e (some en') } x =
      c.path x := by
    intro x
    by_cases hx : x = e
    · subst hx
      rw [Cache.path_of_entry hentry, ← hpath]
      apply Cache.path_of_entry
      exact Function.update_self _ _ _
    · unfold Cache.path
      dsimp only
      rw [Function.update_of_ne hx]
  constructor
  · exact h.lru
  · intro x
    rw [hsame]
    exact h.live x
  · intro b
    obtain ⟨chain, hfollows, hnodup, hmem⟩ := h.chained b
    refine ⟨chain, hfollows, hnodup, ?_⟩
    intro x
    rw [hmem, hsame]
  · exact h.counted
  · intro x enx hx
    dsimp only at hx
    by_cases hxe : x = e
    · subst hxe
      rw [Function.update_self] at hx
      cases hx
      rw [hhash, hpath]
      exact h.hashed x en hentry
    · rw [Function.update_of_ne hxe] at hx
      exact h.hashed x enx hx
  · intro x y p hx hy
    rw [hsame] at hx hy
    exact h.unique x y p hx hy

/-- A node that is used moves to the front. -/
theorem Consistent.promote (h : Consistent c l) (he : e ∈ l) :
    Consistent { c with lru := (c.lru.unlink e).pushFront e } (e :: l.erase e) where
  lru := (h.lru.unlink he).pushFront (h.lru.nodup.not_mem_erase)
  live := fun x => by
    rw [← (List.perm_cons_erase he).mem_iff]
    exact h.live x
  chained := h.chained
  counted := by
    rw [← (List.perm_cons_erase he).length_eq]
    exact h.counted
  hashed := h.hashed
  unique := h.unique

theorem Consistent.isFor_iff (h : Consistent c l) :
    c.isFor path (dirCacheHash path) e = true ↔ c.path e = some path := by
  unfold Cache.isFor Cache.path
  cases hentry : c.entry e with
  | none => simp
  | some en =>
    have hhash := h.hashed e en hentry
    rw [Option.any_some, Option.map_some, Option.some.injEq, Bool.and_eq_true, beq_iff_eq,
      beq_iff_eq]
    constructor
    · exact fun hboth => hboth.2
    · intro hpath
      exact ⟨by rw [hhash, hpath], hpath⟩

/-- The lookup searches one chain, and finds the entry of the path if there is one. -/
theorem Consistent.find (h : Consistent c l) (path : Bytes) :
    match (walk c.hnext c.count.toNat (c.buckets (dirCacheHash path % dfdBuckets))).find?
      (c.isFor path (dirCacheHash path)) with
    | none => ∀ x, c.path x ≠ some path
    | some e => c.path e = some path := by
  obtain ⟨chain, hfollows, hnodup, hmem⟩ := h.chained (dirCacheHash path % dfdBuckets)
  rw [hfollows.walk (h.length_chain hnodup hmem)]
  cases hfind : chain.find? (c.isFor path (dirCacheHash path)) with
  | none =>
    intro x hx
    have hin : x ∈ chain := (hmem x).mpr ⟨path, hx, rfl⟩
    exact List.find?_eq_none.mp hfind x hin (h.isFor_iff.mpr hx)
  | some e => exact h.isFor_iff.mp (List.find?_some hfind)

def Entry.pin (en : Entry) : Entry := { en with refcount := en.refcount + 1 }

def Entry.unpin (en : Entry) : Entry :=
  { en with refcount := if en.refcount > 0 then en.refcount - 1 else en.refcount }

/-- A hit pins the entry of the path and moves it to the front, and touches nothing else. -/
structure Hit (c : Cache) (l : List ℕ) (path : Bytes) (e : ℕ) (c' : Cache) : Prop where
  found : ∃ en, c.entry e = some en ∧ en.path = path ∧
    c'.entry = Function.update c.entry e (some en.pin)
  isOpen : c'.isOpen = c.isOpen
  consistent : Consistent c' (e :: l.erase e)

theorem Consistent.lookup (h : Consistent c l) (path : Bytes) :
    match dfdLookupPinLocked c path (dirCacheHash path) with
    | none => ∀ x, c.path x ≠ some path
    | some (e, c') => Hit c l path e c' := by
  have hfind := h.find path
  unfold dfdLookupPinLocked
  cases hres : (walk c.hnext c.count.toNat (c.buckets (dirCacheHash path % dfdBuckets))).find?
      (c.isFor path (dirCacheHash path)) with
  | none =>
    rw [hres] at hfind
    exact hfind
  | some e =>
    rw [hres] at hfind
    obtain ⟨en, hentry, hpath⟩ := Cache.entry_of_path hfind
    have he := h.mem_of_entry hentry
    dsimp only
    rw [hentry]
    constructor
    · exact ⟨en, hentry, hpath, rfl⟩
    · rfl
    · have hpromoted := h.promote he
      exact hpromoted.write hentry (show en.pin.hash = en.hash from rfl) rfl

theorem Consistent.release (h : Consistent c l) (hentry : c.entry e = some en) :
    (dirFdRelease c e).entry = Function.update c.entry e (some en.unpin) ∧
      Consistent (dirFdRelease c e) l := by
  unfold dirFdRelease
  rw [hentry]
  exact ⟨rfl, h.write hentry (show en.unpin.hash = en.hash from rfl) rfl⟩

theorem Consistent.drop (h : Consistent c l) (hentry : c.entry e = some en) :
    Consistent (dfdDrop c e en) (l.erase e) := by
  have he := h.mem_of_entry hentry
  have hpath : ∀ x, (dfdDrop c e en).path x = if x = e then none else c.path x := by
    intro x
    unfold Cache.path dfdDrop
    dsimp only
    split_ifs with hx
    · rw [hx, Function.update_self]
      rfl
    · rw [Function.update_of_ne hx]
  obtain ⟨own, hown, hownNodup, hownMem⟩ := h.chained en.bucket
  have heown : e ∈ own := (hownMem e).mpr ⟨en.path, Cache.path_of_entry hentry,
    (h.bucket_eq hentry).symm⟩
  obtain ⟨hchain, hothers⟩ :=
    unlinkChain_spec hown hownNodup heown (h.length_chain hownNodup hownMem)
  constructor
  · exact h.lru.unlink he
  · intro x
    rw [hpath, h.lru.nodup.mem_erase_iff, h.live]
    split_ifs with hx
    · simp [hx]
    · simp [hx]
  · intro b
    by_cases hb : b = en.bucket
    · subst hb
      refine ⟨own.erase e, ?_, hownNodup.erase e, ?_⟩
      · unfold dfdDrop
        dsimp only
        rw [Function.update_self]
        exact hchain
      · intro x
        rw [hownNodup.mem_erase_iff, hownMem, hpath]
        split_ifs with hx
        · simp [hx]
        · simp [hx]
    · obtain ⟨chain, hfollows, hnodup, hmem⟩ := h.chained b
      refine ⟨chain, ?_, hnodup, ?_⟩
      · unfold dfdDrop
        dsimp only
        rw [Function.update_of_ne hb]
        apply hfollows.frame
        intro x hx
        apply hothers
        intro hxown
        obtain ⟨p, hp, hslot⟩ := (hmem x).mp hx
        obtain ⟨q, hq, hslot'⟩ := (hownMem x).mp hxown
        rw [hp] at hq
        cases hq
        exact hb (hslot.symm.trans hslot')
      · intro x
        rw [hmem, hpath]
        split_ifs with hx
        · subst hx
          rw [Cache.path_of_entry hentry]
          constructor
          · rintro ⟨p, hp, hslot⟩
            cases hp
            exact absurd (hslot.symm.trans (h.bucket_eq hentry).symm) hb
          · rintro ⟨p, hp, -⟩
            cases hp
        · exact Iff.rfl
  · have hlen := List.length_erase_of_mem he
    have hpos := List.length_pos_of_mem he
    have hcount := h.counted
    show c.count - 1 = _
    omega
  · intro x enx hx
    unfold dfdDrop at hx
    dsimp only at hx
    by_cases hxe : x = e
    · rw [hxe, Function.update_self] at hx
      cases hx
    · rw [Function.update_of_ne hxe] at hx
      exact h.hashed x enx hx
  · intro x y p hx hy
    rw [hpath] at hx hy
    split_ifs at hx hy
    exact h.unique x y p hx hy

theorem Consistent.insert (h : Consistent c l) (hfree : c.entry e = none)
    (hmiss : ∀ x, c.path x ≠ some path) (fd : ℕ) :
    Consistent (dfdInsert c e fd path (dirCacheHash path)) (e :: l) := by
  have hnot : e ∉ l := by
    rw [h.live, Cache.path, hfree]
    exact Bool.false_ne_true
  have hpath : ∀ x, (dfdInsert c e fd path (dirCacheHash path)).path x =
      if x = e then some path else c.path x := by
    intro x
    unfold Cache.path dfdInsert
    dsimp only
    split_ifs with hx
    · rw [hx, Function.update_self]
      rfl
    · rw [Function.update_of_ne hx]
  constructor
  · exact h.lru.pushFront hnot
  · intro x
    rw [hpath, List.mem_cons, h.live]
    split_ifs with hx
    · simp [hx]
    · simp [hx]
  · intro b
    obtain ⟨chain, hfollows, hnodup, hmem⟩ := h.chained b
    have hchain : e ∉ chain := by
      intro hx
      obtain ⟨p, hp, -⟩ := (hmem e).mp hx
      rw [Cache.path, hfree] at hp
      cases hp
    have hframe : Follows (Function.update c.hnext e (c.buckets (slot path))) (c.buckets b) chain := by
      apply hfollows.frame
      intro x hx
      apply Function.update_of_ne
      rintro rfl
      exact hchain hx
    by_cases hb : b = slot path
    · refine ⟨e :: chain, ?_, List.nodup_cons.mpr ⟨hchain, hnodup⟩, ?_⟩
      · show Follows (Function.update c.hnext e (c.buckets (slot path)))
          (Function.update c.buckets (slot path) (some e) b) (e :: chain)
        rw [hb, Function.update_self]
        refine ⟨rfl, ?_⟩
        rw [Function.update_self, ← hb]
        rw [← hb] at hframe
        exact hframe
      · intro x
        rw [List.mem_cons, hmem, hpath]
        split_ifs with hx
        · simp [hx, hb]
        · simp [hx]
    · refine ⟨chain, ?_, hnodup, ?_⟩
      · show Follows (Function.update c.hnext e (c.buckets (slot path)))
          (Function.update c.buckets (slot path) (some e) b) chain
        rw [Function.update_of_ne hb]
        exact hframe
      · intro x
        rw [hmem, hpath]
        split_ifs with hx
        · subst hx
          rw [Cache.path, hfree]
          constructor
          · rintro ⟨p, hp, -⟩
            cases hp
          · rintro ⟨p, hp, hslot⟩
            cases hp
            exact absurd hslot.symm hb
        · exact Iff.rfl
  · show c.count + 1 = _
    rw [h.counted]
    rfl
  · intro x enx hx
    unfold dfdInsert at hx
    dsimp only at hx
    by_cases hxe : x = e
    · rw [hxe, Function.update_self] at hx
      cases hx
      rfl
    · rw [Function.update_of_ne hxe] at hx
      exact h.hashed x enx hx
  · intro x y p hx hy
    rw [hpath] at hx hy
    split_ifs at hx hy with hxe hye hye
    · rw [hxe, hye]
    · cases hx
      exact absurd hy (hmiss y)
    · cases hy
      exact absurd hx (hmiss x)
    · exact h.unique x y p hx hy

def Cache.pinned (c : Cache) (e : ℕ) : Bool := (c.entry e).any fun en => en.refcount > 0

def Cache.owns (c : Cache) (fd e : ℕ) : Bool := (c.entry e).any fun en => en.fd == fd

/-- An open descriptor has one owner: an entry of the cache, or someone else. -/
def Owned (c : Cache) (l : List ℕ) (others : ℕ → ℕ) : Prop :=
  ∀ fd, l.countP (c.owns fd) + others fd = (c.isOpen fd).toNat

variable {others : ℕ → ℕ}

theorem Owned.isOpen (h : Owned c l others) (hcons : Consistent c l)
    (hentry : c.entry e = some en) : c.isOpen en.fd = true := by
  have hfd := h en.fd
  have hpos : 0 < l.countP (c.owns en.fd) := by
    apply List.countP_pos_iff.mpr
    refine ⟨e, hcons.mem_of_entry hentry, ?_⟩
    rw [Cache.owns, hentry]
    simp
  cases hopen : c.isOpen en.fd with
  | true => rfl
  | false =>
    rw [hopen, Bool.toNat_false] at hfd
    omega

theorem Owned.drop (h : Owned c l others) (hcons : Consistent c l) (hentry : c.entry e = some en) :
    Owned (dfdDrop c e en) (l.erase e) others := by
  intro fd
  have he := hcons.mem_of_entry hentry
  have hsame : (l.erase e).countP ((dfdDrop c e en).owns fd) = (l.erase e).countP (c.owns fd) := by
    apply List.countP_congr
    intro x hx
    have hne : x ≠ e := (hcons.lru.nodup.mem_erase_iff.mp hx).1
    unfold Cache.owns dfdDrop
    dsimp only
    rw [Function.update_of_ne hne]
  have hsplit : l.countP (c.owns fd) = (l.erase e).countP (c.owns fd) + (c.owns fd e).toNat := by
    rw [(List.perm_cons_erase he).countP_eq, List.countP_cons]
    cases c.owns fd e with
    | true => rfl
    | false => rfl
  have hfd := h fd
  have hopen : (dfdDrop c e en).isOpen fd = if fd = en.fd then false else c.isOpen fd := by
    unfold dfdDrop
    dsimp only
    rw [Function.update_apply]
  rw [hsame, hopen]
  have howns : c.owns fd e = (en.fd == fd) := by
    rw [Cache.owns, hentry]
    rfl
  rw [howns] at hsplit
  split_ifs with hx
  · subst hx
    rw [h.isOpen hcons hentry, Bool.toNat_true] at hfd
    rw [beq_self_eq_true, Bool.toNat_true] at hsplit
    rw [Bool.toNat_false]
    omega
  · rw [beq_eq_false_iff_ne.mpr (Ne.symm hx), Bool.toNat_false] at hsplit
    omega

theorem evictLoop_spec (cap : ℤ) {fuel : ℕ} (rest b : List ℕ)
    (h : Consistent c (rest.reverse ++ b)) (hown : Owned c (rest.reverse ++ b) others)
    (hfuel : rest.length ≤ fuel) :
    let c' := dfdEvictLoop cap fuel c rest.head?
    let l' := (shed c.pinned (c.count - cap).toNat rest).reverse ++ b
    Consistent c' l' ∧ Owned c' l' others ∧ ∀ e ∈ l', c'.entry e = c.entry e := by
  induction rest generalizing c fuel b with
  | nil =>
    have hstop : dfdEvictLoop cap fuel c none = c := by
      cases fuel with
      | zero => rfl
      | succ fuel => rfl
    have hshed : shed c.pinned (c.count - cap).toNat [] = [] :=
      List.sublist_nil.mp (shed_sublist _ _ _)
    rw [List.head?_nil, hstop, hshed]
    exact ⟨h, hown, fun _ _ => rfl⟩
  | cons e rest ih =>
    cases fuel with
    | zero => cases hfuel
    | succ fuel =>
      have hfuel := Nat.le_of_succ_le_succ hfuel
      have hsplit : (e :: rest).reverse ++ b = rest.reverse ++ e :: b := by
        rw [List.reverse_cons, List.append_assoc, List.singleton_append]
      rw [hsplit] at h hown
      have hprev : c.lru.prev e = rest.head? := by
        rw [h.lru.prev_eq, List.getLast?_reverse]
      obtain ⟨en, hentry⟩ := h.entry_of_mem (e := e) (by simp)
      have hpinned : c.pinned e = decide (en.refcount > 0) := by
        rw [Cache.pinned, hentry]
        rfl
      unfold dfdEvictLoop
      rw [List.head?_cons]
      dsimp only
      by_cases hover : c.count > cap
      · rw [if_pos hover, hentry, hprev]
        dsimp only
        have hsurplus : (c.count - cap).toNat = (c.count - 1 - cap).toNat + 1 := by omega
        by_cases hzero : en.refcount = 0
        · have hdropped := h.drop hentry
          have howned := hown.drop h hentry
          have hnot : e ∉ rest.reverse := by
            intro hmem
            exact (List.nodup_cons.mp (List.nodup_middle.mp h.lru.nodup)).1
              (List.mem_append_left _ hmem)
          rw [erase_middle h.lru.nodup] at hdropped howned
          have hothers : ∀ x, x ≠ e → (dfdDrop c e en).entry x = c.entry x := by
            intro x hx
            exact Function.update_of_ne hx _ _
          have hshed : shed c.pinned (c.count - cap).toNat (e :: rest) =
              shed (dfdDrop c e en).pinned ((dfdDrop c e en).count - cap).toNat rest := by
            rw [hsurplus, shed_cons_of_unused (by rw [hpinned, hzero]; rfl)]
            apply shed_congr
            intro x hx
            unfold Cache.pinned
            rw [hothers x]
            rintro rfl
            exact hnot (List.mem_reverse.mpr hx)
          rw [if_pos hzero, hshed]
          obtain ⟨hcons, howned, hkept⟩ := ih b hdropped howned hfuel
          refine ⟨hcons, howned, ?_⟩
          intro x hx
          rw [hkept x hx]
          apply hothers
          rintro rfl
          have hlive := hcons.entry_of_mem hx
          rw [hkept x hx] at hlive
          obtain ⟨enx, henx⟩ := hlive
          unfold dfdDrop at henx
          dsimp only at henx
          rw [Function.update_self] at henx
          cases henx
        · have hshed : (shed c.pinned (c.count - cap).toNat (e :: rest)).reverse ++ b =
              (shed c.pinned (c.count - cap).toNat rest).reverse ++ e :: b := by
            have hpin : c.pinned e = true := by
              rw [hpinned]
              exact decide_eq_true (Nat.pos_of_ne_zero hzero)
            rw [hsurplus, shed_cons_of_pinned hpin, List.reverse_cons, List.append_assoc,
              List.singleton_append]
          rw [if_neg hzero, hshed]
          exact ih (e :: b) h hown hfuel
      · have hsurplus : (c.count - cap).toNat = 0 := by omega
        rw [if_neg hover, hsurplus, shed_zero, hsplit]
        exact ⟨h, hown, fun _ _ => rfl⟩

/-- Eviction sheds the surplus from the end of the list and touches no entry that is left. -/
theorem Consistent.evict (h : Consistent c l) (hown : Owned c l others) (cap : ℤ) :
    let l' := (shed c.pinned (c.count - cap).toNat l.reverse).reverse
    Consistent (dfdEvictLocked cap c) l' ∧ Owned (dfdEvictLocked cap c) l' others ∧
      ∀ e ∈ l', (dfdEvictLocked cap c).entry e = c.entry e := by
  have hlist : l.reverse.reverse ++ [] = l := by rw [List.append_nil, List.reverse_reverse]
  have hfuel : l.reverse.length ≤ c.count.toNat := by
    rw [h.counted, Int.toNat_natCast, List.length_reverse]
  have hspec := evictLoop_spec cap l.reverse []
    (by rw [hlist]; exact h) (by rw [hlist]; exact hown) hfuel
  rw [List.append_nil, List.head?_reverse, ← h.lru.tail_eq] at hspec
  exact hspec

end Consistent

end Ecopy.Server.DirFdCache
