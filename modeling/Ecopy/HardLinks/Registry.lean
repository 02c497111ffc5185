import Ecopy.HardLinks.Replay
import Ecopy.Lib.HashTable

/-!
# The registry of hard links

`hardlinks_note` looks an inode up in a chained hash table. The first sighting enters it
with its destination, every further one appends a job. The table starts with 1024 chains
and doubles before three quarters would be exceeded. All of it happens under one lock, so
the calls of any number of threads are one sequence.

Which allocations succeed is an argument; the counters of the statistics are left out.
-/
namespace Ecopy.HardLinks
open Protocol FileSystem Server
open Lib.HashTable

/-- `st_dev`, `st_ino` and what else the job keeps of `st`. -/
structure LinkStat where
  dev : UInt64
  ino : UInt64
  attr : Meta

abbrev Inode := UInt64 × UInt64

/-- `hl_entry_t` -/
structure Entry where
  dev : UInt64
  ino : UInt64
  primary : Bytes
deriving DecidableEq, Repr

def Entry.inode (e : Entry) : Inode := (e.dev, e.ino)

inductive NoteResult where
  | primary
  | secondary
  | error
deriving DecidableEq, Repr

/-- Whether a larger table, and whether an entry or a job with its strings, can be had. -/
structure Memory where
  table : Bool
  record : Bool

def Memory.enough : Memory := ⟨true, true⟩

structure Registry where
  buckets : Table Entry
  count : ℕ
  jobs : List Job

/-- After `hardlinks_reset`. -/
def Registry.empty : Registry := ⟨[], 0, []⟩

def hlHash (id : Inode) (nbuckets : ℕ) : ℕ :=
  let h : UInt64 := id.1 * 1099511628211
  let h : UInt64 := h ^^^ (id.2 + (0x9e3779b97f4a7c15 : UInt64) + (h <<< (6 : UInt64)) + (h >>> (2 : UInt64)))
  h.toNat &&& (nbuckets - 1)

def hlGrow (r : Registry) : Registry :=
  let size := if r.buckets.length = 0 then 1024 else r.buckets.length * 2
  { r with buckets := rehash (fun e => hlHash e.inode size) size r.buckets }

def Registry.find (r : Registry) (id : Inode) : Option Entry :=
  lookup Entry.inode r.buckets (hlHash id r.buckets.length) id

def Registry.enter (r : Registry) (id : Inode) (dst : Bytes) : Registry :=
  { r with
    buckets := push (hlHash id r.buckets.length) ⟨id.1, id.2, dst⟩ r.buckets
    count := r.count + 1 }

@[simp] theorem Registry.enter_jobs (r : Registry) (id : Inode) (dst : Bytes) :
    (r.enter id dst).jobs = r.jobs := by
  unfold Registry.enter
  rfl

/-- The first sighting, in a table with room for it. -/
def notePrimary (mem : Memory) (r : Registry) (st : LinkStat) (dst : Bytes) :
    NoteResult × Registry :=
  if mem.record then (.primary, r.enter (st.dev, st.ino) dst) else (.error, r)

def noteSecondary (mem : Memory) (r : Registry) (e : Entry) (st : LinkStat) (dst : Bytes) :
    NoteResult × Registry :=
  if mem.record then (.secondary, { r with jobs := r.jobs ++ [⟨e.primary, dst, st.attr⟩] })
  else (.error, r)

/-- What `hardlinks_note` does once there is a table. -/
def noteIn (mem : Memory) (r : Registry) (st : LinkStat) (dst : Bytes) : NoteResult × Registry :=
  match r.find (st.dev, st.ino) with
  | some e => noteSecondary mem r e st dst
  | none =>
    if r.count + 1 > r.buckets.length * 3 / 4 then
      if mem.table then notePrimary mem (hlGrow r) st dst else (.error, r)
    else notePrimary mem r st dst

def hardlinksNote (mem : Memory) (r : Registry) (st : LinkStat) (dst : Bytes) :
    NoteResult × Registry :=
  if r.buckets.length = 0 then
    if mem.table then noteIn mem (hlGrow r) st dst else (.error, r)
  else noteIn mem r st dst

/-- A file with further links, and its destination. -/
structure Sighting where
  st : LinkStat
  dst : Bytes

def Sighting.inode (c : Sighting) : Inode := (c.st.dev, c.st.ino)

/-- Calls one after the other, with the results. -/
def noteAll : Registry → List Sighting → List NoteResult × Registry
  | r, [] => ([], r)
  | r, c :: calls =>
    let out := hardlinksNote .enough r c.st c.dst
    let rest := noteAll out.2 calls
    (out.1 :: rest.1, rest.2)

/-- The first of some calls that was about the inode. -/
def firstOf (before : List Sighting) (id : Inode) : Option Sighting :=
  before.find? fun c => c.inode == id

def resultAfter (before : List Sighting) (c : Sighting) : NoteResult :=
  if ∃ b ∈ before, b.inode = c.inode then .secondary else .primary

/-- The job of a call: its destination becomes a link to that of the first. -/
def jobAfter (before : List Sighting) (c : Sighting) : Option Job :=
  (firstOf before c.inode).map fun first => ⟨first.dst, c.dst, c.st.attr⟩

/-- The jobs of calls that follow others, in their order. -/
def jobsAfter : (before calls : List Sighting) → List Job
  | _, [] => []
  | before, c :: calls => (jobAfter before c).toList ++ jobsAfter (before ++ [c]) calls

theorem hlHash_lt (id : Inode) {size : ℕ} (h : 0 < size) : hlHash id size < size := by
  unfold hlHash
  exact lt_of_le_of_lt Nat.and_le_right (Nat.sub_lt h Nat.one_pos)

/-- The entries of a table, each in its chain and no two of one inode. -/
structure Registry.Valid (r : Registry) : Prop where
  placed : Placed (fun e => hlHash e.inode r.buckets.length) r.buckets
  inodes : (r.buckets.flatten.map Entry.inode).Nodup

variable {r : Registry} {before : List Sighting}

theorem Registry.Valid.find_iff (h : r.Valid) (id : Inode) (e : Entry) :
    r.find id = some e ↔ e ∈ r.buckets.flatten ∧ e.inode = id := by
  apply lookup_eq_some_iff h.placed h.inodes
  intro a ha
  rw [ha]

theorem Registry.Valid.find_none_iff (h : r.Valid) (id : Inode) :
    r.find id = none ↔ ∀ e ∈ r.buckets.flatten, e.inode ≠ id := by
  apply lookup_eq_none_iff h.placed
  intro a ha
  rw [ha]

theorem hlGrow_spec (r : Registry) : 0 < (hlGrow r).buckets.length ∧
    Placed (fun e => hlHash e.inode (hlGrow r).buckets.length) (hlGrow r).buckets ∧
      (hlGrow r).buckets.flatten.Perm r.buckets.flatten := by
  have hpos : 0 < if r.buckets.length = 0 then 1024 else r.buckets.length * 2 := by
    split
    · exact Nat.zero_lt_succ _
    · omega
  obtain ⟨hlen, hplaced, hperm⟩ := rehash_spec r.buckets
    (fun a _ => hlHash_lt a.inode hpos)
  unfold hlGrow
  dsimp only
  rw [hlen]
  exact ⟨hpos, hplaced, hperm⟩

theorem Registry.Valid.grow (h : r.Valid) : (hlGrow r).Valid := by
  obtain ⟨-, hplaced, hperm⟩ := hlGrow_spec r
  constructor
  · exact hplaced
  · exact (hperm.map Entry.inode).nodup_iff.mpr h.inodes

/-- A larger table knows the same inodes. -/
theorem Registry.Valid.find_grow (h : r.Valid) (id : Inode) : (hlGrow r).find id = r.find id := by
  have hperm := (hlGrow_spec r).2.2
  apply Option.ext
  intro e
  rw [h.grow.find_iff, h.find_iff, hperm.mem_iff]

theorem Registry.Valid.enter (h : r.Valid) (hpos : 0 < r.buckets.length) {id : Inode}
    (hnew : r.find id = none) (dst : Bytes) : (r.enter id dst).Valid := by
  have hnone := (h.find_none_iff id).mp hnew
  have hperm := flatten_push (⟨id.1, id.2, dst⟩ : Entry) (hlHash_lt id hpos)
  constructor
  · unfold Registry.enter
    dsimp only
    rw [length_push]
    exact h.placed.push ⟨id.1, id.2, dst⟩
  · refine (hperm.map Entry.inode).nodup_iff.mpr (List.nodup_cons.mpr ⟨?_, h.inodes⟩)
    intro hmem
    obtain ⟨e, he, heq⟩ := List.mem_map.mp hmem
    exact hnone e he heq

theorem Registry.Valid.find_enter (h : r.Valid) (hpos : 0 < r.buckets.length) {id : Inode}
    (hnew : r.find id = none) (dst : Bytes) (id' : Inode) :
    (r.enter id dst).find id' = if id' = id then some ⟨id.1, id.2, dst⟩ else r.find id' := by
  have hperm := flatten_push (⟨id.1, id.2, dst⟩ : Entry) (hlHash_lt id hpos)
  have hentries : ∀ e : Entry, e ∈ (r.enter id dst).buckets.flatten ↔
      e = ⟨id.1, id.2, dst⟩ ∨ e ∈ r.buckets.flatten := by
    intro e
    exact hperm.mem_iff.trans List.mem_cons
  apply Option.ext
  intro e
  rw [(h.enter hpos hnew dst).find_iff, hentries]
  split_ifs with hid
  · subst hid
    constructor
    · rintro ⟨rfl | he, hkey⟩
      · rfl
      · exact absurd hkey ((h.find_none_iff id').mp hnew e he)
    · intro heq
      obtain rfl := Option.some.inj heq
      exact ⟨Or.inl rfl, rfl⟩
  · rw [h.find_iff]
    constructor
    · rintro ⟨rfl | he, hkey⟩
      · exact absurd hkey.symm hid
      · exact ⟨he, hkey⟩
    · exact fun he => ⟨Or.inr he.1, he.2⟩

/-- The registry after some calls: its entries are the first sightings. -/
structure Registry.Knows (r : Registry) (before : List Sighting) : Prop where
  valid : r.Valid
  primaries : ∀ id, (r.find id).map Entry.primary = (firstOf before id).map Sighting.dst

theorem Registry.Knows.empty : Registry.empty.Knows [] where
  valid := ⟨fun i a ha => absurd ha (by simp [Registry.empty, chain]), List.nodup_nil⟩
  primaries := fun id => rfl

theorem Registry.Knows.withJobs (h : r.Knows before) (jobs : List Job) :
    { r with jobs := jobs }.Knows before :=
  ⟨⟨h.valid.placed, h.valid.inodes⟩, h.primaries⟩

theorem firstOf_append (before : List Sighting) (c : Sighting) (id : Inode) :
    firstOf (before ++ [c]) id =
      (firstOf before id).or (if c.inode = id then some c else none) := by
  unfold firstOf
  rw [List.find?_append]
  by_cases h : c.inode = id
  · simp [h]
  · simp [h]

theorem firstOf_isSome (before : List Sighting) (id : Inode) :
    (firstOf before id).isSome ↔ ∃ b ∈ before, b.inode = id := by
  unfold firstOf
  rw [List.find?_isSome]
  simp

theorem Registry.Knows.grow (h : r.Knows before) : (hlGrow r).Knows before := by
  refine ⟨h.valid.grow, ?_⟩
  intro id
  rw [h.valid.find_grow]
  exact h.primaries id

/-- An inode that was seen before gets a job. -/
theorem Registry.Knows.seen (h : r.Knows before) {c : Sighting} {e : Entry}
    (he : r.find c.inode = some e) :
    resultAfter before c = .secondary ∧ jobAfter before c = some ⟨e.primary, c.dst, c.st.attr⟩ ∧
      r.Knows (before ++ [c]) := by
  have hfirst := h.primaries c.inode
  rw [he] at hfirst
  obtain ⟨first, hsome, hdst⟩ := Option.map_eq_some_iff.mp hfirst.symm
  refine ⟨if_pos ((firstOf_isSome before c.inode).mp (by rw [hsome]; rfl)), ?_, h.valid, ?_⟩
  · rw [jobAfter, hsome, Option.map_some, hdst]
  · intro id
    rw [firstOf_append, h.primaries]
    by_cases hid : c.inode = id
    · rw [← hid, hsome]
      rfl
    · rw [if_neg hid, Option.or_none]

/-- One that was not is entered. -/
theorem Registry.Knows.unseen (h : r.Knows before) (hpos : 0 < r.buckets.length) {c : Sighting}
    (hnew : r.find c.inode = none) :
    resultAfter before c = .primary ∧ jobAfter before c = none ∧
      (r.enter c.inode c.dst).Knows (before ++ [c]) := by
  have hfirst := h.primaries c.inode
  rw [hnew] at hfirst
  have hnone : firstOf before c.inode = none := Option.map_eq_none_iff.mp hfirst.symm
  refine ⟨if_neg ?_, ?_, h.valid.enter hpos hnew c.dst, ?_⟩
  · rw [← firstOf_isSome, hnone]
    exact Bool.false_ne_true
  · rw [jobAfter, hnone]
    rfl
  · intro id
    rw [h.valid.find_enter hpos hnew, firstOf_append]
    split_ifs with hid hid' hid'
    · rw [hid, hnone]
      rfl
    · exact absurd hid.symm hid'
    · exact absurd hid'.symm hid
    · rw [Option.or_none]
      exact h.primaries id

/-- The call did what it should, and the registry knows one sighting more. -/
def Noted (r : Registry) (before : List Sighting) (c : Sighting) (out : NoteResult × Registry) :
    Prop :=
  out.1 = resultAfter before c ∧ out.2.jobs = r.jobs ++ (jobAfter before c).toList ∧
    out.2.Knows (before ++ [c])

theorem notePrimary_spec (h : r.Knows before) (hpos : 0 < r.buckets.length) {c : Sighting}
    (hnew : r.find c.inode = none) : Noted r before c (notePrimary .enough r c.st c.dst) := by
  obtain ⟨hresult, hjob, hknows⟩ := h.unseen hpos hnew
  have hnote : notePrimary .enough r c.st c.dst = (.primary, r.enter c.inode c.dst) := if_pos rfl
  unfold Noted
  rw [hnote, hresult, hjob]
  dsimp only
  rw [Registry.enter_jobs]
  exact ⟨rfl, (List.append_nil _).symm, hknows⟩

theorem noteIn_spec (h : r.Knows before) (hpos : 0 < r.buckets.length) (c : Sighting) :
    Noted r before c (noteIn .enough r c.st c.dst) := by
  unfold noteIn
  split
  · rename_i e hfind
    obtain ⟨hresult, hjob, hknows⟩ := h.seen hfind
    unfold Noted
    rw [hresult, hjob]
    exact ⟨rfl, rfl, hknows.withJobs _⟩
  · rename_i hfind
    split
    · exact notePrimary_spec h.grow (hlGrow_spec r).1 ((h.valid.find_grow _).trans hfind)
    · exact notePrimary_spec h hpos hfind

theorem hardlinksNote_spec (h : r.Knows before) (c : Sighting) :
    Noted r before c (hardlinksNote .enough r c.st c.dst) := by
  unfold hardlinksNote
  split
  · exact noteIn_spec h.grow (hlGrow_spec r).1 c
  · exact noteIn_spec h (by omega) c

theorem noteAll_spec (calls : List Sighting) {r : Registry} {before : List Sighting}
    (h : r.Knows before) :
    (∀ i, (noteAll r calls).1[i]? =
        calls[i]?.map (resultAfter (before ++ calls.take i))) ∧
      (noteAll r calls).2.jobs = r.jobs ++ jobsAfter before calls ∧
      (noteAll r calls).2.Knows (before ++ calls) := by
  induction calls generalizing r before with
  | nil => exact ⟨fun i => rfl, (List.append_nil _).symm, by rwa [List.append_nil]⟩
  | cons c calls ih =>
    obtain ⟨hresult, hjob, hknows⟩ := hardlinksNote_spec h c
    obtain ⟨hresults, hjobs, hall⟩ := ih hknows
    refine ⟨?_, ?_, ?_⟩
    · intro i
      cases i with
      | zero =>
        rw [List.take_zero, List.append_nil]
        exact congrArg some hresult
      | succ i =>
        rw [List.take_succ_cons, List.append_cons]
        exact hresults i
    · rw [jobsAfter, ← List.append_assoc, ← hjob]
      exact hjobs
    · rw [← List.singleton_append, ← List.append_assoc]
      exact hall

/-- After any calls, in any order: the first about an inode and no other was the primary one, the
jobs are those of the others in their order, and a larger table has the same entries. -/
theorem registry_exact (calls : List Sighting) :
    (∀ i, (noteAll .empty calls).1[i]? = calls[i]?.map (resultAfter (calls.take i))) ∧
      (noteAll .empty calls).2.jobs = jobsAfter [] calls ∧
      (hlGrow (noteAll .empty calls).2).buckets.flatten.Perm
        (noteAll .empty calls).2.buckets.flatten ∧
      ∀ id, (hlGrow (noteAll .empty calls).2).find id = (noteAll .empty calls).2.find id := by
  obtain ⟨hresults, hjobs, hknows⟩ := noteAll_spec calls Registry.Knows.empty
  exact ⟨hresults, hjobs, (hlGrow_spec _).2.2, hknows.valid.find_grow⟩

/-- A failure asks for nothing and forgets nothing. -/
def Harmless (r : Registry) (before : List Sighting) (out : NoteResult × Registry) : Prop :=
  out.1 = .error → out.2.jobs = r.jobs ∧ out.2.Knows before

theorem Registry.Knows.harmless {s : Registry} (h : s.Knows before) (hjobs : s.jobs = r.jobs) :
    Harmless r before (.error, s) :=
  fun _ => ⟨hjobs, h⟩

theorem notePrimary_harmless {mem : Memory} {s : Registry} (h : s.Knows before)
    (hjobs : s.jobs = r.jobs) (c : Sighting) :
    Harmless r before (notePrimary mem s c.st c.dst) := by
  unfold notePrimary
  split
  · exact fun herr => nomatch herr
  · exact h.harmless hjobs

theorem noteIn_harmless {mem : Memory} {s : Registry} (h : s.Knows before)
    (hjobs : s.jobs = r.jobs) (c : Sighting) : Harmless r before (noteIn mem s c.st c.dst) := by
  unfold noteIn
  split
  · unfold noteSecondary
    split
    · exact fun herr => nomatch herr
    · exact h.harmless hjobs
  · split
    · split
      · exact notePrimary_harmless h.grow hjobs c
      · exact h.harmless hjobs
    · exact notePrimary_harmless h hjobs c

/-- Whatever memory there is, a call that fails leaves the jobs and what is known. -/
theorem hardlinksNote_harmless (mem : Memory) {r : Registry} {before : List Sighting}
    (h : r.Knows before) (c : Sighting) :
    Harmless r before (hardlinksNote mem r c.st c.dst) := by
  unfold hardlinksNote
  split
  · split
    · exact noteIn_harmless h.grow rfl c
    · exact h.harmless rfl
  · exact noteIn_harmless h rfl c

end Ecopy.HardLinks
