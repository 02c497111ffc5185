import Mathlib.Data.List.Basic
import Mathlib.Tactic.Common

/-!
# One connection and the apply pool behind it

A connection is a byte stream to one server process. Its reader takes frames
in the order they were sent; `PUTFILE`, `MKDIR`, `SETMETA` and `VERIFY_PATH`
go to a pool of apply threads when there is one, and every other frame waits
until the pool is empty and is then handled by the reader itself. A frame
counts as pending from the moment it is sent until its handler has returned.

Frames carry the path they are about; the bytes are the business of
`Ecopy.Protocol`. The path type is arbitrary.
-/
namespace Ecopy.Remote

inductive Request (π : Type*) where
  | putfile (path : π)
  | setmeta (path : π)
  | mkdir (path : π)
  | verifyPath (path : π)
  | barrier (id : ℕ)
  | other
deriving DecidableEq, Repr

namespace Request
variable {π : Type*}

/-- The frame types the reader hands to the apply pool. -/
def pooled : Request π → Bool
  | .putfile _ | .setmeta _ | .mkdir _ | .verifyPath _ => true
  | .barrier _ | .other => false

/-- A fire-and-forget frame that changes the file at `p`. -/
def Writes (p : π) (m : Request π) : Prop := m = .putfile p ∨ m = .setmeta p

instance [DecidableEq π] (p : π) (m : Request π) : Decidable (m.Writes p) :=
  inferInstanceAs (Decidable (m = .putfile p ∨ m = .setmeta p))

@[simp] theorem not_writes_barrier (p : π) (id : ℕ) : ¬ (barrier id).Writes p := by
  simp [Writes]

@[simp] theorem not_writes_other (p : π) : ¬ (other : Request π).Writes p := by
  simp [Writes]

@[simp] theorem not_writes_mkdir (p q : π) : ¬ (mkdir q).Writes p := by
  simp [Writes]

@[simp] theorem not_writes_verifyPath (p q : π) : ¬ (verifyPath q).Writes p := by
  simp [Writes]

@[simp] theorem writes_putfile (p q : π) : (putfile q).Writes p ↔ q = p := by
  simp [Writes]

@[simp] theorem writes_setmeta (p q : π) : (setmeta q).Writes p ↔ q = p := by
  simp [Writes]

end Request

/-- What `pool_start` leaves behind: `g_pool_n` and `g_pool_limit`. No thread
means that the reader handles every frame itself. -/
structure ApplyPool where
  threads : ℕ
  limit : ℕ
deriving DecidableEq, Repr

/-- A connection with both of its ends: the frames under way, the frame the
reader is handling, the jobs of the pool, the barrier replies that have been
sent back and the client's request counter. -/
structure Link (π : Type*) where
  channel : List (Request π)
  reader : Option (Request π)
  queue : List (Request π)
  active : List (Request π)
  replied : List ℕ
  nextId : ℕ
deriving DecidableEq, Repr

inductive ServerAction where
  | read
  | readNoMemory
  | start
  | finish (job : ℕ)
  | finishInline
deriving DecidableEq, Repr

namespace Link
variable {π : Type*} {p : π} {pool : ApplyPool} {l k : Link π} {a : ServerAction}

def empty : Link π where
  channel := []
  reader := none
  queue := []
  active := []
  replied := []
  nextId := 0

def send (l : Link π) (m : Request π) : Link π :=
  { l with channel := l.channel ++ [m], nextId := l.nextId + 1 }

def sendBarrier (l : Link π) : Link π := l.send (.barrier l.nextId)

/-- Steps of one server process. `readNoMemory` is `pool_submit` failing to
allocate a job, after which the reader runs the handler itself without waiting
for the pool. A barrier is answered when its handler returns. -/
def serve (pool : ApplyPool) (l : Link π) : ServerAction → Option (Link π)
  | .read =>
    match l.reader, l.channel with
    | none, m :: rest =>
      if m.pooled = true ∧ 0 < pool.threads then
        if l.queue.length + l.active.length < pool.limit then
          some { l with channel := rest, queue := l.queue ++ [m] }
        else none
      else if pool.threads = 0 ∨ (l.queue.isEmpty ∧ l.active.isEmpty) then
        some { l with channel := rest, reader := some m }
      else none
    | _, _ => none
  | .readNoMemory =>
    match l.reader, l.channel with
    | none, m :: rest =>
      if m.pooled = true ∧ 0 < pool.threads then
        some { l with channel := rest, reader := some m }
      else none
    | _, _ => none
  | .start =>
    match l.queue with
    | m :: rest =>
      if l.active.length < pool.threads then
        some { l with queue := rest, active := l.active ++ [m] }
      else none
    | [] => none
  | .finish job =>
    if job < l.active.length then some { l with active := l.active.eraseIdx job } else none
  | .finishInline =>
    match l.reader with
    | some (.barrier id) => some { l with reader := none, replied := l.replied ++ [id] }
    | some _ => some { l with reader := none }
    | none => none

/-- The frame whose handler a step enters. -/
def enters (pool : ApplyPool) (l : Link π) : ServerAction → Option (Request π)
  | .read =>
    match l.channel with
    | m :: _ => if m.pooled = true ∧ 0 < pool.threads then none else some m
    | [] => none
  | .readNoMemory => l.channel.head?
  | .start => l.queue.head?
  | .finish _ => none
  | .finishInline => none

/-- The frame whose handler a step leaves. -/
def leaves (l : Link π) : ServerAction → Option (Request π)
  | .finish job => l.active[job]?
  | .finishInline => l.reader
  | .read | .readNoMemory | .start => none

/-- Frames that were sent and whose handlers have not returned. -/
def pending (l : Link π) : List (Request π) :=
  l.channel ++ l.reader.toList ++ l.queue ++ l.active

/-- Everything a server step can do. -/
theorem serve_cases (h : l.serve pool a = some k) :
    (∃ m rest, l.channel = m :: rest ∧ l.reader = none ∧ m.pooled = true ∧ 0 < pool.threads ∧
      k = { l with channel := rest, queue := l.queue ++ [m] }) ∨
    (∃ m rest, l.channel = m :: rest ∧ l.reader = none ∧
      (m.pooled = true ∨ pool.threads = 0 ∨ (l.queue = [] ∧ l.active = [])) ∧
      k = { l with channel := rest, reader := some m }) ∨
    (∃ m rest, l.queue = m :: rest ∧ l.active.length < pool.threads ∧
      k = { l with queue := rest, active := l.active ++ [m] }) ∨
    (∃ job, l.leaves a = l.active[job]? ∧ k = { l with active := l.active.eraseIdx job }) ∨
    (∃ id, l.reader = some (.barrier id) ∧ l.leaves a = l.reader ∧
      k = { l with reader := none, replied := l.replied ++ [id] }) ∨
    (∃ m, l.reader = some m ∧ l.leaves a = l.reader ∧ k = { l with reader := none }) := by
  cases a with
  | read =>
    simp only [serve] at h
    split at h
    · rename_i m rest hr hc
      split at h
      · rename_i hp
        split at h
        · exact .inl ⟨m, rest, hc, hr, hp.1, hp.2, by simpa using h.symm⟩
        · cases h
      · split at h
        · rename_i hd
          refine .inr (.inl ⟨m, rest, hc, hr, ?_, by simpa using h.symm⟩)
          simp only [List.isEmpty_iff] at hd
          exact .inr hd
        · cases h
    · cases h
  | readNoMemory =>
    simp only [serve] at h
    split at h
    · rename_i m rest hr hc
      split at h
      · rename_i hp
        exact .inr (.inl ⟨m, rest, hc, hr, .inl hp.1, by simpa using h.symm⟩)
      · cases h
    · cases h
  | start =>
    simp only [serve] at h
    split at h
    · rename_i m rest hq
      split at h
      · rename_i hlt
        exact .inr (.inr (.inl ⟨m, rest, hq, hlt, by simpa using h.symm⟩))
      · cases h
    · cases h
  | finish job =>
    simp only [serve] at h
    split at h
    · exact .inr (.inr (.inr (.inl ⟨job, rfl, by simpa using h.symm⟩)))
    · cases h
  | finishInline =>
    simp only [serve] at h
    split at h
    · rename_i id hr
      exact .inr (.inr (.inr (.inr (.inl ⟨id, hr, rfl, by simpa using h.symm⟩))))
    · rename_i m hm hr
      exact .inr (.inr (.inr (.inr (.inr ⟨m, hr, rfl, by simpa using h.symm⟩))))
    · cases h

/-- A server step never makes a frame pending. -/
theorem pending_of_serve (h : l.serve pool a = some k) {m : Request π} (hm : m ∈ k.pending) :
    m ∈ l.pending := by
  rcases serve_cases h with ⟨x, rest, hc, hr, -, -, rfl⟩ | ⟨x, rest, hc, hr, -, rfl⟩ |
    ⟨x, rest, hq, -, rfl⟩ | ⟨job, -, rfl⟩ | ⟨id, hr, -, rfl⟩ | ⟨x, hr, -, rfl⟩
  · simp only [pending, hc, hr, List.mem_append, List.mem_cons, List.not_mem_nil] at hm ⊢
    tauto
  · simp only [pending, hc, hr, Option.toList_some, Option.toList_none, List.mem_append,
      List.mem_cons, List.not_mem_nil] at hm ⊢
    tauto
  · simp only [pending, hq, List.mem_append, List.mem_cons, List.not_mem_nil] at hm ⊢
    tauto
  · simp only [pending, List.mem_append] at hm ⊢
    have herase : m ∈ l.active.eraseIdx job → m ∈ l.active := List.mem_of_mem_eraseIdx
    tauto
  · simp only [pending, hr, Option.toList_none, List.mem_append, List.not_mem_nil] at hm ⊢
    tauto
  · simp only [pending, hr, Option.toList_none, List.mem_append, List.not_mem_nil] at hm ⊢
    tauto

/-- The frame a step enters was sent before. -/
theorem pending_of_enters {m : Request π} (h : l.enters pool a = some m) : m ∈ l.pending := by
  simp only [pending, List.mem_append]
  cases a with
  | read =>
    simp only [enters] at h
    split at h
    · rename_i x rest hc
      split at h
      · cases h
      · cases h
        simp [hc]
    · cases h
  | readNoMemory => exact .inl (.inl (.inl (List.mem_of_mem_head? h)))
  | start => exact .inl (.inr (List.mem_of_mem_head? h))
  | finish job => cases h
  | finishInline => cases h

theorem pending_of_leaves {m : Request π} (h : l.leaves a = some m) : m ∈ l.pending := by
  simp only [pending, List.mem_append]
  cases a with
  | finish job => exact .inr (List.mem_of_getElem? h)
  | finishInline => exact .inl (.inl (.inr (Option.mem_toList.mpr h)))
  | read | readNoMemory | start => cases h

theorem mem_eraseIdx_or_getElem? {m : Request π} {ms : List (Request π)} (h : m ∈ ms) (job : ℕ) :
    m ∈ ms.eraseIdx job ∨ ms[job]? = some m := by
  obtain ⟨i, hi⟩ := List.mem_iff_getElem?.mp h
  by_cases hij : i = job
  · exact .inr (hij ▸ hi)
  · exact .inl (List.mem_eraseIdx_iff_getElem?.mpr ⟨i, hij, hi⟩)

/-- A frame stays pending until its handler returns. -/
theorem pending_or_leaves (h : l.serve pool a = some k) {m : Request π} (hm : m ∈ l.pending) :
    m ∈ k.pending ∨ l.leaves a = some m := by
  rcases serve_cases h with ⟨x, rest, hc, hr, -, -, rfl⟩ | ⟨x, rest, hc, hr, -, rfl⟩ |
    ⟨x, rest, hq, -, rfl⟩ | ⟨job, hl, rfl⟩ | ⟨id, hr, hl, rfl⟩ | ⟨x, hr, hl, rfl⟩
  · left
    simp only [pending, hc, hr, List.mem_append, List.mem_cons, List.not_mem_nil] at hm ⊢
    tauto
  · left
    simp only [pending, hc, hr, Option.toList_some, Option.toList_none, List.mem_append,
      List.mem_cons, List.not_mem_nil] at hm ⊢
    tauto
  · left
    simp only [pending, hq, List.mem_append, List.mem_cons, List.not_mem_nil] at hm ⊢
    tauto
  · rw [hl]
    simp only [pending, List.mem_append] at hm ⊢
    have herase : m ∈ l.active → _ := fun hm => mem_eraseIdx_or_getElem? hm job
    tauto
  · rw [hl]
    simp only [pending, List.mem_append, Option.mem_toList] at hm ⊢
    tauto
  · rw [hl]
    simp only [pending, List.mem_append, Option.mem_toList] at hm ⊢
    tauto

theorem mem_pending_send {m x : Request π} :
    x ∈ (l.send m).pending ↔ x ∈ l.pending ∨ x = m := by
  simp only [pending, send, List.mem_append, List.mem_cons, List.not_mem_nil]
  tauto

/-- What holds of every connection: without apply threads the pool stays
empty, and barrier identifiers are issued once. -/
structure Wf (pool : ApplyPool) (l : Link π) : Prop where
  idle : pool.threads = 0 → l.queue = [] ∧ l.active = []
  channel_lt : ∀ id, .barrier id ∈ l.channel → id < l.nextId
  reader_lt : ∀ id, l.reader = some (.barrier id) → id < l.nextId
  replied_lt : ∀ id ∈ l.replied, id < l.nextId

theorem wf_empty (pool : ApplyPool) : (empty : Link π).Wf pool := by
  constructor <;> simp [empty]

theorem Wf.serve (hw : l.Wf pool) (h : l.serve pool a = some k) : k.Wf pool := by
  rcases serve_cases h with ⟨x, rest, hc, hr, -, hp, rfl⟩ | ⟨x, rest, hc, hr, -, rfl⟩ |
    ⟨x, rest, hq, hlt, rfl⟩ | ⟨job, -, rfl⟩ | ⟨id, hr, -, rfl⟩ | ⟨x, hr, -, rfl⟩
  · exact ⟨fun h0 => by omega, fun id hid => hw.channel_lt id (by simp [hc, hid]),
      hw.reader_lt, hw.replied_lt⟩
  · refine ⟨hw.idle, fun id hid => hw.channel_lt id (by simp [hc, hid]), ?_, hw.replied_lt⟩
    intro id hid
    exact hw.channel_lt id (by rw [hc, Option.some.inj hid]; simp)
  · exact ⟨fun h0 => by omega, hw.channel_lt, hw.reader_lt, hw.replied_lt⟩
  · refine ⟨fun h0 => ⟨(hw.idle h0).1, ?_⟩, hw.channel_lt, hw.reader_lt, hw.replied_lt⟩
    simp [(hw.idle h0).2]
  · refine ⟨hw.idle, hw.channel_lt, by simp, ?_⟩
    intro i hi
    rcases List.mem_append.mp hi with hi | hi
    · exact hw.replied_lt i hi
    · rw [List.mem_singleton.mp hi]
      exact hw.reader_lt id hr
  · exact ⟨hw.idle, hw.channel_lt, by simp, hw.replied_lt⟩

/-- A frame leaves the well-formedness alone unless it is a barrier with an
identifier that was not issued by the connection itself. -/
theorem Wf.send (hw : l.Wf pool) {m : Request π} (hm : ∀ id, m = .barrier id → id = l.nextId) :
    (l.send m).Wf pool := by
  refine ⟨hw.idle, ?_, fun id hid => Nat.lt_succ_of_lt (hw.reader_lt id hid),
    fun id hid => Nat.lt_succ_of_lt (hw.replied_lt id hid)⟩
  intro id hid
  rcases List.mem_append.mp hid with hid | hid
  · exact Nat.lt_succ_of_lt (hw.channel_lt id hid)
  · have := hm id (List.mem_singleton.mp hid).symm
    simp [Link.send, this]

section Behind
variable {Q : Request π → Prop} {id : ℕ}

/-- No frame of the kind `Q` is pending. -/
def Free (Q : Request π → Prop) (l : Link π) : Prop := ∀ m ∈ l.pending, ¬ Q m

/-- Barrier `id` stands behind every frame of the kind `Q`: either none is
pending any more, or the reader has not reached the barrier and no such frame
was sent after it. -/
def Behind (Q : Request π → Prop) (id : ℕ) (l : Link π) : Prop :=
  l.Free Q ∨ (id ∉ l.replied ∧ l.reader ≠ some (.barrier id) ∧
    ∃ before after, l.channel = before ++ .barrier id :: after ∧
      .barrier id ∉ before ∧ ∀ m ∈ after, ¬ Q m)

theorem free_empty (Q : Request π → Prop) : (empty : Link π).Free Q := by
  simp [Free, pending, empty]

theorem Free.serve (hc : l.Free Q) (h : l.serve pool a = some k) : k.Free Q :=
  fun m hm => hc m (pending_of_serve h hm)

theorem Free.send (hc : l.Free Q) {m : Request π} (hm : ¬ Q m) : (l.send m).Free Q := by
  intro x hx
  rcases mem_pending_send.mp hx with hx | rfl
  · exact hc x hx
  · exact hm

theorem Behind.send (hf : l.Behind Q id) {m : Request π} (hm : ¬ Q m) :
    (l.send m).Behind Q id := by
  rcases hf with hc | ⟨hrep, hread, before, after, hch, hb, ha⟩
  · exact .inl (hc.send hm)
  · refine .inr ⟨hrep, hread, before, after ++ [m], by simp [Link.send, hch], hb, ?_⟩
    intro x hx
    rcases List.mem_append.mp hx with hx | hx
    · exact ha x hx
    · rw [List.mem_singleton.mp hx]
      exact hm

/-- A freshly sent barrier stands behind everything sent so far. -/
theorem behind_sendBarrier (hw : l.Wf pool) (Q : Request π → Prop) :
    l.sendBarrier.Behind Q l.nextId := by
  refine .inr ⟨?_, ?_, l.channel, [], rfl, ?_, by simp⟩
  · exact fun h => Nat.lt_irrefl _ (hw.replied_lt _ h)
  · exact fun h => Nat.lt_irrefl _ (hw.reader_lt _ h)
  · exact fun h => Nat.lt_irrefl _ (hw.channel_lt _ h)

/-- The step at which the reader reaches the barrier is the only one where the
argument changes: the pool has been drained, so nothing of the kind is left. -/
theorem Behind.serve (hQ : ¬ Q (.barrier id)) (hw : l.Wf pool) (hf : l.Behind Q id)
    (h : l.serve pool a = some k) : k.Behind Q id := by
  rcases hf with hc | ⟨hrep, hread, before, after, hch, hb, ha⟩
  · exact .inl (hc.serve h)
  rcases serve_cases h with ⟨x, rest, hc, hr, hp, -, rfl⟩ | ⟨x, rest, hc, hr, hd, rfl⟩ |
    ⟨x, rest, hq, -, rfl⟩ | ⟨job, -, rfl⟩ | ⟨i, hr, -, rfl⟩ | ⟨x, hr, -, rfl⟩
  · cases before with
    | nil =>
      simp only [hc, List.nil_append, List.cons.injEq] at hch
      rw [hch.1] at hp
      cases hp
    | cons y before =>
      simp only [hc, List.cons_append, List.cons.injEq] at hch
      exact .inr ⟨hrep, hread, before, after, hch.2, fun hm => hb (by simp [hm]), ha⟩
  · cases before with
    | nil =>
      simp only [hc, List.nil_append, List.cons.injEq] at hch
      obtain ⟨rfl, rfl⟩ := hch
      have hidle : l.queue = [] ∧ l.active = [] := by
        rcases hd with hd | hd | hd
        · cases hd
        · exact hw.idle hd
        · exact hd
      refine .inl ?_
      intro m hm
      simp only [pending, hidle.1, hidle.2, Option.toList_some, List.append_nil,
        List.mem_append, List.mem_singleton] at hm
      rcases hm with hm | rfl
      · exact ha m hm
      · exact hQ
    | cons y before =>
      simp only [hc, List.cons_append, List.cons.injEq] at hch
      refine .inr ⟨hrep, ?_, before, after, hch.2, fun hm => hb (by simp [hm]), ha⟩
      intro hx
      exact hb (by rw [← hch.1, Option.some.inj hx]; simp)
  · exact .inr ⟨hrep, hread, before, after, hch, hb, ha⟩
  · exact .inr ⟨hrep, hread, before, after, hch, hb, ha⟩
  · refine .inr ⟨?_, by simp, before, after, hch, hb, ha⟩
    intro hi
    rcases List.mem_append.mp hi with hi | hi
    · exact hrep hi
    · exact hread (by rw [hr, List.mem_singleton.mp hi])
  · exact .inr ⟨hrep, by simp, before, after, hch, hb, ha⟩

/-- Once the reply to the barrier is there, nothing of the kind is pending. -/
theorem Behind.free_of_replied (hf : l.Behind Q id) (h : id ∈ l.replied) : l.Free Q := by
  rcases hf with hc | ⟨hrep, -⟩
  · exact hc
  · exact absurd h hrep

end Behind

/-- Nothing that changes `p` is pending. -/
def Clear (p : π) (l : Link π) : Prop := ∀ m ∈ l.pending, ¬ m.Writes p

/-- Barrier `id` stands behind everything that changes `p`: either nothing is
pending for `p` any more, or the reader has not reached the barrier and no
such frame was sent after it. -/
def Fenced (p : π) (id : ℕ) (l : Link π) : Prop :=
  l.Clear p ∨ (id ∉ l.replied ∧ l.reader ≠ some (.barrier id) ∧
    ∃ before after, l.channel = before ++ .barrier id :: after ∧
      .barrier id ∉ before ∧ ∀ m ∈ after, ¬ m.Writes p)

theorem clear_empty (p : π) : (empty : Link π).Clear p := free_empty _

theorem Clear.serve (hc : l.Clear p) (h : l.serve pool a = some k) : k.Clear p :=
  Free.serve hc h

theorem Clear.send (hc : l.Clear p) {m : Request π} (hm : ¬ m.Writes p) : (l.send m).Clear p :=
  Free.send hc hm

theorem Fenced.send {id : ℕ} (hf : l.Fenced p id) {m : Request π} (hm : ¬ m.Writes p) :
    (l.send m).Fenced p id :=
  Behind.send hf hm

theorem fenced_sendBarrier (hw : l.Wf pool) (p : π) : l.sendBarrier.Fenced p l.nextId :=
  behind_sendBarrier hw _

theorem Fenced.serve {id : ℕ} (hw : l.Wf pool) (hf : l.Fenced p id)
    (h : l.serve pool a = some k) : k.Fenced p id :=
  Behind.serve (by simp) hw hf h

theorem Fenced.clear_of_replied {id : ℕ} (hf : l.Fenced p id) (h : id ∈ l.replied) :
    l.Clear p :=
  Behind.free_of_replied hf h

end Link

end Ecopy.Remote
