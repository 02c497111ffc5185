import Ecopy.Remote.Barriers

/-!
# Requests and their replies

Many threads share a connection. A thread that wants a reply takes a number, adds
an entry to the list of pending requests, sends its frame and waits until its
entry is done or the connection has failed; then it removes the entry. The
receiver thread reads frames, looks for the entry with the number of the frame and
hands the payload over; a frame without an entry is dropped. The receiver, and a
thread whose frame could not be written, mark the connection as failed.

A step is what one thread does under `pend_lock`, one frame written under
`send_lock`, or one frame read. Request numbers do not wrap here. The server may
send anything at any time, but each number only once. `delivered` and `results`
record what has happened; no step looks at them.

Two invariants are proved here: every call has a number of its own, and the
entries are exactly those of the threads that have one.
-/
namespace Ecopy.Remote.Replies
open Protocol Agreement Lib.Runs

structure Reply where
  type : MsgType
  id : ℕ
  payload : Bytes
deriving DecidableEq, Repr

/-- The status that `rx_main` stores. -/
def Reply.status (r : Reply) : UInt32 :=
  if r.type = .status then (pdecU32 (pdecInit r.payload)).1 else 0

/-- `request_status`, `sshx_stat_bulk` for a number of names, and a barrier. -/
inductive Request where
  | status
  | statBulk (n : ℕ)
  | barrier
deriving DecidableEq, Repr

/-- Whether the call returns 0 for a reply. -/
def Request.succeeds : Request → Reply → Bool
  | .status, r => r.status == 0
  | .statBulk n, r =>
    match (readStatBulkResp n).run (pdecInit r.payload) with
    | (some _, d) => !d.error
    | (none, _) => false
  | .barrier, r => (Barriers.decodeReply r.payload).1 == 0

/-- How a call that has an entry comes to remove it. -/
inductive Exit where
  | done
  | unsent
  | dropped
deriving DecidableEq, Repr

inductive Pc where
  | idle
  | numbered (q : Request) (id : ℕ)
  | registered (q : Request) (id : ℕ)
  | unsent (q : Request) (id : ℕ)
  | waiting (q : Request) (id : ℕ) (parked : Bool)
  | leaving (q : Request) (id : ℕ) (exit : Exit)
deriving DecidableEq, Repr

/-- `pending_t`; the entry is done when it has a reply. -/
structure Pending where
  id : ℕ
  reply : Option Reply
deriving DecidableEq, Repr

inductive Receiver where
  | reading
  | holding (r : Reply)
  | closing
  | exited
deriving DecidableEq, Repr

/-- What a call has returned. Only `answered` has seen a reply; `refused` is a
request for which there was no memory. -/
inductive Outcome where
  | answered (r : Reply) (ok : Bool)
  | refused
  | unsent
  | dropped
deriving DecidableEq, Repr

structure Result (ι : Type) where
  caller : ι
  request : Request
  id : ℕ
  outcome : Outcome
deriving DecidableEq, Repr

structure State (ι : Type) where
  nextId : ℕ
  failed : Bool
  pending : List Pending
  threads : ι → Pc
  receiver : Receiver
  channel : List Reply
  answered : List ℕ
  delivered : List Reply
  results : List (Result ι)

def State.start (ι : Type) : State ι where
  nextId := 0
  failed := false
  pending := []
  threads := fun _ => .idle
  receiver := .reading
  channel := []
  answered := []
  delivered := []
  results := []

inductive Action (ι : Type) where
  | begin (t : ι) (q : Request)
  | post
  | noMemory (t : ι)
  | add (t : ι)
  | send (t : ι)
  | sendFails (t : ι)
  | mark (t : ι)
  | test (t : ι)
  | spurious (t : ι)
  | remove (t : ι)
  | answer (r : Reply)
  | receive
  | deliver
  | hangUp
  | close
deriving DecidableEq, Repr

/-- The first entry with the number of the reply gets it. -/
def fill (r : Reply) : List Pending → Option (List Pending)
  | [] => none
  | p :: ps =>
    if p.id = r.id then some ({ p with reply := some r } :: ps)
    else (fill r ps).map (p :: ·)

/-- `pthread_cond_broadcast` on `pend_cond`. -/
def Pc.wake : Pc → Pc
  | .waiting q id _ => .waiting q id false
  | p => p

section Next
variable {ι : Type} [DecidableEq ι]

def State.setThread (s : State ι) (t : ι) (p : Pc) : State ι :=
  { s with threads := Function.update s.threads t p }

def State.broadcast (s : State ι) : State ι := { s with threads := fun t => (s.threads t).wake }

/-- `conn_mark_failed` -/
def State.markFailed (s : State ι) : State ι := { s with failed := true }.broadcast

/-- The entry of a thread. -/
def State.entry (s : State ι) (id : ℕ) : Option Pending := s.pending.find? (·.id == id)

/-- `pending_remove`, after which the call returns. -/
def State.leave (s : State ι) (t : ι) (q : Request) (id : ℕ) (o : Outcome) : State ι :=
  { s.setThread t .idle with
    pending := s.pending.eraseP (·.id == id)
    results := s.results ++ [⟨t, q, id, o⟩] }

def next (s : State ι) : Action ι → Option (State ι)
  | .begin t q =>
    match s.threads t with
    | .idle => some { s.setThread t (.numbered q (s.nextId + 1)) with nextId := s.nextId + 1 }
    | _ => none
  -- a fire-and-forget frame only takes a number
  | .post => some { s with nextId := s.nextId + 1 }
  | .noMemory t =>
    match s.threads t with
    | .numbered q id => some { s.setThread t .idle with
        results := s.results ++ [⟨t, q, id, .refused⟩] }
    | _ => none
  | .add t =>
    match s.threads t with
    | .numbered q id => some { s.setThread t (.registered q id) with
        pending := ⟨id, none⟩ :: s.pending }
    | _ => none
  | .send t =>
    match s.threads t with
    | .registered q id => some (s.setThread t (.waiting q id false))
    | _ => none
  | .sendFails t =>
    match s.threads t with
    | .registered q id => some (s.setThread t (.unsent q id))
    | _ => none
  | .mark t =>
    match s.threads t with
    | .unsent q id => some (s.markFailed.setThread t (.leaving q id .unsent))
    | _ => none
  | .test t =>
    match s.threads t with
    | .waiting q id false =>
      if ((s.entry id).bind (·.reply)).isSome then
        some (s.setThread t (.leaving q id .done))
      else if s.failed then some (s.setThread t (.leaving q id .dropped))
      else some (s.setThread t (.waiting q id true))
    | _ => none
  | .spurious t =>
    match s.threads t with
    | .waiting q id true => some (s.setThread t (.waiting q id false))
    | _ => none
  | .remove t =>
    match s.threads t with
    | .leaving q id .done =>
      ((s.entry id).bind (·.reply)).map fun r => s.leave t q id (.answered r (q.succeeds r))
    | .leaving q id .unsent => some (s.leave t q id .unsent)
    | .leaving q id .dropped => some (s.leave t q id .dropped)
    | _ => none
  | .answer r =>
    if r.id ∈ s.answered then none
    else some { s with channel := s.channel ++ [r], answered := s.answered ++ [r.id] }
  | .receive =>
    match s.receiver, s.channel with
    | .reading, r :: rest => some { s with receiver := .holding r, channel := rest }
    | _, _ => none
  | .deliver =>
    match s.receiver with
    | .holding r =>
      match fill r s.pending with
      | some ps => some { s.broadcast with
          receiver := .reading, pending := ps, delivered := s.delivered ++ [r] }
      | none => some { s with receiver := .reading }
    | _ => none
  | .hangUp =>
    match s.receiver with
    | .reading => some { s with receiver := .closing }
    | _ => none
  | .close =>
    match s.receiver with
    | .closing => some { s.markFailed with receiver := .exited }
    | _ => none

/-- The number of the call that a thread is in. -/
def Pc.number : Pc → Option ℕ
  | .idle => none
  | .numbered _ id | .registered _ id | .unsent _ id | .waiting _ id _ | .leaving _ id _ => some id

/-- The number under which a thread has an entry. -/
def Pc.listed : Pc → Option ℕ
  | .idle | .numbered _ _ => none
  | .registered _ id | .unsent _ id | .waiting _ id _ | .leaving _ id _ => some id

def Pc.parked : Pc → Bool
  | .waiting _ _ parked => parked
  | _ => false

def Receiver.held : Receiver → List Reply
  | .holding r => [r]
  | _ => []

variable {s u : State ι} {a : Action ι}

/-- Everything one step can do. -/
inductive Step (s : State ι) : Action ι → State ι → Prop where
  | begin {t : ι} {q : Request} (ht : s.threads t = .idle) :
      Step s (.begin t q)
        { s.setThread t (.numbered q (s.nextId + 1)) with nextId := s.nextId + 1 }
  | post : Step s .post { s with nextId := s.nextId + 1 }
  | noMemory {t : ι} {q : Request} {id : ℕ} (ht : s.threads t = .numbered q id) :
      Step s (.noMemory t) { s.setThread t .idle with
        results := s.results ++ [⟨t, q, id, .refused⟩] }
  | add {t : ι} {q : Request} {id : ℕ} (ht : s.threads t = .numbered q id) :
      Step s (.add t) { s.setThread t (.registered q id) with
        pending := ⟨id, none⟩ :: s.pending }
  | send {t : ι} {q : Request} {id : ℕ} (ht : s.threads t = .registered q id) :
      Step s (.send t) (s.setThread t (.waiting q id false))
  | sendFails {t : ι} {q : Request} {id : ℕ} (ht : s.threads t = .registered q id) :
      Step s (.sendFails t) (s.setThread t (.unsent q id))
  | mark {t : ι} {q : Request} {id : ℕ} (ht : s.threads t = .unsent q id) :
      Step s (.mark t) (s.markFailed.setThread t (.leaving q id .unsent))
  | see {t : ι} {q : Request} {id : ℕ} {r : Reply} {p : Pending}
      (ht : s.threads t = .waiting q id false) (hp : s.entry id = some p)
      (hr : p.reply = some r) : Step s (.test t) (s.setThread t (.leaving q id .done))
  | giveUp {t : ι} {q : Request} {id : ℕ} (ht : s.threads t = .waiting q id false)
      (hf : s.failed = true) : Step s (.test t) (s.setThread t (.leaving q id .dropped))
  | park {t : ι} {q : Request} {id : ℕ} (ht : s.threads t = .waiting q id false)
      (hn : ∀ p, s.entry id = some p → p.reply = none) (hf : s.failed = false) :
      Step s (.test t) (s.setThread t (.waiting q id true))
  | spurious {t : ι} {q : Request} {id : ℕ} (ht : s.threads t = .waiting q id true) :
      Step s (.spurious t) (s.setThread t (.waiting q id false))
  | take {t : ι} {q : Request} {id : ℕ} {r : Reply} {p : Pending}
      (ht : s.threads t = .leaving q id .done) (hp : s.entry id = some p)
      (hr : p.reply = some r) :
      Step s (.remove t) (s.leave t q id (.answered r (q.succeeds r)))
  | lose {t : ι} {q : Request} {id : ℕ} {e : Exit} {o : Outcome}
      (ht : s.threads t = .leaving q id e) (he : e ≠ .done)
      (ho : o = .unsent ∨ o = .dropped) : Step s (.remove t) (s.leave t q id o)
  | answer {r : Reply} (hr : r.id ∉ s.answered) :
      Step s (.answer r) { s with
        channel := s.channel ++ [r], answered := s.answered ++ [r.id] }
  | receive {r : Reply} {rest : List Reply} (hr : s.receiver = .reading)
      (hc : s.channel = r :: rest) :
      Step s .receive { s with receiver := .holding r, channel := rest }
  | deliver {r : Reply} {ps : List Pending} (hr : s.receiver = .holding r)
      (hf : fill r s.pending = some ps) :
      Step s .deliver { s.broadcast with
        receiver := .reading, pending := ps, delivered := s.delivered ++ [r] }
  | discard {r : Reply} (hr : s.receiver = .holding r) :
      Step s .deliver { s with receiver := .reading }
  | hangUp (hr : s.receiver = .reading) : Step s .hangUp { s with receiver := .closing }
  | close (hr : s.receiver = .closing) :
      Step s .close { s.markFailed with receiver := .exited }

theorem next_step (h : next s a = some u) : Step s a u := by
  cases a with
  | begin t q =>
    simp only [next] at h
    split at h
    · obtain rfl := Option.some.inj h
      exact .begin ‹_›
    · cases h
  | post =>
    obtain rfl := Option.some.inj h
    exact .post
  | noMemory t =>
    simp only [next] at h
    split at h
    · obtain rfl := Option.some.inj h
      exact .noMemory ‹_›
    · cases h
  | add t =>
    simp only [next] at h
    split at h
    · obtain rfl := Option.some.inj h
      exact .add ‹_›
    · cases h
  | send t =>
    simp only [next] at h
    split at h
    · obtain rfl := Option.some.inj h
      exact .send ‹_›
    · cases h
  | sendFails t =>
    simp only [next] at h
    split at h
    · obtain rfl := Option.some.inj h
      exact .sendFails ‹_›
    · cases h
  | mark t =>
    simp only [next] at h
    split at h
    · obtain rfl := Option.some.inj h
      exact .mark ‹_›
    · cases h
  | test t =>
    simp only [next] at h
    split at h
    · rename_i q id ht
      split at h
      · rename_i hsome
        obtain rfl := Option.some.inj h
        obtain ⟨r, hr⟩ := Option.isSome_iff_exists.mp hsome
        obtain ⟨p, hp, hpr⟩ := Option.bind_eq_some_iff.mp hr
        exact .see ht hp hpr
      rename_i hnone
      split at h
      · obtain rfl := Option.some.inj h
        exact .giveUp ht ‹_›
      · rename_i hf
        obtain rfl := Option.some.inj h
        refine .park ht ?_ (by simpa using hf)
        intro p hp
        simpa [hp] using hnone
    · cases h
  | spurious t =>
    simp only [next] at h
    split at h
    · obtain rfl := Option.some.inj h
      exact .spurious ‹_›
    · cases h
  | remove t =>
    simp only [next] at h
    split at h
    · obtain ⟨r, hr, rfl⟩ := Option.map_eq_some_iff.mp h
      obtain ⟨p, hp, hpr⟩ := Option.bind_eq_some_iff.mp hr
      exact .take ‹_› hp hpr
    · obtain rfl := Option.some.inj h
      exact .lose ‹_› (by decide) (.inl rfl)
    · obtain rfl := Option.some.inj h
      exact .lose ‹_› (by decide) (.inr rfl)
    · cases h
  | answer r =>
    simp only [next] at h
    split at h
    · cases h
    · obtain rfl := Option.some.inj h
      exact .answer ‹_›
  | receive =>
    simp only [next] at h
    split at h
    · obtain rfl := Option.some.inj h
      exact .receive ‹_› ‹_›
    · cases h
  | deliver =>
    simp only [next] at h
    split at h
    · rename_i r hr
      split at h
      · obtain rfl := Option.some.inj h
        exact .deliver hr ‹_›
      · obtain rfl := Option.some.inj h
        exact .discard hr
    · cases h
  | hangUp =>
    simp only [next] at h
    split at h
    · obtain rfl := Option.some.inj h
      exact .hangUp ‹_›
    · cases h
  | close =>
    simp only [next] at h
    split at h
    · obtain rfl := Option.some.inj h
      exact .close ‹_›
    · cases h

@[simp] theorem Pc.number_wake (p : Pc) : p.wake.number = p.number := by cases p <;> rfl

@[simp] theorem Pc.listed_wake (p : Pc) : p.wake.listed = p.listed := by cases p <;> rfl

@[simp] theorem Pc.parked_wake (p : Pc) : p.wake.parked = false := by cases p <;> rfl

theorem Pc.number_of_listed {p : Pc} {id : ℕ} (h : p.listed = some id) : p.number = some id := by
  cases p with
  | idle => cases h
  | numbered => cases h
  | _ => exact h

/-- What a move does not change for one thread it does not change for any. -/
theorem field_setThread {β : Type} (f : Pc → β) {t : ι} {p : Pc} (hp : f p = f (s.threads t))
    (v : ι) : f ((s.setThread t p).threads v) = f (s.threads v) := by
  by_cases hv : v = t
  · subst hv
    simpa [State.setThread] using hp
  · simp [State.setThread, hv]

/-- Every call has a number of its own. -/
structure Numbered (s : State ι) : Prop where
  below : ∀ t id, (s.threads t).number = some id → id ≤ s.nextId
  apart : ∀ t v id, (s.threads t).number = some id → (s.threads v).number = some id → t = v
  old : ∀ res ∈ s.results, res.id ≤ s.nextId
  retired : ∀ res ∈ s.results, ∀ t, (s.threads t).number ≠ some res.id
  once : (s.results.map (·.id)).Nodup

omit [DecidableEq ι] in
theorem Numbered.start : Numbered (State.start ι) where
  below := fun _ _ h => (nomatch h)
  apart := fun _ _ _ h => (nomatch h)
  old := fun _ h => (nomatch h)
  retired := fun _ h => (nomatch h)
  once := List.nodup_nil

omit [DecidableEq ι] in
/-- The threads keep their numbers. -/
theorem Numbered.keep (h : Numbered s) (hn : u.nextId = s.nextId) (hr : u.results = s.results)
    (ht : ∀ t, (u.threads t).number = (s.threads t).number) : Numbered u where
  below := by
    intro t id hid
    rw [hn]
    exact h.below t id (by rw [← ht]; exact hid)
  apart := by
    intro t v id hid hvid
    rw [ht] at hid hvid
    exact h.apart t v id hid hvid
  old := by
    rw [hn, hr]
    exact h.old
  retired := by
    intro res hres t
    rw [hr] at hres
    rw [ht]
    exact h.retired res hres t
  once := by
    rw [hr]
    exact h.once

/-- A call returns and its number is not used again. -/
theorem Numbered.retire (h : Numbered s) {t : ι} {id : ℕ} (ht : (s.threads t).number = some id)
    (q : Request) (o : Outcome) (hn : u.nextId = s.nextId)
    (hr : u.results = s.results ++ [⟨t, q, id, o⟩])
    (hth : u.threads = Function.update s.threads t .idle) : Numbered u := by
  have hidle : ∀ v id', (u.threads v).number = some id' → v ≠ t ∧
      (s.threads v).number = some id' := by
    intro v id' hv
    rw [hth] at hv
    by_cases hvt : v = t
    · subst hvt
      simp [Pc.number] at hv
    · exact ⟨hvt, by simpa [hvt] using hv⟩
  constructor
  · intro v id' hv
    rw [hn]
    exact h.below v id' (hidle v id' hv).2
  · intro v w id' hv hw
    exact h.apart v w id' (hidle v id' hv).2 (hidle w id' hw).2
  · intro res hres
    rw [hn]
    rw [hr] at hres
    rcases List.mem_append.mp hres with hres | hres
    · exact h.old res hres
    · rw [List.mem_singleton.mp hres]
      exact h.below t id ht
  · intro res hres v hv
    obtain ⟨hvt, hv'⟩ := hidle v res.id hv
    rw [hr] at hres
    rcases List.mem_append.mp hres with hres | hres
    · exact h.retired res hres v hv'
    · rw [List.mem_singleton.mp hres] at hv'
      exact hvt (h.apart v t id hv' ht)
  · rw [hr, List.map_append, List.nodup_append]
    refine ⟨h.once, by simp, ?_⟩
    intro i hi j hj
    obtain ⟨res, hres, rfl⟩ := List.mem_map.mp hi
    simp only [List.map_cons, List.map_nil, List.mem_singleton] at hj
    subst hj
    intro heq
    exact h.retired res hres t (by rw [heq]; exact ht)

theorem Numbered.step (h : Numbered s) (hs : Step s a u) : Numbered u := by
  cases hs with
  | @begin t q ht =>
    have hnew : ∀ v id, ((s.setThread t (.numbered q (s.nextId + 1))).threads v).number = some id →
        (v = t ∧ id = s.nextId + 1) ∨ (v ≠ t ∧ (s.threads v).number = some id) := by
      intro v id hv
      by_cases hvt : v = t
      · subst hvt
        simp only [State.setThread, Function.update_self, Pc.number] at hv
        exact .inl ⟨rfl, (Option.some.inj hv).symm⟩
      · exact .inr ⟨hvt, by simpa [State.setThread, hvt] using hv⟩
    constructor
    · intro v id hv
      rcases hnew v id hv with ⟨-, rfl⟩ | ⟨-, hv⟩
      · exact le_rfl
      · exact (h.below v id hv).trans (Nat.le_succ _)
    · intro v w id hv hw
      rcases hnew v id hv with ⟨hvt, hvid⟩ | ⟨-, hv'⟩
      · rcases hnew w id hw with ⟨hwt, -⟩ | ⟨-, hw'⟩
        · exact hvt.trans hwt.symm
        · have := h.below w id hw'
          omega
      · rcases hnew w id hw with ⟨-, hwid⟩ | ⟨-, hw'⟩
        · have := h.below v id hv'
          omega
        · exact h.apart v w id hv' hw'
    · exact fun res hres => (h.old res hres).trans (Nat.le_succ _)
    · intro res hres v hv
      rcases hnew v res.id hv with ⟨-, heq⟩ | ⟨-, hv⟩
      · have := h.old res hres
        omega
      · exact h.retired res hres v hv
    · exact h.once
  | post =>
    exact ⟨fun t id ht => (h.below t id ht).trans (Nat.le_succ _), h.apart,
      fun res hres => (h.old res hres).trans (Nat.le_succ _), h.retired, h.once⟩
  | @noMemory t q id ht => exact h.retire (by rw [ht]; rfl) q .refused rfl rfl rfl
  | add ht => exact h.keep rfl rfl (field_setThread Pc.number (by rw [ht]; rfl))
  | send ht => exact h.keep rfl rfl (field_setThread Pc.number (by rw [ht]; rfl))
  | sendFails ht => exact h.keep rfl rfl (field_setThread Pc.number (by rw [ht]; rfl))
  | mark ht =>
    have h' : Numbered s.markFailed := h.keep rfl rfl fun _ => Pc.number_wake _
    refine h'.keep rfl rfl (field_setThread Pc.number ?_)
    show _ = (s.threads _).wake.number
    rw [Pc.number_wake, ht]
    rfl
  | see ht hp hr => exact h.keep rfl rfl (field_setThread Pc.number (by rw [ht]; rfl))
  | giveUp ht hf => exact h.keep rfl rfl (field_setThread Pc.number (by rw [ht]; rfl))
  | park ht hn hf => exact h.keep rfl rfl (field_setThread Pc.number (by rw [ht]; rfl))
  | spurious ht => exact h.keep rfl rfl (field_setThread Pc.number (by rw [ht]; rfl))
  | @take t q id r p ht hp hr => exact h.retire (by rw [ht]; rfl) q _ rfl rfl rfl
  | @lose t q id e o ht he ho => exact h.retire (by rw [ht]; rfl) q o rfl rfl rfl
  | answer | receive | discard | hangUp => exact ⟨h.below, h.apart, h.old, h.retired, h.once⟩
  | deliver hr hf => exact h.keep rfl rfl fun _ => Pc.number_wake _
  | close hr => exact h.keep rfl rfl fun _ => Pc.number_wake _

theorem fill_eq_some {r : Reply} {ps qs : List Pending} (h : fill r ps = some qs) :
    ∃ front p back, ps = front ++ p :: back ∧ p.id = r.id ∧
      qs = front ++ { p with reply := some r } :: back := by
  induction ps generalizing qs with
  | nil => cases h
  | cons p ps ih =>
    simp only [fill] at h
    split at h
    · obtain rfl := Option.some.inj h
      exact ⟨[], p, ps, rfl, ‹_›, rfl⟩
    · obtain ⟨qs', hqs, rfl⟩ := Option.map_eq_some_iff.mp h
      obtain ⟨front, p', back, rfl, hid, rfl⟩ := ih hqs
      exact ⟨p :: front, p', back, rfl, hid, rfl⟩

theorem map_id_fill {r : Reply} {ps qs : List Pending} (h : fill r ps = some qs) :
    qs.map (·.id) = ps.map (·.id) := by
  obtain ⟨front, p, back, rfl, -, rfl⟩ := fill_eq_some h
  simp

/-- The entries are those of the threads that have one. -/
structure Listed (s : State ι) : Prop where
  listed : ∀ t id, (s.threads t).listed = some id → id ∈ s.pending.map (·.id)
  owner : ∀ id ∈ s.pending.map (·.id), ∃ t, (s.threads t).listed = some id
  nodup : (s.pending.map (·.id)).Nodup

omit [DecidableEq ι] in
theorem Listed.start : Listed (State.start ι) where
  listed := fun _ _ h => (nomatch h)
  owner := fun _ h => (nomatch h)
  nodup := List.nodup_nil

omit [DecidableEq ι] in
theorem Listed.keep (h : Listed s) (hp : u.pending.map (·.id) = s.pending.map (·.id))
    (ht : ∀ t, (u.threads t).listed = (s.threads t).listed) : Listed u where
  listed := by
    intro t id hid
    rw [hp]
    exact h.listed t id (by rw [← ht]; exact hid)
  owner := by
    intro id hid
    rw [hp] at hid
    obtain ⟨t, hid⟩ := h.owner id hid
    exact ⟨t, by rw [ht]; exact hid⟩
  nodup := by
    rw [hp]
    exact h.nodup

theorem map_id_eraseP (ps : List Pending) (id : ℕ) :
    (ps.eraseP (·.id == id)).map (·.id) = (ps.map (·.id)).erase id := by
  induction ps with
  | nil => rfl
  | cons p ps ih =>
    rw [List.map_cons, List.erase_cons, List.eraseP_cons]
    by_cases hp : p.id = id
    · simp [hp]
    · simp [beq_eq_false_iff_ne.mpr hp, ih]

/-- `pending_remove` takes out the entry of the thread and no other. -/
theorem Listed.leave (h : Listed s) (hn : Numbered s) {t : ι} {id : ℕ}
    (ht : (s.threads t).listed = some id) (q : Request) (o : Outcome) :
    Listed (s.leave t q id o) := by
  have hmem : ∀ i, i ∈ (s.leave t q id o).pending.map (·.id) ↔
      i ≠ id ∧ i ∈ s.pending.map (·.id) := by
    intro i
    show i ∈ (s.pending.eraseP (·.id == id)).map (·.id) ↔ _
    rw [map_id_eraseP]
    exact h.nodup.mem_erase_iff
  constructor
  · intro v i hv
    have hvt : v ≠ t := by
      rintro rfl
      simp [State.leave, State.setThread, Pc.listed] at hv
    have hv' : (s.threads v).listed = some i := by
      simpa [State.leave, State.setThread, hvt] using hv
    refine (hmem i).mpr ⟨?_, h.listed v i hv'⟩
    rintro rfl
    exact hvt (hn.apart v t i (Pc.number_of_listed hv') (Pc.number_of_listed ht))
  · intro i hi
    obtain ⟨hne, hi⟩ := (hmem i).mp hi
    obtain ⟨v, hv⟩ := h.owner i hi
    have hvt : v ≠ t := by
      rintro rfl
      exact hne (Option.some.inj (hv.symm.trans ht))
    exact ⟨v, by simpa [State.leave, State.setThread, hvt] using hv⟩
  · show ((s.pending.eraseP (·.id == id)).map (·.id)).Nodup
    rw [map_id_eraseP]
    exact h.nodup.erase id

theorem Listed.step (h : Listed s) (hn : Numbered s) (hs : Step s a u) : Listed u := by
  cases hs with
  | begin ht => exact h.keep rfl (field_setThread Pc.listed (by rw [ht]; rfl))
  | post | answer | receive | discard | hangUp => exact ⟨h.listed, h.owner, h.nodup⟩
  | noMemory ht => exact h.keep rfl (field_setThread Pc.listed (by rw [ht]; rfl))
  | @add t q id ht =>
    have hlisted : ∀ v, ((s.setThread t (.registered q id)).threads v).listed =
        if v = t then some id else (s.threads v).listed := by
      intro v
      by_cases hv : v = t
      · subst hv
        simp [State.setThread, Pc.listed]
      · simp [State.setThread, hv]
    constructor
    · intro v i hv
      rw [show _ = _ from hlisted v] at hv
      split at hv
      · obtain rfl := Option.some.inj hv
        exact List.mem_cons_self
      · exact List.mem_cons_of_mem _ (h.listed v i hv)
    · intro i hi
      rcases List.mem_cons.mp hi with rfl | hi
      · exact ⟨t, (hlisted t).trans (if_pos rfl)⟩
      · obtain ⟨v, hv⟩ := h.owner i hi
        have hvt : v ≠ t := by
          rintro rfl
          rw [ht] at hv
          cases hv
        exact ⟨v, ((hlisted v).trans (if_neg hvt)).trans hv⟩
    · refine List.nodup_cons.mpr ⟨?_, h.nodup⟩
      -- the owner of such an entry would be the thread itself
      intro hid
      obtain ⟨v, hv⟩ := h.owner id hid
      have hvt := hn.apart v t id (Pc.number_of_listed hv) (by rw [ht]; rfl)
      rw [hvt, ht] at hv
      cases hv
  | send ht => exact h.keep rfl (field_setThread Pc.listed (by rw [ht]; rfl))
  | sendFails ht => exact h.keep rfl (field_setThread Pc.listed (by rw [ht]; rfl))
  | mark ht =>
    have h' : Listed s.markFailed := h.keep rfl fun _ => Pc.listed_wake _
    refine h'.keep rfl (field_setThread Pc.listed ?_)
    show _ = (s.threads _).wake.listed
    rw [Pc.listed_wake, ht]
    rfl
  | see ht hp hr => exact h.keep rfl (field_setThread Pc.listed (by rw [ht]; rfl))
  | giveUp ht hf => exact h.keep rfl (field_setThread Pc.listed (by rw [ht]; rfl))
  | park ht hn hf => exact h.keep rfl (field_setThread Pc.listed (by rw [ht]; rfl))
  | spurious ht => exact h.keep rfl (field_setThread Pc.listed (by rw [ht]; rfl))
  | take ht hp hr => exact h.leave hn (by rw [ht]; rfl) _ _
  | lose ht he ho => exact h.leave hn (by rw [ht]; rfl) _ _
  | deliver hr hf => exact h.keep (map_id_fill hf) fun _ => Pc.listed_wake _
  | close hr => exact h.keep rfl fun _ => Pc.listed_wake _

end Next

end Ecopy.Remote.Replies
