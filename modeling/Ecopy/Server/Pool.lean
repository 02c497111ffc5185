import Ecopy.Remote.Agreement
import Ecopy.Server.Process

/-!
# The apply pool

The reader of `server_main` takes frames one at a time. With a pool, a frame of
a pooled type becomes a job in a queue that the workers empty; every other frame
waits until no job is queued or active. The counters, the lock and the three
condition variables are those of the source: a step below is what one thread does
while it holds `g_pool_lock`, or one call of a handler. Waiting threads may wake
without a reason.

Frames are numbered in the order they are read. `history` records when the
handler of a frame begins and ends and what it logs in between; the code does not
have it, and no step looks at it.
-/
namespace Ecopy.Server.Pool
open Protocol Ecopy.Path Lib.Calls Lib.Runs
open Remote.Encoders (Totals barrierReply)

/-- What a handler adds to the error log or to the verify counters. -/
inductive Entry where
  | error (path : Bytes) (err : Errno)
  | verify (kind : VerifyError) (path : Bytes) (err : Errno)
  | unpreserved
deriving DecidableEq, Repr

def entryOf : Call → Option Entry
  | .logError path err => some (.error path err)
  | .logVerify kind path err => some (.verify kind path err)
  | .noteUnpreserved => some .unpreserved
  | _ => none

/-- The entries that count as errors, as path and `errno`. -/
def Entry.failure : Entry → Option (Bytes × Errno)
  | .error path err => some (path, err)
  | .verify _ path err => some (path, err)
  | .unpreserved => none

def Entry.isVerify (kind : VerifyError) : Entry → Bool
  | .verify k _ _ => k == kind
  | _ => false

inductive Event where
  | began (k : ℕ)
  | logged (k : ℕ) (e : Entry)
  | ended (k : ℕ)
deriving DecidableEq, Repr

structure Job where
  number : ℕ
  frame : Frame
  program : Handler (Option Frame)

/-- `parked` is a thread in the wait set of `g_pool_work_cv`. -/
inductive Worker where
  | awake
  | parked
  | running (job : Job)
  | exited

def Worker.isBusy : Worker → Bool
  | .running _ => true
  | _ => false

def Worker.isParked : Worker → Bool
  | .parked => true
  | _ => false

def Worker.isAwake : Worker → Bool
  | .awake => true
  | _ => false

def Worker.hasExited : Worker → Bool
  | .exited => true
  | _ => false

def Worker.runs (k : ℕ) : Worker → Bool
  | .running job => job.number == k
  | _ => false

/-- Why the reader waits for the pool: to handle a frame itself, or to leave. -/
inductive Goal where
  | handle (job : Job)
  | stop

/-- In `pool_submit` and in `pool_drain` the reader may be parked on
`g_pool_space_cv` and on `g_pool_drain_cv`. -/
inductive Reader where
  | reading
  | submitting (job : Job) (parked : Bool)
  | draining (goal : Goal) (parked : Bool)
  | inline (job : Job)
  | joining
  | ended

structure State where
  world : World
  frames : List Frame
  reader : Reader
  workers : List Worker
  limit : ℕ
  queue : List Job
  queued : ℕ
  active : ℕ
  stop : Bool
  replies : List (ℕ × Frame)
  history : List Event

def State.start (fs : FileSystem.Fs) : State where
  world := .initial fs
  frames := []
  reader := .reading
  workers := []
  limit := 0
  queue := []
  queued := 0
  active := 0
  stop := false
  replies := []
  history := []

/-- `read` and `endOfInput` are the reader at the top of its loop, `noMemory` is a
failed allocation in `pool_submit`, and `proceed` is the reader testing the
condition it waits for; a submission may wake the worker it names. (`noMemory` may
also come after a wait, which only adds runs.) In `inlineDone`, `sent` says whether
the reply got through and `started` how many threads `pool_start` could create. -/
inductive Action where
  | read (f : Frame)
  | endOfInput
  | noMemory
  | proceed (wake : Option ℕ)
  | inline (x : Choice)
  | inlineDone (sent : Bool) (started : ℕ)
  | join
  | worker (i : ℕ)
  | call (i : ℕ) (x : Choice)
  | finish (i : ℕ)
  | spurious (i : ℕ)
  | spuriousReader
deriving DecidableEq, Repr

/-- `pthread_cond_signal` on `g_pool_work_cv`: one parked worker is woken, and none
only when none is parked. -/
def signalWork (ws : List Worker) : Option ℕ → Option (List Worker)
  | some i =>
    match ws[i]? with
    | some .parked => some (ws.set i .awake)
    | _ => none
  | none => if ws.countP Worker.isParked = 0 then some ws else none

def broadcastWork (ws : List Worker) : List Worker :=
  ws.map fun
    | .parked => .awake
    | w => w

/-- The wake of `g_pool_space_cv`: only the reader waits there. -/
def Reader.signalSpace : Reader → Reader
  | .submitting job _ => .submitting job false
  | r => r

def Reader.broadcastDrain : Reader → Reader
  | .draining goal _ => .draining goal false
  | r => r

/-- What the end of a job does to the reader; `idle` means that it was the last. -/
def Reader.jobEnded (idle : Bool) (r : Reader) : Reader :=
  if idle then r.signalSpace.broadcastDrain else r.signalSpace

/-- The reader after `pool_shutdown` has been entered. -/
def State.shutdown (s : State) : State :=
  { s with reader := if s.workers.isEmpty then .ended else .draining .stop false }

/-- The `switch` of `server_main`. -/
def State.dispatch (s : State) (job : Job) : State :=
  if job.frame.type = .bye then
    State.shutdown { s with history := s.history ++ [.began job.number, .ended job.number] }
  else
    { s with reader := .inline job, history := s.history ++ [.began job.number] }

/-- The size that `handle_hello` passes to `pool_start`. -/
def helloThreads (f : Frame) : ℕ :=
  (Remote.Handshake.settingsOf true (Remote.Handshake.decodeHello f.payload)).poolThreads

/-- `handle_hello` starts the pool unless there is one. -/
def State.poolStart (s : State) (f : Frame) (started : ℕ) : State :=
  if f.type = .hello ∧ s.workers.isEmpty ∧ 1 < helloThreads f then
    { s with
      workers := List.replicate (min started (helloThreads f)) .awake
      limit := helloThreads f * 4 }
  else s

def State.finishInline (s : State) (job : Job) : State :=
  { s with reader := .reading, history := s.history ++ [.ended job.number] }

/-- A handler makes its next call. -/
def Job.step (who : Identity) (w : World) (x : Choice) (job : Job) :
    Option (World × Job × List Event) :=
  match job.program with
  | .ret _ => none
  | .call c k =>
    (answer who w x c).map fun (r, v) =>
      (v, { job with program := k r }, ((entryOf c).map (Event.logged job.number)).toList)

def next (who : Identity) (cfg : Config) (s : State) : Action → Option State
  | .read f =>
    match s.reader with
    | .reading =>
      let job : Job := ⟨s.frames.length, f, handle cfg f⟩
      let s := { s with frames := s.frames ++ [f] }
      if s.workers.isEmpty then some (s.dispatch job)
      else if pooled f.type then some { s with reader := .submitting job false }
      else some { s with reader := .draining (.handle job) false }
    | _ => none
  | .endOfInput =>
    match s.reader with
    | .reading => some s.shutdown
    | _ => none
  | .noMemory =>
    match s.reader with
    | .submitting job false => some (s.dispatch job)
    | _ => none
  | .proceed wake =>
    match s.reader with
    | .submitting job false =>
      if s.queued + s.active ≥ s.limit then some { s with reader := .submitting job true }
      else (signalWork s.workers wake).map fun ws =>
        { s with
          reader := .reading
          queue := s.queue ++ [job]
          queued := s.queued + 1
          workers := ws }
    | .draining goal false =>
      if s.queued > 0 ∨ s.active > 0 then some { s with reader := .draining goal true }
      else
        match goal with
        | .handle job => some (s.dispatch job)
        | .stop => some { s with
            reader := .joining, stop := true, workers := broadcastWork s.workers }
    | _ => none
  | .inline x =>
    match s.reader with
    | .inline job =>
      (job.step who s.world x).map fun (w, job, es) =>
        { s with world := w, reader := .inline job, history := s.history ++ es }
    | _ => none
  | .inlineDone sent started =>
    match s.reader with
    | .inline job =>
      match job.program with
      | .ret none => some (s.finishInline job)
      | .ret (some reply) =>
        let s := (s.finishInline job).poolStart job.frame started
        if sent then some { s with replies := s.replies ++ [(job.number, reply)] }
        else some s.shutdown
      | .call _ _ => none
    | _ => none
  | .join =>
    match s.reader with
    | .joining =>
      if s.workers.all Worker.hasExited then some { s with reader := .ended } else none
    | _ => none
  | .worker i =>
    match s.workers[i]? with
    | some .awake =>
      match s.queue with
      | job :: rest => some { s with
          queue := rest
          queued := s.queued - 1
          active := s.active + 1
          workers := s.workers.set i (.running job)
          history := s.history ++ [.began job.number] }
      | [] => some { s with workers := s.workers.set i (if s.stop then .exited else .parked) }
    | _ => none
  | .call i x =>
    match s.workers[i]? with
    | some (.running job) =>
      (job.step who s.world x).map fun (w, job, es) =>
        { s with
          world := w
          workers := s.workers.set i (.running job)
          history := s.history ++ es }
    | _ => none
  | .finish i =>
    match s.workers[i]? with
    | some (.running job) =>
      match job.program with
      | .ret _ =>
        let active := s.active - 1
        some { s with
          active := active
          workers := s.workers.set i .awake
          reader := s.reader.jobEnded (s.queued = 0 ∧ active = 0)
          history := s.history ++ [.ended job.number] }
      | .call _ _ => none
    | _ => none
  | .spurious i =>
    match s.workers[i]? with
    | some .parked => some { s with workers := s.workers.set i .awake }
    | _ => none
  | .spuriousReader =>
    match s.reader with
    | .submitting job true => some { s with reader := .submitting job false }
    | .draining goal true => some { s with reader := .draining goal false }
    | _ => none

section Steps
variable {who : Identity} {cfg : Config} {s u : State} {a : Action}

/-- Everything one step can do. -/
inductive Step (who : Identity) (cfg : Config) (s : State) : State → Prop where
  | alone {f : Frame} (hr : s.reader = .reading) (hw : s.workers = []) :
      Step who cfg s (State.dispatch { s with frames := s.frames ++ [f] }
        ⟨s.frames.length, f, handle cfg f⟩)
  | submit {f : Frame} (hr : s.reader = .reading) (hw : s.workers ≠ [])
      (hp : pooled f.type = true) :
      Step who cfg s { s with
        frames := s.frames ++ [f]
        reader := .submitting ⟨s.frames.length, f, handle cfg f⟩ false }
  | drain {f : Frame} (hr : s.reader = .reading) (hw : s.workers ≠ [])
      (hp : pooled f.type = false) :
      Step who cfg s { s with
        frames := s.frames ++ [f]
        reader := .draining (.handle ⟨s.frames.length, f, handle cfg f⟩) false }
  | endOfInput (hr : s.reader = .reading) : Step who cfg s s.shutdown
  | noMemory {job : Job} (hr : s.reader = .submitting job false) : Step who cfg s (s.dispatch job)
  | parkSpace {job : Job} (hr : s.reader = .submitting job false)
      (hfull : s.limit ≤ s.queued + s.active) :
      Step who cfg s { s with reader := .submitting job true }
  | enqueue {job : Job} {wake : Option ℕ} {ws : List Worker}
      (hr : s.reader = .submitting job false) (hroom : s.queued + s.active < s.limit)
      (hw : signalWork s.workers wake = some ws) :
      Step who cfg s { s with
        reader := .reading, queue := s.queue ++ [job], queued := s.queued + 1, workers := ws }
  | parkDrain {goal : Goal} (hr : s.reader = .draining goal false)
      (hbusy : 0 < s.queued ∨ 0 < s.active) :
      Step who cfg s { s with reader := .draining goal true }
  | drained {job : Job} (hr : s.reader = .draining (.handle job) false) (hq : s.queued = 0)
      (ha : s.active = 0) : Step who cfg s (s.dispatch job)
  | stopping (hr : s.reader = .draining .stop false) (hq : s.queued = 0) (ha : s.active = 0) :
      Step who cfg s { s with
        reader := .joining, stop := true, workers := broadcastWork s.workers }
  | inline {job job' : Job} {x : Choice} {w : World} {es : List Event}
      (hr : s.reader = .inline job) (hj : job.step who s.world x = some (w, job', es)) :
      Step who cfg s { s with world := w, reader := .inline job', history := s.history ++ es }
  | silent {job : Job} (hr : s.reader = .inline job) (hj : job.program = .ret none) :
      Step who cfg s (s.finishInline job)
  | replied {job : Job} {reply : Frame} {started : ℕ} (hr : s.reader = .inline job)
      (hj : job.program = .ret (some reply)) :
      Step who cfg s { (s.finishInline job).poolStart job.frame started with
        replies := ((s.finishInline job).poolStart job.frame started).replies ++
          [(job.number, reply)] }
  | unsent {job : Job} {reply : Frame} {started : ℕ} (hr : s.reader = .inline job)
      (hj : job.program = .ret (some reply)) :
      Step who cfg s ((s.finishInline job).poolStart job.frame started).shutdown
  | join (hr : s.reader = .joining) (hall : s.workers.all Worker.hasExited = true) :
      Step who cfg s { s with reader := .ended }
  | take {i : ℕ} {job : Job} {rest : List Job} (hi : s.workers[i]? = some .awake)
      (hq : s.queue = job :: rest) :
      Step who cfg s { s with
        queue := rest, queued := s.queued - 1, active := s.active + 1
        workers := s.workers.set i (.running job)
        history := s.history ++ [.began job.number] }
  | idle {i : ℕ} (hi : s.workers[i]? = some .awake) (hq : s.queue = []) :
      Step who cfg s { s with workers := s.workers.set i (if s.stop then .exited else .parked) }
  | call {i : ℕ} {job job' : Job} {x : Choice} {w : World} {es : List Event}
      (hi : s.workers[i]? = some (.running job))
      (hj : job.step who s.world x = some (w, job', es)) :
      Step who cfg s { s with
        world := w, workers := s.workers.set i (.running job'), history := s.history ++ es }
  | finish {i : ℕ} {job : Job} (hi : s.workers[i]? = some (.running job)) :
      Step who cfg s { s with
        active := s.active - 1
        workers := s.workers.set i .awake
        reader := s.reader.jobEnded (s.queued = 0 ∧ s.active - 1 = 0)
        history := s.history ++ [.ended job.number] }
  | spurious {i : ℕ} (hi : s.workers[i]? = some .parked) :
      Step who cfg s { s with workers := s.workers.set i .awake }
  | wakeSubmit {job : Job} (hr : s.reader = .submitting job true) :
      Step who cfg s { s with reader := .submitting job false }
  | wakeDrain {goal : Goal} (hr : s.reader = .draining goal true) :
      Step who cfg s { s with reader := .draining goal false }

theorem next_step (h : next who cfg s a = some u) : Step who cfg s u := by
  cases a with
  | read f =>
    simp only [next] at h
    split at h
    · rename_i hr
      split at h
      · rename_i hw
        obtain rfl := Option.some.inj h
        exact .alone hr (by simpa using hw)
      rename_i hw
      have hw' : s.workers ≠ [] := by simpa using hw
      split at h
      · rename_i hp
        obtain rfl := Option.some.inj h
        exact .submit hr hw' hp
      · rename_i hp
        obtain rfl := Option.some.inj h
        exact .drain hr hw' (by simpa using hp)
    · cases h
  | endOfInput =>
    simp only [next] at h
    split at h
    · obtain rfl := Option.some.inj h
      exact .endOfInput ‹_›
    · cases h
  | noMemory =>
    simp only [next] at h
    split at h
    · obtain rfl := Option.some.inj h
      exact .noMemory ‹_›
    · cases h
  | proceed wake =>
    simp only [next] at h
    split at h
    · rename_i job hr
      split at h
      · obtain rfl := Option.some.inj h
        exact .parkSpace hr ‹_›
      · rename_i hroom
        obtain ⟨ws, hws, rfl⟩ := Option.map_eq_some_iff.mp h
        exact .enqueue hr (by omega) hws
    · rename_i goal hr
      split at h
      · obtain rfl := Option.some.inj h
        exact .parkDrain hr ‹_›
      rename_i hempty
      split at h
      · obtain rfl := Option.some.inj h
        exact .drained hr (by omega) (by omega)
      · obtain rfl := Option.some.inj h
        exact .stopping hr (by omega) (by omega)
    · cases h
  | inline x =>
    simp only [next] at h
    split at h
    · obtain ⟨⟨w, job', es⟩, hj, rfl⟩ := Option.map_eq_some_iff.mp h
      exact .inline ‹_› hj
    · cases h
  | inlineDone sent started =>
    simp only [next] at h
    split at h
    · rename_i job hr
      split at h
      · obtain rfl := Option.some.inj h
        exact .silent hr ‹_›
      · split at h
        · obtain rfl := Option.some.inj h
          exact .replied hr ‹_›
        · obtain rfl := Option.some.inj h
          exact .unsent hr ‹_›
      · cases h
    · cases h
  | join =>
    simp only [next] at h
    split at h
    · split at h
      · obtain rfl := Option.some.inj h
        exact .join ‹_› ‹_›
      · cases h
    · cases h
  | worker i =>
    simp only [next] at h
    split at h
    · split at h
      · obtain rfl := Option.some.inj h
        exact .take ‹_› ‹_›
      · obtain rfl := Option.some.inj h
        exact .idle ‹_› ‹_›
    · cases h
  | call i x =>
    simp only [next] at h
    split at h
    · obtain ⟨⟨w, job', es⟩, hj, rfl⟩ := Option.map_eq_some_iff.mp h
      exact .call ‹_› hj
    · cases h
  | finish i =>
    simp only [next] at h
    split at h
    · split at h
      · obtain rfl := Option.some.inj h
        exact .finish ‹_›
      · cases h
    · cases h
  | spurious i =>
    simp only [next] at h
    split at h
    · obtain rfl := Option.some.inj h
      exact .spurious ‹_›
    · cases h
  | spuriousReader =>
    simp only [next] at h
    split at h
    · obtain rfl := Option.some.inj h
      exact .wakeSubmit ‹_›
    · obtain rfl := Option.some.inj h
      exact .wakeDrain ‹_›
    · cases h

variable {ws : List Worker}

theorem countP_set_worker {i : ℕ} {w v : Worker} (p : Worker → Bool) (hi : ws[i]? = some w) :
    (ws.set i v).countP p + (p w).toNat = ws.countP p + (p v).toNat := by
  obtain ⟨hlt, hget⟩ := List.getElem?_eq_some_iff.mp hi
  have hpos : p w = true → 0 < ws.countP p := by
    intro hp
    exact List.countP_pos_iff.mpr ⟨w, List.mem_of_getElem? hi, hp⟩
  rw [List.countP_set hlt, hget]
  cases hw : p w with
  | false => cases p v <;> simp
  | true =>
    have := hpos hw
    cases p v <;> simp only [Bool.toNat_true, Bool.toNat_false, if_true] <;> simp <;> omega

theorem signalWork_cases {vs : List Worker} {wake : Option ℕ} (h : signalWork ws wake = some vs) :
    (∃ i, ws[i]? = some .parked ∧ vs = ws.set i .awake) ∨
      (ws.countP Worker.isParked = 0 ∧ vs = ws) := by
  cases wake with
  | some i =>
    simp only [signalWork] at h
    split at h
    · exact .inl ⟨i, ‹_›, (Option.some.inj h).symm⟩
    · cases h
  | none =>
    simp only [signalWork] at h
    split at h
    · exact .inr ⟨‹_›, (Option.some.inj h).symm⟩
    · cases h

/-- A property of workers that a wake does not change. -/
theorem countP_signalWork {vs : List Worker} {wake : Option ℕ} {p : Worker → Bool}
    (h : signalWork ws wake = some vs) (hp : p .awake = p .parked) : vs.countP p = ws.countP p := by
  obtain ⟨i, hi, rfl⟩ | ⟨-, rfl⟩ := signalWork_cases h
  · have := countP_set_worker (v := .awake) p hi
    rw [hp] at this
    omega
  · rfl

theorem countP_broadcastWork {p : Worker → Bool} (hp : p .awake = p .parked) :
    (broadcastWork ws).countP p = ws.countP p := by
  rw [broadcastWork, List.countP_map]
  refine List.countP_congr fun w _ => ?_
  cases w <;> simp [hp]

theorem countP_parked_broadcastWork (ws : List Worker) :
    (broadcastWork ws).countP Worker.isParked = 0 := by
  rw [broadcastWork, List.countP_map, List.countP_eq_zero]
  intro w _
  cases w <;> simp [Worker.isParked]

def Reader.isParked : Reader → Bool
  | .submitting _ parked => parked
  | .draining _ parked => parked
  | _ => false

def Reader.inLoop : Reader → Bool
  | .joining | .ended => false
  | _ => true

def Reader.isJoining : Reader → Bool
  | .joining => true
  | _ => false

def Reader.submits : Reader → Bool
  | .submitting _ _ => true
  | _ => false

theorem Reader.jobEnded_ne_submitting (idle : Bool) (r : Reader) (job : Job) :
    r.jobEnded idle ≠ .submitting job true := by
  cases r <;> cases idle <;> simp [jobEnded, signalSpace, broadcastDrain]

theorem Reader.jobEnded_ne_draining (r : Reader) (goal : Goal) :
    r.jobEnded true ≠ .draining goal true := by
  cases r <;> simp [jobEnded, signalSpace, broadcastDrain]

theorem isJoining_of_inLoop {r : Reader} (h : r.inLoop = true) : r.isJoining = false := by
  cases r <;> first | rfl | cases h

theorem Reader.joining_of_jobEnded {idle : Bool} {r : Reader} (h : r.jobEnded idle = .joining) :
    r = .joining := by
  cases r <;> cases idle <;> cases h <;> rfl

theorem Reader.inLoop_jobEnded (idle : Bool) (r : Reader) :
    (r.jobEnded idle).inLoop = r.inLoop := by
  cases r <;> cases idle <;> rfl

/-- The counters are what they say, and nobody sleeps through a change of the
condition it waits for. -/
structure Counters (s : State) : Prop where
  queued : s.queued = s.queue.length
  active : s.active = s.workers.countP Worker.isBusy
  bound : s.queued + s.active ≤ s.limit
  noPool : s.workers = [] → s.queue = [] ∧ s.reader.submits = false
  work : 0 < s.workers.countP Worker.isParked →
    s.queue.length ≤ s.workers.countP Worker.isAwake
  space : ∀ job, s.reader = .submitting job true → s.limit ≤ s.queued + s.active
  drain : ∀ goal, s.reader = .draining goal true → 0 < s.queued ∨ 0 < s.active
  stopped : s.stop = true → s.queue = [] ∧ s.workers.countP Worker.isParked = 0 ∧
    s.reader.inLoop = false
  exits : s.stop = false → s.workers.countP Worker.hasExited = 0
  joins : s.reader = .joining → s.stop = true
  room : s.workers ≠ [] → 0 < s.limit

theorem Counters.start (fs : FileSystem.Fs) : Counters (State.start fs) where
  queued := rfl
  active := rfl
  bound := le_rfl
  noPool := fun _ => ⟨rfl, rfl⟩
  work := fun h => absurd h (Nat.lt_irrefl 0)
  space := fun _ h => (nomatch h)
  drain := fun _ h => (nomatch h)
  stopped := fun h => (nomatch h)
  exits := fun _ => rfl
  joins := fun h => (nomatch h)
  room := fun h => absurd rfl h

theorem Counters.stop_eq_false (h : Counters s) (hl : s.reader.inLoop = true) :
    s.stop = false := by
  cases hs : s.stop with
  | false => rfl
  | true =>
    have := (h.stopped hs).2.2
    rw [hl] at this
    cases this

/-- The reader moves, and the queue and the workers stay as they are. -/
theorem Counters.move (h : Counters s) (hl : s.reader.inLoop = true) {r : Reader}
    (hpool : s.workers = [] → r.submits = false)
    (hspace : ∀ job, r = .submitting job true → s.limit ≤ s.queued + s.active)
    (hdrain : ∀ goal, r = .draining goal true → 0 < s.queued ∨ 0 < s.active)
    (hjoin : r.isJoining = false) (w : World) (fs : List Frame) (reps : List (ℕ × Frame))
    (hist : List Event) :
    Counters { s with
      world := w, frames := fs, reader := r, replies := reps, history := hist } where
  queued := h.queued
  active := h.active
  bound := h.bound
  noPool := fun hw => ⟨(h.noPool hw).1, hpool hw⟩
  work := h.work
  space := hspace
  drain := hdrain
  stopped := fun hs => absurd hs (by simp [h.stop_eq_false hl])
  exits := h.exits
  joins := by
    intro hj
    rw [show r = .joining from hj] at hjoin
    cases hjoin
  room := h.room

theorem Counters.moveAwake (h : Counters s) (hl : s.reader.inLoop = true) {r : Reader}
    (hpool : s.workers = [] → r.submits = false) (hr : r.isParked = false)
    (hjoin : r.isJoining = false) (w : World) (fs : List Frame) (reps : List (ℕ × Frame))
    (hist : List Event) :
    Counters { s with
      world := w, frames := fs, reader := r, replies := reps, history := hist } := by
  refine h.move hl hpool ?_ ?_ hjoin w fs reps hist
  · intro job hrj
    rw [hrj] at hr
    cases hr
  · intro goal hrg
    rw [hrg] at hr
    cases hr

theorem Counters.shutdown (h : Counters s) (hl : s.reader.inLoop = true) (hist : List Event) :
    Counters (State.shutdown { s with history := hist }) := by
  refine h.moveAwake hl ?_ ?_ ?_ s.world s.frames s.replies hist
  · intro hw
    simp [hw, Reader.submits]
  · split <;> rfl
  · split <;> rfl

theorem Counters.dispatch (h : Counters s) (hl : s.reader.inLoop = true)
    (fs : List Frame) (job : Job) : Counters (State.dispatch { s with frames := fs } job) := by
  unfold State.dispatch
  split
  · have h' : Counters { s with frames := fs } :=
      h.move hl (fun hw => (h.noPool hw).2) h.space h.drain (isJoining_of_inLoop hl)
        s.world fs s.replies s.history
    exact h'.shutdown hl _
  · exact h.moveAwake hl (fun _ => rfl) rfl rfl _ _ _ _

theorem Counters.finishInline (h : Counters s) {job : Job} (hr : s.reader = .inline job) :
    Counters (s.finishInline job) := by
  exact h.moveAwake (by rw [hr]; rfl) (fun _ => rfl) rfl rfl _ _ _ _

/-- `pool_start` finds an empty queue. -/
theorem Counters.poolStart (h : Counters s) (hr : s.reader = .reading) (f : Frame)
    (started : ℕ) : Counters (s.poolStart f started) := by
  unfold State.poolStart
  split
  · rename_i hstart
    have hw : s.workers = [] := by simpa using hstart.2.1
    have hq : s.queue = [] := (h.noPool hw).1
    have hactive : s.active = 0 := by simpa [hw] using h.active
    have hqueued : s.queued = 0 := by simpa [hq] using h.queued
    have hstop : s.stop = false := h.stop_eq_false (by rw [hr]; rfl)
    constructor
    · exact h.queued
    · show s.active = (List.replicate _ Worker.awake).countP Worker.isBusy
      rw [hactive, List.countP_replicate]
      rfl
    · show s.queued + s.active ≤ _
      omega
    · exact fun _ => ⟨hq, by rw [hr]; rfl⟩
    · intro hpark
      rw [show (List.replicate _ Worker.awake).countP Worker.isParked = 0 by
        rw [List.countP_replicate]; rfl] at hpark
      omega
    · intro job hrj
      rw [show s.reader = _ from hrj] at hr
      cases hr
    · intro goal hrg
      rw [show s.reader = _ from hrg] at hr
      cases hr
    · intro hs
      rw [show s.stop = true from hs] at hstop
      cases hstop
    · intro _
      show (List.replicate _ Worker.awake).countP Worker.hasExited = 0
      rw [List.countP_replicate]
      rfl
    · intro hj
      rw [show s.reader = _ from hj] at hr
      cases hr
    · intro _
      show 0 < helloThreads f * 4
      omega
  · exact h

/-- A worker that neither starts nor ends a job, while the queue stays. -/
theorem Counters.setWorker (h : Counters s) {i : ℕ} {w v : Worker}
    (hi : s.workers[i]? = some w) (hbusy : v.isBusy = w.isBusy)
    (hwork : 0 < (s.workers.set i v).countP Worker.isParked →
      s.queue.length ≤ (s.workers.set i v).countP Worker.isAwake)
    (hstop : s.stop = true → v.isParked = false)
    (hexit : s.stop = false → v.hasExited = false) (wd : World) (hist : List Event) :
    Counters { s with world := wd, workers := s.workers.set i v, history := hist } where
  queued := h.queued
  active := by
    have hset := countP_set_worker (v := v) Worker.isBusy hi
    rw [hbusy] at hset
    show s.active = (s.workers.set i v).countP Worker.isBusy
    have := h.active
    omega
  bound := h.bound
  noPool := by
    intro hw
    exact h.noPool ((List.set_eq_nil_iff _ _).mp hw)
  work := hwork
  space := h.space
  drain := h.drain
  stopped := by
    intro hs
    obtain ⟨hq, hp, hr⟩ := h.stopped hs
    refine ⟨hq, ?_, hr⟩
    have hset := countP_set_worker (v := v) Worker.isParked hi
    rw [hstop hs] at hset
    simp only [Bool.toNat_false] at hset
    show (s.workers.set i v).countP Worker.isParked = 0
    omega
  exits := by
    intro hs
    have hset := countP_set_worker (v := v) Worker.hasExited hi
    rw [hexit hs] at hset
    have := h.exits hs
    simp only [Bool.toNat_false] at hset
    show (s.workers.set i v).countP Worker.hasExited = 0
    omega
  joins := h.joins
  room := by
    intro hne
    refine h.room fun hnil => hne ?_
    show s.workers.set i v = []
    rw [hnil]
    rfl

/-- A new job and its wake. When a worker stays parked there was one to wake, so
there are as many awake workers as jobs. -/
theorem Counters.enqueue (h : Counters s) {job : Job} {wake : Option ℕ} {ws : List Worker}
    (hr : s.reader = .submitting job false) (hroom : s.queued + s.active < s.limit)
    (hw : signalWork s.workers wake = some ws) :
    Counters { s with
      reader := .reading, queue := s.queue ++ [job], queued := s.queued + 1, workers := ws } where
  queued := by simp [h.queued]
  active := h.active.trans (countP_signalWork hw rfl).symm
  bound := by
    show s.queued + 1 + s.active ≤ s.limit
    omega
  noPool := by
    intro hnil
    have hws : s.workers = [] := by
      obtain ⟨i, hi, rfl⟩ | ⟨-, rfl⟩ := signalWork_cases hw
      · exact (List.set_eq_nil_iff _ _).mp hnil
      · exact hnil
    have hsub := (h.noPool hws).2
    rw [hr] at hsub
    cases hsub
  work := by
    intro hpark
    show (s.queue ++ [job]).length ≤ ws.countP Worker.isAwake
    rw [List.length_append, List.length_singleton]
    obtain ⟨i, hi, rfl⟩ | ⟨hnone, rfl⟩ := signalWork_cases hw
    · have hp := countP_set_worker (v := .awake) Worker.isParked hi
      have ha := countP_set_worker (v := .awake) Worker.isAwake hi
      simp only [Worker.isParked, Worker.isAwake, Bool.toNat_true, Bool.toNat_false] at hp ha
      have := h.work (by omega)
      omega
    · exact absurd hpark (by simp [hnone])
  space := fun _ hj => (nomatch hj)
  drain := fun _ hj => (nomatch hj)
  stopped := by
    intro hs
    have hstop := h.stop_eq_false (by rw [hr]; rfl)
    rw [show s.stop = true from hs] at hstop
    cases hstop
  exits := fun hs => (countP_signalWork hw rfl).trans (h.exits hs)
  joins := fun hj => (nomatch hj)
  room := fun _ => Nat.lt_of_le_of_lt (Nat.zero_le _) hroom

theorem Counters.stopping (h : Counters s) (hq : s.queued = 0) :
    Counters { s with reader := .joining, stop := true, workers := broadcastWork s.workers } where
  queued := h.queued
  active := h.active.trans (countP_broadcastWork rfl).symm
  bound := h.bound
  noPool := by
    intro hnil
    exact ⟨(h.noPool (List.map_eq_nil_iff.mp hnil)).1, rfl⟩
  work := by
    intro hpark
    exact absurd (show 0 < (broadcastWork s.workers).countP Worker.isParked from hpark)
      (by simp [countP_parked_broadcastWork])
  space := fun _ hj => (nomatch hj)
  drain := fun _ hj => (nomatch hj)
  stopped := by
    intro _
    refine ⟨?_, countP_parked_broadcastWork _, rfl⟩
    exact List.length_eq_zero_iff.mp (h.queued.symm.trans hq)
  exits := fun hs => (nomatch hs)
  joins := fun _ => rfl
  room := fun hne => h.room fun hnil => hne (by rw [hnil]; rfl)

theorem Counters.take (h : Counters s) {i : ℕ} {job : Job} {rest : List Job}
    (hi : s.workers[i]? = some .awake) (hq : s.queue = job :: rest) :
    Counters { s with
      queue := rest, queued := s.queued - 1, active := s.active + 1
      workers := s.workers.set i (.running job)
      history := s.history ++ [.began job.number] } := by
  have hqueued := h.queued
  rw [hq, List.length_cons] at hqueued
  have hb := countP_set_worker (v := .running job) Worker.isBusy hi
  have hp := countP_set_worker (v := .running job) Worker.isParked hi
  have ha := countP_set_worker (v := .running job) Worker.isAwake hi
  simp only [Worker.isBusy, Worker.isParked, Worker.isAwake, Bool.toNat_true,
    Bool.toNat_false] at hb hp ha
  have hactive := h.active
  have hbound := h.bound
  have hne : s.workers ≠ [] := by
    intro hnil
    rw [hnil] at hi
    cases hi
  constructor
  · show s.queued - 1 = rest.length
    omega
  · show s.active + 1 = (s.workers.set i (.running job)).countP Worker.isBusy
    omega
  · show s.queued - 1 + (s.active + 1) ≤ s.limit
    omega
  · intro hnil
    exact absurd ((List.set_eq_nil_iff _ _).mp hnil) hne
  · intro hpark
    have hpark' : 0 < (s.workers.set i (.running job)).countP Worker.isParked := hpark
    have hwork := h.work (by omega)
    rw [hq, List.length_cons] at hwork
    show rest.length ≤ (s.workers.set i (.running job)).countP Worker.isAwake
    omega
  · intro j hj
    have := h.space j hj
    show s.limit ≤ s.queued - 1 + (s.active + 1)
    omega
  · exact fun _ _ => .inr (Nat.succ_pos _)
  · intro hs
    have := (h.stopped hs).1
    rw [hq] at this
    cases this
  · intro hs
    have hx := countP_set_worker (v := .running job) Worker.hasExited hi
    exact (Nat.add_right_cancel hx).trans (h.exits hs)
  · exact h.joins
  · exact fun _ => h.room hne

theorem Counters.idle (h : Counters s) {i : ℕ} (hi : s.workers[i]? = some .awake)
    (hq : s.queue = []) :
    Counters { s with workers := s.workers.set i (if s.stop then .exited else .parked) } := by
  apply h.setWorker hi
  · split <;> rfl
  · intro _
    rw [hq]
    exact Nat.zero_le _
  · intro hs
    rw [hs]
    rfl
  · intro hs
    rw [hs]
    rfl

/-- The end of a job wakes the reader when it waits for room, and when it waits
for the last job. -/
theorem Counters.finish (h : Counters s) {i : ℕ} {job : Job}
    (hi : s.workers[i]? = some (.running job)) :
    Counters { s with
      active := s.active - 1
      workers := s.workers.set i .awake
      reader := s.reader.jobEnded (s.queued = 0 ∧ s.active - 1 = 0)
      history := s.history ++ [.ended job.number] } := by
  have hb := countP_set_worker (v := .awake) Worker.isBusy hi
  have hp := countP_set_worker (v := .awake) Worker.isParked hi
  have ha := countP_set_worker (v := .awake) Worker.isAwake hi
  simp only [Worker.isBusy, Worker.isParked, Worker.isAwake, Bool.toNat_true,
    Bool.toNat_false] at hb hp ha
  have hactive := h.active
  have hbound := h.bound
  have hne : s.workers ≠ [] := by
    intro hnil
    rw [hnil] at hi
    cases hi
  constructor
  · exact h.queued
  · show s.active - 1 = (s.workers.set i .awake).countP Worker.isBusy
    omega
  · show s.queued + (s.active - 1) ≤ s.limit
    omega
  · intro hnil
    exact absurd ((List.set_eq_nil_iff _ _).mp hnil) hne
  · intro hpark
    have hpark' : 0 < (s.workers.set i .awake).countP Worker.isParked := hpark
    have hwork := h.work (by omega)
    show s.queue.length ≤ (s.workers.set i .awake).countP Worker.isAwake
    omega
  · exact fun j hj => absurd hj (Reader.jobEnded_ne_submitting _ _ j)
  · intro goal hg
    show 0 < s.queued ∨ 0 < s.active - 1
    by_contra hzero
    refine Reader.jobEnded_ne_draining s.reader goal ?_
    rw [← hg, decide_eq_true (show s.queued = 0 ∧ s.active - 1 = 0 by omega)]
  · intro hs
    obtain ⟨hq, hpark, hl⟩ := h.stopped hs
    refine ⟨hq, ?_, ?_⟩
    · show (s.workers.set i .awake).countP Worker.isParked = 0
      omega
    · exact (Reader.inLoop_jobEnded _ _).trans hl
  · intro hs
    have hx := countP_set_worker (v := .awake) Worker.hasExited hi
    exact (Nat.add_right_cancel hx).trans (h.exits hs)
  · exact fun hj => h.joins (Reader.joining_of_jobEnded hj)
  · exact fun _ => h.room hne

theorem Counters.step (h : Counters s) (hs : Step who cfg s u) : Counters u := by
  cases hs with
  | alone hr hw => exact h.dispatch (by rw [hr]; rfl) _ _
  | submit hr hw hp =>
    exact h.moveAwake (by rw [hr]; rfl) (fun hnil => absurd hnil hw) rfl rfl _ _ _ _
  | drain hr hw hp =>
    exact h.moveAwake (by rw [hr]; rfl) (fun _ => rfl) rfl rfl _ _ _ _
  | endOfInput hr => exact h.shutdown (by rw [hr]; rfl) _
  | noMemory hr => exact h.dispatch (by rw [hr]; rfl) _ _
  | @parkSpace job hr hfull =>
    refine h.move (r := .submitting job true) (by rw [hr]; rfl) ?_ (fun _ _ => hfull)
      (fun _ hj => (nomatch hj)) rfl _ _ _ _
    intro hw
    have := (h.noPool hw).2
    rw [hr] at this
    cases this
  | enqueue hr hroom hw => exact h.enqueue hr hroom hw
  | @parkDrain goal hr hbusy =>
    exact h.move (r := .draining goal true) (by rw [hr]; rfl) (fun _ => rfl)
      (fun _ hj => (nomatch hj)) (fun _ _ => hbusy) rfl _ _ _ _
  | drained hr hq ha => exact h.dispatch (by rw [hr]; rfl) _ _
  | stopping hr hq ha => exact h.stopping hq
  | inline hr hj =>
    exact h.moveAwake (by rw [hr]; rfl) (fun _ => rfl) rfl rfl _ _ _ _
  | silent hr hj => exact h.finishInline hr
  | @replied job reply started hr hj =>
    have h' := (h.finishInline hr).poolStart rfl job.frame started
    have hl : ((s.finishInline job).poolStart job.frame started).reader = .reading := by
      unfold State.poolStart
      split <;> rfl
    exact h'.move (by rw [hl]; rfl) (fun hw => (h'.noPool hw).2) h'.space h'.drain
      (by rw [hl]; rfl) _ _ _ _
  | @unsent job reply started hr hj =>
    have h' := (h.finishInline hr).poolStart rfl job.frame started
    have hl : ((s.finishInline job).poolStart job.frame started).reader = .reading := by
      unfold State.poolStart
      split <;> rfl
    exact h'.shutdown (by rw [hl]; rfl) _
  | join hr hall =>
    exact ⟨h.queued, h.active, h.bound, fun hw => ⟨(h.noPool hw).1, rfl⟩, h.work,
      fun _ hj => (nomatch hj), fun _ hj => (nomatch hj),
      fun hs => ⟨(h.stopped hs).1, (h.stopped hs).2.1, rfl⟩, h.exits, fun hj => (nomatch hj),
      h.room⟩
  | take hi hq => exact h.take hi hq
  | idle hi hq => exact h.idle hi hq
  | @call i job job' x w es hi hj =>
    have hp := countP_set_worker (v := .running job') Worker.isParked hi
    have ha := countP_set_worker (v := .running job') Worker.isAwake hi
    simp only [Worker.isParked, Worker.isAwake, Bool.toNat_false] at hp ha
    refine h.setWorker (v := .running job') hi rfl ?_ (fun _ => rfl) (fun _ => rfl) _ _
    intro hpark
    have := h.work (by omega)
    omega
  | @spurious i hi =>
    have hp := countP_set_worker (v := .awake) Worker.isParked hi
    have ha := countP_set_worker (v := .awake) Worker.isAwake hi
    simp only [Worker.isParked, Worker.isAwake, Bool.toNat_true, Bool.toNat_false] at hp ha
    refine h.setWorker (v := .awake) hi rfl ?_ (fun _ => rfl) (fun _ => rfl) _ _
    intro hpark
    have := h.work (by omega)
    omega
  | finish hi => exact h.finish hi
  | wakeSubmit hr =>
    refine h.moveAwake (by rw [hr]; rfl) ?_ rfl rfl _ _ _ _
    intro hw
    have := (h.noPool hw).2
    rw [hr] at this
    cases this
  | wakeDrain hr =>
    exact h.moveAwake (by rw [hr]; rfl) (fun _ => rfl) rfl rfl _ _ _ _

/-- The frame in the reader's hands, before its handler has begun. -/
def Reader.waits (k : ℕ) : Reader → ℕ
  | .submitting job _ => (job.number == k).toNat
  | .draining (.handle job) _ => (job.number == k).toNat
  | _ => 0

def Reader.handles (k : ℕ) : Reader → ℕ
  | .inline job => (job.number == k).toNat
  | _ => 0

theorem Reader.waits_jobEnded (idle : Bool) (r : Reader) (k : ℕ) :
    (r.jobEnded idle).waits k = r.waits k := by
  cases r with
  | draining goal parked => cases goal <;> cases idle <;> rfl
  | _ => cases idle <;> rfl

theorem Reader.handles_jobEnded (idle : Bool) (r : Reader) (k : ℕ) :
    (r.jobEnded idle).handles k = r.handles k := by
  cases r <;> cases idle <;> rfl

/-- How many threads or queue entries hold frame `k` without having begun it. -/
def State.waiting (s : State) (k : ℕ) : ℕ :=
  s.reader.waits k + s.queue.countP fun job => job.number == k

/-- How many threads are in the handler of frame `k`. -/
def State.handling (s : State) (k : ℕ) : ℕ :=
  s.reader.handles k + s.workers.countP (Worker.runs k)

/-- Every frame that was read is in one place. -/
structure Accounted (s : State) : Prop where
  placed : ∀ k, s.waiting k + s.handling k + s.history.count (.ended k) =
    if k < s.frames.length then 1 else 0
  begun : ∀ k, s.history.count (.began k) = s.handling k + s.history.count (.ended k)

theorem Accounted.start (fs : FileSystem.Fs) : Accounted (State.start fs) where
  placed := by
    intro k
    simp [State.start, State.waiting, State.handling, Reader.waits, Reader.handles]
  begun := by
    intro k
    simp [State.start, State.handling, Reader.handles]

theorem waits_shutdown (s : State) (k : ℕ) : s.shutdown.reader.waits k = 0 := by
  unfold State.shutdown
  dsimp only
  split <;> rfl

theorem handles_shutdown (s : State) (k : ℕ) : s.shutdown.reader.handles k = 0 := by
  unfold State.shutdown
  dsimp only
  split <;> rfl

/-- A reader without a frame leaves the loop. -/
theorem Accounted.shutdown (h : Accounted s) (hw : ∀ k, s.reader.waits k = 0)
    (hh : ∀ k, s.reader.handles k = 0) : Accounted s.shutdown where
  placed := by
    intro k
    have := h.placed k
    rw [State.waiting, State.handling, hw, hh] at this
    rw [State.waiting, State.handling, waits_shutdown, handles_shutdown]
    exact this
  begun := by
    intro k
    have := h.begun k
    rw [State.handling, hh] at this
    rw [State.handling, handles_shutdown]
    exact this

section Counts
variable (h : List Event) (j k : ℕ)

theorem began_append_began :
    (h ++ [Event.began j]).count (.began k) = h.count (.began k) + (j == k).toNat := by
  by_cases hjk : j = k <;> simp [hjk]

theorem ended_append_began :
    (h ++ [Event.began j]).count (.ended k) = h.count (.ended k) := by
  simp

theorem began_append_ended :
    (h ++ [Event.ended j]).count (.began k) = h.count (.began k) := by
  simp

theorem ended_append_ended :
    (h ++ [Event.ended j]).count (.ended k) = h.count (.ended k) + (j == k).toNat := by
  by_cases hjk : j = k <;> simp [hjk]

end Counts

/-- What one call of a handler records. -/
theorem Job.step_cases {job job' : Job} {x : Choice} {w v : World} {es : List Event}
    (h : job.step who w x = some (v, job', es)) :
    ∃ c k r, job.program = .call c k ∧ answer who w x c = some (r, v) ∧
      job' = { job with program := k r } ∧
      es = ((entryOf c).map (Event.logged job.number)).toList := by
  unfold Job.step at h
  split at h
  · cases h
  · rename_i c k hp
    obtain ⟨⟨r, u⟩, hr, heq⟩ := Option.map_eq_some_iff.mp h
    obtain ⟨rfl, hrest⟩ := Prod.mk.inj heq
    obtain ⟨rfl, rfl⟩ := Prod.mk.inj hrest
    exact ⟨c, k, r, hp, hr, rfl, rfl⟩

theorem Job.count_step {job job' : Job} {x : Choice} {w v : World} {es : List Event}
    (h : job.step who w x = some (v, job', es)) (hist : List Event) (k : ℕ) :
    (hist ++ es).count (.began k) = hist.count (.began k) ∧
      (hist ++ es).count (.ended k) = hist.count (.ended k) ∧ job'.number = job.number := by
  obtain ⟨c, m, r, -, -, rfl, rfl⟩ := Job.step_cases h
  cases entryOf c <;> simp

/-- The handler of the frame in the reader's hands begins. -/
theorem Accounted.dispatch {job : Job} (h : Accounted s)
    (hw : ∀ k, s.reader.waits k = (job.number == k).toNat)
    (hh : ∀ k, s.reader.handles k = 0) : Accounted (s.dispatch job) := by
  have hplaced := h.placed
  have hbegun := h.begun
  simp only [State.waiting, State.handling, hw, hh] at hplaced hbegun
  unfold State.dispatch
  split
  · have hev : s.history ++ [Event.began job.number, .ended job.number] =
        s.history ++ [.began job.number] ++ [.ended job.number] := by
      simp
    constructor
    · intro k
      rw [State.waiting, State.handling, waits_shutdown, handles_shutdown]
      show 0 + s.queue.countP _ + (0 + s.workers.countP _) + List.count _ (s.history ++ _) = _
      rw [hev, ended_append_ended, ended_append_began]
      have := hplaced k
      show _ = if k < s.frames.length then 1 else 0
      omega
    · intro k
      rw [State.handling, handles_shutdown]
      show List.count _ (s.history ++ _) = 0 + s.workers.countP _ + List.count _ (s.history ++ _)
      rw [hev, ended_append_ended, ended_append_began, began_append_ended, began_append_began]
      have := hbegun k
      omega
  · constructor
    · intro k
      simp only [State.waiting, State.handling, Reader.waits, Reader.handles, ended_append_began]
      have := hplaced k
      omega
    · intro k
      simp only [State.handling, Reader.handles, began_append_began, ended_append_began]
      have := hbegun k
      omega

theorem Accounted.finishInline {job : Job} (h : Accounted s) (hr : s.reader = .inline job) :
    Accounted (s.finishInline job) := by
  have hplaced := h.placed
  have hbegun := h.begun
  simp only [State.waiting, State.handling, hr, Reader.waits, Reader.handles] at hplaced hbegun
  constructor
  · intro k
    refine Eq.trans ?_ (hplaced k)
    simp only [State.finishInline, State.waiting, State.handling, Reader.waits, Reader.handles,
      ended_append_ended]
    omega
  · intro k
    simp only [State.finishInline, State.handling, Reader.handles, began_append_ended,
      ended_append_ended]
    have := hbegun k
    omega

/-- New threads have no frame. -/
theorem Accounted.poolStart (h : Accounted s) (f : Frame) (started : ℕ) :
    Accounted (s.poolStart f started) := by
  unfold State.poolStart
  split
  · rename_i hstart
    have hw : s.workers = [] := by simpa using hstart.2.1
    have hplaced := h.placed
    have hbegun := h.begun
    simp only [State.waiting, State.handling, hw, List.countP_nil] at hplaced hbegun
    constructor
    · intro k
      simp only [State.waiting, State.handling, List.countP_replicate, Worker.runs]
      exact hplaced k
    · intro k
      simp only [State.handling, List.countP_replicate, Worker.runs]
      exact hbegun k
  · exact h

/-- `dispatch` does not look at what the reader was doing. -/
theorem dispatch_reader (s : State) (r : Reader) (job : Job) :
    State.dispatch { s with reader := r } job = s.dispatch job := by
  unfold State.dispatch
  split <;> rfl

theorem Accounted.readFrame (h : Accounted s) (hr : s.reader = .reading) {f : Frame} {r : Reader}
    (hw : ∀ k, r.waits k = (s.frames.length == k).toNat) (hh : ∀ k, r.handles k = 0) :
    Accounted { s with frames := s.frames ++ [f], reader := r } := by
  have hplaced := h.placed
  have hbegun := h.begun
  simp only [State.waiting, State.handling, hr, Reader.waits, Reader.handles] at hplaced hbegun
  constructor
  · intro k
    have hk := hplaced k
    simp only [State.waiting, State.handling, hw, hh, List.length_append, List.length_singleton]
    by_cases heq : s.frames.length = k
    · rw [if_neg (by omega)] at hk
      rw [if_pos (by omega)]
      simp only [heq, beq_self_eq_true, Bool.toNat_true]
      omega
    · have hlt : k < s.frames.length + 1 ↔ k < s.frames.length := by omega
      simp only [beq_eq_false_iff_ne.mpr heq, Bool.toNat_false, hlt]
      omega
  · intro k
    simp only [State.handling, hh]
    exact hbegun k

/-- The reader keeps its frame, and the workers keep theirs. -/
theorem Accounted.keep (h : Accounted s) (hf : u.frames = s.frames) (hq : u.queue = s.queue)
    (hw : ∀ k, u.reader.waits k = s.reader.waits k)
    (hh : ∀ k, u.reader.handles k = s.reader.handles k)
    (hr : ∀ k, u.workers.countP (Worker.runs k) = s.workers.countP (Worker.runs k))
    (hb : ∀ k, u.history.count (.began k) = s.history.count (.began k))
    (he : ∀ k, u.history.count (.ended k) = s.history.count (.ended k)) : Accounted u where
  placed := by
    intro k
    rw [State.waiting, State.handling, hf, hq, hw, hh, hr, he]
    exact h.placed k
  begun := by
    intro k
    rw [State.handling, hh, hr, hb, he]
    exact h.begun k

theorem Accounted.enqueue (h : Accounted s) {job : Job} {wake : Option ℕ} {ws : List Worker}
    (hr : s.reader = .submitting job false) (hw : signalWork s.workers wake = some ws) :
    Accounted { s with
      reader := .reading, queue := s.queue ++ [job], queued := s.queued + 1, workers := ws } := by
  have hplaced := h.placed
  have hbegun := h.begun
  simp only [State.waiting, State.handling, hr, Reader.waits, Reader.handles] at hplaced hbegun
  constructor
  · intro k
    refine Eq.trans ?_ (hplaced k)
    simp only [State.waiting, State.handling, Reader.waits, Reader.handles, List.countP_append,
      countP_signalWork (p := Worker.runs k) hw rfl, List.countP_singleton]
    cases job.number == k with
    | false => simp
    | true =>
      simp
      omega
  · intro k
    simp only [State.handling, Reader.handles, countP_signalWork (p := Worker.runs k) hw rfl]
    exact hbegun k

theorem Accounted.take (h : Accounted s) {i : ℕ} {job : Job} {rest : List Job}
    (hi : s.workers[i]? = some .awake) (hq : s.queue = job :: rest) :
    Accounted { s with
      queue := rest, queued := s.queued - 1, active := s.active + 1
      workers := s.workers.set i (.running job)
      history := s.history ++ [.began job.number] } := by
  have hplaced := h.placed
  have hbegun := h.begun
  have hset : ∀ k, (s.workers.set i (.running job)).countP (Worker.runs k) =
      s.workers.countP (Worker.runs k) + (job.number == k).toNat := by
    intro k
    exact countP_set_worker (v := .running job) (Worker.runs k) hi
  simp only [State.waiting, State.handling, hq, List.countP_cons] at hplaced hbegun
  constructor
  · intro k
    refine Eq.trans ?_ (hplaced k)
    simp only [State.waiting, State.handling, hset, ended_append_began]
    cases job.number == k with
    | false => simp
    | true =>
      simp
      omega
  · intro k
    simp only [State.handling, hset, began_append_began, ended_append_began]
    have := hbegun k
    omega

theorem Accounted.finish (h : Accounted s) {i : ℕ} {job : Job} (idle : Bool)
    (hi : s.workers[i]? = some (.running job)) :
    Accounted { s with
      active := s.active - 1
      workers := s.workers.set i .awake
      reader := s.reader.jobEnded idle
      history := s.history ++ [.ended job.number] } := by
  have hplaced := h.placed
  have hbegun := h.begun
  have hset : ∀ k, (s.workers.set i .awake).countP (Worker.runs k) + (job.number == k).toNat =
      s.workers.countP (Worker.runs k) := by
    intro k
    exact countP_set_worker (v := .awake) (Worker.runs k) hi
  simp only [State.waiting, State.handling] at hplaced hbegun
  constructor
  · intro k
    refine Eq.trans ?_ (hplaced k)
    simp only [State.waiting, State.handling, Reader.waits_jobEnded, Reader.handles_jobEnded,
      ended_append_ended]
    have := hset k
    omega
  · intro k
    simp only [State.handling, Reader.handles_jobEnded, began_append_ended, ended_append_ended]
    have := hbegun k
    have := hset k
    omega

theorem Accounted.step (h : Accounted s) (hs : Step who cfg s u) : Accounted u := by
  cases hs with
  | @alone f hr hw =>
    rw [← dispatch_reader _ (.submitting ⟨s.frames.length, f, handle cfg f⟩ false)]
    exact (h.readFrame hr (fun _ => rfl) fun _ => rfl).dispatch (fun _ => rfl) fun _ => rfl
  | submit hr hw hp => exact h.readFrame hr (fun _ => rfl) fun _ => rfl
  | drain hr hw hp => exact h.readFrame hr (fun _ => rfl) fun _ => rfl
  | endOfInput hr => exact h.shutdown (fun _ => by rw [hr]; rfl) fun _ => by rw [hr]; rfl
  | noMemory hr => exact h.dispatch (fun _ => by rw [hr]; rfl) fun _ => by rw [hr]; rfl
  | parkSpace hr hfull =>
    exact h.keep rfl rfl (fun _ => by rw [hr]; rfl) (fun _ => by rw [hr]; rfl) (fun _ => rfl)
      (fun _ => rfl) fun _ => rfl
  | enqueue hr hroom hw => exact h.enqueue hr hw
  | @parkDrain goal hr hbusy =>
    refine h.keep rfl rfl (fun _ => ?_) (fun _ => by rw [hr]; rfl) (fun _ => rfl)
      (fun _ => rfl) fun _ => rfl
    rw [hr]
    cases goal <;> rfl
  | drained hr hq ha => exact h.dispatch (fun _ => by rw [hr]; rfl) fun _ => by rw [hr]; rfl
  | stopping hr hq ha =>
    exact h.keep rfl rfl (fun _ => by rw [hr]; rfl) (fun _ => by rw [hr]; rfl)
      (fun _ => countP_broadcastWork rfl) (fun _ => rfl) fun _ => rfl
  | inline hr hj =>
    have hc := Job.count_step hj s.history
    refine h.keep rfl rfl (fun _ => by rw [hr]; rfl) (fun k => ?_) (fun _ => rfl)
      (fun k => (hc k).1) fun k => (hc k).2.1
    rw [hr]
    simp only [Reader.handles, (hc k).2.2]
  | silent hr hj => exact h.finishInline hr
  | @replied job reply started hr hj =>
    have h' := (h.finishInline hr).poolStart job.frame started
    exact ⟨h'.placed, h'.begun⟩
  | @unsent job reply started hr hj =>
    refine ((h.finishInline hr).poolStart job.frame started).shutdown (fun k => ?_) fun k => ?_
    · unfold State.poolStart
      split <;> rfl
    · unfold State.poolStart
      split <;> rfl
  | join hr hall =>
    exact h.keep rfl rfl (fun _ => by rw [hr]; rfl) (fun _ => by rw [hr]; rfl) (fun _ => rfl)
      (fun _ => rfl) fun _ => rfl
  | take hi hq => exact h.take hi hq
  | idle hi hq =>
    refine h.keep rfl rfl (fun _ => rfl) (fun _ => rfl) (fun k => ?_) (fun _ => rfl) fun _ => rfl
    have hset := countP_set_worker (v := if s.stop then .exited else .parked) (Worker.runs k) hi
    split at hset <;> simpa [Worker.runs, *] using hset
  | @call i job job' x w es hi hj =>
    have hc := Job.count_step hj s.history
    refine h.keep rfl rfl (fun _ => rfl) (fun _ => rfl) (fun k => ?_) (fun k => (hc k).1)
      fun k => (hc k).2.1
    have hset := countP_set_worker (v := .running job') (Worker.runs k) hi
    simp only [Worker.runs, (hc k).2.2] at hset
    exact Nat.add_right_cancel hset
  | finish hi => exact h.finish _ hi
  | spurious hi =>
    refine h.keep rfl rfl (fun _ => rfl) (fun _ => rfl) (fun k => ?_) (fun _ => rfl) fun _ => rfl
    exact countP_set_worker (v := .awake) (Worker.runs k) hi
  | wakeSubmit hr =>
    exact h.keep rfl rfl (fun _ => by rw [hr]; rfl) (fun _ => by rw [hr]; rfl) (fun _ => rfl)
      (fun _ => rfl) fun _ => rfl
  | @wakeDrain goal hr =>
    refine h.keep rfl rfl (fun _ => ?_) (fun _ => by rw [hr]; rfl) (fun _ => rfl)
      (fun _ => rfl) fun _ => rfl
    rw [hr]
    cases goal <;> rfl

/-- Steps that need no failure and no wake without a reason. -/
def Action.regular : Action → Bool
  | .noMemory | .spurious _ | .spuriousReader => false
  | _ => true

theorem exists_signalWork (ws : List Worker) : ∃ wake vs, signalWork ws wake = some vs := by
  by_cases hp : ws.countP Worker.isParked = 0
  · exact ⟨none, ws, by simp [signalWork, hp]⟩
  · obtain ⟨w, hmem, hw⟩ := List.countP_pos_iff.mp (Nat.pos_of_ne_zero hp)
    obtain ⟨i, hi⟩ := List.mem_iff_getElem?.mp hmem
    cases w with
    | parked => exact ⟨some i, ws.set i .awake, by simp [signalWork, hi]⟩
    | _ => cases hw

/-- With jobs in the queue and no handler in progress, a worker is awake. -/
theorem Counters.exists_awake (h : Counters s) (hq : s.queue ≠ []) (hz : s.active = 0) :
    ∃ i : ℕ, s.workers[i]? = some .awake := by
  have hpos : 0 < s.workers.countP Worker.isAwake := by
    by_cases hp : 0 < s.workers.countP Worker.isParked
    · have hwork := h.work hp
      have hlen := List.length_pos_iff.mpr hq
      omega
    · -- nobody is parked, busy or gone
      have hstop : s.stop = false := by
        cases hs : s.stop with
        | false => rfl
        | true => exact absurd (h.stopped hs).1 hq
      have hexit := h.exits hstop
      have hbusy : s.workers.countP Worker.isBusy = 0 := h.active.symm.trans hz
      obtain ⟨w, hmem⟩ := List.exists_mem_of_ne_nil s.workers fun hnil => hq (h.noPool hnil).1
      refine List.countP_pos_iff.mpr ⟨w, hmem, ?_⟩
      have hb := List.countP_eq_zero.mp hbusy w hmem
      have he := List.countP_eq_zero.mp hexit w hmem
      have hk := List.countP_eq_zero.mp (Nat.eq_zero_of_not_pos hp) w hmem
      cases w with
      | awake => rfl
      | parked => exact absurd rfl hk
      | running job => exact absurd rfl hb
      | exited => exact absurd rfl he
  obtain ⟨w, hmem, hw⟩ := List.countP_pos_iff.mp hpos
  obtain ⟨i, hi⟩ := List.mem_iff_getElem?.mp hmem
  cases w with
  | awake => exact ⟨i, hi⟩
  | _ => cases hw

variable (who cfg) in
theorem next_worker_of_awake {i : ℕ} (hi : s.workers[i]? = some .awake) :
    ∃ u, next who cfg s (.worker i) = some u := by
  simp only [next, hi]
  split <;> exact ⟨_, rfl⟩

theorem next_worker_of_queue (h : Counters s) (hq : 0 < s.queued) (hz : s.active = 0) :
    ∃ a u, a.regular = true ∧ next who cfg s a = some u := by
  have hne : s.queue ≠ [] := by
    rw [h.queued] at hq
    exact List.length_pos_iff.mp hq
  obtain ⟨i, hi⟩ := h.exists_awake hne hz
  obtain ⟨u, hu⟩ := next_worker_of_awake who cfg hi
  exact ⟨.worker i, u, rfl, hu⟩

/-- No wake is lost: unless the reader waits for the client or has left, a thread
can move as long as no handler is in progress. -/
theorem Counters.not_stuck (h : Counters s) (hread : s.reader ≠ .reading)
    (hend : s.reader ≠ .ended) (hinline : ∀ job, s.reader ≠ .inline job) (hz : s.active = 0) :
    ∃ a u, a.regular = true ∧ next who cfg s a = some u := by
  cases hr : s.reader with
  | reading => exact absurd hr hread
  | ended => exact absurd hr hend
  | inline job => exact absurd hr (hinline job)
  | submitting job parked =>
    have hne : s.workers ≠ [] := by
      intro hnil
      have := (h.noPool hnil).2
      rw [hr] at this
      cases this
    cases parked with
    | true =>
      have hroom := h.room hne
      have hfull := h.space job hr
      exact next_worker_of_queue h (by omega) hz
    | false =>
      obtain ⟨wake, vs, hvs⟩ := exists_signalWork s.workers
      refine ⟨.proceed wake, ?_⟩
      simp only [next, hr, hvs]
      split <;> exact ⟨_, rfl, rfl⟩
  | draining goal parked =>
    cases parked with
    | true =>
      have hbusy := h.drain goal hr
      exact next_worker_of_queue h (by omega) hz
    | false =>
      refine ⟨.proceed none, ?_⟩
      simp only [next, hr]
      split
      · exact ⟨_, rfl, rfl⟩
      · cases goal <;> exact ⟨_, rfl, rfl⟩
  | joining =>
    by_cases hall : s.workers.all Worker.hasExited = true
    · refine ⟨.join, { s with reader := .ended }, rfl, ?_⟩
      simp only [next, hr, hall, if_true]
    · -- the broadcast has woken everybody
      obtain ⟨-, hpark, -⟩ := h.stopped (h.joins hr)
      have hbusy : s.workers.countP Worker.isBusy = 0 := h.active.symm.trans hz
      obtain ⟨w, hmem, hw⟩ : ∃ w ∈ s.workers, w.hasExited = false := by
        simpa [List.all_eq_true] using hall
      obtain ⟨i, hi⟩ := List.mem_iff_getElem?.mp hmem
      cases w with
      | awake =>
        obtain ⟨u, hu⟩ := next_worker_of_awake who cfg hi
        exact ⟨.worker i, u, rfl, hu⟩
      | parked => exact absurd rfl (List.countP_eq_zero.mp hpark _ hmem)
      | running job => exact absurd rfl (List.countP_eq_zero.mp hbusy _ hmem)
      | exited => cases hw

end Steps

end Ecopy.Server.Pool
