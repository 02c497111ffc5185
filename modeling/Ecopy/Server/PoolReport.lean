import Ecopy.Server.ConfinedRuns
import Ecopy.Server.Pool

/-!
# What a barrier reports

The reader handles a frame outside the pooled types only when the queue is empty
and no worker is busy. Since every frame that was read is queued, in a handler or
ended, all earlier frames have ended then. The error log and the verify counters
are changed by three calls only, which the history records with the frame that
made them; a barrier therefore reports exactly the entries of the frames before it.
-/
namespace Ecopy.Server.Pool
open Protocol Ecopy.Path Lib.Calls Lib.Runs
open Remote.Encoders (Totals barrierReply)
open Remote.Agreement (handleBarrier_eq)

/-- The log entries of the frames that satisfy `p`, in the order of logging. -/
def entries (p : ℕ → Bool) (h : List Event) : List Entry :=
  h.filterMap fun
    | .logged k e => if p k then some e else none
    | _ => none

def entriesBefore (k : ℕ) (h : List Event) : List Entry := entries (fun j => decide (j < k)) h

/-- The reply to a barrier after the given log entries. -/
def barrierStatus (id : UInt64) (log : List Entry) (drainBytes drainNs : UInt64) : Frame :=
  let failures := log.filterMap Entry.failure
  let total (kind : VerifyError) : UInt64 := UInt64.ofNat (log.countP (Entry.isVerify kind))
  ⟨.status, id, (barrierReply (statusCode (failures.head?.map (·.2)))
    (UInt32.ofNat (min failures.length 0xFFFFFFFF)) ((failures.head?.map (·.1)).getD [])
    ⟨total .metadata, total .data, total .zero, total .io, total .malformed,
      UInt64.ofNat (log.count .unpreserved), drainBytes, drainNs⟩).buf⟩

section Report
variable {who : Identity} {cfg : Config} {s u : State}

/-- The log and the counters of a world are those of the entries. -/
structure LogIs (log : List Entry) (w : World) : Prop where
  errors : w.errors = log.filterMap Entry.failure
  verify : ∀ kind, w.verify kind = log.countP (Entry.isVerify kind)
  unpreserved : w.unpreserved = log.count .unpreserved

/-- Nothing of the log changes. -/
structure SameLog (w v : World) : Prop where
  errors : v.errors = w.errors
  verify : v.verify = w.verify
  unpreserved : v.unpreserved = w.unpreserved

theorem SameLog.refl (w : World) : SameLog w w := ⟨rfl, rfl, rfl⟩

theorem LogIs.same {log : List Entry} {w v : World} (h : LogIs log w) (hs : SameLog w v) :
    LogIs log v where
  errors := hs.errors.trans h.errors
  verify := fun kind => by rw [hs.verify]; exact h.verify kind
  unpreserved := hs.unpreserved.trans h.unpreserved

theorem sameLog_change {α : Type} (w : World) (x : Choice) (paths : List Bytes)
    (r : Except Errno (α × FileSystem.Fs)) : SameLog w (w.change x paths r).2 := by
  unfold World.change
  split
  · exact .refl w
  · split <;> exact ⟨rfl, rfl, rfl⟩

theorem sameLog_query {α : Type} (w : World) (x : Choice) (r : Except Errno α) :
    SameLog w (w.query x r).2 := by
  unfold World.query
  split <;> exact .refl w

theorem sameLog_of_eq {β : Type} {w v : World} {p : β × World} {r : β}
    (h : some p = some (r, v)) (hp : SameLog w p.2) : SameLog w v := by
  obtain rfl := Option.some.inj h
  exact hp

/-- Calls that log nothing. -/
theorem answer_sameLog {w v : World} {x : Choice} {c : Call} {r : c.Result}
    (hc : entryOf c = none) (h : answer who w x c = some (r, v)) : SameLog w v := by
  cases c with
  | logError | logVerify | noteUnpreserved => cases hc
  | mkdir | openFile | fallocate | fchown | fchmod | futimens | rename | unlink | symlink | link
  | lchown | lutimes => exact sameLog_of_eq h (sameLog_change ..)
  | lstat | stat | openDir | pread | fstat | fsync | close =>
    exact sameLog_of_eq h (sameLog_query ..)
  | ftruncate fd size =>
    simp only [answer] at h
    split at h
    · exact sameLog_of_eq h (.refl w)
    · exact sameLog_of_eq h (sameLog_change ..)
  | pwrite fd offset data =>
    simp only [answer] at h
    split at h
    · exact sameLog_of_eq h (.refl w)
    · split at h <;> exact sameLog_of_eq h ⟨rfl, rfl, rfl⟩
  | claimDir dir =>
    simp only [answer] at h
    split at h
    · cases h
    · exact sameLog_of_eq h (.refl w)
    · exact sameLog_of_eq h (.refl w)
    · split at h <;> exact sameLog_of_eq h ⟨rfl, rfl, rfl⟩
  | sync | findFile | addFile | updateFile | removeFile | takeFiles | settleDir | dirMode | nextSeq
  | settings | setSettings | attempt | report => exact sameLog_of_eq h ⟨rfl, rfl, rfl⟩

/-- Every call adds its entry to the log, if it has one. -/
theorem LogIs.answer {log : List Entry} {w v : World} {x : Choice} {c : Call} {r : c.Result}
    (h : LogIs log w) (ha : answer who w x c = some (r, v)) :
    LogIs (log ++ (entryOf c).toList) v := by
  cases hc : entryOf c with
  | none =>
    rw [Option.toList_none, List.append_nil]
    exact h.same (answer_sameLog hc ha)
  | some e =>
    cases c with
    | logError path err =>
      obtain rfl := Option.some.inj hc
      obtain ⟨-, rfl⟩ := Prod.mk.inj (Option.some.inj ha)
      constructor
      · simp [h.errors, Entry.failure]
      · simp [h.verify, Entry.isVerify]
      · simp [h.unpreserved]
    | logVerify kind path err =>
      obtain rfl := Option.some.inj hc
      obtain ⟨-, rfl⟩ := Prod.mk.inj (Option.some.inj ha)
      constructor
      · simp [h.errors, Entry.failure]
      · intro k
        by_cases hk : k = kind
        · subst hk
          simp [h.verify, Entry.isVerify]
        · simp [h.verify, Entry.isVerify, hk, Ne.symm hk]
      · simp [h.unpreserved]
    | noteUnpreserved =>
      obtain rfl := Option.some.inj hc
      obtain ⟨-, rfl⟩ := Prod.mk.inj (Option.some.inj ha)
      constructor
      · simp [h.errors, Entry.failure]
      · simp [h.verify, Entry.isVerify]
      · simp [h.unpreserved]
    | _ => cases hc

theorem entries_append (p : ℕ → Bool) (h h' : List Event) :
    entries p (h ++ h') = entries p h ++ entries p h' :=
  List.filterMap_append

@[simp] theorem entries_began (p : ℕ → Bool) (h : List Event) (k : ℕ) :
    entries p (h ++ [.began k]) = entries p h := by
  simp [entries]

@[simp] theorem entries_ended (p : ℕ → Bool) (h : List Event) (k : ℕ) :
    entries p (h ++ [.ended k]) = entries p h := by
  simp [entries]

@[simp] theorem entries_began_ended (p : ℕ → Bool) (h : List Event) (j k : ℕ) :
    entries p (h ++ [.began j, .ended k]) = entries p h := by
  simp [entries]

theorem entries_logged (p : ℕ → Bool) (h : List Event) (k : ℕ) (c : Call) :
    entries p (h ++ ((entryOf c).map (Event.logged k)).toList) =
      entries p h ++ if p k then (entryOf c).toList else [] := by
  rw [entries_append]
  cases entryOf c <;> cases hp : p k <;> simp [entries, hp]

/-- Entries of frames that are not below `k` do not count. -/
theorem entriesBefore_logged {j k : ℕ} (h : List Event) (c : Call) (hj : ¬ j < k) :
    entriesBefore k (h ++ ((entryOf c).map (Event.logged j)).toList) = entriesBefore k h := by
  unfold entriesBefore
  rw [entries_logged, if_neg (by simpa using hj), List.append_nil]

variable {frames : List Frame} {h : List Event}

/-- When all entries are of earlier frames, nothing is left out. -/
theorem entriesBefore_eq {k : ℕ} (hk : ∀ j e, Event.logged j e ∈ h → j < k) :
    entriesBefore k h = entries (fun _ => true) h := by
  refine List.filterMap_congr fun ev hev => ?_
  cases ev with
  | logged j e => simp [hk j e hev]
  | _ => rfl

/-- The log is what the history says, and only handlers that have begun log. -/
structure Faithful (s : State) : Prop where
  log : LogIs (entries (fun _ => true) s.history) s.world
  begun : ∀ j e, .logged j e ∈ s.history → 0 < s.history.count (.began j)

theorem Faithful.start (fs : FileSystem.Fs) : Faithful (State.start fs) where
  log := ⟨rfl, fun _ => rfl, rfl⟩
  begun := fun _ _ h => (nomatch h)

/-- Events that log nothing. -/
theorem Faithful.append (h : Faithful s) {es : List Event} (hw : u.world = s.world)
    (hu : u.history = s.history ++ es) (hes : ∀ j e, .logged j e ∉ es) : Faithful u where
  log := by
    have hnil : entries (fun _ => true) es = [] := by
      refine List.filterMap_eq_nil_iff.mpr fun ev hev => ?_
      cases ev with
      | logged j e => exact absurd hev (hes j e)
      | _ => rfl
    rw [hw, hu, entries_append, hnil, List.append_nil]
    exact h.log
  begun := by
    intro j e he
    rw [hu] at he ⊢
    rw [List.count_append]
    rcases List.mem_append.mp he with he | he
    · have := h.begun j e he
      omega
    · exact absurd he (hes j e)

/-- A call of a handler that has begun. -/
theorem Faithful.call (h : Faithful s) {job job' : Job} {x : Choice} {es : List Event}
    (hj : job.step who s.world x = some (u.world, job', es))
    (hb : 0 < s.history.count (.began job.number)) (hu : u.history = s.history ++ es) :
    Faithful u := by
  obtain ⟨c, k, r, -, ha, -, rfl⟩ := Job.step_cases hj
  constructor
  · rw [hu, entries_logged, if_pos rfl]
    exact h.log.answer ha
  · intro j e he
    rw [hu] at he ⊢
    rw [List.count_append]
    rcases List.mem_append.mp he with he | he
    · have := h.begun j e he
      omega
    · obtain ⟨e', -, heq⟩ := Option.map_eq_some_iff.mp (Option.mem_toList.mp he)
      rw [← (Event.logged.inj heq).1]
      omega

theorem handling_pos_of_running {i : ℕ} {job : Job}
    (hi : s.workers[i]? = some (.running job)) : 0 < s.handling job.number := by
  have hpos : 0 < s.workers.countP (Worker.runs job.number) :=
    List.countP_pos_iff.mpr ⟨_, List.mem_of_getElem? hi, by simp [Worker.runs]⟩
  rw [State.handling]
  omega

theorem Counters.active_ne_zero (hc : Counters s) {i : ℕ} {job : Job}
    (hi : s.workers[i]? = some (.running job)) : s.active ≠ 0 := by
  have hpos : 0 < s.workers.countP Worker.isBusy :=
    List.countP_pos_iff.mpr ⟨_, List.mem_of_getElem? hi, rfl⟩
  have := hc.active
  omega

theorem history_dispatch (s : State) (job : Job) :
    (s.dispatch job).world = s.world ∧
      ((s.dispatch job).history = s.history ++ [.began job.number] ∨
        (s.dispatch job).history = s.history ++ [.began job.number, .ended job.number]) := by
  unfold State.dispatch
  split
  · exact ⟨rfl, .inr rfl⟩
  · exact ⟨rfl, .inl rfl⟩

theorem Faithful.dispatch (h : Faithful s) (job : Job) : Faithful (s.dispatch job) := by
  obtain ⟨hw, hh | hh⟩ := history_dispatch s job
  · exact h.append hw hh (by simp)
  · exact h.append hw hh (by simp)

theorem history_poolStart (s : State) (f : Frame) (started : ℕ) :
    (s.poolStart f started).history = s.history ∧ (s.poolStart f started).world = s.world := by
  unfold State.poolStart
  split <;> exact ⟨rfl, rfl⟩

theorem Faithful.step (h : Faithful s) (ha : Accounted s) (hs : Step who cfg s u) :
    Faithful u := by
  cases hs with
  | @alone f hr hw =>
    have h' : Faithful { s with frames := s.frames ++ [f] } := ⟨h.log, h.begun⟩
    exact h'.dispatch _
  | noMemory hr => exact h.dispatch _
  | drained hr hq ha => exact h.dispatch _
  | submit | drain | endOfInput | parkSpace | enqueue | parkDrain | stopping | join | idle
  | spurious | wakeSubmit | wakeDrain => exact ⟨h.log, h.begun⟩
  | @inline job job' x w es hr hj =>
    refine h.call hj ?_ rfl
    have := ha.begun job.number
    rw [State.handling, hr, Reader.handles, beq_self_eq_true, Bool.toNat_true] at this
    omega
  | silent hr hj => exact h.append rfl rfl (by simp)
  | @replied job reply started hr hj =>
    obtain ⟨hh, hw⟩ := history_poolStart (s.finishInline job) job.frame started
    exact h.append hw hh (by simp)
  | @unsent job reply started hr hj =>
    obtain ⟨hh, hw⟩ := history_poolStart (s.finishInline job) job.frame started
    exact h.append hw hh (by simp)
  | take hi hq => exact h.append rfl rfl (by simp)
  | @call i job job' x w es hi hj =>
    refine h.call hj ?_ rfl
    have hpos := handling_pos_of_running hi
    have := ha.begun job.number
    omega
  | finish hi => exact h.append rfl rfl (by simp)

/-- The handler of a frame outside the pooled types begins when all earlier frames
have ended. -/
def InOrder (frames : List Frame) (h : List Event) : Prop :=
  ∀ k f before after, frames[k]? = some f → pooled f.type = false →
    h = before ++ .began k :: after → ∀ j < k, .ended j ∈ before

theorem InOrder.append {e : Event} (ho : InOrder frames h)
    (he : ∀ k f, e = .began k → frames[k]? = some f → pooled f.type = false →
      ∀ j < k, .ended j ∈ h) : InOrder frames (h ++ [e]) := by
  intro k f before after hf hp heq
  rcases List.eq_nil_or_concat after with rfl | ⟨after, x, rfl⟩
  · obtain ⟨rfl, hlast⟩ := List.append_inj' heq rfl
    exact he k f (List.cons.inj hlast).1 hf hp
  · have heq' : h ++ [e] = (before ++ .began k :: after) ++ [x] := by simpa using heq
    obtain ⟨hinit, -⟩ := List.append_inj' heq' rfl
    exact ho k f before after hf hp hinit

theorem InOrder.appendLogged (ho : InOrder frames h) (k : ℕ) (c : Call) :
    InOrder frames (h ++ ((entryOf c).map (Event.logged k)).toList) := by
  cases entryOf c with
  | none => simpa using ho
  | some e => exact ho.append fun _ _ hk => (nomatch hk)

theorem InOrder.appendEnded (ho : InOrder frames h) (k : ℕ) : InOrder frames (h ++ [.ended k]) :=
  ho.append fun _ _ hk => (nomatch hk)

/-- A frame that has just been read has not begun. -/
theorem InOrder.readFrame {f : Frame} (ho : InOrder frames h)
    (hn : h.count (.began frames.length) = 0) : InOrder (frames ++ [f]) h := by
  intro k g before after hg hp heq
  by_cases hk : k < frames.length
  · rw [List.getElem?_append_left hk] at hg
    exact ho k g before after hg hp heq
  · have hlt := (List.getElem?_eq_some_iff.mp hg).1
    rw [List.length_append, List.length_singleton] at hlt
    have hkn : k = frames.length := by omega
    subst hkn
    rw [heq, List.count_append, List.count_cons_self] at hn
    omega

def Reader.job : Reader → Option Job
  | .submitting job _ => some job
  | .draining (.handle job) _ => some job
  | .inline job => some job
  | _ => none

/-- What the frames in the reader's hands and in the queue are. -/
structure Ordered (cfg : Config) (s : State) : Prop where
  mine : ∀ job, s.reader.job = some job →
    job.number + 1 = s.frames.length ∧ s.frames[job.number]? = some job.frame
  fresh : ∀ job p, s.reader = .draining (.handle job) p → job.program = handle cfg job.frame
  kind : ∀ job p, s.reader = .submitting job p → pooled job.frame.type = true
  jobs : ∀ job ∈ s.queue, s.frames[job.number]? = some job.frame ∧ pooled job.frame.type = true
  exclusive : ∀ job, s.reader = .inline job → pooled job.frame.type = false →
    s.queue = [] ∧ s.active = 0
  order : InOrder s.frames s.history

theorem Ordered.start (fs : FileSystem.Fs) : Ordered cfg (State.start fs) where
  mine := fun _ h => (nomatch h)
  fresh := fun _ _ h => (nomatch h)
  kind := fun _ _ h => (nomatch h)
  jobs := fun _ h => (nomatch h)
  exclusive := fun _ h => (nomatch h)
  order := fun _ _ _ _ h => (nomatch h)

theorem Counters.idle_of_noPool (hc : Counters s) (hw : s.workers = []) :
    s.queue = [] ∧ s.active = 0 := by
  have hz : s.active = 0 := by simpa [hw] using hc.active
  exact ⟨(hc.noPool hw).1, hz⟩

/-- With an empty queue and no busy worker, everything before the reader's frame
has ended. -/
theorem Accounted.ended_of_alone (ha : Accounted s) (hc : Counters s) (hq : s.queue = [])
    (hz : s.active = 0) {n j : ℕ} (hn : n < s.frames.length)
    (hw : s.reader.waits j = 0) (hh : s.reader.handles j = 0) (hj : j ≤ n) :
    s.history.count (.ended j) = 1 := by
  have hnone : s.workers.countP (Worker.runs j) = 0 := by
    have hbusy : s.workers.countP Worker.isBusy = 0 := hc.active.symm.trans hz
    refine List.countP_eq_zero.mpr fun w hmem hrun => ?_
    have := List.countP_eq_zero.mp hbusy w hmem
    cases w <;> simp [Worker.runs, Worker.isBusy] at hrun this
  have := ha.placed j
  rw [State.waiting, State.handling, hw, hh, hq, hnone, if_pos (by omega)] at this
  simpa using this

theorem getElem?_append_of_some {k : ℕ} {f g : Frame} (h : frames[k]? = some g) :
    (frames ++ [f])[k]? = some g := by
  rw [List.getElem?_append_left (List.getElem?_eq_some_iff.mp h).1]
  exact h

theorem Ordered.readFrame (h : Ordered cfg s) (ha : Accounted s) {f : Frame} {r : Reader}
    (hjob : ∀ job, r.job = some job → job.number = s.frames.length ∧ job.frame = f)
    (hfresh : ∀ job p, r = .draining (.handle job) p → job.program = handle cfg job.frame)
    (hkind : ∀ job p, r = .submitting job p → pooled job.frame.type = true)
    (hinline : ∀ job, r ≠ .inline job) :
    Ordered cfg { s with frames := s.frames ++ [f], reader := r } where
  mine := by
    intro job hj
    obtain ⟨hn, rfl⟩ := hjob job hj
    rw [hn]
    simp
  fresh := hfresh
  kind := hkind
  jobs := fun job hmem => ⟨getElem?_append_of_some (h.jobs job hmem).1, (h.jobs job hmem).2⟩
  exclusive := fun job hj => absurd hj (hinline job)
  order := by
    apply h.order.readFrame
    have hplaced := ha.placed s.frames.length
    rw [if_neg (Nat.lt_irrefl _)] at hplaced
    have hbegun := ha.begun s.frames.length
    omega

theorem Ordered.shutdown (h : Ordered cfg s) : Ordered cfg s.shutdown := by
  have hreader : s.shutdown.reader = .ended ∨ s.shutdown.reader = .draining .stop false := by
    unfold State.shutdown
    dsimp only
    split
    · exact .inl rfl
    · exact .inr rfl
  constructor
  · intro job hj
    rcases hreader with hr | hr <;> rw [hr] at hj <;> cases hj
  · intro job p hj
    rcases hreader with hr | hr <;> rw [hr] at hj <;> cases hj
  · intro job p hj
    rcases hreader with hr | hr <;> rw [hr] at hj <;> cases hj
  · exact h.jobs
  · intro job hj
    rcases hreader with hr | hr <;> rw [hr] at hj <;> cases hj
  · exact h.order

/-- The reader gives up its frame. -/
theorem Ordered.release (h : Ordered cfg s) {hist : List Event} (ho : InOrder s.frames hist) :
    Ordered cfg { s with reader := .reading, history := hist } where
  mine := fun _ hj => (nomatch hj)
  fresh := fun _ _ hj => (nomatch hj)
  kind := fun _ _ hj => (nomatch hj)
  jobs := h.jobs
  exclusive := fun _ hj => (nomatch hj)
  order := ho

theorem Ordered.dispatch (h : Ordered cfg s) (ha : Accounted s) (hc : Counters s) {job : Job}
    (hw : ∀ k, s.reader.waits k = (job.number == k).toNat) (hh : ∀ k, s.reader.handles k = 0)
    (hm : job.number + 1 = s.frames.length ∧ s.frames[job.number]? = some job.frame)
    (hx : pooled job.frame.type = false → s.queue = [] ∧ s.active = 0) :
    Ordered cfg (s.dispatch job) := by
  have horder : InOrder s.frames (s.history ++ [.began job.number]) := by
    apply h.order.append
    intro k f hk hf hp j hj
    obtain rfl := Event.began.inj hk
    obtain rfl := Option.some.inj (hm.2.symm.trans hf)
    obtain ⟨hq, hz⟩ := hx hp
    have hwj : s.reader.waits j = 0 := by
      rw [hw, beq_eq_false_iff_ne.mpr (by omega)]
      rfl
    have hone := ha.ended_of_alone hc hq hz (by omega) hwj (hh j) (show j ≤ job.number by omega)
    exact List.count_pos_iff.mp (by omega)
  unfold State.dispatch
  split
  · have hrel : Ordered cfg { s with
        reader := .reading, history := s.history ++ [.began job.number, .ended job.number] } := by
      apply h.release
      have := horder.appendEnded job.number
      rwa [List.append_assoc] at this
    exact hrel.shutdown
  · constructor
    · intro j hj
      obtain rfl := Option.some.inj hj
      exact hm
    · exact fun _ _ hj => (nomatch hj)
    · exact fun _ _ hj => (nomatch hj)
    · exact h.jobs
    · intro j hj
      obtain rfl := Reader.inline.inj hj
      exact hx
    · exact horder

theorem Ordered.poolStart (h : Ordered cfg s) (hr : s.reader = .reading) (f : Frame)
    (started : ℕ) : Ordered cfg (s.poolStart f started) := by
  unfold State.poolStart
  split
  · have hrel := h.release h.order
    rw [← hr] at hrel
    exact ⟨hrel.mine, hrel.fresh, hrel.kind, hrel.jobs, hrel.exclusive, hrel.order⟩
  · exact h

/-- The reader keeps its frame and no handler begins. -/
theorem Ordered.keep (h : Ordered cfg s) (hf : u.frames = s.frames)
    (hjob : u.reader.job = s.reader.job)
    (hfresh : ∀ job p, u.reader = .draining (.handle job) p →
      ∃ q, s.reader = .draining (.handle job) q)
    (hkind : ∀ job p, u.reader = .submitting job p → ∃ q, s.reader = .submitting job q)
    (hjobs : ∀ job ∈ u.queue, job ∈ s.queue)
    (hinline : ∀ job, u.reader = .inline job → s.reader = .inline job ∧
      (s.queue = [] ∧ s.active = 0 → u.queue = [] ∧ u.active = 0))
    (ho : InOrder s.frames u.history) : Ordered cfg u where
  mine := by
    rw [hjob, hf]
    exact h.mine
  fresh := by
    intro job p hp
    obtain ⟨q, hq⟩ := hfresh job p hp
    exact h.fresh job q hq
  kind := by
    intro job p hp
    obtain ⟨q, hq⟩ := hkind job p hp
    exact h.kind job q hq
  jobs := by
    rw [hf]
    exact fun job hmem => h.jobs job (hjobs job hmem)
  exclusive := by
    intro job hj hp
    obtain ⟨hr, himp⟩ := hinline job hj
    exact himp (h.exclusive job hr hp)
  order := by
    rw [hf]
    exact ho

theorem Reader.draining_of_jobEnded {idle : Bool} {r : Reader} {job : Job} {p : Bool}
    (h : r.jobEnded idle = .draining (.handle job) p) : ∃ q, r = .draining (.handle job) q := by
  cases r with
  | draining goal q => cases idle <;> cases h <;> exact ⟨_, rfl⟩
  | _ => cases idle <;> cases h

theorem Reader.submitting_of_jobEnded {idle : Bool} {r : Reader} {job : Job} {p : Bool}
    (h : r.jobEnded idle = .submitting job p) : ∃ q, r = .submitting job q := by
  cases r with
  | submitting j q => cases idle <;> cases h <;> exact ⟨_, rfl⟩
  | _ => cases idle <;> cases h

theorem Reader.inline_of_jobEnded {idle : Bool} {r : Reader} {job : Job}
    (h : r.jobEnded idle = .inline job) : r = .inline job := by
  cases r <;> cases idle <;> cases h <;> rfl

theorem Reader.job_jobEnded (idle : Bool) (r : Reader) : (r.jobEnded idle).job = r.job := by
  cases r with
  | draining goal p => cases goal <;> cases idle <;> rfl
  | _ => cases idle <;> rfl

theorem Ordered.enqueue (h : Ordered cfg s) {job : Job} {ws : List Worker}
    (hr : s.reader = .submitting job false) :
    Ordered cfg { s with
      reader := .reading, queue := s.queue ++ [job], queued := s.queued + 1, workers := ws } where
  mine := fun _ hj => (nomatch hj)
  fresh := fun _ _ hj => (nomatch hj)
  kind := fun _ _ hj => (nomatch hj)
  jobs := by
    intro j hj
    rcases List.mem_append.mp hj with hj | hj
    · exact h.jobs j hj
    · rw [List.mem_singleton.mp hj]
      exact ⟨(h.mine job (by rw [hr]; rfl)).2, h.kind job false hr⟩
  exclusive := fun _ hj => (nomatch hj)
  order := h.order

/-- A worker only begins frames of the pooled types. -/
theorem Ordered.take (h : Ordered cfg s) {i : ℕ} {job : Job} {rest : List Job}
    (hq : s.queue = job :: rest) :
    Ordered cfg { s with
      queue := rest, queued := s.queued - 1, active := s.active + 1
      workers := s.workers.set i (.running job)
      history := s.history ++ [.began job.number] } where
  mine := h.mine
  fresh := h.fresh
  kind := h.kind
  jobs := fun j hj => h.jobs j (by rw [hq]; exact List.mem_cons_of_mem _ hj)
  exclusive := by
    intro j hj hp
    have := (h.exclusive j hj hp).1
    rw [hq] at this
    cases this
  order := by
    apply h.order.append
    intro k f hk hf hp
    obtain rfl := Event.began.inj hk
    obtain ⟨hframe, hpool⟩ := h.jobs job (by simp [hq])
    obtain rfl := Option.some.inj (hframe.symm.trans hf)
    rw [hp] at hpool
    cases hpool

theorem Ordered.step (h : Ordered cfg s) (ha : Accounted s) (hc : Counters s)
    (hs : Step who cfg s u) : Ordered cfg u := by
  cases hs with
  | @alone f hr hw =>
    -- without workers the pool is drained from the start
    have hidle := hc.idle_of_noPool hw
    let job : Job := ⟨s.frames.length, f, handle cfg f⟩
    have ho : Ordered cfg { s with
        frames := s.frames ++ [f], reader := .draining (.handle job) false } := by
      apply h.readFrame ha
      · intro j hj
        obtain rfl := Option.some.inj hj
        exact ⟨rfl, rfl⟩
      · intro j p hj
        cases hj
        rfl
      · exact fun _ _ hj => (nomatch hj)
      · exact fun _ hj => (nomatch hj)
    have ha' := ha.readFrame (f := f) (r := .draining (.handle job) false) hr (fun _ => rfl)
      fun _ => rfl
    have hc' := hc.moveAwake (r := .draining (.handle job) false) (by rw [hr]; rfl)
      (fun _ => rfl) rfl rfl s.world (s.frames ++ [f]) s.replies s.history
    rw [← dispatch_reader _ (.draining (.handle job) false)]
    exact ho.dispatch ha' hc' (fun _ => rfl) (fun _ => rfl) (ho.mine job rfl) fun _ => hidle
  | @submit f hr hw hp =>
    apply h.readFrame ha
    · intro j hj
      obtain rfl := Option.some.inj hj
      exact ⟨rfl, rfl⟩
    · exact fun _ _ hj => (nomatch hj)
    · intro j p hj
      cases hj
      exact hp
    · exact fun _ hj => (nomatch hj)
  | @drain f hr hw hp =>
    apply h.readFrame ha
    · intro j hj
      obtain rfl := Option.some.inj hj
      exact ⟨rfl, rfl⟩
    · intro j p hj
      cases hj
      rfl
    · exact fun _ _ hj => (nomatch hj)
    · exact fun _ hj => (nomatch hj)
  | endOfInput hr => exact h.shutdown
  | @noMemory job hr =>
    refine h.dispatch ha hc (fun _ => by rw [hr]; rfl) (fun _ => by rw [hr]; rfl)
      (h.mine job (by rw [hr]; rfl)) fun hp => ?_
    rw [h.kind job false hr] at hp
    cases hp
  | parkSpace hr hfull =>
    refine h.keep rfl (by rw [hr]; rfl) (fun _ _ hj => (nomatch hj)) ?_ (fun _ hj => hj)
      (fun _ hj => (nomatch hj)) h.order
    intro j p hj
    cases hj
    exact ⟨_, hr⟩
  | enqueue hr hroom hw => exact h.enqueue hr
  | @parkDrain goal hr hbusy =>
    refine h.keep rfl ?_ ?_ (fun _ _ hj => (nomatch hj)) (fun _ hj => hj)
      (fun _ hj => (nomatch hj)) h.order
    · rw [hr]
      cases goal <;> rfl
    · intro j p hj
      cases hj
      exact ⟨_, hr⟩
  | @drained job hr hq hz =>
    refine h.dispatch ha hc (fun _ => by rw [hr]; rfl) (fun _ => by rw [hr]; rfl)
      (h.mine job (by rw [hr]; rfl)) fun _ => ⟨?_, hz⟩
    exact List.length_eq_zero_iff.mp (hc.queued.symm.trans hq)
  | stopping hr hq hz =>
    exact h.keep rfl (by rw [hr]; rfl) (fun _ _ hj => (nomatch hj)) (fun _ _ hj => (nomatch hj))
      (fun _ hj => hj) (fun _ hj => (nomatch hj)) h.order
  | @inline job job' x w es hr hj =>
    obtain ⟨c, k, r, -, -, rfl, rfl⟩ := Job.step_cases hj
    have hmine := h.mine job (by rw [hr]; rfl)
    constructor
    · intro j hj
      obtain rfl := Option.some.inj hj
      exact hmine
    · exact fun _ _ hj => (nomatch hj)
    · exact fun _ _ hj => (nomatch hj)
    · exact h.jobs
    · intro j hj
      obtain rfl := Reader.inline.inj hj
      exact h.exclusive job hr
    · exact h.order.appendLogged _ _
  | silent hr hj => exact h.release (h.order.appendEnded _)
  | @replied job reply started hr hj =>
    have h' := (h.release (h.order.appendEnded job.number)).poolStart rfl job.frame started
    exact ⟨h'.mine, h'.fresh, h'.kind, h'.jobs, h'.exclusive, h'.order⟩
  | @unsent job reply started hr hj =>
    exact ((h.release (h.order.appendEnded job.number)).poolStart rfl job.frame started).shutdown
  | join hr hall =>
    exact h.keep rfl (by rw [hr]; rfl) (fun _ _ hj => (nomatch hj)) (fun _ _ hj => (nomatch hj))
      (fun _ hj => hj) (fun _ hj => (nomatch hj)) h.order
  | take hi hq => exact h.take hq
  | idle hi hq =>
    exact h.keep rfl rfl (fun _ _ hj => ⟨_, hj⟩) (fun _ _ hj => ⟨_, hj⟩) (fun _ hj => hj)
      (fun _ hj => ⟨hj, id⟩) h.order
  | @call i job job' x w es hi hj =>
    obtain ⟨c, k, r, -, -, -, rfl⟩ := Job.step_cases hj
    exact h.keep rfl rfl (fun _ _ hj => ⟨_, hj⟩) (fun _ _ hj => ⟨_, hj⟩) (fun _ hj => hj)
      (fun _ hj => ⟨hj, id⟩) (h.order.appendLogged _ _)
  | finish hi =>
    refine h.keep rfl (Reader.job_jobEnded _ _) (fun _ _ hj => Reader.draining_of_jobEnded hj)
      (fun _ _ hj => Reader.submitting_of_jobEnded hj) (fun _ hj => hj) ?_
      (h.order.appendEnded _)
    intro j hj
    refine ⟨Reader.inline_of_jobEnded hj, fun hz => ⟨hz.1, ?_⟩⟩
    show s.active - 1 = 0
    omega
  | spurious hi =>
    exact h.keep rfl rfl (fun _ _ hj => ⟨_, hj⟩) (fun _ _ hj => ⟨_, hj⟩) (fun _ hj => hj)
      (fun _ hj => ⟨hj, id⟩) h.order
  | wakeSubmit hr =>
    refine h.keep rfl (by rw [hr]; rfl) (fun _ _ hj => (nomatch hj)) ?_ (fun _ hj => hj)
      (fun _ hj => (nomatch hj)) h.order
    intro j p hj
    cases hj
    exact ⟨_, hr⟩
  | @wakeDrain goal hr =>
    refine h.keep rfl ?_ ?_ (fun _ _ hj => (nomatch hj)) (fun _ hj => hj)
      (fun _ hj => (nomatch hj)) h.order
    · rw [hr]
      cases goal <;> rfl
    · intro j p hj
      cases hj
      exact ⟨_, hr⟩

variable (who cfg) in
/-- The handler of a barrier, run while nobody else makes calls. -/
theorem alone_handle_barrier {f : Frame} {w : World} {log : List Entry}
    (hf : f.type = .barrier) (hl : LogIs log w) :
    (handle cfg f).Alone (answer who)
      (fun _ r => ∃ b n, r = some (barrierStatus f.id log b n)) w := by
  have hreport : ∀ v, LogIs log v →
      (Sys.report >>= fun r => (return some ⟨.status, f.id,
        (barrierReply (statusCode (r.errors.head?.map (·.2)))
          (UInt32.ofNat (min r.errors.length 0xFFFFFFFF)) ((r.errors.head?.map (·.1)).getD [])
          ⟨UInt64.ofNat (r.verify .metadata), UInt64.ofNat (r.verify .data),
            UInt64.ofNat (r.verify .zero), UInt64.ofNat (r.verify .io),
            UInt64.ofNat (r.verify .malformed), UInt64.ofNat r.unpreserved, r.drainBytes,
            r.drainNs⟩).buf⟩ : Handler (Option Frame))).Alone (answer who)
        (fun _ r => ∃ b n, r = some (barrierStatus f.id log b n)) v := by
    intro v hv x r t hr
    obtain ⟨rfl, rfl⟩ := Prod.mk.inj (Option.some.inj hr)
    refine ⟨UInt64.ofNat x.progress, 0, ?_⟩
    simp only [barrierStatus, hv.errors, hv.verify, hv.unpreserved]
  simp only [handle, hf, answering, handleBarrier_eq]
  split
  · intro x r t hr
    obtain ⟨-, rfl⟩ := Prod.mk.inj (Option.some.inj hr)
    exact hreport w hl
  · exact hreport w hl

/-- A barrier in progress will report, and a barrier that was answered has
reported, what the frames before it logged. -/
structure Reported (who : Identity) (s : State) : Prop where
  pending : ∀ job, s.reader = .inline job → job.frame.type = .barrier →
    job.program.Alone (answer who) (fun _ r => ∃ b n,
      r = some (barrierStatus job.frame.id (entriesBefore job.number s.history) b n)) s.world
  known : ∀ k reply, (k, reply) ∈ s.replies → k < s.frames.length
  sent : ∀ k reply f, (k, reply) ∈ s.replies → s.frames[k]? = some f → f.type = .barrier →
    (∃ b n, reply = barrierStatus f.id (entriesBefore k s.history) b n) ∧
      ∀ j ≤ k, 0 < s.history.count (.ended j)

theorem Reported.start (fs : FileSystem.Fs) : Reported who (State.start fs) where
  pending := fun _ h => (nomatch h)
  known := fun _ _ h => (nomatch h)
  sent := fun _ _ _ h => (nomatch h)

/-- The history grows by events that no answered barrier covers. -/
theorem Reported.grow (h : Reported who s) (es : List Event)
    (hf : u.frames = s.frames) (hr : u.replies = s.replies) (hh : u.history = s.history ++ es)
    (hes : ∀ k, (∀ j ≤ k, 0 < s.history.count (.ended j)) →
      entriesBefore k (s.history ++ es) = entriesBefore k s.history)
    (hp : ∀ job, u.reader = .inline job → job.frame.type = .barrier →
      job.program.Alone (answer who) (fun _ r => ∃ b n,
        r = some (barrierStatus job.frame.id (entriesBefore job.number u.history) b n)) u.world) :
    Reported who u where
  pending := hp
  known := by
    rw [hf, hr]
    exact h.known
  sent := by
    rw [hf, hr, hh]
    intro k reply f hmem hk hbar
    obtain ⟨⟨b, n, hrep⟩, hended⟩ := h.sent k reply f hmem hk hbar
    refine ⟨⟨b, n, ?_⟩, fun j hj => ?_⟩
    · rw [hes k hended]
      exact hrep
    · have := hended j hj
      rw [List.count_append]
      omega

/-- Nothing is logged, and no barrier is in progress afterwards. -/
theorem Reported.quiet (h : Reported who s) (es : List Event)
    (hf : u.frames = s.frames) (hr : u.replies = s.replies) (hh : u.history = s.history ++ es)
    (hes : ∀ k, entriesBefore k (s.history ++ es) = entriesBefore k s.history)
    (hp : ∀ job, u.reader ≠ .inline job) : Reported who u :=
  h.grow es hf hr hh (fun k _ => hes k) fun job hj => absurd hj (hp job)

theorem entriesBefore_nil (k : ℕ) (h : List Event) :
    entriesBefore k (h ++ []) = entriesBefore k h := by
  rw [List.append_nil]

theorem shutdown_ne_inline (s : State) (job : Job) : s.shutdown.reader ≠ .inline job := by
  unfold State.shutdown
  dsimp only
  split <;> exact fun h => (nomatch h)

theorem Reported.readFrame (h : Reported who s) {f : Frame} {r : Reader}
    (hr : ∀ job, r ≠ .inline job) :
    Reported who { s with frames := s.frames ++ [f], reader := r } where
  pending := fun job hj => absurd hj (hr job)
  known := by
    intro k reply hmem
    have := h.known k reply hmem
    rw [List.length_append]
    omega
  sent := by
    intro k reply g hmem hk hbar
    rw [List.getElem?_append_left (h.known k reply hmem)] at hk
    exact h.sent k reply g hmem hk hbar

variable (cfg) in
theorem Reported.dispatch (h : Reported who s) (hfa : Faithful s) (ha : Accounted s) {job : Job}
    (hw : ∀ k, s.reader.waits k = (job.number == k).toNat)
    (hn : job.number + 1 = s.frames.length)
    (hfresh : job.frame.type = .barrier → job.program = handle cfg job.frame) :
    Reported who (s.dispatch job) := by
  unfold State.dispatch
  split
  · refine h.quiet [.began job.number, .ended job.number] rfl rfl rfl ?_ ?_
    · exact fun k => entries_began_ended _ _ _ _
    · exact shutdown_ne_inline _
  · refine h.grow [.began job.number] rfl rfl rfl (fun k _ => entries_began _ _ _) ?_
    intro j hj hbar
    obtain rfl := Reader.inline.inj hj
    -- what has been logged so far was logged by earlier frames
    have hearlier : ∀ i e, Event.logged i e ∈ s.history → i < job.number := by
      intro i e hmem
      have hpos := hfa.begun i e hmem
      have hbegun := ha.begun i
      have hplaced := ha.placed i
      rw [State.waiting, hw] at hplaced
      have hlt : i < s.frames.length := by
        by_contra hge
        rw [if_neg hge] at hplaced
        omega
      rw [if_pos hlt] at hplaced
      have hne : job.number ≠ i := by
        rintro rfl
        rw [beq_self_eq_true, Bool.toNat_true] at hplaced
        omega
      omega
    have hent : entriesBefore job.number (s.history ++ [.began job.number]) =
        entries (fun _ => true) s.history :=
      (entries_began _ _ _).trans (entriesBefore_eq hearlier)
    have halone := alone_handle_barrier who cfg hbar hfa.log
    rw [← hfresh hbar, ← hent] at halone
    exact halone

/-- The reply of a barrier is recorded when everything before it has ended. -/
theorem Reported.finishInline (h : Reported who s) (ho : Ordered cfg s) (ha : Accounted s)
    (hc : Counters s) {job : Job} {reply : Frame} (hr : s.reader = .inline job)
    (hj : job.program = .ret (some reply)) :
    Reported who { s.finishInline job with replies := s.replies ++ [(job.number, reply)] } := by
  obtain ⟨hn, hframe⟩ := ho.mine job (by rw [hr]; rfl)
  have hlog : ∀ k, entriesBefore k (s.history ++ [.ended job.number]) =
      entriesBefore k s.history := fun k => entries_ended _ _ _
  have hold : Reported who (s.finishInline job) :=
    h.quiet [.ended job.number] rfl rfl rfl hlog fun _ hj => (nomatch hj)
  constructor
  · exact fun _ hj => (nomatch hj)
  · intro k rep hmem
    rcases List.mem_append.mp hmem with hmem | hmem
    · exact h.known k rep hmem
    · obtain ⟨rfl, -⟩ := Prod.mk.inj (List.mem_singleton.mp hmem)
      show job.number < s.frames.length
      omega
  · intro k rep f hmem hk hbar
    rcases List.mem_append.mp hmem with hmem | hmem
    · exact hold.sent k rep f hmem hk hbar
    · obtain ⟨rfl, rfl⟩ := Prod.mk.inj (List.mem_singleton.mp hmem)
      obtain rfl := Option.some.inj (hframe.symm.trans hk)
      obtain ⟨hq, hz⟩ := ho.exclusive job hr (by rw [hbar]; rfl)
      have hpend := h.pending job hr hbar
      rw [hj] at hpend
      obtain ⟨b, n, hrep⟩ := hpend
      refine ⟨⟨b, n, ?_⟩, fun j hjk => ?_⟩
      · show rep = barrierStatus job.frame.id (entriesBefore job.number (s.history ++ _)) b n
        rw [hlog]
        exact Option.some.inj hrep
      · show 0 < List.count _ (s.history ++ [.ended job.number])
        rw [ended_append_ended]
        by_cases hjn : job.number = j
        · rw [hjn, beq_self_eq_true, Bool.toNat_true]
          omega
        · have hhj : s.reader.handles j = 0 := by
            rw [hr, Reader.handles, beq_eq_false_iff_ne.mpr hjn]
            rfl
          have hone := ha.ended_of_alone hc hq hz (by omega) (by rw [hr]; rfl) hhj hjk
          omega

theorem poolStart_fields (s : State) (f : Frame) (started : ℕ) :
    (s.poolStart f started).frames = s.frames ∧ (s.poolStart f started).reader = s.reader ∧
      (s.poolStart f started).replies = s.replies := by
  unfold State.poolStart
  split <;> exact ⟨rfl, rfl, rfl⟩

/-- A running job has a number that no answered barrier covers. -/
theorem not_covered (ha : Accounted s) {j k : ℕ} (hj : 0 < s.handling j)
    (hk : ∀ i ≤ k, 0 < s.history.count (.ended i)) : ¬ j < k := by
  intro hjk
  have hended := hk j (by omega)
  have hplaced := ha.placed j
  split at hplaced <;> omega

theorem Reported.step (h : Reported who s) (hfa : Faithful s) (ho : Ordered cfg s)
    (ha : Accounted s) (hc : Counters s) (hs : Step who cfg s u) : Reported who u := by
  cases hs with
  | @alone f hr hw =>
    let job : Job := ⟨s.frames.length, f, handle cfg f⟩
    have h' : Reported who { s with
        frames := s.frames ++ [f], reader := .submitting job false } :=
      h.readFrame fun _ hj => Reader.noConfusion hj
    have ha' := ha.readFrame (f := f) (r := .submitting job false) hr (fun _ => rfl) fun _ => rfl
    rw [← dispatch_reader _ (.submitting job false)]
    exact h'.dispatch cfg ⟨hfa.log, hfa.begun⟩ ha' (fun _ => rfl) (by simp)
      fun _ => rfl
  | submit hr hw hp => exact h.readFrame fun _ hj => Reader.noConfusion hj
  | drain hr hw hp => exact h.readFrame fun _ hj => Reader.noConfusion hj
  | endOfInput hr =>
    refine h.quiet [] rfl rfl (by rw [List.append_nil]; rfl)
      (fun k => entriesBefore_nil k _) ?_
    exact shutdown_ne_inline s
  | @noMemory job hr =>
    have hkind := ho.kind job false hr
    refine h.dispatch cfg hfa ha (fun _ => by rw [hr]; rfl)
      (ho.mine job (by rw [hr]; rfl)).1 fun hbar => ?_
    rw [hbar] at hkind
    cases hkind
  | @drained job hr hq hz =>
    exact h.dispatch cfg hfa ha (fun _ => by rw [hr]; rfl) (ho.mine job (by rw [hr]; rfl)).1
      fun _ => ho.fresh job false hr
  | parkSpace | parkDrain | wakeSubmit | wakeDrain | join | stopping | enqueue =>
    exact h.quiet [] rfl rfl (by rw [List.append_nil]) (fun k => entriesBefore_nil k _)
      fun _ hj => Reader.noConfusion hj
  | @inline job job' x w es hr hj =>
    obtain ⟨c, k, r, hprog, hans, rfl, rfl⟩ := Job.step_cases hj
    have hpos : 0 < s.handling job.number := by
      rw [State.handling, hr, Reader.handles, beq_self_eq_true, Bool.toNat_true]
      omega
    refine h.grow _ rfl rfl rfl ?_ ?_
    · exact fun n hn => entriesBefore_logged _ _ (not_covered ha hpos hn)
    · intro j hj hbar
      obtain rfl := Reader.inline.inj hj
      have hpend := h.pending job hr hbar
      rw [hprog] at hpend
      have hnext := hpend x r w hans
      rw [← entriesBefore_logged s.history c (Nat.lt_irrefl job.number)] at hnext
      exact hnext
  | @silent job hr hj =>
    exact h.quiet [.ended job.number] rfl rfl rfl (fun k => entries_ended _ _ _)
      fun _ hj => Reader.noConfusion hj
  | @replied job reply started hr hj =>
    have h' := h.finishInline ho ha hc hr hj
    obtain ⟨hf, hrd, hrep⟩ := poolStart_fields (s.finishInline job) job.frame started
    obtain ⟨hh, -⟩ := history_poolStart (s.finishInline job) job.frame started
    refine h'.quiet [] hf ?_ ?_ (fun k => entriesBefore_nil k _) ?_
    · show _ ++ _ = _ ++ _
      rw [hrep]
      rfl
    · rw [List.append_nil]
      exact hh
    · intro j hj
      exact Reader.noConfusion (hrd.symm.trans hj)
  | @unsent job reply started hr hj =>
    obtain ⟨hf, hrd, hrep⟩ := poolStart_fields (s.finishInline job) job.frame started
    obtain ⟨hh, -⟩ := history_poolStart (s.finishInline job) job.frame started
    refine h.quiet [.ended job.number] hf hrep hh (fun k => entries_ended _ _ _) ?_
    exact shutdown_ne_inline _
  | @take i job rest hi hq =>
    refine h.grow [.began job.number] rfl rfl rfl (fun k _ => entries_began _ _ _) ?_
    intro j hj hbar
    have hnil := (ho.exclusive j hj (by rw [hbar]; rfl)).1
    rw [hq] at hnil
    cases hnil
  | idle hi hq =>
    exact h.grow [] rfl rfl (by rw [List.append_nil]) (fun k _ => entriesBefore_nil k _)
      h.pending
  | spurious hi =>
    exact h.grow [] rfl rfl (by rw [List.append_nil]) (fun k _ => entriesBefore_nil k _)
      h.pending
  | @call i job job' x w es hi hj =>
    obtain ⟨c, k, r, hprog, hans, rfl, rfl⟩ := Job.step_cases hj
    refine h.grow _ rfl rfl rfl ?_ ?_
    · exact fun n hn => entriesBefore_logged _ _ (not_covered ha (handling_pos_of_running hi) hn)
    · intro j hj hbar
      have hz := (ho.exclusive j hj (by rw [hbar]; rfl)).2
      exact absurd hz (hc.active_ne_zero hi)
  | @finish i job hi =>
    refine h.grow [.ended job.number] rfl rfl rfl (fun k _ => entries_ended _ _ _) ?_
    intro j hj hbar
    have hz := (ho.exclusive j (Reader.inline_of_jobEnded hj) (by rw [hbar]; rfl)).2
    exact absurd hz (hc.active_ne_zero hi)

/-- When the reader has left its loop, no job is left. -/
def Finished (s : State) : Prop := s.reader.inLoop = false → s.queue = [] ∧ s.active = 0

theorem Finished.shutdown (hp : s.workers = [] → s.queue = [] ∧ s.active = 0) :
    Finished s.shutdown := by
  intro hl
  by_cases hw : s.workers = []
  · exact hp hw
  · unfold State.shutdown at hl
    rw [if_neg (by simpa using hw)] at hl
    cases hl

theorem Finished.dispatch (hp : s.workers = [] → s.queue = [] ∧ s.active = 0) (job : Job) :
    Finished (s.dispatch job) := by
  unfold State.dispatch
  split
  · exact Finished.shutdown hp
  · exact fun hl => (nomatch hl)

theorem Finished.step (h : Finished s) (hc : Counters s) (hs : Step who cfg s u) :
    Finished u := by
  cases hs with
  | submit | drain | parkSpace | enqueue | parkDrain | inline | silent | wakeSubmit
  | wakeDrain => exact fun hl => (nomatch hl)
  | @alone f hr hw =>
    exact Finished.dispatch (s := { s with frames := s.frames ++ [f] }) hc.idle_of_noPool _
  | noMemory hr => exact Finished.dispatch hc.idle_of_noPool _
  | drained hr hq hz => exact Finished.dispatch hc.idle_of_noPool _
  | endOfInput hr => exact Finished.shutdown hc.idle_of_noPool
  | @replied job reply started hr hj =>
    intro hl
    have hrd := (poolStart_fields (s.finishInline job) job.frame started).2.1
    rw [show _ = Reader.reading from hrd] at hl
    cases hl
  | @unsent job reply started hr hj =>
    have hc' := (hc.finishInline hr).poolStart rfl job.frame started
    exact Finished.shutdown hc'.idle_of_noPool
  | stopping hr hq hz =>
    exact fun _ => ⟨List.length_eq_zero_iff.mp (hc.queued.symm.trans hq), hz⟩
  | join hr hall => exact fun _ => h (by rw [hr]; rfl)
  | take hi hq =>
    intro hl
    have := (h hl).1
    rw [hq] at this
    cases this
  | idle | spurious | call => exact h
  | finish hi =>
    intro hl
    obtain ⟨hq, hz⟩ := h ((Reader.inLoop_jobEnded _ _).symm.trans hl)
    exact absurd hz (hc.active_ne_zero hi)

/-- The invariant of the pool. -/
structure Inv (who : Identity) (cfg : Config) (s : State) : Prop where
  counters : Counters s
  accounted : Accounted s
  faithful : Faithful s
  ordered : Ordered cfg s
  reported : Reported who s
  finished : Finished s

theorem Inv.start (fs : FileSystem.Fs) : Inv who cfg (State.start fs) where
  counters := .start fs
  accounted := .start fs
  faithful := .start fs
  ordered := .start fs
  reported := .start fs
  finished := fun h => (nomatch h)

theorem Inv.step (h : Inv who cfg s) (hs : Step who cfg s u) : Inv who cfg u where
  counters := h.counters.step hs
  accounted := h.accounted.step hs
  faithful := h.faithful.step h.accounted hs
  ordered := h.ordered.step h.accounted h.counters hs
  reported := h.reported.step h.faithful h.ordered h.accounted h.counters hs
  finished := h.finished.step h.counters hs

theorem Inv.of_reachable {fs : FileSystem.Fs}
    (h : Reachable (next who cfg) (State.start fs) s) : Inv who cfg s :=
  h.invariant (Inv.start fs) fun _ _ _ hi hs => hi.step (next_step hs)

theorem Inv.once_of_ended (h : Inv who cfg s) (he : s.reader = .ended) {k : ℕ}
    (hk : k < s.frames.length) :
    s.history.count (.began k) = 1 ∧ s.history.count (.ended k) = 1 := by
  obtain ⟨hq, hz⟩ := h.finished (by rw [he]; rfl)
  have hended := h.accounted.ended_of_alone h.counters hq hz hk (by rw [he]; rfl) (by rw [he]; rfl)
    le_rfl
  have hplaced := h.accounted.placed k
  have hbegun := h.accounted.begun k
  rw [if_pos hk] at hplaced
  omega

/-- In every run of the server, for every pool size and every schedule:
a frame outside the pooled types begins only when all earlier frames have ended;
every frame is in exactly one place until its handler has run, and its handler
runs once; no more than `limit` jobs are outstanding; a barrier reports the errors
and verify counters of exactly the frames before it; and the pool waits only for
handlers in progress. -/
theorem barrier_semantics {fs : FileSystem.Fs}
    (h : Reachable (next who cfg) (State.start fs) s) :
    (∀ k f before after, s.frames[k]? = some f → pooled f.type = false →
      s.history = before ++ .began k :: after → ∀ j < k, .ended j ∈ before) ∧
    (∀ k < s.frames.length,
      s.waiting k + s.handling k + s.history.count (.ended k) = 1 ∧
      s.history.count (.began k) = s.handling k + s.history.count (.ended k)) ∧
    (s.reader = .ended → ∀ k < s.frames.length,
      s.history.count (.began k) = 1 ∧ s.history.count (.ended k) = 1) ∧
    s.queue.length + s.workers.countP Worker.isBusy ≤ s.limit ∧
    (∀ k reply f, (k, reply) ∈ s.replies → s.frames[k]? = some f → f.type = .barrier →
      ∃ drainBytes drainNs,
        reply = barrierStatus f.id (entriesBefore k s.history) drainBytes drainNs) ∧
    (s.reader ≠ .reading → s.reader ≠ .ended → (∀ k, s.handling k = 0) →
      ∃ a u, a.regular = true ∧ next who cfg s a = some u) := by
  have hi := Inv.of_reachable h
  refine ⟨hi.ordered.order, ?_, fun he k hk => hi.once_of_ended he hk, ?_, ?_, ?_⟩
  · intro k hk
    have hplaced := hi.accounted.placed k
    rw [if_pos hk] at hplaced
    exact ⟨hplaced, hi.accounted.begun k⟩
  · rw [← hi.counters.queued, ← hi.counters.active]
    exact hi.counters.bound
  · intro k reply f hmem hf hbar
    exact (hi.reported.sent k reply f hmem hf hbar).1
  · intro hread hend hidle
    refine hi.counters.not_stuck hread hend ?_ ?_
    · intro job hr
      have := hidle job.number
      rw [State.handling, hr, Reader.handles, beq_self_eq_true, Bool.toNat_true] at this
      omega
    · rw [hi.counters.active]
      refine List.countP_eq_zero.mpr fun w hmem hb => ?_
      cases w with
      | running job =>
        obtain ⟨i, hget⟩ := List.mem_iff_getElem?.mp hmem
        have := handling_pos_of_running hget
        have := hidle job.number
        omega
      | _ => cases hb

end Report

-- A pool of two threads, a malformed `VERIFY_PATH` for it and a barrier that has to wait.
def poolHello : Frame := ⟨.hello, 0, le32 2 ++ le32 0 ++ le32 0 ++ le32 0 ++ le32 2 ++ le32 1⟩

def emptyVerify : Frame := ⟨.verifyPath, 1, []⟩

def emptyBarrier : Frame := ⟨.barrier, 2, []⟩

def pooledRun : List Action :=
  [.read poolHello, .inline success, .inline success, .inlineDone true 2,
    .read emptyVerify, .proceed none, .worker 0,
    .read emptyBarrier, .proceed none, .call 0 success, .finish 0, .proceed none,
    .inline success, .inlineDone true 0]

theorem barrier_semantics_pooledRun :
    ∃ s reply drainBytes drainNs,
      exec (next superuser.who (superuser.config homeRoot true)) (State.start homeFs) pooledRun =
        some s ∧
      s.limit = 8 ∧ (2, reply) ∈ s.replies ∧
      reply = barrierStatus 2 [.verify .malformed malformedVerifyPath .einval]
        drainBytes drainNs := by
  have hrun : (exec (next superuser.who (superuser.config homeRoot true)) (State.start homeFs)
      pooledRun).map (fun s => (s.limit, s.replies.map (·.1), s.frames[2]?,
        entriesBefore 2 s.history)) =
      some (8, [0, 2], some emptyBarrier,
        [.verify .malformed malformedVerifyPath .einval]) := by decide +kernel
  obtain ⟨s, hs, heq⟩ := Option.map_eq_some_iff.mp hrun
  simp only [Prod.mk.injEq] at heq
  obtain ⟨hlimit, hreplies, hframe, hentries⟩ := heq
  obtain ⟨⟨k, reply⟩, hmem, hk⟩ : ∃ p ∈ s.replies, p.1 = 2 := by
    have : 2 ∈ s.replies.map (·.1) := by simp [hreplies]
    simpa using this
  obtain rfl : k = 2 := hk
  obtain ⟨-, -, -, -, hreport, -⟩ := barrier_semantics ⟨pooledRun, hs⟩
  obtain ⟨b, n, hreply⟩ := hreport 2 reply emptyBarrier hmem hframe rfl
  rw [hentries] at hreply
  exact ⟨s, reply, b, n, hs, hlimit, hmem, hreply⟩

end Ecopy.Server.Pool
