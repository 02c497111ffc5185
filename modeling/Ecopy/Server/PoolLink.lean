import Ecopy.Remote.ApplyPool
import Ecopy.Server.PoolReport
import Mathlib.Data.List.Count
import Mathlib.Data.List.Perm.Basic

/-!
# The pool behind a connection

To the client a server is a `Link`: the frames under way, the one that the reader handles
itself, the queue and the jobs that run. Every run of the pool is a run of such a link, whatever
the frames are called there, as long as a name tells whether its frame is pooled. A frame that
the reader holds while it waits is still under way.
-/
namespace Ecopy.Server.Pool
open Protocol Lib.Runs
open Remote (ApplyPool Link Request)

/-- The frame that was read and is neither queued nor handled yet. -/
def Reader.held : Reader → List Frame
  | .submitting job _ => [job.frame]
  | .draining (.handle job) _ => [job.frame]
  | _ => []

def Reader.inHand : Reader → Option Frame
  | .inline job => some job.frame
  | _ => none

def Worker.frame : Worker → Option Frame
  | .running job => some job.frame
  | _ => none

/-- The link is what the client makes of the pool, when `sent` is all that was sent to it. -/
structure Shows {π : Type*} (name : Frame → Request π) (sent : List Frame) (s : State)
    (l : Link π) : Prop where
  channel : l.channel = (s.reader.held ++ sent.drop s.frames.length).map name
  reader : l.reader = s.reader.inHand.map name
  queue : l.queue = s.queue.map fun job => name job.frame
  active : l.active.Perm ((s.workers.filterMap Worker.frame).map name)
  replied : ∀ k reply, (k, reply) ∈ s.replies →
    ∃ f, s.frames[k]? = some f ∧ ∀ id, name f = .barrier id → id ∈ l.replied

theorem length_frames (ws : List Worker) :
    (ws.filterMap Worker.frame).length = ws.countP Worker.isBusy := by
  rw [List.length_filterMap_eq_countP]
  refine List.countP_congr fun w _ => ?_
  cases w <;> rfl

theorem frames_cons (w : Worker) (ws : List Worker) :
    (w :: ws).filterMap Worker.frame = w.frame.toList ++ ws.filterMap Worker.frame := by
  cases w <;> rfl

theorem frames_set {ws : List Worker} {i : ℕ} {w v : Worker} (hi : ws[i]? = some w) :
    (w.frame.toList ++ (ws.set i v).filterMap Worker.frame).Perm
      (v.frame.toList ++ ws.filterMap Worker.frame) := by
  induction ws generalizing i with
  | nil => cases hi
  | cons x ws ih =>
    cases i with
    | zero =>
      obtain rfl : x = w := Option.some.inj hi
      rw [List.set_cons_zero, frames_cons, frames_cons]
      exact List.perm_append_comm_assoc _ _ _
    | succ i =>
      rw [List.set_cons_succ, frames_cons, frames_cons]
      have hrest := (ih hi).append_left x.frame.toList
      exact (List.perm_append_comm_assoc _ _ _).trans
        (hrest.trans (List.perm_append_comm_assoc _ _ _))

/-- Two states between which no worker begins or ends a job. -/
theorem frames_set_same {ws : List Worker} {i : ℕ} {w v : Worker} (hi : ws[i]? = some w)
    (hv : v.frame = w.frame) :
    ((ws.set i v).filterMap Worker.frame).Perm (ws.filterMap Worker.frame) := by
  have := frames_set (v := v) hi
  rw [hv] at this
  exact (List.perm_append_left_iff _).mp this

theorem frames_signalWork {ws vs : List Worker} {wake : Option ℕ}
    (h : signalWork ws wake = some vs) :
    (vs.filterMap Worker.frame).Perm (ws.filterMap Worker.frame) := by
  obtain ⟨i, hi, rfl⟩ | ⟨-, rfl⟩ := signalWork_cases h
  · exact frames_set_same hi rfl
  · rfl

theorem frames_broadcastWork (ws : List Worker) :
    (broadcastWork ws).filterMap Worker.frame = ws.filterMap Worker.frame := by
  rw [broadcastWork, List.filterMap_map]
  refine List.filterMap_congr fun w _ => ?_
  cases w <;> rfl

theorem Reader.shown_jobEnded (idle : Bool) (r : Reader) :
    (r.jobEnded idle).held = r.held ∧ (r.jobEnded idle).inHand = r.inHand := by
  cases r with
  | draining goal parked => cases goal <;> cases idle <;> exact ⟨rfl, rfl⟩
  | _ => cases idle <;> exact ⟨rfl, rfl⟩

theorem shown_shutdown (s : State) : s.shutdown.reader.held = [] ∧ s.shutdown.reader.inHand = none := by
  unfold State.shutdown
  dsimp only
  split <;> exact ⟨rfl, rfl⟩

section Serving
variable {π : Type*} {P : ApplyPool} {l : Link π} {m : Request π} {rest : List (Request π)}

/-- The reader may handle a frame itself: for want of memory, without a pool, or alone. -/
theorem exists_take (hreader : l.reader = none) (hchannel : l.channel = m :: rest)
    (hfree : m.pooled = true ∨ P.threads = 0 ∨ (l.queue = [] ∧ l.active = [])) :
    ∃ a, l.serve P a = some { l with channel := rest, reader := some m } := by
  by_cases hpool : m.pooled = true ∧ 0 < P.threads
  · exact ⟨.readNoMemory, by simp only [Link.serve, hreader, hchannel, if_pos hpool]⟩
  · refine ⟨.read, ?_⟩
    simp only [Link.serve, hreader, hchannel, if_neg hpool, List.isEmpty_iff]
    refine if_pos ?_
    rcases hfree with hpooled | hfree
    · exact .inl (by_contra fun h => hpool ⟨hpooled, Nat.pos_of_ne_zero h⟩)
    · exact hfree

theorem exists_leave (hreader : l.reader = some m) :
    ∃ ids, l.serve P .finishInline = some { l with reader := none, replied := l.replied ++ ids } ∧
      ∀ id, m = .barrier id → id ∈ ids := by
  cases m with
  | barrier id => exact ⟨[id], by simp only [Link.serve, hreader], by simp⟩
  | _ => exact ⟨[], by simp only [Link.serve, hreader, List.append_nil], by simp⟩

end Serving

section Steps
variable {who : Identity} {cfg : Config} {π : Type*} {name : Frame → Request π} {P : ApplyPool}
  {sent : List Frame} {s u : State} {l : Link π} {job : Job}

/-- What the client does not see. -/
theorem Shows.stay (h : Shows name sent s l) (hf : u.frames = s.frames)
    (hheld : u.reader.held = s.reader.held) (hhand : u.reader.inHand = s.reader.inHand)
    (hq : u.queue = s.queue)
    (hw : (u.workers.filterMap Worker.frame).Perm (s.workers.filterMap Worker.frame))
    (hr : u.replies = s.replies) : Shows name sent u l where
  channel := by rw [hf, hheld, h.channel]
  reader := by rw [hhand, h.reader]
  queue := by rw [hq, h.queue]
  active := h.active.trans (hw.map name).symm
  replied := by
    rw [hr, hf]
    exact h.replied

theorem Shows.read (h : Shows name sent s l) (hr : s.reader = .reading) {f : Frame}
    (hsent : s.frames ++ [f] <+: sent) {r : Reader} (hheld : r.held = [f]) (hhand : r.inHand = none) :
    Shows name sent { s with frames := s.frames ++ [f], reader := r } l where
  channel := by
    obtain ⟨rest, rfl⟩ := hsent
    rw [h.channel, hr, hheld, List.drop_left, List.append_assoc, List.drop_left]
    rfl
  reader := by
    rw [h.reader, hr, hhand]
    rfl
  queue := h.queue
  active := h.active
  replied := by
    intro k reply hmem
    obtain ⟨g, hg, hid⟩ := h.replied k reply hmem
    exact ⟨g, getElem?_append_of_some hg, hid⟩

/-- The handler of the frame in the reader's hands has returned. -/
theorem Shows.leave (h : Shows name sent s l) (hr : s.reader = .inline job) (hf : u.frames = s.frames)
    (hheld : u.reader.held = []) (hhand : u.reader.inHand = none) (hq : u.queue = s.queue)
    (hw : u.workers.filterMap Worker.frame = s.workers.filterMap Worker.frame)
    (hrep : ∀ k reply, (k, reply) ∈ u.replies →
      (k, reply) ∈ s.replies ∨ s.frames[k]? = some job.frame) :
    ∃ as k, exec (Link.serve P) l as = some k ∧ Shows name sent u k := by
  have hhandled : l.reader = some (name job.frame) := by
    rw [h.reader, hr]
    rfl
  obtain ⟨ids, hserve, hids⟩ := exists_leave (P := P) hhandled
  refine ⟨[.finishInline], _, exec_cons_eq_some.mpr ⟨_, hserve, rfl⟩, ?_, ?_, ?_, ?_, ?_⟩
  · rw [hf, hheld, h.channel, hr]
    rfl
  · rw [hhand]
    rfl
  · rw [hq]
    exact h.queue
  · rw [hw]
    exact h.active
  · intro k reply hmem
    rw [hf]
    rcases hrep k reply hmem with hold | hnew
    · obtain ⟨f, hfk, hid⟩ := h.replied k reply hold
      exact ⟨f, hfk, fun id hname => List.mem_append_left _ (hid id hname)⟩
    · exact ⟨_, hnew, fun id hname => List.mem_append_right _ (hids id hname)⟩

/-- The handler of a frame begins, and for BYE it ends as well. -/
theorem Shows.dispatch (h : Shows name sent s l) (hheld : s.reader.held = [job.frame])
    (hhand : s.reader.inHand = none)
    (hfree : (name job.frame).pooled = true ∨ P.threads = 0 ∨ (l.queue = [] ∧ l.active = [])) :
    ∃ as k, exec (Link.serve P) l as = some k ∧ Shows name sent (s.dispatch job) k := by
  have hreader : l.reader = none := by rw [h.reader, hhand]; rfl
  have hchannel : l.channel = name job.frame :: (sent.drop s.frames.length).map name := by
    rw [h.channel, hheld]
    rfl
  obtain ⟨a, ha⟩ := exists_take hreader hchannel hfree
  have htaken : Shows name sent { s with reader := .inline job }
      { l with channel := (sent.drop s.frames.length).map name, reader := some (name job.frame) } :=
    ⟨rfl, rfl, h.queue, h.active, h.replied⟩
  unfold State.dispatch
  split
  · obtain ⟨hheld', hhand'⟩ := shown_shutdown
      { s with history := s.history ++ [.began job.number, .ended job.number] }
    obtain ⟨as, k, hk, hshows⟩ := htaken.leave (P := P)
      (u := State.shutdown { s with history := s.history ++ [.began job.number, .ended job.number] })
      rfl rfl hheld' hhand' rfl rfl fun _ _ hmem => .inl hmem
    exact ⟨a :: as, k, exec_cons_eq_some.mpr ⟨_, ha, hk⟩, hshows⟩
  · exact ⟨[a], _, exec_cons_eq_some.mpr ⟨_, ha, rfl⟩,
      htaken.stay rfl rfl rfl rfl (List.Perm.refl _) rfl⟩

theorem Shows.enqueue (h : Shows name sent s l) (hn : ∀ f, (name f).pooled = pooled f.type)
    (hc : Counters s) (ho : Ordered cfg s) (hne : s.workers ≠ [])
    (hP : P = ⟨s.workers.length, s.limit⟩) (hr : s.reader = .submitting job false)
    (hroom : s.queued + s.active < s.limit) {ws : List Worker}
    (hw : (ws.filterMap Worker.frame).Perm (s.workers.filterMap Worker.frame)) :
    ∃ as k, exec (Link.serve P) l as = some k ∧ Shows name sent { s with
      reader := .reading, queue := s.queue ++ [job], queued := s.queued + 1, workers := ws } k := by
  subst hP
  have hreader : l.reader = none := by rw [h.reader, hr]; rfl
  have hchannel : l.channel = name job.frame :: (sent.drop s.frames.length).map name := by
    rw [h.channel, hr]
    rfl
  have hpool : (name job.frame).pooled = true ∧ 0 < s.workers.length :=
    ⟨(hn job.frame).trans (ho.kind job false hr), List.length_pos_of_ne_nil hne⟩
  have hlimit : l.queue.length + l.active.length < s.limit := by
    rw [h.queue, h.active.length_eq, List.length_map, List.length_map, length_frames,
      ← hc.active, ← hc.queued]
    exact hroom
  have hserve : l.serve ⟨s.workers.length, s.limit⟩ .read = some { l with
      channel := (sent.drop s.frames.length).map name, queue := l.queue ++ [name job.frame] } := by
    simp only [Link.serve, hreader, hchannel, if_pos hpool, if_pos hlimit]
  refine ⟨[.read], _, exec_cons_eq_some.mpr ⟨_, hserve, rfl⟩, rfl, hreader, ?_, ?_, h.replied⟩
  · rw [List.map_append, ← h.queue]
    rfl
  · exact h.active.trans (hw.map name).symm

theorem Shows.take (h : Shows name sent s l) (hP : P = ⟨s.workers.length, s.limit⟩) {i : ℕ}
    {rest : List Job} (hi : s.workers[i]? = some .awake) (hq : s.queue = job :: rest)
    (hist : List Event) :
    ∃ as k, exec (Link.serve P) l as = some k ∧ Shows name sent { s with
      queue := rest, queued := s.queued - 1, active := s.active + 1
      workers := s.workers.set i (.running job), history := hist } k := by
  subst hP
  have hqueue : l.queue = name job.frame :: rest.map fun job => name job.frame := by
    rw [h.queue, hq]
    rfl
  have hthread : l.active.length < s.workers.length := by
    rw [h.active.length_eq, List.length_map, length_frames]
    exact List.countP_lt_length_iff.mpr ⟨_, List.mem_of_getElem? hi, rfl⟩
  have hserve : l.serve ⟨s.workers.length, s.limit⟩ .start = some { l with
      queue := rest.map fun job => name job.frame, active := l.active ++ [name job.frame] } := by
    simp only [Link.serve, hqueue, if_pos hthread]
  refine ⟨[.start], _, exec_cons_eq_some.mpr ⟨_, hserve, rfl⟩, h.channel, h.reader, rfl, ?_,
    h.replied⟩
  have hset := (frames_set (v := .running job) hi).map name
  exact (List.perm_append_comm.trans (h.active.cons _)).trans hset.symm

theorem exists_erase {α : Type*} {a : α} {xs ys : List α} (h : xs.Perm (a :: ys)) :
    ∃ j < xs.length, (xs.eraseIdx j).Perm ys := by
  obtain ⟨j, hj, hget⟩ := List.mem_iff_getElem.mp (h.symm.mem_iff.mp List.mem_cons_self)
  refine ⟨j, hj, List.Perm.cons_inv (a := a) ?_⟩
  rw [← hget]
  exact (List.getElem_cons_eraseIdx_perm hj).trans (hget ▸ h)

theorem Shows.finish (h : Shows name sent s l) {i : ℕ} (hi : s.workers[i]? = some (.running job))
    (idle : Bool) (hist : List Event) :
    ∃ as k, exec (Link.serve P) l as = some k ∧ Shows name sent { s with
      active := s.active - 1, workers := s.workers.set i .awake
      reader := s.reader.jobEnded idle, history := hist } k := by
  have hset := (frames_set (v := .awake) hi).map name
  obtain ⟨j, hj, hrest⟩ := exists_erase (h.active.trans hset.symm)
  have hserve : l.serve P (.finish j) = some { l with active := l.active.eraseIdx j } := by
    simp only [Link.serve, if_pos hj]
  obtain ⟨hheld, hhand⟩ := s.reader.shown_jobEnded idle
  refine ⟨[.finish j], _, exec_cons_eq_some.mpr ⟨_, hserve, rfl⟩, ?_, ?_, h.queue, hrest, h.replied⟩
  · rw [hheld]
    exact h.channel
  · rw [hhand]
    exact h.reader

theorem dispatch_fields (s : State) (job : Job) :
    (s.dispatch job).frames = s.frames ∧ (s.dispatch job).workers = s.workers ∧
      (s.dispatch job).limit = s.limit := by
  unfold State.dispatch
  split <;> exact ⟨rfl, rfl, rfl⟩

theorem poolStart_cases (s : State) (f : Frame) (started : ℕ) :
    (s.poolStart f started).queue = s.queue ∧
      (s.poolStart f started).workers.filterMap Worker.frame = s.workers.filterMap Worker.frame ∧
      (s.workers = [] ∨ s.poolStart f started = s) := by
  unfold State.poolStart
  split
  · rename_i hstart
    have hw : s.workers = [] := by simpa using hstart.2.1
    refine ⟨rfl, ?_, .inl hw⟩
    rw [hw]
    simp [List.filterMap_replicate, Worker.frame]
  · exact ⟨rfl, rfl, .inr rfl⟩

/-- One step of the pool is a step of the link or none, and two where BYE ends the loop. -/
theorem Shows.step (h : Shows name sent s l) (hn : ∀ f, (name f).pooled = pooled f.type)
    (hc : Counters s) (ho : Ordered cfg s)
    (hP : s.workers = [] ∨ P = ⟨s.workers.length, s.limit⟩) (hs : Step who cfg s u)
    (hsent : u.frames <+: sent) :
    ∃ as k, exec (Link.serve P) l as = some k ∧ Shows name sent u k := by
  have hpool : ∀ {i : ℕ} {w : Worker}, s.workers[i]? = some w → P = ⟨s.workers.length, s.limit⟩ := by
    intro i w hi
    refine hP.resolve_left fun hnil => ?_
    rw [hnil] at hi
    cases hi
  have stay : ∀ {u : State}, Shows name sent u l →
      ∃ as k, exec (Link.serve P) l as = some k ∧ Shows name sent u k := fun hu => ⟨[], l, rfl, hu⟩
  have idle : s.queue = [] → s.active = 0 → l.queue = [] ∧ l.active = [] := by
    intro hq hz
    refine ⟨by rw [h.queue, hq]; rfl, List.length_eq_zero_iff.mp ?_⟩
    rw [h.active.length_eq, List.length_map, length_frames, ← hc.active, hz]
  cases hs with
  | @alone f hr hw =>
    have hread : Shows name sent { s with
        frames := s.frames ++ [f], reader := .submitting ⟨s.frames.length, f, handle cfg f⟩ false } l := by
      refine h.read hr ?_ rfl rfl
      rwa [(dispatch_fields _ _).1] at hsent
    rw [← dispatch_reader _ (.submitting ⟨s.frames.length, f, handle cfg f⟩ false)]
    refine hread.dispatch rfl rfl (.inr (.inr ?_))
    obtain ⟨hq, hz⟩ := hc.idle_of_noPool hw
    exact idle hq hz
  | submit hr => exact stay (h.read hr hsent rfl rfl)
  | drain hr => exact stay (h.read hr hsent rfl rfl)
  | endOfInput hr =>
    obtain ⟨hheld, hhand⟩ := shown_shutdown s
    refine stay (h.stay rfl ?_ ?_ rfl (.refl _) rfl)
    · rw [hheld, hr]
      rfl
    · rw [hhand, hr]
      rfl
  | @noMemory job hr =>
    refine h.dispatch (by rw [hr]; rfl) (by rw [hr]; rfl) (.inl ?_)
    exact (hn job.frame).trans (ho.kind job false hr)
  | parkSpace hr => exact stay (h.stay rfl (by rw [hr]; rfl) (by rw [hr]; rfl) rfl (.refl _) rfl)
  | enqueue hr hroom hw =>
    have hne : s.workers ≠ [] := fun hnil => by
      have := (hc.noPool hnil).2
      rw [hr] at this
      cases this
    exact h.enqueue hn hc ho hne (hP.resolve_left hne) hr hroom (frames_signalWork hw)
  | @parkDrain goal hr =>
    exact stay (h.stay rfl (by rw [hr]; cases goal <;> rfl) (by rw [hr]; rfl) rfl (.refl _) rfl)
  | drained hr hq hz =>
    refine h.dispatch (by rw [hr]; rfl) (by rw [hr]; rfl) (.inr (.inr (idle ?_ hz)))
    exact List.length_eq_zero_iff.mp (hc.queued.symm.trans hq)
  | stopping hr =>
    refine stay (h.stay rfl (by rw [hr]; rfl) (by rw [hr]; rfl) rfl ?_ rfl)
    exact .of_eq (frames_broadcastWork _)
  | inline hr hj =>
    obtain ⟨c, k, r, -, -, rfl, -⟩ := Job.step_cases hj
    exact stay (h.stay rfl (by rw [hr]; rfl) (by rw [hr]; rfl) rfl (.refl _) rfl)
  | silent hr => exact h.leave hr rfl rfl rfl rfl rfl fun _ _ hmem => .inl hmem
  | @replied job reply started hr =>
    obtain ⟨hf, hreader, hrep⟩ := poolStart_fields (s.finishInline job) job.frame started
    obtain ⟨hq, hw, -⟩ := poolStart_cases (s.finishInline job) job.frame started
    refine h.leave hr hf (by rw [hreader]; rfl) (by rw [hreader]; rfl) hq hw ?_
    intro k r hmem
    rcases List.mem_append.mp hmem with hmem | hmem
    · rw [hrep] at hmem
      exact .inl hmem
    · obtain ⟨rfl, rfl⟩ := Prod.mk.inj (List.mem_singleton.mp hmem)
      exact .inr (ho.mine job (by rw [hr]; rfl)).2
  | @unsent job reply started hr =>
    obtain ⟨hf, -, hrep⟩ := poolStart_fields (s.finishInline job) job.frame started
    obtain ⟨hq, hw, -⟩ := poolStart_cases (s.finishInline job) job.frame started
    obtain ⟨hheld, hhand⟩ := shown_shutdown ((s.finishInline job).poolStart job.frame started)
    refine h.leave hr hf hheld hhand hq hw ?_
    intro k r hmem
    rw [show (State.shutdown _).replies = _ from hrep] at hmem
    exact .inl hmem
  | join hr => exact stay (h.stay rfl (by rw [hr]; rfl) (by rw [hr]; rfl) rfl (.refl _) rfl)
  | take hi hq => exact h.take (hpool hi) hi hq _
  | idle hi =>
    refine stay (h.stay rfl rfl rfl rfl (frames_set_same hi ?_) rfl)
    split <;> rfl
  | call hi hj =>
    obtain ⟨c, k, r, -, -, rfl, -⟩ := Job.step_cases hj
    exact stay (h.stay rfl rfl rfl rfl (frames_set_same hi rfl) rfl)
  | finish hi => exact h.finish hi _ _
  | spurious hi => exact stay (h.stay rfl rfl rfl rfl (frames_set_same hi rfl) rfl)
  | wakeSubmit hr => exact stay (h.stay rfl (by rw [hr]; rfl) (by rw [hr]; rfl) rfl (.refl _) rfl)
  | @wakeDrain goal hr =>
    exact stay (h.stay rfl (by rw [hr]; cases goal <;> rfl) (by rw [hr]; rfl) rfl (.refl _) rfl)

/-- The pool is started once, and frames are only added. -/
theorem Step.settled (hs : Step who cfg s u) :
    s.frames <+: u.frames ∧
      (s.workers = [] ∨ (u.workers.length = s.workers.length ∧ u.limit = s.limit)) := by
  have fixed : u.frames = s.frames → u.workers.length = s.workers.length → u.limit = s.limit →
      s.frames <+: u.frames ∧
        (s.workers = [] ∨ (u.workers.length = s.workers.length ∧ u.limit = s.limit)) :=
    fun hf hw hl => ⟨hf ▸ List.prefix_rfl, .inr ⟨hw, hl⟩⟩
  have started : ∀ {job : Job} {f : Frame} {n : ℕ} {v : State},
      v = (s.finishInline job).poolStart f n → u.frames = v.frames → u.workers = v.workers →
      u.limit = v.limit → s.frames <+: u.frames ∧
        (s.workers = [] ∨ (u.workers.length = s.workers.length ∧ u.limit = s.limit)) := by
    rintro job f n v rfl hf hw hl
    rcases (poolStart_cases (s.finishInline job) f n).2.2 with hnil | hsame
    · exact ⟨by rw [hf, (poolStart_fields _ _ _).1]; exact List.prefix_rfl, .inl hnil⟩
    · rw [hsame] at hf hw hl
      exact fixed hf (by rw [hw]; rfl) hl
  cases hs with
  | @alone f hr hw =>
    rw [(dispatch_fields _ _).1]
    exact ⟨List.prefix_append _ _, .inl hw⟩
  | submit | drain => exact ⟨List.prefix_append _ _, .inr ⟨rfl, rfl⟩⟩
  | noMemory | drained =>
    obtain ⟨hf, hw, hl⟩ := dispatch_fields s _
    exact fixed hf (by rw [hw]) hl
  | enqueue hr hroom hw =>
    refine fixed rfl ?_ rfl
    obtain ⟨i, -, rfl⟩ | ⟨-, rfl⟩ := signalWork_cases hw
    · exact List.length_set
    · rfl
  | stopping => exact fixed rfl (List.length_map _) rfl
  | replied | unsent => exact started rfl rfl rfl rfl
  | take | idle | call | finish | spurious => exact fixed rfl List.length_set rfl
  | _ => exact fixed rfl rfl rfl

/-- Every run of the pool is a run of the link on which its frames were sent. -/
theorem serves_link {fs : FileSystem.Fs} (hn : ∀ f, (name f).pooled = pooled f.type)
    (h : Reachable (next who cfg) (State.start fs) s) (hsent : s.frames <+: sent) :
    ∃ l : Link π, Reachable (Link.serve ⟨s.workers.length, s.limit⟩)
      { Link.empty with channel := sent.map name } l ∧ Shows name sent s l := by
  -- the threads that there are at the end serve the link from the start
  let served := fun s : State => ∀ P : ApplyPool,
    s.workers = [] ∨ P = ⟨s.workers.length, s.limit⟩ → s.frames <+: sent →
      ∃ l : Link π, Reachable (Link.serve P) { Link.empty with channel := sent.map name } l ∧
        Shows name sent s l
  have hall : Inv who cfg s ∧ served s := by
    refine h.invariant (I := fun s => Inv who cfg s ∧ served s) ⟨.start fs, ?_⟩ ?_
    · intro P hP hsent
      exact ⟨_, ⟨[], rfl⟩, rfl, rfl, rfl, .refl _, fun _ _ hmem => nomatch hmem⟩
    · rintro s a u ⟨hi, hserved⟩ ha
      have hs := next_step ha
      refine ⟨hi.step hs, fun P hP hsent => ?_⟩
      obtain ⟨hfirst, hpool⟩ := hs.settled
      have hP' : s.workers = [] ∨ P = ⟨s.workers.length, s.limit⟩ := by
        rcases hpool with hnil | ⟨hw, hl⟩
        · exact .inl hnil
        · refine hP.imp (fun hnil => ?_) fun hP => by rw [hP, hw, hl]
          rw [hnil] at hw
          exact List.length_eq_zero_iff.mp hw.symm
      obtain ⟨l, hreach, hshows⟩ := hserved P hP' (hfirst.trans hsent)
      obtain ⟨as, k, hk, hshows'⟩ := hshows.step hn hi.counters hi.ordered hP' hs hsent
      exact ⟨k, hreach.exec hk, hshows'⟩
  exact hall.2 _ (.inr rfl) hsent

end Steps

end Ecopy.Server.Pool
