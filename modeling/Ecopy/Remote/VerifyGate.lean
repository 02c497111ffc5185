import Ecopy.Remote.VerifyOrder

/-!
# The generation gate

An item is safe to verify once its path is settled: no thread will send another
frame for it and no connection has one pending. Streamed files are settled when
their commit has been answered. A generation becomes settled connection by
connection while the feeder sweeps: on the connections already passed the paths
are clear, on the current one the feeder's barrier stands behind them.

Every step keeps what is settled, swept or fenced (`Keeps`), because frames
that change a path are sent only for paths nobody has handled yet. The rest is
bookkeeping, one invariant for each list the items pass through.
-/
namespace Ecopy.Remote.VerifyOrder
open Lib.Runs Link

section Gate
variable {π : Type*} {P : Params π} {s u : State P} {p : π}

/-- Nothing is pending for the path and nothing more will be sent for it. -/
structure Settled (s : State P) (p : π) : Prop where
  handled : s.stage p ≠ .fresh
  clear : ∀ c, (s.link c).Clear p

/-- The sweep has passed the connections before `conn`, and waits on `conn`
for the reply to the barrier `wait`. -/
structure Swept (s : State P) (conn : ℕ) (wait : Option ℕ) (p : π) : Prop where
  handled : s.stage p ≠ .fresh
  passed : ∀ c : Fin P.nconns, c.val < conn → (s.link c).Clear p
  fenced : ∀ id, wait = some id → ∀ c : Fin P.nconns, c.val = conn → (s.link c).Fenced p id

structure ItemOk (s : State P) (item : Item π) : Prop where
  handled : s.stage item.path ≠ .fresh
  durable : item.durable = true → ∀ c, (s.link c).Clear item.path

structure Keeps (s u : State P) : Prop where
  handled : ∀ p, s.stage p ≠ .fresh → u.stage p ≠ .fresh
  clear : ∀ p, s.stage p ≠ .fresh → ∀ c, (s.link c).Clear p → (u.link c).Clear p
  fenced : ∀ p, s.stage p ≠ .fresh → ∀ c id, (s.link c).Fenced p id → (u.link c).Fenced p id

theorem Settled.keep (h : Settled s p) (k : Keeps s u) : Settled u p :=
  ⟨k.handled p h.handled, fun c => k.clear p h.handled c (h.clear c)⟩

theorem Swept.keep {conn : ℕ} {wait : Option ℕ} (h : Swept s conn wait p) (k : Keeps s u) :
    Swept u conn wait p :=
  ⟨k.handled p h.handled, fun c hc => k.clear p h.handled c (h.passed c hc),
    fun id hid c hc => k.fenced p h.handled c id (h.fenced id hid c hc)⟩

theorem ItemOk.keep {item : Item π} (h : ItemOk s item) (k : Keeps s u) : ItemOk u item :=
  ⟨k.handled _ h.handled, fun hd c => k.clear _ h.handled c (h.durable hd c)⟩

theorem ItemOk.settled {item : Item π} (h : ItemOk s item) (hd : item.durable = true) :
    Settled s item.path :=
  ⟨h.handled, h.durable hd⟩

/-- The reply moves the sweep on. -/
theorem Swept.reply {conn id : ℕ} (h : Swept s conn (some id) p)
    (hid : ∃ hc : conn < P.nconns, id ∈ (s.link ⟨conn, hc⟩).replied) :
    Swept s (conn + 1) none p := by
  obtain ⟨hc, hid⟩ := hid
  refine ⟨h.handled, ?_, by simp⟩
  intro c hlt
  by_cases heq : c.val = conn
  · have hf : (s.link c).Fenced p id := h.fenced id rfl c heq
    have hcc : c = ⟨conn, hc⟩ := Fin.ext heq
    subst hcc
    exact hf.clear_of_replied hid
  · exact h.passed c (by omega)

theorem Swept.settled {conn : ℕ} {wait : Option ℕ} (h : Swept s conn wait p)
    (hc : P.nconns ≤ conn) : Settled s p :=
  ⟨h.handled, fun c => h.passed c (lt_of_lt_of_le c.isLt hc)⟩

theorem Keeps.of_eq (hl : u.link = s.link) (hst : u.stage = s.stage) : Keeps s u := by
  constructor
  · intro p h
    rwa [hst]
  · intro p _ c h
    rwa [hl]
  · intro p _ c id h
    rwa [hl]

structure LinksInv (s : State P) : Prop where
  wf : ∀ c, (s.link c).Wf (P.pool c)
  fresh : ∀ p, s.stage p = .fresh → ∀ c, (s.link c).Clear p
  streamed : ∀ p, s.stage p = .copied → viaPutfile P p = false → ∀ c, (s.link c).Clear p
  asked : ∀ c p, .verifyPath p ∈ (s.link c).pending → Settled s p

theorem LinksInv.of_eq (h : LinksInv s) (hl : u.link = s.link) (hst : u.stage = s.stage) :
    LinksInv u := by
  have k : Keeps s u := .of_eq hl hst
  constructor
  · intro c
    rw [hl]
    exact h.wf c
  · intro p hp c
    rw [hl]
    exact h.fresh p (by rw [← hst, hp]) c
  · intro p hp hv c
    rw [hl]
    exact h.streamed p (by rw [← hst, hp]) hv c
  · intro c p hm
    rw [hl] at hm
    exact (h.asked c p hm).keep k

section Send
variable {c d : Fin P.nconns} {m : Request π}

theorem clear_sendOn (hm : ¬ m.Writes p) (h : (s.link d).Clear p) :
    ((s.sendOn c m).link d).Clear p := by
  by_cases hd : d = c
  · subst hd
    simpa [State.sendOn] using h.send hm
  · simpa [State.sendOn, hd] using h

theorem fenced_sendOn {id : ℕ} (hm : ¬ m.Writes p) (h : (s.link d).Fenced p id) :
    ((s.sendOn c m).link d).Fenced p id := by
  by_cases hd : d = c
  · subst hd
    simpa [State.sendOn] using h.send hm
  · simpa [State.sendOn, hd] using h

theorem wf_sendOn (hb : ∀ id, m = .barrier id → id = (s.link c).nextId)
    (h : (s.link d).Wf (P.pool d)) : ((s.sendOn c m).link d).Wf (P.pool d) := by
  by_cases hd : d = c
  · subst hd
    simpa [State.sendOn] using h.send hb
  · simpa [State.sendOn, hd] using h

theorem pending_sendOn {x : Request π} (h : x ∈ ((s.sendOn c m).link d).pending) :
    x ∈ (s.link d).pending ∨ x = m := by
  by_cases hd : d = c
  · subst hd
    simpa [State.sendOn, mem_pending_send] using h
  · simp only [State.sendOn, Function.update_of_ne hd] at h
    exact .inl h

end Send

/-- Frames that change nothing: the stages stay as they are. -/
theorem Keeps.sendOn {c : Fin P.nconns} {m : Request π} (hm : ∀ p, ¬ m.Writes p) :
    Keeps s (s.sendOn c m) := by
  constructor
  · exact fun p h => h
  · exact fun p _ d h => clear_sendOn (hm p) h
  · exact fun p _ d id h => fenced_sendOn (hm p) h

theorem LinksInv.sendOn (h : LinksInv s) {c : Fin P.nconns} {m : Request π}
    (hm : ∀ p, ¬ m.Writes p) (hb : ∀ id, m = .barrier id → id = (s.link c).nextId)
    (hv : ∀ p, m = .verifyPath p → Settled s p) : LinksInv (s.sendOn c m) := by
  have k : Keeps s (s.sendOn c m) := .sendOn hm
  constructor
  · exact fun d => wf_sendOn hb (h.wf d)
  · exact fun p hp d => clear_sendOn (hm p) (h.fresh p hp d)
  · exact fun p hp hpv d => clear_sendOn (hm p) (h.streamed p hp hpv d)
  · intro d p hd
    refine Settled.keep ?_ k
    rcases pending_sendOn hd with hd | hd
    · exact h.asked d p hd
    · exact hv p hd.symm

theorem barrierOn_eq_sendOn (s : State P) (c : Fin P.nconns) :
    s.barrierOn c = s.sendOn c (.barrier (s.link c).nextId) := rfl

theorem Keeps.barrierOn {c : Fin P.nconns} : Keeps s (s.barrierOn c) := by
  rw [barrierOn_eq_sendOn]
  exact .sendOn (by simp)

/-- A barrier opens the fence on its connection. -/
theorem Swept.barrierOn {conn : ℕ} (h : LinksInv s) (hs : Swept s conn none p)
    (hc : conn < P.nconns) :
    Swept (s.barrierOn ⟨conn, hc⟩) conn (some (s.link ⟨conn, hc⟩).nextId) p := by
  have hk := hs.keep (Keeps.barrierOn (c := ⟨conn, hc⟩))
  refine ⟨hk.handled, hk.passed, ?_⟩
  intro id hid c heq
  obtain rfl : c = ⟨conn, hc⟩ := Fin.ext heq
  cases hid
  simpa [State.barrierOn] using fenced_sendBarrier (h.wf _) p

section Handle
variable [DecidableEq π] {c : Fin P.nconns} {m : Request π} {g : Stage}

/-- A thread takes on the path `p` that nobody has handled and sends the one
frame `m` for it. -/
def State.handle (s : State P) (c : Fin P.nconns) (m : Request π) (p : π) (g : Stage) : State P :=
  (s.sendOn c m).setStage p g

theorem stage_handle (s : State P) (c : Fin P.nconns) (m : Request π) (p : π) (g : Stage) :
    (s.handle c m p g).stage = Function.update s.stage p g := rfl

theorem Keeps.handle (hp : s.stage p = .fresh) (hm : ∀ q, m.Writes q → q = p) :
    Keeps s (s.handle c m p g) := by
  have hne : ∀ q, s.stage q ≠ .fresh → q ≠ p := by
    intro q hq heq
    exact hq (heq ▸ hp)
  constructor
  · intro q hq
    rw [stage_handle, Function.update_of_ne (hne q hq)]
    exact hq
  · exact fun q hq d h => clear_sendOn (fun hw => hne q hq (hm q hw)) h
  · exact fun q hq d id h => fenced_sendOn (fun hw => hne q hq (hm q hw)) h

theorem LinksInv.handle (h : LinksInv s) (hp : s.stage p = .fresh) (hg : g ≠ .fresh)
    (hm : ∀ q, m.Writes q → q = p)
    (hstream : g = .copied → viaPutfile P p = false → ¬ m.Writes p)
    (hb : ∀ id, m ≠ .barrier id) (hv : ∀ q, m ≠ .verifyPath q) : LinksInv (s.handle c m p g) := by
  have k : Keeps s (s.handle c m p g) := .handle hp hm
  have hother : ∀ q, q ≠ p → ¬ m.Writes q := fun q hq hw => hq (hm q hw)
  constructor
  · exact fun d => wf_sendOn (fun id hid => absurd hid (hb id)) (h.wf d)
  · intro q hq d
    rw [stage_handle] at hq
    by_cases hqp : q = p
    · subst hqp
      rw [Function.update_self] at hq
      exact absurd hq hg
    · rw [Function.update_of_ne hqp] at hq
      exact clear_sendOn (hother q hqp) (h.fresh q hq d)
  · intro q hq hpv d
    rw [stage_handle] at hq
    by_cases hqp : q = p
    · subst hqp
      rw [Function.update_self] at hq
      exact clear_sendOn (hstream hq hpv) (h.fresh q hp d)
    · rw [Function.update_of_ne hqp] at hq
      exact clear_sendOn (hother q hqp) (h.streamed q hq hpv d)
  · intro d q hd
    refine Settled.keep ?_ k
    rcases pending_sendOn hd with hd | hd
    · exact h.asked d q hd
    · exact absurd hd.symm (hv q)

end Handle

/-- A server step on one connection. -/
theorem serve_links (h : LinksInv s) {c : Fin P.nconns} {a : ServerAction} {l : Link π}
    (hl : (s.link c).serve (P.pool c) a = some l) :
    Keeps s { s with link := Function.update s.link c l } ∧
      LinksInv { s with link := Function.update s.link c l } := by
  have hclear : ∀ q d, (s.link d).Clear q → (Function.update s.link c l d).Clear q := by
    intro q d hq
    by_cases hd : d = c
    · subst hd
      simpa using hq.serve hl
    · simpa [hd] using hq
  have k : Keeps s { s with link := Function.update s.link c l } := by
    refine ⟨fun q hq => hq, fun q _ d hq => hclear q d hq, ?_⟩
    intro q _ d id hf
    by_cases hd : d = c
    · subst hd
      simpa using hf.serve (h.wf d) hl
    · simpa [hd] using hf
  refine ⟨k, ?_, fun q hq d => hclear q d (h.fresh q hq d),
    fun q hq hpv d => hclear q d (h.streamed q hq hpv d), ?_⟩
  · intro d
    by_cases hd : d = c
    · subst hd
      simpa using (h.wf d).serve hl
    · simpa [hd] using h.wf d
  · intro d q hd
    refine Settled.keep ?_ k
    by_cases hdc : d = c
    · subst hdc
      simp only [Function.update_self] at hd
      exact h.asked d q (pending_of_serve hl hd)
    · simp only [Function.update_of_ne hdc] at hd
      exact h.asked d q hd

/-- Where the feeder is decides what is known about the generation. -/
def FeederOk (s : State P) : Feeder π → Prop
  | .feeding batch _ _ _ => ∀ item ∈ batch, ItemOk s item
  | .sweeping conn wait _ => ∀ p ∈ s.generation, Swept s conn wait p
  | .releasing _ => ∀ p ∈ s.generation, Settled s p
  | .waiting | .exited => True

structure FeederInv (s : State P) : Prop where
  intake : ∀ item ∈ s.intake, ItemOk s item
  generation : ∀ p ∈ s.generation, s.stage p ≠ .fresh
  feeder : FeederOk s s.feeder

structure PoolInv (s : State P) : Prop where
  released : ∀ p ∈ s.released, Settled s p
  checker : ∀ j p, s.checker j = some p → Settled s p

/-- Directories get their last frame while the main thread finalizes; the flush
then sweeps them like a generation. -/
def MainOk (s : State P) : Main → Prop
  | .copying => ∀ p, s.stage p ≠ .finalized
  | .finalizing _ => True
  | .flushing conn wait failed =>
    failed = true ∨ ∀ p, s.stage p = .finalized → Swept s conn wait p
  | .joining includeDirs =>
    includeDirs = true → ∀ p, s.stage p = .finalized → Settled s p
  | .releasing => ∀ p, s.stage p = .finalized → Settled s p
  | .closed => True

structure MainInv (s : State P) : Prop where
  dirs : ∀ p ∈ s.dirs, s.stage p = .finalized
  main : MainOk s s.main

theorem FeederOk.keep {f : Feeder π} (h : FeederOk s f) (k : Keeps s u)
    (hg : u.generation = s.generation) : FeederOk u f := by
  cases f with
  | waiting => trivial
  | exited => trivial
  | feeding batch stolen timedOut stop => exact fun item hm => (h item hm).keep k
  | sweeping conn wait stop =>
    intro p hp
    rw [hg] at hp
    exact (h p hp).keep k
  | releasing stop =>
    intro p hp
    rw [hg] at hp
    exact (h p hp).keep k

theorem FeederInv.keep (h : FeederInv s) (k : Keeps s u) (hi : u.intake = s.intake)
    (hg : u.generation = s.generation) (hf : u.feeder = s.feeder) : FeederInv u := by
  refine ⟨?_, ?_, ?_⟩
  · rw [hi]
    exact fun item hm => (h.intake item hm).keep k
  · rw [hg]
    exact fun p hp => k.handled p (h.generation p hp)
  · rw [hf]
    exact h.feeder.keep k hg

theorem PoolInv.keep (h : PoolInv s) (k : Keeps s u) (hr : u.released = s.released)
    (hc : u.checker = s.checker) : PoolInv u := by
  constructor
  · rw [hr]
    exact fun p hp => (h.released p hp).keep k
  · rw [hc]
    exact fun j p hp => (h.checker j p hp).keep k

/-- Outside finalization no directory gets a new frame. -/
theorem MainOk.keep {m : Main} (h : MainOk s m) (k : Keeps s u)
    (hst : ∀ p, u.stage p = .finalized → s.stage p = .finalized) : MainOk u m := by
  cases m with
  | copying => exact fun p hp => h p (hst p hp)
  | finalizing failed => trivial
  | flushing conn wait failed =>
    rcases h with h | h
    · exact .inl h
    · exact .inr fun p hp => (h p (hst p hp)).keep k
  | joining includeDirs => exact fun hi p hp => (h hi p (hst p hp)).keep k
  | releasing => exact fun p hp => (h p (hst p hp)).keep k
  | closed => trivial

structure Inv (s : State P) : Prop where
  links : LinksInv s
  feeder : FeederInv s
  pool : PoolInv s
  main : MainInv s

theorem inv_start (P : Params π) : Inv (State.start P) := by
  constructor
  · refine ⟨fun c => wf_empty _, fun p _ c => clear_empty p, fun p _ _ c => clear_empty p, ?_⟩
    intro c p hp
    simp [State.start, Link.pending, Link.empty] at hp
  · exact ⟨by simp [State.start], by simp [State.start], trivial⟩
  · exact ⟨by simp [State.start], by simp [State.start]⟩
  · exact ⟨by simp [State.start], fun p => by simp [State.start]⟩

/-- A frame that changes nothing keeps everything. -/
theorem Inv.sendOn (h : Inv s) {c : Fin P.nconns} {m : Request π} (hm : ∀ p, ¬ m.Writes p)
    (hb : ∀ id, m = .barrier id → id = (s.link c).nextId)
    (hv : ∀ p, m = .verifyPath p → Settled s p) : Inv (s.sendOn c m) := by
  have k : Keeps s (s.sendOn c m) := .sendOn hm
  exact ⟨h.links.sendOn hm hb hv, h.feeder.keep k rfl rfl rfl, h.pool.keep k rfl rfl,
    ⟨h.main.dirs, h.main.main.keep k fun _ hp => hp⟩⟩

section Copy
variable [DecidableEq π]

/-- Taking on a path outside finalization, or any path during it. -/
theorem Inv.handle (h : Inv s) {c : Fin P.nconns} {m : Request π} {g : Stage}
    (hp : s.stage p = .fresh) (hg : g ≠ .fresh) (hm : ∀ q, m.Writes q → q = p)
    (hstream : g = .copied → viaPutfile P p = false → ¬ m.Writes p)
    (hb : ∀ id, m ≠ .barrier id) (hv : ∀ q, m ≠ .verifyPath q)
    (hfin : g = .finalized → s.main.isFinalizing = true) : Inv (s.handle c m p g) := by
  have k : Keeps s (s.handle c m p g) := .handle hp hm
  refine ⟨h.links.handle hp hg hm hstream hb hv, h.feeder.keep k rfl rfl rfl,
    h.pool.keep k rfl rfl, ?_, ?_⟩
  · intro q hq
    have hfq := h.main.dirs q hq
    have hqp : q ≠ p := by
      intro heq
      rw [heq, hp] at hfq
      cases hfq
    rw [stage_handle, Function.update_of_ne hqp]
    exact hfq
  · change MainOk (s.handle c m p g) s.main
    by_cases hgf : g = .finalized
    · have hmain := hfin hgf
      cases hs : s.main with
      | finalizing failed => trivial
      | _ => simp [hs, Main.isFinalizing] at hmain
    · refine h.main.main.keep k ?_
      intro q hq
      rw [stage_handle] at hq
      by_cases hqp : q = p
      · rw [hqp, Function.update_self] at hq
        exact absurd hq hgf
      · rwa [Function.update_of_ne hqp] at hq

theorem queueFile_eq {durable : Bool} (hq : s.queueFile p durable = some u) :
    u = { s with
      intake := s.intake ++ [⟨p, durable⟩]
      pendingCount := s.pendingCount + 1
      stage := Function.update s.stage p .queued } := by
  unfold State.queueFile at hq
  split at hq
  · cases hq
  · exact (Option.some.inj hq).symm

/-- `verify_queue_file` keeps the invariant when its flag is truthful. -/
theorem Inv.queueFile (h : Inv s) {durable : Bool} (hp : s.stage p = .copied)
    (hd : durable = true → ∀ c, (s.link c).Clear p) (hq : s.queueFile p durable = some u) :
    Inv u := by
  have hu := queueFile_eq hq
  have hlink : u.link = s.link := by rw [hu]
  have hstage : ∀ q, u.stage q = if q = p then .queued else s.stage q := by
    intro q
    rw [hu]
    simp [Function.update_apply]
  have hback : ∀ q g, u.stage q = g → g ≠ .queued → s.stage q = g := by
    intro q g hqg hg
    rw [hstage] at hqg
    split at hqg
    · exact absurd hqg.symm hg
    · exact hqg
  have k : Keeps s u := by
    refine ⟨?_, fun q _ c hc => by rwa [hlink], fun q _ c id hc => by rwa [hlink]⟩
    intro q hq
    rw [hstage]
    split
    · simp
    · exact hq
  constructor
  · refine ⟨?_, ?_, ?_, ?_⟩
    · rw [hlink]
      exact h.links.wf
    · intro q hq
      rw [hlink]
      exact h.links.fresh q (hback q _ hq (by simp))
    · intro q hq hpv
      rw [hlink]
      exact h.links.streamed q (hback q _ hq (by simp)) hpv
    · intro c q hm
      rw [hlink] at hm
      exact (h.links.asked c q hm).keep k
  · have hnew : ItemOk u ⟨p, durable⟩ := by
      refine ⟨k.handled p (by simp [hp]), ?_⟩
      rw [hlink]
      exact hd
    have hgen : u.generation = s.generation := by rw [hu]
    refine ⟨?_, ?_, ?_⟩
    · intro item hitem
      rw [hu] at hitem
      rcases List.mem_append.mp hitem with hitem | hitem
      · exact (h.feeder.intake item hitem).keep k
      · rw [List.mem_singleton.mp hitem]
        exact hnew
    · rw [hgen]
      exact fun q hq => k.handled q (h.feeder.generation q hq)
    · rw [show u.feeder = s.feeder by rw [hu]]
      exact h.feeder.feeder.keep k hgen
  · exact h.pool.keep k (by rw [hu]) (by rw [hu])
  · refine ⟨?_, ?_⟩
    · intro q hq
      rw [show u.dirs = s.dirs by rw [hu]] at hq
      have hfq := h.main.dirs q hq
      rw [hstage, if_neg]
      · exact hfq
      · intro heq
        rw [heq, hp] at hfq
        cases hfq
    · rw [show u.main = s.main by rw [hu]]
      exact h.main.main.keep k fun q hq => hback q _ hq (by simp)

theorem copyStep_inv (h : Inv s) {a : CopyAction π} (ha : ∀ p, a ≠ .queueSkipped p)
    (hs : copyStep s a = some u) : Inv u := by
  cases a with
  | copyFile worker p =>
    simp only [copyStep] at hs
    split at hs
    · rename_i hg
      obtain rfl := Option.some.inj hs
      refine h.handle hg.2 (by simp) ?_ ?_ ?_ ?_ (by simp)
      · intro q hq
        split at hq
        · exact ((Request.writes_putfile q p).mp hq).symm
        · exact absurd hq (Request.not_writes_other q)
      · intro _ hv
        simp [hv]
      · intro id
        split <;> simp
      · intro q
        split <;> simp
    · cases hs
  | queueCopied p =>
    simp only [copyStep] at hs
    split at hs
    · rename_i hg
      refine h.queueFile hg ?_ hs
      -- the flag of `worker_main` is the negation of the choice of `copy_file_remote`
      intro hd
      rw [copiedDurable_eq_not_viaPutfile, Bool.not_eq_true'] at hd
      exact h.links.streamed p hg hd
    · cases hs
  | skipFile walker p =>
    simp only [copyStep] at hs
    split at hs
    · rename_i hg
      obtain rfl := Option.some.inj hs
      exact h.handle hg.2 (by simp) (fun q hq => ((Request.writes_setmeta q p).mp hq).symm)
        (by simp) (by simp) (by simp) (by simp)
    · cases hs
  | queueSkipped p => exact absurd rfl (ha p)
  | mkdir walker p =>
    obtain rfl := Option.some.inj hs
    exact h.sendOn (by simp) (by simp) (by simp)
  | request thread =>
    obtain rfl := Option.some.inj hs
    exact h.sendOn (by simp) (by simp) (by simp)
  | periodicBarrier thread =>
    obtain rfl := Option.some.inj hs
    exact h.sendOn (m := .barrier _) (by simp) (by simp) (by simp)
  | finalizeDir thread p =>
    simp only [copyStep] at hs
    split at hs
    · rename_i hg
      obtain rfl := Option.some.inj hs
      exact h.handle hg.2 (by simp) (fun q hq => ((Request.writes_setmeta q p).mp hq).symm)
        (by simp) (by simp) (by simp) (fun _ => hg.1)
    · cases hs
  | queueDirectory p =>
    simp only [copyStep] at hs
    split at hs
    · rename_i hg
      obtain rfl := Option.some.inj hs
      have k : Keeps s { s with dirs := s.dirs ++ [p] } := .of_eq rfl rfl
      refine ⟨h.links.of_eq rfl rfl, h.feeder.keep k rfl rfl rfl, h.pool.keep k rfl rfl, ?_, ?_⟩
      · intro q hq
        rcases List.mem_append.mp hq with hq | hq
        · exact h.main.dirs q hq
        · rw [List.mem_singleton.mp hq]
          exact hg.2
      · exact h.main.main.keep k fun _ hq => hq
    · cases hs

end Copy

theorem submit_eq (hs : s.submit p = some u) :
    u = s ∨ u = { s with released := s.released ++ [p] } := by
  unfold State.submit at hs
  split at hs
  · exact .inl (Option.some.inj hs).symm
  · split at hs
    · exact .inr (Option.some.inj hs).symm
    · cases hs

theorem feeder_submit (hs : s.submit p = some u) : u.feeder = s.feeder := by
  rcases submit_eq hs with rfl | rfl <;> rfl

theorem generation_submit (hs : s.submit p = some u) : u.generation = s.generation := by
  rcases submit_eq hs with rfl | rfl <;> rfl

/-- Submitting a settled path keeps the invariant. -/
theorem Inv.submit (h : Inv s) (hp : Settled s p) (hs : s.submit p = some u) : Inv u := by
  rcases submit_eq hs with rfl | rfl
  · exact h
  · have k : Keeps s { s with released := s.released ++ [p] } := .of_eq rfl rfl
    refine ⟨h.links.of_eq rfl rfl, h.feeder.keep k rfl rfl rfl, ?_,
      ⟨h.main.dirs, h.main.main.keep k fun _ hq => hq⟩⟩
    refine ⟨?_, fun j q hq => (h.pool.checker j q hq).keep k⟩
    intro q hq
    rcases List.mem_append.mp hq with hq | hq
    · exact (h.pool.released q hq).keep k
    · rw [List.mem_singleton.mp hq]
      exact hp.keep k

/-- Steps of the feeder on its own variables: only its own position is at stake. -/
theorem Inv.feederMove (h : Inv s) (hl : u.link = s.link) (hst : u.stage = s.stage)
    (hr : u.released = s.released) (hc : u.checker = s.checker) (hd : u.dirs = s.dirs)
    (hm : u.main = s.main) (hi : ∀ item ∈ u.intake, item ∈ s.intake)
    (hg : ∀ p ∈ u.generation, s.stage p ≠ .fresh) (hf : FeederOk u u.feeder) : Inv u := by
  have k : Keeps s u := .of_eq hl hst
  refine ⟨h.links.of_eq hl hst, ⟨?_, ?_, hf⟩, h.pool.keep k hr hc, ?_, ?_⟩
  · exact fun item hitem => (h.feeder.intake item (hi item hitem)).keep k
  · exact fun q hq => k.handled q (hg q hq)
  · rw [hd, hst]
    exact h.main.dirs
  · rw [hm]
    exact h.main.main.keep k fun q hq => by rwa [← hst]

theorem feederStep_inv (h : Inv s) {a : FeederAction} (ha : a ≠ .noReply)
    (hs : feederStep s a = some u) : Inv u := by
  have hok := h.feeder.feeder
  have hgen := h.feeder.generation
  cases a with
  | steal timedOut =>
    simp only [feederStep] at hs
    split at hs
    · split at hs
      · split at hs
        · obtain rfl := Option.some.inj hs
          exact h.feederMove rfl rfl rfl rfl rfl rfl (by simp) (by simp) (by simp [FeederOk])
        · obtain rfl := Option.some.inj hs
          exact h.feederMove rfl rfl rfl rfl rfl rfl (by simp) hgen
            fun item hm => (h.feeder.intake item hm).keep (.of_eq rfl rfl)
      · cases hs
    · cases hs
  | feed =>
    simp only [feederStep] at hs
    split at hs
    · rename_i item batch stolen timedOut stop hf
      rw [hf] at hok
      have hitem : ItemOk s item := hok item (by simp)
      split at hs
      · rename_i hd
        obtain ⟨v, hv, rfl⟩ := Option.map_eq_some_iff.mp hs
        have hiv : Inv v := h.submit (hitem.settled hd) hv
        have hvf : FeederOk v v.feeder := hiv.feeder.feeder
        rw [feeder_submit hv, hf] at hvf
        exact hiv.feederMove rfl rfl rfl rfl rfl rfl (fun _ hi => hi) hiv.feeder.generation
          fun i hi => (hvf i (by simp [hi])).keep (.of_eq rfl rfl)
      · obtain rfl := Option.some.inj hs
        refine h.feederMove rfl rfl rfl rfl rfl rfl (fun _ hi => hi) ?_
          fun i hi => (hok i (by simp [hi])).keep (.of_eq rfl rfl)
        intro q hq
        rcases List.mem_append.mp hq with hq | hq
        · exact hgen q hq
        · rw [List.mem_singleton.mp hq]
          exact hitem.handled
    · cases hs
  | endFeed =>
    simp only [feederStep] at hs
    split at hs
    · rename_i stolen timedOut stop hf
      split at hs
      · obtain rfl := Option.some.inj hs
        -- no connection has been passed yet
        exact h.feederMove rfl rfl rfl rfl rfl rfl (fun _ hi => hi) hgen
          fun q hq => ⟨hgen q hq, by simp, by simp⟩
      · obtain rfl := Option.some.inj hs
        refine h.feederMove rfl rfl rfl rfl rfl rfl (fun _ hi => hi) hgen ?_
        cases stop <;> trivial
    · cases hs
  | barrier =>
    simp only [feederStep] at hs
    split at hs
    · rename_i conn stop hf
      rw [hf] at hok
      split at hs
      · rename_i hc
        obtain rfl := Option.some.inj hs
        have hb : Inv (s.barrierOn ⟨conn, hc⟩) := h.sendOn (by simp) (by simp) (by simp)
        exact hb.feederMove rfl rfl rfl rfl rfl rfl (fun _ hi => hi) hb.feeder.generation
          fun q hq => ((hok q hq).barrierOn h.links hc).keep (.of_eq rfl rfl)
      · rename_i hc
        obtain rfl := Option.some.inj hs
        exact h.feederMove rfl rfl rfl rfl rfl rfl (fun _ hi => hi) hgen
          fun q hq => ((hok q hq).settled (not_lt.mp hc)).keep (.of_eq rfl rfl)
    · cases hs
  | reply =>
    simp only [feederStep] at hs
    split at hs
    · rename_i conn id stop hf
      rw [hf] at hok
      split at hs
      · rename_i hid
        obtain rfl := Option.some.inj hs
        exact h.feederMove rfl rfl rfl rfl rfl rfl (fun _ hi => hi) hgen
          fun q hq => ((hok q hq).reply hid).keep (.of_eq rfl rfl)
      · cases hs
    · cases hs
  | noReply => exact absurd rfl ha
  | release =>
    simp only [feederStep] at hs
    split at hs
    · rename_i stop p rest hf hcons
      rw [hf] at hok
      obtain ⟨v, hv, rfl⟩ := Option.map_eq_some_iff.mp hs
      have hiv : Inv v := h.submit (hok p (by simp [hcons])) hv
      have hvf : FeederOk v v.feeder := hiv.feeder.feeder
      have hmem : ∀ q ∈ rest, q ∈ v.generation := by
        intro q hq
        simp [generation_submit hv, hcons, hq]
      refine hiv.feederMove rfl rfl rfl rfl rfl rfl (fun _ hi => hi)
        (fun q hq => hiv.feeder.generation q (hmem q hq)) ?_
      have hpos : v.feeder = .releasing stop := by rw [feeder_submit hv, hf]
      rw [hpos] at hvf
      simp only [hpos]
      exact fun q hq => (hvf q (hmem q hq)).keep (.of_eq rfl rfl)
    · rename_i stop hf hnil
      obtain rfl := Option.some.inj hs
      refine h.feederMove rfl rfl rfl rfl rfl rfl (fun _ hi => hi) hgen ?_
      cases stop <;> trivial
    · cases hs

/-- Steps of the main thread on its own variables. -/
theorem Inv.mainMove (h : Inv s) (hl : u.link = s.link) (hst : u.stage = s.stage)
    (hi : u.intake = s.intake) (hg : u.generation = s.generation) (hf : u.feeder = s.feeder)
    (hr : u.released = s.released) (hc : u.checker = s.checker)
    (hd : ∀ p ∈ u.dirs, p ∈ s.dirs) (hm : MainOk u u.main) : Inv u := by
  have k : Keeps s u := .of_eq hl hst
  refine ⟨h.links.of_eq hl hst, h.feeder.keep k hi hg hf, h.pool.keep k hr hc, ?_, hm⟩
  intro q hq
  rw [hst]
  exact h.main.dirs q (hd q hq)

theorem mainStep_inv [DecidableEq π] (h : Inv s) {a : MainAction}
    (hs : mainStep s a = some u) : Inv u := by
  have hok := h.main.main
  cases a with
  | workersStopped =>
    simp only [mainStep] at hs
    split at hs
    · split at hs
      · obtain rfl := Option.some.inj hs
        exact h.mainMove rfl rfl rfl rfl rfl rfl rfl (fun _ hq => hq) (by simp [MainOk])
      · obtain rfl := Option.some.inj hs
        exact h.mainMove rfl rfl rfl rfl rfl rfl rfl (fun _ hq => hq) trivial
    · cases hs
  | finalizeFailed =>
    simp only [mainStep] at hs
    split at hs
    · obtain rfl := Option.some.inj hs
      exact h.mainMove rfl rfl rfl rfl rfl rfl rfl (fun _ hq => hq) trivial
    · cases hs
  | flush =>
    simp only [mainStep] at hs
    split at hs
    · obtain rfl := Option.some.inj hs
      refine h.mainMove rfl rfl rfl rfl rfl rfl rfl (fun _ hq => hq) (.inr ?_)
      intro q hq
      have hfq : s.stage q = .finalized := hq
      exact ⟨by simp [hfq], by simp, by simp⟩
    · cases hs
  | barrier =>
    simp only [mainStep] at hs
    split at hs
    · rename_i conn failed hmain
      rw [hmain] at hok
      split at hs
      · rename_i hc
        obtain rfl := Option.some.inj hs
        have hb : Inv (s.barrierOn ⟨conn, hc⟩) := h.sendOn (by simp) (by simp) (by simp)
        refine hb.mainMove rfl rfl rfl rfl rfl rfl rfl (fun _ hq => hq) ?_
        rcases hok with hfail | hok
        · exact .inl hfail
        · exact .inr fun q hq => ((hok q hq).barrierOn h.links hc).keep (.of_eq rfl rfl)
      · rename_i hc
        obtain rfl := Option.some.inj hs
        refine h.mainMove rfl rfl rfl rfl rfl rfl rfl (fun _ hq => hq) ?_
        intro hinc q hq
        rcases hok with hfail | hok
        · simp [hfail] at hinc
        · exact ((hok q hq).settled (not_lt.mp hc)).keep (.of_eq rfl rfl)
    · cases hs
  | reply errors =>
    simp only [mainStep] at hs
    split at hs
    · rename_i conn id failed hmain
      rw [hmain] at hok
      split at hs
      · rename_i hid
        obtain rfl := Option.some.inj hs
        refine h.mainMove rfl rfl rfl rfl rfl rfl rfl (fun _ hq => hq) ?_
        rcases hok with hfail | hok
        · exact .inl (by simp [hfail])
        · exact .inr fun q hq => ((hok q hq).reply hid).keep (.of_eq rfl rfl)
      · cases hs
    · cases hs
  | noReply =>
    simp only [mainStep] at hs
    split at hs
    · split at hs
      · obtain rfl := Option.some.inj hs
        exact h.mainMove rfl rfl rfl rfl rfl rfl rfl (fun _ hq => hq) (.inl rfl)
      · cases hs
    · cases hs
  | join =>
    simp only [mainStep] at hs
    split at hs
    · rename_i includeDirs hmain
      rw [hmain] at hok
      split at hs
      · split at hs
        · rename_i hinc
          obtain rfl := Option.some.inj hs
          exact h.mainMove rfl rfl rfl rfl rfl rfl rfl (fun _ hq => hq)
            fun q hq => (hok hinc q hq).keep (.of_eq rfl rfl)
        · obtain rfl := Option.some.inj hs
          exact h.mainMove rfl rfl rfl rfl rfl rfl rfl (by simp) trivial
      · cases hs
    · cases hs
  | releaseDir =>
    simp only [mainStep] at hs
    split at hs
    · rename_i p rest hmain hcons
      rw [hmain] at hok
      obtain ⟨v, hv, rfl⟩ := Option.map_eq_some_iff.mp hs
      have hp : s.stage p = .finalized := h.main.dirs p (by simp [hcons])
      have hiv : Inv v := h.submit (hok p hp) hv
      refine hiv.mainMove rfl rfl rfl rfl rfl rfl rfl ?_
        (hiv.main.main.keep (.of_eq rfl rfl) fun _ hq => hq)
      intro q hq
      rcases submit_eq hv with rfl | rfl
      · simp [hcons, hq]
      · simp [hcons, hq]
    · obtain rfl := Option.some.inj hs
      exact h.mainMove rfl rfl rfl rfl rfl rfl rfl (fun _ hq => hq) trivial
    · cases hs
  | interrupt =>
    obtain rfl := Option.some.inj hs
    exact h.mainMove rfl rfl rfl rfl rfl rfl rfl (fun _ hq => hq)
      (hok.keep (.of_eq rfl rfl) fun _ hq => hq)

theorem checkStep_inv (h : Inv s) {a : CheckAction P.checkers} (hs : checkStep s a = some u) :
    Inv u := by
  cases a with
  | take j =>
    simp only [checkStep] at hs
    split at hs
    · rename_i p rest hj hcons
      split at hs
      · cases hs
      · obtain rfl := Option.some.inj hs
        have k : Keeps s { s with
            released := rest, checker := Function.update s.checker j (some p) } := .of_eq rfl rfl
        refine ⟨h.links.of_eq rfl rfl, h.feeder.keep k rfl rfl rfl, ⟨?_, ?_⟩,
          ⟨h.main.dirs, h.main.main.keep k fun _ hq => hq⟩⟩
        · exact fun q hq => (h.pool.released q (by simp [hcons, hq])).keep k
        · intro i q hq
          refine Settled.keep ?_ k
          by_cases hij : i = j
          · subst hij
            simp only [Function.update_self] at hq
            exact h.pool.released q (by simp [hcons, Option.some.inj hq])
          · simp only [Function.update_of_ne hij] at hq
            exact h.pool.checker i q hq
    · cases hs
  | send j =>
    simp only [checkStep] at hs
    split at hs
    · rename_i p hj
      obtain rfl := Option.some.inj hs
      refine h.sendOn (by simp) (by simp) ?_
      intro q hq
      rw [← Request.verifyPath.inj hq]
      exact h.pool.checker j p hj
    · cases hs
  | done j =>
    obtain rfl := Option.some.inj hs
    have k : Keeps s { s with checker := Function.update s.checker j none } := .of_eq rfl rfl
    refine ⟨h.links.of_eq rfl rfl, h.feeder.keep k rfl rfl rfl,
      ⟨fun q hq => (h.pool.released q hq).keep k, ?_⟩,
      ⟨h.main.dirs, h.main.main.keep k fun _ hq => hq⟩⟩
    intro i q hq
    refine Settled.keep ?_ k
    by_cases hij : i = j
    · subst hij
      simp at hq
    · simp only [Function.update_of_ne hij] at hq
      exact h.pool.checker i q hq

section Runs
variable [DecidableEq π]

theorem next_inv {a : Action π P.nconns P.checkers} (ha : Gated a) (h : Inv s)
    (hs : next s a = some u) : Inv u := by
  cases a with
  | copy a =>
    refine copyStep_inv h ?_ hs
    rintro p rfl
    exact ha
  | feeder a =>
    refine feederStep_inv h ?_ hs
    rintro rfl
    exact ha
  | main a => exact mainStep_inv h hs
  | check a => exact checkStep_inv h hs
  | server c a =>
    obtain ⟨l, hl, rfl⟩ := Option.map_eq_some_iff.mp hs
    obtain ⟨k, hlinks⟩ := serve_links h.links hl
    exact ⟨hlinks, h.feeder.keep k rfl rfl rfl, h.pool.keep k rfl rfl,
      ⟨h.main.dirs, h.main.main.keep k fun _ hq => hq⟩⟩

/-- In a run that respects the gate, a `VERIFY_PATH` handler is entered only
when no fire-and-forget frame for its path is pending on any connection. -/
theorem verify_after_writes {as : List (Action π P.nconns P.checkers)}
    (hgate : ∀ a ∈ as, Gated a) (hrun : exec next (State.start P) as = some s)
    {a : Action π P.nconns P.checkers} (hp : verifies s a = some p) : ¬ Pending s p := by
  have h : Inv s := exec_invariant_of (fun s a u ha hi hs => next_inv ha hi hs) hgate
    (inv_start P) hrun
  cases a with
  | server c a =>
    simp only [verifies] at hp
    split at hp
    · rename_i q hq
      obtain rfl := Option.some.inj hp
      have hsettled : Settled s q := h.links.asked c q (pending_of_enters hq)
      rintro ⟨d, m, hm, hw⟩
      exact hsettled.clear d m hm hw
    · cases hp
  | copy a => cases hp
  | feeder a => cases hp
  | main a => cases hp
  | check a => cases hp

end Runs

end Gate

-- Two connections, the second reserved for verification, and one file.
def oneFile (includeSkipped : Bool) : Params ℕ where
  nconns := 2
  verifyBase := 1
  nverify := 1
  pool := fun _ => ⟨2, 8⟩
  checkers := 1
  includeSkipped := includeSkipped
  pipelineOps := 1
  queueMax := 16
  putfileMax := 1024
  sparse := fun _ => false
  size := fun _ => 10
  nconns_pos := Nat.two_pos
  partition := by decide

def firstServer : Fin 2 := ⟨0, Nat.two_pos⟩

def secondServer : Fin 2 := ⟨1, Nat.one_lt_two⟩

def onlyWorker : Fin 1 := ⟨0, Nat.one_pos⟩

/-- An apply thread of the second server takes a job. -/
def secondServerStarts : Action ℕ 2 1 := .server secondServer .start

/-- A copied file: its generation is swept over both connections before the
verify worker asks the second server. -/
def copyRun : List (Action ℕ 2 1) :=
  [.copy (.copyFile 0 7), .copy (.queueCopied 7), .feeder (.steal false), .feeder .feed,
    .feeder .endFeed, .feeder .barrier, .server firstServer .read, .server firstServer .start,
    .server firstServer (.finish 0), .server firstServer .read, .server firstServer .finishInline,
    .feeder .reply, .feeder .barrier, .server secondServer .read,
    .server secondServer .finishInline, .feeder .reply, .feeder .barrier, .feeder .release,
    .check (.take onlyWorker), .check (.send onlyWorker), .server secondServer .read]

theorem verify_after_writes_copyRun :
    ∃ s, exec next (State.start (oneFile false)) copyRun = some s ∧
      verifies s secondServerStarts = some 7 ∧ ¬ Pending s 7 := by
  have hrun : (exec next (State.start (oneFile false)) copyRun).map
      (fun s => verifies s secondServerStarts) = some (some 7) := by decide
  have hgate : ∀ a ∈ copyRun, Gated a := by simp [copyRun, Gated]
  obtain ⟨s, hs, hv⟩ := Option.map_eq_some_iff.mp hrun
  exact ⟨s, hs, hv, verify_after_writes hgate hs hv⟩

/-- A skipped file: the walker's `SETMETA` is still under way on the first
connection when the second server starts on `VERIFY_PATH`. -/
def skipRun : List (Action ℕ 2 1) :=
  [.copy (.skipFile 0 7), .copy (.queueSkipped 7), .feeder (.steal false), .feeder .feed,
    .check (.take onlyWorker), .check (.send onlyWorker), .server secondServer .read]

theorem verify_overtakes_skipped :
    ∃ s, exec next (State.start (oneFile true)) skipRun = some s ∧
      (next s secondServerStarts).isSome = true ∧
      verifies s secondServerStarts = some 7 ∧ Pending s 7 := by
  have hrun : (exec next (State.start (oneFile true)) skipRun).map
      (fun s => ((next s secondServerStarts).isSome, verifies s secondServerStarts,
        decide (Pending s 7))) = some (true, some 7, true) := by decide
  obtain ⟨s, hs, hv⟩ := Option.map_eq_some_iff.mp hrun
  simp only [Prod.mk.injEq, decide_eq_true_eq] at hv
  exact ⟨s, hs, hv.1, hv.2.1, hv.2.2⟩

end Ecopy.Remote.VerifyOrder
