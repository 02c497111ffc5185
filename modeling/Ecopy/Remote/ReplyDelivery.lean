import Ecopy.Remote.Replies
import Mathlib.Data.List.Nodup

/-!
# Replies reach their callers

A reply that the receiver matches goes to the one entry with its number, and the
thread that owns the entry is the only one to consume it. A failure wakes every
waiting thread. What a bulk request makes of its reply is another matter:
`sshx_stat_bulk` does not look at the type of the frame or at its status, so an
error status that equals the number of names and is long enough passes for the
answer.
-/
namespace Ecopy.Remote.Replies
open Protocol Agreement Lib.Runs

section Delivery
variable {ι : Type} [DecidableEq ι] {s u : State ι} {a : Action ι}

/-- Replies that have been taken from the server and not been dropped. -/
def State.flight (s : State ι) : List Reply := s.delivered ++ s.receiver.held ++ s.channel

/-- Every reply is in one place, and only its own request gets it. -/
structure Delivered (s : State ι) : Prop where
  flight : (s.flight.map (·.id)).Nodup
  known : ∀ r ∈ s.flight, r.id ∈ s.answered
  matched : ∀ p ∈ s.pending, ∀ r, p.reply = some r → r.id = p.id ∧ r ∈ s.delivered
  consumed : ∀ res ∈ s.results, ∀ r ok, res.outcome = .answered r ok →
    r.id = res.id ∧ r ∈ s.delivered ∧ ok = res.request.succeeds r

omit [DecidableEq ι] in
theorem Delivered.start : Delivered (State.start ι) where
  flight := List.nodup_nil
  known := fun _ h => (nomatch h)
  matched := fun _ h => (nomatch h)
  consumed := fun _ h => (nomatch h)

omit [DecidableEq ι] in
/-- The replies stay where they are. -/
theorem Delivered.keep (h : Delivered s) (hf : u.flight = s.flight) (ha : u.answered = s.answered)
    (hd : u.delivered = s.delivered)
    (hp : ∀ p ∈ u.pending, p.reply = none ∨ p ∈ s.pending) (hr : u.results = s.results) :
    Delivered u where
  flight := by
    rw [hf]
    exact h.flight
  known := by
    rw [hf, ha]
    exact h.known
  matched := by
    intro p hmem r hpr
    rw [hd]
    rcases hp p hmem with hnone | hmem
    · rw [hnone] at hpr
      cases hpr
    · exact h.matched p hmem r hpr
  consumed := by
    rw [hr, hd]
    exact h.consumed

/-- A call returns. -/
theorem Delivered.leave (h : Delivered s) (t : ι) (q : Request) (id : ℕ) {o : Outcome}
    (ho : ∀ r ok, o = .answered r ok → r.id = id ∧ r ∈ s.delivered ∧ ok = q.succeeds r) :
    Delivered (s.leave t q id o) where
  flight := h.flight
  known := h.known
  matched := fun p hp => h.matched p (List.mem_of_mem_eraseP hp)
  consumed := by
    intro res hres r ok hout
    rcases List.mem_append.mp hres with hres | hres
    · exact h.consumed res hres r ok hout
    · rw [List.mem_singleton.mp hres] at hout ⊢
      exact ho r ok hout

omit [DecidableEq ι] in
theorem entry_mem {id : ℕ} {p : Pending} (h : s.entry id = some p) :
    p ∈ s.pending ∧ p.id = id := by
  refine ⟨List.mem_of_find?_eq_some h, ?_⟩
  simpa using List.find?_some h

theorem Delivered.step (h : Delivered s) (hs : Step s a u) : Delivered u := by
  cases hs with
  | begin | post | send | sendFails | mark | see | giveUp | park | spurious =>
    exact h.keep rfl rfl rfl (fun _ hp => .inr hp) rfl
  | @noMemory t q id ht =>
    constructor
    · exact h.flight
    · exact h.known
    · exact h.matched
    · intro res hres r ok hout
      rcases List.mem_append.mp hres with hres | hres
      · exact h.consumed res hres r ok hout
      · rw [List.mem_singleton.mp hres] at hout
        cases hout
  | add ht =>
    refine h.keep rfl rfl rfl ?_ rfl
    intro p hp
    rcases List.mem_cons.mp hp with rfl | hp
    · exact .inl rfl
    · exact .inr hp
  | @take t q id r p ht hp hr =>
    refine h.leave t q id ?_
    intro r' ok heq
    obtain ⟨rfl, rfl⟩ := Outcome.answered.inj heq
    obtain ⟨hmem, hid⟩ := entry_mem hp
    obtain ⟨hrid, hdel⟩ := h.matched p hmem r hr
    exact ⟨hrid.trans hid, hdel, rfl⟩
  | @lose t q id e o ht he ho =>
    refine h.leave t q id ?_
    rintro r ok rfl
    rcases ho with ho | ho <;> cases ho
  | @answer r hr =>
    have hflight : (State.flight { s with
        channel := s.channel ++ [r], answered := s.answered ++ [r.id] }) = s.flight ++ [r] :=
      (List.append_assoc _ _ _).symm
    constructor
    · rw [hflight, List.map_append, List.nodup_append]
      refine ⟨h.flight, by simp, ?_⟩
      rintro i hi j hj rfl
      obtain ⟨r', hr', heq⟩ := List.mem_map.mp hi
      simp only [List.map_cons, List.map_nil, List.mem_singleton] at hj
      apply hr
      rw [← hj, ← heq]
      exact h.known r' hr'
    · intro r' hr'
      rw [hflight] at hr'
      rcases List.mem_append.mp hr' with hr' | hr'
      · exact List.mem_append_left _ (h.known r' hr')
      · rw [List.mem_singleton.mp hr']
        exact List.mem_append_right _ (by simp)
    · exact h.matched
    · exact h.consumed
  | @receive r rest hr hc =>
    refine h.keep ?_ rfl rfl (fun _ hp => .inr hp) rfl
    show s.delivered ++ [r] ++ rest = s.delivered ++ s.receiver.held ++ s.channel
    rw [hr, hc]
    simp [Receiver.held]
  | @deliver r ps hr hf =>
    have hflight : s.flight = s.delivered ++ [r] ++ s.channel := by
      simp [State.flight, hr, Receiver.held]
    have hnew : (s.delivered ++ [r]) ++ Receiver.held .reading ++ s.channel = s.flight := by
      rw [hflight]
      simp [Receiver.held]
    constructor
    · show (((s.delivered ++ [r]) ++ Receiver.held .reading ++ s.channel).map (·.id)).Nodup
      rw [hnew]
      exact h.flight
    · intro r' hr'
      exact h.known r' (by rw [← hnew]; exact hr')
    · obtain ⟨front, p, back, hps, hid, rfl⟩ := fill_eq_some hf
      have hold : ∀ p' ∈ s.pending, ∀ r', p'.reply = some r' →
          r'.id = p'.id ∧ r' ∈ s.delivered ++ [r] := by
        intro p' hp' r' hr'
        obtain ⟨hid', hmem⟩ := h.matched p' hp' r' hr'
        exact ⟨hid', List.mem_append_left _ hmem⟩
      intro p' hp' r' hr'
      rcases List.mem_append.mp hp' with hp' | hp'
      · exact hold p' (by rw [hps]; exact List.mem_append_left _ hp') r' hr'
      · rcases List.mem_cons.mp hp' with rfl | hp'
        · obtain rfl := Option.some.inj hr'
          exact ⟨hid.symm, List.mem_append_right _ (by simp)⟩
        · refine hold p' ?_ r' hr'
          rw [hps]
          exact List.mem_append_right _ (List.mem_cons_of_mem _ hp')
    · intro res hres r' ok hout
      obtain ⟨hid, hmem, hok⟩ := h.consumed res hres r' ok hout
      exact ⟨hid, List.mem_append_left _ hmem, hok⟩
  | @discard r hr =>
    -- the reply is gone
    have hsub : (s.delivered ++ Receiver.held .reading ++ s.channel).Sublist s.flight := by
      simp [State.flight, hr, Receiver.held]
    constructor
    · exact h.flight.sublist (hsub.map _)
    · exact fun r' hr' => h.known r' (hsub.subset hr')
    · exact h.matched
    · exact h.consumed
  | hangUp hr =>
    refine h.keep ?_ rfl rfl (fun _ hp => .inr hp) rfl
    simp [State.flight, hr, Receiver.held]
  | close hr =>
    refine h.keep ?_ rfl rfl (fun _ hp => .inr hp) rfl
    simp [State.flight, State.markFailed, State.broadcast, hr, Receiver.held]

/-- Nobody sleeps once there is something to see, and a call gives up only on a
connection that has failed. -/
structure Wakes (s : State ι) : Prop where
  failed : s.failed = true → ∀ t, (s.threads t).parked = false
  done : ∀ t q id, s.threads t = .waiting q id true → ∀ p ∈ s.pending, p.id = id → p.reply = none
  exits : ∀ t q id e, s.threads t = .leaving q id e → e ≠ .done → s.failed = true
  lost : ∀ res ∈ s.results, res.outcome = .unsent ∨ res.outcome = .dropped → s.failed = true

omit [DecidableEq ι] in
theorem Wakes.start : Wakes (State.start ι) where
  failed := fun h => (nomatch h)
  done := fun _ _ _ h => (nomatch h)
  exits := fun _ _ _ _ h => (nomatch h)
  lost := fun _ h => (nomatch h)

/-- One thread moves, not into a wait. -/
theorem Wakes.move (h : Wakes s) {t : ι} {p : Pc} (hf : u.failed = s.failed)
    (ht : u.threads = Function.update s.threads t p) (hp : p.parked = false)
    (hleave : ∀ q id e, p = .leaving q id e → e ≠ .done → s.failed = true)
    (hpend : ∀ x ∈ u.pending, x.reply = none ∨ x ∈ s.pending)
    (hres : ∀ res ∈ u.results, res ∈ s.results ∨
      (res.outcome = .unsent ∨ res.outcome = .dropped → s.failed = true)) : Wakes u where
  failed := by
    intro hfail v
    rw [ht]
    by_cases hv : v = t
    · subst hv
      simpa using hp
    · simpa [hv] using h.failed (by rw [← hf]; exact hfail) v
  done := by
    intro v q id hv x hx hid
    rw [ht] at hv
    by_cases hvt : v = t
    · subst hvt
      rw [Function.update_self] at hv
      rw [hv] at hp
      cases hp
    · rw [Function.update_of_ne hvt] at hv
      rcases hpend x hx with hnone | hx
      · exact hnone
      · exact h.done v q id hv x hx hid
  exits := by
    intro v q id e hv he
    rw [ht] at hv
    rw [hf]
    by_cases hvt : v = t
    · subst hvt
      rw [Function.update_self] at hv
      exact hleave q id e hv he
    · rw [Function.update_of_ne hvt] at hv
      exact h.exits v q id e hv he
  lost := by
    intro res hmem hout
    rw [hf]
    rcases hres res hmem with hmem | himp
    · exact h.lost res hmem hout
    · exact himp hout

omit [DecidableEq ι] in
/-- A broadcast wakes everybody. -/
theorem Wakes.awake (h : Wakes s) (hf : s.failed = true → u.failed = true)
    (ht : ∀ t, u.threads t = (s.threads t).wake) (hr : u.results = s.results) : Wakes u where
  failed := by
    intro _ t
    rw [ht]
    exact Pc.parked_wake _
  done := by
    intro t q id hq
    have := Pc.parked_wake (s.threads t)
    rw [← ht, hq] at this
    cases this
  exits := by
    intro t q id e hq he
    rw [ht] at hq
    refine hf (h.exits t q id e ?_ he)
    cases hp : s.threads t <;> rw [hp] at hq <;> first | exact hq | cases hq
  lost := by
    rw [hr]
    exact fun res hmem hout => hf (h.lost res hmem hout)

theorem Wakes.step (h : Wakes s) (hl : Listed s) (hs : Step s a u) : Wakes u := by
  cases hs with
  | begin | send | sendFails | spurious =>
    exact h.move rfl rfl rfl (fun _ _ _ hq => (nomatch hq)) (fun _ hp => .inr hp)
      fun _ hr => .inl hr
  | add ht =>
    refine h.move rfl rfl rfl (fun _ _ _ hq => (nomatch hq)) ?_ fun _ hr => .inl hr
    intro p hp
    rcases List.mem_cons.mp hp with rfl | hp
    · exact .inl rfl
    · exact .inr hp
  | noMemory ht =>
    refine h.move rfl rfl rfl (fun _ _ _ hq => (nomatch hq)) (fun _ hp => .inr hp) ?_
    intro res hres
    rcases List.mem_append.mp hres with hres | hres
    · exact .inl hres
    · rw [List.mem_singleton.mp hres]
      exact .inr fun ho => by rcases ho with ho | ho <;> cases ho
  | see ht hp hr =>
    refine h.move rfl rfl rfl ?_ (fun _ hp => .inr hp) fun _ hr => .inl hr
    intro q id e hq he
    cases hq
    exact absurd rfl he
  | giveUp ht hf =>
    exact h.move rfl rfl rfl (fun _ _ _ _ _ => hf) (fun _ hp => .inr hp) fun _ hr => .inl hr
  | @park t q id ht hn hf =>
    constructor
    · intro hfail
      rw [show s.failed = true from hfail] at hf
      cases hf
    · intro v q' id' hv p hp hid
      by_cases hvt : v = t
      · -- its entry is the one it has just looked at
        subst hvt
        have heq : Pc.waiting q id true = .waiting q' id' true := by
          simpa [State.setThread] using hv
        obtain ⟨-, rfl, -⟩ := Pc.waiting.inj heq
        refine hn p ?_
        cases hfind : s.entry id with
        | none =>
          have := List.find?_eq_none.mp hfind p hp
          simp [hid] at this
        | some p' =>
          obtain ⟨hmem, hid'⟩ := entry_mem hfind
          rw [List.inj_on_of_nodup_map hl.nodup hmem hp (hid'.trans hid.symm)]
      · have hv' : s.threads v = .waiting q' id' true := by
          simpa [State.setThread, hvt] using hv
        exact h.done v q' id' hv' p hp hid
    · intro v q' id' e hv he
      by_cases hvt : v = t
      · subst hvt
        simp [State.setThread] at hv
      · exact h.exits v q' id' e (by simpa [State.setThread, hvt] using hv) he
    · exact h.lost
  | take ht hp hr =>
    refine h.move rfl rfl rfl (fun _ _ _ hq => (nomatch hq))
      (fun _ hp => .inr (List.mem_of_mem_eraseP hp)) ?_
    intro res hres
    rcases List.mem_append.mp hres with hres | hres
    · exact .inl hres
    · rw [List.mem_singleton.mp hres]
      exact .inr fun ho => by rcases ho with ho | ho <;> cases ho
  | lose ht he ho =>
    refine h.move rfl rfl rfl (fun _ _ _ hq => (nomatch hq))
      (fun _ hp => .inr (List.mem_of_mem_eraseP hp)) ?_
    intro res hres
    rcases List.mem_append.mp hres with hres | hres
    · exact .inl hres
    · exact .inr fun _ => h.exits _ _ _ _ ht he
  | post | answer | receive | discard | hangUp => exact ⟨h.failed, h.done, h.exits, h.lost⟩
  | mark ht =>
    have h' : Wakes s.markFailed := h.awake (fun _ => rfl) (fun _ => rfl) rfl
    exact h'.move rfl rfl rfl (fun _ _ _ _ _ => rfl) (fun _ hp => .inr hp) fun _ hr => .inl hr
  | deliver hr hf => exact h.awake id (fun _ => rfl) rfl
  | close hr => exact h.awake (fun _ => rfl) (fun _ => rfl) rfl

theorem width_i64 : Width i64 8 := Width.map Width.u64

theorem width_entry : Width entry 29 :=
  Width.bind Width.u8 fun _ => Width.bind Width.u32 fun _ => Width.bind width_i64 fun _ =>
    Width.bind width_i64 fun _ => Width.map width_i64

/-- `sshx_stat_bulk` succeeds only on a payload that starts with the number of
names and is long enough. -/
theorem succeeds_statBulk {n : ℕ} {r : Reply} (h : (Request.statBulk n).succeeds r = true) :
    (pdecU32 (pdecInit r.payload)).1.toNat = n ∧ 4 + n * 29 ≤ r.payload.length := by
  simp only [Request.succeeds] at h
  split at h
  · rename_i fields d hrun
    have he : d.error = false := by simpa using h
    have hcount : (pdecU32 (pdecInit r.payload)).1.toNat = n := by
      by_contra hne
      have hgive : (readStatBulkResp n).run (pdecInit r.payload) =
          (none, (pdecU32 (pdecInit r.payload)).2) := by
        unfold readStatBulkResp
        rw [Decoder.run_bind]
        show (if (pdecU32 (pdecInit r.payload)).1.toNat ≠ n then _ else _ : Decoder Fields).run _ = _
        rw [if_pos hne]
        rfl
      rw [hgive] at hrun
      cases hrun
    refine ⟨hcount, ?_⟩
    have hwidth : Width (readStatBulkResp n) (4 + n * 29) := by
      refine Width.bind Width.u32 fun count => ?_
      split
      · intro d a d' hd
        cases hd
      · exact Width.map (Width.times width_entry n)
    have hlen := (hwidth _ _ _ hrun he).2
    have hinit : (pdecInit r.payload).rest.length = r.payload.length := rfl
    omega
  · cases h

/-- An error status that `sshx_stat_bulk` takes for the answer to a request of `n`
names. -/
def Reply.posesAs (r : Reply) (n : ℕ) : Prop :=
  r.type = .status ∧ r.status ≠ 0 ∧ r.status.toNat = n ∧ 4 + n * 29 ≤ r.payload.length

/-- The request of a thread that has an entry. -/
def Pc.call : Pc → Option (Request × ℕ)
  | .idle | .numbered _ _ => none
  | .registered q id | .unsent q id | .waiting q id _ | .leaving q id _ => some (q, id)

@[simp] theorem Pc.call_wake (p : Pc) : p.wake.call = p.call := by cases p <;> rfl

/-- Memory does not run out, and no error status poses as the answer to the bulk
request it is delivered to. -/
def Sound (s : State ι) (a : Action ι) : Prop :=
  (∀ t, a ≠ .noMemory t) ∧
    (a = .deliver → ∀ r t n, s.receiver = .holding r →
      (s.threads t).call = some (.statBulk n, r.id) → ¬ r.posesAs n)

omit [DecidableEq ι] in
theorem sound_of_ne (hd : a ≠ .deliver) (hm : ∀ t, a ≠ .noMemory t) : Sound s a :=
  ⟨hm, fun h => absurd h hd⟩

/-- No call was refused, and no bulk request succeeded on an error status. -/
structure Honest (s : State ι) : Prop where
  accepted : ∀ res ∈ s.results, res.outcome ≠ .refused
  entries : ∀ t n id, (s.threads t).call = some (.statBulk n, id) → ∀ p ∈ s.pending, p.id = id →
    ∀ r, p.reply = some r → ¬ r.posesAs n
  bulk : ∀ res ∈ s.results, ∀ n r, res.request = .statBulk n → res.outcome = .answered r true →
    r.type = .status → r.status = 0

omit [DecidableEq ι] in
theorem Honest.start : Honest (State.start ι) where
  accepted := fun _ h => (nomatch h)
  entries := fun _ _ _ h => (nomatch h)
  bulk := fun _ h => (nomatch h)

omit [DecidableEq ι] in
theorem Honest.keep (h : Honest s) (hr : u.results = s.results)
    (ht : ∀ t, (u.threads t).call = (s.threads t).call) (hp : u.pending = s.pending) :
    Honest u where
  accepted := by
    rw [hr]
    exact h.accepted
  entries := by
    intro t n id hc
    rw [ht] at hc
    rw [hp]
    exact h.entries t n id hc
  bulk := by
    rw [hr]
    exact h.bulk

theorem Honest.leave (h : Honest s) (t : ι) (q : Request) (id : ℕ) {o : Outcome}
    (hne : o ≠ .refused)
    (ho : ∀ n r, q = .statBulk n → o = .answered r true → r.type = .status → r.status = 0) :
    Honest (s.leave t q id o) where
  accepted := by
    intro res hres
    rcases List.mem_append.mp hres with hres | hres
    · exact h.accepted res hres
    · rw [List.mem_singleton.mp hres]
      exact hne
  entries := by
    intro v n id' hv p hp
    have hvt : v ≠ t := by
      rintro rfl
      simp [State.leave, State.setThread, Pc.call] at hv
    exact h.entries v n id' (by simpa [State.leave, State.setThread, hvt] using hv) p
      (List.mem_of_mem_eraseP hp)
  bulk := by
    intro res hres n r hq hout
    rcases List.mem_append.mp hres with hres | hres
    · exact h.bulk res hres n r hq hout
    · rw [List.mem_singleton.mp hres] at hq hout
      exact ho n r hq hout

theorem Honest.step (h : Honest s) (hl : Listed u) (hg : Sound s a) (hs : Step s a u) :
    Honest u := by
  cases hs with
  | begin ht => exact h.keep rfl (field_setThread Pc.call (by rw [ht]; rfl)) rfl
  | post | answer | receive | discard | hangUp => exact ⟨h.accepted, h.entries, h.bulk⟩
  | @noMemory t q id ht => exact absurd rfl (hg.1 t)
  | @add t q id ht =>
    refine ⟨h.accepted, ?_, h.bulk⟩
    intro v n id' hv p hp hid r hr
    rcases List.mem_cons.mp hp with rfl | hold
    · cases hr
    · by_cases hvt : v = t
      · -- the new entry is the only one with its number
        subst hvt
        have heq : (Pc.registered q id).call = some (.statBulk n, id') := by
          simpa [State.setThread] using hv
        obtain ⟨-, rfl⟩ := Prod.mk.inj (Option.some.inj heq)
        refine absurd ?_ (List.nodup_cons.mp hl.nodup).1
        exact List.mem_map.mpr ⟨p, hold, hid⟩
      · exact h.entries v n id' (by simpa [State.setThread, hvt] using hv) p hold hid r hr
  | send ht => exact h.keep rfl (field_setThread Pc.call (by rw [ht]; rfl)) rfl
  | sendFails ht => exact h.keep rfl (field_setThread Pc.call (by rw [ht]; rfl)) rfl
  | mark ht =>
    have h' : Honest s.markFailed := h.keep rfl (fun _ => Pc.call_wake _) rfl
    refine h'.keep rfl (field_setThread Pc.call ?_) rfl
    show _ = (s.threads _).wake.call
    rw [Pc.call_wake, ht]
    rfl
  | see ht hp hr => exact h.keep rfl (field_setThread Pc.call (by rw [ht]; rfl)) rfl
  | giveUp ht hf => exact h.keep rfl (field_setThread Pc.call (by rw [ht]; rfl)) rfl
  | park ht hn hf => exact h.keep rfl (field_setThread Pc.call (by rw [ht]; rfl)) rfl
  | spurious ht => exact h.keep rfl (field_setThread Pc.call (by rw [ht]; rfl)) rfl
  | @take t q id r p ht hp hr =>
    refine h.leave t q id (Outcome.noConfusion) ?_
    intro n r' hq hout htype
    obtain ⟨rfl, hok⟩ := Outcome.answered.inj hout
    subst hq
    by_contra hstatus
    obtain ⟨hcount, hlen⟩ := succeeds_statBulk hok
    obtain ⟨hmem, hid⟩ := entry_mem hp
    refine h.entries t n id (by rw [ht]; rfl) p hmem hid r hr ⟨htype, hstatus, ?_, hlen⟩
    rw [Reply.status, if_pos htype]
    exact hcount
  | @lose t q id e o ht he ho =>
    refine h.leave t q id ?_ ?_
    · rintro rfl
      rcases ho with ho | ho <;> cases ho
    · rintro n r - rfl
      rcases ho with ho | ho <;> cases ho
  | @deliver r ps hr hf =>
    refine ⟨h.accepted, ?_, h.bulk⟩
    intro v n id hv p hp hid r' hr'
    have hv' : (s.threads v).call = some (.statBulk n, id) :=
      (Pc.call_wake _).symm.trans hv
    obtain ⟨front, p₀, back, hps, hid₀, rfl⟩ := fill_eq_some hf
    rcases List.mem_append.mp hp with hp | hp
    · exact h.entries v n id hv' p (by rw [hps]; exact List.mem_append_left _ hp) hid r' hr'
    · rcases List.mem_cons.mp hp with rfl | hp
      · obtain rfl := Option.some.inj hr'
        refine hg.2 rfl r v n hr ?_
        rw [hv', ← hid₀, ← hid]
      · refine h.entries v n id hv' p ?_ hid r' hr'
        rw [hps]
        exact List.mem_append_right _ (List.mem_cons_of_mem _ hp)
  | close hr => exact h.keep rfl (fun _ => Pc.call_wake _) rfl

structure Inv (s : State ι) : Prop where
  numbered : Numbered s
  listed : Listed s
  delivered : Delivered s
  wakes : Wakes s
  honest : Honest s

theorem Inv.step (h : Inv s) (hg : Sound s a) (hs : Step s a u) : Inv u := by
  have hl := h.listed.step h.numbered hs
  exact ⟨h.numbered.step hs, hl, h.delivered.step hs, h.wakes.step h.listed hs,
    h.honest.step hl hg hs⟩

/-- In every run with enough memory in which no error status poses as a bulk
answer: a call that has seen a reply has consumed the one delivered reply with its
own number, and no other call has its number; no reply is delivered twice; a call
without a reply has met a failed connection; on a failed connection nobody is
parked, and neither is a thread whose reply is there; and no bulk request succeeds
on an error status. -/
theorem replies_reach_callers {as : List (Action ι)}
    (hg : Along next Sound (State.start ι) as) (hr : exec next (State.start ι) as = some s) :
    (∀ res ∈ s.results, ∀ r ok, res.outcome = .answered r ok →
      r.id = res.id ∧ r ∈ s.delivered ∧ ok = res.request.succeeds r) ∧
    (s.results.map (·.id)).Nodup ∧ (s.delivered.map (·.id)).Nodup ∧
    (∀ p ∈ s.pending, ∀ r, p.reply = some r → r.id = p.id ∧
      ∃ t, (s.threads t).listed = some p.id ∧ ∀ v, (s.threads v).listed = some p.id → v = t) ∧
    (∀ res ∈ s.results, (∀ r ok, res.outcome ≠ .answered r ok) → s.failed = true) ∧
    (s.failed = true → ∀ t, (s.threads t).parked = false) ∧
    (∀ t q id, s.threads t = .waiting q id true → ∀ p ∈ s.pending, p.id = id → p.reply = none) ∧
    ∀ res ∈ s.results, ∀ n r, res.request = .statBulk n → res.outcome = .answered r true →
      r.type = .status → r.status = 0 := by
  have hi : Inv s := hg.invariant (fun s a u hg hi hs => hi.step hg (next_step hs))
    ⟨.start, .start, .start, .start, .start⟩ hr
  refine ⟨hi.delivered.consumed, hi.numbered.once, ?_, ?_, ?_, hi.wakes.failed, hi.wakes.done,
    hi.honest.bulk⟩
  · have hsub : s.delivered.Sublist s.flight := by
      rw [State.flight, List.append_assoc]
      exact List.sublist_append_left _ _
    exact hi.delivered.flight.sublist (hsub.map _)
  · intro p hp r hpr
    refine ⟨(hi.delivered.matched p hp r hpr).1, ?_⟩
    obtain ⟨t, ht⟩ := hi.listed.owner p.id (List.mem_map.mpr ⟨p, hp, rfl⟩)
    exact ⟨t, ht, fun v hv => hi.numbered.apart v t p.id (Pc.number_of_listed hv)
      (Pc.number_of_listed ht)⟩
  · intro res hres hno
    cases hout : res.outcome with
    | answered r ok => exact absurd hout (hno r ok)
    | refused => exact absurd hout (hi.honest.accepted res hres)
    | unsent => exact hi.wakes.lost res hres (.inl hout)
    | dropped => exact hi.wakes.lost res hres (.inr hout)

end Delivery

/-- One call that gets the given answer: up to its arrival, and from there on. -/
def oneCall (q : Request) (r : Reply) : List (Action Unit) :=
  [.begin () q, .add (), .send (), .test (), .answer r, .receive] ++
    [.deliver, .test (), .remove ()]

def okReply : Reply := ⟨.status, 1, le32 0⟩

theorem replies_reach_callers_oneCall :
    ∃ s, exec next (State.start Unit) (oneCall .status okReply) = some s ∧
      s.results = [⟨(), .status, 1, .answered okReply true⟩] ∧ okReply ∈ s.delivered := by
  have hrun : (exec next (State.start Unit) (oneCall .status okReply)).map (·.results) =
      some [⟨(), .status, 1, .answered okReply true⟩] := by decide +kernel
  obtain ⟨s, hs, hres⟩ := Option.map_eq_some_iff.mp hrun
  have hsound : Along next Sound (State.start Unit) (oneCall .status okReply) := by
    apply Along.append
    · apply Along.of_forall
      intro a ha s
      simp only [List.mem_cons, List.not_mem_nil, or_false] at ha
      rcases ha with rfl | rfl | rfl | rfl | rfl | rfl <;> exact sound_of_ne (by simp) (by simp)
    · intro u hu
      have hheld : (exec next (State.start Unit)
          [.begin () .status, .add (), .send (), .test (), .answer okReply, .receive]).map
            (·.receiver) = some (.holding okReply) := by decide +kernel
      rw [hu] at hheld
      constructor
      · refine ⟨by simp, fun _ r t n hr _ hp => hp.2.1 ?_⟩
        obtain rfl := Receiver.holding.inj ((Option.some.inj hheld).symm.trans hr)
        decide +kernel
      · intro v _
        apply Along.of_forall
        intro a ha s
        simp only [List.mem_cons, List.not_mem_nil, or_false] at ha
        rcases ha with rfl | rfl <;> exact sound_of_ne (by simp) (by simp)
  obtain ⟨hconsumed, -⟩ := replies_reach_callers hsound hs
  refine ⟨s, hs, hres, ?_⟩
  exact (hconsumed ⟨(), .status, 1, .answered okReply true⟩ (by simp [hres]) _ _ rfl).2.1

/-- A status of one, followed by as many bytes as an entry has, is taken for the
answer to a bulk request of one name. -/
theorem error_status_poses_as_bulk_answer :
    ∃ s, exec next (State.start Unit)
        (oneCall (.statBulk 1) ⟨.status, 1, le32 1 ++ List.replicate 29 0⟩) = some s ∧
      ∃ res ∈ s.results, res.request = .statBulk 1 ∧
        ∃ r, res.outcome = .answered r true ∧ r.type = .status ∧ r.status ≠ 0 := by
  have hrun : (exec next (State.start Unit)
      (oneCall (.statBulk 1) ⟨.status, 1, le32 1 ++ List.replicate 29 0⟩)).map (·.results) =
      some [⟨(), .statBulk 1, 1,
        .answered ⟨.status, 1, le32 1 ++ List.replicate 29 0⟩ true⟩] := by
    decide +kernel
  obtain ⟨s, hs, hres⟩ := Option.map_eq_some_iff.mp hrun
  exact ⟨s, hs, _, by rw [hres]; exact List.mem_singleton.mpr rfl, rfl, _, rfl, rfl,
    by decide +kernel⟩

end Ecopy.Remote.Replies
