import Ecopy.Lib.Runs
import Ecopy.Remote.Agreement
import Mathlib.Data.Fin.VecNotation

/-!
# Barriers on the client

A server counts its errors and verification results since it started. Each
barrier reports the totals, and the client turns them into increments for its
statistics. Many threads issue barriers: every fire-and-forget request may start
a periodic one, and any thread may ask for a barrier on all connections. The lock
of a connection keeps its barriers apart.

The state holds what the threads share. A thread is described by the point in
`maybe_periodic_barrier`, `sshx_barrier_all` or `sshx_flush` that it has reached.
Servers work on their own: their totals may grow at any moment. A barrier fails
when it cannot be sent or when no reply arrives; otherwise its reply is the one
that `handle_barrier` encodes from the totals of that moment.
-/
namespace Ecopy.Remote.Barriers
open Protocol Ecopy.Path Encoders Agreement Lib.Runs

/-- The six categories, in the order of the reply. -/
abbrev Counts := Fin 6 → UInt64

def counts (t : Totals) : Counts :=
  ![t.metadata, t.data, t.zero, t.io, t.malformed, t.unpreserved]

/-- What a server reports. Its buffer for the first path ends with a zero. -/
structure ServerState where
  errCount : ℕ
  errFirst : UInt32
  errFirstPath : Bytes
  totals : Totals
  name : Name errFirstPath

/-- The payload of the reply; the error count is cut to 32 bits. -/
def ServerState.reply (v : ServerState) : Bytes :=
  (barrierReply (if v.errCount = 0 then 0 else v.errFirst)
    (UInt32.ofNat (min v.errCount 0xFFFFFFFF)) v.errFirstPath v.totals).buf

/-- The error count, and the totals when the whole reply could be decoded. -/
def decodeReply (payload : Bytes) : UInt32 × Option Totals :=
  match readStatus.run (pdecInit payload) with
  | (some (.status _ errCount _ totals), d) => (errCount, if d.error then none else some totals)
  | _ => (0, none)

/-- The request that is on its way, or its reply. The state of the server at the
moment it answered is kept beside the reply. -/
inductive Wire where
  | quiet
  | request
  | reply (v : ServerState)

/-- `deltas` lists what was passed to `stats_record_verify_categories` for this
connection, `decoded` the totals that were decoded, the last ones first. -/
structure Conn where
  opsSinceBarrier : ℕ
  barrierOps : ℕ
  holder : Option ℕ
  verifyCounts : Counts
  lastDrain : UInt64 × UInt64
  remoteFailed : Bool
  server : ServerState
  wire : Wire
  deltas : List Counts
  decoded : List Counts

/-- Why a thread issues a barrier. A call over all connections remembers whether
one has failed; `sshx_flush` also lists the error counts that its barriers met on
the servers. -/
inductive Caller where
  | periodic
  | all (failed : Bool)
  | flush (failed : Bool) (seen : List ℕ)

inductive Control where
  | idle
  | trying (c : ℕ)
  | checking (c : ℕ)
  | locking (k : Caller) (c : ℕ)
  | sending (k : Caller) (c : ℕ)
  | waiting (k : Caller) (c : ℕ)
  | recording (k : Caller) (c : ℕ) (delta : Counts) (errCount : UInt32)
  | unlocking (k : Caller) (c : ℕ) (failed : Bool)
  | reading (c : ℕ) (failed : Bool) (seen : List ℕ)
  | returned (failed : Bool) (seen : List ℕ)

structure State where
  nconns : ℕ
  conns : ℕ → Conn
  threads : ℕ → Control

def State.setConn (s : State) (c : ℕ) (k : Conn) : State :=
  { s with conns := Function.update s.conns c k }

def State.setThread (s : State) (t : ℕ) (p : Control) : State :=
  { s with threads := Function.update s.threads t p }

/-- The next connection of a call over all of them, or its end. -/
def State.proceed (s : State) (k : Caller) (c : ℕ) : Control :=
  match k with
  | .periodic => .idle
  | .all _ => if c < s.nconns then .locking k c else .idle
  | .flush failed seen => if c < s.nconns then .locking k c else .reading 0 failed seen

/-- The outcome of one barrier is added to the outcome of the call. -/
def Caller.note (failed : Bool) : Caller → Caller
  | .periodic => .periodic
  | .all f => .all (f || failed)
  | .flush f seen => .flush (f || failed) seen

def Caller.observe (errCount : ℕ) : Caller → Caller
  | .flush f seen => .flush f (seen ++ [errCount])
  | k => k

/-- The increments since the last barrier. -/
def increments (old new : Counts) : Counts := fun i => if new i ≥ old i then new i - old i else 0

inductive Action where
  | op (t c : ℕ)
  | tryLock (t : ℕ)
  | recheck (t : ℕ)
  | barrierAll (t : ℕ)
  | flush (t : ℕ)
  | lock (t : ℕ)
  | send (t : ℕ)
  | sendFails (t : ℕ)
  | work (c : ℕ) (v : ServerState)
  | answer (c : ℕ)
  | replyLost (t : ℕ)
  | receive (t : ℕ)
  | record (t : ℕ)
  | unlock (t : ℕ)
  | readFailed (t : ℕ)

/-- A server only ever adds to its totals. -/
def ServerState.Grows (v w : ServerState) : Prop :=
  v.errCount ≤ w.errCount ∧ ∀ i, counts v.totals i ≤ counts w.totals i

instance (v w : ServerState) : Decidable (v.Grows w) := inferInstanceAs (Decidable (_ ∧ _))

def next (s : State) : Action → Option State
  -- `atomic_fetch_add` on the way out of a request
  | .op t c =>
    match s.threads t with
    | .idle =>
      if c < s.nconns then
        let k := s.conns c
        let n := k.opsSinceBarrier + 1
        some ((s.setConn c { k with opsSinceBarrier := n }).setThread t
          (if n < k.barrierOps then .idle else .trying c))
      else none
    | _ => none
  | .tryLock t =>
    match s.threads t with
    | .trying c =>
      let k := s.conns c
      if k.holder.isNone then
        some ((s.setConn c { k with holder := some t }).setThread t (.checking c))
      else some (s.setThread t .idle)
    | _ => none
  | .recheck t =>
    match s.threads t with
    | .checking c =>
      let k := s.conns c
      if k.opsSinceBarrier ≥ k.barrierOps then
        some ((s.setConn c { k with opsSinceBarrier := 0 }).setThread t (.sending .periodic c))
      else some (s.setThread t (.unlocking .periodic c false))
    | _ => none
  | .barrierAll t =>
    match s.threads t with
    | .idle => some (s.setThread t (s.proceed (.all false) 0))
    | _ => none
  | .flush t =>
    match s.threads t with
    | .idle => some (s.setThread t (s.proceed (.flush false []) 0))
    | _ => none
  | .lock t =>
    match s.threads t with
    | .locking k c =>
      let n := s.conns c
      if n.holder.isNone then
        some ((s.setConn c { n with holder := some t }).setThread t (.sending k c))
      else none
    | _ => none
  | .send t =>
    match s.threads t with
    | .sending k c =>
      some ((s.setConn c { s.conns c with wire := .request }).setThread t (.waiting k c))
    | _ => none
  | .sendFails t =>
    match s.threads t with
    | .sending k c => some (s.setThread t (.unlocking k c true))
    | _ => none
  | .work c v =>
    let k := s.conns c
    if k.server.Grows v then some (s.setConn c { k with server := v }) else none
  | .answer c =>
    let k := s.conns c
    match k.wire with
    | .request => some (s.setConn c { k with wire := .reply k.server })
    | _ => none
  | .replyLost t =>
    match s.threads t with
    | .waiting k c =>
      some ((s.setConn c { s.conns c with wire := .quiet }).setThread t (.unlocking k c true))
    | _ => none
  | .receive t =>
    match s.threads t with
    | .waiting k c =>
      let n := s.conns c
      match n.wire with
      | .reply v =>
        match decodeReply v.reply with
        | (errCount, none) =>
          some ((s.setConn c { n with wire := .quiet }).setThread t
            (.recording (k.observe v.errCount) c (fun _ => 0) errCount))
        | (errCount, some totals) =>
          some ((s.setConn c { n with
              wire := .quiet
              verifyCounts := counts totals
              lastDrain := (totals.drainBytes, totals.drainNs)
              decoded := counts totals :: n.decoded }).setThread t
            (.recording (k.observe v.errCount) c
              (increments n.verifyCounts (counts totals)) errCount))
      | _ => none
    | _ => none
  | .record t =>
    match s.threads t with
    | .recording k c delta errCount =>
      let n := s.conns c
      let failed := decide (errCount.toNat > 0)
      some ((s.setConn c { n with
          deltas := delta :: n.deltas
          remoteFailed := n.remoteFailed || failed }).setThread t (.unlocking k c failed))
    | _ => none
  | .unlock t =>
    match s.threads t with
    | .unlocking k c failed =>
      some ((s.setConn c { s.conns c with holder := none }).setThread t
        (s.proceed (k.note failed) (c + 1)))
    | _ => none
  | .readFailed t =>
    match s.threads t with
    | .reading c failed seen =>
      if c < s.nconns then
        some (s.setThread t (.reading (c + 1) (failed || (s.conns c).remoteFailed) seen))
      else some (s.setThread t (.returned failed seen))
    | _ => none

/-- Connections on which nothing has happened yet. -/
structure Fresh (k : Conn) : Prop where
  holder : k.holder = none
  counts : ∀ i, k.verifyCounts i = 0
  wire : k.wire = .quiet
  deltas : k.deltas = []
  decoded : k.decoded = []

structure Initial (s : State) : Prop where
  conns : ∀ c, Fresh (s.conns c)
  threads : ∀ t, s.threads t = .idle

/-- The totals of the last reply, zero before the first. -/
def Conn.lastDecoded (k : Conn) : Counts := k.decoded.headD fun _ => 0

/-- The sum of all increments passed on so far. -/
def Conn.recorded (k : Conn) (i : Fin 6) : ℕ := (k.deltas.map fun d => (d i).toNat).sum

/-- The server's reply is decoded whole. -/
theorem decodeReply_reply (v : ServerState) :
    decodeReply v.reply = (UInt32.ofNat (min v.errCount 0xFFFFFFFF), some v.totals) := by
  let m : Message := .status (if v.errCount = 0 then 0 else v.errFirst)
    (UInt32.ofNat (min v.errCount 0xFFFFFFFF)) v.errFirstPath v.totals
  have hvalid : m.Valid := v.name
  have hfits : (pencInit m.capacity).buf.length + m.blocks.flatten.length ≤
      (pencInit m.capacity).cap := by
    simpa [pencInit] using Message.length_blocks_le hvalid
  have hreply : v.reply = m.blocks.flatten := by
    have henc : v.reply = m.encode.buf := rfl
    rw [henc, m.encode_eq, pencBlocks_of_fits hfits]
    rfl
  have hrun := (Message.decodes hvalid (by simp [m, Message.kind])).whole []
  rw [List.append_nil] at hrun
  have hstatus : readStatus.run (pdecInit m.blocks.flatten) =
      (some m.fields, ⟨[], false⟩) := hrun
  rw [decodeReply, hreply, hstatus]
  rfl

theorem errCount_reply (v : ServerState) :
    (UInt32.ofNat (min v.errCount 0xFFFFFFFF)).toNat = 0 ↔ v.errCount = 0 := by
  rw [toNat_ofNat_of_lt (by omega)]
  omega

/-- An increment and the value it was taken from make up the new value. -/
theorem toNat_increments {old new : Counts} {i : Fin 6} (h : old i ≤ new i) :
    (old i).toNat + (increments old new i).toNat = (new i).toNat := by
  have hle : (old i).toNat ≤ (new i).toNat := UInt64.le_iff_toNat_le.mp h
  rw [increments, if_pos h, UInt64.toNat_sub_of_le _ _ h]
  omega

/-- The connection whose lock a thread holds. -/
def Control.holds : Control → Option ℕ
  | .checking c | .sending _ c | .waiting _ c | .recording _ c _ _ | .unlocking _ c _ => some c
  | _ => none

/-- The increments that a thread has computed and not yet passed on. -/
def Control.carries (p : Control) (c : ℕ) (i : Fin 6) : ℕ :=
  match p with
  | .recording _ d delta _ => if d = c then (delta i).toNat else 0
  | _ => 0

def State.carried (s : State) (c : ℕ) (i : Fin 6) : ℕ :=
  match (s.conns c).holder with
  | some t => (s.threads t).carries c i
  | none => 0

/-- Where a call of `sshx_flush` stands, as long as nothing has failed. -/
def Caller.Clean (n c : ℕ) : Caller → Prop
  | .flush failed seen => c < n ∧ (failed = false → seen = List.replicate c 0)
  | _ => True

def Control.Clean (n : ℕ) : Control → Prop
  | .locking k c | .sending k c | .waiting k c => k.Clean n c
  | .recording (.flush failed seen) c _ errCount =>
    c < n ∧ (failed = false → errCount.toNat = 0 → seen = List.replicate (c + 1) 0)
  | .unlocking (.flush failed seen) c bad =>
    c < n ∧ (failed = false → bad = false → seen = List.replicate (c + 1) 0)
  | .reading _ failed seen | .returned failed seen => failed = false → seen = List.replicate n 0
  | _ => True

/-- The server has at least what was decoded, and a reply on its way is between
the two. -/
structure Ordered (k : Conn) : Prop where
  server : ∀ i, k.verifyCounts i ≤ counts k.server.totals i
  reply : ∀ v, k.wire = .reply v → v.Grows k.server ∧ ∀ i, k.verifyCounts i ≤ counts v.totals i
  last : k.lastDecoded = k.verifyCounts

structure Inv (s : State) : Prop where
  owned : ∀ t c, (s.threads t).holds = some c → (s.conns c).holder = some t
  ordered : ∀ c, Ordered (s.conns c)
  balanced : ∀ c i, (s.conns c).recorded i + s.carried c i = ((s.conns c).verifyCounts i).toNat
  clean : ∀ t, (s.threads t).Clean s.nconns

theorem Initial.inv {s : State} (h : Initial s) : Inv s where
  owned t c ht := by
    rw [h.threads t] at ht
    cases ht
  ordered c := by
    have hc := h.conns c
    refine ⟨fun i => ?_, fun v hv => ?_, ?_⟩
    · rw [hc.counts i]
      exact UInt64.zero_le
    · rw [hc.wire] at hv
      cases hv
    · funext i
      rw [Conn.lastDecoded, hc.decoded, hc.counts i]
      rfl
  balanced c i := by
    have hc := h.conns c
    simp [Conn.recorded, State.carried, hc.deltas, hc.holder, hc.counts i]
  clean t := by
    rw [h.threads t]
    trivial

section Step
variable {s u : State} {t c : ℕ} {p : Control} {k : Conn}

theorem threads_set (s : State) (t c : ℕ) (p : Control) (k : Conn) :
    ((s.setConn c k).setThread t p).threads = Function.update s.threads t p := rfl

theorem conns_set (s : State) (t c : ℕ) (p : Control) (k : Conn) :
    ((s.setConn c k).setThread t p).conns = Function.update s.conns c k := rfl

theorem setConn_self (s : State) (c : ℕ) : s.setConn c (s.conns c) = s := by
  rw [State.setConn, Function.update_eq_self]

/-- Who may hold a lock after a step of thread `t` on connection `c`. -/
def Handover (s : State) (t c : ℕ) (p : Control) (k : Conn) : Prop :=
  (k.holder = (s.conns c).holder ∧ (p.holds = (s.threads t).holds ∨ p.holds = none)) ∨
    ((s.conns c).holder = none ∧ k.holder = some t ∧ p.holds = some c) ∨
    ((s.threads t).holds = some c ∧ k.holder = none ∧ p.holds = none)

theorem Handover.owned (h : Handover s t c p k)
    (ho : ∀ t c, (s.threads t).holds = some c → (s.conns c).holder = some t) :
    ∀ t' c', (((s.setConn c k).setThread t p).threads t').holds = some c' →
      (((s.setConn c k).setThread t p).conns c').holder = some t' := by
  intro t' c' ht'
  rw [threads_set] at ht'
  rw [conns_set]
  by_cases htt : t' = t
  · subst htt
    rw [Function.update_self] at ht'
    rcases h with ⟨hk, hp | hp⟩ | ⟨-, hk, hp⟩ | ⟨-, -, hp⟩
    · rw [hp] at ht'
      have hold := ho t' c' ht'
      by_cases hcc : c' = c
      · subst hcc
        rw [Function.update_self, hk, hold]
      · rwa [Function.update_of_ne hcc]
    · rw [hp] at ht'
      cases ht'
    · rw [hp] at ht'
      obtain rfl := Option.some.inj ht'
      rw [Function.update_self, hk]
    · rw [hp] at ht'
      cases ht'
  · rw [Function.update_of_ne htt] at ht'
    have hold := ho t' c' ht'
    by_cases hcc : c' = c
    · subst hcc
      rw [Function.update_self]
      rcases h with ⟨hk, -⟩ | ⟨hfree, -, -⟩ | ⟨ht, -, -⟩
      · rw [hk, hold]
      · rw [hfree] at hold
        cases hold
      · rw [ho t c' ht] at hold
        exact absurd (Option.some.inj hold).symm htt
    · rwa [Function.update_of_ne hcc]

/-- A thread that carries no increments before and after leaves all of them as
they are. -/
theorem carried_set (h : Handover s t c p k)
    (ho : ∀ t c, (s.threads t).holds = some c → (s.conns c).holder = some t)
    (hbefore : ∀ d i, (s.threads t).carries d i = 0) (hafter : ∀ d i, p.carries d i = 0)
    (d : ℕ) (i : Fin 6) :
    ((s.setConn c k).setThread t p).carried d i = s.carried d i := by
  have hthread : ∀ t', (Function.update s.threads t p t').carries d i = (s.threads t').carries d i := by
    intro t'
    by_cases htt : t' = t
    · subst htt
      rw [Function.update_self, hbefore, hafter]
    · rw [Function.update_of_ne htt]
  simp only [State.carried, conns_set, threads_set, hthread]
  by_cases hdc : d = c
  · subst hdc
    rw [Function.update_self]
    rcases h with ⟨hk, -⟩ | ⟨hfree, hk, -⟩ | ⟨ht, hk, -⟩
    · rw [hk]
    · rw [hk, hfree]
      exact hbefore d i
    · rw [hk, ho t d ht]
      exact (hbefore d i).symm
  · rw [Function.update_of_ne hdc]

theorem ordered_set (h : Inv s) (hk : Ordered k) (c' : ℕ) :
    Ordered (((s.setConn c k).setThread t p).conns c') := by
  rw [conns_set]
  by_cases hcc : c' = c
  · subst hcc
    rwa [Function.update_self]
  · rw [Function.update_of_ne hcc]
    exact h.ordered c'

theorem clean_set (h : Inv s) (hp : p.Clean s.nconns) (t' : ℕ) :
    (((s.setConn c k).setThread t p).threads t').Clean s.nconns := by
  rw [threads_set]
  by_cases htt : t' = t
  · subst htt
    rwa [Function.update_self]
  · rw [Function.update_of_ne htt]
    exact h.clean t'

/-- A step of the holder of a lock that settles the account of its connection. -/
theorem balanced_set (h : Inv s) (hholder : (s.conns c).holder = some t) (hk : k.holder = some t)
    (hbefore : ∀ d i, d ≠ c → (s.threads t).carries d i = 0)
    (hafter : ∀ d i, d ≠ c → p.carries d i = 0)
    (hc : ∀ i, k.recorded i + p.carries c i = (k.verifyCounts i).toNat) (c' : ℕ) (i : Fin 6) :
    (((s.setConn c k).setThread t p).conns c').recorded i +
        ((s.setConn c k).setThread t p).carried c' i =
      ((((s.setConn c k).setThread t p).conns c').verifyCounts i).toNat := by
  simp only [State.carried, conns_set, threads_set]
  by_cases hcc : c' = c
  · subst hcc
    simp only [Function.update_self, hk]
    exact hc i
  · have hbal := h.balanced c' i
    rw [State.carried] at hbal
    rw [Function.update_of_ne hcc]
    cases hh : (s.conns c').holder with
    | none =>
      rw [hh] at hbal
      exact hbal
    | some t' =>
      rw [hh] at hbal
      dsimp only at hbal ⊢
      by_cases htt : t' = t
      · subst htt
        rw [hbefore c' i hcc] at hbal
        rw [Function.update_self, hafter c' i hcc]
        exact hbal
      · rwa [Function.update_of_ne htt]

/-- A step that neither decodes a reply nor passes on increments. -/
theorem Inv.move (h : Inv s) (hand : Handover s t c p k) (hk : Ordered k)
    (hdeltas : k.deltas = (s.conns c).deltas) (hcounts : k.verifyCounts = (s.conns c).verifyCounts)
    (hbefore : ∀ d i, (s.threads t).carries d i = 0) (hafter : ∀ d i, p.carries d i = 0)
    (hclean : p.Clean s.nconns) : Inv ((s.setConn c k).setThread t p) where
  owned := hand.owned h.owned
  ordered := ordered_set h hk
  balanced c' i := by
    rw [carried_set hand h.owned hbefore hafter, conns_set]
    by_cases hcc : c' = c
    · subst hcc
      rw [Function.update_self, Conn.recorded, hdeltas, hcounts]
      exact h.balanced c' i
    · rw [Function.update_of_ne hcc]
      exact h.balanced c' i
  clean := clean_set h hclean

/-- A step at the mutex or the counter of a connection. -/
theorem Inv.latch (h : Inv s) {q : Control} (ht : s.threads t = q) {n : ℕ} {o : Option ℕ}
    (hand : Handover s t c p { s.conns c with opsSinceBarrier := n, holder := o })
    (hbefore : ∀ d i, q.carries d i = 0) (hafter : ∀ d i, p.carries d i = 0)
    (hclean : p.Clean s.nconns) :
    Inv ((s.setConn c { s.conns c with opsSinceBarrier := n, holder := o }).setThread t p) := by
  subst ht
  exact h.move hand ⟨(h.ordered c).server, (h.ordered c).reply, (h.ordered c).last⟩ rfl rfl
    hbefore hafter hclean

/-- A step of a thread alone. -/
theorem Inv.moveThread (h : Inv s)
    (hp : p.holds = (s.threads t).holds ∨ p.holds = none)
    (hbefore : ∀ d i, (s.threads t).carries d i = 0) (hafter : ∀ d i, p.carries d i = 0)
    (hclean : p.Clean s.nconns) : Inv (s.setThread t p) := by
  have hmove := h.move (c := 0) (k := s.conns 0) (.inl ⟨rfl, hp⟩) (h.ordered 0) rfl rfl hbefore
    hafter hclean
  rwa [setConn_self] at hmove

theorem proceed_holds (s : State) (k : Caller) (c : ℕ) : (s.proceed k c).holds = none := by
  unfold State.proceed
  cases k with
  | periodic => rfl
  | all f =>
    dsimp only
    split <;> rfl
  | flush f seen =>
    dsimp only
    split <;> rfl

theorem proceed_carries (s : State) (k : Caller) (c d : ℕ) (i : Fin 6) :
    (s.proceed k c).carries d i = 0 := by
  unfold State.proceed
  cases k with
  | periodic => rfl
  | all f =>
    dsimp only
    split <;> rfl
  | flush f seen =>
    dsimp only
    split <;> rfl

/-- A call that has seen no error on the first `c` servers goes on. -/
theorem proceed_clean (s : State) {k : Caller} {c : ℕ}
    (hk : ∀ failed seen, k = .flush failed seen →
      c ≤ s.nconns ∧ (failed = false → seen = List.replicate c 0)) :
    (s.proceed k c).Clean s.nconns := by
  unfold State.proceed
  cases k with
  | periodic => trivial
  | all f =>
    dsimp only
    split <;> trivial
  | flush f seen =>
    obtain ⟨hc, hseen⟩ := hk f seen rfl
    dsimp only
    split
    · next hlt => exact ⟨hlt, hseen⟩
    · next hge =>
      intro hf
      have heq : c = s.nconns := by omega
      rw [← heq]
      exact hseen hf

/-- The reply of a barrier is decoded: its increments are now on their way. -/
theorem Inv.receive {caller : Caller} {v : ServerState} (h : Inv s)
    (ht : s.threads t = .waiting caller c) (hw : (s.conns c).wire = .reply v) :
    Inv ((s.setConn c { s.conns c with
        wire := .quiet
        verifyCounts := counts v.totals
        lastDrain := (v.totals.drainBytes, v.totals.drainNs)
        decoded := counts v.totals :: (s.conns c).decoded }).setThread t
      (.recording (caller.observe v.errCount) c
        (increments (s.conns c).verifyCounts (counts v.totals))
        (UInt32.ofNat (min v.errCount 0xFFFFFFFF)))) := by
  have hholder : (s.conns c).holder = some t := h.owned t c (by rw [ht]; rfl)
  obtain ⟨⟨-, hgrows⟩, hold⟩ := (h.ordered c).reply v hw
  constructor
  · exact Handover.owned (.inl ⟨rfl, .inl (by rw [ht]; rfl)⟩) h.owned
  · apply ordered_set h
    exact ⟨hgrows, fun _ hv => (nomatch hv), rfl⟩
  · apply balanced_set h hholder
    · exact hholder
    · intro d i _
      rw [ht]
      rfl
    · intro d i hne
      simp [Control.carries, Ne.symm hne]
    · intro i
      have hbal := h.balanced c i
      rw [State.carried, hholder] at hbal
      simp only [ht, Control.carries, Nat.add_zero] at hbal
      have hinc := toNat_increments (hold i)
      rw [← hbal] at hinc
      simpa [Control.carries, Conn.recorded] using hinc
  · apply clean_set h
    have hclean := h.clean t
    rw [ht] at hclean
    cases caller with
    | periodic => trivial
    | all f => trivial
    | flush f seen =>
      refine ⟨hclean.1, fun hf herr => ?_⟩
      rw [(errCount_reply v).mp herr, hclean.2 hf, List.replicate_succ']

/-- The increments are passed on. -/
theorem Inv.record {caller : Caller} {delta : Counts} {errCount : UInt32} (h : Inv s)
    (ht : s.threads t = .recording caller c delta errCount) :
    Inv ((s.setConn c { s.conns c with
        deltas := delta :: (s.conns c).deltas
        remoteFailed := (s.conns c).remoteFailed || decide (errCount.toNat > 0) }).setThread t
      (.unlocking caller c (decide (errCount.toNat > 0)))) := by
  have hholder : (s.conns c).holder = some t := h.owned t c (by rw [ht]; rfl)
  constructor
  · exact Handover.owned (.inl ⟨rfl, .inl (by rw [ht]; rfl)⟩) h.owned
  · apply ordered_set h
    exact ⟨(h.ordered c).server, (h.ordered c).reply, (h.ordered c).last⟩
  · apply balanced_set h hholder
    · exact hholder
    · intro d i hne
      rw [ht]
      simp [Control.carries, Ne.symm hne]
    · intro d i _
      rfl
    · intro i
      have hbal := h.balanced c i
      rw [State.carried, hholder] at hbal
      simp only [ht, Control.carries, if_true] at hbal
      rw [← hbal]
      simp [Conn.recorded, Control.carries, Nat.add_comm]
  · apply clean_set h
    have hclean := h.clean t
    rw [ht] at hclean
    cases caller with
    | periodic => trivial
    | all f => trivial
    | flush f seen =>
      refine ⟨hclean.1, fun hf herr => hclean.2 hf ?_⟩
      simpa using herr

/-- A step of a server keeps the threads and the accounts. -/
theorem Inv.moveServer (h : Inv s) (hk : Ordered k) (hholder : k.holder = (s.conns c).holder)
    (hdeltas : k.deltas = (s.conns c).deltas)
    (hcounts : k.verifyCounts = (s.conns c).verifyCounts) : Inv (s.setConn c k) := by
  have hconn : ∀ d, ((s.setConn c k).conns d).holder = (s.conns d).holder ∧
      ((s.setConn c k).conns d).deltas = (s.conns d).deltas ∧
      ((s.setConn c k).conns d).verifyCounts = (s.conns d).verifyCounts := by
    intro d
    simp only [State.setConn]
    by_cases hdc : d = c
    · subst hdc
      rw [Function.update_self]
      exact ⟨hholder, hdeltas, hcounts⟩
    · rw [Function.update_of_ne hdc]
      exact ⟨rfl, rfl, rfl⟩
  constructor
  · intro t' d ht'
    rw [(hconn d).1]
    exact h.owned t' d ht'
  · intro d
    simp only [State.setConn]
    by_cases hdc : d = c
    · subst hdc
      rwa [Function.update_self]
    · rw [Function.update_of_ne hdc]
      exact h.ordered d
  · intro d i
    have hbal := h.balanced d i
    rw [Conn.recorded, State.carried] at hbal ⊢
    rw [(hconn d).1, (hconn d).2.1, (hconn d).2.2]
    exact hbal
  · exact h.clean

theorem Ordered.quieter (h : Ordered (s.conns c)) {w : Wire} (hw : ∀ v, w ≠ .reply v) :
    Ordered { s.conns c with wire := w } :=
  ⟨h.server, fun v hv => absurd hv (hw v), h.last⟩

theorem Inv.op_step (h : Inv s) (hs : next s (.op t c) = some u) : Inv u := by
  simp only [next] at hs
  split at hs
  · next ht =>
    split at hs
    · obtain rfl := Option.some.inj hs
      apply h.latch ht
      · refine .inl ⟨rfl, .inr ?_⟩
        split <;> rfl
      · intro d i
        rfl
      · intro d i
        split <;> rfl
      · split <;> trivial
    · cases hs
  · cases hs

theorem Inv.tryLock_step (h : Inv s) (hs : next s (.tryLock t) = some u) : Inv u := by
  simp only [next] at hs
  split at hs
  · next c ht =>
    split at hs
    · next hfree =>
      obtain rfl := Option.some.inj hs
      apply h.latch ht
      · exact .inr (.inl ⟨Option.isNone_iff_eq_none.mp hfree, rfl, rfl⟩)
      · intro d i
        rfl
      · intro d i
        rfl
      · trivial
    · obtain rfl := Option.some.inj hs
      apply h.moveThread (.inr rfl)
      · intro d i
        rw [ht]
        rfl
      · intro d i
        rfl
      · trivial
  · cases hs

theorem Inv.recheck_step (h : Inv s) (hs : next s (.recheck t) = some u) : Inv u := by
  simp only [next] at hs
  split at hs
  · next c ht =>
    split at hs
    · obtain rfl := Option.some.inj hs
      apply h.latch ht
      · exact .inl ⟨rfl, .inl (by rw [ht]; rfl)⟩
      · intro d i
        rfl
      · intro d i
        rfl
      · trivial
    · obtain rfl := Option.some.inj hs
      apply h.moveThread (.inl (by rw [ht]; rfl))
      · intro d i
        rw [ht]
        rfl
      · intro d i
        rfl
      · trivial
  · cases hs

theorem Inv.barrierAll_step (h : Inv s) (hs : next s (.barrierAll t) = some u) : Inv u := by
  simp only [next] at hs
  split at hs
  · next ht =>
    obtain rfl := Option.some.inj hs
    apply h.moveThread (.inr (proceed_holds _ _ _))
    · intro d i
      rw [ht]
      rfl
    · exact proceed_carries s _ 0
    · exact proceed_clean s fun failed seen hk => nomatch hk
  · cases hs

theorem Inv.flush_step (h : Inv s) (hs : next s (.flush t) = some u) : Inv u := by
  simp only [next] at hs
  split at hs
  · next ht =>
    obtain rfl := Option.some.inj hs
    apply h.moveThread (.inr (proceed_holds _ _ _))
    · intro d i
      rw [ht]
      rfl
    · exact proceed_carries s _ 0
    · apply proceed_clean
      rintro failed seen ⟨⟩
      exact ⟨Nat.zero_le _, fun _ => rfl⟩
  · cases hs

theorem Inv.lock_step (h : Inv s) (hs : next s (.lock t) = some u) : Inv u := by
  simp only [next] at hs
  split at hs
  · next k c ht =>
    split at hs
    · next hfree =>
      obtain rfl := Option.some.inj hs
      have hclean := h.clean t
      rw [ht] at hclean
      apply h.latch ht
      · exact .inr (.inl ⟨Option.isNone_iff_eq_none.mp hfree, rfl, rfl⟩)
      · intro d i
        rfl
      · intro d i
        rfl
      · exact hclean
    · cases hs
  · cases hs

theorem Inv.send_step (h : Inv s) (hs : next s (.send t) = some u) : Inv u := by
  simp only [next] at hs
  split at hs
  · next k c ht =>
    obtain rfl := Option.some.inj hs
    have hclean := h.clean t
    rw [ht] at hclean
    apply h.move
    · exact .inl ⟨rfl, .inl (by rw [ht]; rfl)⟩
    · exact (h.ordered c).quieter fun v hv => nomatch hv
    · rfl
    · rfl
    · intro d i
      rw [ht]
      rfl
    · intro d i
      rfl
    · exact hclean
  · cases hs

theorem Inv.sendFails_step (h : Inv s) (hs : next s (.sendFails t) = some u) : Inv u := by
  simp only [next] at hs
  split at hs
  · next k c ht =>
    obtain rfl := Option.some.inj hs
    have hclean := h.clean t
    rw [ht] at hclean
    apply h.moveThread (.inl (by rw [ht]; rfl))
    · intro d i
      rw [ht]
      rfl
    · intro d i
      rfl
    · cases k with
      | periodic => trivial
      | all f => trivial
      | flush f seen => exact ⟨hclean.1, fun _ hbad => nomatch hbad⟩
  · cases hs

theorem Inv.work_step (h : Inv s) (hs : next s (.work c v) = some u) : Inv u := by
  simp only [next] at hs
  split at hs
  · next hgrows =>
    obtain rfl := Option.some.inj hs
    have hk : Ordered { s.conns c with server := v } := by
      refine ⟨fun i => ?_, fun w hw => ?_, (h.ordered c).last⟩
      · exact UInt64.le_trans ((h.ordered c).server i) (hgrows.2 i)
      · obtain ⟨⟨herr, hle⟩, hold⟩ := (h.ordered c).reply w hw
        exact ⟨⟨Nat.le_trans herr hgrows.1, fun i => UInt64.le_trans (hle i) (hgrows.2 i)⟩, hold⟩
    exact h.moveServer hk rfl rfl rfl
  · cases hs

theorem Inv.answer_step (h : Inv s) (hs : next s (.answer c) = some u) : Inv u := by
  simp only [next] at hs
  split at hs
  · obtain rfl := Option.some.inj hs
    have hk : Ordered { s.conns c with wire := .reply (s.conns c).server } := by
      refine ⟨(h.ordered c).server, fun w hw => ?_, (h.ordered c).last⟩
      obtain rfl := Wire.reply.inj hw
      exact ⟨⟨Nat.le_refl _, fun i => UInt64.le_refl _⟩, (h.ordered c).server⟩
    exact h.moveServer hk rfl rfl rfl
  · cases hs

theorem Inv.replyLost_step (h : Inv s) (hs : next s (.replyLost t) = some u) : Inv u := by
  simp only [next] at hs
  split at hs
  · next k c ht =>
    obtain rfl := Option.some.inj hs
    have hclean := h.clean t
    rw [ht] at hclean
    apply h.move
    · exact .inl ⟨rfl, .inl (by rw [ht]; rfl)⟩
    · exact (h.ordered c).quieter fun v hv => nomatch hv
    · rfl
    · rfl
    · intro d i
      rw [ht]
      rfl
    · intro d i
      rfl
    · cases k with
      | periodic => trivial
      | all f => trivial
      | flush f seen => exact ⟨hclean.1, fun _ hbad => nomatch hbad⟩
  · cases hs

theorem Inv.receive_step (h : Inv s) (hs : next s (.receive t) = some u) : Inv u := by
  simp only [next] at hs
  split at hs
  · next k c ht =>
    split at hs
    · next v hw =>
      rw [decodeReply_reply] at hs
      obtain rfl := Option.some.inj hs
      exact h.receive ht hw
    · cases hs
  · cases hs

theorem Inv.record_step (h : Inv s) (hs : next s (.record t) = some u) : Inv u := by
  simp only [next] at hs
  split at hs
  · next k c delta errCount ht =>
    obtain rfl := Option.some.inj hs
    exact h.record ht
  · cases hs

theorem Inv.unlock_step (h : Inv s) (hs : next s (.unlock t) = some u) : Inv u := by
  simp only [next] at hs
  split at hs
  · next k c failed ht =>
    obtain rfl := Option.some.inj hs
    have hclean := h.clean t
    rw [ht] at hclean
    apply h.latch ht
    · exact .inr (.inr ⟨by rw [ht]; rfl, rfl, proceed_holds _ _ _⟩)
    · intro d i
      rfl
    · exact proceed_carries s _ _
    · apply proceed_clean
      intro f seen hk
      cases k with
      | periodic => cases hk
      | all g => cases hk
      | flush g seen' =>
        obtain ⟨rfl, rfl⟩ := Caller.flush.inj hk
        refine ⟨hclean.1, fun hor => ?_⟩
        obtain ⟨hg, hfailed⟩ := Bool.or_eq_false_iff.mp hor
        exact hclean.2 hg hfailed
  · cases hs

theorem Inv.readFailed_step (h : Inv s) (hs : next s (.readFailed t) = some u) : Inv u := by
  simp only [next] at hs
  split at hs
  · next c failed seen ht =>
    have hclean := h.clean t
    rw [ht] at hclean
    split at hs
    · obtain rfl := Option.some.inj hs
      apply h.moveThread (.inr rfl)
      · intro d i
        rw [ht]
        rfl
      · intro d i
        rfl
      · intro hor
        exact hclean (Bool.or_eq_false_iff.mp hor).1
    · obtain rfl := Option.some.inj hs
      apply h.moveThread (.inr rfl)
      · intro d i
        rw [ht]
        rfl
      · intro d i
        rfl
      · exact hclean
  · cases hs

/-- One step of any thread or server. -/
theorem next_inv {a : Action} (h : Inv s) (hs : next s a = some u) : Inv u := by
  cases a with
  | op t c => exact h.op_step hs
  | tryLock t => exact h.tryLock_step hs
  | recheck t => exact h.recheck_step hs
  | barrierAll t => exact h.barrierAll_step hs
  | flush t => exact h.flush_step hs
  | lock t => exact h.lock_step hs
  | send t => exact h.send_step hs
  | sendFails t => exact h.sendFails_step hs
  | work c v => exact h.work_step hs
  | answer c => exact h.answer_step hs
  | replyLost t => exact h.replyLost_step hs
  | receive t => exact h.receive_step hs
  | record t => exact h.record_step hs
  | unlock t => exact h.unlock_step hs
  | readFailed t => exact h.readFailed_step hs

end Step

/-- The client loses no increment and counts none twice: on every connection, at
every moment at which no thread is about to pass on increments, the increments
passed on in each category add up to the last total that was decoded. And when
`sshx_flush` succeeds, each server has handled its barrier of that call and had
logged no error by then. -/
theorem barrier_accounting {s₀ s : State} (h₀ : Initial s₀) (h : Reachable next s₀ s) :
    (∀ c, (∀ t k delta errCount, s.threads t ≠ .recording k c delta errCount) →
      ∀ i, (s.conns c).recorded i = ((s.conns c).lastDecoded i).toNat) ∧
    ∀ t seen, s.threads t = .returned false seen → seen = List.replicate s.nconns 0 := by
  have hinv : Inv s := h.invariant h₀.inv fun s a u hs hn => next_inv hs hn
  constructor
  · intro c hidle i
    have hbal := hinv.balanced c i
    have hcarried : s.carried c i = 0 := by
      unfold State.carried
      split
      · next t _ =>
        unfold Control.carries
        split
        · next k d delta errCount ht =>
          rw [if_neg]
          rintro rfl
          exact hidle t k delta errCount ht
        · rfl
      · rfl
    rw [(hinv.ordered c).last, ← hbal, hcarried, Nat.add_zero]
  · intro t seen ht
    have hclean := hinv.clean t
    rw [ht] at hclean
    exact hclean rfl

/-- One connection, on which nothing has happened yet. -/
def oneConn : State where
  nconns := 1
  conns := fun _ => ⟨0, 1024, none, fun _ => 0, (0, 0), false,
    ⟨0, 0, [], ⟨0, 0, 0, 0, 0, 0, 0, 0⟩, by decide⟩, .quiet, [], []⟩
  threads := fun _ => .idle

/-- A server that has found three metadata mismatches. -/
def mismatches : ServerState := ⟨0, 0, [], ⟨3, 0, 0, 0, 0, 1, 0, 0⟩, by decide⟩

def flushRun : List Action :=
  [.work 0 mismatches, .flush 0, .lock 0, .send 0, .answer 0, .receive 0, .record 0, .unlock 0,
    .readFailed 0, .readFailed 0]

def Control.result : Control → Option (Bool × List ℕ)
  | .returned failed seen => some (failed, seen)
  | _ => none

theorem Control.result_eq_some {p : Control} {failed : Bool} {seen : List ℕ}
    (h : p.result = some (failed, seen)) : p = .returned failed seen := by
  cases p <;> simp_all [Control.result]

theorem oneConn_initial : Initial oneConn :=
  ⟨fun _ => ⟨rfl, fun _ => rfl, rfl, rfl, rfl⟩, fun _ => rfl⟩

theorem barrier_accounting_flush :
    ∃ s, exec next oneConn flushRun = some s ∧ s.threads 0 = .returned false [0] ∧
      [0] = List.replicate s.nconns 0 := by
  have hrun : (exec next oneConn flushRun).map (fun s => (s.threads 0).result) =
      some (some (false, [0])) := by decide +kernel
  obtain ⟨s, hs, hresult⟩ := Option.map_eq_some_iff.mp hrun
  have hreturned := Control.result_eq_some hresult
  exact ⟨s, hs, hreturned, (barrier_accounting oneConn_initial ⟨_, hs⟩).2 0 [0] hreturned⟩

end Ecopy.Remote.Barriers
