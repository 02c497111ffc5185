import Ecopy.Lib.Runs
import Ecopy.Remote.ApplyPool
import Mathlib.Data.Fintype.Basic
import Mathlib.Data.List.Basic
import Mathlib.Tactic.Common

/-!
# Verification beside the copy

In a remote run with pipelined verification, copy workers and walkers send
fire-and-forget frames over their connections while verify workers already ask
other servers to check finished files. A file becomes an item of the intake
list when its thread calls `verify_queue_file`. The feeder passes durable items
straight to the verify pool; the others are held back as a generation, and the
generation is released after one barrier on every connection. Directory items
wait until the main thread has flushed all connections.

The question is whether a `VERIFY_PATH` frame can be handled while a `PUTFILE`
or `SETMETA` frame of the same path is still pending somewhere. A handler is
entered in one step and returns in another, so that the answer does not depend
on how long handlers take.

The model lets threads of one kind act in any number and order. Thread joins
of the main thread other than the feeder's are not modelled; this only adds
interleavings. The handshakes are over, and the bytes of streamed files, the
links and the statistics do not matter here.
-/
namespace Ecopy.Remote.VerifyOrder
open Lib.Runs Link

/-- What is fixed for a run: the connections with their apply pools, the
partition of the connections, and the settings of the copy and of the
verification. `sparse` and `size` describe the source files. -/
structure Params (π : Type*) where
  nconns : ℕ
  verifyBase : ℕ
  nverify : ℕ
  pool : Fin nconns → ApplyPool
  checkers : ℕ
  includeSkipped : Bool
  pipelineOps : ℕ
  queueMax : ℕ
  putfileMax : ℕ
  sparse : π → Bool
  size : π → ℕ
  nconns_pos : 0 < nconns
  partition : 0 < nverify → 0 < verifyBase ∧ verifyBase + nverify = nconns

/-- How far the run has got with a path. A path is handled by one thread, once. -/
inductive Stage where
  | fresh
  | copied
  | refreshed
  | finalized
  | queued
deriving DecidableEq, Repr

structure Item (π : Type*) where
  path : π
  durable : Bool
deriving DecidableEq, Repr

inductive Feeder (π : Type*) where
  | waiting
  | feeding (batch : List (Item π)) (stolen : ℕ) (timedOut stop : Bool)
  | sweeping (conn : ℕ) (wait : Option ℕ) (stop : Bool)
  | releasing (stop : Bool)
  | exited
deriving DecidableEq, Repr

inductive Main where
  | copying
  | finalizing (failed : Bool)
  | flushing (conn : ℕ) (wait : Option ℕ) (failed : Bool)
  | joining (includeDirs : Bool)
  | releasing
  | closed
deriving DecidableEq, Repr

def Main.isFinalizing : Main → Bool
  | .finalizing _ => true
  | _ => false

structure State {π : Type*} (P : Params π) where
  link : Fin P.nconns → Link π
  stage : π → Stage
  intake : List (Item π)
  pendingCount : ℕ
  dirs : List π
  feeder : Feeder π
  feederStop : Bool
  generation : List π
  released : List π
  checker : Fin P.checkers → Option π
  main : Main
  shutdown : Bool

section Model
variable {π : Type*} (P : Params π)

def State.start : State P where
  link := fun _ => Link.empty
  stage := fun _ => .fresh
  intake := []
  pendingCount := 0
  dirs := []
  feeder := .waiting
  feederStop := false
  generation := []
  released := []
  checker := fun _ => none
  main := .copying
  shutdown := false

/-- The connections that copy threads may use. -/
def Params.span : ℕ := if 0 < P.nverify then P.verifyBase else P.nconns

theorem Params.span_pos : 0 < P.span := by
  unfold span
  split
  · rename_i h
    exact (P.partition h).1
  · exact P.nconns_pos

theorem Params.span_le : P.span ≤ P.nconns := by
  unfold span
  split
  · rename_i h
    have := (P.partition h).2
    omega
  · exact le_rfl

def sshxBindThread (idx : ℕ) : Fin P.nconns :=
  ⟨idx % P.span, lt_of_lt_of_le (Nat.mod_lt _ P.span_pos) P.span_le⟩

def sshxBindThreadVerify (idx : ℕ) : Fin P.nconns :=
  if h : 0 < P.nverify then
    ⟨P.verifyBase + idx % P.nverify, by
      have hlt : idx % P.nverify < P.nverify := Nat.mod_lt _ h
      have := (P.partition h).2
      omega⟩
  else ⟨idx % P.nconns, Nat.mod_lt _ P.nconns_pos⟩

/-- `copy_file_remote` sends one `PUTFILE` frame for these files and streams
the others. -/
def viaPutfile (p : π) : Bool := !P.sparse p && decide (P.size p ≤ P.putfileMax)

/-- The flag that `worker_main` computes for a copied file. -/
def copiedDurable (p : π) : Bool := P.sparse p || decide (P.size p > P.putfileMax)

theorem copiedDurable_eq_not_viaPutfile (p : π) : copiedDurable P p = !viaPutfile P p := by
  simp only [copiedDurable, viaPutfile, Bool.not_and, Bool.not_not, gt_iff_lt]
  congr 1
  by_cases h : P.size p ≤ P.putfileMax
  · simp [h]
  · simp [h, not_le.mp h]

def verifyLimit : ℕ := max (P.checkers * 4) 16

variable {P} [DecidableEq π]

def State.sendOn (s : State P) (c : Fin P.nconns) (m : Request π) : State P :=
  { s with link := Function.update s.link c ((s.link c).send m) }

def State.setStage (s : State P) (p : π) (g : Stage) : State P :=
  { s with stage := Function.update s.stage p g }

def State.barrierOn (s : State P) (c : Fin P.nconns) : State P :=
  { s with link := Function.update s.link c (s.link c).sendBarrier }

/-- `verify_queue_file`, once the item is made. Producers wait while the intake
is full and the feeder is there to drain it. -/
def State.queueFile (s : State P) (p : π) (durable : Bool) : Option (State P) :=
  if s.feeder ≠ .exited ∧ s.feederStop = false ∧ P.queueMax ≤ s.pendingCount then none
  else some { s with
    intake := s.intake ++ [⟨p, durable⟩]
    pendingCount := s.pendingCount + 1
    stage := Function.update s.stage p .queued }

/-- `verify_pool_submit`: a full pool blocks, a shutdown refuses the item. -/
def State.submit (s : State P) (p : π) : Option (State P) :=
  if s.shutdown then some s
  else if s.released.length < verifyLimit P then some { s with released := s.released ++ [p] }
  else none

/-- Walkers and copy workers. A thread is named by the index it passes to
`sshx_bind_thread`. -/
inductive CopyAction (π : Type*) where
  | copyFile (worker : ℕ) (p : π)
  | queueCopied (p : π)
  | skipFile (walker : ℕ) (p : π)
  | queueSkipped (p : π)
  | mkdir (walker : ℕ) (p : π)
  | request (thread : ℕ)
  | periodicBarrier (thread : ℕ)
  | finalizeDir (thread : ℕ) (p : π)
  | queueDirectory (p : π)
deriving DecidableEq, Repr

def copyStep (s : State P) : CopyAction π → Option (State P)
  | .copyFile worker p =>
    if s.main = .copying ∧ s.stage p = .fresh then
      some ((s.sendOn (sshxBindThread P worker)
        (if viaPutfile P p then .putfile p else .other)).setStage p .copied)
    else none
  | .queueCopied p =>
    if s.stage p = .copied then s.queueFile p (copiedDurable P p) else none
  | .skipFile walker p =>
    if s.main = .copying ∧ s.stage p = .fresh then
      some ((s.sendOn (sshxBindThread P walker) (.setmeta p)).setStage p .refreshed)
    else none
  -- `flush_file_batch` passes `durable = 1`
  | .queueSkipped p =>
    if s.stage p = .refreshed ∧ P.includeSkipped = true then s.queueFile p true else none
  | .mkdir walker p => some (s.sendOn (sshxBindThread P walker) (.mkdir p))
  | .request thread => some (s.sendOn (sshxBindThread P thread) .other)
  | .periodicBarrier thread => some (s.barrierOn (sshxBindThread P thread))
  | .finalizeDir thread p =>
    if s.main.isFinalizing = true ∧ s.stage p = .fresh then
      some ((s.sendOn (sshxBindThread P thread) (.setmeta p)).setStage p .finalized)
    else none
  | .queueDirectory p =>
    if s.main.isFinalizing = true ∧ s.stage p = .finalized then
      some { s with dirs := s.dirs ++ [p] }
    else none

inductive FeederAction where
  | steal (timedOut : Bool)
  | feed
  | endFeed
  | barrier
  | reply
  | noReply
  | release
deriving DecidableEq, Repr

/-- `verify_feeder_main` with `pipeline_flush_gen` and the loop of
`sshx_barrier_all` unrolled. A barrier that ends without a reply (`noReply`: no
memory, a failed send, a lost connection) only sets the return code, and the
sweep goes on. -/
def feederStep (s : State P) : FeederAction → Option (State P)
  | .steal timedOut =>
    match s.feeder with
    | .waiting =>
      if s.intake ≠ [] ∨ s.feederStop = true ∨ timedOut = true then
        if s.shutdown then
          some { s with
            intake := []
            generation := []
            feeder := .feeding [] s.intake.length timedOut s.feederStop }
        else
          some { s with
            intake := []
            feeder := .feeding s.intake s.intake.length timedOut s.feederStop }
      else none
    | _ => none
  | .feed =>
    match s.feeder with
    | .feeding (item :: batch) stolen timedOut stop =>
      if item.durable then
        (s.submit item.path).map fun u =>
          { u with feeder := .feeding batch stolen timedOut stop }
      else
        some { s with
          generation := s.generation ++ [item.path]
          feeder := .feeding batch stolen timedOut stop }
    | _ => none
  | .endFeed =>
    match s.feeder with
    | .feeding [] stolen timedOut stop =>
      if s.generation ≠ [] ∧
          (P.pipelineOps ≤ s.generation.length ∨ timedOut = true ∨ stop = true) then
        some { s with
          pendingCount := s.pendingCount - stolen
          feeder := .sweeping 0 none stop }
      else
        some { s with
          pendingCount := s.pendingCount - stolen
          feeder := if stop then .exited else .waiting }
    | _ => none
  | .barrier =>
    match s.feeder with
    | .sweeping conn none stop =>
      if h : conn < P.nconns then
        some { s.barrierOn ⟨conn, h⟩ with
          feeder := .sweeping conn (some (s.link ⟨conn, h⟩).nextId) stop }
      else some { s with feeder := .releasing stop }
    | _ => none
  | .reply =>
    match s.feeder with
    | .sweeping conn (some id) stop =>
      if ∃ h : conn < P.nconns, id ∈ (s.link ⟨conn, h⟩).replied then
        some { s with feeder := .sweeping (conn + 1) none stop }
      else none
    | _ => none
  | .noReply =>
    match s.feeder with
    | .sweeping conn _ stop =>
      if conn < P.nconns then some { s with feeder := .sweeping (conn + 1) none stop } else none
    | _ => none
  | .release =>
    match s.feeder, s.generation with
    | .releasing _, p :: rest => (s.submit p).map fun u => { u with generation := rest }
    | .releasing stop, [] => some { s with feeder := if stop then .exited else .waiting }
    | _, _ => none

inductive MainAction where
  | workersStopped
  | finalizeFailed
  | flush
  | barrier
  | reply (errors : Bool)
  | noReply
  | join
  | releaseDir
  | interrupt
deriving DecidableEq, Repr

/-- The tail of `main` with `sshx_flush` unrolled, and `verify_pipeline_finish`.
Directory items are released only when the copy and the flush succeeded. -/
def mainStep (s : State P) : MainAction → Option (State P)
  | .workersStopped =>
    if s.main = .copying then
      if s.shutdown then some { s with main := .joining false, feederStop := true }
      else some { s with main := .finalizing false }
    else none
  | .finalizeFailed =>
    if s.main.isFinalizing then some { s with main := .finalizing true } else none
  | .flush =>
    match s.main with
    | .finalizing failed => some { s with main := .flushing 0 none failed }
    | _ => none
  | .barrier =>
    match s.main with
    | .flushing conn none failed =>
      if h : conn < P.nconns then
        some { s.barrierOn ⟨conn, h⟩ with
          main := .flushing conn (some (s.link ⟨conn, h⟩).nextId) failed }
      else some { s with main := .joining (!failed), feederStop := true }
    | _ => none
  | .reply errors =>
    match s.main with
    | .flushing conn (some id) failed =>
      if ∃ h : conn < P.nconns, id ∈ (s.link ⟨conn, h⟩).replied then
        some { s with main := .flushing (conn + 1) none (failed || errors) }
      else none
    | _ => none
  | .noReply =>
    match s.main with
    | .flushing conn _ _ =>
      if conn < P.nconns then some { s with main := .flushing (conn + 1) none true } else none
    | _ => none
  | .join =>
    match s.main with
    | .joining includeDirs =>
      if s.feeder = .exited then
        if includeDirs then some { s with main := .releasing }
        else some { s with main := .closed, dirs := [] }
      else none
    | _ => none
  | .releaseDir =>
    match s.main, s.dirs with
    | .releasing, p :: rest => (s.submit p).map fun u => { u with dirs := rest }
    | .releasing, [] => some { s with main := .closed }
    | _, _ => none
  | .interrupt => some { s with shutdown := true }

/-- Workers of the verify pool, named by their bind index. One item takes any
number of `VERIFY_PATH` frames. -/
inductive CheckAction (checkers : ℕ) where
  | take (worker : Fin checkers)
  | send (worker : Fin checkers)
  | done (worker : Fin checkers)
deriving DecidableEq, Repr

def checkStep (s : State P) : CheckAction P.checkers → Option (State P)
  | .take j =>
    match s.checker j, s.released with
    | none, p :: rest =>
      if s.shutdown then none
      else some { s with released := rest, checker := Function.update s.checker j (some p) }
    | _, _ => none
  | .send j =>
    match s.checker j with
    | some p => some (s.sendOn (sshxBindThreadVerify P j) (.verifyPath p))
    | none => none
  | .done j => some { s with checker := Function.update s.checker j none }

inductive Action (π : Type*) (conns checkers : ℕ) where
  | copy (a : CopyAction π)
  | feeder (a : FeederAction)
  | main (a : MainAction)
  | check (a : CheckAction checkers)
  | server (c : Fin conns) (a : ServerAction)
deriving DecidableEq, Repr

def next (s : State P) : Action π P.nconns P.checkers → Option (State P)
  | .copy a => copyStep s a
  | .feeder a => feederStep s a
  | .main a => mainStep s a
  | .check a => checkStep s a
  | .server c a =>
    ((s.link c).serve (P.pool c) a).map fun l =>
      { s with link := Function.update s.link c l }

/-- A fire-and-forget frame for `p` was sent and has not been applied. -/
def Pending (s : State P) (p : π) : Prop := ∃ c, ∃ m ∈ (s.link c).pending, m.Writes p

instance (s : State P) (p : π) : Decidable (Pending s p) :=
  inferInstanceAs (Decidable (∃ c, ∃ m ∈ (s.link c).pending, m.Writes p))

/-- The path whose `VERIFY_PATH` handler a step enters. -/
def verifies (s : State P) : Action π P.nconns P.checkers → Option π
  | .server c a =>
    match (s.link c).enters (P.pool c) a with
    | some (.verifyPath p) => some p
    | _ => none
  | _ => none

/-- Actions that respect the gate: no skipped file is queued for verification,
and every barrier of a generation is answered. -/
def Gated {conns checkers : ℕ} : Action π conns checkers → Prop
  | .copy (.queueSkipped _) => False
  | .feeder .noReply => False
  | _ => True

end Model

end Ecopy.Remote.VerifyOrder
