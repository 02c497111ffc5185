import Ecopy.Lib.Runs
import Ecopy.Remote.ApplyPool
import Mathlib.Data.List.Basic

/-!
# Directory metadata at the end of a remote run

`main` stops the workers, drains every connection, replays the hard links and
calls `finalize_directories_parallel`. That drains every connection again, sorts
the recorded directories by depth, the deepest first, and gives one depth after
the other to a group of threads which send a `SETMETA` for each directory on the
connections they are bound to. Between two groups all connections are drained.

A drain is `sshx_barrier_all`: one barrier after the other on each connection,
each waited for. Only runs whose barriers succeed are described. While the copy
is under way any thread may send any frame of it on any connection; frames of the
verification and further barriers may come from other threads at any time, also
between the barriers of a drain. The end of a stream is not part of the model.

The history lists when a handler of some server was entered and when it returned.
-/
namespace Ecopy.Remote.Finalize
open Lib.Runs

/-- What a frame is about. The `SETMETA` of a directory is sent only when the
directory is finalised; files get theirs while they are copied. -/
inductive Target (ν : Type*) where
  | directory (path : List ν)
  | entry (path : List ν)
deriving DecidableEq, Repr

section Frames
variable {ν : Type*}

def setmetaDirectory (path : List ν) : Request (Target ν) := .setmeta (.directory path)

/-- The frames that finalise a directory. -/
def Finalizes (m : Request (Target ν)) : Prop := ∃ path, m = setmetaDirectory path

/-- The frames that add, remove or rename an entry of some directory. The frames
that are not distinguished, `SYMLINK`, `LINK`, `OPEN`, `COMMIT`, `ABORT` and the
like, are all counted. -/
def ChangesEntries : Request (Target ν) → Prop
  | .putfile _ | .mkdir _ | .other => True
  | .setmeta _ | .verifyPath _ | .barrier _ => False

/-- What traversal threads and copy workers send. -/
def ofCopy : Request (Target ν) → Bool
  | .putfile _ | .mkdir _ | .setmeta (.entry _) | .other => true
  | .setmeta (.directory _) | .verifyPath _ | .barrier _ => false

theorem not_finalizes_of_ofCopy {m : Request (Target ν)} (h : ofCopy m = true) :
    ¬ Finalizes m := by
  rintro ⟨path, rfl⟩
  cases h

end Frames

/-- `dirwalk_node_t` and `dir_record_t`, by what the order depends on. -/
structure Node (ν : Type*) where
  path : List ν
  depth : ℕ
deriving DecidableEq, Repr

/-- What follows a drain of all connections. -/
inductive After (ν : Type*) where
  | links
  | sort
  | groups (rest : List (Node ν))

/-- The point that `main` has reached. A group has records no thread has taken,
records that some thread is about to send and the `failed` flag. -/
inductive Main (ν : Type*) where
  | copying
  | sweeping (after : After ν) (conn : ℕ) (wait : Option ℕ)
  | linking
  | sorting
  | groups (rest : List (Node ν))
  | group (todo taken : List (Node ν)) (failed : Bool) (rest : List (Node ν))
  | finished
  | skipped

inductive Event (ν : Type*) (n : ℕ) where
  | began (c : Fin n) (m : Request (Target ν))
  | ended (c : Fin n) (m : Request (Target ν))
deriving DecidableEq

def Event.request {ν : Type*} {n : ℕ} : Event ν n → Request (Target ν)
  | .began _ m | .ended _ m => m

structure State (ν : Type*) (n : ℕ) where
  nodes : List (Node ν)
  records : List (Node ν)
  main : Main ν
  link : Fin n → Link (Target ν)
  history : List (Event ν n)

def State.start (ν : Type*) (n : ℕ) : State ν n where
  nodes := [⟨[], 0⟩]
  records := []
  main := .copying
  link := fun _ => .empty
  history := []

inductive Action (ν : Type*) (n : ℕ) where
  | push (node : Node ν) (name : ν)
  | record (node : Node ν)
  | copy (c : Fin n) (m : Request (Target ν))
  | verify (c : Fin n) (target : Target ν)
  | barrier (c : Fin n)
  | stop
  | interrupt
  | sweepSend
  | sweepReply
  | sweepDone
  | link (c : Fin n)
  | linksDone
  | sort (sorted : List (Node ν))
  | startGroup
  | giveUp
  | take
  | sendMeta (c : Fin n) (r : Node ν)
  | metaFails (r : Node ν)
  | groupFails
  | joined
  | serve (c : Fin n) (a : ServerAction)

section Model
variable {ν : Type*} {n : ℕ}

def State.sendOn (s : State ν n) (c : Fin n) (m : Request (Target ν)) : State ν n :=
  { s with link := Function.update s.link c ((s.link c).send m) }

def State.barrierOn (s : State ν n) (c : Fin n) : State ν n :=
  s.sendOn c (.barrier (s.link c).nextId)

/-- A step of a server enters a handler, leaves one or does neither. -/
def event (pool : ApplyPool) (c : Fin n) (l : Link (Target ν)) (a : ServerAction) :
    Option (Event ν n) :=
  match l.enters pool a with
  | some m => some (.began c m)
  | none => (l.leaves a).map (.ended c)

def After.start : After ν → Main ν
  | .links => .linking
  | .sort => .sorting
  | .groups rest => .groups rest

/-- `dir_record_cmp_desc_depth`, up to the order within one depth. -/
def DescDepth (rs : List (Node ν)) : Prop := rs.Pairwise fun a b => b.depth ≤ a.depth

instance (rs : List (Node ν)) : Decidable (DescDepth rs) :=
  inferInstanceAs (Decidable (rs.Pairwise fun a b => b.depth ≤ a.depth))

/-- The first group of `dirwalk_depth_groups` and what comes after it. -/
def depthGroup (r : Node ν) (rest : List (Node ν)) : List (Node ν) :=
  r :: rest.takeWhile fun x => x.depth = r.depth

def afterGroup (r : Node ν) (rest : List (Node ν)) : List (Node ν) :=
  rest.dropWhile fun x => x.depth = r.depth

variable [DecidableEq ν]

/-- One step of the client, of one of its threads or of a server. -/
def next (pool : Fin n → ApplyPool) (s : State ν n) : Action ν n → Option (State ν n)
  | .push node name =>
    match s.main with
    | .copying =>
      if node ∈ s.nodes then
        some { s with nodes := ⟨node.path ++ [name], node.depth + 1⟩ :: s.nodes }
      else none
    | _ => none
  | .record node =>
    match s.main with
    | .copying =>
      if node ∈ s.nodes then some { s with records := s.records ++ [node] } else none
    | _ => none
  | .copy c m =>
    match s.main with
    | .copying => if ofCopy m then some (s.sendOn c m) else none
    | _ => none
  | .verify c target => some (s.sendOn c (.verifyPath target))
  | .barrier c => some (s.barrierOn c)
  | .stop =>
    match s.main with
    | .copying => some { s with main := .sweeping .links 0 none }
    | _ => none
  | .interrupt =>
    match s.main with
    | .copying => some { s with main := .skipped }
    | _ => none
  | .sweepSend =>
    match s.main with
    | .sweeping after conn none =>
      if h : conn < n then
        some { s.barrierOn ⟨conn, h⟩ with
          main := .sweeping after conn (some (s.link ⟨conn, h⟩).nextId) }
      else none
    | _ => none
  | .sweepReply =>
    match s.main with
    | .sweeping after conn (some id) =>
      if h : conn < n then
        if id ∈ (s.link ⟨conn, h⟩).replied then
          some { s with main := .sweeping after (conn + 1) none }
        else none
      else none
    | _ => none
  | .sweepDone =>
    match s.main with
    | .sweeping after conn none =>
      if conn < n then none else some { s with main := after.start }
    | _ => none
  | .link c =>
    match s.main with
    | .linking => some (s.sendOn c .other)
    | _ => none
  | .linksDone =>
    match s.main with
    | .linking =>
      some { s with main := if s.records = [] then .skipped else .sweeping .sort 0 none }
    | _ => none
  | .sort sorted =>
    match s.main with
    | .sorting =>
      if sorted.Perm s.records ∧ DescDepth sorted then
        some { s with main := .groups sorted }
      else none
    | _ => none
  | .startGroup =>
    match s.main with
    | .groups [] => some { s with main := .finished }
    | .groups (r :: rest) =>
      some { s with main := .group (depthGroup r rest) [] false (afterGroup r rest) }
    | _ => none
  | .giveUp =>
    match s.main with
    | .groups _ => some { s with main := .finished }
    | _ => none
  | .take =>
    match s.main with
    | .group (r :: todo) taken failed rest =>
      some { s with main := .group todo (r :: taken) failed rest }
    | _ => none
  | .sendMeta c r =>
    match s.main with
    | .group todo taken failed rest =>
      if r ∈ taken then
        some { s.sendOn c (setmetaDirectory r.path) with
          main := .group todo (taken.erase r) failed rest }
      else none
    | _ => none
  | .metaFails r =>
    match s.main with
    | .group todo taken _ rest =>
      if r ∈ taken then some { s with main := .group todo (taken.erase r) true rest }
      else none
    | _ => none
  | .groupFails =>
    match s.main with
    | .group todo taken _ rest => some { s with main := .group todo taken true rest }
    | _ => none
  | .joined =>
    match s.main with
    | .group _ [] true _ => some { s with main := .finished }
    | .group [] [] false rest => some { s with main := .sweeping (.groups rest) 0 none }
    | _ => none
  | .serve c a =>
    match (s.link c).serve (pool c) a with
    | some l =>
      some { s with
        link := Function.update s.link c l
        history := s.history ++ (event (pool c) c (s.link c) a).toList }
    | none => none

end Model

end Ecopy.Remote.Finalize
