import Ecopy.Lib.RefCounts
import Ecopy.Lib.Threads
import Ecopy.Workers.DirHandles
import Mathlib.Data.Multiset.AddSub

/-!
# What one step does to the references

A node is live while the reference of its task is held, and spent from the
release of the reference until the node is reused or freed. Each thread, the
queues and the free list own a part of the nodes, and some references besides:
the walker its own one, a large file that of its context. A step of one thread
moves nodes between its part and the shared one, and takes or drops at most one
reference; the parts of the other threads are a frame around it.
-/
namespace Ecopy.Workers.DirHandles
open Heap (Entry heapPush heapPopMax)
open Lib.Threads

def Worker.live : Worker → List ℕ
  | .ready stash _ => stash
  | .copying stash _ => stash
  | .dropping stash _ k => stash.drop k
  | .abandoning stash head => stash.drop head
  | .starting t => [t]
  | .opened t _ => [t]
  | .finishing t _ => [t]
  | .givingSlot t => [t]
  | .freeing t => [t]
  | _ => []

def Worker.spent : Worker → List ℕ
  | .dropping stash _ k => stash.take k
  | .abandoning stash head => stash.take head
  | .recycling t => [t]
  | _ => []

/-- The reference of the context of a large file that is being started. -/
def Worker.refs : Worker → List Ref
  | .opened _ ctx => [ctx]
  | .finishing _ ctx => [ctx]
  | _ => []

def Producer.live : Producer → List ℕ
  | .building _ _ _ batch => batch
  | .queueing _ batch => batch
  | .failing _ _ batch => batch
  | _ => []

def Producer.spent : Producer → List ℕ
  | .building _ _ spares _ => spares
  | .failing _ spares _ => spares
  | _ => []

/-- The walker's own reference. -/
def Producer.refs : Producer → List Ref
  | .holding own => [own]
  | .building own _ _ _ => [own]
  | .queueing own _ => [own]
  | .failing own _ _ => [own]
  | _ => []

def Main.live : Main → List ℕ
  | .freeing batch => batch
  | .freeingHeap items => items
  | _ => []

/-- The queued tasks. -/
def Shared.live (sh : Shared) : List ℕ :=
  sh.smallQ.flatMap DirBatch.remaining ++ sh.largeHeap.map Entry.task

/-- The references and nodes of the program, or of a part of its threads. -/
structure View where
  ledger : Ledger
  node : ℕ → Task
  nodes : ℕ
  live : Multiset ℕ
  spent : Multiset ℕ
  refs : Multiset Ref

/-- Every reference that somebody holds. -/
def View.held (V : View) : Multiset Ref := V.live.map (fun t => (V.node t).ref) + V.refs

def Shared.view (sh : Shared) (live spent : Multiset ℕ) (refs : Multiset Ref) : View where
  ledger := sh.ledger
  node := sh.node
  nodes := sh.nodes
  live := sh.live + live
  spent := sh.freelist + spent
  refs := sh.running + refs

/-- The nodes stay where they are, up to spent ones that are freed. -/
structure Kept (V V' : View) : Prop where
  node : V'.node = V.node
  nodes : V'.nodes = V.nodes
  live : V'.live = V.live
  spent : V'.spent ≤ V.spent

inductive Moves (V V' : View) : Prop
  | quiet (kept : Kept V V') (ledger : V'.ledger = V.ledger) (refs : V'.refs = V.refs)
  | create (srcFd dstFd : ℤ) (unused : V.ledger.Unused srcFd dstFd) (kept : Kept V V')
      (ledger : V'.ledger = V.ledger.create srcFd dstFd)
      (refs : V'.refs = V.ledger.ref .walker V.ledger.handles.length ::ₘ V.refs)
  | build (t : ℕ) (own : Ref) (large : Bool) (mem : own ∈ V.refs)
      (ledger : V'.ledger = V.ledger.retain .task own.dir)
      (node : V'.node = Function.update V.node t ⟨V.ledger.ref .task own.dir, large⟩)
      (got : t ::ₘ V'.spent ≤ V.spent ∧ V'.nodes = V.nodes ∨
        t = V.nodes ∧ V'.nodes = V.nodes + 1 ∧ V'.spent ≤ V.spent)
      (live : V'.live = t ::ₘ V.live) (refs : V'.refs = V.refs)
  | retain (t : ℕ) (mem : t ∈ V.live) (kept : Kept V V')
      (ledger : V'.ledger = V.ledger.retain .largeFile (V.node t).ref.dir)
      (refs : V'.refs = V.ledger.ref .largeFile (V.node t).ref.dir ::ₘ V.refs)
  | releaseNode (t : ℕ) (ledger : V'.ledger = V.ledger.release (V.node t).ref)
      (node : V'.node = V.node) (nodes : V'.nodes = V.nodes) (live : V.live = t ::ₘ V'.live)
      (spent : V'.spent ≤ t ::ₘ V.spent) (refs : V'.refs = V.refs)
  | release (r : Ref) (kept : Kept V V') (ledger : V'.ledger = V.ledger.release r)
      (refs : V.refs = r ::ₘ V'.refs)

/-- The same nodes are live and the same are spent, whatever else changed. -/
theorem Moves.still (V : View) : Moves V V := .quiet ⟨rfl, rfl, rfl, le_rfl⟩ rfl rfl

def View.frame (V : View) (live spent : Multiset ℕ) (refs : Multiset Ref) : View :=
  { V with live := V.live + live, spent := V.spent + spent, refs := V.refs + refs }

theorem view_add (sh : Shared) (l live s spent : Multiset ℕ) (r refs : Multiset Ref) :
    sh.view (l + live) (s + spent) (r + refs) = (sh.view l s r).frame live spent refs := by
  simp only [Shared.view, View.frame, add_assoc]

theorem Kept.frame {V V' : View} (h : Kept V V') (live spent : Multiset ℕ) (refs : Multiset Ref) :
    Kept (V.frame live spent refs) (V'.frame live spent refs) :=
  ⟨h.node, h.nodes, congrArg (· + live) h.live, add_le_add_left h.spent spent⟩

theorem Moves.frame {V V' : View} (h : Moves V V') (live spent : Multiset ℕ)
    (refs : Multiset Ref) : Moves (V.frame live spent refs) (V'.frame live spent refs) := by
  cases h with
  | quiet kept ledger hrefs =>
    exact .quiet (kept.frame live spent refs) ledger (congrArg (· + refs) hrefs)
  | create srcFd dstFd unused kept ledger hrefs =>
    refine .create srcFd dstFd unused (kept.frame live spent refs) ledger ?_
    exact (congrArg (· + refs) hrefs).trans (Multiset.cons_add _ _ _)
  | build t own large mem ledger node got hlive hrefs =>
    refine .build t own large (Multiset.mem_add.mpr (Or.inl mem)) ledger node ?_ ?_
      (congrArg (· + refs) hrefs)
    · obtain ⟨hle, hn⟩ | ⟨rfl, hn, hle⟩ := got
      · refine Or.inl ⟨?_, hn⟩
        have hadd := add_le_add_left hle spent
        rwa [Multiset.cons_add] at hadd
      · exact Or.inr ⟨rfl, hn, add_le_add_left hle spent⟩
    · exact (congrArg (· + live) hlive).trans (Multiset.cons_add _ _ _)
  | retain t mem kept ledger hrefs =>
    refine .retain t (Multiset.mem_add.mpr (Or.inl mem)) (kept.frame live spent refs) ledger ?_
    exact (congrArg (· + refs) hrefs).trans (Multiset.cons_add _ _ _)
  | releaseNode t ledger node nodes hlive hspent hrefs =>
    refine .releaseNode t ledger node nodes ?_ ?_ (congrArg (· + refs) hrefs)
    · exact (congrArg (· + live) hlive).trans (Multiset.cons_add _ _ _)
    · have hadd := add_le_add_left hspent spent
      rwa [Multiset.cons_add] at hadd
  | release r kept ledger hrefs =>
    refine .release r (kept.frame live spent refs) ledger ?_
    exact (congrArg (· + refs) hrefs).trans (Multiset.cons_add _ _ _)

theorem flatMap_smallqPushBatch (q : List DirBatch) (head : ℕ) (tasks : List ℕ) :
    (smallqPushBatch q head tasks).flatMap DirBatch.remaining =
      q.flatMap DirBatch.remaining ++ tasks.drop head := by
  unfold smallqPushBatch
  split_ifs with h
  · simp [DirBatch.remaining]
  · rw [List.drop_eq_nil_of_le (not_lt.mp h), List.append_nil]

/-- A claim splits the batch into the stash and what goes back. -/
theorem take_append_drop_remaining (b : DirBatch) :
    b.remaining.take smallClaimBatch ++
        b.tasks.drop (b.head + (b.remaining.take smallClaimBatch).length) = b.remaining := by
  have hdrop : b.tasks.drop (b.head + (b.remaining.take smallClaimBatch).length) =
      b.remaining.drop smallClaimBatch := by
    rw [DirBatch.remaining, ← List.drop_drop, List.length_take]
    obtain h | h := Nat.le_total smallClaimBatch (b.tasks.drop b.head).length
    · rw [Nat.min_eq_left h]
    · rw [Nat.min_eq_right h, List.drop_length, List.drop_eq_nil_of_le h]
  rw [hdrop, List.take_append_drop]

theorem distribute_perm (node : ℕ → Task) (key : ℕ → ℕ) (ts : List ℕ) (heap : List (Entry ℕ))
    (db : List ℕ) :
    ((distribute node key ts heap db).2 ++ (distribute node key ts heap db).1.map Entry.task).Perm
      (ts ++ (db ++ heap.map Entry.task)) := by
  induction ts generalizing heap db with
  | nil => exact List.Perm.refl _
  | cons t ts ih =>
    unfold distribute
    split_ifs
    · refine (ih _ _).trans ?_
      have hpush : ((heapPush heap ⟨key t, t⟩).map Entry.task).Perm (t :: heap.map Entry.task) :=
        (Heap.perm_heapPush heap ⟨key t, t⟩).map Entry.task
      calc (ts ++ (db ++ (heapPush heap ⟨key t, t⟩).map Entry.task)).Perm
            (ts ++ (db ++ t :: heap.map Entry.task)) :=
            List.Perm.append_left ts (List.Perm.append_left db hpush)
        _ |>.Perm (ts ++ t :: (db ++ heap.map Entry.task)) :=
            List.Perm.append_left ts List.perm_middle
        _ |>.Perm (t :: ts ++ (db ++ heap.map Entry.task)) := List.perm_middle
    · refine (ih _ _).trans ?_
      rw [List.append_assoc, List.singleton_append]
      exact (List.Perm.append_left ts List.perm_middle).trans List.perm_middle

theorem pushSlice_live (sh : Shared) (key : ℕ → ℕ) (slice : List ℕ) :
    (pushSlice sh key slice).live.Perm (slice ++ sh.live) := by
  have hperm := distribute_perm sh.node key slice sh.largeHeap []
  unfold Shared.live pushSlice
  rw [flatMap_smallqPushBatch, List.drop_zero, List.append_assoc]
  refine (List.Perm.append_left _ hperm).trans ?_
  rw [List.nil_append]
  exact List.perm_append_comm_assoc _ _ _

section Parts
variable {sh sh' : Shared} {l l' s s' : List ℕ} {r r' : List Ref}

theorem kept_of_perm (node : sh'.node = sh.node) (nodes : sh'.nodes = sh.nodes)
    (live : (sh'.live ++ l').Perm (sh.live ++ l))
    (spent : (sh'.freelist ++ s').Perm (sh.freelist ++ s)) :
    Kept (sh.view l s r) (sh'.view l' s' r') :=
  ⟨node, nodes, Multiset.coe_eq_coe.mpr live, le_of_eq (Multiset.coe_eq_coe.mpr spent)⟩

theorem Moves.of_quiet (ledger : sh'.ledger = sh.ledger) (node : sh'.node = sh.node)
    (nodes : sh'.nodes = sh.nodes) (live : (sh'.live ++ l').Perm (sh.live ++ l))
    (spent : (sh'.freelist ++ s').Perm (sh.freelist ++ s))
    (refs : (sh'.running ++ r').Perm (sh.running ++ r)) :
    Moves (sh.view l s r) (sh'.view l' s' r') :=
  .quiet (kept_of_perm node nodes live spent) ledger (Multiset.coe_eq_coe.mpr refs)

theorem Moves.of_recycle (ts : List ℕ) (live : l' = l) (spent : s.Perm (ts ++ s')) :
    Moves (sh.view l s r) ((sh.recycle ts).view l' s' r) := by
  subst live
  refine .of_quiet rfl rfl rfl (List.Perm.refl _) ?_ (List.Perm.refl _)
  calc (ts.reverse ++ sh.freelist ++ s').Perm (sh.freelist ++ ts.reverse ++ s') :=
        List.Perm.append_right s' List.perm_append_comm
    _ |>.Perm (sh.freelist ++ s) := by
        rw [List.append_assoc]
        refine List.Perm.append_left _ (List.Perm.trans ?_ spent.symm)
        exact List.Perm.append_right s' (List.reverse_perm ts)

theorem Moves.of_releaseNode (t : ℕ) (live : l.Perm (t :: l')) (spent : s'.Subperm (t :: s)) :
    Moves (sh.view l s r) ((sh.releaseNode t).view l' s' r) := by
  refine .releaseNode t rfl rfl rfl ?_ ?_ rfl
  · have hl : (l : Multiset ℕ) = t ::ₘ l' := Multiset.coe_eq_coe.mpr live
    change (sh.live : Multiset ℕ) + l = t ::ₘ ((sh.live : Multiset ℕ) + l')
    rw [hl, Multiset.add_cons]
  · have hs : (s' : Multiset ℕ) ≤ t ::ₘ s := Multiset.coe_le.mpr spent
    change (sh.freelist : Multiset ℕ) + s' ≤ t ::ₘ ((sh.freelist : Multiset ℕ) + s)
    rw [← Multiset.add_cons]
    exact add_le_add_right hs _

theorem Moves.of_release (own : Ref) (refs : r = own :: r') :
    Moves (sh.view l s r) ((sh.release own).view l s r') := by
  subst refs
  refine .release own ⟨rfl, rfl, rfl, le_rfl⟩ rfl ?_
  change (sh.running : Multiset Ref) + (own ::ₘ r') = own ::ₘ ((sh.running : Multiset Ref) + r')
  rw [Multiset.add_cons]

end Parts

/-- The indices of a stash: the loop over its finished tasks runs up to the head, and only a
shutdown leaves tasks behind it. -/
def Worker.Fits (shutdown : Bool) : Worker → Prop
  | .ready stash head => head ≤ stash.length
  | .copying stash head => head ≤ stash.length
  | .dropping stash head k =>
    k ≤ head ∧ head ≤ stash.length ∧ (shutdown = false → head = stash.length)
  | .abandoning stash head => head ≤ stash.length
  | _ => True

theorem drop_perm_cons {stash : List ℕ} {k t : ℕ} (h : stash[k]? = some t) :
    (stash.drop k).Perm (t :: stash.drop (k + 1)) := by
  obtain ⟨hlt, ht⟩ := List.getElem?_eq_some_iff.mp h
  rw [List.drop_eq_getElem_cons hlt, ht]

theorem take_subperm_cons {stash : List ℕ} {k t : ℕ} (h : stash[k]? = some t) :
    (stash.take (k + 1)).Subperm (t :: stash.take k) := by
  rw [List.take_add_one, h]
  exact (List.perm_append_singleton t _).subperm

variable {sh sh' : Shared}

theorem lockStash_moves {stash : List ℕ} {head k : ℕ}
    (hfits : (Worker.dropping stash head k).Fits sh.shutdown) (hk : ¬k < head) :
    Moves (sh.view (stash.drop k) (stash.take k) ([] : List Ref))
      ((lockStash sh stash head).1.view (lockStash sh stash head).2.live
        (lockStash sh stash head).2.spent (lockStash sh stash head).2.refs) := by
  obtain ⟨hle, -, hall⟩ := hfits
  have heq : k = head := Nat.le_antisymm hle (not_lt.mp hk)
  subst heq
  unfold lockStash
  split_ifs with hshut
  · exact .still _
  · have hlen := hall (Bool.eq_false_iff.mpr hshut)
    refine .of_recycle (stash.take k) ?_ ?_
    · rw [hlen, List.drop_length]
      rfl
    · rw [show Worker.looping.spent = [] from rfl, List.append_nil]

theorem claimLarge_moves {w : Worker} (h : claimLarge sh = some (sh', w)) :
    Moves (sh.view ([] : List ℕ) ([] : List ℕ) ([] : List Ref)) (sh'.view w.live w.spent w.refs) := by
  unfold claimLarge at h
  split at h
  · cases h
  · obtain ⟨⟨e, rest⟩, hpop, heq⟩ := Option.map_eq_some_iff.mp h
    cases heq
    have hperm := (Heap.perm_heapPopMax hpop).map Entry.task
    refine .of_quiet rfl rfl rfl ?_ (List.Perm.refl _) (List.Perm.refl _)
    unfold Shared.live Worker.live
    rw [List.append_nil, List.append_assoc]
    refine List.Perm.append_left _ (List.Perm.trans ?_ hperm.symm)
    rw [List.map_cons]
    exact List.perm_append_singleton _ _

theorem claimSmall_moves {w : Worker} (h : claimSmall sh = some (sh', w)) :
    Moves (sh.view ([] : List ℕ) ([] : List ℕ) ([] : List Ref)) (sh'.view w.live w.spent w.refs) := by
  unfold claimSmall at h
  split at h
  · cases h
  next b rest hq =>
    split at h
    · cases h
    · cases h
      have hsplit := take_append_drop_remaining b
      refine .of_quiet rfl rfl rfl ?_ (List.Perm.refl _) (List.Perm.refl _)
      unfold Shared.live Worker.live
      dsimp only
      rw [flatMap_smallqPushBatch, hq, List.flatMap_cons, List.append_nil]
      generalize b.remaining.take smallClaimBatch = stash at hsplit ⊢
      generalize b.tasks.drop (b.head + stash.length) = back at hsplit ⊢
      rw [← hsplit]
      apply Multiset.coe_eq_coe.mp
      simp only [← Multiset.coe_add]
      abel

theorem workerNext_moves {w w' : Worker} {a : WorkerAct} (hfits : w.Fits sh.shutdown)
    (h : workerNext sh w a = some (sh', w')) :
    Moves (sh.view w.live w.spent w.refs) (sh'.view w'.live w'.spent w'.refs) := by
  unfold workerNext at h
  split at h
  next stash head =>
    cases h
    unfold dequeueWork
    split_ifs <;> exact .still _
  next stash head =>
    cases h
    exact .still _
  next stash head k =>
    split at h
    · obtain ⟨t, ht, heq⟩ := Option.map_eq_some_iff.mp h
      cases heq
      exact .of_releaseNode t (drop_perm_cons ht) (take_subperm_cons ht)
    · cases h
  next stash head k =>
    split at h
    · cases h
    next hk =>
      have hmoves := lockStash_moves hfits hk
      rw [Option.some.inj h] at hmoves
      exact hmoves
  next stash head =>
    obtain ⟨t, ht, heq⟩ := Option.map_eq_some_iff.mp h
    cases heq
    exact .of_releaseNode t (drop_perm_cons ht) (take_subperm_cons ht)
  next stash head =>
    split at h
    · cases h
    next hhead =>
      cases h
      refine .of_recycle (stash.take head) ?_ ?_
      · exact (List.drop_eq_nil_of_le (not_lt.mp hhead)).symm
      · rw [show Worker.exited.spent = [] from rfl, List.append_nil]
        exact List.Perm.refl _
  next => exact claimLarge_moves h
  next => exact claimSmall_moves h
  next =>
    split at h
    · cases h
      exact .still _
    · cases h
  next t =>
    cases h
    exact .still _
  next t =>
    cases h
    refine .retain t ?_ ⟨rfl, rfl, rfl, le_rfl⟩ rfl ?_
    · exact Multiset.mem_add.mpr (Or.inr (Multiset.mem_singleton_self t))
    · exact Multiset.add_cons _ (sh.running : Multiset Ref) 0
  next t ctx =>
    cases h
    exact .of_release ctx rfl
  next t ctx =>
    cases h
    refine .of_quiet rfl rfl rfl (List.Perm.refl _) (List.Perm.refl _) ?_
    change (ctx :: sh.running ++ []).Perm (sh.running ++ [ctx])
    rw [List.append_nil]
    exact (List.perm_append_singleton ctx sh.running).symm
  next t ctx =>
    cases h
    exact .still _
  next t ctx =>
    cases h
    exact .of_release ctx rfl
  next t =>
    cases h
    exact .still _
  next t =>
    cases h
    exact .of_releaseNode t (List.Perm.refl _) (List.Subperm.refl _)
  next t =>
    cases h
    exact .of_recycle [t] rfl (List.Perm.refl _)
  next => cases h

theorem buildNode_moves {own : Ref} {spares rest batch : List ℕ} {t : ℕ} {reuse : Bool}
    (large : Bool) (h : buildNode sh spares reuse = some (sh', t, rest)) :
    Moves (sh.view batch spares [own])
      ((buildTask sh' own t large).view (batch ++ [t] : List ℕ) rest [own]) := by
  have hown : own ∈ (sh.view batch spares [own]).refs :=
    Multiset.mem_add.mpr (Or.inr (Multiset.mem_singleton_self own))
  have hlive : ((sh.live : Multiset ℕ) + ↑(batch ++ [t])) = t ::ₘ ((sh.live : Multiset ℕ) + batch) := by
    rw [← Multiset.add_cons]
    exact congrArg _ (Multiset.coe_eq_coe.mpr (List.perm_append_singleton t batch))
  unfold buildNode at h
  split at h
  · split at h
    · cases h
    next t' spares =>
      cases h
      refine .build t own large hown rfl rfl (Or.inl ⟨?_, rfl⟩) hlive rfl
      exact le_of_eq (Multiset.add_cons _ (sh.freelist : Multiset ℕ) rest).symm
  · cases h
    refine .build sh.nodes own large hown rfl rfl (Or.inr ⟨rfl, rfl, ?_⟩) hlive rfl
    exact add_le_add_right (Multiset.coe_le.mpr (List.tail_sublist spares).subperm) _

theorem producerNext_moves {p p' : Producer} {a : ProducerAct}
    (h : producerNext sh p a = some (sh', p')) :
    Moves (sh.view p.live p.spent p.refs) (sh'.view p'.live p'.spent p'.refs) := by
  unfold producerNext at h
  split at h
  next srcFd dstFd =>
    split at h
    next hunused =>
      cases h
      refine .create srcFd dstFd hunused ⟨rfl, rfl, rfl, le_rfl⟩ rfl ?_
      exact Multiset.add_cons _ (sh.running : Multiset Ref) 0
    · cases h
  next =>
    cases h
    exact .still _
  next own count =>
    split at h
    · cases h
    · cases h
      refine .of_quiet rfl rfl rfl (List.Perm.refl _) ?_ (List.Perm.refl _)
      change (sh.freelist.drop count ++ (sh.freelist.take count).reverse).Perm (sh.freelist ++ [])
      calc (sh.freelist.drop count ++ (sh.freelist.take count).reverse).Perm
            (sh.freelist.drop count ++ sh.freelist.take count) :=
            List.Perm.append_left _ (List.reverse_perm _)
        _ |>.Perm (sh.freelist.take count ++ sh.freelist.drop count) := List.perm_append_comm
        _ = sh.freelist ++ [] := by rw [List.take_append_drop, List.append_nil]
  next own items spares batch reuse large =>
    obtain ⟨⟨sh', t, rest⟩, hgot, heq⟩ := Option.map_eq_some_iff.mp h
    cases heq
    exact buildNode_moves large hgot
  next own items spares batch =>
    cases h
    exact .still _
  next own items spares batch =>
    cases h
    refine .quiet ⟨rfl, rfl, rfl, ?_⟩ rfl rfl
    exact add_le_add_right (Multiset.coe_le.mpr (List.tail_sublist spares).subperm) _
  next own spares batch =>
    cases h
    exact .of_recycle spares rfl (List.Perm.of_eq (List.append_nil spares).symm)
  next own =>
    cases h
    exact .still _
  next own t batch room key =>
    split at h
    · cases h
    · cases h
      refine .of_quiet rfl rfl rfl ?_ (List.Perm.refl _) (List.Perm.refl _)
      have hsplit := List.take_append_drop (min (batch.length + 1) room) (t :: batch)
      generalize (t :: batch).take (min (batch.length + 1) room) = slice at hsplit ⊢
      generalize (t :: batch).drop (min (batch.length + 1) room) = rest at hsplit ⊢
      refine (List.Perm.append_right rest (pushSlice_live sh key slice)).trans ?_
      change (slice ++ sh.live ++ rest).Perm (sh.live ++ t :: batch)
      rw [← hsplit, ← List.append_assoc]
      exact List.Perm.append_right rest List.perm_append_comm
  next own t batch =>
    cases h
    exact .still _
  next own spares t batch =>
    cases h
    exact .of_releaseNode t (List.Perm.refl _) (List.Subperm.refl _)
  next own spares =>
    cases h
    exact .of_recycle spares rfl (List.Perm.of_eq (List.append_nil spares).symm)
  next own =>
    cases h
    exact .of_release own rfl
  next => cases h

theorem mainNext_moves {producers workers : Bool} {m m' : Main} {a : MainAct}
    (h : mainNext sh producers workers m a = some (sh', m')) :
    Moves (sh.view m.live ([] : List ℕ) ([] : List Ref)) (sh'.view m'.live ([] : List ℕ) ([] : List Ref)) := by
  unfold mainNext at h
  split at h
  · split at h
    · cases h
      exact .still _
    · cases h
  · split at h
    · cases h
      exact .still _
    · cases h
  · split at h
    · cases h
    · cases h
      exact .still _
  next t batch =>
    cases h
    exact .of_releaseNode t (List.Perm.refl _) (List.nil_subperm)
  next =>
    split at h
    next b rest hq =>
      cases h
      refine .of_quiet rfl rfl rfl ?_ (List.Perm.refl _) (List.Perm.refl _)
      unfold Shared.live Main.live
      dsimp only
      rw [hq, List.flatMap_cons, List.append_nil, List.append_assoc b.remaining]
      exact List.perm_append_comm
    next hq =>
      cases h
      refine .of_quiet rfl rfl rfl (List.Perm.of_eq ?_) (List.Perm.refl _) (List.Perm.refl _)
      unfold Shared.live Main.live
      dsimp only
      rw [hq, List.map_nil, List.append_nil, List.append_nil]
  next t items =>
    cases h
    exact .of_releaseNode t (List.Perm.refl _) (List.nil_subperm)
  next =>
    cases h
    refine .quiet ⟨rfl, rfl, rfl, ?_⟩ rfl rfl
    exact add_le_add_left (Multiset.zero_le _) _
  next => cases h

theorem sharedNext_moves {ι κ : Type*} {a : Act ι κ} (h : sharedNext sh a = some sh') :
    Moves (sh.view ([] : List ℕ) ([] : List ℕ) ([] : List Ref))
      (sh'.view ([] : List ℕ) ([] : List ℕ) ([] : List Ref)) := by
  unfold sharedNext at h
  split at h
  next ctx =>
    split at h
    next hmem =>
      cases h
      refine .release ctx ⟨rfl, rfl, rfl, le_rfl⟩ rfl ?_
      have hperm := List.perm_cons_erase hmem
      exact Multiset.coe_eq_coe.mpr (List.Perm.append_right [] hperm)
    · cases h
  · split at h
    · cases h
      exact .still _
    · cases h
  · cases h
    exact .still _
  · cases h
    exact .still _
  · cases h

section Program
variable {ι κ : Type*} [Fintype ι] [Fintype κ]

/-- The nodes the threads have taken out of the queues with tasks in them. -/
def State.live (s : State ι κ) : Multiset ℕ :=
  ∑ i, ((s.worker i).live : Multiset ℕ) + ∑ k, ((s.producer k).live : Multiset ℕ) + s.main.live

def State.spent (s : State ι κ) : Multiset ℕ :=
  ∑ i, ((s.worker i).spent : Multiset ℕ) + ∑ k, ((s.producer k).spent : Multiset ℕ)

def State.refs (s : State ι κ) : Multiset Ref :=
  ∑ i, ((s.worker i).refs : Multiset Ref) + ∑ k, ((s.producer k).refs : Multiset Ref)

def State.view (s : State ι κ) : View := s.shared.view s.live s.spent s.refs

/-- The references that are held: by a queued or unfinished task, by the context of a large file,
by a walker. -/
def State.held (s : State ι κ) : Multiset Ref := s.view.held

/-- What a move does to the part of one thread it does to the program. -/
theorem moves_of_part {s s' : State ι κ} {l l' sp sp' : Multiset ℕ} {r r' : Multiset Ref}
    (live spent : Multiset ℕ) (refs : Multiset Ref)
    (h : Moves (s.shared.view l sp r) (s'.shared.view l' sp' r'))
    (hlive : s.live = l + live) (hspent : s.spent = sp + spent) (hrefs : s.refs = r + refs)
    (hlive' : s'.live = l' + live) (hspent' : s'.spent = sp' + spent)
    (hrefs' : s'.refs = r' + refs) : Moves s.view s'.view := by
  have hframe := h.frame live spent refs
  rw [← view_add, ← view_add] at hframe
  rw [State.view, State.view, hlive, hspent, hrefs, hlive', hspent', hrefs']
  exact hframe

variable [DecidableEq ι] [DecidableEq κ]

/-- One thread moves, or the shared part alone. -/
theorem next_cases {s s' : State ι κ} {a : Act ι κ} (h : next s a = some s') :
    (∃ i b sh w, workerNext s.shared (s.worker i) b = some (sh, w) ∧
        s' = { s with shared := sh, worker := Function.update s.worker i w }) ∨
      (∃ k b sh p, producerNext s.shared (s.producer k) b = some (sh, p) ∧
        s' = { s with shared := sh, producer := Function.update s.producer k p }) ∨
      (∃ b sh m, mainNext s.shared (∀ k, s.producer k = .exited) (∀ i, s.worker i = .exited) s.main b =
          some (sh, m) ∧ s' = { s with shared := sh, main := m }) ∨
      ∃ sh, sharedNext s.shared a = some sh ∧ s' = { s with shared := sh } := by
  unfold next at h
  split at h
  next i b =>
    obtain ⟨⟨sh, w⟩, hw, heq⟩ := Option.map_eq_some_iff.mp h
    exact Or.inl ⟨i, b, sh, w, hw, heq.symm⟩
  next k b =>
    obtain ⟨⟨sh, p⟩, hp, heq⟩ := Option.map_eq_some_iff.mp h
    exact Or.inr (Or.inl ⟨k, b, sh, p, hp, heq.symm⟩)
  next b =>
    obtain ⟨⟨sh, m⟩, hm, heq⟩ := Option.map_eq_some_iff.mp h
    exact Or.inr (Or.inr (Or.inl ⟨b, sh, m, hm, heq.symm⟩))
  next =>
    obtain ⟨sh, hsh, heq⟩ := Option.map_eq_some_iff.mp h
    exact Or.inr (Or.inr (Or.inr ⟨sh, hsh, heq.symm⟩))

theorem next_moves {s s' : State ι κ} {a : Act ι κ}
    (hfits : ∀ i, (s.worker i).Fits s.shared.shutdown) (h : next s a = some s') :
    Moves s.view s'.view := by
  obtain ⟨i, b, sh, w, hw, rfl⟩ | ⟨k, b, sh, p, hp, rfl⟩ | ⟨b, sh, m, hm, rfl⟩ | ⟨sh, hsh, rfl⟩ :=
    next_cases h
  · obtain ⟨live, hlive, hlive'⟩ :=
      exists_rest (fun w : Worker => (w.live : Multiset ℕ)) s.worker i
    obtain ⟨spent, hspent, hspent'⟩ :=
      exists_rest (fun w : Worker => (w.spent : Multiset ℕ)) s.worker i
    obtain ⟨refs, hrefs, hrefs'⟩ :=
      exists_rest (fun w : Worker => (w.refs : Multiset Ref)) s.worker i
    refine moves_of_part (live + ∑ k, ((s.producer k).live : Multiset ℕ) + s.main.live)
      (spent + ∑ k, ((s.producer k).spent : Multiset ℕ))
      (refs + ∑ k, ((s.producer k).refs : Multiset Ref)) (workerNext_moves (hfits i) hw)
      ?_ ?_ ?_ ?_ ?_ ?_
    · rw [State.live, hlive, add_assoc, add_assoc, add_assoc]
    · rw [State.spent, hspent, add_assoc]
    · rw [State.refs, hrefs, add_assoc]
    · rw [State.live, hlive', add_assoc, add_assoc, add_assoc]
    · rw [State.spent, hspent', add_assoc]
    · rw [State.refs, hrefs', add_assoc]
  · obtain ⟨live, hlive, hlive'⟩ :=
      exists_rest (fun p : Producer => (p.live : Multiset ℕ)) s.producer k
    obtain ⟨spent, hspent, hspent'⟩ :=
      exists_rest (fun p : Producer => (p.spent : Multiset ℕ)) s.producer k
    obtain ⟨refs, hrefs, hrefs'⟩ :=
      exists_rest (fun p : Producer => (p.refs : Multiset Ref)) s.producer k
    refine moves_of_part (∑ i, ((s.worker i).live : Multiset ℕ) + live + s.main.live)
      (∑ i, ((s.worker i).spent : Multiset ℕ) + spent)
      (∑ i, ((s.worker i).refs : Multiset Ref) + refs) (producerNext_moves hp)
      ?_ ?_ ?_ ?_ ?_ ?_
    · rw [State.live, hlive]
      abel
    · rw [State.spent, hspent, add_left_comm]
    · rw [State.refs, hrefs, add_left_comm]
    · rw [State.live, hlive']
      abel
    · rw [State.spent, hspent', add_left_comm]
    · rw [State.refs, hrefs', add_left_comm]
  · exact moves_of_part
      (∑ i, ((s.worker i).live : Multiset ℕ) + ∑ k, ((s.producer k).live : Multiset ℕ)) s.spent
      s.refs (mainNext_moves hm) (add_comm _ _) (zero_add _).symm (zero_add _).symm
      (add_comm _ _) (zero_add _).symm (zero_add _).symm
  · exact moves_of_part s.live s.spent s.refs (sharedNext_moves hsh) (zero_add _).symm
      (zero_add _).symm (zero_add _).symm (zero_add _).symm (zero_add _).symm (zero_add _).symm

end Program

end Ecopy.Workers.DirHandles
