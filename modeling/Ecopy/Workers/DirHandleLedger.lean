import Ecopy.Workers.DirHandleSteps

/-!
# The count is the number of holders

The ledger is sound for a multiset of held references when the handles are
balanced by it, the references taken are those held and those dropped, and an
open descriptor stands for the one handle that still counts a reference and has
that descriptor. A move keeps this, since the node it fills is not live: the
reference such a node remembers is still the one its task took.
-/
namespace Ecopy.Workers.DirHandles
open Lib.RefCounts

theorem descriptors_release (h : Handle) : (dirHandleRelease h).descriptors = h.descriptors := by
  unfold dirHandleRelease
  dsimp only
  split_ifs <;> rfl

theorem refs_release (h : Handle) : (dirHandleRelease h).refs = h.refs - 1 := by
  unfold dirHandleRelease
  dsimp only
  split_ifs <;> dsimp only <;> omega

theorem closed_release (h : Handle) :
    (dirHandleRelease h).closed = if h.refs ≤ 1 then h.closed ++ h.descriptors else h.closed := by
  have hrefs := refs_release h
  unfold dirHandleRelease at hrefs ⊢
  dsimp only at hrefs ⊢
  split_ifs at hrefs ⊢ <;> first | rfl | (dsimp only at hrefs; omega)

/-- A handle has its descriptors, or has closed each of them once. -/
def counting : Counting Handle where
  refs := Handle.refs
  retain := dirHandleRetain
  release := dirHandleRelease
  Open := fun h => h.closed = []
  Closed := fun h => h.closed = h.descriptors
  refs_retain := fun _ => rfl
  refs_release := refs_release
  open_retain := fun _ h => h
  open_release := fun h hlt hopen => by
    rw [closed_release, if_neg (not_le.mpr hlt), hopen]
  closed_release := fun h hone hopen => by
    rw [closed_release, if_pos (le_of_eq hone), descriptors_release, hopen, List.nil_append]

structure Ledger.Sound (l : Ledger) (held : Multiset Ref) : Prop where
  balanced : Balanced counting Ref.dir l.handles held
  account : (l.taken : Multiset Ref) = held + l.dropped
  serial : l.taken.map Ref.serial = List.range l.taken.length
  fds : ∀ fd d, l.fds fd = some d ↔
    ∃ h, l.handles[d]? = some h ∧ 0 < h.refs ∧ fd ∈ h.descriptors

theorem Ledger.Sound.start : (Shared.start.ledger).Sound 0 where
  balanced := .empty
  account := rfl
  serial := rfl
  fds := by simp [Shared.start]

section Ledger
variable {l : Ledger} {held : Multiset Ref} {r q : Ref}

/-- No reference is taken twice. -/
theorem Ledger.Sound.taken_nodup (h : l.Sound held) : l.taken.Nodup := by
  apply List.Nodup.of_map Ref.serial
  rw [h.serial]
  exact List.nodup_range

theorem serial_append (h : l.Sound held) (holder : Holder) (d : ℕ) :
    (l.taken ++ [l.ref holder d]).map Ref.serial =
      List.range (l.taken ++ [l.ref holder d]).length := by
  rw [List.map_append, h.serial, List.length_append, List.length_singleton, List.range_succ]
  rfl

theorem account_append (h : l.Sound held) (r : Ref) :
    ((l.taken ++ [r] : List Ref) : Multiset Ref) = (r ::ₘ held) + l.dropped := by
  rw [← Multiset.coe_add, h.account, Multiset.cons_add, Multiset.coe_singleton,
    ← Multiset.singleton_add, add_comm]

theorem Ledger.Unused.fds_eq_none {srcFd dstFd : ℤ} (h : l.Unused srcFd dstFd) {fd : ℤ}
    (hfd : fd ∈ (dirHandleCreate srcFd dstFd).descriptors) : l.fds fd = none := by
  obtain ⟨-, hsrc, hdst⟩ := h
  obtain ⟨hmem, hpos⟩ := List.mem_filter.mp hfd
  obtain rfl | hmem := List.mem_cons.mp hmem
  · exact hsrc
  · obtain rfl := List.mem_singleton.mp hmem
    obtain hneg | ⟨-, hnone⟩ := hdst
    · exact absurd (of_decide_eq_true hpos) (not_le.mpr hneg)
    · exact hnone

theorem Ledger.Sound.create (h : l.Sound held) {srcFd dstFd : ℤ} (hunused : l.Unused srcFd dstFd) :
    (l.create srcFd dstFd).Sound (l.ref .walker l.handles.length ::ₘ held) where
  balanced := h.balanced.create rfl rfl rfl
  account := account_append h _
  serial := serial_append h _ _
  fds := by
    intro fd d
    unfold Ledger.create
    dsimp only
    have hold := h.fds fd d
    have hlast : (l.handles ++ [dirHandleCreate srcFd dstFd])[l.handles.length]? =
        some (dirHandleCreate srcFd dstFd) := by simp
    have hother : d ≠ l.handles.length →
        (l.handles ++ [dirHandleCreate srcFd dstFd])[d]? = l.handles[d]? := by
      intro hne
      obtain hlt | hge := Nat.lt_or_ge d l.handles.length
      · exact List.getElem?_append_left hlt
      · rw [List.getElem?_eq_none hge, List.getElem?_eq_none]
        rw [List.length_append, List.length_singleton]
        omega
    obtain rfl | hne := eq_or_ne d l.handles.length
    · rw [hlast]
      split_ifs with hmem
      · exact ⟨fun _ => ⟨_, rfl, Nat.one_pos, hmem⟩, fun _ => rfl⟩
      · rw [hold]
        constructor
        · rintro ⟨p, hp, -⟩
          rw [List.getElem?_eq_none le_rfl] at hp
          cases hp
        · rintro ⟨p, hp, -, hmem'⟩
          cases hp
          exact absurd hmem' hmem
    · rw [hother hne, ← hold]
      split_ifs with hmem
      · rw [hunused.fds_eq_none hmem]
        exact ⟨fun heq => absurd (Option.some.inj heq).symm hne, fun heq => by cases heq⟩
      · exact Iff.rfl

theorem Ledger.Sound.retain (h : l.Sound held) {holder : Holder} (hq : q ∈ held) :
    (l.retain holder q.dir).Sound (l.ref holder q.dir ::ₘ held) where
  balanced := h.balanced.retain (r := l.ref holder q.dir) hq rfl
  account := account_append h _
  serial := serial_append h _ _
  fds := by
    intro fd d
    obtain ⟨o, ho, hpos, -⟩ := h.balanced.exists_of_mem hq
    have hold := h.fds fd d
    unfold Ledger.retain
    dsimp only
    obtain rfl | hne := eq_or_ne d q.dir
    · rw [ho] at hold
      rw [hold, List.getElem?_modify_eq, ho]
      simp only [Option.map_eq_map, Option.map_some, Option.some.injEq, exists_eq_left']
      exact and_congr_left' ⟨fun _ => Nat.succ_pos _, fun _ => hpos⟩
    · rw [hold, List.getElem?_modify_ne _ _ (Ne.symm hne)]

/-- The release that takes the count to zero closes what stands for the handle, and no other. -/
theorem Ledger.Sound.closing_iff (h : l.Sound (r ::ₘ held)) {o : Handle}
    (ho : l.handles[r.dir]? = some o) (fd : ℤ) :
    fd ∈ l.closing r.dir ↔ o.refs = 1 ∧ l.fds fd = some r.dir := by
  have hpos : 0 < o.refs := h.balanced.pos_of_mem (Multiset.mem_cons_self r held) ho
  have hrefs := refs_release o
  have hold := h.fds fd r.dir
  rw [ho] at hold
  simp only [Option.some.injEq, exists_eq_left', hpos, true_and] at hold
  unfold Ledger.closing
  rw [ho, hold]
  dsimp only
  split_ifs with hz
  · exact ⟨fun hmem => ⟨by omega, hmem⟩, And.right⟩
  · exact ⟨fun hmem => absurd hmem List.not_mem_nil, fun hone => by omega⟩

theorem Ledger.Sound.release (h : l.Sound (r ::ₘ held)) : (l.release r).Sound held where
  balanced := h.balanced.release
  account := by
    rw [show (l.release r).taken = l.taken from rfl, h.account, Multiset.cons_add,
      ← Multiset.add_cons]
    exact congrArg (held + ·) (Multiset.coe_eq_coe.mpr (List.perm_append_singleton r _).symm)
  serial := h.serial
  fds := by
    intro fd d
    obtain ⟨o, ho, hpos, -⟩ := h.balanced.exists_of_mem (Multiset.mem_cons_self r held)
    have hclosing := h.closing_iff ho fd
    have hold := h.fds fd d
    have hrefs := refs_release o
    change (if fd ∈ l.closing r.dir then none else l.fds fd) = some d ↔
      ∃ p, (l.handles.modify r.dir dirHandleRelease)[d]? = some p ∧ 0 < p.refs ∧ fd ∈ p.descriptors
    obtain rfl | hne := eq_or_ne d r.dir
    · rw [ho] at hold
      rw [List.getElem?_modify_eq, ho]
      simp only [Option.map_eq_map, Option.map_some, Option.some.injEq, exists_eq_left',
        descriptors_release, hrefs] at hold ⊢
      split_ifs with hlast
      · have hone := (hclosing.mp hlast).1
        exact iff_of_false (fun heq => by cases heq) (fun hleft => by omega)
      · rw [hold]
        refine ⟨fun hmem => ⟨?_, hmem.2⟩, fun hmem => ⟨hpos, hmem.2⟩⟩
        have hne : o.refs ≠ 1 := fun hone => hlast (hclosing.mpr ⟨hone, hold.mpr hmem⟩)
        have hle : 1 ≤ o.refs := hpos
        omega
    · rw [List.getElem?_modify_ne _ _ (Ne.symm hne), ← hold]
      split_ifs with hlast
      · rw [(hclosing.mp hlast).2]
        exact iff_of_false (fun heq => by cases heq)
          (fun heq => absurd (Option.some.inj heq).symm hne)
      · exact Iff.rfl

end Ledger

structure Sound (V : View) : Prop where
  nodup : (V.live + V.spent).Nodup
  lt : ∀ t ∈ V.live + V.spent, t < V.nodes
  ledger : V.ledger.Sound V.held

variable {V V' : View}

theorem Sound.ref_mem_held {t : ℕ} (ht : t ∈ V.live) : (V.node t).ref ∈ V.held :=
  Multiset.mem_add.mpr (Or.inl (Multiset.mem_map_of_mem _ ht))

theorem Kept.map_live (h : Kept V V') :
    V'.live.map (fun t => (V'.node t).ref) = V.live.map (fun t => (V.node t).ref) := by
  rw [h.live, h.node]

theorem Sound.of_kept (h : Sound V) (kept : Kept V V') (ledger : V'.ledger.Sound V'.held) :
    Sound V' := by
  have hle : V'.live + V'.spent ≤ V.live + V.spent := by
    rw [kept.live]
    exact add_le_add_right kept.spent V.live
  refine ⟨Multiset.nodup_of_le hle h.nodup, fun t ht => ?_, ledger⟩
  rw [kept.nodes]
  exact h.lt t (Multiset.mem_of_le hle ht)

/-- The node of a new task is not live: it was spare, or has just been allocated. -/
theorem Sound.build_fresh (h : Sound V) {t : ℕ}
    (got : t ::ₘ V'.spent ≤ V.spent ∧ V'.nodes = V.nodes ∨
      t = V.nodes ∧ V'.nodes = V.nodes + 1 ∧ V'.spent ≤ V.spent) :
    (t ::ₘ V.live + V'.spent).Nodup ∧ ∀ u ∈ t ::ₘ V.live + V'.spent, u < V'.nodes := by
  obtain ⟨hle, hn⟩ | ⟨rfl, hn, hle⟩ := got
  · have hle : t ::ₘ V.live + V'.spent ≤ V.live + V.spent := by
      rw [Multiset.cons_add, ← Multiset.add_cons]
      exact add_le_add_right hle V.live
    refine ⟨Multiset.nodup_of_le hle h.nodup, fun u hu => ?_⟩
    rw [hn]
    exact h.lt u (Multiset.mem_of_le hle hu)
  · have hle : V.live + V'.spent ≤ V.live + V.spent := add_le_add_right hle V.live
    rw [Multiset.cons_add]
    constructor
    · refine Multiset.nodup_cons.mpr ⟨fun hmem => ?_, Multiset.nodup_of_le hle h.nodup⟩
      exact absurd (h.lt _ (Multiset.mem_of_le hle hmem)) (lt_irrefl _)
    · intro u hu
      rw [hn]
      obtain rfl | hu := Multiset.mem_cons.mp hu
      · exact Nat.lt_succ_self _
      · exact Nat.lt_succ_of_lt (h.lt u (Multiset.mem_of_le hle hu))

theorem map_ref_update {node : ℕ → Task} {live : Multiset ℕ} {t : ℕ} (h : t ∉ live) (x : Task) :
    live.map (fun u => (Function.update node t x u).ref) = live.map (fun u => (node u).ref) := by
  refine Multiset.map_congr rfl fun u hu => ?_
  rw [Function.update_of_ne]
  rintro rfl
  exact h hu

/-- The step lemma of the references. -/
theorem Sound.moves (h : Sound V) (hmoves : Moves V V') : Sound V' := by
  cases hmoves with
  | quiet kept ledger refs =>
    refine h.of_kept kept ?_
    rw [ledger, View.held, kept.map_live, refs]
    exact h.ledger
  | create srcFd dstFd unused kept ledger refs =>
    refine h.of_kept kept ?_
    rw [ledger, View.held, kept.map_live, refs, Multiset.add_cons]
    exact h.ledger.create unused
  | build t own large mem ledger node got live refs =>
    obtain ⟨hnodup, hlt⟩ := h.build_fresh got
    have hfresh : t ∉ V.live := by
      rw [Multiset.cons_add] at hnodup
      exact fun hmem => (Multiset.nodup_cons.mp hnodup).1 (Multiset.mem_add.mpr (Or.inl hmem))
    rw [← live] at hnodup hlt
    refine ⟨hnodup, hlt, ?_⟩
    rw [ledger, View.held, live, Multiset.map_cons, node, map_ref_update hfresh,
      Function.update_self, refs, Multiset.cons_add]
    exact h.ledger.retain (Multiset.mem_add.mpr (Or.inr mem))
  | retain t mem kept ledger refs =>
    refine h.of_kept kept ?_
    rw [ledger, View.held, kept.map_live, refs, Multiset.add_cons]
    exact h.ledger.retain (Sound.ref_mem_held mem)
  | releaseNode t ledger node nodes live spent refs =>
    have hle : V'.live + V'.spent ≤ V.live + V.spent := by
      rw [live, Multiset.cons_add, ← Multiset.add_cons]
      exact add_le_add_right spent V'.live
    refine ⟨Multiset.nodup_of_le hle h.nodup, fun u hu => ?_, ?_⟩
    · rw [nodes]
      exact h.lt u (Multiset.mem_of_le hle hu)
    · have hledger := h.ledger
      rw [View.held, live, Multiset.map_cons, Multiset.cons_add] at hledger
      rw [ledger, View.held, node, refs]
      exact hledger.release
  | release r kept ledger refs =>
    refine h.of_kept kept ?_
    have hledger := h.ledger
    rw [View.held, refs, Multiset.add_cons] at hledger
    rw [ledger, View.held, kept.map_live]
    exact hledger.release

end Ecopy.Workers.DirHandles
