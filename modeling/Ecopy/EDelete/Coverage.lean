import Ecopy.EDelete.CalmSteps

/-!
# Every entry is dealt with once

A location below the start path is either still ahead of the walk or has been
dealt with. It is ahead while a node on the way to it is queued or about to be
read, or while a stream that leads to it has not returned its next name, or has
it in the buffer. No move changes the number of these places, which is one.
-/
namespace Ecopy.EDelete
open Protocol (Bytes)
open Ecopy.Path (dot dotdot slash render resolve Ordinary pathMax Errno)
open DirWalk (DType)
open FileSystem Lib.Runs Lib.Threads

variable {c : Config}

def WalkPc.busy : WalkPc → Bool
  | .top => false
  | .exited => false
  | _ => true

structure Endgame (s : State c) : Prop where
  active : s.active = count WalkPc.busy s.walker
  done : s.done = true → s.queue = [] ∧ s.active = 0
  exited : ∀ i, s.walker i = .exited → s.done = true
  phase : 1 ≤ s.main.phase → ∀ i, s.walker i = .exited
  workers : 2 ≤ s.main.phase → c.dryRun = false → ∀ j, s.worker j = .exited ∧ s.chan j = []
  closed : s.closed = true → 1 ≤ s.main.phase
  worker : ∀ j, s.worker j = .exited → s.closed = true ∧ s.chan j = []

theorem Endgame.start (c : Config) : Endgame (State.start c) where
  active := (count_eq_zero_iff.mpr fun _ => rfl).symm
  done := nofun
  exited := nofun
  phase := nofun
  workers := nofun
  closed := nofun
  worker := nofun

variable {s u : State c} {i : Fin c.threads}

/-- A walker thread goes on with its node. -/
theorem Endgame.walk (hs : Endgame s) {i : Fin c.threads} {p : WalkPc}
    (hbefore : (s.walker i).busy = true) (hp : p.busy = true) :
    Endgame { s with walker := Function.update s.walker i p } := by
  have hmove := count_update WalkPc.busy s.walker i p
  rw [hbefore, hp] at hmove
  have hactive : s.active = count WalkPc.busy (Function.update s.walker i p) := by
    rw [hs.active]
    omega
  have hearly : ¬1 ≤ s.main.phase := by
    intro hphase
    rw [hs.phase hphase i] at hbefore
    cases hbefore
  refine { hs with
    active := hactive
    exited := fun k hk => ?_
    phase := fun hphase => absurd hphase hearly }
  dsimp only at hk
  by_cases hki : k = i
  · rw [hki, Function.update_self] at hk
    rw [hk] at hp
    cases hp
  · rw [Function.update_of_ne hki] at hk
    exact hs.exited k hk

/-- Nobody reads any more when the walk is over. -/
theorem Endgame.busy_pos (hs : Endgame s) {i : Fin c.threads} (h : (s.walker i).busy = true) :
    0 < s.active ∧ s.done = false ∧ s.main.phase = 0 := by
  have hpos : 0 < s.active := by
    rw [hs.active]
    exact count_pos_iff.mpr ⟨i, h⟩
  refine ⟨hpos, ?_, ?_⟩
  · by_contra hdone
    have hzero := (hs.done (by simpa using hdone)).2
    omega
  · by_contra hphase
    rw [hs.phase (by omega) i] at h
    cases h

theorem Endgame.work (hs : Endgame s) {j : Fin c.workers} {p : WorkPc}
    (hbefore : s.worker j ≠ .exited) (hp : p ≠ .exited) :
    Endgame { s with worker := Function.update s.worker j p } := by
  have hother : ∀ k, Function.update s.worker j p k = .exited → s.worker k = .exited := by
    intro k hk
    by_cases hkj : k = j
    · rw [hkj, Function.update_self] at hk
      exact absurd hk hp
    · rwa [Function.update_of_ne hkj] at hk
  refine { hs with
    workers := fun hphase hdelete k => absurd (hs.workers hphase hdelete j).1 hbefore
    worker := fun k hk => hs.worker k (hother k hk) }

theorem Endgame.flush (hs : Endgame s) {i : Fin c.threads} {n : Node}
    {chan : Fin c.workers → List Item} (h : Flushed s i n chan) (hbusy : (s.walker i).busy = true) :
    Endgame { s with chan := chan } := by
  cases h with
  | dropped off => exact hs
  | queued on =>
    have hearly := (hs.busy_pos hbusy).2.2
    refine { hs with
      workers := fun hphase => ?_
      worker := fun k hk => ?_ }
    · dsimp only at hphase
      omega
    · rw [(hs.worker k hk).1] at on
      cases on

theorem Endgame.late (hs : Endgame s) {m : MainPc} (hphase : 2 ≤ s.main.phase) (hm : 2 ≤ m.phase) :
    Endgame { s with main := m } :=
  { hs with
    phase := fun _ => hs.phase (by omega)
    workers := fun _ => hs.workers hphase
    closed := fun _ => Nat.le_of_succ_le hm }

theorem Endgame.popNode {n : Node} {queue : List Node} (hs : Endgame s) (idle : s.walker i = .top)
    (first : s.queue = n :: queue) :
    Endgame { s with
      queue := queue
      active := s.active + 1
      walker := Function.update s.walker i (.opening n) } := by
  have hmove := count_update WalkPc.busy s.walker i (.opening n)
  rw [idle] at hmove
  simp only [WalkPc.busy, Bool.toNat_false, Bool.toNat_true] at hmove
  have hactive := hs.active
  have hgoing : s.done = false := by
    by_contra hdone
    rw [(hs.done (by simpa using hdone)).1] at first
    cases first
  have hearly : ¬1 ≤ s.main.phase := by
    intro hphase
    rw [hs.phase hphase i] at idle
    cases idle
  constructor
  · dsimp only
    omega
  · intro hdone
    rw [hgoing] at hdone
    cases hdone
  · intro k hk
    dsimp only at hk
    by_cases hki : k = i
    · rw [hki, Function.update_self] at hk
      cases hk
    · rw [Function.update_of_ne hki] at hk
      exact hs.exited k hk
  · exact fun hphase => absurd hphase hearly
  · exact hs.workers
  · exact hs.closed
  · exact hs.worker

theorem Endgame.walkerExit (hs : Endgame s) (hstop : s.stop = false) (idle : s.walker i = .top)
    (complete : s.stop = true ∨ s.queue = [] ∧ s.done = true) :
    Endgame { s with walker := Function.update s.walker i .exited } := by
  have hmove := count_update WalkPc.busy s.walker i .exited
  rw [idle] at hmove
  simp only [WalkPc.busy, Bool.toNat_false] at hmove
  have hactive := hs.active
  have hdone : s.done = true := by
    rcases complete with hstopped | hlast
    · rw [hstop] at hstopped
      cases hstopped
    · exact hlast.2
  have hearly : ¬1 ≤ s.main.phase := by
    intro hphase
    rw [hs.phase hphase i] at idle
    cases idle
  refine { hs with
    active := ?_
    exited := fun _ _ => hdone
    phase := fun hphase => absurd hphase hearly }
  dsimp only
  omega

theorem Endgame.pushed {n child : Node} {given : List Bytes} {buf : List (Bytes × DType)}
    (hs : Endgame s) (at_push : s.walker i = .pushing n child given buf) :
    Endgame { s with
      queue := s.queue ++ [child]
      walker := Function.update s.walker i (.reading n given buf) } := by
  have hbusy : (s.walker i).busy = true := by rw [at_push]; rfl
  have hmoved := hs.walk (i := i) (p := .reading n given buf) hbusy rfl
  have hgoing := (hs.busy_pos hbusy).2.1
  refine { hmoved with done := fun hdone => ?_ }
  rw [hgoing] at hdone
  cases hdone

theorem Endgame.finish {done : Bool} (hs : Endgame s) (at_end : s.walker i = .leaving)
    (last : done = s.done ∨ done = true ∧ s.queue = [] ∧ s.active - 1 = 0) :
    Endgame { s with
      active := s.active - 1
      done := done
      walker := Function.update s.walker i .top } := by
  have hbusy : (s.walker i).busy = true := by rw [at_end]; rfl
  obtain ⟨hpos, hgoing, hphase⟩ := hs.busy_pos hbusy
  have hmove := count_update WalkPc.busy s.walker i .top
  rw [at_end] at hmove
  simp only [WalkPc.busy, Bool.toNat_false, Bool.toNat_true] at hmove
  have hactive := hs.active
  constructor
  · dsimp only
    omega
  · intro hdone
    dsimp only at hdone ⊢
    rcases last with hsame | ⟨-, hqueue, hzero⟩
    · rw [hsame, hgoing] at hdone
      cases hdone
    · exact ⟨hqueue, hzero⟩
  · intro k hk
    dsimp only at hk
    by_cases hki : k = i
    · rw [hki, Function.update_self] at hk
      cases hk
    · rw [Function.update_of_ne hki] at hk
      rw [hs.exited k hk] at hgoing
      cases hgoing
  · intro hlate
    dsimp only at hlate
    omega
  · intro hlate
    dsimp only at hlate
    omega
  · exact hs.closed
  · exact hs.worker

theorem Endgame.taken {j : Fin c.workers} (hs : Endgame s) (idle : s.worker j = .idle) :
    Endgame { s with
      chan := Function.update s.chan j []
      worker := Function.update s.worker j (.working (s.chan j)) } := by
  have hmoved := hs.work (j := j) (p := .working (s.chan j)) (by rw [idle]; simp) (by simp)
  refine { hmoved with workers := fun hphase hdelete k => ?_, worker := fun k hk => ?_ }
  · have hleft := (hs.workers hphase hdelete j).1
    rw [idle] at hleft
    cases hleft
  · have hold := hmoved.worker k hk
    refine ⟨hold.1, ?_⟩
    dsimp only
    by_cases hkj : k = j
    · rw [hkj, Function.update_self]
    · rw [Function.update_of_ne hkj]
      exact hold.2

theorem Endgame.workerExit {j : Fin c.workers} (hs : Endgame s) (hstop : s.stop = false)
    (idle : s.worker j = .idle) (complete : s.stop = true ∨ s.chan j = [] ∧ s.closed = true) :
    Endgame { s with worker := Function.update s.worker j .exited } := by
  have hlast : s.chan j = [] ∧ s.closed = true := by
    rcases complete with hstopped | hlast
    · rw [hstop] at hstopped
      cases hstopped
    · exact hlast
  refine { hs with workers := fun hphase hdelete k => ?_, worker := fun k hk => ?_ }
  · have hleft := (hs.workers hphase hdelete j).1
    rw [idle] at hleft
    cases hleft
  · dsimp only at hk
    by_cases hkj : k = j
    · rw [hkj]
      exact ⟨hlast.2, hlast.1⟩
    · rw [Function.update_of_ne hkj] at hk
      exact hs.worker k hk

theorem Endgame.drained (hs : Endgame s) (draining : s.main = .draining)
    (left : ∀ j, s.worker j = .exited) :
    Endgame { s with chan := fun _ => [], main := .removing [] (s.dirs.mergeSort byDepth) } := by
  have hone : 1 ≤ s.main.phase := by rw [draining]; exact le_refl 1
  exact { hs with
    phase := fun _ => hs.phase hone
    workers := fun _ _ k => ⟨left k, rfl⟩
    closed := fun _ => by simp [MainPc.phase]
    worker := fun k hk => ⟨(hs.worker k hk).1, rfl⟩ }

theorem Move.endgame {a : Act c} (h : Move s a u) (hcalm : Calm s a) (hstop : s.stop = false)
    (hs : Endgame s) : Endgame u := by
  cases h with
  | popNode i n queue idle first => exact hs.popNode idle first
  | walkerExit i idle complete => exact hs.walkerExit hstop idle complete
  | nodeOpened i n fd at_node opened => exact hs.walk (by rw [at_node]; rfl) rfl
  | nodeRefused i n fault at_node =>
    have hmoved := hs.walk (i := i) (p := .leaving) (by rw [at_node]; rfl) rfl
    exact { hmoved with }
  | nodeChanged i n fd streams at_node =>
    have hmoved := hs.walk (i := i) (p := .leaving) (by rw [at_node]; rfl) rfl
    exact { hmoved with }
  | nodeBegun i n k w at_node dir counted =>
    have hmoved := hs.walk (i := i) (p := .reading n [] []) (by rw [at_node]; rfl) rfl
    exact { hmoved with }
  | nodeUnread i n k w at_node =>
    have hmoved := hs.walk (i := i) (p := .ending n) (by rw [at_node]; rfl) rfl
    exact { hmoved with }
  | readFailed i n given chunk at_end =>
    have hmoved := hs.walk (i := i) (p := .ending n) (by rw [at_end]; rfl) rfl
    exact { hmoved with }
  | filled i n given l chunk at_end dir real more =>
    have hmoved := hs.walk (i := i) (p := .reading n (given ++ chunk.map Prod.fst) chunk)
      (by rw [at_end]; rfl) rfl
    exact { hmoved with }
  | eof i n given l at_end dir => exact hs.walk (by rw [at_end]; rfl) rfl
  | stopReading i n given buf l at_entry stopping => exact hs.walk (by rw [at_entry]; rfl) rfl
  | skipDots i n given name t buf l at_entry dots => exact hs.walk (by rw [at_entry]; rfl) rfl
  | statFailed i n given name t buf l at_entry =>
    have hmoved := hs.walk (i := i) (p := .reading n given buf) (by rw [at_entry]; rfl) rfl
    exact { hmoved with }
  | tooLong i n given name t buf l at_entry =>
    have hmoved := hs.walk (i := i) (p := .reading n given buf) (by rw [at_entry]; rfl) rfl
    exact { hmoved with }
  | descend i n given name t buf l child path at_entry proper dir entry is_dir joined =>
    have hmoved := hs.walk (i := i) (p := .pushing n ⟨path, child, n.depth + 1⟩ given buf)
      (by rw [at_entry]; rfl) rfl
    exact { hmoved with }
  | keep i n given name t buf l st k w at_entry proper seen chosen counted =>
    have hmoved := hs.walk (i := i) (p := .reading n given buf) (by rw [at_entry]; rfl) rfl
    exact { hmoved with }
  | count i n given name t buf l st k w at_entry proper seen chosen counted dry =>
    have hmoved := hs.walk (i := i) (p := .reading n given buf) (by rw [at_entry]; rfl) rfl
    exact { hmoved with }
  | full i n given name t buf l st k w at_entry proper seen chosen counted delete =>
    have hmoved := hs.walk (i := i) (p := .submitting n name given buf) (by rw [at_entry]; rfl) rfl
    exact { hmoved with }
  | add i n given name t buf l st k w b e at_entry proper seen chosen counted delete kept =>
    have hmoved := hs.walk (i := i) (p := .reading n given buf) (by rw [at_entry]; rfl) rfl
    exact { hmoved with }
  | pushed i n child given buf at_push => exact hs.pushed at_push
  | submitted i n name given buf chan b e at_push sent kept =>
    have hbusy : (s.walker i).busy = true := by rw [at_push]; rfl
    have hmoved := (hs.flush sent hbusy).walk (i := i) (p := .reading n given buf) hbusy rfl
    exact { hmoved with }
  | flushed i n chan at_end sent delete =>
    have hmoved := hs.flush sent (by rw [at_end]; rfl)
    exact { hmoved with }
  | dirEnd i n at_end empty =>
    have hmoved := hs.walk (i := i) (p := .leaving) (by rw [at_end]; rfl) rfl
    exact { hmoved with }
  | finish i done at_end last => exact hs.finish at_end last
  | taken j idle some_items => exact hs.taken idle
  | workerExit j idle complete => exact hs.workerExit hstop idle complete
  | rested j fault at_end => exact hs.work (by rw [at_end]; simp) (by simp)
  | batchSkipped j fault it items e at_item why =>
    have hmoved := hs.work (j := j) (p := .working items) (by rw [at_item]; simp) (by simp)
    exact { hmoved with }
  | batchOpened j it fd items at_item opened => exact hs.work (by rw [at_item]; simp) (by simp)
  | batchChecked j it items at_item dir => exact hs.work (by rw [at_item]; simp) (by simp)
  | batchChanged j it fd items at_item =>
    have hmoved := hs.work (j := j) (p := .working items) (by rw [at_item]; simp) (by simp)
    exact { hmoved with }
  | batchDone j dir fd items l now fault at_end => exact hs.work (by rw [at_end]; simp) (by simp)
  | unlinkMissed j dir fd name names items l now fault e at_name why =>
    have hmoved := hs.work (j := j) (p := .unlinking dir fd names items) (by rw [at_name]; simp)
      (by simp)
    exact { hmoved with }
  | unlinked j dir fd name names items l now child at_name found entry file =>
    have hmoved := hs.work (j := j) (p := .unlinking dir fd names items) (by rw [at_name]; simp)
      (by simp)
    exact { hmoved with }
  | dryOver walking left dry =>
    refine { hs with
      phase := fun _ => left
      workers := fun _ hdelete => absurd hdelete (by simp [dry])
      closed := fun _ => by simp [MainPc.phase] }
  | close walking left delete =>
    refine { hs with
      phase := fun _ => left
      workers := fun hphase => absurd hphase (by simp [MainPc.phase])
      closed := fun _ => le_refl 1
      worker := fun k hk => ⟨rfl, (hs.worker k hk).2⟩ }
  | interrupted draining left stopping =>
    rw [hstop] at stopping
    cases stopping
  | drained draining left => exact hs.drained draining left
  | shutdown => exact hcalm.elim
  | tamper w => exact hcalm.elim
  | removalOver level removing joined =>
    exact hs.late (by rw [removing]; exact le_refl 2) (by simp [MainPc.phase])
  | levelOver level later removing joined more =>
    exact hs.late (by rw [removing]; exact le_refl 2) (le_refl 2)
  | rmSkipped k l empty fault level later p d ds e removing at_rec why =>
    have hmoved := hs.late (m := .removing (level.set k (.ready, ds)) later)
      (by rw [removing]; exact le_refl 2) (le_refl 2)
    exact { hmoved with }
  | rmOpened k l empty level later d ds fd removing at_rec opened =>
    exact hs.late (by rw [removing]; exact le_refl 2) (le_refl 2)
  | rmChecked k l empty fault level later d ds fd removing at_rec found entry dir =>
    exact hs.late (by rw [removing]; exact le_refl 2) (le_refl 2)
  | removed k l level later d ds fd child removing at_rec found entry dir =>
    have hmoved := hs.late (m := .removing (level.set k (.ready, ds)) later)
      (by rw [removing]; exact le_refl 2) (le_refl 2)
    exact { hmoved with }

/-- The next name on the way from the directory of a node. -/
def Node.toward (n : Node) (l : Loc) : Option Bytes :=
  if resolve n.path <+: l then (l.drop (resolve n.path).length).head? else none

def reach (l : Loc) (n : Node) : ℕ := if resolve n.path <+: l then 1 else 0

/-- The stream of the directory has the next name on the way still to come or in its buffer. -/
def ahead (n : Node) (given : List Bytes) (buf : List (Bytes × DType)) (l : Loc) : ℕ :=
  match n.toward l with
  | none => 0
  | some x => (if x ∈ given then 0 else 1) + (buf.map Prod.fst).count x

def WalkPc.cover (l : Loc) : WalkPc → ℕ
  | .opening n => reach l n
  | .checking n _ => reach l n
  | .reading n given buf => ahead n given buf l
  | .pushing n child given buf => reach l child + ahead n given buf l
  | .submitting n _ given buf => ahead n given buf l
  | _ => 0

/-- What has been dealt with. -/
def Event.deals : Event → Option Loc
  | .begun n => some (resolve n.path)
  | .entry n name _ => some (resolve n.path ++ [name])
  | _ => none

def dealt (log : List Event) : List Loc := log.filterMap Event.deals

def State.places (s : State c) (l : Loc) : ℕ :=
  (s.queue.map (reach l)).sum + total (WalkPc.cover l) s.walker + (dealt s.log).count l

def Covered (s : State c) : Prop :=
  ∀ l, c.top <+: l → (c.world.fs.entry l).isSome = true → s.places l = 1

theorem toward_eq_some_iff {n : Node} {l : Loc} {x : Bytes} :
    n.toward l = some x ↔ resolve n.path ++ [x] <+: l := by
  unfold Node.toward
  constructor
  · intro h
    split_ifs at h with hpre
    obtain ⟨rest, rfl⟩ := hpre
    rw [List.drop_left] at h
    cases rest with
    | nil => cases h
    | cons y ys =>
      cases h
      exact ⟨ys, by simp⟩
  · rintro ⟨rest, rfl⟩
    rw [if_pos ((List.prefix_append _ _).trans (List.prefix_append _ _)), List.append_assoc,
      List.drop_left]
    rfl

theorem toward_eq_none_iff {n : Node} {l : Loc} :
    n.toward l = none ↔ ¬resolve n.path <+: l ∨ l = resolve n.path := by
  unfold Node.toward
  split_ifs with hpre
  · obtain ⟨rest, rfl⟩ := hpre
    rw [List.drop_left]
    cases rest with
    | nil => simp
    | cons y ys => simp
  · simp [hpre]

/-- A node that is begun is dealt with; what lies below it is ahead in its stream. -/
theorem reach_begun (n : Node) (l : Loc) :
    reach l n = ahead n [] [] l + [resolve n.path].count l := by
  unfold reach ahead
  cases htoward : n.toward l with
  | none =>
    rcases toward_eq_none_iff.mp htoward with hout | hself
    · have hne : resolve n.path ≠ l := by
        rintro rfl
        exact hout (List.prefix_refl _)
      simp [hout, hne]
    · simp [hself]
  | some x =>
    have hpre := toward_eq_some_iff.mp htoward
    have hne : resolve n.path ≠ l := by
      intro heq
      have hlen := hpre.length_le
      rw [heq, List.length_append, List.length_singleton] at hlen
      omega
    simp [(List.prefix_append _ _).trans hpre, hne]

/-- The stream moves names from before it into the buffer. -/
theorem ahead_filled {fs : Fs} {n : Node} {given : List Bytes} {chunk : List (Bytes × DType)}
    {at_dir : Loc} (h : Streams fs at_dir given chunk) (l : Loc) :
    ahead n (given ++ chunk.map Prod.fst) chunk l = ahead n given [] l := by
  unfold ahead
  cases n.toward l with
  | none => rfl
  | some x =>
    dsimp only
    by_cases hx : x ∈ chunk.map Prod.fst
    · have hfresh : x ∉ given := by
        obtain ⟨e, he, rfl⟩ := List.mem_map.mp hx
        exact h.fresh e he
      simp [hx, hfresh, List.count_eq_one_of_mem h.once hx]
    · have hnone := List.count_eq_zero.mpr hx
      simp only [List.mem_append, hx, or_false, hnone, List.map_nil, List.count_nil]

theorem ahead_cons (n : Node) (given : List Bytes) (name : Bytes) (t : DType)
    (buf : List (Bytes × DType)) (l : Loc) :
    ahead n given ((name, t) :: buf) l =
      ahead n given buf l + if resolve n.path ++ [name] <+: l then 1 else 0 := by
  unfold ahead
  cases htoward : n.toward l with
  | none =>
    have hnot : ¬resolve n.path ++ [name] <+: l := by
      intro hpre
      rw [toward_eq_some_iff.mpr hpre] at htoward
      cases htoward
    simp [hnot]
  | some x =>
    dsimp only
    rw [List.map_cons, List.count_cons]
    by_cases hx : name = x
    · rw [hx, if_pos (toward_eq_some_iff.mp htoward)]
      simp
      omega
    · have hnot : ¬resolve n.path ++ [name] <+: l := by
        intro hpre
        rw [toward_eq_some_iff.mpr hpre] at htoward
        exact hx (Option.some.inj htoward)
      simp [hx, hnot]

theorem dealt_note (log : List Event) (ev : Event) (l : Loc) :
    (dealt (log ++ [ev])).count l = (dealt log).count l + ev.deals.toList.count l := by
  unfold dealt
  rw [List.filterMap_append, List.count_append]
  cases hdeals : ev.deals <;> simp [hdeals]

theorem picks_deals {ev : Event} {l : Loc} (h : ev.picks = some l) : ev.deals = some l := by
  cases ev with
  | entry n name chosen =>
    cases chosen with
    | true => exact h
    | false => cases h
  | _ => cases h

theorem mem_dealt_of_picked {log : List Event} {l : Loc} (h : l ∈ picked log) : l ∈ dealt log := by
  obtain ⟨ev, hev, hpicks⟩ := List.mem_filterMap.mp h
  exact List.mem_filterMap.mpr ⟨ev, hev, picks_deals hpicks⟩

/-- Only what was chosen is removed. -/
def Gone (s : State c) : Prop :=
  ∀ l, c.world.fs.isFile l = true → s.world.fs.entry l = none → l ∈ picked s.log

theorem Gone.start (c : Config) : Gone (State.start c) := by
  intro l hfile hnone
  obtain ⟨i, hi, -⟩ := Fs.isFile_iff.mp hfile
  exact absurd (hi.symm.trans hnone) (by simp)

theorem Move.gone {a : Act c} (h : Move s a u) (htree : c.Tree) (hcalm : Calm s a)
    (hground : Ground s) (hs : Gone s) : Gone u := by
  have hnote : ∀ ev, ∀ l, c.world.fs.isFile l = true → s.world.fs.entry l = none →
      l ∈ picked (s.log ++ [ev]) := fun ev l hfile hnone => mem_picked_append (hs l hfile hnone) ev
  cases h with
  | unlinked j dir fd name names items l now child at_name found entry file =>
    have hat := hground.placed.worker_at at_name
    have hloc : l = resolve dir := hground.kept.loc_eq htree found hat.1.entry hat.1.dir
    intro x hfile hnone
    by_cases hx : x = l ++ [name]
    · rw [hx, hloc]
      exact (hat.2.1 name List.mem_cons_self).2
    · dsimp only at hnone
      rw [unlink_entry_of_ne child now hx] at hnone
      exact hs x hfile hnone
  | removed k l level later d ds fd child removing at_rec found entry dir =>
    intro x hfile hnone
    by_cases hx : x = l ++ [nameOf d.path]
    · obtain ⟨i, hi, hkind⟩ := Fs.isFile_iff.mp hfile
      rw [hx, hground.kept.of_some entry] at hi
      cases hi
      rw [hground.kept.node, hkind] at dir
      cases dir
    · dsimp only at hnone
      rw [unlink_entry_of_ne child _ hx] at hnone
      exact hs x hfile hnone
  | tamper w => exact hcalm.elim
  | nodeBegun i n k w at_node dir counted => exact hnote _
  | nodeUnread i n k w at_node => exact hnote _
  | filled i n given l chunk at_end dir real more => exact hnote _
  | tooLong i n given name t buf l at_entry => exact hnote _
  | descend i n given name t buf l child path at_entry proper dir entry is_dir joined =>
    exact hnote _
  | keep i n given name t buf l st k w at_entry proper seen chosen counted => exact hnote _
  | count i n given name t buf l st k w at_entry proper seen chosen counted dry => exact hnote _
  | full i n given name t buf l st k w at_entry proper seen chosen counted delete => exact hnote _
  | add i n given name t buf l st k w b e at_entry proper seen chosen counted delete kept =>
    exact hnote _
  | _ => exact hs

/-- A location on the way to one that exists. -/
theorem Config.Tree.prefix (htree : c.Tree) {x l : Loc} (hle : x <+: l)
    (hl : (c.world.fs.entry l).isSome = true) : (c.world.fs.entry x).isSome = true :=
  (Kept.start htree).closed x l hle hl

theorem Config.Tree.leaf (htree : c.Tree) {x l : Loc} {i : ℕ} (hi : c.world.fs.entry x = some i)
    (hfile : (c.world.fs.node i).isDir = false) (hl : (c.world.fs.entry l).isSome = true) :
    (if x <+: l then 1 else 0) = [x].count l := by
  by_cases hle : x <+: l
  · rw [(Kept.start htree).leaf htree hi hfile l hle hl]
    simp
  · have hne : x ≠ l := by
      rintro rfl
      exact hle (List.prefix_refl x)
    simp [hle, hne]

theorem Covered.of_places (hs : Covered s)
    (h : ∀ l, c.top <+: l → (c.world.fs.entry l).isSome = true → u.places l = s.places l) :
    Covered u := fun l htop hl => (h l htop hl).trans (hs l htop hl)

/-- A walker thread moves on, and what it covered less is dealt with. -/
theorem Covered.walk (hs : Covered s) {i : Fin c.threads} {p : WalkPc}
    (hqueue : u.queue = s.queue) (hwalker : u.walker = Function.update s.walker i p)
    (h : ∀ l, c.top <+: l → (c.world.fs.entry l).isSome = true →
      p.cover l + (dealt u.log).count l = (s.walker i).cover l + (dealt s.log).count l) :
    Covered u := by
  apply hs.of_places
  intro l htop hl
  have hmove := total_update (WalkPc.cover l) s.walker i p
  have hcover := h l htop hl
  unfold State.places
  rw [hqueue, hwalker]
  omega

/-- Below an entry that the walker takes for a file there is nothing else. -/
theorem Ground.cover_entry (hground : Ground s) (htree : c.Tree) {i : Fin c.threads} {n : Node}
    {given : List Bytes} {name : Bytes} {t : DType} {buf : List (Bytes × DType)}
    (at_entry : s.walker i = .reading n given ((name, t) :: buf)) {l : Option Loc}
    {st : Option Stat} (seen : Seen s n name t l st) (proper : name ≠ dot ∧ name ≠ dotdot)
    {p : WalkPc} {ev : Event} {x : Loc} (hp : p.cover x = ahead n given buf x)
    (hev : ev.deals = some (resolve n.path ++ [name])) (hx : (c.world.fs.entry x).isSome = true) :
    p.cover x + (dealt (s.log ++ [ev])).count x =
      (s.walker i).cover x + (dealt s.log).count x := by
  have hn := hground.placed.walker_at at_entry
  obtain ⟨j, hj, hfile, -⟩ := seen.entry hground.kept htree hn.1 hn.2.2 proper
  rw [at_entry, dealt_note, hp, hev]
  simp only [WalkPc.cover, Option.toList_some, ahead_cons, htree.leaf hj hfile hx]
  omega

theorem Covered.start (c : Config) : Covered (State.start c) := by
  intro l htop _
  have hres : resolve (render c.top) = c.top := Path.resolve_render c.ordinary
  have hnone : total (WalkPc.cover l) (State.start c).walker = 0 := total_eq_zero_iff.mpr fun _ => rfl
  unfold State.places
  rw [hnone]
  simp [State.start, reach, Config.rootNode, hres, htop, dealt]

/-- At the end of a stream nothing is ahead. -/
theorem Covered.eof (hs : Covered s) (htree : c.Tree) (hground : Ground s) (hendgame : Endgame s)
    (hgone : Gone s) {i : Fin c.threads} {n : Node} {given : List Bytes}
    (hat : s.walker i = .reading n given [])
    (hstream : Streams s.world.fs (resolve n.path) given []) {l : Loc}
    (hl : (c.world.fs.entry l).isSome = true) : ahead n given [] l = 0 := by
  have hn := hground.placed.walker_at hat
  cases htoward : n.toward l with
  | none => simp [ahead, htoward]
  | some x =>
    have hpre := toward_eq_some_iff.mp htoward
    have hexists := htree.prefix hpre hl
    by_cases hx : x ∈ given
    · simp [ahead, htoward, hx]
    -- the entry was not returned, so it is there no more, but then it was dealt with before
    exfalso
    have hnone : s.world.fs.entry (resolve n.path ++ [x]) = none := by
      by_contra hsome
      exact hx (hstream.all rfl x (Option.isSome_iff_ne_none.mpr hsome))
    have hearly := (hendgame.busy_pos (i := i) (by rw [hat]; rfl)).2.2
    have hfile : c.world.fs.isFile (resolve n.path ++ [x]) = true := by
      by_contra hnot
      have hdir := Fs.isDir_of_not_isFile hexists (by simpa using hnot)
      have hsame := hground.kept.dirs (by omega) _ hdir
      rw [hnone] at hsame
      rw [← hsame] at hexists
      cases hexists
    have hdealt := List.count_pos_iff.mpr (mem_dealt_of_picked (hgone _ hfile hnone))
    have hbelow : c.top <+: resolve n.path ++ [x] :=
      hn.1.below.trans (List.prefix_append _ _)
    have hone := hs _ hbelow hexists
    have hself : n.toward (resolve n.path ++ [x]) = some x :=
      toward_eq_some_iff.mpr (List.prefix_refl _)
    have hcover : (s.walker i).cover (resolve n.path ++ [x]) = 1 := by
      rw [hat]
      simp [WalkPc.cover, ahead, hself, hx]
    have hle : (s.walker i).cover (resolve n.path ++ [x]) ≤
        total (WalkPc.cover (resolve n.path ++ [x])) s.walker :=
      Finset.single_le_sum (f := fun k => (s.walker k).cover (resolve n.path ++ [x]))
        (fun _ _ => Nat.zero_le _) (Finset.mem_univ i)
    unfold State.places at hone
    omega

theorem Move.covered {a : Act c} (h : Move s a u) (htree : c.Tree) (hcalm : Calm s a)
    (hbefore : s.errors = 0) (herrors : u.errors = 0) (hstop : s.stop = false)
    (hground : Ground s) (hendgame : Endgame s) (hgone : Gone s) (hs : Covered s) : Covered u := by
  cases h with
  | popNode i n queue idle first =>
    apply hs.of_places
    intro l _ _
    have hmove := total_update (WalkPc.cover l) s.walker i (.opening n)
    rw [idle] at hmove
    simp only [WalkPc.cover] at hmove
    unfold State.places
    rw [first]
    simp only [List.map_cons, List.sum_cons]
    omega
  | walkerExit i idle complete =>
    apply hs.walk (i := i) (p := .exited)
    · rfl
    · rfl
    intro l _ _
    rw [idle]
    rfl
  | nodeOpened i n fd at_node opened =>
    apply hs.walk (i := i) (p := .checking n fd)
    · rfl
    · rfl
    intro l _ _
    rw [at_node]
    rfl
  | nodeBegun i n k w at_node dir counted =>
    apply hs.walk (i := i) (p := .reading n [] [])
    · rfl
    · rfl
    intro l _ _
    rw [at_node, dealt_note]
    simp only [WalkPc.cover, Event.deals, Option.toList_some, reach_begun n l]
    omega
  | filled i n given l chunk at_end dir real more =>
    have hn := hground.placed.walker_at at_end
    have hstream := hcalm.2 n given l at_end rfl
    apply hs.walk (i := i) (p := .reading n (given ++ chunk.map Prod.fst) chunk)
    · rfl
    · rfl
    intro x _ _
    rw [at_end, dealt_note]
    simp only [WalkPc.cover, Event.deals, Option.toList_none, List.count_nil,
      ahead_filled hstream x]
    omega
  | eof i n given l at_end dir =>
    have hn := hground.placed.walker_at at_end
    have hloc := hground.kept.loc_eq htree dir hn.1.entry hn.1.dir
    have hstream := hcalm.2 n given l at_end rfl
    rw [hloc] at hstream
    apply hs.walk (i := i) (p := .ending n)
    · rfl
    · rfl
    intro x _ hx
    have hzero := hs.eof htree hground hendgame hgone at_end hstream hx
    rw [at_end]
    simp only [WalkPc.cover, hzero]
  | stopReading i n given buf l at_entry stopping =>
    rw [hstop] at stopping
    cases stopping
  | skipDots i n given name t buf l at_entry dots =>
    apply hs.walk (i := i) (p := .reading n given buf)
    · rfl
    · rfl
    intro x _ hx
    have hnot : ¬resolve n.path ++ [name] <+: x := by
      intro hpre
      have hord := htree.names x hx name (hpre.subset (by simp))
      exact dots.elim hord.2.1 hord.2.2
    rw [at_entry]
    simp only [WalkPc.cover, ahead_cons, if_neg hnot, Nat.add_zero]
  | descend i n given name t buf l child path at_entry proper dir entry is_dir joined =>
    have hn := hground.placed.walker_at at_entry
    have hloc := hground.kept.loc_eq htree dir hn.1.entry hn.1.dir
    rw [hloc] at entry
    rw [hground.kept.node] at is_dir
    have hres := (hn.1.toAt.child htree (hground.kept.of_some entry) is_dir joined).2
    apply hs.walk (i := i) (p := .pushing n ⟨path, child, n.depth + 1⟩ given buf)
    · rfl
    · rfl
    intro x _ _
    rw [at_entry, dealt_note]
    simp only [WalkPc.cover, Event.deals, Option.toList_none, List.count_nil, ahead_cons, reach,
      hres]
    omega
  | keep i n given name t buf l st k w at_entry proper seen chosen counted =>
    apply hs.walk (i := i) (p := .reading n given buf)
    · rfl
    · rfl
    exact fun x _ hx => hground.cover_entry htree at_entry seen proper rfl rfl hx
  | count i n given name t buf l st k w at_entry proper seen chosen counted dry =>
    apply hs.walk (i := i) (p := .reading n given buf)
    · rfl
    · rfl
    exact fun x _ hx => hground.cover_entry htree at_entry seen proper rfl rfl hx
  | full i n given name t buf l st k w at_entry proper seen chosen counted delete =>
    apply hs.walk (i := i) (p := .submitting n name given buf)
    · rfl
    · rfl
    exact fun x _ hx => hground.cover_entry htree at_entry seen proper rfl rfl hx
  | add i n given name t buf l st k w b e at_entry proper seen chosen counted delete kept =>
    apply hs.walk (i := i) (p := .reading n given buf)
    · rfl
    · rfl
    exact fun x _ hx => hground.cover_entry htree at_entry seen proper rfl rfl hx
  | pushed i n child given buf at_push =>
    apply hs.of_places
    intro l _ _
    have hmove := total_update (WalkPc.cover l) s.walker i (.reading n given buf)
    rw [at_push] at hmove
    simp only [WalkPc.cover] at hmove
    unfold State.places
    simp only [List.map_append, List.sum_append, List.map_cons, List.map_nil, List.sum_singleton]
    omega
  | submitted i n name given buf chan b e at_push sent kept =>
    apply hs.walk (i := i) (p := .reading n given buf)
    · rfl
    · rfl
    intro l _ _
    rw [at_push]
    rfl
  | dirEnd i n at_end empty =>
    apply hs.walk (i := i) (p := .leaving)
    · rfl
    · rfl
    intro l _ _
    rw [at_end]
    rfl
  | finish i done at_end last =>
    apply hs.walk (i := i) (p := .top)
    · rfl
    · rfl
    intro l _ _
    rw [at_end]
    rfl
  | shutdown => exact hcalm.elim
  | tamper w => exact hcalm.elim
  | nodeUnread i n k w at_node => cases hcalm
  | readFailed i n given chunk at_end => exact absurd rfl hcalm.1
  | nodeRefused i n fault at_node =>
    dsimp only at herrors
    omega
  | nodeChanged i n fd streams at_node =>
    dsimp only at herrors
    omega
  | statFailed i n given name t buf l at_entry =>
    dsimp only at herrors
    omega
  | tooLong i n given name t buf l at_entry =>
    dsimp only at herrors
    omega
  | _ => exact hs

end Ecopy.EDelete
