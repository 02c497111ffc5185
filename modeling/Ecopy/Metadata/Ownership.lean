import Ecopy.Workers.Events
import Ecopy.Workers.SmallCopy

/-!
# Ownership in privileged runs

Both metadata passes leave out the part of a `chown` that asks for the effective user or
group of the process, because a new object has these already. For an object that was
there before, that part is what decides.
-/
namespace Ecopy.Metadata
open Protocol Ecopy.Path FileSystem Server Lib.Calls
open Workers.SmallCopy Workers.Events

def chownFails : Event → Bool
  | ⟨.fchown _ _ _, (r : Except Errno Unit)⟩ => !r.isOk
  | _ => false

/-- A part of the owner that is asked for, or that the object has already. `self` is what
the process gives to new objects; the largest number asks for no change. -/
def Reached (self wanted old : UInt32) : Prop :=
  (wanted ≠ self ∧ wanted ≠ 0xFFFFFFFF) ∨ old = wanted

def Owned (n : Node) (m : Meta) : Prop := n.uid = m.uid ∧ n.gid = m.gid

section Ownership
variable {who : Identity} {cfg : Tuning} {fd : Fd} {m : Meta} {w v : World} {tr : List Event}

theorem answer_node {x : Choice} {f : Node → Node} {res : Except Errno Unit}
    (h : some (w.changeNode x fd f) = some (res, v)) :
    (∃ e, res = .error e ∧ v = w) ∨ res = .ok () ∧
      v.fs = w.fs.setNode fd.ino (f (w.fs.node fd.ino)) := by
  rcases change_eq (Option.some.inj h) with herr | ⟨a, fs, -, hok, rfl, rfl⟩
  · exact .inl herr
  · obtain ⟨-, rfl⟩ := Prod.mk.inj (Except.ok.inj hok)
    exact .inr ⟨rfl, rfl⟩

/-- What `apply_meta` and its local counterpart do to the owner when no `chown` fails. -/
theorem applyOwner_node {res : Option Errno}
    (h : (applyOwner who fd m).Runs (answer who) w tr v res) (hok : ∀ e ∈ tr, chownFails e = false) :
    v.fs.node fd.ino = World.setOwner (w.fs.node fd.ino) (wantedOwner who m.uid m.gid).1
      (wantedOwner who m.uid m.gid).2 := by
  unfold applyOwner at h
  split at h
  · rename_i hself
    obtain ⟨-, rfl, -⟩ := Prog.runs_ret_iff.mp h
    simp [wantedOwner, hself.1, hself.2, World.setOwner]
  dsimp only at h
  split at h
  · rename_i hnone
    obtain ⟨-, rfl, -⟩ := Prog.runs_ret_iff.mp h
    rw [hnone.1, hnone.2]
    rfl
  · obtain ⟨x, changed, u, rest, hchown, rfl, hrun⟩ := Prog.runs_perform_iff.mp h
    rcases answer_node hchown with ⟨e, rfl, -⟩ | ⟨rfl, hu⟩
    · exact absurd (hok _ List.mem_cons_self) (by simp [chownFails, Except.isOk, Except.toBool])
    · obtain ⟨-, rfl, -⟩ := Prog.runs_ret_iff.mp hrun
      rw [hu]
      simp [Fs.setNode]

/-- The calls of a metadata pass after the `chown`. -/
def KeepsOwner : Call → Prop
  | .fchmod _ _ | .futimens _ _ _ | .settings => True
  | _ => False

theorem answer_keepsOwner {c : Call} {x : Choice} {r : c.Result} (hc : KeepsOwner c)
    (h : answer who w x c = some (r, v)) (i : ℕ) :
    (v.fs.node i).uid = (w.fs.node i).uid ∧ (v.fs.node i).gid = (w.fs.node i).gid := by
  cases c with
  | fchmod | futimens =>
    rcases answer_node h with ⟨e, -, rfl⟩ | ⟨-, hv⟩
    · exact ⟨rfl, rfl⟩
    · rw [hv]
      simp only [Fs.setNode, Function.update_apply]
      split_ifs with hi
      · subst hi
        exact ⟨rfl, rfl⟩
      · exact ⟨rfl, rfl⟩
  | settings =>
    obtain ⟨-, rfl⟩ := Prod.mk.inj (Option.some.inj h)
    exact ⟨rfl, rfl⟩
  | _ => exact hc.elim

theorem owner_of_runs {α : Type} {p : Handler α} {a : α}
    (hp : p.Keeps KeepsOwner fun _ _ => True) (h : p.Runs (answer who) w tr v a) (i : ℕ) :
    (v.fs.node i).uid = (w.fs.node i).uid ∧ (v.fs.node i).gid = (w.fs.node i).gid := by
  induction h with
  | ret => exact ⟨rfl, rfl⟩
  | call x hx _ ih =>
    obtain ⟨huid, hgid⟩ := answer_keepsOwner hp.1 hx i
    obtain ⟨huid', hgid'⟩ := ih (hp.2 _ trivial)
    exact ⟨huid'.trans huid, hgid'.trans hgid⟩

/-- The owner after a pass that ends in `rest`. -/
theorem owner_after {α : Type} {rest : Option Errno → Handler α} {a : α}
    (hrest : ∀ r, (rest r).Keeps KeepsOwner fun _ _ => True)
    (h : (applyOwner who fd m >>= rest).Runs (answer who) w tr v a)
    (hok : ∀ e ∈ tr, chownFails e = false) :
    (v.fs.node fd.ino).uid = ((wantedOwner who m.uid m.gid).1).getD (w.fs.node fd.ino).uid ∧
      (v.fs.node fd.ino).gid = ((wantedOwner who m.uid m.gid).2).getD (w.fs.node fd.ino).gid := by
  obtain ⟨before, after, u, r, rfl, hfirst, hlast⟩ := Prog.runs_bind_iff.mp h
  have hnode := applyOwner_node hfirst fun e he => hok e (by simp [he])
  obtain ⟨huid, hgid⟩ := owner_of_runs (hrest r) hlast fd.ino
  rw [huid, hgid, hnode]
  exact ⟨rfl, rfl⟩

theorem getD_reaches (self wanted old : UInt32) :
    ((if wanted = self ∨ wanted = 0xFFFFFFFF then none else some wanted : Option UInt32).getD old =
      wanted) ↔ Reached self wanted old := by
  unfold Reached
  split_ifs with h
  · have hnot : ¬ (wanted ≠ self ∧ wanted ≠ 0xFFFFFFFF) := by
      rcases h with h | h <;> simp [h]
    simp [hnot]
  · rw [not_or] at h
    simp [h]

/-- With effective user 0 nothing else is left out. -/
theorem wantedOwner_reaches (hroot : who.euid = 0) (n : Node) :
    ((wantedOwner who m.uid m.gid).1.getD n.uid = m.uid ↔ Reached who.euid m.uid n.uid) ∧
      ((wantedOwner who m.uid m.gid).2.getD n.gid = m.gid ↔ Reached who.egid m.gid n.gid) := by
  rw [← getD_reaches who.euid, ← getD_reaches who.egid]
  simp [wantedOwner, Identity.uidDoomed, Identity.gidSettable, hroot]

theorem keepsOwner_preserve (known : Option UInt32) (r : Option Errno) :
    (do
      if r.isSome then return false
      let moded ← if known = some (m.mode &&& 0xFFF) then pure (.ok ())
        else Sys.fchmod fd (m.mode &&& 0xFFF)
      if moded.isOk then
        if cfg.preserveTimes then return (← Sys.futimens fd m.atime m.mtime).isOk else return true
      else return false : Handler Bool).Keeps KeepsOwner fun _ _ => True := by
  have htimes : ∀ moded : Except Errno Unit, Prog.Keeps KeepsOwner (fun _ _ => True) (do
      if moded.isOk then
        if cfg.preserveTimes then return (← Sys.futimens fd m.atime m.mtime).isOk else return true
      else return false : Handler Bool) := by
    intro moded
    split
    · split
      · exact Prog.Keeps.call (c := Call.futimens fd _ _) trivial fun _ _ => trivial
      · trivial
    · trivial
  split
  · trivial
  · by_cases hknown : known = some (m.mode &&& 0xFFF)
    · rw [if_pos hknown]
      exact htimes (.ok ())
    · rw [if_neg hknown]
      exact Prog.Keeps.call (c := Call.fchmod fd _) trivial fun res _ => htimes res

theorem keepsOwner_meta (modeIsSet : Bool) (r : Option Errno) :
    (do
      let first := r.map fun e => (e, MetaOp.fchown)
      let first ← if modeIsSet then pure first else do
        match ← Sys.fchmod fd (m.mode &&& 0xFFF) with
        | .ok _ => pure first
        | .error e => pure (first <|> some (e, .fchmod))
      let settings ← Sys.settings
      if settings.preserveTimes then
        match ← Sys.futimens fd m.atime m.mtime with
        | .ok _ => return first
        | .error e => return first <|> some (e, .futimens)
      else return first : Handler (Option (Errno × MetaOp))).Keeps KeepsOwner fun _ _ => True := by
  have htimes : ∀ first : Option (Errno × MetaOp),
      (applyTimes fd m first).Keeps KeepsOwner fun _ _ => True := by
    intro first
    refine Prog.Keeps.call (c := Call.settings) trivial ?_
    intro settings _
    split
    · refine Prog.Keeps.call (c := Call.futimens fd _ _) trivial ?_
      intro res _
      cases res <;> trivial
    · trivial
  cases modeIsSet with
  | true => exact htimes (r.map fun e => (e, MetaOp.fchown))
  | false =>
    refine Prog.Keeps.call (c := Call.fchmod fd _) trivial ?_
    intro res _
    cases res with
    | ok _ => exact htimes (r.map fun e => (e, MetaOp.fchown))
    | error e => exact htimes ((r.map fun e => (e, MetaOp.fchown)) <|> some (e, .fchmod))

/-- Which owners a privileged metadata pass reaches, for the local copy and for the server. -/
theorem privileged_owner (hroot : who.euid = 0) (hok : ∀ e ∈ tr, chownFails e = false) :
    (∀ known, (preserveFdMetadata who cfg fd m known).Runs (answer who) w tr v true →
      (Owned (v.fs.node fd.ino) m ↔ Reached who.euid m.uid (w.fs.node fd.ino).uid ∧
        Reached who.egid m.gid (w.fs.node fd.ino).gid)) ∧
    ∀ modeIsSet, (applyMeta who fd m modeIsSet).Runs (answer who) w tr v none →
      (Owned (v.fs.node fd.ino) m ↔ Reached who.euid m.uid (w.fs.node fd.ino).uid ∧
        Reached who.egid m.gid (w.fs.node fd.ino).gid) := by
  obtain ⟨hreach, hreach'⟩ := wantedOwner_reaches (m := m) hroot (w.fs.node fd.ino)
  constructor
  · intro known h
    obtain ⟨huid, hgid⟩ := owner_after (fun r => keepsOwner_preserve known r) h hok
    rw [← hreach, ← hreach', Owned, huid, hgid]
  · intro modeIsSet h
    obtain ⟨huid, hgid⟩ := owner_after (fun r => keepsOwner_meta modeIsSet r) h hok
    rw [← hreach, ← hreach', Owned, huid, hgid]

end Ownership

def root : Identity := ⟨0, 0, [], 1⟩

/-- `/a` belongs to user 5 and group 7. -/
def foreignFile : Fs :=
  .flat [([97], 1)] (fun i => ⟨if i = 0 then .directory else .regular [], 0x1A4, 5, 7, (0, 0), (0, 0)⟩) 2

def foreignFd : Fd := ⟨[47, 97], 1⟩

def ownedBy (uid gid : UInt32) : Meta := ⟨uid, gid, 0x1A4, (0, 0), (0, 0)⟩

def plain : Tuning where
  readDirect := false
  writeDirect := false
  directMinSize := 0
  copyFileRange := false
  chunkSize := 1
  smallWriteDirectMin := 0
  dstDirectOk := false
  inplace := false
  preserveTimes := true
  chunkSize_pos := Nat.one_pos

theorem exists_refresh {m : Meta} (h : m = ownedBy 0 0 ∨ m = ownedBy 8 9) : ∃ tr v,
    (preserveFdMetadata root plain foreignFd m none).Runs (answer root) (.initial foreignFile)
      tr v true ∧ ∀ e ∈ tr, chownFails e = false := by
  have hplay : ((preserveFdMetadata root plain foreignFd m none).play (answer root)
      (.initial foreignFile) (List.replicate 3 ⟨none, 0, false⟩)).map
        (fun out => (out.1.all fun e => !chownFails e, out.2.2)) = some (true, true) := by
    rcases h with rfl | rfl
    · decide +kernel
    · decide +kernel
  obtain ⟨⟨tr, v, a⟩, hout, heq⟩ := Option.map_eq_some_iff.mp hplay
  obtain ⟨hall, rfl⟩ := Prod.mk.inj heq
  exact ⟨tr, v, Prog.runs_of_play hout, by simpa using hall⟩

/-- Another owner than the process is reached. -/
theorem privileged_owner_foreign : ∃ tr v,
    (preserveFdMetadata root plain foreignFd (ownedBy 8 9) none).Runs (answer root)
      (.initial foreignFile) tr v true ∧ Owned (v.fs.node 1) (ownedBy 8 9) := by
  obtain ⟨tr, v, hrun, hok⟩ := exists_refresh (.inr rfl)
  exact ⟨tr, v, hrun, ((privileged_owner rfl hok).1 none hrun).mpr ⟨.inl (by decide), .inl (by decide)⟩⟩

/-- The owner of a file that was there is not changed to the process's own. -/
theorem own_owner_not_restored : ¬ ∀ (who : Identity) (cfg : Tuning) (fd : Fd) (m : Meta) (known)
    (w v : World) (tr : List Event), who.euid = 0 →
    (preserveFdMetadata who cfg fd m known).Runs (answer who) w tr v true →
    (∀ e ∈ tr, chownFails e = false) → Owned (v.fs.node fd.ino) m := by
  intro hclaim
  obtain ⟨tr, v, hrun, hok⟩ := exists_refresh (.inl rfl)
  have howned := hclaim root plain foreignFd (ownedBy 0 0) none _ v tr rfl hrun hok
  obtain ⟨huid, -⟩ := owner_after (fun r => keepsOwner_preserve none r) hrun hok
  rw [howned.1] at huid
  exact absurd huid (by decide)

end Ecopy.Metadata
