import Ecopy.HardLinks.Replay

/-!
# The names after the links

Names stand for inodes, and in the source for objects. `hardlinks_replay` gives the further
names of each object the inode of its first name. When it reports success and no link has
crossed file systems, two names have one inode exactly when they are of one object.
-/
namespace Ecopy.HardLinks
open Protocol Ecopy.Path FileSystem Server Lib.Calls
open Workers.SmallCopy Workers.Events

section Mirrors
variable {α β N : Type*} {f f' : N → β} {g : N → α} {S : Set N} {a b : N}

/-- On the names of `S` both maps have the same fibres. -/
def Mirrors (f : N → β) (g : N → α) (S : Set N) : Prop :=
  ∀ a ∈ S, ∀ b ∈ S, (f a = f b ↔ g a = g b)

theorem Mirrors.congr (h : Mirrors f g S) (heq : ∀ a ∈ S, f' a = f a) : Mirrors f' g S := by
  intro a ha b hb
  rw [heq a ha, heq b hb]
  exact h a ha b hb

/-- One more name, like one that is there already. -/
theorem Mirrors.insert (h : Mirrors f g S) (ha : a ∈ S) (hf : f b = f a) (hg : g b = g a) :
    Mirrors f g (insert b S) := by
  have hb : ∀ c ∈ S, (f b = f c ↔ g b = g c) := fun c hc => by
    rw [hf, hg]
    exact h a ha c hc
  rintro c (rfl | hc) d (rfl | hd)
  · exact iff_of_true rfl rfl
  · exact hb d hd
  · rw [eq_comm, hb c hc, eq_comm]
  · exact h c hc d hd

end Mirrors

/-- The name `b` stands for what `a` stands for. No other name that was there has changed, and no
object has. -/
structure LinkedTo (fs fs' : Fs) (a b : Loc) : Prop where
  node : fs'.node = fs.node
  same : fs'.entry b = fs.entry a
  exists_primary : (fs.entry a).isSome = true
  others : ∀ l, l ≠ b → (fs.entry l).isSome = true → fs'.entry l = fs.entry l

theorem Relinked.linkedTo {fs fs' : Fs} {a b : Loc} (h : Relinked fs fs' a b)
    (hnode : fs'.node = fs.node) : LinkedTo fs fs' a b := by
  obtain ⟨i, ha, hb⟩ := h.linked
  exact ⟨hnode, hb.trans ha.symm, by rw [ha]; rfl, fun l hl _ => h.others l hl⟩

theorem node_of_link {fs fs' : Fs} {a b : Loc} (h : fs.link a b = .ok fs') :
    fs'.node = fs.node := by
  obtain ⟨-, -, rfl⟩ := Fs.link_eq_ok h
  rfl

theorem node_of_rename {fs fs' : Fs} {a b : Loc} {emptyTarget : Bool}
    (h : fs.rename a b emptyTarget = .ok fs') : fs'.node = fs.node := by
  obtain ⟨-, -, i, -, ⟨rfl, -⟩ | ⟨rfl, -⟩⟩ := Fs.rename_eq_ok h
  · rfl
  · rfl

/-- Also where the move does nothing and the temporary name stays. -/
theorem linkedTo_of_rename {fs fs₁ fs₂ : Fs} {a b t : Loc} (ht : fs.Tree)
    (hb : (fs.entry b).isSome = true) (hlink : fs.link a t = .ok fs₁) {emptyTarget : Bool}
    (hrename : fs₁.rename t b emptyTarget = .ok fs₂) : LinkedTo fs fs₂ a b := by
  have hnode : fs₂.node = fs.node := (node_of_rename hrename).trans (node_of_link hlink)
  by_cases hsame : fs.entry b = fs.entry a
  · obtain ⟨hfree, hfile, rfl⟩ := Fs.link_eq_ok hlink
    have hbt : b ≠ t := by
      rintro rfl
      rw [hfree] at hb
      cases hb
    obtain ⟨-, -, i, hi, ⟨rfl, -⟩ | ⟨-, hne, -⟩⟩ := Fs.rename_eq_ok hrename
    · refine ⟨rfl, (Function.update_of_ne hbt _ _).trans hsame, by rwa [← hsame], ?_⟩
      intro l _ hl
      refine Function.update_of_ne ?_ _ _
      rintro rfl
      rw [hfree] at hl
      cases hl
    · simp only [Function.update_self, Function.update_of_ne hbt] at hi hne
      exact absurd (hsame.trans hi) hne
  · exact ((relinked_iff_of_rename ht hb hlink hrename).mpr hsame).linkedTo hnode

/-- A link was refused because it would cross file systems. -/
def CrossesDevices : Event → Prop
  | ⟨.link _ _, (r : Except Errno Unit)⟩ => r = .error .exdev
  | _ => False

section Local
variable {who : Identity} {cfg : Tuning} {w v : World} {tr : List Event} {primary link : Bytes}

theorem linkFailure_eq_exdev {e : Errno} (h : linkFailure e = .exdev) : e = .exdev := by
  unfold linkFailure at h
  split at h
  · assumption
  · cases h

theorem hardlinkCreate_linkedTo (ht : w.fs.Tree)
    (h : (hardlinkCreate who primary link).Runs (answer who) w tr v .created) :
    LinkedTo w.fs v.fs (resolve primary) (resolve link) := by
  rcases hardlinkCreate_created h with hlinked | ⟨hb, t, fs, emptyTarget, hlinked, hmoved⟩
  · exact (relinked_of_link hlinked).linkedTo (node_of_link hlinked)
  · exact linkedTo_of_rename ht hb hlinked hmoved

/-- Only a refused link sends a job to the copy. -/
theorem hardlinkCreate_exdev
    (h : (hardlinkCreate who primary link).Runs (answer who) w tr v .exdev) :
    ∃ ev ∈ tr, CrossesDevices ev := by
  obtain ⟨x, linked, u, rest, -, rfl, hrun⟩ := Prog.runs_perform_iff.mp h
  cases linked with
  | ok _ => cases (Prog.runs_ret_iff.mp hrun).2.2
  | error e =>
    have hfailure : e ≠ .eexist → linkFailure e = .exdev := by
      intro he
      cases e with
      | eexist => exact absurd rfl he
      | _ => exact (Prog.runs_ret_iff.mp hrun).2.2.symm
    by_cases he : e = .eexist
    · subst he
      obtain ⟨-, n, u₁, tr₁, -, rfl, hreplace⟩ := Prog.runs_perform_iff.mp hrun
      dsimp only at hreplace
      split at hreplace
      · cases (Prog.runs_ret_iff.mp hreplace).2.2
      obtain ⟨-, linked, u₂, tr₂, -, rfl, hafter⟩ := Prog.runs_perform_iff.mp hreplace
      cases linked with
      | error e =>
        obtain rfl := linkFailure_eq_exdev (Prog.runs_ret_iff.mp hafter).2.2.symm
        exact ⟨⟨.link primary (tmpLink who link n), .error .exdev⟩, by simp, rfl⟩
      | ok _ =>
        obtain ⟨-, renamed, u₃, tr₃, -, rfl, hend⟩ := Prog.runs_perform_iff.mp hafter
        cases renamed with
        | ok _ => cases (Prog.runs_ret_iff.mp hend).2.2
        | error _ =>
          obtain ⟨-, gone, u₄, tr₄, -, -, hret⟩ := Prog.runs_perform_iff.mp hend
          cases (Prog.runs_ret_iff.mp hret).2.2
    · obtain rfl := linkFailure_eq_exdev (hfailure he)
      exact ⟨⟨.link primary link, .error .exdev⟩, List.mem_cons_self, rfl⟩

theorem replayJob_linkedTo {j : Job} (ht : w.fs.Tree)
    (h : (replayJob who cfg j).Runs (answer who) w tr v true)
    (hone : ∀ ev ∈ tr, ¬ CrossesDevices ev) :
    LinkedTo w.fs v.fs (resolve j.primary) (resolve j.link) := by
  obtain ⟨before, after, u, made, rfl, hcreate, hrun⟩ := Prog.runs_bind_iff.mp h
  cases made with
  | created =>
    obtain ⟨-, rfl, -⟩ := Prog.runs_ret_iff.mp hrun
    exact hardlinkCreate_linkedTo ht hcreate
  | exdev =>
    obtain ⟨ev, hev, hcross⟩ := hardlinkCreate_exdev hcreate
    exact absurd hcross (hone ev (List.mem_append_left _ hev))
  | failed => cases (Prog.runs_ret_iff.mp hrun).2.2

end Local

section Runs
variable {who : Identity} {cfg : Tuning} {α : Type*} {object : Loc → α}
  {good : α → Node → Prop} {S : Set Loc}

/-- The names of `S` stand for objects that are as they should be, and they share them as they
should. -/
structure Reproduces (fs : Fs) (object : Loc → α) (good : α → Node → Prop) (S : Set Loc) :
    Prop where
  present : ∀ l ∈ S, ∃ i, fs.entry l = some i ∧ good (object l) (fs.node i)
  shared : Mirrors fs.entry object S

theorem Reproduces.linkedTo {fs fs' : Fs} {a b : Loc} (h : Reproduces fs object good S)
    (hl : LinkedTo fs fs' a b) (ha : a ∈ S) (hobject : object b = object a) :
    Reproduces fs' object good (insert b S) := by
  have hkept : ∀ l ∈ S, fs'.entry l = fs.entry l := by
    intro l hl'
    by_cases hlb : l = b
    · subst hlb
      rw [hl.same, h.shared a ha l hl', hobject]
    · obtain ⟨i, hi, -⟩ := h.present l hl'
      exact hl.others l hlb (by rw [hi]; rfl)
  constructor
  · rintro l (rfl | hl')
    · rw [hl.same, hl.node, hobject]
      exact h.present a ha
    · rw [hkept l hl', hl.node]
      exact h.present l hl'
  · exact (h.shared.congr hkept).insert ha (hl.same.trans (hkept a ha).symm) hobject

/-- The names that jobs make. -/
def linkLocs (jobs : List Job) : Set Loc := {l | ∃ j ∈ jobs, l = resolve j.link}

/-- When all jobs succeed, the first one does, and so do the others. -/
theorem replay_cons {j : Job} {jobs : List Job} {w v : World} {tr : List Event}
    (h : (hardlinksReplay who cfg (j :: jobs)).Runs (answer who) w tr v true) :
    ∃ before middle last u, tr = before ++ (middle ++ last) ∧
      (replayJob who cfg j).Runs (answer who) w before u true ∧
      (hardlinksReplay who cfg jobs).Runs (answer who) u middle v true := by
  obtain ⟨before, rest, u, done, rfl, hfirst, hrun⟩ := Prog.runs_bind_iff.mp h
  obtain ⟨middle, last, u', others, rfl, hothers, hret⟩ := Prog.runs_bind_iff.mp hrun
  obtain ⟨rfl, rfl, hboth⟩ := Prog.runs_ret_iff.mp hret
  rw [eq_comm, Bool.and_eq_true] at hboth
  obtain ⟨rfl, rfl⟩ := hboth
  exact ⟨before, middle, [], u, rfl, hfirst, hothers⟩

theorem hardlinksReplay_reproduces {jobs : List Job} {w v : World} {tr : List Event}
    (ht : w.fs.Tree) (h : (hardlinksReplay who cfg jobs).Runs (answer who) w tr v true)
    (hone : ∀ ev ∈ tr, ¬ CrossesDevices ev) (hs : Reproduces w.fs object good S)
    (hjobs : ∀ j ∈ jobs, resolve j.primary ∈ S ∧
      object (resolve j.link) = object (resolve j.primary)) :
    Reproduces v.fs object good (S ∪ linkLocs jobs) := by
  induction jobs generalizing S w tr with
  | nil =>
    obtain ⟨-, rfl, -⟩ := Prog.runs_ret_iff.mp h
    have hnone : linkLocs [] = ∅ := Set.eq_empty_of_forall_notMem fun l hl => by
      obtain ⟨j, hj, -⟩ := hl
      cases hj
    rwa [hnone, Set.union_empty]
  | cons j jobs ih =>
    obtain ⟨before, middle, last, u, rfl, hfirst, hothers⟩ := replay_cons h
    obtain ⟨hprimary, hobject⟩ := hjobs j List.mem_cons_self
    have hlinked := replayJob_linkedTo ht hfirst fun ev hev =>
      hone ev (List.mem_append_left _ hev)
    have hstep := hs.linkedTo hlinked hprimary hobject
    have hall := ih (tree_of_runs hfirst ht) hothers
      (fun ev hev => hone ev (List.mem_append_right _ (List.mem_append_left _ hev))) hstep
      fun k hk => ⟨.inr (hjobs k (List.mem_cons_of_mem j hk)).1,
        (hjobs k (List.mem_cons_of_mem j hk)).2⟩
    have hset : S ∪ linkLocs (j :: jobs) = insert (resolve j.link) S ∪ linkLocs jobs := by
      ext l
      simp only [linkLocs, Set.mem_union, Set.mem_insert_iff, Set.mem_ofPred_eq, List.mem_cons]
      constructor
      · rintro (hl | ⟨k, rfl | hk, rfl⟩)
        · exact .inl (.inr hl)
        · exact .inl (.inl rfl)
        · exact .inr ⟨k, hk, rfl⟩
      · rintro ((rfl | hl) | ⟨k, hk, rfl⟩)
        · exact .inr ⟨j, .inl rfl, rfl⟩
        · exact .inl hl
        · exact .inr ⟨k, .inr hk, rfl⟩
    rwa [hset]

/-- The other names stay, and so does every object. -/
theorem hardlinksReplay_others {jobs : List Job} {w v : World} {tr : List Event}
    (ht : w.fs.Tree) (h : (hardlinksReplay who cfg jobs).Runs (answer who) w tr v true)
    (hone : ∀ ev ∈ tr, ¬ CrossesDevices ev) :
    v.fs.node = w.fs.node ∧ ∀ l, l ∉ linkLocs jobs → (w.fs.entry l).isSome = true →
      v.fs.entry l = w.fs.entry l := by
  induction jobs generalizing w tr with
  | nil =>
    obtain ⟨-, rfl, -⟩ := Prog.runs_ret_iff.mp h
    exact ⟨rfl, fun _ _ _ => rfl⟩
  | cons j jobs ih =>
    obtain ⟨before, middle, last, u, rfl, hfirst, hothers⟩ := replay_cons h
    have hlinked := replayJob_linkedTo ht hfirst fun ev hev =>
      hone ev (List.mem_append_left _ hev)
    obtain ⟨hnode, hentry⟩ := ih (tree_of_runs hfirst ht) hothers fun ev hev =>
      hone ev (List.mem_append_right _ (List.mem_append_left _ hev))
    refine ⟨hnode.trans hlinked.node, fun l hl hsome => ?_⟩
    have hne : l ≠ resolve j.link := fun heq => hl ⟨j, List.mem_cons_self, heq⟩
    have hfirst := hlinked.others l hne hsome
    have hnot : l ∉ linkLocs jobs := by
      rintro ⟨k, hk, heq⟩
      exact hl ⟨k, List.mem_cons_of_mem j hk, heq⟩
    exact (hentry l hnot (by rwa [hfirst])).trans hfirst

end Runs

end Ecopy.HardLinks
