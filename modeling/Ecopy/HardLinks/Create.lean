import Ecopy.Server.TempHandlers
import Ecopy.Workers.Events
import Ecopy.Workers.SmallCopy

/-!
# Hard links that replace a name

A link over an existing name is made under a temporary name and moved. The move does
nothing when both names already stand for one object, and then the temporary name stays.
The server looks for this case before it makes the temporary name; the local copy does
not.
-/
namespace Ecopy.HardLinks
open Protocol Ecopy.Path FileSystem Server Lib.Calls
open Workers.SmallCopy Workers.Events

inductive LinkResult where
  | created
  | exdev
  | failed
deriving DecidableEq, Repr

/-- What stands before the last slash. -/
def beforeSlash (path : Bytes) : Bytes :=
  path.take (path.length - (path.reverse.takeWhile (· != slash)).length - 1)

def tmpLink (who : Identity) (link : Bytes) (counter : ℕ) : Bytes :=
  beforeSlash link ++ slash :: makeTempName who.pid counter

def linkFailure (e : Errno) : LinkResult := if e = .exdev then .exdev else .failed

/-- The name exists: link under a temporary name and move it. -/
def replaceLink (who : Identity) (primary link : Bytes) : Handler LinkResult := do
  let tmp := tmpLink who link (← Sys.nextSeq .put)
  if tmp.length ≥ pathMax then return .failed
  match ← Sys.link primary tmp with
  | .error e => return linkFailure e
  | .ok _ =>
    match ← Sys.rename tmp link with
    | .ok _ => return .created
    | .error _ =>
      let _ ← Sys.unlink tmp
      return .failed

def hardlinkCreate (who : Identity) (primary link : Bytes) : Handler LinkResult := do
  match ← Sys.link primary link with
  | .ok _ => return .created
  | .error .eexist => replaceLink who primary link
  | .error e => return linkFailure e

/-- The name `b` stands for the object at `a`, and every other name for what it stood
for before. -/
structure Relinked (fs fs' : Fs) (a b : Loc) : Prop where
  linked : ∃ i, fs.entry a = some i ∧ fs'.entry b = some i
  others : ∀ l, l ≠ b → fs'.entry l = fs.entry l

section Names
variable {fs fs₁ fs₂ : Fs} {a b t : Loc}

theorem relinked_of_link (h : fs.link a b = .ok fs₁) : Relinked fs fs₁ a b := by
  obtain ⟨-, hfile, rfl⟩ := Fs.link_eq_ok h
  obtain ⟨i, hi, -⟩ := Fs.isFile_iff.mp hfile
  constructor
  · exact ⟨i, hi, by simp [hi]⟩
  · intro l hl
    exact Function.update_of_ne hl _ _

/-- A link under a new name that is then moved over `b`. -/
theorem relinked_iff_of_rename (ht : fs.Tree) (hb : (fs.entry b).isSome = true)
    (hlink : fs.link a t = .ok fs₁) {emptyTarget : Bool}
    (hrename : fs₁.rename t b emptyTarget = .ok fs₂) :
    Relinked fs fs₂ a b ↔ fs.entry b ≠ fs.entry a := by
  have ht₁ : fs₁.Tree := ht.link hlink
  obtain ⟨hfree, hfile, rfl⟩ := Fs.link_eq_ok hlink
  obtain ⟨i, hi, hd⟩ := Fs.isFile_iff.mp hfile
  have htb : t ≠ b := by
    rintro rfl
    simp [hfree] at hb
  constructor
  · intro hre hsame
    have hstay : fs₂.entry t = some i := by
      obtain ⟨-, -, j, hj, ⟨rfl, -⟩ | ⟨-, hne, -⟩⟩ := Fs.rename_eq_ok hrename
      · simp [hi]
      · simp only [Function.update_self] at hj
        simp only [Function.update_of_ne htb.symm, hsame] at hne
        exact absurd hj hne
    rw [hre.others t htb, hfree] at hstay
    cases hstay
  · intro hne
    have hfile₁ : Fs.isFile { fs with entry := Function.update fs.entry t (fs.entry a) } t = true :=
      Fs.isFile_iff.mpr ⟨i, by simp [hi], hd⟩
    have hmoved := ht₁.rename_file hfile₁ hrename
      (by simpa [Function.update_of_ne htb.symm] using hne)
    constructor
    · exact ⟨i, hi, by simp [hmoved, hi]⟩
    · intro l hl
      by_cases hlt : l = t
      · subst hlt
        simp [hmoved, Function.update_of_ne htb, hfree]
      · simp [hmoved, Function.update_of_ne hl, Function.update_of_ne hlt]

end Names

section Local
variable {who : Identity} {w v : World} {x : Choice} {tr : List Event} {primary link : Bytes}

theorem answer_link_eexist {a b : Bytes}
    (h : answer who w x (.link a b) = some (.error .eexist, v)) :
    v = w ∧ (w.fs.entry (resolve b)).isSome = true := by
  have hv : v = w := by
    rcases answer_link h with ⟨e, -, hv⟩ | ⟨fs, heq, -⟩
    · exact hv
    · cases heq
  refine ⟨hv, ?_⟩
  have hout := congrArg Prod.fst (Option.some.inj h)
  simp only [World.change] at hout
  split at hout
  · exact absurd (Except.error.inj hout) (Fault.errno_ne_eexist _)
  split at hout
  · rename_i e herr
    obtain rfl := Except.error.inj hout
    simp only [World.withLocs, World.withLoc, locate] at herr
    by_cases ha : a = []
    · simp [ha] at herr
    by_cases hb : b = []
    · simp [ha, hb] at herr
    rw [if_neg ha, if_neg hb] at herr
    dsimp only at herr
    split at herr
    · rename_i e' hlink
      rw [Except.error.inj herr] at hlink
      exact Fs.entry_of_link_eexist hlink
    · cases herr
  · cases hout

theorem linkFailure_ne_created (e : Errno) : linkFailure e ≠ .created := by
  unfold linkFailure
  split <;> simp

/-- A new name for the primary is moved over the old name. -/
theorem replaceLink_created (h : (replaceLink who primary link).Runs (answer who) w tr v .created) :
    ∃ t fs emptyTarget, w.fs.link (resolve primary) t = .ok fs ∧
      fs.rename t (resolve link) emptyTarget = .ok v.fs := by
  obtain ⟨x₁, n, u, tr₁, hseq, rfl, hrun⟩ := Prog.runs_perform_iff.mp h
  obtain ⟨rfl, rfl⟩ := Prod.mk.inj (Option.some.inj hseq)
  dsimp only at hrun
  split at hrun
  · cases (Prog.runs_ret_iff.mp hrun).2.2
  obtain ⟨x₂, linked, u₂, tr₂, hlink, rfl, hafter⟩ := Prog.runs_perform_iff.mp hrun
  rcases answer_link hlink with ⟨e, rfl, -⟩ | ⟨fs₁, rfl, hlinked, rfl⟩
  · exact absurd (Prog.runs_ret_iff.mp hafter).2.2.symm (linkFailure_ne_created e)
  obtain ⟨x₃, renamed, u₃, tr₃, hrename, rfl, hend⟩ := Prog.runs_perform_iff.mp hafter
  rcases answer_rename hrename with ⟨e, rfl, -⟩ | ⟨fs₂, rfl, -, -, hmoved, rfl⟩
  · obtain ⟨x₄, gone, u₄, tr₄, -, -, hret⟩ := Prog.runs_perform_iff.mp hend
    cases (Prog.runs_ret_iff.mp hret).2.2
  · obtain ⟨-, rfl, -⟩ := Prog.runs_ret_iff.mp hend
    exact ⟨_, fs₁, _, hlinked, hmoved⟩

/-- The name is new, or it is replaced. -/
theorem hardlinkCreate_created
    (h : (hardlinkCreate who primary link).Runs (answer who) w tr v .created) :
    w.fs.link (resolve primary) (resolve link) = .ok v.fs ∨
      (w.fs.entry (resolve link)).isSome = true ∧
        ∃ t fs emptyTarget, w.fs.link (resolve primary) t = .ok fs ∧
          fs.rename t (resolve link) emptyTarget = .ok v.fs := by
  obtain ⟨x, linked, u, rest, hlink, rfl, hrun⟩ := Prog.runs_perform_iff.mp h
  rcases answer_link hlink with ⟨e, rfl, -⟩ | ⟨fs, rfl, hlinked, rfl⟩
  · cases e with
    | eexist =>
      obtain ⟨rfl, hb⟩ := answer_link_eexist hlink
      exact .inr ⟨hb, replaceLink_created hrun⟩
    | _ => exact absurd (Prog.runs_ret_iff.mp hrun).2.2.symm (linkFailure_ne_created _)
  · obtain ⟨-, rfl, -⟩ := Prog.runs_ret_iff.mp hrun
    exact .inl hlinked

/-- The local copy replaces one name unless the name already is a link to the primary. -/
theorem hardlinkCreate_relinks (ht : w.fs.Tree)
    (h : (hardlinkCreate who primary link).Runs (answer who) w tr v .created) :
    Relinked w.fs v.fs (resolve primary) (resolve link) ↔
      w.fs.entry (resolve link) ≠ w.fs.entry (resolve primary) := by
  rcases hardlinkCreate_created h with hlinked | ⟨hb, t, fs, emptyTarget, hlinked, hmoved⟩
  · refine iff_of_true (relinked_of_link hlinked) ?_
    obtain ⟨hfree, hfile, -⟩ := Fs.link_eq_ok hlinked
    obtain ⟨i, hi, -⟩ := Fs.isFile_iff.mp hfile
    simp [hfree, hi]
  · exact relinked_iff_of_rename ht hb hlinked hmoved

end Local

def StatFails : Event → Prop
  | ⟨.stat _, (r : Except Errno (ℕ × Node))⟩ => r.isOk = false
  | ⟨.lstat _, (r : Except Errno (ℕ × Node))⟩ => r.isOk = false
  | _ => False

/-- The directory of the name `b` is there, and when `b` is there as well, then the
comparison of the server sees whether it is a link to the primary at `a`. A primary that
is a symlink is compared by what it points to. -/
structure Compared (fs : Fs) (tr : List Event) (a b : Loc) : Prop where
  parent : fs.parentError b = none
  seen : (fs.entry b).isSome = true →
    (fs.entry b = fs.entry a ↔ statIno fs a = fs.entry b ∧ ∀ e ∈ tr, ¬ StatFails e)

section Server
variable {cfg : Config} {who : Identity} {w v : World} {x : Choice} {tr : List Event}

theorem sameInode_iff {primary name : Bytes} {same : Bool}
    (hb : (w.fs.entry (resolve name)).isSome = true)
    (h : (sameInode primary name).Runs (answer who) w tr v same) :
    v = w ∧ (same = true ↔
      statIno w.fs (resolve primary) = w.fs.entry (resolve name) ∧ ∀ e ∈ tr, ¬ StatFails e) := by
  obtain ⟨x, found, u, rest, hstat, rfl, hrun⟩ := Prog.runs_perform_iff.mp h
  obtain rfl := query_eq (Option.some.inj hstat)
  cases found with
  | error e =>
    obtain ⟨rfl, rfl, rfl⟩ := Prog.runs_ret_iff.mp hrun
    exact ⟨rfl, iff_of_false (by simp) fun hall => hall.2 _ List.mem_cons_self rfl⟩
  | ok found =>
    obtain ⟨i, n⟩ := found
    obtain ⟨y, named, z, last, hname, rfl, hret⟩ := Prog.runs_perform_iff.mp hrun
    obtain rfl := query_eq (Option.some.inj hname)
    cases named with
    | error e =>
      obtain ⟨rfl, rfl, rfl⟩ := Prog.runs_ret_iff.mp hret
      exact ⟨rfl, iff_of_false (by simp) fun hall =>
        hall.2 ⟨.lstat name, .error e⟩ (by simp) rfl⟩
    | ok named =>
      obtain ⟨j, m⟩ := named
      obtain ⟨rfl, rfl, rfl⟩ := Prog.runs_ret_iff.mp hret
      refine ⟨rfl, ?_⟩
      rw [answer_stat hstat, (lstat_found hname).1]
      constructor
      · intro heq
        refine ⟨by rw [beq_iff_eq.mp heq], ?_⟩
        simp [StatFails, Except.isOk, Except.toBool]
      · rintro ⟨heq, -⟩
        exact beq_iff_eq.mpr (Option.some.inj heq)

variable {dir : Bytes}

theorem existingPathIsDir_quiet (h : (existingPathIsDir dir).Runs (answer who) w tr v none) :
    v = w ∧ ∀ e ∈ tr, ¬ StatFails e := by
  obtain ⟨x, found, u, rest, hstat, rfl, hrun⟩ := Prog.runs_perform_iff.mp h
  obtain rfl := query_eq (Option.some.inj hstat)
  cases found with
  | error e => cases (Prog.runs_ret_iff.mp hrun).2.2
  | ok n =>
    obtain ⟨rfl, rfl, -⟩ := Prog.runs_ret_iff.mp hrun
    exact ⟨rfl, by simp [StatFails, Except.isOk, Except.toBool]⟩

theorem settle_fs {r : Except Errno (Option UInt32)} {res : Option Errno}
    (h : (settle dir r).Runs (answer who) w tr v res) :
    v.fs = w.fs ∧ (∀ e ∈ tr, ¬ StatFails e) ∧ (res = none → r.isOk = true) := by
  cases r with
  | error e =>
    obtain ⟨x, u, s, rest, hx, rfl, hret⟩ := Prog.runs_perform_iff.mp h
    obtain ⟨-, rfl⟩ := Prod.mk.inj (Option.some.inj hx)
    obtain ⟨rfl, rfl, rfl⟩ := Prog.runs_ret_iff.mp hret
    exact ⟨rfl, by simp [StatFails], by simp⟩
  | ok mode =>
    obtain ⟨x, u, s, rest, hx, rfl, hret⟩ := Prog.runs_perform_iff.mp h
    obtain ⟨-, rfl⟩ := Prod.mk.inj (Option.some.inj hx)
    obtain ⟨rfl, rfl, rfl⟩ := Prog.runs_ret_iff.mp hret
    exact ⟨rfl, by simp [StatFails], by simp [Except.isOk, Except.toBool]⟩

/-- An existing directory is not made again. -/
theorem answer_mkdir_existing {mode : UInt32} {res : Except Errno Unit}
    (hdir : w.fs.isDir (resolve dir) = true) (hp : w.fs.parentError (resolve dir) = none)
    (hne : dir ≠ []) (h : answer who w x (.mkdir dir mode) = some (res, v)) :
    v = w ∧ ∃ e, res = .error e ∧ e ≠ .enoent := by
  have hadd : w.fs.add (resolve dir) (newNode who .directory mode) = .error .eexist := by
    obtain ⟨i, hi, -⟩ := Fs.isDir_iff_entry.mp hdir
    unfold Fs.add
    by_cases hnil : resolve dir = []
    · rw [if_pos hnil]
    · rw [if_neg hnil, hp]
      simp [hi]
  have heq := Option.some.inj h
  simp only [World.change, World.withLoc, locate, if_neg hne, hadd] at heq
  split at heq
  · rename_i f hf
    obtain ⟨rfl, rfl⟩ := Prod.mk.inj heq
    exact ⟨rfl, _, rfl, f.errno_ne_enoent⟩
  · obtain ⟨rfl, rfl⟩ := Prod.mk.inj heq
    exact ⟨rfl, _, rfl, by simp⟩

theorem ensureDir_existing {mode : UInt32} (hdir : w.fs.isDir (resolve dir) = true)
    (hp : w.fs.parentError (resolve dir) = none) (hne : dir ≠ [])
    (h : (ensureDirCachedMode dir mode).Runs (answer who) w tr v none) :
    v.fs = w.fs ∧ ∀ e ∈ tr, ¬ StatFails e := by
  obtain ⟨x, claim, u, rest, hclaim, rfl, hrun⟩ := Prog.runs_perform_iff.mp h
  have hu : u.fs = w.fs := answer_claimDir hclaim
  cases claim with
  | ready =>
    obtain ⟨rfl, rfl, -⟩ := Prog.runs_ret_iff.mp hrun
    exact ⟨hu, by simp [StatFails]⟩
  | failed e => cases (Prog.runs_ret_iff.mp hrun).2.2
  | claimed =>
    obtain ⟨y, made, s, after, hmake, rfl, hend⟩ := Prog.runs_perform_iff.mp hrun
    obtain ⟨rfl, e, rfl, he⟩ :=
      answer_mkdir_existing (by rwa [hu]) (by rwa [hu]) hne hmake
    have hsettle : (mkdirOutcome dir mode (.error e) >>= settle dir).Runs
        (answer who) s after v none := by
      cases e with
      | enoent => exact absurd rfl he
      | _ => exact hend
    obtain ⟨first, last, z, outcome, rfl, hfirst, hlast⟩ := Prog.runs_bind_iff.mp hsettle
    obtain ⟨hv, hquiet, hok⟩ := settle_fs hlast
    have hz : z.fs = s.fs ∧ ∀ e ∈ first, ¬ StatFails e := by
      cases e with
      | eexist =>
        obtain ⟨b, c, y, found, rfl, hfound, hret⟩ := Prog.runs_bind_iff.mp hfirst
        cases found with
        | none =>
          obtain ⟨rfl, hnone⟩ := existingPathIsDir_quiet hfound
          obtain ⟨rfl, rfl, -⟩ := Prog.runs_ret_iff.mp hret
          exact ⟨rfl, by simpa using hnone⟩
        | some e =>
          obtain ⟨-, -, rfl⟩ := Prog.runs_ret_iff.mp hret
          exact absurd (hok rfl) (by simp [Except.isOk, Except.toBool])
      | _ =>
        obtain ⟨rfl, rfl, -⟩ := Prog.runs_ret_iff.mp hfirst
        exact ⟨rfl, by simp⟩
    refine ⟨(hv.trans hz.1).trans hu, ?_⟩
    simp only [List.mem_cons, List.mem_append]
    rintro ev (rfl | rfl | hev | hev)
    · exact id
    · exact id
    · exact hz.2 ev hev
    · exact hquiet ev hev

theorem renameOrDiscard_quiet {tmp base logged : Bytes}
    (h : (renameOrDiscard dir tmp base logged).Runs (answer who) w tr v ())
    (hquiet : ∀ e ∈ tr, ¬ Logs e) :
    ∃ emptyTarget, w.fs.rename (resolve (atDir dir tmp)) (resolve (atDir dir base)) emptyTarget =
      .ok v.fs := by
  obtain ⟨x, renamed, u, rest, hrename, rfl, hrun⟩ := Prog.runs_perform_iff.mp h
  rcases answer_rename hrename with ⟨e, rfl, -⟩ | ⟨fs, rfl, -, -, hmoved, rfl⟩
  · obtain ⟨y, r, s, last, -, rfl, -⟩ := Prog.runs_perform_iff.mp hrun
    exact absurd trivial (hquiet ⟨.logError logged e, r⟩ (by simp))
  · obtain ⟨-, rfl, -⟩ := Prog.runs_ret_iff.mp hrun
    exact ⟨_, hmoved⟩

theorem replaceByLink_relinks {primary base linkPath : Bytes} (ht : w.fs.Tree)
    (hb : (w.fs.entry (resolve (atDir dir base))).isSome = true)
    (h : (replaceByLink cfg primary dir base linkPath).Runs (answer who) w tr v ())
    (hquiet : ∀ e ∈ tr, ¬ Logs e) :
    Relinked w.fs v.fs (resolve primary) (resolve (atDir dir base)) ↔
      w.fs.entry (resolve (atDir dir base)) ≠ w.fs.entry (resolve primary) := by
  obtain ⟨x, n, u, rest, hseq, rfl, hrun⟩ := Prog.runs_perform_iff.mp h
  obtain ⟨rfl, rfl⟩ := Prod.mk.inj (Option.some.inj hseq)
  obtain ⟨y, linked, s, last, hlink, rfl, hend⟩ := Prog.runs_perform_iff.mp hrun
  rcases answer_link hlink with ⟨e, rfl, -⟩ | ⟨fs, rfl, hlinked, rfl⟩
  · obtain ⟨ev, hev, hlog⟩ := not_quiet hend
    exact absurd hlog (hquiet ev (by simp [hev]))
  · obtain ⟨emptyTarget, hmoved⟩ :=
      renameOrDiscard_quiet hend fun ev hev => hquiet ev (by simp [hev])
    exact relinked_iff_of_rename ht hb hlinked hmoved

/-- The part of `handle_link` that works in the directory of the link. -/
def linkAt (cfg : Config) (primary dir base linkPath : Bytes) : Handler Unit := do
  match ← Sys.link primary (atDir dir base) with
  | .ok _ => return
  | .error .eexist =>
    if ← sameInode primary (atDir dir base) then return
    else replaceByLink cfg primary dir base linkPath
  | .error e => Sys.logError linkPath e

theorem linkAt_relinks {primary base linkPath : Bytes} (ht : w.fs.Tree)
    (h : (linkAt cfg primary dir base linkPath).Runs (answer who) w tr v ())
    (hquiet : ∀ e ∈ tr, ¬ Logs e) :
    Relinked w.fs v.fs (resolve primary) (resolve (atDir dir base)) ↔
      ((w.fs.entry (resolve (atDir dir base))).isSome = true →
        (w.fs.entry (resolve (atDir dir base)) = w.fs.entry (resolve primary) ↔
          statIno w.fs (resolve primary) = w.fs.entry (resolve (atDir dir base)) ∧
            ∀ e ∈ tr, ¬ StatFails e)) := by
  obtain ⟨x, linked, u, rest, hlink, rfl, hrun⟩ := Prog.runs_perform_iff.mp h
  rcases answer_link hlink with ⟨e, rfl, -⟩ | ⟨fs, rfl, hlinked, rfl⟩
  · by_cases he : e = .eexist
    · subst he
      obtain ⟨rfl, hb⟩ := answer_link_eexist hlink
      obtain ⟨before, after, z, same, rfl, hsame, hend⟩ := Prog.runs_bind_iff.mp hrun
      obtain ⟨rfl, hiff⟩ := sameInode_iff hb hsame
      cases same with
      | true =>
        obtain ⟨rfl, rfl, -⟩ := Prog.runs_ret_iff.mp hend
        have hfound := hiff.mp rfl
        have hall : ∀ ev ∈ (⟨.link primary (atDir dir base), .error .eexist⟩ :: (before ++ []) :
            List Event), ¬ StatFails ev := by
          intro ev hev
          rcases List.mem_cons.mp hev with rfl | hev
          · exact id
          · exact hfound.2 ev (by simpa using hev)
        constructor
        · intro hre _
          obtain ⟨i, hia, hib⟩ := hre.linked
          exact iff_of_true (hib.trans hia.symm) ⟨hfound.1, hall⟩
        · intro hseen
          have heq := (hseen hb).mpr ⟨hfound.1, hall⟩
          obtain ⟨i, hi⟩ := Option.isSome_iff_exists.mp hb
          exact ⟨⟨i, heq ▸ hi, hi⟩, fun _ _ => rfl⟩
      | false =>
        rw [replaceByLink_relinks ht hb hend fun ev hev => hquiet ev (by simp [hev])]
        have hnot : ¬ (statIno z.fs (resolve primary) = z.fs.entry (resolve (atDir dir base)) ∧
            ∀ ev ∈ (⟨.link primary (atDir dir base), .error .eexist⟩ :: (before ++ after) :
              List Event), ¬ StatFails ev) := by
          rintro ⟨heq, hall⟩
          exact Bool.false_ne_true (hiff.mpr ⟨heq, fun ev hev => hall ev (by simp [hev])⟩)
        constructor
        · exact fun hne _ => iff_of_false hne hnot
        · exact fun hseen heq => hnot ((hseen hb).mp heq)
    · have hlog : (Sys.logError linkPath e).Runs (answer who) u rest v () := by
        cases e with
        | eexist => exact absurd rfl he
        | _ => exact hrun
      obtain ⟨ev, hev, hlogs⟩ := not_quiet hlog
      exact absurd hlogs (hquiet ev (by simp [hev]))
  · obtain ⟨-, rfl, -⟩ := Prog.runs_ret_iff.mp hrun
    refine iff_of_true (relinked_of_link hlinked) ?_
    simp [(Fs.link_eq_ok hlinked).1]

/-- When only one name is replaced, its directory was there before. -/
theorem Relinked.parent {fs fs' : Fs} {a b : Loc} (h : Relinked fs fs' a b) (ht : fs.Tree)
    (ht' : fs'.Tree) (hl : Lasting fs fs') : fs.parentError b = none := by
  rw [Fs.parentError_eq_none_iff]
  intro d hd
  by_cases hdb : d = b
  · have hnil : d = [] := by
      rcases b.eq_nil_or_concat' with rfl | ⟨init, c, rfl⟩
      · exact hdb
      · have hlen := hd.length_le
        simp [hdb] at hlen
    rw [hnil]
    exact ht.top
  · obtain ⟨i, -, hi⟩ := h.linked
    obtain ⟨j, hj, hjd⟩ := Fs.isDir_iff_entry.mp (ht'.parents b (by simp [hi]) d hd)
    rw [h.others d hdb] at hj
    exact Fs.isDir_iff_entry.mpr ⟨j, hj, (hl.dirs j (ht.bounded d j hj)) ▸ hjd⟩

/-- The server replaces one name when the directory is there and its comparison is right. -/
theorem handleLink_relinks {payload primaryIn linkIn : Bytes} (ht : w.fs.Tree)
    (hdec : decodeLink payload = some (primaryIn, linkIn))
    (h : (handleLink cfg payload).Runs (answer who) w tr v ()) (hquiet : ∀ e ∈ tr, ¬ Logs e) :
    Relinked w.fs v.fs (resolve primaryIn) (resolve linkIn) ↔
      Compared w.fs tr (resolve primaryIn) (resolve linkIn) := by
  have hloud : ∀ {s : World} {rest : List Event} {p : Bytes} {e : Errno},
      (Sys.logError p e).Runs (answer who) s rest v () → (∀ ev ∈ rest, ev ∈ tr) → False := by
    intro s rest p e hrun hsub
    obtain ⟨ev, hev, hlog⟩ := not_quiet hrun
    exact hquiet ev (hsub ev hev) hlog
  have hlast := lasting_of_runs h
  have htree := tree_of_runs h ht
  unfold handleLink at h
  rw [hdec] at h
  dsimp only at h
  cases hpri : resolvePath cfg.root primaryIn with
  | error e =>
    rw [hpri] at h
    exact (hloud h fun _ => id).elim
  | ok primary =>
  cases hlnk : resolvePath cfg.root linkIn with
  | error e =>
    rw [hpri, hlnk] at h
    exact (hloud h fun _ => id).elim
  | ok linkPath =>
  rw [hpri, hlnk] at h
  obtain ⟨hdir, hat, -⟩ := resolve_split hlnk
  rw [← resolve_norm hpri]
  obtain ⟨before, rest, u, made, rfl, hensure, hrun⟩ := Prog.runs_bind_iff.mp h
  cases made with
  | some e => exact (hloud hrun fun _ hev => List.mem_append_right _ hev).elim
  | none =>
  obtain ⟨x, opened, s, last, hopen, rfl, hend⟩ := Prog.runs_perform_iff.mp hrun
  obtain rfl := query_eq (Option.some.inj hopen)
  cases opened with
  | error e => exact (hloud hend fun _ hev => by simp [hev]).elim
  | ok _ =>
  by_cases hp : w.fs.parentError (resolve linkIn) = none
  · have hdirs := Fs.parentError_eq_none_iff.mp hp
    have hresolve : resolve (splitDirBase linkPath).1 = (resolve linkIn).dropLast := by
      rw [hdir, resolve_render_dropLast]
    obtain ⟨hs, hstat⟩ := ensureDir_existing
      (by rw [hresolve]; exact hdirs _ (List.prefix_refl _))
      (by
        rw [hresolve, Fs.parentError_eq_none_iff]
        exact fun d hd => hdirs d (hd.trans (List.dropLast_prefix _)))
      (hdir ▸ render_ne_nil _) hensure
    have hlink := linkAt_relinks (hs ▸ ht) hend fun ev hev => hquiet ev (by simp [hev])
    rw [hs, hat] at hlink
    rw [hlink]
    have hall : (∀ ev ∈ before ++ ⟨.openDir (splitDirBase linkPath).1, .ok ()⟩ :: last,
        ¬ StatFails ev) ↔ ∀ ev ∈ last, ¬ StatFails ev := by
      constructor
      · exact fun hev ev hmem => hev ev (by simp [hmem])
      · intro hev ev hmem
        rcases List.mem_append.mp hmem with hmem | hmem
        · exact hstat ev hmem
        · rcases List.mem_cons.mp hmem with rfl | hmem
          · exact id
          · exact hev ev hmem
    rw [← hall]
    exact ⟨fun hseen => ⟨hp, hseen⟩, fun hc => hc.seen⟩
  · refine iff_of_false (fun hre => hp ?_) fun hc => hp hc.parent
    rw [resolve_norm hpri] at hre
    exact hre.parent ht htree hlast

end Server

/-- Both link functions replace exactly one name outside of the cases that are told apart
here. For the local copy that case is the ordinary one of a tree that is copied again. -/
theorem replaces_one_name (cfg : Config) (w v : World) (tr : List Event) (ht : w.fs.Tree) :
    (∀ primary link, (hardlinkCreate cfg.who primary link).Runs (answer cfg.who) w tr v .created →
      (Relinked w.fs v.fs (resolve primary) (resolve link) ↔
        w.fs.entry (resolve link) ≠ w.fs.entry (resolve primary))) ∧
    ∀ payload primary link, decodeLink payload = some (primary, link) →
      (handleLink cfg payload).Runs (answer cfg.who) w tr v () → (∀ e ∈ tr, ¬ Logs e) →
      (Relinked w.fs v.fs (resolve primary) (resolve link) ↔
        Compared w.fs tr (resolve primary) (resolve link)) :=
  ⟨fun _ _ h => hardlinkCreate_relinks ht h,
    fun _ _ _ hdec h hquiet => handleLink_relinks ht hdec h hquiet⟩

/-- `/a` is a file, and `/b` a file with the inode `second`. -/
def twoNames (second : ℕ) : Fs :=
  .flat [([97], 1), ([98], second)]
    (fun i => ⟨if i = 0 then .directory else .regular [], 0x1ED, 0, 0, (0, 0), (0, 0)⟩) 3

theorem twoNames_tree {second : ℕ} (h : second < 3) : (twoNames second).Tree := by
  refine Fs.flat_tree rfl (by decide) ?_
  simp [h]

def linker : Config where
  root := [47]
  who := ⟨0, 0, [], 1⟩
  hello := ⟨Remote.Handshake.terse, [47], true⟩
  hash := fun _ => []

theorem exists_link_run {second : ℕ} (h : second = 1 ∨ second = 2) : ∃ tr v,
    (hardlinkCreate linker.who [47, 97] [47, 98]).Runs (answer linker.who)
      (.initial (twoNames second)) tr v .created := by
  have hplay : ((hardlinkCreate linker.who [47, 97] [47, 98]).play (answer linker.who)
      (.initial (twoNames second)) (List.replicate 4 ⟨none, 0, false⟩)).map (·.2.2) =
        some .created := by
    rcases h with rfl | rfl
    · decide +kernel
    · decide +kernel
  obtain ⟨⟨tr, v, a⟩, hout, rfl⟩ := Option.map_eq_some_iff.mp hplay
  exact ⟨tr, v, Prog.runs_of_play hout⟩

/-- `/b` is replaced by a link to `/a`. -/
theorem replaces_one_name_files : ∃ tr v,
    (hardlinkCreate linker.who [47, 97] [47, 98]).Runs (answer linker.who)
      (.initial (twoNames 2)) tr v .created ∧
      Relinked (twoNames 2) v.fs (resolve [47, 97]) (resolve [47, 98]) := by
  obtain ⟨tr, v, hrun⟩ := exists_link_run (.inr rfl)
  exact ⟨tr, v, hrun, ((replaces_one_name linker _ v tr (twoNames_tree (by decide))).1 _ _ hrun).mpr
    (by decide)⟩

/-- When `/b` is a link to `/a` already, something else changes. -/
theorem relink_leaves_temp : ¬ ∀ (who : Identity) (w v : World) tr primary link, w.fs.Tree →
    (hardlinkCreate who primary link).Runs (answer who) w tr v .created →
      Relinked w.fs v.fs (resolve primary) (resolve link) := by
  intro hclaim
  obtain ⟨tr, v, hrun⟩ := exists_link_run (.inl rfl)
  have htree : (twoNames 1).Tree := twoNames_tree (by decide)
  have hre := hclaim _ _ v tr _ _ htree hrun
  exact (hardlinkCreate_relinks htree hrun).mp hre (by decide)

end Ecopy.HardLinks
