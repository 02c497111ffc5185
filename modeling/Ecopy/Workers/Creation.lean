import Ecopy.Metadata.Untouched
import Ecopy.Server.DirectOpens
import Ecopy.Workers.Access

/-!
# Destinations that are created for direct I/O

A file system can refuse an open with `O_DIRECT`, before or after it has made the file. A file
that is left behind is removed when its name is a temporary one. Under the final name it stays,
and the open that follows finds it, with the mode of the first.
-/
namespace Ecopy.Workers.Creation
open Protocol Ecopy.Path FileSystem Server Lib.Calls
open SmallCopy OtherCopies Events CallsMade Metadata Contents Access

/-- What a file system makes of `O_DIRECT`: it refuses the open, with or without a file that is
left behind, it opens the file but the descriptor cannot be switched, or it does both. -/
inductive DirectIo where
  | refused (left : Bool)
  | unswitched
  | active
deriving DecidableEq, Repr

def DirectIo.refuses : DirectIo → Bool
  | .refused _ => true
  | _ => false

def DirectIo.leaves : DirectIo → Bool
  | .refused left => left
  | _ => false

/-- An answer after which the open is tried without `O_DIRECT`. -/
def fellBack : Event → Bool
  | ⟨.openFile _ _ _, (.error e : Except Errno Fd)⟩ => directIoFallbackErrno e
  | ⟨.fstat _, (.error e : Except Errno (ℕ × Node))⟩ => directIoFallbackErrno e
  | _ => false

/-- The switch of a descriptor that was opened with `O_DIRECT`. -/
def switched (done : Bool) : Event → Bool
  | ⟨.attempt, (r : Bool)⟩ => r == done
  | _ => false

/-- The calls that opened a file met this kind of file system. -/
def DirectIo.Met (tr : List Event) : DirectIo → Prop
  | .refused _ => tr.any (switched true) = false ∧ tr.any (switched false) = false
  | .unswitched => tr.any (switched true) = false ∧ tr.any fellBack = false
  | .active => tr.any (switched false) = false ∧ tr.any fellBack = false

theorem DirectIo.Met.append {dst : DirectIo} {before after : List Event} (h : dst.Met before) (h' : dst.Met after) :
    dst.Met (before ++ after) := by
  cases dst with
  | refused | unswitched | active =>
    simp only [DirectIo.Met, List.any_append, Bool.or_eq_false_iff]
    exact ⟨⟨h.1, h'.1⟩, ⟨h.2, h'.2⟩⟩

/-- The world in which a destination answers a call. -/
def creationWorld (left : Bool) (who : Identity) (w : World) (x : Choice) : Call → World
  | .openFile path flags mode =>
    if left && flags.create && flags.direct && x.fault.any (directIoFallbackErrno ·.errno) then
      w.makeFirst who path mode
    else w
  | _ => w

/-- The kernel of a destination that leaves a file behind when it refuses direct I/O, or not. -/
def answerCreating (left : Bool) (who : Identity) (w : World) (x : Choice) (c : Call) :
    Option (c.Result × World) :=
  answerAccess who (creationWorld left who w x c) x c

/-- The destination gets the scratch mode: it is opened with `O_DIRECT`, or in place a refused
open has left it. -/
def MadeForDirect (cfg : Tuning) (t : Task) (dst : DirectIo) (inplace : Bool) : Prop :=
  cfg.writeDirect = true ∧ directIoWorthwhile cfg t.size = true ∧
    (dst.refuses = true → inplace = true ∧ dst.leaves = true)

/-- Nothing is created for direct I/O. -/
def Plain : Call → Prop
  | .openFile _ flags _ => flags.direct = false
  | _ => True

section Kernel
variable {left : Bool} {who : Identity} {w v : World} {x : Choice} {tr : List Event}

theorem creating_plain {c : Call} (hc : Plain c) :
    answerCreating left who w x c = answerAccess who w x c := by
  cases c with
  | openFile path flags mode =>
    have hno : flags.direct = false := hc
    simp [answerCreating, creationWorld, hno]
  | _ => rfl

theorem creating_false (who : Identity) (w : World) (x : Choice) (c : Call) :
    answerCreating false who w x c = answerAccess who w x c := by
  cases c <;> rfl

/-- A call is answered as elsewhere, or it is an open that is refused and leaves a file. -/
theorem creating_cases {c : Call} {r : c.Result} (h : answerCreating left who w x c = some (r, v)) :
    answerAccess who w x c = some (r, v) ∨
      ∃ path flags mode e fs, c = .openFile path flags mode ∧ HEq r (.error e : Except Errno Fd) ∧
        directIoFallbackErrno e = true ∧
        w.fs.add (resolve path) (newNode who (.regular []) mode) = .ok fs ∧
        v = { w with fs := fs, touched := w.touched ++ [path] } := by
  cases c with
  | openFile path flags mode =>
    by_cases hleft : (left && flags.create && flags.direct &&
        x.fault.any (directIoFallbackErrno ·.errno)) = true
    swap
    · simp only [answerCreating, creationWorld, if_neg hleft] at h
      exact .inl h
    simp only [answerCreating, creationWorld, if_pos hleft] at h
    rcases w.makeFirst_cases who path mode with hsame | ⟨fs, hadd, hmade⟩
    · rw [hsame] at h
      exact .inl h
    obtain ⟨f, hf, he⟩ := (Option.any_eq_true _ _).mp (Bool.and_eq_true_iff.mp hleft).2
    have hno : ¬ (x.fault = none ∨ x.fault = some .access) := by
      rw [hf]
      rintro (hnone | haccess)
      · cases hnone
      · obtain rfl := Option.some.inj haccess
        cases he
    rw [hmade] at h
    simp only [answerAccess, if_neg hno] at h
    have herr : answer who { w with fs := fs, touched := w.touched ++ [path] } x
        (.openFile path flags mode) =
          some (.error f.errno, { w with fs := fs, touched := w.touched ++ [path] }) := by
      simp only [answer, World.change, hf]
      rfl
    obtain ⟨rfl, rfl⟩ := Prod.mk.inj (Option.some.inj (herr.symm.trans (answer_of_plain rfl h)))
    exact .inr ⟨path, flags, mode, f.errno, fs, rfl, .rfl, he, hadd, rfl⟩
  | _ => exact .inl h

variable {path : Bytes}

/-- A refusal of direct I/O is the choice of the environment. -/
theorem fault_of_fallback {flags : Fs.OpenFlags} {mode : UInt32} {e : Errno}
    (he : directIoFallbackErrno e = true)
    (h : answerAccess who w x (.openFile path flags mode) = some (.error e, v)) :
    x.fault.any (directIoFallbackErrno ·.errno) = true ∧ v = w := by
  have hkernel : ∀ y : Choice, answerIds who w y (.openFile path flags mode) = some (.error e, v) →
      y.fault.any (directIoFallbackErrno ·.errno) = true ∧ v = w := by
    intro y hy
    have hout := Option.some.inj (answer_of_plain rfl hy)
    simp only [World.change] at hout
    split at hout
    · rename_i f hf
      obtain ⟨herr, rfl⟩ := Prod.mk.inj hout
      obtain rfl := Except.error.inj herr
      rw [hf]
      exact ⟨he, rfl⟩
    · split at hout
      · rename_i e' hopen
        obtain rfl := Except.error.inj (Prod.mk.inj hout).1
        split at hopen
        · rename_i e'' hlocate
          obtain rfl := Except.error.inj hopen
          unfold locate at hlocate
          split at hlocate <;> cases hlocate
          cases he
        · split at hopen
          · rename_i e'' hfile
            obtain rfl := Except.error.inj hopen
            rw [(openFile_error hfile).2] at he
            cases he
          · cases hopen
      · cases (Prod.mk.inj hout).1
  simp only [answerAccess] at h
  split_ifs at h with hx hdenied
  · obtain rfl := Except.error.inj (Prod.mk.inj (Option.some.inj h)).1
    cases he
  · obtain ⟨hno, -⟩ := hkernel _ h
    cases hno
  · exact hkernel x h

/-- The file is left behind, where one can be made. -/
theorem makeFirst_of_refused {inplace : Bool} {mode : UInt32} {e : Errno}
    (he : directIoFallbackErrno e = true)
    (h : answerCreating true who w x (.openFile path (createFlags inplace true) mode) =
      some (.error e, v)) : v = w.makeFirst who path mode := by
  obtain ⟨hfault, hv⟩ := fault_of_fallback he h
  rw [hv]
  simp [creationWorld, createFlags, hfault]

/-- An open that succeeds is one of any file system. -/
theorem creating_ok {flags : Fs.OpenFlags} {mode : UInt32} {fd : Fd}
    (h : answerCreating left who w x (.openFile path flags mode) = some (.ok fd, v)) :
    ∃ y, answerIds who w y (.openFile path flags mode) = some (.ok fd, v) := by
  rcases creating_cases h with h | ⟨-, -, -, e, fs, -, herr, -⟩
  · exact exists_answerIds h
  · cases eq_of_heq herr

theorem access_of_creating {α : Type} {m : Handler α} {a : α} (hm : m.Keeps Plain fun _ _ => True)
    (h : m.Runs (answerCreating left who) w tr v a) : m.Runs (answerAccess who) w tr v a := by
  induction h with
  | ret => exact .ret _ _
  | call x hx _ ih => exact .call x ((creating_plain hm.1).symm.trans hx) (ih (hm.2 _ trivial))

theorem creating_of_access {α : Type} {m : Handler α} {a : α} (hm : m.Keeps Plain fun _ _ => True)
    (h : m.Runs (answerAccess who) w tr v a) : m.Runs (answerCreating left who) w tr v a := by
  induction h with
  | ret => exact .ret _ _
  | call x hx _ ih => exact .call x ((creating_plain hm.1).trans hx) (ih (hm.2 _ trivial))

theorem keepTarget_ids {direct : Bool} {opened : Except Errno Fd} {res : Except Errno Target}
    (h : (keepTarget path direct opened).Runs (answerCreating left who) w tr v res) :
    (keepTarget path direct opened).Runs (answerIds who) w tr v res :=
  ids_of_access (access_of_creating
    (keeps_keepTarget trivial (fun _ => trivial) (fun _ => trivial) _ _ opened) h)

end Kernel

section Opening
variable {who : Identity} {cfg : Tuning} {t : Task} {w v u : World} {tr : List Event} {target : Target}
  {dst : DirectIo} {left : Bool} {path : Bytes} {mode : UInt32} {x : Choice}

/-- A new file belongs to the user and has the mode it was made with. -/
theorem owned_new (hino : target.fd.ino = w.fs.next)
    (hfs : v.fs = w.fs.create (resolve target.path) (newNode who (.regular []) mode)) :
    Owned who v target mode := by
  have hmask : (0xFFF : UInt32) &&& 0x1FF = 0x1FF := rfl
  constructor
  · rw [hfs, hino]
    exact Function.update_self ..
  · simp [hfs, hino, Fs.create, newNode, Node.isDir]
  · simp [hfs, hino, Fs.create, newNode]
  · simp [hfs, hino, Fs.create, newNode, UInt32.and_assoc, hmask]

variable {flags : Fs.OpenFlags} {opened : Except Errno Fd}
variable {direct : Bool}

theorem keepTarget_owned {inplace bypass : Bool} (hfree : w.fs.entry (resolve path) = none)
    (hopen : answerIds who w x (.openFile path (createFlags inplace bypass) mode) = some (opened, u))
    (h : (keepTarget path direct opened).Runs (answerIds who) u tr v (.ok target)) :
    Owned who v target mode := by
  cases opened with
  | error e => cases (Prog.runs_ret_iff.mp h).2.2
  | ok fd =>
  obtain ⟨hfs, rfl, rfl, -, -⟩ := keepTarget_ok h
  rcases answer_openFile hopen with ⟨e, herr, -⟩ | ⟨j, fs, -, -, heq, hopened, rfl⟩
  · cases herr
  obtain ⟨-, ⟨-, -, rfl, rfl⟩ | ⟨hi, -⟩⟩ := Fs.openFile_eq_ok hopened
  · exact owned_new (by rw [Except.ok.inj heq]) hfs
  · rw [hfree] at hi
    cases hi

/-- A file that is opened again is the one it was. -/
theorem keepTarget_found {found : Target} {m : UInt32} (ho : Owned who w found mode)
    (hopen : answerIds who w x (.openFile found.path flags m) = some (opened, u))
    (h : (keepTarget found.path direct opened).Runs (answerIds who) u tr v (.ok target)) :
    Owned who v target mode := by
  cases opened with
  | error e => cases (Prog.runs_ret_iff.mp h).2.2
  | ok fd =>
  obtain ⟨hfs, hpath, rfl, -, -⟩ := keepTarget_ok h
  rcases answer_openFile hopen with ⟨e, herr, -⟩ | ⟨j, fs, -, -, heq, hopened, rfl⟩
  · cases herr
  have hino : target.fd.ino = j := by rw [Except.ok.inj heq]
  have hentry := Fs.openFile_entry hopened
  obtain ⟨-, ⟨hnone, -⟩ | ⟨hi, -, hnode⟩⟩ := Fs.openFile_eq_ok hopened
  · rw [ho.entry] at hnone
    cases hnone
  obtain rfl : found.fd.ino = j := Option.some.inj (ho.entry.symm.trans hi)
  -- at most the data has changed
  have hsame : (fs.node found.fd.ino).isDir = (w.fs.node found.fd.ino).isDir ∧
      SameAccess (w.fs.node found.fd.ino) (fs.node found.fd.ino) := by
    rcases hnode with ⟨data, hk, rfl⟩ | ⟨-, -, rfl⟩
    · split
      · simp only [Fs.setNode, Function.update_self, Node.isDir, hk]
        exact ⟨rfl, rfl, rfl, rfl⟩
      · exact ⟨rfl, .refl _⟩
    · exact ⟨rfl, .refl _⟩
  obtain ⟨hdir, haccess⟩ := hsame
  constructor
  · rw [hfs, hpath, hino, hentry]
  · rw [hfs, hino, hdir, ho.isDir]
  · rw [hfs, hino, haccess.uid, ho.uid]
  · rw [hfs, hino, haccess.mode, ho.mode]

theorem keepTarget_buffered
    (h : (keepTarget path false opened).Runs (answerIds who) w tr v (.ok target)) :
    target.direct = false := by
  cases opened with
  | error e => cases (Prog.runs_ret_iff.mp h).2.2
  | ok fd =>
    obtain ⟨y, st, s, rest, -, -, hrun⟩ := Prog.runs_perform_iff.mp h
    cases st with
    | error e =>
      obtain ⟨z, closed, p, last, -, -, hret⟩ := Prog.runs_perform_iff.mp hrun
      cases (Prog.runs_ret_iff.mp hret).2.2
    | ok n =>
      change Prog.Runs _ (keepValidated path fd false (if Node.isRegular n.2 then
        .ok (n.2.mode &&& 0xFFF) else .error .eexist)) _ _ _ _ at hrun
      unfold keepValidated at hrun
      split at hrun
      · obtain ⟨z, closed, p, last, -, -, hret⟩ := Prog.runs_perform_iff.mp hrun
        cases (Prog.runs_ret_iff.mp hret).2.2
      · rw [Except.ok.inj (Prog.runs_ret_iff.mp hrun).2.2]

/-- A target is given up with an answer that was seen. -/
theorem keepTarget_fellBack {e : Errno} (he : directIoFallbackErrno e = true)
    (h : (keepTarget path direct opened).Runs (answerIds who) w tr v (.error e)) :
    (⟨.openFile path flags mode, opened⟩ :: tr : List Event).any fellBack = true := by
  cases opened with
  | error e' =>
    obtain rfl := Except.error.inj (Prog.runs_ret_iff.mp h).2.2
    simp [fellBack, he]
  | ok fd =>
    obtain ⟨before, after, s, done, rfl, -, hkeep⟩ := Prog.runs_bind_iff.mp h
    obtain ⟨mid, last, z, res, rfl, hvalid, hend⟩ := Prog.runs_bind_iff.mp hkeep
    cases res with
    | ok mode => cases (Prog.runs_ret_iff.mp hend).2.2
    | error e' =>
      obtain ⟨y, closed, p, rest, -, -, hret⟩ := Prog.runs_perform_iff.mp hend
      obtain rfl := Except.error.inj (Prog.runs_ret_iff.mp hret).2.2
      obtain ⟨z', st, q, tail, -, rfl, hret'⟩ := Prog.runs_perform_iff.mp hvalid
      cases st with
      | error e' =>
        obtain rfl := Except.error.inj (Prog.runs_ret_iff.mp hret').2.2
        simp [fellBack, he]
      | ok n =>
        have hkind := (Prog.runs_ret_iff.mp hret').2.2
        split at hkind
        · cases hkind
        · obtain rfl := Except.error.inj hkind
          cases he

/-- A descriptor that was opened with `O_DIRECT` is switched. -/
theorem keepTarget_switched {fd : Fd} {res : Except Errno Target}
    (h : (keepTarget path true (.ok fd)).Runs (answerIds who) w tr v res) :
    tr.any (switched true) = true ∨ tr.any (switched false) = true := by
  obtain ⟨y, done, s, rest, -, rfl, -⟩ := Prog.runs_perform_iff.mp h
  cases done with
  | true => exact .inl rfl
  | false => exact .inr rfl

/-- The scratch mode, or the mode of a file that goes through the page cache. -/
def MadeWith (who : Identity) (cfg : Tuning) (t : Task) (dst : DirectIo) (inplace : Bool)
    (buffered : UInt32) (v : World) (target : Target) : Prop :=
  Owned who v target (copyDataMode t.attr.mode) ∨
    Owned who v target buffered ∧ target.direct = false ∧ ¬ MadeForDirect cfg t dst inplace

theorem createTempAt_madeWith {buffered : UInt32} {attempts : ℕ}
    (hmet : MadeForDirect cfg t dst false → tr.any fellBack = false)
    (h : (createTempAt buffered who cfg t attempts).Runs (answerCreating left who) w tr v
      (some target)) : MadeWith who cfg t dst false buffered v target := by
  induction attempts generalizing w tr with
  | zero => cases (Prog.runs_ret_iff.mp h).2.2
  | succ attempts ih =>
  obtain ⟨x, n, u, rest, -, rfl, hrun⟩ := Prog.runs_perform_iff.mp h
  have hrest : MadeForDirect cfg t dst false → rest.any fellBack = false := by
    intro hopens
    have hall := hmet hopens
    simp only [List.any_cons, Bool.or_eq_false_iff] at hall
    exact hall.2
  have honce : ∀ {s z : World} {mid : List Event} {mode : UInt32} {direct : Bool} {made : Target},
      (openTempCreatedOnce (atDir t.dstDir (makeTempName who.pid n)) mode direct).Runs
        (answerCreating left who) s mid z (.ok made) →
      Owned who z made mode ∧ (direct = false → made.direct = false) := by
    intro s z mid mode direct made hopen
    obtain ⟨y, opened, s', last, hx, rfl, hkeep⟩ := Prog.runs_perform_iff.mp hopen
    have hkeep := keepTarget_ids hkeep
    cases opened with
    | error e => cases (Prog.runs_ret_iff.mp hkeep).2.2
    | ok fd =>
      obtain ⟨y', hy'⟩ := creating_ok hx
      refine ⟨keepTarget_owned ((open_startMode hy').2.2.2 rfl) hy' hkeep, ?_⟩
      rintro rfl
      exact keepTarget_buffered hkeep
  have hbuffered : ∀ {s : World} {last : List Event}, ¬ MadeForDirect cfg t dst false →
      (createBuffered (atDir t.dstDir (makeTempName who.pid n)) buffered
        (createTempAt buffered who cfg t attempts)).Runs (answerCreating left who) s last v
          (some target) → MadeWith who cfg t dst false buffered v target := by
    intro s last hnot hlast
    obtain ⟨before, after, z, opened, rfl, hopen, hend⟩ := Prog.runs_bind_iff.mp hlast
    cases opened with
    | ok made =>
      obtain ⟨-, rfl, heq⟩ := Prog.runs_ret_iff.mp hend
      obtain rfl := Option.some.inj heq
      obtain ⟨howned, hdirect⟩ := honce hopen
      exact .inr ⟨howned, hdirect rfl, hnot⟩
    | error e =>
      cases e with
      | eexist => exact ih (fun hopens => absurd hopens hnot) hend
      | _ => cases (Prog.runs_ret_iff.mp hend).2.2
  dsimp only at hrun
  split at hrun
  · obtain ⟨before, after, z, opened, rfl, hopen, hend⟩ := Prog.runs_bind_iff.mp hrun
    cases opened with
    | ok made =>
      obtain ⟨-, rfl, heq⟩ := Prog.runs_ret_iff.mp hend
      obtain rfl := Option.some.inj heq
      exact .inl (honce hopen).1
    | error e =>
      have hother : (createFallback (atDir t.dstDir (makeTempName who.pid n)) buffered e
          (createTempAt buffered who cfg t attempts)).Runs (answerCreating left who) z after v
            (some target) → MadeWith who cfg t dst false buffered v target := by
        intro hfall
        unfold createFallback at hfall
        split at hfall
        · rename_i he
          obtain ⟨y, gone, p, tail, -, rfl, hagain⟩ := Prog.runs_perform_iff.mp hfall
          refine hbuffered ?_ hagain
          intro hopens
          obtain ⟨y', opened, q, last, -, rfl, hkeep⟩ := Prog.runs_perform_iff.mp hopen
          have hseen := hrest hopens
          rw [List.any_append, keepTarget_fellBack he (keepTarget_ids hkeep)] at hseen
          cases hseen
        · cases (Prog.runs_ret_iff.mp hfall).2.2
      cases e with
      | eexist =>
        refine ih (fun hopens => ?_) hend
        have hall := hrest hopens
        simp only [List.any_append, Bool.or_eq_false_iff] at hall
        exact hall.2
      | _ => exact hother hend
  · rename_i hwanted
    apply hbuffered _ hrun
    rintro ⟨hwrite, hworth, -⟩
    exact hwanted (by rw [hwrite, hworth]; rfl)

/-- Where the mode lets the user in, the name is opened once. -/
theorem openFinal_once {res : Except Errno Target}
    (hallowed : denies who w.fs path (createFlags true direct) = false)
    (h : (openFinalCreatedOnce path mode direct).Runs (answerCreating left who) w tr v res) :
    ∃ x opened u rest,
      answerCreating left who w x (.openFile path (createFlags true direct) mode) =
        some (opened, u) ∧
      tr = ⟨.openFile path (createFlags true direct) mode, opened⟩ :: rest ∧
      (keepTarget path direct opened).Runs (answerIds who) u rest v res := by
  obtain ⟨x, opened, u, rest, hopen, rfl, hrun⟩ := Prog.runs_perform_iff.mp h
  have hkeep : (keepTarget path direct opened).Runs (answerCreating left who) u rest v res := by
    cases opened with
    | ok fd => exact hrun
    | error e =>
      cases e with
      | eacces =>
        rcases creating_cases hopen with hopen | ⟨-, -, -, e, fs, -, herr, he, -⟩
        · rw [(denied_of_eacces hopen).1] at hallowed
          cases hallowed
        · obtain rfl := Except.error.inj (eq_of_heq herr)
          cases he
      | _ => exact hrun
  exact ⟨x, opened, u, rest, hopen, rfl, keepTarget_ids hkeep⟩

theorem not_denied_of_free (hfree : w.fs.entry (resolve path) = none) :
    denies who w.fs path flags = false := by
  unfold denies
  split
  · rfl
  rename_i l hl
  obtain ⟨-, rfl⟩ := locate_ok hl
  simp only [lookup, hfree]
  split
  · rfl
  · rename_i heq
    split at heq <;> cases heq

/-- Where a file can be created, one can be left behind. -/
theorem makeFirst_ne {m : UInt32} {fd : Fd} (hs : w.fs.Sane)
    (hfree : w.fs.entry (resolve path) = none)
    (hopen : answerIds who w x (.openFile path flags m) = some (.ok fd, u)) :
    w.makeFirst who path mode ≠ w := by
  rcases answer_openFile hopen with ⟨e, herr, -⟩ | ⟨j, fs, -, hne, -, hopened, -⟩
  · cases herr
  have htop : resolve path ≠ [] := by
    intro hnil
    have hdir := hs.top
    rw [Fs.isDir, ← hnil, hfree] at hdir
    cases hdir
  have hadd : w.fs.add (resolve path) (newNode who (.regular []) mode) =
      .ok (w.fs.create (resolve path) (newNode who (.regular []) mode)) := by
    simp [Fs.add, htop, (Fs.openFile_eq_ok hopened).1, hfree]
  intro hsame
  have hentry := congrArg (fun z : World => z.fs.entry (resolve path)) hsame
  simp [World.makeFirst, World.withLoc, locate, hne, hadd, hfree, Fs.create] at hentry

/-- The open through the page cache finds nothing, or what the refused open has left. -/
theorem createFinal_madeWith (huser : who.euid ≠ 0) (hs : w.fs.Sane)
    (hfree : w.fs.entry (resolve t.dst) = none) (hmet : dst.Met tr)
    (h : (createFinalWriteAtMaybeDirect cfg t).Runs (answerCreating dst.leaves who) w tr v
      (some target)) :
    MadeWith who cfg t dst true (bufferedCreateMode t.attr.mode) v target := by
  have hlast : ∀ {s : World} {last : List Event},
      denies who s.fs t.dst (createFlags true false) = false →
      (do return (← openFinalCreatedOnce t.dst (bufferedCreateMode t.attr.mode) false).toOption :
        Handler (Option Target)).Runs (answerCreating dst.leaves who) s last v (some target) →
      ∃ y fd u rest, answerIds who s y
          (.openFile t.dst (createFlags true false) (bufferedCreateMode t.attr.mode)) =
            some (.ok fd, u) ∧
        (keepTarget t.dst false (.ok fd)).Runs (answerIds who) u rest v (.ok target) := by
    intro s last hallowed hlast
    obtain ⟨before, after, z, res, rfl, hfinal, hend⟩ := Prog.runs_bind_iff.mp hlast
    obtain ⟨-, rfl, hsome⟩ := Prog.runs_ret_iff.mp hend
    cases res with
    | error e => cases hsome
    | ok made =>
      obtain rfl := Option.some.inj hsome
      obtain ⟨y, opened, u, rest, hx, -, hkeep⟩ := openFinal_once hallowed hfinal
      cases opened with
      | error e => cases (Prog.runs_ret_iff.mp hkeep).2.2
      | ok fd =>
        obtain ⟨y', hy'⟩ := creating_ok hx
        exact ⟨y', fd, u, rest, hy', hkeep⟩
  have hbuffered : ∀ {last : List Event}, ¬ MadeForDirect cfg t dst true →
      (do return (← openFinalCreatedOnce t.dst (bufferedCreateMode t.attr.mode) false).toOption :
        Handler (Option Target)).Runs (answerCreating dst.leaves who) w last v (some target) →
      MadeWith who cfg t dst true (bufferedCreateMode t.attr.mode) v target := by
    intro last hnot hrun
    obtain ⟨y, fd, u, rest, hx, hkeep⟩ := hlast (not_denied_of_free hfree) hrun
    exact .inr ⟨keepTarget_owned hfree hx hkeep, keepTarget_buffered hkeep, hnot⟩
  unfold createFinalWriteAtMaybeDirect at h
  dsimp only at h
  split at h
  · obtain ⟨before, after, z, res, rfl, hfinal, hend⟩ := Prog.runs_bind_iff.mp h
    obtain ⟨y, opened, u, rest, hx, rfl, hkeep⟩ := openFinal_once (not_denied_of_free hfree) hfinal
    cases res with
    | ok made =>
      obtain ⟨-, rfl, hsome⟩ := Prog.runs_ret_iff.mp hend
      obtain rfl := Option.some.inj hsome
      cases opened with
      | error e => cases (Prog.runs_ret_iff.mp hkeep).2.2
      | ok fd =>
        obtain ⟨y', hy'⟩ := creating_ok hx
        exact .inl (keepTarget_owned hfree hy' hkeep)
    | error e =>
      dsimp only at hend
      split at hend
      swap
      · cases (Prog.runs_ret_iff.mp hend).2.2
      rename_i he
      obtain ⟨left, rfl⟩ : ∃ left, dst = .refused left := by
        cases dst with
        | refused left => exact ⟨left, rfl⟩
        | unswitched | active =>
          have hno := hmet.2
          rw [List.any_append, keepTarget_fellBack he hkeep] at hno
          cases hno
      cases opened with
      | ok fd =>
        obtain ⟨hyes, hno⟩ := hmet
        simp only [List.any_append, List.any_cons, Bool.or_eq_false_iff] at hyes hno
        rcases keepTarget_switched hkeep with hsw | hsw
        · rw [hyes.1.2] at hsw
          cases hsw
        · rw [hno.1.2] at hsw
          cases hsw
      | error e' =>
        obtain ⟨-, rfl, heq⟩ := Prog.runs_ret_iff.mp hkeep
        obtain rfl := Except.error.inj heq
        cases left with
        | false =>
          obtain ⟨-, rfl⟩ := fault_of_fallback he ((creating_false ..).symm.trans hx)
          exact hbuffered (fun hopens => Bool.false_ne_true (hopens.2.2 rfl).2) hend
        | true =>
          obtain rfl := makeFirst_of_refused he hx
          rcases w.makeFirst_cases who t.dst (copyDataMode t.attr.mode) with hsame | hmade
          · -- nothing can be made there
            rw [hsame] at hend
            obtain ⟨y', fd, u, rest, hagain, -⟩ := hlast (not_denied_of_free hfree) hend
            exact absurd hsame (makeFirst_ne hs hfree hagain)
          · obtain ⟨fs, hadd, hmade⟩ := hmade
            rw [hmade] at hend
            obtain ⟨-, rfl⟩ := add_eq_ok hadd
            have hleft : Owned who { w with
                fs := w.fs.create (resolve t.dst)
                  (newNode who (.regular []) (copyDataMode t.attr.mode)),
                touched := w.touched ++ [t.dst] }
                ⟨t.dst, ⟨t.dst, w.fs.next⟩, false, 0⟩ (copyDataMode t.attr.mode) :=
              owned_new rfl rfl
            have hallowed : denies who _ t.dst (createFlags true false) = false :=
              hleft.not_denied ((hleft.permits_iff huser true).mpr (copyDataMode_and _).1)
            obtain ⟨y', fd, u, rest, hagain, hkeep⟩ := hlast hallowed hend
            exact .inl (keepTarget_found hleft hagain hkeep)
  · rename_i hwanted
    apply hbuffered _ h
    rintro ⟨hwrite, hworth, -⟩
    exact hwanted (by rw [hwrite, hworth]; rfl)

end Opening

end Ecopy.Workers.Creation
