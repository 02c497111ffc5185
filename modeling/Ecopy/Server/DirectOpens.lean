import Ecopy.Server.Process

/-!
# Opens with direct I/O that are refused

`open` makes a new file before it finds out that the file system has no direct I/O, so that a
call that is refused may leave an empty file behind. The choice says how far a refused call has
got; nothing else changes.
-/
namespace Ecopy.Server
open Protocol Ecopy.Path FileSystem Lib.Calls

theorem add_eq_ok {fs fs' : Fs} {l : Loc} {n : Node} (h : fs.add l n = .ok fs') :
    fs.entry l = none ∧ fs' = fs.create l n := by
  unfold Fs.add at h
  split at h
  · cases h
  split at h
  · cases h
  split_ifs at h with hsome
  exact ⟨Option.not_isSome_iff_eq_none.mp hsome, (Except.ok.inj h).symm⟩

/-- An empty file at the path, where there is nothing. -/
def World.makeFirst (who : Identity) (w : World) (path : Bytes) (mode : UInt32) : World :=
  match World.withLoc path fun l => w.fs.add l (newNode who (.regular []) mode) with
  | .error _ => w
  | .ok (_, fs) => { w with fs := fs, touched := w.touched ++ [path] }

theorem World.makeFirst_cases (who : Identity) (w : World) (path : Bytes) (mode : UInt32) :
    w.makeFirst who path mode = w ∨
      ∃ fs, w.fs.add (resolve path) (newNode who (.regular []) mode) = .ok fs ∧
        w.makeFirst who path mode = { w with fs := fs, touched := w.touched ++ [path] } := by
  unfold World.makeFirst World.withLoc locate
  by_cases hpath : path = []
  · rw [if_pos hpath]
    exact .inl rfl
  rw [if_neg hpath]
  dsimp only
  cases hadd : w.fs.add (resolve path) (newNode who (.regular []) mode) with
  | error e => exact .inl rfl
  | ok fs => exact .inr ⟨fs, rfl, rfl⟩

/-- The world in which a call is answered. -/
def callWorld (who : Identity) (w : World) (x : Choice) : Call → World
  | .openFile path flags mode =>
    if flags.create && flags.direct && x.fault.isSome && x.progress ≠ 0 then
      w.makeFirst who path mode
    else w
  | _ => w

/-- The kernel that makes a file before it refuses direct I/O. -/
def answerDirect (who : Identity) (w : World) (x : Choice) (c : Call) : Option (c.Result × World) :=
  answer who (callWorld who w x c) x c

/-- A call is answered as before, or it is an open that is refused and leaves a file. -/
theorem answerDirect_cases {who : Identity} {w v : World} {x : Choice} {c : Call} {r : c.Result}
    (h : answerDirect who w x c = some (r, v)) :
    answer who w x c = some (r, v) ∨
      ∃ path flags mode fs e, c = .openFile path flags mode ∧ flags.create = true ∧
        flags.direct = true ∧ HEq r (.error e : Except Errno Fd) ∧
        w.fs.add (resolve path) (newNode who (.regular []) mode) = .ok fs ∧
        v = { w with fs := fs, touched := w.touched ++ [path] } := by
  cases c with
  | openFile path flags mode =>
    by_cases hleft : (flags.create && flags.direct && x.fault.isSome && x.progress ≠ 0) = true
    · simp only [answerDirect, callWorld, if_pos hleft] at h
      simp only [Bool.and_eq_true] at hleft
      obtain ⟨⟨⟨hcreate, hdirect⟩, hfault⟩, -⟩ := hleft
      rcases w.makeFirst_cases who path mode with hsame | ⟨fs, hadd, hmade⟩
      · rw [hsame] at h
        exact .inl h
      · obtain ⟨f, hf⟩ := Option.isSome_iff_exists.mp hfault
        rw [hmade] at h
        simp only [answer, World.change, hf] at h
        obtain ⟨rfl, rfl⟩ := Prod.mk.inj (Option.some.inj h)
        exact .inr ⟨path, flags, mode, fs, f.errno, rfl, hcreate, hdirect, .rfl, hadd, rfl⟩
    · simp only [answerDirect, callWorld, if_neg hleft] at h
      exact .inl h
  | _ => exact .inl h

/-- The world in which the next call of a program is answered. -/
def nextWorld {α : Type} (who : Identity) (w : World) (x : Choice) : Handler α → World
  | .ret _ => w
  | .call c _ => callWorld who w x c

theorem advance_nextWorld {α : Type} (who : Identity) (w : World) (x : Choice) (m : Handler α) :
    Prog.advance (answer who) (nextWorld who w x m) x m = Prog.advance (answerDirect who) w x m := by
  cases m <;> rfl

/-- The start of the server opens nothing. -/
def Process.before (who : Identity) (s : Process) : Action → World
  | .job i x =>
    match s.jobs[i]? with
    | some m => nextWorld who s.world x m
    | none => s.world
  | .inline x =>
    match s.inline with
    | some m => nextWorld who s.world x m
    | none => s.world
  | _ => s.world

theorem Process.before_job {who : Identity} {s : Process} {i : ℕ} {x : Choice}
    {m : Handler (Option Frame)}
    (h : s.jobs[i]? = some m) : s.before who (.job i x) = nextWorld who s.world x m := by
  simp only [Process.before, h]

theorem Process.before_inline {who : Identity} {s : Process} {x : Choice}
    {m : Handler (Option Frame)} (h : s.inline = some m) :
    s.before who (.inline x) = nextWorld who s.world x m := by
  simp only [Process.before, h]

/-- One step of a server whose refused opens may leave their files. -/
def nextDirect (host : Host) (s : Process) (a : Action) : Option Process :=
  next host { s with world := s.before host.who a } a

end Ecopy.Server
