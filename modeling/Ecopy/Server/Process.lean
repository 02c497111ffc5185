import Ecopy.Lib.Runs
import Ecopy.Server.Handlers

/-!
# The server process

`server_main` creates its root, unless it is read-only, and then reads frames.
The frame types of the apply pool become jobs when there is a pool; every other
frame waits until all jobs have ended and is then handled by the reader alone.
Jobs advance one call at a time, in any order. At the end of the input the
reader removes the temporary files of unfinished transfers; after `BYE` it
leaves at once.

All submitted jobs may advance, although only as many as there are pool threads
do; this adds interleavings. What a handler does between two calls is not
visible to the others.
-/
namespace Ecopy.Server
open Protocol Ecopy.Path FileSystem Lib.Calls Lib.Runs
open Remote.Handshake (Settings)

/-- The proper prefixes of a path that end before a slash. -/
def slashPrefixes (path : Bytes) : List Bytes :=
  (List.range path.length).filterMap fun i =>
    if 0 < i ∧ path[i]? = some slash then some (path.take i) else none

def mkdirAll : List Bytes → Handler (Option Errno)
  | [] => return none
  | p :: ps => do
    match ← Sys.mkdir p 0x1FF with
    | .ok _ | .error .eexist => mkdirAll ps
    | .error e => return some e

def mkdirP (path : Bytes) : Handler (Option Errno) :=
  if path.length ≥ pathMax then return some .enametoolong
  else mkdirAll (slashPrefixes path ++ [path])

/-- The part of `server_main` before the main loop: the normalised root and
whether it was there before, or `none` when the process exits. -/
def serverStart (root : Bytes) (readOnly : Bool) : Handler (Option (Bytes × Bool)) := do
  if root.head? ≠ some slash then return none
  let present := match ← Sys.lstat root with
    | .ok (_, n) => n.isDir
    | .error _ => false
  let ready ← if readOnly then pure present else do
    pure (← mkdirP root).isNone
  if !ready then return none
  match normalizeAbs root pathMax with
  | .error _ => return none
  | .ok norm => return some (norm, present)

/-- The root that a server serves once its directory is there. -/
def servedRoot (root : Bytes) (present ready : Bool) : Handler (Option (Bytes × Bool)) := do
  if !ready then return none
  match normalizeAbs root pathMax with
  | .error _ => return none
  | .ok norm => return some (norm, present)

inductive Phase where
  | starting (m : Handler (Option (Bytes × Bool)))
  | serving (cfg : Config)
  | ended

structure Process where
  world : World
  phase : Phase
  jobs : List (Handler (Option Frame))
  inline : Option (Handler (Option Frame))
  sent : List Frame

def defaultSettings : Settings := ⟨true, true, 0, 0⟩

def World.initial (fs : Fs) : World where
  fs := fs
  files := []
  dirCache := fun _ => none
  seq := fun _ => 0
  settings := defaultSettings
  errors := []
  verify := fun _ => 0
  unpreserved := 0
  touched := []

/-- Parameters of a process: who runs it, its platform, and the digest function. -/
structure Host where
  who : Identity
  uname : Remote.Handshake.Utsname
  hash : Bytes → Bytes

def Host.config (host : Host) (root : Bytes) (present : Bool) : Config :=
  ⟨root, host.who, ⟨host.uname, root, present⟩, host.hash⟩

def Process.boot (fs : Fs) (root : Bytes) (readOnly : Bool) : Process where
  world := .initial fs
  phase := .starting (serverStart root readOnly)
  jobs := []
  inline := none
  sent := []

/-- Frame types that go to the apply pool. -/
def pooled : MsgType → Bool
  | .putfile | .mkdir | .setmeta | .verifyPath => true
  | _ => false

inductive Action where
  | start (x : Choice)
  | serve
  | receive (f : Frame)
  | endOfInput
  | job (i : ℕ) (x : Choice)
  | jobDone (i : ℕ)
  | inline (x : Choice)
  | inlineDone
deriving DecidableEq, Repr

def next (host : Host) (s : Process) : Action → Option Process
  | .start x =>
    match s.phase with
    | .starting m =>
      (Prog.advance (answer host.who) s.world x m).map fun (w, m) =>
        { s with world := w, phase := .starting m }
    | _ => none
  -- what handlers touch is recorded from here on
  | .serve =>
    match s.phase with
    | .starting (.ret none) => some { s with phase := .ended }
    | .starting (.ret (some (root, present))) => some { s with
        world := { s.world with touched := [] }
        phase := .serving (host.config root present) }
    | _ => none
  | .receive f =>
    match s.phase, s.inline with
    | .serving cfg, none =>
      if pooled f.type ∧ s.world.settings.poolThreads > 1 then
        some { s with jobs := s.jobs ++ [handle cfg f] }
      else if s.jobs.isEmpty then
        if f.type = .bye then some { s with phase := .ended }
        else some { s with inline := some (handle cfg f) }
      else none
    | _, _ => none
  | .endOfInput =>
    match s.phase, s.inline with
    | .serving _, none =>
      if s.jobs.isEmpty then some { s with phase := .ended, inline := some cleanup } else none
    | _, _ => none
  | .job i x =>
    match s.jobs[i]? with
    | some m =>
      (Prog.advance (answer host.who) s.world x m).map fun (w, m) =>
        { s with world := w, jobs := s.jobs.set i m }
    | none => none
  | .jobDone i =>
    match s.jobs[i]? with
    | some (.ret _) => some { s with jobs := s.jobs.eraseIdx i }
    | _ => none
  | .inline x =>
    match s.inline with
    | some m =>
      (Prog.advance (answer host.who) s.world x m).map fun (w, m) =>
        { s with world := w, inline := some m }
    | none => none
  | .inlineDone =>
    match s.inline with
    | some (.ret reply) => some { s with inline := none, sent := s.sent ++ reply.toList }
    | _ => none

section Safety
variable {host : Host} {s u : Process} {a : Action}

/-- All programs in progress make calls that satisfy `ok`. -/
structure Guarded (ok : Call → Prop) (resp : (c : Call) → c.Result → Prop) (s : Process) :
    Prop where
  starting : ∀ m, s.phase = .starting m → m.Keeps ok resp
  jobs : ∀ m ∈ s.jobs, m.Keeps ok resp
  inline : ∀ m, s.inline = some m → m.Keeps ok resp

/-- One step of the process: an invariant of the world that the answers to safe
calls keep, together with the safety of all programs, survives. -/
theorem next_guarded {ok : Call → Prop} {resp : (c : Call) → c.Result → Prop}
    {inv : World → Prop}
    (hanswer : ∀ w x c r v, inv w → ok c → answer host.who w x c = some (r, v) →
      resp c r ∧ inv v)
    (hhandle : ∀ cfg f, s.phase = .serving cfg → a = .receive f → (handle cfg f).Keeps ok resp)
    (hclean : cleanup.Keeps ok resp)
    (hserve : ∀ m, s.phase = .starting m → inv { s.world with touched := [] })
    (hw : inv s.world) (hg : Guarded ok resp s) (hs : next host s a = some u) :
    inv u.world ∧ Guarded ok resp u := by
  cases a with
  | start x =>
    simp only [next] at hs
    split at hs
    · rename_i m hm
      obtain ⟨⟨w, m'⟩, hadv, rfl⟩ := Option.map_eq_some_iff.mp hs
      obtain ⟨hinv, hsafe⟩ := Prog.advance_safe hanswer hw (hg.starting m hm) hadv
      refine ⟨hinv, ?_, hg.jobs, hg.inline⟩
      intro k hk
      rw [← Phase.starting.inj hk]
      exact hsafe
    · cases hs
  | serve =>
    simp only [next] at hs
    split at hs
    · obtain rfl := Option.some.inj hs
      exact ⟨hw, fun m hm => (nomatch hm), hg.jobs, hg.inline⟩
    · rename_i hm
      obtain rfl := Option.some.inj hs
      exact ⟨hserve _ hm, fun m hm => (nomatch hm), hg.jobs, hg.inline⟩
    · cases hs
  | receive f =>
    simp only [next] at hs
    split at hs
    · rename_i cfg hphase hinline
      have hsafe := hhandle cfg f hphase rfl
      split at hs
      · obtain rfl := Option.some.inj hs
        refine ⟨hw, hg.starting, ?_, hg.inline⟩
        intro m hm
        rcases List.mem_append.mp hm with hm | hm
        · exact hg.jobs m hm
        · rw [List.mem_singleton.mp hm]
          exact hsafe
      · split at hs
        · split at hs
          · obtain rfl := Option.some.inj hs
            exact ⟨hw, fun m hm => (nomatch hm), hg.jobs, hg.inline⟩
          · obtain rfl := Option.some.inj hs
            refine ⟨hw, hg.starting, hg.jobs, ?_⟩
            intro m hm
            rw [← Option.some.inj hm]
            exact hsafe
        · cases hs
    · cases hs
  | endOfInput =>
    simp only [next] at hs
    split at hs
    · split at hs
      · obtain rfl := Option.some.inj hs
        refine ⟨hw, fun m hm => (nomatch hm), hg.jobs, ?_⟩
        intro m hm
        rw [← Option.some.inj hm]
        exact hclean
      · cases hs
    · cases hs
  | job i x =>
    simp only [next] at hs
    split at hs
    · rename_i m hm
      obtain ⟨⟨w, m'⟩, hadv, rfl⟩ := Option.map_eq_some_iff.mp hs
      have hmem : m ∈ s.jobs := List.mem_of_getElem? hm
      obtain ⟨hinv, hsafe⟩ := Prog.advance_safe hanswer hw (hg.jobs m hmem) hadv
      refine ⟨hinv, hg.starting, ?_, hg.inline⟩
      intro k hk
      rcases List.mem_or_eq_of_mem_set hk with hk | rfl
      · exact hg.jobs k hk
      · exact hsafe
    · cases hs
  | jobDone i =>
    simp only [next] at hs
    split at hs
    · obtain rfl := Option.some.inj hs
      exact ⟨hw, hg.starting, fun m hm => hg.jobs m (List.mem_of_mem_eraseIdx hm), hg.inline⟩
    · cases hs
  | inline x =>
    simp only [next] at hs
    split at hs
    · rename_i m hm
      obtain ⟨⟨w, m'⟩, hadv, rfl⟩ := Option.map_eq_some_iff.mp hs
      obtain ⟨hinv, hsafe⟩ := Prog.advance_safe hanswer hw (hg.inline m hm) hadv
      refine ⟨hinv, hg.starting, hg.jobs, ?_⟩
      intro k hk
      rw [← Option.some.inj hk]
      exact hsafe
    · cases hs
  | inlineDone =>
    simp only [next] at hs
    split at hs
    · obtain rfl := Option.some.inj hs
      exact ⟨hw, hg.starting, hg.jobs, by simp⟩
    · cases hs

/-- A process that serves keeps its configuration until it ends. -/
theorem next_phase (hstart : ∀ m, s.phase ≠ .starting m) (hs : next host s a = some u) :
    u.phase = s.phase ∨ u.phase = .ended := by
  cases a with
  | start x =>
    simp only [next] at hs
    cases hs
  | serve =>
    simp only [next] at hs
    split at hs
    · rename_i hm
      exact absurd hm (hstart _)
    · rename_i hm
      exact absurd hm (hstart _)
    · cases hs
  | receive f =>
    simp only [next] at hs
    split at hs
    · split at hs
      · obtain rfl := Option.some.inj hs
        exact .inl rfl
      split at hs
      · split at hs
        · obtain rfl := Option.some.inj hs
          exact .inr rfl
        · obtain rfl := Option.some.inj hs
          exact .inl rfl
      · cases hs
    · cases hs
  | endOfInput =>
    simp only [next] at hs
    split at hs
    · split at hs
      · obtain rfl := Option.some.inj hs
        exact .inr rfl
      · cases hs
    · cases hs
  | job i x =>
    simp only [next] at hs
    split at hs
    · obtain ⟨p, -, rfl⟩ := Option.map_eq_some_iff.mp hs
      exact .inl rfl
    · cases hs
  | jobDone i =>
    simp only [next] at hs
    split at hs
    · obtain rfl := Option.some.inj hs
      exact .inl rfl
    · cases hs
  | inline x =>
    simp only [next] at hs
    split at hs
    · obtain ⟨p, -, rfl⟩ := Option.map_eq_some_iff.mp hs
      exact .inl rfl
    · cases hs
  | inlineDone =>
    simp only [next] at hs
    split at hs
    · obtain rfl := Option.some.inj hs
      exact .inl rfl
    · cases hs

end Safety

end Ecopy.Server
