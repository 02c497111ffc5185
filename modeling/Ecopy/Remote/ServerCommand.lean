import Ecopy.Lib.ShellWords
import Ecopy.Path

/-!
# The command that starts the server

The path of the target is put in single quotes and becomes the last word of a command line,
which the shell of the remote user reads. `shell_squote` tests the room before every byte, for
an ordinary byte and for a quote in different ways; both leave room for the closing quote and
the NUL only at the end.

The name of the remote program is not quoted. It is what the user has set, the name `ecopy`, or
the path of the uploaded binary.
-/
namespace Ecopy.Remote.ServerCommand
open Lib.ShellWords
open Lib.CStrings (ascii)
open Ecopy.Path (pathMax)
open Protocol (Bytes)

/-- The loop of `shell_squote`, with the output so far. -/
def squoteLoop (outsz : ℕ) : Bytes → Bytes → Option Bytes
  | [], out => if out.length + 2 > outsz then none else some (out ++ [quote])
  | b :: input, out =>
    if b = quote then
      if out.length + 4 ≥ outsz then none
      else squoteLoop outsz input (out ++ [quote, backslash, quote, quote])
    else if out.length + 1 ≥ outsz then none
    else squoteLoop outsz input (out ++ [b])

def shellSquote (input : Bytes) (outsz : ℕ) : Option Bytes :=
  if 0 + 1 ≥ outsz then none else squoteLoop outsz input [quote]

def serverFlag (readOnly : Bool) : Bytes :=
  if readOnly then ascii "--server-readonly" else ascii "--server"

def buildServerCommand (readOnly : Bool) (remoteBin path : Bytes) (outsz : ℕ) : Option Bytes :=
  match shellSquote path (pathMax + 16) with
  | none => none
  | some qpath =>
    let text := remoteBin ++ 32 :: serverFlag readOnly ++ 32 :: qpath
    if text.length ≥ outsz then none else some text

variable {input out : Bytes} {outsz : ℕ}

theorem squoteLoop_eq (input out : Bytes) : squoteLoop outsz input out =
    let text := out ++ input.flatMap
      (fun b => if b = quote then [quote, backslash, quote, quote] else [b]) ++ [quote]
    if text.length + 1 ≤ outsz then some text else none := by
  induction input generalizing out with
  | nil =>
    dsimp only
    rw [squoteLoop, List.flatMap_nil, List.append_nil, List.length_append, List.length_singleton]
    split_ifs with hshort hfits
    · omega
    · rfl
    · rfl
    · omega
  | cons b input ih =>
    rw [squoteLoop, List.flatMap_cons, ← List.append_assoc]
    by_cases hb : b = quote
    · rw [if_pos hb, if_pos hb]
      split_ifs with hshort
      · -- four bytes and the closing quote do not fit any more
        dsimp only
        rw [if_neg]
        simp only [List.length_append, List.length_cons, List.length_nil]
        omega
      · exact ih _
    · rw [if_neg hb, if_neg hb]
      split_ifs with hshort
      · dsimp only
        rw [if_neg]
        simp only [List.length_append, List.length_cons, List.length_nil]
        omega
      · exact ih _

theorem shellSquote_eq (input : Bytes) (outsz : ℕ) : shellSquote input outsz =
    if (singleQuoted input).length + 1 ≤ outsz then some (singleQuoted input) else none := by
  unfold shellSquote
  by_cases hone : 0 + 1 ≥ outsz
  · rw [if_pos hone, if_neg]
    rw [singleQuoted, List.length_append, List.length_cons, List.length_singleton]
    omega
  · rw [if_neg hone, squoteLoop_eq]
    rfl

theorem serverFlag_eq : serverFlag false = [45, 45, 115, 101, 114, 118, 101, 114] ∧
    serverFlag true = serverFlag false ++ [45, 114, 101, 97, 100, 111, 110, 108, 121] := by
  decide +kernel

theorem serverFlag_ordinary (readOnly : Bool) :
    serverFlag readOnly ≠ [] ∧ ∀ b ∈ serverFlag readOnly, Ordinary b := by
  have hquotes : ascii "'\"\\`$#" = [39, 34, 92, 96, 36, 35] := by decide +kernel
  have hoperators : ascii "&|;<>()" = [38, 124, 59, 60, 62, 40, 41] := by decide +kernel
  obtain ⟨hflag, hreadOnly⟩ := serverFlag_eq
  rw [hflag] at hreadOnly
  unfold Ordinary isOperator
  rw [hquotes, hoperators]
  cases readOnly with
  | false =>
    rw [hflag]
    decide +kernel
  | true =>
    rw [hreadOnly]
    decide +kernel

/-- Behind a name that the shell reads to its end stand two more words. -/
theorem tokens_command {remoteBin : Bytes} (h : (scan remoteBin).Resting) (readOnly : Bool)
    (path : Bytes) : tokens (remoteBin ++ 32 :: serverFlag readOnly ++ 32 :: singleQuoted path) =
      some ((scan remoteBin).flush ++ [.word ((serverFlag readOnly).map fun b => (b, false)),
        .word (path.map fun b => (b, true))]) := by
  obtain ⟨hne, hall⟩ := serverFlag_ordinary readOnly
  have hscan : scan (remoteBin ++ 32 :: serverFlag readOnly ++ 32 :: singleQuoted path) =
      ⟨(scan remoteBin).flush ++ [.word ((serverFlag readOnly).map fun b => (b, false))],
        some (path.map fun b => (b, true)), .plain⟩ := by
    rw [scan_append, scan_append, List.foldl_cons, List.foldl_cons, step_space h,
      foldl_word hall hne rfl rfl, step_space (.inl rfl), foldl_singleQuoted path rfl rfl]
    rfl
  unfold tokens
  rw [hscan, if_pos (.inl (.inl rfl))]
  simp [Scan.flush]

theorem buildServerCommand_eq_some {readOnly : Bool} {remoteBin path cmd : Bytes} {outsz : ℕ}
    (h : buildServerCommand readOnly remoteBin path outsz = some cmd) :
    cmd = remoteBin ++ 32 :: serverFlag readOnly ++ 32 :: singleQuoted path := by
  unfold buildServerCommand at h
  rw [shellSquote_eq] at h
  by_cases hfits : (singleQuoted path).length + 1 ≤ pathMax + 16
  · rw [if_pos hfits] at h
    dsimp only at h
    split_ifs at h
    exact (Option.some.inj h).symm
  · rw [if_neg hfits] at h
    cases h

/-- Quoting fails exactly where the text and its NUL do not fit; else the shell reads one word,
the input. In a command that is built the path is one word, the last. -/
theorem shellSquote_exact (path : Bytes) (outsz : ℕ) :
    (shellSquote path outsz = none ↔ outsz < (singleQuoted path).length + 1) ∧
    (∀ out, shellSquote path outsz = some out →
      tokens out = some [.word (path.map fun b => (b, true))]) ∧
    (∀ readOnly remoteBin cmdsz cmd, buildServerCommand readOnly remoteBin path cmdsz = some cmd →
      (scan remoteBin).Resting → tokens cmd = some ((scan remoteBin).flush ++
        [.word ((serverFlag readOnly).map fun b => (b, false)),
          .word (path.map fun b => (b, true))])) := by
  rw [shellSquote_eq]
  refine ⟨?_, ?_, ?_⟩
  · split_ifs with hfits
    · exact iff_of_false nofun (by omega)
    · exact iff_of_true rfl (by omega)
  · intro out hout
    split_ifs at hout
    obtain rfl := Option.some.inj hout
    exact tokens_singleQuoted path
  · intro readOnly remoteBin cmdsz cmd hcmd hrest
    rw [buildServerCommand_eq_some hcmd]
    exact tokens_command hrest readOnly path

theorem hostile_path_is_one_word :
    tokens (ascii "ecopy --server '/a b'\\''$(x)'") =
      some ((scan (ascii "ecopy")).flush ++ [.word ((serverFlag false).map fun b => (b, false)),
        .word ((ascii "/a b'$(x)").map fun b => (b, true))]) :=
  (shellSquote_exact (ascii "/a b'$(x)") 64).2.2 false (ascii "ecopy") 64 _ (by decide +kernel)
    (by decide +kernel)

end Ecopy.Remote.ServerCommand
