import Ecopy.Transfer.Copies

/-!
# A sparse file that is only read

The source of a sparse copy as the two sparse loops see it: how long it is, where it holds
data, and whether its file system knows `SEEK_DATA` and `SEEK_HOLE`. Reads and writes succeed,
but may move fewer bytes than they were asked for; nobody asks the program to stop.

`Wrote` is the effect of a loop on the destination: the offsets that it wrote. Each loop has
one lemma that names them.
-/
namespace Ecopy.Transfer
open Lib.Calls
open Workers.SmallCopy (Tuning)

/-- A seek that is not supported is refused everywhere, with an errno the code knows. -/
structure Source where
  length : ℕ
  content : ℕ → UInt8
  isData : ℕ → Bool
  refusesData : Option Fault
  refusesHole : Option Fault
  data_refusal : ∀ e ∈ refusesData, noSeek e = true
  hole_refusal : ∀ e ∈ refusesHole, noSeek e = true

namespace Source
variable (src : Source)

def firstFrom (p : ℕ → Bool) (pos stop : ℕ) : Option ℕ := (List.range' pos (stop - pos)).find? p

/-- `lseek(fd, pos, SEEK_DATA)` -/
def seekData (pos : ℕ) : Except Fault ℕ :=
  match src.refusesData with
  | some e => .error e
  | none =>
    match firstFrom src.isData pos src.length with
    | some x => .ok x
    | none => .error .enxio

/-- `lseek(fd, pos, SEEK_HOLE)`; there is a hole at the end of every file. -/
def seekHole (pos : ℕ) : Except Fault ℕ :=
  match src.refusesHole with
  | some e => .error e
  | none =>
    if src.length ≤ pos then .error .enxio
    else .ok ((firstFrom (fun x => !src.isData x) pos src.length).getD src.length)

/-- A transfer moves at least one byte of those there are. -/
def moved (limit n : ℕ) : ℕ := min limit (max 1 n)

/-- The answers to the sparse loops. The environment chooses how much is moved. -/
def answer (w : World) (n : ℕ) : (c : Call) → Option (Reply c × World)
  | .pread pos len => some (.ok (moved (min len (src.length - pos)) n), w)
  | .pwrite pos from' len =>
    some (.ok (moved len n), { w with dest := w.dest.put pos from' (moved len n) })
  | .seekData pos => some (src.seekData pos, w)
  | .seekHole pos => some (src.seekHole pos, w)
  | .ftruncate size => some (.ok 0, { w with dest := w.dest.resize size })
  | .fallocate size => some (.ok 0, { w with dest := w.dest.extend size })
  | .step => some (.ok 0, w)
  | .fail => some (.ok 0, { w with failed := true })
  | .failed => some (.ok (if w.failed then 1 else 0), w)
  | .stopped => some (.ok 0, w)
  | .read _ => some (.error .other, w)
  | .write _ _ => some (.error .other, w)
  | .copyFileRange _ _ => some (.error .other, w)

/-- The bytes of the destination; what was never written reads as zero. -/
def bytes (d : Dest) : List UInt8 :=
  (List.range d.size).map fun x => (d.byte x).elim 0 src.content

/-- With enough fuel the program succeeds, however much is moved at a time. -/
def Makes (m : ℕ → Action Bool) (d : Dest) : Prop :=
  ∃ enough, ∀ fuel, enough ≤ fuel →
    (m fuel).Alone src.answer (fun w ok => ok = true ∧ w.dest = d) World.start

end Source

theorem firstFrom_eq_some {p : ℕ → Bool} {pos stop x : ℕ} :
    Source.firstFrom p pos stop = some x ↔
      pos ≤ x ∧ x < stop ∧ p x = true ∧ ∀ y, pos ≤ y → y < x → p y = false := by
  unfold Source.firstFrom
  rw [List.find?_range'_eq_some]
  simp only [List.mem_range'_1, Bool.not_eq_true']
  constructor
  · rintro ⟨hp, hmem, hbefore⟩
    exact ⟨hmem.1, by omega, hp, hbefore⟩
  · rintro ⟨hle, hlt, hp, hbefore⟩
    exact ⟨hp, ⟨hle, by omega⟩, hbefore⟩

theorem firstFrom_eq_none {p : ℕ → Bool} {pos stop : ℕ} :
    Source.firstFrom p pos stop = none ↔ ∀ x, pos ≤ x → x < stop → p x = false := by
  unfold Source.firstFrom
  rw [List.find?_eq_none]
  simp only [List.mem_range'_1, Bool.not_eq_true]
  constructor
  · intro h x hle hlt
    exact h x ⟨hle, by omega⟩
  · intro h x hmem
    exact h x hmem.1 (by omega)

theorem moved_pos {limit n : ℕ} (h : 0 < limit) : 0 < Source.moved limit n := by
  unfold Source.moved
  omega

theorem moved_le (limit n : ℕ) : Source.moved limit n ≤ limit := Nat.min_le_left _ _

/-- The offsets of `P` were written, each with the byte that was read there. -/
structure Wrote (P : ℕ → Prop) (w t : World) : Prop where
  failed : t.failed = w.failed
  inside : ∀ x, P x → t.dest.byte x = some x
  outside : ∀ x, ¬P x → t.dest.byte x = w.dest.byte x

section Wrote
variable {P Q : ℕ → Prop} {w t u : World}

theorem Wrote.refl (h : ∀ x, ¬P x) (w : World) : Wrote P w w :=
  ⟨rfl, fun x hx => absurd hx (h x), fun _ _ => rfl⟩

theorem Wrote.congr (h : Wrote P w t) (hiff : ∀ x, Q x ↔ P x) : Wrote Q w t :=
  ⟨h.failed, fun x hx => h.inside x ((hiff x).mp hx),
    fun x hx => h.outside x fun hp => hx ((hiff x).mpr hp)⟩

theorem Wrote.trans (h : Wrote P w t) (h' : Wrote Q t u) : Wrote (fun x => P x ∨ Q x) w u := by
  refine ⟨h'.failed.trans h.failed, ?_, ?_⟩
  · intro x hx
    by_cases hq : Q x
    · exact h'.inside x hq
    · rw [h'.outside x hq]
      exact h.inside x (hx.resolve_right hq)
  · intro x hx
    rw [h'.outside x fun hq => hx (Or.inr hq)]
    exact h.outside x fun hp => hx (Or.inl hp)

theorem Wrote.put (w : World) (pos len : ℕ) :
    Wrote (fun x => pos ≤ x ∧ x < pos + len) w { w with dest := w.dest.put pos pos len } := by
  refine ⟨rfl, ?_, ?_⟩
  · intro x hx
    show (if pos ≤ x ∧ x < pos + len then some (pos + (x - pos)) else w.dest.byte x) = some x
    rw [if_pos hx, Nat.add_sub_cancel' hx.1]
  · intro x hx
    show (if pos ≤ x ∧ x < pos + len then some (pos + (x - pos)) else w.dest.byte x) = _
    rw [if_neg hx]

end Wrote

section Blocks
variable {src : Source} {w : World} {α : Type} {post : World → α → Prop}

/-- A call with one possible answer. -/
theorem alone_forced {c : Call} {r : Reply c} {v : World}
    (hc : ∀ n, src.answer w n c = some (r, v)) (f : Reply c → Action α) :
    (Prog.perform c >>= f).Alone src.answer post w ↔ (f r).Alone src.answer post v := by
  constructor
  · exact fun h => h 0 _ _ (hc 0)
  · intro h n r' t hr
    rw [hc] at hr
    cases hr
    exact h

theorem alone_attempt (f : Bool → Action α) :
    (attempt >>= f).Alone src.answer post w ↔ (f true).Alone src.answer post w :=
  alone_forced (c := .step) (fun _ => rfl) fun r => f r.isOk

theorem alone_stopped (f : Bool → Action α) :
    (stopped >>= f).Alone src.answer post w ↔ (f false).Alone src.answer post w :=
  alone_forced (c := .stopped) (fun _ => rfl) fun r => f (r.toOption == some 1)

theorem alone_failed (hw : w.failed = false) (f : Except Fault ℕ → Action α) :
    (Prog.perform .failed >>= f).Alone src.answer post w ↔
      (f (.ok 0)).Alone src.answer post w := by
  refine alone_forced (fun n => ?_) f
  show some (Except.ok (if w.failed then 1 else 0), w) = _
  rw [hw]
  rfl

theorem alone_attempt_last {post : World → Bool → Prop} :
    attempt.Alone src.answer post w ↔ post w true := by
  constructor
  · exact fun h => h 0 _ _ rfl
  · intro h n r t hr
    cases hr
    exact h

theorem alone_ftruncate (size : ℕ) (f : Except Fault ℕ → Action α) :
    (Prog.perform (.ftruncate size) >>= f).Alone src.answer post w ↔
      (f (.ok 0)).Alone src.answer post { w with dest := w.dest.resize size } :=
  alone_forced (fun _ => rfl) f

theorem alone_seekData (pos : ℕ) (f : Except Fault ℕ → Action α) :
    (Prog.perform (.seekData pos) >>= f).Alone src.answer post w ↔
      (f (src.seekData pos)).Alone src.answer post w :=
  alone_forced (fun _ => rfl) f

theorem alone_seekHole (pos : ℕ) (f : Except Fault ℕ → Action α) :
    (Prog.perform (.seekHole pos) >>= f).Alone src.answer post w ↔
      (f (src.seekHole pos)).Alone src.answer post w :=
  alone_forced (fun _ => rfl) f

theorem alone_pread (pos len : ℕ) (f : Except Fault ℕ → Action α) :
    (Prog.perform (.pread pos len) >>= f).Alone src.answer post w ↔
      ∀ n, (f (.ok (Source.moved (min len (src.length - pos)) n))).Alone src.answer post w := by
  constructor
  · exact fun h n => h n _ _ rfl
  · intro h n r t hr
    cases hr
    exact h n

theorem alone_pwrite (pos from' len : ℕ) (f : Except Fault ℕ → Action α) :
    (Prog.perform (.pwrite pos from' len) >>= f).Alone src.answer post w ↔
      ∀ n, (f (.ok (Source.moved len n))).Alone src.answer post
        { w with dest := w.dest.put pos from' (Source.moved len n) } := by
  constructor
  · exact fun h n => h n _ _ rfl
  · intro h n r t hr
    cases hr
    exact h n

/-- A step of the program that hands a block on writes the block. -/
def Passes (src : Source) (pass : (pos len : ℕ) → Action Bool) (bound : ℕ) : Prop :=
  ∀ w pos len, w.failed = false → len < bound → (pass pos len).Alone src.answer
    (fun t ok => ok = true ∧ Wrote (fun x => pos ≤ x ∧ x < pos + len) w t) w

theorem pwriteAll_alone (w : World) {fuel : ℕ} (pos len : ℕ) (hfuel : len < fuel) :
    (pwriteAll fuel pos pos len).Alone src.answer
      (fun t ok => ok = true ∧ Wrote (fun x => pos ≤ x ∧ x < pos + len) w t) w := by
  induction fuel generalizing w pos len with
  | zero => cases hfuel
  | succ fuel ih =>
    unfold pwriteAll
    by_cases hlen : len = 0
    · rw [if_pos hlen]
      exact ⟨rfl, Wrote.refl (fun x hx => by omega) w⟩
    · rw [if_neg hlen, alone_pwrite]
      intro n
      have hpos := moved_pos (n := n) (Nat.pos_of_ne_zero hlen)
      have hle := moved_le len n
      generalize Source.moved len n = k at *
      have hrest := ih { w with dest := w.dest.put pos pos k } (pos + k) (len - k) (by omega)
      refine hrest.mono ?_
      intro t ok hend
      refine ⟨hend.1, ((Wrote.put w pos k).trans hend.2).congr ?_⟩
      intro x
      omega

theorem writeBlock_passes (fuel : ℕ) : Passes src (writeBlock fuel) fuel :=
  fun w pos len _ hfuel => pwriteAll_alone w pos len hfuel

theorem pwriteServer_alone (w : World) {fuel : ℕ} (direct : Bool) (pos len done : ℕ)
    (hfuel : len - done < fuel) :
    (pwriteServer fuel direct pos len done).Alone src.answer
      (fun t _ => Wrote (fun x => pos + done ≤ x ∧ x < pos + len) w t) w := by
  induction fuel generalizing w done with
  | zero => cases hfuel
  | succ fuel ih =>
    unfold pwriteServer
    by_cases hdone : len ≤ done
    · rw [if_pos hdone]
      exact Wrote.refl (fun x hx => by omega) w
    · rw [if_neg hdone, alone_pwrite]
      intro n
      have hpos : 0 < Source.moved (len - done) n := moved_pos (by omega)
      have hle := moved_le (len - done) n
      generalize Source.moved (len - done) n = k at *
      dsimp only
      rw [if_neg (Nat.ne_of_gt hpos)]
      have hrest := ih { w with dest := w.dest.put (pos + done) (pos + done) k } (done + k)
        (by omega)
      refine hrest.mono ?_
      intro t _ hend
      refine ((Wrote.put w (pos + done) k).trans hend).congr ?_
      intro x
      omega

theorem sendBlock_passes (fuel : ℕ) : Passes src (sendBlock fuel) fuel := by
  intro w pos len hw hfuel
  unfold sendBlock
  rw [alone_attempt]
  show (handleWrite fuel pos len >>= fun _ => Prog.ret true).Alone _ _ _
  have hwrite : (handleWrite fuel pos len).Alone src.answer
      (fun t _ => Wrote (fun x => pos ≤ x ∧ x < pos + len) w t) w := by
    unfold handleWrite
    rw [alone_failed hw]
    show (attempt >>= fun direct => pwriteServer fuel direct pos len 0).Alone _ _ _
    rw [alone_attempt]
    exact pwriteServer_alone w true pos len 0 hfuel
  exact hwrite.bind fun t _ h => ⟨rfl, h⟩

/-- A range is copied as far as the file goes. -/
theorem copyBlocks_alone {w : World} {pass : (pos len : ℕ) → Action Bool}
    {bound cap stop fuel : ℕ} (pos : ℕ) (hpass : Passes src pass bound) (hcap : 0 < cap) (hbound : stop - pos < bound)
    (hfuel : stop - pos < fuel) (hw : w.failed = false) :
    (copyBlocks (return true) (upTo stop cap) pass stop fuel pos).Alone src.answer
      (fun t ok => ok = true ∧ Wrote (fun x => pos ≤ x ∧ x < stop ∧ x < src.length) w t) w := by
  induction fuel generalizing w pos with
  | zero => cases hfuel
  | succ fuel ih =>
    unfold copyBlocks
    by_cases hstop : stop ≤ pos
    · rw [if_pos hstop]
      exact ⟨rfl, Wrote.refl (fun x hx => by omega) w⟩
    · rw [if_neg hstop]
      show (Prog.perform (Call.pread pos (upTo stop cap pos)) >>= fun x => _).Alone _ _ _
      rw [alone_pread]
      intro n
      have hle := moved_le (min (upTo stop cap pos) (src.length - pos)) n
      have hpos : pos < src.length →
          0 < Source.moved (min (upTo stop cap pos) (src.length - pos)) n := by
        intro hlt
        apply moved_pos
        unfold upTo
        omega
      generalize Source.moved (min (upTo stop cap pos) (src.length - pos)) n = r at *
      unfold upTo at hle
      dsimp only
      by_cases hr : r = 0
      · rw [if_pos hr]
        exact ⟨rfl, Wrote.refl (fun x hx => by omega) w⟩
      · rw [if_neg hr]
        apply (hpass w pos r hw (by omega)).bind
        rintro t ok ⟨rfl, hwrote⟩
        have hrest := ih (pos + r) (by omega) (by omega) (hwrote.failed.trans hw)
        refine hrest.mono ?_
        intro u ok hend
        refine ⟨hend.1, (hwrote.trans hend.2).congr ?_⟩
        intro x
        omega

end Blocks

end Ecopy.Transfer
