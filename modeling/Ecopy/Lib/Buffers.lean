import Mathlib.Data.List.Basic
import Mathlib.Tactic.Common
import Mathlib.Tactic.SplitIfs

/-!
# Buffers of a fixed size

A buffer has as many cells as its type says. A block is written at an offset, or not at all
where it would not fit. Blocks that are written one behind the other are one block.
-/
namespace Ecopy.Lib.Buffers
variable {α : Type*} {cap : ℕ}

structure Buf (α : Type*) (cap : ℕ) where
  cells : List α
  length_eq : cells.length = cap

def splice (cells : List α) (p : ℕ) (block : List α) : List α :=
  cells.take p ++ block ++ cells.drop (p + block.length)

theorem length_splice {cells : List α} {p : ℕ} {block : List α} (h : cells.length = cap)
    (hfits : p + block.length ≤ cap) : (splice cells p block).length = cap := by
  rw [splice, List.length_append, List.length_append, List.length_take, List.length_drop]
  omega

def Buf.write (b : Buf α cap) (p : ℕ) (block : List α) : Option (Buf α cap) :=
  if h : p + block.length ≤ cap then some ⟨splice b.cells p block, length_splice b.length_eq h⟩
  else none

theorem splice_splice {cells : List α} {p : ℕ} (u v : List α) (h : p + u.length ≤ cells.length) :
    splice (splice cells p u) (p + u.length) v = splice cells p (u ++ v) := by
  have hfront : (cells.take p ++ u).length = p + u.length := by
    rw [List.length_append, List.length_take_of_le (by omega)]
  have hback : (cells.take p ++ u ++ cells.drop (p + u.length)).drop (p + u.length + v.length) =
      cells.drop (p + (u ++ v).length) := by
    rw [← hfront, List.drop_length_add_append, List.drop_drop, hfront, List.length_append,
      Nat.add_assoc]
  rw [splice, splice, List.take_left' hfront, hback, splice, List.append_assoc (cells.take p)]

/-- Two blocks, one behind the other. -/
theorem Buf.write_append (b : Buf α cap) (p : ℕ) (u v : List α) :
    ((b.write p u).bind fun b => b.write (p + u.length) v) = b.write p (u ++ v) := by
  unfold write
  by_cases hu : p + u.length ≤ cap
  · rw [dif_pos hu, Option.bind_some]
    by_cases hv : p + u.length + v.length ≤ cap
    · rw [dif_pos hv, dif_pos (by rw [List.length_append]; omega)]
      congr 2
      exact splice_splice u v (by rw [b.length_eq]; exact hu)
    · rw [dif_neg hv, dif_neg (by rw [List.length_append]; omega)]
  · rw [dif_neg hu, dif_neg (by rw [List.length_append]; omega), Option.bind_none]

theorem Buf.write_of_le {b : Buf α cap} {p : ℕ} {block : List α} (h : p + block.length ≤ cap) :
    b.write p block = some ⟨splice b.cells p block, length_splice b.length_eq h⟩ := dif_pos h

/-- From the start the block replaces as many cells as it has. -/
theorem splice_zero (cells block : List α) :
    splice cells 0 block = block ++ cells.drop block.length := by
  rw [splice, List.take_zero, List.nil_append, Nat.zero_add]

end Ecopy.Lib.Buffers
