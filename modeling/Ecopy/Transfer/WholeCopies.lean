import Ecopy.Transfer.LargeCopies
import Ecopy.Transfer.RemoteCopies

/-!
# Copies that succeed without the whole file

The loop over the bulk of a dense file takes a short read for an error, and so do the readers of
a large file. The loops that read blocks with `pread` take a read of nothing for the end of
their work: a file that became shorter is copied with success, and its end is missing.
-/
namespace Ecopy.Transfer
open Lib.Calls Lib.Runs
open Workers.LargePipeline (State Act LeavesData)
open Workers.SmallCopy (Tuning)

/-- A copy that was reported as successful, with all the answers it was given. -/
inductive SuccessfulCopy (size : ℕ) : Type
  | small (cfg : Tuning) (known : Bool) (fuel : ℕ) (tr : List Event) (t : World)
      (run : (copyFileSerialSmall cfg size fuel).Runs (answer known) .start tr t true)
  | sparse (cfg : Tuning) (known : Bool) (fuel : ℕ) (tr : List Event) (t : World)
      (run : (copyFileSparse cfg size fuel).Runs (answer known) .start tr t true)
  | large (c : LargeCopy size) (as : List (Act c.params)) (s : State c.params)
      (exec : exec Workers.LargePipeline.step (State.start c.params) as = some s)
      (joined : s.Joined) (unfailed : s.failed = false) (known : Bool) (fuel : ℕ)
      (tr : List Event) (t : World)
      (run : (finishLargeFileCtx size fuel).Runs (answer known) (bulkWorld size s.written) tr t
        true)
  | remoteDense (cfg : Tuning) (known : Bool) (fuel : ℕ) (tr : List Event) (t : World)
      (run : (copyFileRemote cfg size fuel false).Runs (answer known) .start tr t true)
  | remoteSparse (cfg : Tuning) (known : Bool) (fuel : ℕ) (tr : List Event) (t : World)
      (run : (copyFileRemote cfg size fuel true).Runs (answer known) .start tr t true)

namespace SuccessfulCopy
variable {size : ℕ}

def dest : SuccessfulCopy size → Dest
  | small _ _ _ _ t _ => t.dest
  | sparse _ _ _ _ t _ => t.dest
  | large _ _ _ _ _ _ _ _ _ t _ => t.dest
  | remoteDense _ _ _ _ t _ => t.dest
  | remoteSparse _ _ _ _ t _ => t.dest

/-- The bytes that are not in a hole. -/
def data : SuccessfulCopy size → ℕ → Prop
  | small .. => fun _ => True
  | sparse _ _ _ tr _ _ => Data tr
  | large c .. => c.Data
  | remoteDense .. => fun _ => True
  | remoteSparse _ _ _ tr _ _ => Data tr

/-- No read that may end a loop early met the end of the source. Besides, a small copy was not
turned back to plain reads in the middle of the bulk, no writer of a large copy left data behind
for a shutdown request, and no read of a dense file that is streamed went on behind the size. -/
def Undisturbed : SuccessfulCopy size → Prop
  | small cfg _ _ tr _ _ => tr.any early = false ∧ Seamless cfg size tr
  | sparse _ _ _ tr _ _ => tr.any early = false
  | large c as _ _ _ _ _ _ tr _ _ => tr.any early = false ∧
      Along Workers.LargePipeline.step (fun s a => ¬LeavesData s a) (State.start c.params) as
  | remoteDense _ _ _ tr _ _ => tr.any early = false ∧ tr.any (beyond size) = false
  | remoteSparse _ _ _ tr _ _ => tr.any early = false

end SuccessfulCopy

/-- A copy that succeeded has the whole file exactly when nothing disturbed it. -/
theorem successful_copy_whole_iff {size : ℕ} (c : SuccessfulCopy size) :
    Whole size c.data c.dest ↔ c.Undisturbed := by
  cases c with
  | small cfg known fuel tr t run => exact copyFileSerialSmall_whole_iff run
  | sparse cfg known fuel tr t run => exact copyFileSparse_whole_iff run
  | large c as s exec joined unfailed known fuel tr t run =>
    exact finishLargeFileCtx_whole_iff exec joined unfailed run
  | remoteDense cfg known fuel tr t run => exact copyFileRemote_dense_whole_iff run
  | remoteSparse cfg known fuel tr t run => exact copyFileRemote_sparse_whole_iff run

/-- Buffered, without `copy_file_range`. -/
def bufferedTuning : Tuning where
  readDirect := false
  writeDirect := false
  directMinSize := 0
  copyFileRange := false
  chunkSize := 4096
  smallWriteDirectMin := 0
  dstDirectOk := false
  inplace := false
  preserveTimes := true
  chunkSize_pos := Nat.succ_pos _

/-- The answers to a copy of one byte; `tail` are those to the loop over the tail. -/
def oneByteAnswers (tail : List (Except Fault ℕ)) : List (Except Fault ℕ) :=
  [.ok 0, .ok 0, .error .other, .ok 0, .ok 0] ++ tail ++ [.ok 0, .ok 0]

def copyOneByte (tail : List (Except Fault ℕ)) : Option (List Event × World × Bool) :=
  (copyFileSerialSmall bufferedTuning 1 3).play (answer true) .start (oneByteAnswers tail)

/-- The byte is read and written. -/
def oneByteCopy : SuccessfulCopy 1 :=
  .small bufferedTuning true 3 _ _
    (Prog.runs_of_play (show copyOneByte [.ok 1, .ok 1] = some (_, _, true) from rfl))

theorem successful_copy_whole_iff_oneByte : Whole 1 oneByteCopy.data oneByteCopy.dest :=
  (successful_copy_whole_iff oneByteCopy).mpr ⟨rfl, fun h => nomatch h⟩

/-- The file was truncated after its size had been taken. -/
def truncatedCopy : SuccessfulCopy 1 :=
  .small bufferedTuning true 3 _ _
    (Prog.runs_of_play (show copyOneByte [.ok 0] = some (_, _, true) from rfl))

/-- The copy is reported as successful, and the destination is empty. -/
theorem truncated_copy_succeeds :
    ¬∀ (size : ℕ) (c : SuccessfulCopy size), Whole size c.data c.dest := by
  intro h
  have hsize : truncatedCopy.dest.size = 1 := (h 1 truncatedCopy).1
  cases hsize

end Ecopy.Transfer
