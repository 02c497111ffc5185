import Ecopy.Lib.Traces
import Ecopy.Server.Effects

/-!
# Runs of local programs

The calls of a run with their answers, and what holds after a run whatever they were.
-/
namespace Ecopy.Workers.Events
open Protocol Ecopy.Path FileSystem Server Lib.Calls

abbrev Event := Prog.Event Call.Result

def Logs : Event → Prop
  | ⟨.logError _ _, _⟩ => True
  | _ => False

variable {who : Identity} {w v : World} {tr : List Event}

theorem tree_of_runs {α : Type} {m : Handler α} {a : α} (h : m.Runs (answer who) w tr v a)
    (ht : w.fs.Tree) : v.fs.Tree := by
  induction h with
  | ret => exact ht
  | call x hx _ ih => exact ih (answer_tree ht hx)

theorem lasting_of_runs {α : Type} {m : Handler α} {a : α}
    (h : m.Runs (answer who) w tr v a) : Lasting w.fs v.fs := by
  induction h with
  | ret => exact ⟨le_refl _, fun _ _ => rfl⟩
  | call x hx _ ih =>
    have hstep := answer_lasting hx
    refine ⟨hstep.next.trans ih.next, fun i hi => ?_⟩
    exact (ih.dirs i (hi.trans_le hstep.next)).trans (hstep.dirs i hi)

theorem not_quiet {kernel : World → Choice → (c : Call) → Option (c.Result × World)} {p : Bytes}
    {e : Errno} (h : (Sys.logError p e).Runs kernel w tr v ()) : ∃ ev ∈ tr, Logs ev := by
  obtain ⟨x, r, u, rest, -, rfl, -⟩ := Prog.runs_call_iff.mp h
  exact ⟨_, List.mem_cons_self, trivial⟩

end Ecopy.Workers.Events
