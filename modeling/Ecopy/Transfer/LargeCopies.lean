import Ecopy.Transfer.SmallCopies
import Ecopy.Workers.LostChunks

/-!
# Large copies

The threads of a large copy write the chunks of its bulk into a file of the full size; whoever
finishes it copies the tail. The size is right from the start, so that a chunk that nobody wrote
and a tail that met the end of the source go unnoticed.
-/
namespace Ecopy.Transfer
open Lib.Calls Lib.Runs
open Workers.LargePipeline

/-- What the threads are started with. -/
structure LargeCopy (size : ℕ) where
  params : Params
  bulk : params.bulkEnd = bulkEnd size
  mapped : params.Mapped

section Large
variable {size : ℕ}

/-- The data of the bulk, and the tail. -/
def LargeCopy.Data (c : LargeCopy size) (x : ℕ) : Prop := InData c.params x ∨ bulkEnd size ≤ x

def Dest.fillRange (d : Dest) (r : ℤ × ℤ) : Dest := d.fill r.1.toNat (r.1 + r.2).toNat

/-- The file was given its size when it was created. -/
def bulkWritten (size : ℕ) (written : List (ℤ × ℤ)) : Dest :=
  written.foldl Dest.fillRange (Dest.empty.resize size)

def copyTailBufferedAt (fuel start stop : ℕ) : Action Bool := do
  if stop ≤ start then return true
  if !(← attempt) then return false
  if !(← attempt) then return false
  copyTailBufferedFds fuel start stop

/-- `finish_large_file_ctx` for a file that has not failed: the tail, the metadata, the close,
the new name, and the verification that is asked for. -/
def finishLargeFileCtx (size fuel : ℕ) : Action Bool := do
  if !(← copyTailBufferedAt fuel (bulkEnd size) size) then return false
  if !(← attempt) then return false
  if !(← attempt) then return false
  if !(← attempt) then return false
  attempt

/-- A range with at least one byte that lies in the file. -/
def Inside (size : ℕ) (r : ℤ × ℤ) : Prop := 0 ≤ r.1 ∧ 0 < r.2 ∧ r.1 + r.2 ≤ size

theorem fillRange_spec {d : Dest} {r : ℤ × ℤ} (hr : Inside size r) (hsize : d.size = size) :
    (d.fillRange r).size = size ∧
      ∀ x : ℕ, (d.fillRange r).byte x =
        if r.1 ≤ x ∧ (x : ℤ) < r.1 + r.2 then some x else d.byte x := by
  obtain ⟨hlow, hlen, hend⟩ := hr
  constructor
  · rw [Dest.fillRange, Dest.fill_size _ (by omega)]
    split_ifs <;> omega
  · intro x
    rw [Dest.fillRange, Dest.fill_byte]
    split_ifs <;> first | rfl | omega

theorem foldl_fillRange_spec {rs : List (ℤ × ℤ)} (hrs : ∀ r ∈ rs, Inside size r) {d : Dest}
    (hsize : d.size = size) :
    (rs.foldl Dest.fillRange d).size = size ∧
      ∀ x : ℕ, ((∃ r ∈ rs, InRange r x) → (rs.foldl Dest.fillRange d).byte x = some x) ∧
        ((∀ r ∈ rs, ¬InRange r x) → (rs.foldl Dest.fillRange d).byte x = d.byte x) := by
  induction rs generalizing d with
  | nil => exact ⟨hsize, fun x => ⟨fun ⟨r, hr, _⟩ => absurd hr List.not_mem_nil, fun _ => rfl⟩⟩
  | cons q rs ih =>
    obtain ⟨hsize', hbyte⟩ := fillRange_spec (hrs q List.mem_cons_self) hsize
    obtain ⟨hend, hall⟩ := ih (fun r hr => hrs r (List.mem_cons_of_mem q hr)) hsize'
    refine ⟨hend, fun x => ⟨?_, fun hnone => ?_⟩⟩
    · rintro ⟨r, hr, hx⟩
      by_cases hlater : ∃ r ∈ rs, InRange r x
      · exact (hall x).1 hlater
      · have hnone : ∀ r ∈ rs, ¬InRange r x := fun r hr hx => hlater ⟨r, hr, hx⟩
        obtain rfl : r = q := (List.mem_cons.mp hr).resolve_right fun hr => hnone r hr hx
        rw [List.foldl_cons, (hall x).2 hnone, hbyte]
        exact if_pos hx
    · have hfirst : ¬InRange q x := hnone q List.mem_cons_self
      rw [List.foldl_cons, (hall x).2 fun r hr => hnone r (List.mem_cons_of_mem q hr), hbyte]
      exact if_neg hfirst

section Copy
variable {c : LargeCopy size} {s : State c.params} {n : ℕ}

/-- A chunk ends with the bulk at the latest. -/
theorem written_inside (hs : Claimed s n) :
    ∀ r ∈ s.written, 0 ≤ r.1 ∧ 0 < r.2 ∧ r.1 + r.2 ≤ bulkEnd size := by
  intro r hr
  have hcovers := chunksFrom_covers c.mapped n (.start c.mapped) hs.before_end
  have hchunk := hs.written_subset r hr
  obtain ⟨hlow, hlen, -⟩ := hcovers.between r hchunk
  have hstart := (Placed.start c.mapped).nonneg
  have hlast : InData c.params (r.1 + r.2 - 1) :=
    hcovers.data r hchunk _ ⟨by omega, by omega⟩
  have hend := hlast.2.1
  rw [c.bulk] at hend
  exact ⟨by omega, hlen, by omega⟩

/-- The bytes of the bulk are those of the chunks. -/
theorem bulkWritten_spec (hs : Claimed s n) :
    (bulkWritten size s.written).size = size ∧
      ∀ x : ℕ, ((∃ r ∈ s.written, InRange r x) → (bulkWritten size s.written).byte x = some x) ∧
        ((∀ r ∈ s.written, ¬InRange r x) → (bulkWritten size s.written).byte x = none) := by
  have hbulk : (bulkEnd size : ℤ) ≤ size := Int.ofNat_le.mpr (bulkEnd_le size)
  have hinside : ∀ r ∈ s.written, Inside size r := by
    intro r hr
    obtain ⟨hlow, hlen, hend⟩ := written_inside hs r hr
    exact ⟨hlow, hlen, hend.trans hbulk⟩
  obtain ⟨hsize, hbyte⟩ :=
    foldl_fillRange_spec hinside (show (Dest.empty.resize size).size = size from rfl)
  refine ⟨hsize, fun x => ⟨(hbyte x).1, fun hnone => ?_⟩⟩
  rw [bulkWritten, (hbyte x).2 hnone]
  exact ite_self none

/-- The state of the files when all threads have left. -/
def bulkWorld (size : ℕ) (written : List (ℤ × ℤ)) : World :=
  { World.start with dest := bulkWritten size written }

theorem copyTailBufferedAt_runs {known : Bool} {fuel start : ℕ} {w t : World} {tr : List Event}
    (hstart : start ≤ size)
    (h : (copyTailBufferedAt fuel start size).Runs (answer known) w tr t true) :
    ∃ reach, start ≤ reach ∧ reach ≤ size ∧ t.dest = w.dest.fill start reach ∧
      (tr.any early = false ↔ reach = size) := by
  unfold copyTailBufferedAt at h
  split at h
  · rename_i hnone
    obtain rfl := le_antisymm hstart hnone
    obtain ⟨rfl, rfl, -⟩ := Prog.runs_ret_iff.mp h
    exact ⟨start, le_rfl, le_rfl, (Dest.fill_self _ _).symm, iff_of_true rfl rfl⟩
  · obtain ⟨x₁, tr₁, rfl, h₁⟩ := guard_attempt_runs h
    obtain ⟨x₂, tr₂, rfl, h₂⟩ := guard_attempt_runs h₁
    obtain ⟨reach, hle, hend, hdest, hearly, -⟩ := copyTailBufferedFds_runs hstart h₂
    exact ⟨reach, hle, hend, hdest, hearly⟩

theorem finishLargeFileCtx_whole_iff {as : List (Act c.params)}
    (hr : exec step (State.start c.params) as = some s) (hj : s.Joined) (hf : s.failed = false)
    {known : Bool} {fuel : ℕ} {t : World} {tr : List Event}
    (h : (finishLargeFileCtx size fuel).Runs (answer known) (bulkWorld size s.written) tr t true) :
    Whole size c.Data t.dest ↔
      tr.any early = false ∧ Along step (fun s a => ¬LeavesData s a) (State.start c.params) as := by
  obtain ⟨tail, tr₁, u, htr, htail, h₁⟩ := guard_runs h
  obtain ⟨x₂, tr₂, rfl, h₂⟩ := guard_attempt_runs h₁
  obtain ⟨x₃, tr₃, rfl, h₃⟩ := guard_attempt_runs h₂
  obtain ⟨x₄, tr₄, rfl, h₄⟩ := guard_attempt_runs h₃
  obtain ⟨rfl, x₅, rfl⟩ := attempt_runs h₄
  obtain ⟨reach, hle, hend, hdest, hearly⟩ := copyTailBufferedAt_runs (bulkEnd_le size) htail
  have hquiet : tr.any early = tail.any early := by
    rw [htr, List.any_append]
    exact Bool.or_false _
  have hclaimed : ∃ n, Claimed s n := by
    rcases along_or_lost (.start c.params) hr hf with halong | hlost
    · exact (sound_of_exec halong hr hf).claimed
    · exact hlost.claimed
  obtain ⟨n, hn⟩ := hclaimed
  obtain ⟨hsize, hbyte⟩ := bulkWritten_spec hn
  rw [hdest, hquiet, hearly]
  constructor
  · rintro ⟨-, hwhole⟩
    refine ⟨?_, ?_⟩
    · by_contra hshort
      have hmissed := hwhole reach (by omega) (.inr hle)
      have hbehind : ∀ r ∈ s.written, ¬InRange r reach := by
        rintro r hr' ⟨-, hx⟩
        have hinside := (written_inside hn r hr').2.2
        omega
      rw [Dest.fill_byte, if_neg (by omega)] at hmissed
      cases hmissed.symm.trans ((hbyte reach).2 hbehind)
    · refine (along_or_lost (.start c.params) hr hf).resolve_right fun hlost => ?_
      obtain ⟨x, hx, hnobody⟩ := hlost.unwritten c.mapped
      obtain ⟨x, rfl⟩ := Int.eq_ofNat_of_zero_le hx.1
      have hbulk := hx.2.1
      rw [c.bulk] at hbulk
      have hle' := bulkEnd_le size
      have hmissed := hwhole x (by omega) (.inl hx)
      rw [Dest.fill_byte, if_neg (by omega)] at hmissed
      cases hmissed.symm.trans ((hbyte x).2 hnobody)
  · rintro ⟨rfl, halong⟩
    refine ⟨?_, fun x hx hdata => ?_⟩
    · have hfull : (bulkWorld reach s.written).dest.size = reach := hsize
      rw [Dest.fill_size _ hle, hfull, max_self, ite_self]
    · rw [Dest.fill_byte]
      split_ifs with htailed
      · rfl
      · obtain ⟨m, hleft, hover, hperm⟩ := (sound_of_exec halong hr hf).written_perm hj
        have hin : InData c.params x := hdata.resolve_right fun hle' => htailed ⟨hle', hx⟩
        obtain ⟨r, hr', hxr⟩ := ((chunksFrom_start c.mapped hleft hover).2 x).mpr hin
        exact (hbyte x).1 ⟨r, hperm.mem_iff.mpr hr', hxr⟩

end Copy

end Large

end Ecopy.Transfer
