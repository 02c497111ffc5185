import Ecopy.Transfer.Blocks

/-!
# Small dense copies

The loop over the bulk copies with `copy_file_range` as long as that works, and goes on with
plain reads where it does not. `copy_file_range` moves no file offset: the plain reads begin
at the start of the file, while the loop counts on from the position it has reached. What
lies between the two ends of such a copy is written by nobody.

The tail follows from where the loop ends. Whoever succeeds has copied the whole file, unless
the tail met the end of the source, or the loop changed its way in the middle of the bulk.
-/
namespace Ecopy.Transfer
open Lib.Calls
open Workers.SmallCopy (Tuning RangeResult alignment)

def rangedBy : Event → ℕ
  | ⟨.copyFileRange _ _, (r : Except Fault ℕ)⟩ => r.toOption.getD 0
  | _ => 0

/-- What `copy_file_range` has moved. -/
def ranged (tr : List Event) : ℕ := (tr.map rangedBy).sum

def refused : Event → Bool
  | ⟨.copyFileRange _ _, (r : Except Fault ℕ)⟩ => !r.isOk
  | _ => false

@[simp] theorem ranged_nil : ranged [] = 0 := rfl

@[simp] theorem ranged_cons (e : Event) (tr : List Event) :
    ranged (e :: tr) = rangedBy e + ranged tr :=
  List.sum_cons

@[simp] theorem ranged_append (tr tr' : List Event) :
    ranged (tr ++ tr') = ranged tr + ranged tr' := by
  unfold ranged
  rw [List.map_append, List.sum_append]

/-- A part of a copy without `copy_file_range`. -/
structure Plain (tr : List Event) : Prop where
  ranged : ranged tr = 0
  refused : tr.any refused = false

theorem Plain.nil : Plain [] := ⟨rfl, rfl⟩

theorem Plain.cons {e : Event} {tr : List Event} (he : rangedBy e = 0 ∧ Transfer.refused e = false)
    (h : Plain tr) : Plain (e :: tr) where
  ranged := by rw [ranged_cons, he.1, h.ranged]
  refused := by rw [List.any_cons, he.2, h.refused, Bool.or_self]

theorem Plain.append {tr tr' : List Event} (h : Plain tr) (h' : Plain tr') : Plain (tr ++ tr') where
  ranged := by rw [ranged_append, h.ranged, h'.ranged]
  refused := by rw [List.any_append, h.refused, h'.refused, Bool.or_self]

theorem Plain.of_forall {tr : List Event} (h : ∀ e ∈ tr, ∀ pos len, e.1 ≠ .copyFileRange pos len) :
    Plain tr := by
  induction tr with
  | nil => exact .nil
  | cons e tr ih =>
    obtain ⟨c, r⟩ := e
    have hc := h _ List.mem_cons_self
    refine .cons ?_ (ih fun e he => h e (List.mem_cons_of_mem _ he))
    cases c with
    | copyFileRange pos len => exact absurd rfl (hc pos len)
    | _ => exact ⟨rfl, rfl⟩

theorem Silent.plain {tr : List Event} (h : Silent tr) : Plain tr := by
  refine Plain.of_forall fun e he pos len heq => ?_
  have hc := h e he
  rw [heq] at hc
  exact hc

section Loops
variable {known : Bool} {s t : World} {tr : List Event} {fuel : ℕ} {cfg : Tuning} {size : ℕ}

theorem keeps_writeAll (fuel src len : ℕ) :
    (writeAll fuel src len).Keeps ReadsNothing fun _ _ => True := by
  induction fuel generalizing src len with
  | zero => trivial
  | succ fuel ih =>
    unfold writeAll
    split
    · trivial
    · refine Prog.Keeps.call trivial fun r _ => ?_
      cases r with
      | error e => trivial
      | ok n => exact ih _ _

/-- A range that was copied, or refused on the way. -/
structure Ranged (s t : World) (tr : List Event) (pos remaining : ℕ) (res : RangeResult) :
    Prop where
  le : ranged tr ≤ remaining
  world : t = { s with dest := s.dest.fill pos (pos + ranged tr) }
  copied : res = .copied → ranged tr = remaining ∧ tr.any refused = false
  unsupported : res = .unsupported → ranged tr < remaining ∧ tr.any refused = true
  early : tr.any early = false

theorem copyFileRangeWithProgress_runs {pos remaining : ℕ} {res : RangeResult}
    (h : (copyFileRangeWithProgress fuel pos remaining).Runs (answer known) s tr t res)
    (hres : res ≠ .failed) : Ranged s t tr pos remaining res := by
  induction fuel generalizing s tr pos remaining with
  | zero => exact absurd (Prog.runs_ret_iff.mp h).2.2 hres
  | succ fuel ih =>
    unfold copyFileRangeWithProgress at h
    split at h
    · rename_i hend
      obtain ⟨rfl, rfl, rfl⟩ := Prog.runs_ret_iff.mp h
      refine ⟨Nat.zero_le _, ?_, fun _ => ⟨hend.symm, rfl⟩, nofun, rfl⟩
      rw [ranged_nil, Nat.add_zero, Dest.fill_self]
    rename_i hmore
    obtain ⟨x, moved, u, rest, hx, rfl, hrun⟩ := Prog.runs_perform_iff.mp h
    cases moved with
    | error e =>
      obtain rfl := moves_error hx
      obtain ⟨rfl, rfl, rfl⟩ := Prog.runs_ret_iff.mp hrun
      split_ifs at hres ⊢ with hunsupported
      · refine ⟨Nat.zero_le _, ?_, nofun, fun _ => ⟨Nat.pos_of_ne_zero hmore, rfl⟩, rfl⟩
        show t = { t with dest := t.dest.fill pos (pos + 0) }
        rw [Nat.add_zero, Dest.fill_self]
      · exact absurd rfl hres
    | ok n =>
      obtain ⟨hn, rfl⟩ := moves_ok hx
      dsimp only at hrun
      split_ifs at hrun with hzero
      · exact absurd (Prog.runs_ret_iff.mp hrun).2.2 hres
      obtain ⟨hle, hworld, hcopied, hunsupported, hearly⟩ := ih hrun
      have hsum : ranged (⟨.copyFileRange pos remaining, Except.ok n⟩ :: rest) =
          n + ranged rest := ranged_cons _ _
      have hany :
          (⟨.copyFileRange pos remaining, Except.ok n⟩ :: rest : List Event).any refused =
            rest.any refused := Bool.false_or _
      refine ⟨by rw [hsum]; omega, ?_, fun hr => ?_, fun hr => ?_, hearly⟩
      · rw [hworld, hsum, ← Nat.add_assoc, ← Dest.fill_add,
          Dest.fill_fill _ (Nat.le_add_right pos n) (Nat.le_add_right _ _)]
      · obtain ⟨hall, hnone⟩ := hcopied hr
        exact ⟨by rw [hsum]; omega, by rw [hany]; exact hnone⟩
      · obtain ⟨hless, hsome⟩ := hunsupported hr
        exact ⟨by rw [hsum]; omega, by rw [hany]; exact hsome⟩

/-- Plain reads and writes from the file offset on. -/
structure Resumed (s t : World) (tr : List Event) (offset pos copyEnd reached : ℕ) : Prop where
  reached : reached = max pos copyEnd
  dest : t.dest = s.dest.fill offset (offset + (copyEnd - pos))
  plain : Plain tr
  early : tr.any early = false

theorem copyLoop_plain_runs {copyEnd pos offset reached : ℕ} (hout : s.outAt = offset)
    (h : (copyLoop cfg size fuel copyEnd pos offset false).Runs (answer known) s tr t
      (some reached)) : Resumed s t tr offset pos copyEnd reached := by
  induction fuel generalizing s tr pos offset with
  | zero => cases (Prog.runs_ret_iff.mp h).2.2
  | succ fuel ih =>
    unfold copyLoop at h
    split at h
    · rename_i hend
      obtain ⟨rfl, rfl, heq⟩ := Prog.runs_ret_iff.mp h
      refine ⟨(Option.some.inj heq).trans (max_eq_left hend).symm, ?_, .nil, rfl⟩
      rw [Nat.sub_eq_zero_of_le hend, Nat.add_zero, Dest.fill_self]
    rename_i hleft
    rw [if_neg Bool.false_ne_true] at h
    obtain ⟨x, bytes, u, rest, hx, rfl, hread⟩ := Prog.runs_perform_iff.mp h
    cases bytes with
    | error e => cases (Prog.runs_ret_iff.mp hread).2.2
    | ok r =>
    obtain ⟨-, rfl⟩ := moves_ok hx
    dsimp only at hread
    split_ifs at hread with hshort
    · cases (Prog.runs_ret_iff.mp hread).2.2
    obtain ⟨before, after, v, done, rfl, hwrite, hend⟩ := Prog.runs_bind_iff.mp hread
    cases done with
    | false => cases (Prog.runs_ret_iff.mp hend).2.2
    | true =>
    have hv := writeAll_runs hwrite
    have hsilent := Silent.of_keeps (keeps_writeAll _ _ _) hwrite
    have hrest := ih (by rw [hv, hout]) hend
    refine ⟨hrest.reached.trans (by omega), ?_, ?_, ?_⟩
    · rw [hrest.dest, hv, hout, ← Dest.fill_add,
        Dest.fill_fill _ (Nat.le_add_right _ _) (Nat.le_add_right _ _)]
      congr 1
      omega
    · exact .cons ⟨rfl, rfl⟩ (hsilent.plain.append hrest.plain)
    · rw [List.any_cons, List.any_append, hsilent.early, hrest.early]
      rfl

/-- What the loop over the bulk has copied. A refusal came in the chunk at `p`. -/
inductive Bulk (cfg : Tuning) (size : ℕ) (s t : World) (tr : List Event) (pos reached : ℕ) : Prop
  | copied (done : reached = size) (dest : t.dest = s.dest.fill pos size)
      (never : tr.any refused = false)
  | resumed (p : ℕ) (aligned : cfg.chunkSize ∣ p) (begun : p ≤ pos + ranged tr)
      (inside : pos + ranged tr < p + cfg.chunkSize) (short : pos + ranged tr < size)
      (done : reached = max p (bulkEnd size))
      (dest : t.dest = (s.dest.fill pos (pos + ranged tr)).fill 0 (bulkEnd size - p))
      (once : tr.any refused = true)

theorem copyLoop_runs {pos reached : ℕ} (hout : s.outAt = 0) (hpos : pos ≤ size)
    (hchunk : cfg.chunkSize ∣ pos ∨ pos = size)
    (h : (copyLoop cfg size fuel size pos 0 true).Runs (answer known) s tr t (some reached)) :
    Bulk cfg size s t tr pos reached ∧ tr.any early = false := by
  induction fuel generalizing s tr pos with
  | zero => cases (Prog.runs_ret_iff.mp h).2.2
  | succ fuel ih =>
    unfold copyLoop at h
    split at h
    · rename_i hend
      obtain ⟨rfl, rfl, heq⟩ := Prog.runs_ret_iff.mp h
      obtain rfl := le_antisymm hpos hend
      exact ⟨.copied (Option.some.inj heq) (Dest.fill_self _ _).symm rfl, rfl⟩
    rename_i hleft
    rw [if_pos rfl] at h
    obtain ⟨before, after, u, res, rfl, hrange, hrest⟩ := Prog.runs_bind_iff.mp h
    cases res with
    | failed => cases (Prog.runs_ret_iff.mp hrest).2.2
    | copied =>
      obtain ⟨-, hworld, hcopied, -, hearly⟩ := copyFileRangeWithProgress_runs hrange nofun
      obtain ⟨hall, hnone⟩ := hcopied rfl
      have hnext : cfg.chunkSize ∣ pos + min cfg.chunkSize (size - pos) ∨
          pos + min cfg.chunkSize (size - pos) = size := by
        rcases Nat.le_total cfg.chunkSize (size - pos) with hle | hle
        · left
          rw [min_eq_left hle]
          exact Nat.dvd_add (hchunk.resolve_right (by omega)) (Nat.dvd_refl _)
        · right
          omega
      obtain ⟨hbulk, hlater⟩ := ih (by rw [hworld, hout]) (by omega) hnext hrest
      rw [hall] at hworld
      refine ⟨?_, by rw [List.any_append, hearly, hlater]; rfl⟩
      have hsum : pos + ranged (before ++ after) =
          pos + min cfg.chunkSize (size - pos) + ranged after := by
        rw [ranged_append, hall, Nat.add_assoc]
      cases hbulk with
      | copied done dest never =>
        refine .copied done ?_ (by rw [List.any_append, hnone, never]; rfl)
        rw [dest, hworld, Dest.fill_fill _ (by omega) (by omega)]
      | resumed p aligned begun inside short done dest once =>
        refine .resumed p aligned (hsum ▸ begun) (hsum ▸ inside) (hsum ▸ short) done ?_
          (by rw [List.any_append, once, Bool.or_true])
        rw [hsum, dest, hworld, Dest.fill_fill _ (by omega) (by omega)]
    | unsupported =>
      obtain ⟨-, hworld, -, hunsupported, hearly⟩ := copyFileRangeWithProgress_runs hrange nofun
      obtain ⟨hless, hsome⟩ := hunsupported rfl
      have hplain := copyLoop_plain_runs (by rw [hworld, hout]) hrest
      have hsum : ranged (before ++ after) = ranged before := by
        rw [ranged_append, hplain.plain.ranged, Nat.add_zero]
      have hnear : pos + ranged before < pos + cfg.chunkSize ∧ pos + ranged before < size := by
        omega
      refine ⟨.resumed pos (hchunk.resolve_right (by omega)) ?_ ?_ ?_ hplain.reached ?_ ?_, ?_⟩
      · exact Nat.le_add_right _ _
      · rw [hsum]
        exact hnear.1
      · rw [hsum]
        exact hnear.2
      · rw [hplain.dest, hworld, hsum, Nat.zero_add]
      · rw [List.any_append, hsome, Bool.true_or]
      · rw [List.any_append, hearly, hplain.early]
        rfl

/-- Ranges up to `r`, plain reads from the start on for what was left of the bulk at `p`, and
the tail. -/
theorem resumed_whole_iff {p r bulk reach : ℕ} (hp : p ≤ r) (hr : r < size) (hbulk : bulk ≤ size)
    (hreach : max p bulk ≤ reach) (hsize : reach ≤ size) :
    Whole size (fun _ => True)
        (((Dest.empty.fill 0 r).fill 0 (bulk - p)).fill (max p bulk) reach) ↔
      reach = size ∧ (p = 0 ∨ bulk ≤ r) := by
  have hbyte : ∀ x, (((Dest.empty.fill 0 r).fill 0 (bulk - p)).fill (max p bulk) reach).byte x =
      if (max p bulk ≤ x ∧ x < reach) ∨ x < bulk - p ∨ x < r then some x else none := by
    intro x
    simp only [Dest.fill_byte, Nat.zero_le, true_and]
    rw [ite_or, ite_or]
    rfl
  have hend : (((Dest.empty.fill 0 r).fill 0 (bulk - p)).fill (max p bulk) reach).size =
      max (max r (bulk - p)) (if max p bulk = reach then 0 else reach) := by
    have hempty : Dest.empty.size = 0 := rfl
    rw [Dest.fill_size _ hreach, Dest.fill_zero_size, Dest.fill_zero_size, hempty, Nat.zero_max]
    split_ifs
    · rw [Nat.max_zero]
    · rfl
  constructor
  · rintro ⟨-, hwhole⟩
    have hall : ∀ x < size, (max p bulk ≤ x ∧ x < reach) ∨ x < bulk - p ∨ x < r := by
      intro x hx
      by_contra hmissed
      have hx' := hwhole x hx trivial
      rw [hbyte, if_neg hmissed] at hx'
      cases hx'
    refine ⟨?_, ?_⟩
    · have hlast := hall (size - 1) (by omega)
      omega
    · by_contra hgap
      have hlast := hall (bulk - 1) (by omega)
      omega
  · rintro ⟨rfl, hseam⟩
    refine ⟨?_, fun x hx _ => ?_⟩
    · rw [hend]
      split_ifs <;> omega
    · rw [hbyte, if_pos (by omega)]

theorem bulkEnd_le (size : ℕ) : bulkEnd size ≤ size := Nat.div_mul_le_self _ _

/-- `copy_file_range` was not refused between its first chunk and the end of the bulk. -/
def Seamless (cfg : Tuning) (size : ℕ) (tr : List Event) : Prop :=
  tr.any refused = true → ranged tr < cfg.chunkSize ∨ bulkEnd size ≤ ranged tr

theorem Bulk.whole_iff {reached reach : ℕ} (h : Bulk cfg size .start s tr 0 reached)
    (hreach : reached ≤ reach) (hsize : reach ≤ size) :
    Whole size (fun _ => True) (s.dest.fill reached reach) ↔
      reach = size ∧ Seamless cfg size tr := by
  cases h with
  | copied done dest never =>
    have hseam : Seamless cfg size tr := fun hsome =>
      (Bool.false_ne_true (never.symm.trans hsome)).elim
    obtain rfl := done
    obtain rfl := le_antisymm hsize hreach
    rw [dest, Dest.fill_fill _ (Nat.zero_le _) le_rfl, and_iff_left hseam]
    exact filled_whole_iff (Nat.zero_le _) fun _ => rfl
  | resumed p aligned begun inside short done dest once =>
    rw [Nat.zero_add] at begun inside short dest
    have hseam : Seamless cfg size tr ↔ p = 0 ∨ bulkEnd size ≤ ranged tr := by
      have hfirst : ranged tr < cfg.chunkSize ↔ p = 0 := by
        constructor
        · intro hlt
          exact Nat.eq_zero_of_dvd_of_lt aligned (by omega)
        · rintro rfl
          rwa [Nat.zero_add] at inside
      unfold Seamless
      rw [once, hfirst, imp_iff_right rfl]
    rw [hseam, dest, done]
    exact resumed_whole_iff begun short (bulkEnd_le size) (done ▸ hreach) hsize

/-- The tail ends with the file. -/
theorem copyTailBufferedFds_runs {start : ℕ} (hstart : start ≤ size)
    (h : (copyTailBufferedFds fuel start size).Runs (answer known) s tr t true) :
    ∃ reach, start ≤ reach ∧ reach ≤ size ∧ t.dest = s.dest.fill start reach ∧
      (tr.any early = false ↔ reach = size) ∧ Plain tr := by
  obtain ⟨reach, hle, hdest, hearly, -, hwithin⟩ :=
    copyBlocks_runs (Looks.always known False) (Hands.writeBlock known fuel) hstart h False.elim
  have hend : reach ≤ size := by
    rcases hwithin with hend | ⟨p, hp, hasked⟩
    · exact hend
    · unfold upTo at hasked
      omega
  refine ⟨reach, hle, hend, hdest, ?_, ?_⟩
  · rw [← Bool.not_eq_true, hearly]
    omega
  · refine Plain.of_forall fun e he => ?_
    have hkeeps : (copyTailBufferedFds fuel start size).Keeps
        (fun c => ∀ pos len, c ≠ .copyFileRange pos len) fun _ _ => True := by
      refine keeps_copyBlocks (fun _ _ _ _ h => nomatch h) ?_ (fun pos len => ?_) _ _ _
      · exact trivial
      refine (keeps_pwriteAll fuel pos pos len).weaken ?_ fun _ _ _ => trivial
      rintro c hc p l rfl
      exact hc
    exact (hkeeps.calls h).1 e he

/-- Where the loop over the bulk ends, the tail begins. -/
theorem bulk_then_tail_whole_iff {loop tail : List Event} {u : World} {reached : ℕ} {range : Bool}
    (hloop : (copyLoop cfg size fuel (if range then size else bulkEnd size) 0 0 range).Runs
      (answer known) .start loop u (some reached))
    (htail : (copyTailBufferedFds fuel reached size).Runs (answer known) u tail t true) :
    loop.any early = false ∧ Plain tail ∧
      (Whole size (fun _ => True) t.dest ↔ tail.any early = false ∧ Seamless cfg size loop) := by
  cases range with
  | true =>
    rw [if_pos rfl] at hloop
    obtain ⟨hbulk, hquiet⟩ := copyLoop_runs rfl (Nat.zero_le _) (.inl (dvd_zero _)) hloop
    have hend : reached ≤ size := by
      cases hbulk with
      | copied done => exact done.le
      | resumed p _ begun _ short done => rw [done]; have := bulkEnd_le size; omega
    obtain ⟨reach, hle, hsize, hdest, hearly, hplain⟩ := copyTailBufferedFds_runs hend htail
    refine ⟨hquiet, hplain, ?_⟩
    rw [hdest, hearly]
    exact hbulk.whole_iff hle hsize
  | false =>
    rw [if_neg Bool.false_ne_true] at hloop
    obtain ⟨hreached, hbulk, hplain, hquiet⟩ :=
      copyLoop_plain_runs (show World.start.outAt = 0 from rfl) hloop
    rw [Nat.zero_max] at hreached
    subst hreached
    obtain ⟨reach, hle, hsize, hdest, hearly, htailPlain⟩ :=
      copyTailBufferedFds_runs (bulkEnd_le size) htail
    have hseam : Seamless cfg size loop := fun hsome =>
      (Bool.false_ne_true (hplain.refused.symm.trans hsome)).elim
    refine ⟨hquiet, htailPlain, ?_⟩
    rw [hdest, hbulk, Nat.zero_add, Nat.sub_zero, Dest.fill_fill _ (Nat.zero_le _) hle, hearly,
      and_iff_left hseam]
    exact filled_whole_iff (Nat.zero_le _) fun _ => rfl

theorem copyFileSerialSmall_whole_iff
    (h : (copyFileSerialSmall cfg size fuel).Runs (answer known) .start tr t true) :
    Whole size (fun _ => True) t.dest ↔ tr.any early = false ∧ Seamless cfg size tr := by
  obtain ⟨x₁, tr₁, rfl, h₁⟩ := guard_attempt_runs h
  obtain ⟨x₂, tr₂, rfl, h₂⟩ := guard_attempt_runs h₁
  obtain ⟨first, tr₃, w, direct, rfl, hdirect, h₃⟩ := Prog.runs_bind_iff.mp h₂
  obtain ⟨rfl, x₃, rfl⟩ := attempt_runs hdirect
  obtain ⟨x₄, tr₄, rfl, h₄⟩ := guard_attempt_runs h₃
  obtain ⟨loop, tr₅, u, res, rfl, hloop, h₅⟩ := Prog.runs_bind_iff.mp h₄
  cases res with
  | none => cases (Prog.runs_ret_iff.mp h₅).2.2
  | some reached =>
  obtain ⟨x₆, tr₆, rfl, h₆⟩ := guard_attempt_runs h₅
  obtain ⟨tail, tr₇, v, rfl, htail, h₇⟩ := guard_runs h₆
  obtain ⟨x₈, tr₈, rfl, h₈⟩ := guard_attempt_runs h₇
  obtain ⟨rfl, x₉, rfl⟩ := attempt_runs h₈
  have hstart : (if direct then bulkEnd size else reached) = reached := by
    split_ifs with hd
    · rw [hd] at hloop
      have hreached := (copyLoop_plain_runs (show World.start.outAt = 0 from rfl) hloop).reached
      rw [hreached]
      exact (Nat.zero_max _).symm
    · rfl
  rw [hstart] at htail
  obtain ⟨hquiet, hplain, hiff⟩ := bulk_then_tail_whole_iff hloop htail
  rw [hiff]
  simp only [Seamless, List.any_cons, List.any_append, List.any_nil, ranged_cons, ranged_append,
    ranged_nil, early, refused, rangedBy, hquiet, hplain.refused, hplain.ranged, Bool.false_or,
    Bool.or_false, Nat.zero_add, Nat.add_zero]

end Loops

end Ecopy.Transfer
