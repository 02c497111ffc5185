import Ecopy.Workers.Contents

/-!
# The loops of a small copy

`copy_file_range` is given explicit offsets and leaves the offsets of the descriptors at
zero. When the kernel refuses it for a later chunk, the plain reads and writes that take
over start again at the beginning of the file, and stop as many bytes before the end of the
bulk as had been copied.
-/
namespace Ecopy.Workers.RangeFallback
open Protocol Ecopy.Path FileSystem Server Lib.Calls
open SmallCopy OtherCopies Events CallsMade Metadata Contents

/-- A transfer at `pos` that stopped with an error after `q` bytes. In a copy that succeeds
this is a refused `copy_file_range`. -/
def Refused (pos q : ℕ) : Event → Prop
  | ⟨.pread _ _ off, (r : Except Errno Bytes)⟩ => r.isOk = false ∧ off = pos ∧ q = 0
  | ⟨.pwrite _ off _, (r : Except (Errno × ℕ) Unit)⟩ => ∃ e, r = .error (e, q) ∧ off = pos
  | _ => False

/-- Nothing was refused. -/
def Smooth (tr : List Event) : Prop := ∀ ev ∈ tr, ∀ pos q, ¬ Refused pos q ev

/-- What was refused is known. -/
def RefusedOnly (pos q : ℕ) (tr : List Event) : Prop :=
  ∀ pos' q', (∃ ev ∈ tr, Refused pos' q' ev) ↔ pos' = pos ∧ q' = q

theorem smooth_append {tr tr' : List Event} : Smooth (tr ++ tr') ↔ Smooth tr ∧ Smooth tr' := by
  simp only [Smooth, List.mem_append, or_imp, forall_and]

theorem RefusedOnly.append {pos q : ℕ} {tr tr' : List Event} (h : RefusedOnly pos q tr)
    (h' : Smooth tr') : RefusedOnly pos q (tr ++ tr') := by
  intro pos' q'
  rw [← h pos' q']
  constructor
  · rintro ⟨ev, hev, href⟩
    rcases List.mem_append.mp hev with hev | hev
    · exact ⟨ev, hev, href⟩
    · exact absurd href (h' ev hev pos' q')
  · rintro ⟨ev, hev, href⟩
    exact ⟨ev, List.mem_append_left _ hev, href⟩

theorem RefusedOnly.prepend {pos q : ℕ} {tr tr' : List Event} (h : RefusedOnly pos q tr')
    (h' : Smooth tr) : RefusedOnly pos q (tr ++ tr') := by
  intro pos' q'
  rw [← h pos' q']
  constructor
  · rintro ⟨ev, hev, href⟩
    rcases List.mem_append.mp hev with hev | hev
    · exact absurd href (h' ev hev pos' q')
    · exact ⟨ev, hev, href⟩
  · rintro ⟨ev, hev, href⟩
    exact ⟨ev, List.mem_append_right _ hev, href⟩

section Loops
variable {who : Identity} {cfg : Tuning} {t : Task} {w v : World} {tr : List Event}
  {data : Bytes} {fdIn fdOut : Fd} {fuel copyEnd pos off m pos' : ℕ} {direct direct' : Bool}

theorem smooth_of_tends {α : Type} {p : Handler α} {a : α} (hp : TendsOnly p)
    (h : p.Runs (answerIds who) w tr v a) : Smooth tr := by
  intro ev hev pos q href
  obtain ⟨c, r⟩ := ev
  have hc := (hp.calls h).1 _ hev
  cases c with
  | pread | pwrite => exact hc
  | _ => exact href

/-- One plain read and write. -/
theorem moved_range {x y : Choice} {len : ℕ} {bytes : Bytes} {r : Except (Errno × ℕ) Unit} {u : World}
    (hsep : fdIn.ino = fdOut.ino → data = []) (hin : Holds w fdIn.ino data)
    (hout : Holds w fdOut.ino (data.take m)) (hoff : off ≤ m)
    (hread : answerIds who w x (.pread fdIn len off) = some (.ok bytes, u))
    (hwrite : answerIds who u y (.pwrite fdOut off bytes) = some (r, v)) :
    Holds v fdIn.ino data ∧ off + len ≤ data.length ∧ written bytes r ≤ len ∧
      Holds v fdOut.ino (data.take (max m (off + written bytes r))) := by
  obtain ⟨rfl, rfl, hlen⟩ := pread_ok hin hread
  obtain ⟨hout', hle, hframe⟩ := pwrite_holds hout hwrite
  have hlength : ((data.drop off).take len).length = len := by simp; omega
  rw [hlength] at hle
  rw [List.take_take, Nat.min_eq_left hle, splice_take hoff (by omega)] at hout'
  refine ⟨?_, hlen, hle, hout'⟩
  by_cases hsame : fdIn.ino = fdOut.ino
  · obtain rfl := hsep hsame
    rw [hsame]
    simpa using hout'
  · exact hin.of_kind (hframe _ fun heq => hsame heq.symm)

/-- Where the loop ends after `n` bytes is where it would have ended before them. -/
theorem ends_after (m off : ℕ) {n : ℕ} (hmore : pos < copyEnd) (hn : n ≤ copyEnd - pos) :
    max (pos + n) copyEnd = max pos copyEnd ∧
      max (max m (off + n)) (off + n + (copyEnd - (pos + n))) = max m (off + (copyEnd - pos)) := by
  constructor
  · omega
  · rw [max_assoc, max_eq_right (Nat.le_add_right (off + n) _)]
    congr 1
    omega

/-- The plain loop copies as many bytes as its positions say, from where its offsets are. -/
theorem plain_loop (hsep : fdIn.ino = fdOut.ino → data = []) (hin : Holds w fdIn.ino data)
    (hout : Holds w fdOut.ino (data.take m)) (hoff : off ≤ m)
    (h : (copyLoop cfg t fdIn fdOut fuel copyEnd pos off false direct).Runs (answerIds who) w tr v
      (some (pos', direct'))) :
    pos' = max pos copyEnd ∧ Holds v fdIn.ino data ∧ Smooth tr ∧
      Holds v fdOut.ino (data.take (max m (off + (copyEnd - pos)))) := by
  induction fuel generalizing w tr m pos off with
  | zero => cases (Prog.runs_ret_iff.mp h).2.2
  | succ fuel ih =>
  unfold copyLoop at h
  split at h
  · rename_i hdone
    obtain ⟨rfl, rfl, heq⟩ := Prog.runs_ret_iff.mp h
    obtain ⟨rfl, -⟩ := Prod.mk.inj (Option.some.inj heq)
    refine ⟨(Nat.max_eq_left hdone).symm, hin, by simp [Smooth], ?_⟩
    rwa [Nat.sub_eq_zero_of_le hdone, Nat.add_zero, Nat.max_eq_left hoff]
  rename_i hmore
  rw [Nat.not_le] at hmore
  have hlen : 0 < min cfg.chunkSize (copyEnd - pos) := by
    have hchunk := cfg.chunkSize_pos
    omega
  dsimp only at h
  simp only [Bool.false_eq_true, if_false] at h
  obtain ⟨x, bytes, u, rest, hread, rfl, hrun⟩ := Prog.runs_perform_iff.mp h
  cases bytes with
  | error e => cases (Prog.runs_ret_iff.mp hrun).2.2
  | ok bytes =>
  have hbytes : bytes ≠ [] := by
    obtain ⟨-, rfl, hfits⟩ := pread_ok hin hread
    apply List.ne_nil_of_length_pos
    simp only [List.length_take, List.length_drop]
    omega
  obtain ⟨before, after, s, wrote, rfl, hwrite, hend⟩ := Prog.runs_bind_iff.mp hrun
  rw [pwriteAll, if_neg hbytes] at hwrite
  obtain ⟨y, r, z, last, hwrite, rfl, hret⟩ := Prog.runs_call_iff.mp hwrite
  obtain ⟨rfl, rfl, rfl⟩ := Prog.runs_ret_iff.mp hret
  obtain ⟨hin', hfits, -, hout'⟩ := moved_range hsep hin hout hoff hread hwrite
  cases wrote with
  | error e => cases (Prog.runs_ret_iff.mp hend).2.2
  | ok _ =>
  have hwritten : written bytes (.ok ()) = min cfg.chunkSize (copyEnd - pos) := by
    obtain ⟨-, rfl, -⟩ := pread_ok hin hread
    simp only [written, List.length_take, List.length_drop]
    omega
  rw [hwritten] at hout'
  obtain ⟨hpos, hin'', hsmooth, hout''⟩ := ih hin' hout' (Nat.le_max_right _ _) (by exact hend)
  obtain ⟨hends, hfilled⟩ := ends_after m off hmore (Nat.min_le_right cfg.chunkSize _)
  refine ⟨hpos.trans hends, hin'', ?_, ?_⟩
  · intro ev hev pos q href
    rcases List.mem_cons.mp hev with rfl | hev
    · exact Bool.false_ne_true href.1.symm
    rcases List.mem_cons.mp hev with rfl | hev
    · obtain ⟨e, herr, -⟩ := href
      cases herr
    · exact hsmooth ev hev pos q href
  · rwa [hfilled] at hout''

theorem smooth_transfer {off' : ℤ} {len : ℕ} {bytes : Bytes} :
    Smooth [⟨.pread fdIn len off', .ok bytes⟩, ⟨.pwrite fdOut off' bytes, .ok ()⟩] := by
  intro ev hev pos q href
  rcases List.mem_cons.mp hev with rfl | hev
  · exact Bool.false_ne_true href.1.symm
  · obtain rfl := List.mem_singleton.mp hev
    obtain ⟨e, herr, -⟩ := href
    cases herr

theorem smooth_nil : Smooth [] := by simp [Smooth]

/-- One `copy_file_range`: all of the range arrives, or it is refused after some bytes. -/
theorem range_step {len : ℕ} {res : RangeResult} (hsep : fdIn.ino = fdOut.ino → data = [])
    (hin : Holds w fdIn.ino data) (hout : Holds w fdOut.ino (data.take pos))
    (hpos : pos ≤ data.length)
    (h : (copyFileRangeWithProgress fdIn fdOut pos len).Runs (answerIds who) w tr v res) :
    Holds v fdIn.ino data ∧
      ((res = .copied ∧ Smooth tr ∧ pos + len ≤ data.length ∧
          Holds v fdOut.ino (data.take (pos + len))) ∨
        ∃ q, res ≠ .copied ∧ RefusedOnly pos q tr ∧ Holds v fdOut.ino (data.take (pos + q))) := by
  obtain ⟨x, bytes, u, rest, hread, rfl, hrun⟩ := Prog.runs_perform_iff.mp h
  cases bytes with
  | error e =>
    obtain rfl := query_eq (Option.some.inj hread)
    obtain ⟨rfl, rfl, rfl⟩ := Prog.runs_ret_iff.mp hrun
    refine ⟨hin, .inr ⟨0, ?_, ?_, hout⟩⟩
    · unfold rangeFailure
      split <;> decide
    · intro pos' q'
      simp only [List.mem_singleton, exists_eq_left, Refused, Except.isOk, Except.toBool, true_and]
      constructor
      · rintro ⟨hp, hq⟩
        exact ⟨by omega, hq⟩
      · rintro ⟨rfl, rfl⟩
        exact ⟨rfl, rfl⟩
  | ok bytes =>
    obtain ⟨y, wrote, z, last, hwrite, rfl, hret⟩ := Prog.runs_perform_iff.mp hrun
    obtain ⟨hin', hfits, hle, hout'⟩ := moved_range hsep hin hout (le_refl pos) hread hwrite
    have hreach : max pos (pos + written bytes wrote) = pos + written bytes wrote := by omega
    rw [hreach] at hout'
    cases wrote with
    | ok _ =>
      obtain ⟨rfl, rfl, rfl⟩ := Prog.runs_ret_iff.mp hret
      have hwritten : written bytes (.ok ()) = len := by
        obtain ⟨-, rfl, -⟩ := pread_ok hin hread
        simp only [written, List.length_take, List.length_drop]
        omega
      rw [hwritten] at hout'
      exact ⟨hin', .inl ⟨rfl, smooth_transfer, hfits, hout'⟩⟩
    | error e =>
      obtain ⟨e, q⟩ := e
      obtain ⟨rfl, rfl, rfl⟩ := Prog.runs_ret_iff.mp hret
      refine ⟨hin', .inr ⟨q, ?_, ?_, hout'⟩⟩
      · unfold rangeFailure
        split <;> decide
      · intro pos' q'
        constructor
        · rintro ⟨ev, hev, href⟩
          rcases List.mem_cons.mp hev with rfl | hev
          · exact absurd href.1.symm Bool.false_ne_true
          · obtain rfl := List.mem_singleton.mp hev
            obtain ⟨e', herr, hp⟩ := href
            exact ⟨by omega, (Prod.mk.inj (Except.error.inj herr)).2.symm⟩
        · rintro ⟨rfl, rfl⟩
          exact ⟨⟨.pwrite fdOut pos' bytes, .error (e, q')⟩, by simp, e, rfl, rfl⟩

/-- The loop that starts with `copy_file_range`. -/
theorem range_loop (hsep : fdIn.ino = fdOut.ino → data = []) (hin : Holds w fdIn.ino data)
    (hout : Holds w fdOut.ino (data.take pos)) (hpos : pos ≤ data.length)
    (hsize : t.size = data.length)
    (h : (copyLoop cfg t fdIn fdOut fuel t.size pos 0 true direct).Runs (answerIds who) w tr v
      (some (pos', direct'))) :
    Holds v fdIn.ino data ∧
      ((pos' = t.size ∧ Smooth tr ∧ Holds v fdOut.ino data) ∨
        ∃ p q, pos' = max p t.bulkEnd ∧ p ≤ t.size ∧ RefusedOnly p q tr ∧
          Holds v fdOut.ino (data.take (max (p + q) (t.bulkEnd - p)))) := by
  induction fuel generalizing w tr pos with
  | zero => cases (Prog.runs_ret_iff.mp h).2.2
  | succ fuel ih =>
  unfold copyLoop at h
  split at h
  · rename_i hdone
    obtain ⟨rfl, rfl, heq⟩ := Prog.runs_ret_iff.mp h
    obtain ⟨rfl, -⟩ := Prod.mk.inj (Option.some.inj heq)
    have hall : data.take pos' = data := List.take_of_length_le (by omega)
    rw [hall] at hout
    exact ⟨hin, .inl ⟨by omega, smooth_nil, hout⟩⟩
  rename_i hmore
  dsimp only at h
  simp only [if_true] at h
  obtain ⟨before, after, u, res, rfl, hstep, hrun⟩ := Prog.runs_bind_iff.mp h
  obtain ⟨hin', ⟨rfl, hsmooth, hfits, hout'⟩ | ⟨q, hres, href, hout'⟩⟩ :=
    range_step hsep hin hout hpos hstep
  · obtain ⟨hin'', hrest⟩ := ih hin' hout' hfits (by exact hrun)
    refine ⟨hin'', ?_⟩
    rcases hrest with ⟨hend, hsmooth', hall⟩ | ⟨p, q, hend, hp, href, hpart⟩
    · exact .inl ⟨hend, smooth_append.mpr ⟨hsmooth, hsmooth'⟩, hall⟩
    · exact .inr ⟨p, q, hend, hp, href.prepend hsmooth, hpart⟩
  · cases res with
    | copied => exact absurd rfl hres
    | failed => cases (Prog.runs_ret_iff.mp hrun).2.2
    | unsupported =>
      obtain ⟨mid, last, s, switched, rfl, hswitch, hplain⟩ := Prog.runs_bind_iff.mp hrun
      have htends : TendsOnly (attemptIf (pos == 0 && smallBulkWantsDirect cfg t)) :=
        keeps_attemptIf trivial _
      have hkept := fun i => (tended htends hswitch i).1
      obtain ⟨hend, hin'', hsmooth, hplain'⟩ :=
        plain_loop hsep (hin'.of_kind (hkept _)) (hout'.of_kind (hkept _)) (Nat.zero_le _) hplain
      refine ⟨hin'', .inr ⟨pos, q, hend, by omega, ?_, ?_⟩⟩
      · exact href.append (smooth_append.mpr ⟨smooth_of_tends htends hswitch, hsmooth⟩)
      · rwa [Nat.zero_add] at hplain'

/-- What the tail adds to a prefix. -/
def pieced (data : Bytes) (m start : ℕ) : Bytes :=
  if start < data.length then Fs.splice (data.take m) start (data.drop start) else data.take m

theorem tail_pieced {start : ℕ} (hin : Holds w fdIn.ino data)
    (hout : Holds w fdOut.ino (data.take m))
    (h : (copyTailBufferedFds fdIn fdOut start data.length).Runs (answerIds who) w tr v true) :
    Smooth tr ∧ Holds v fdOut.ino (pieced data m start) := by
  unfold copyTailBufferedFds at h
  split at h
  · rename_i hdone
    obtain ⟨rfl, rfl, -⟩ := Prog.runs_ret_iff.mp h
    rw [pieced, if_neg (by omega)]
    exact ⟨smooth_nil, hout⟩
  rename_i hmore
  obtain ⟨x, bytes, u, rest, hread, rfl, hrun⟩ := Prog.runs_perform_iff.mp h
  cases bytes with
  | error e => cases (Prog.runs_ret_iff.mp hrun).2.2
  | ok bytes =>
  obtain ⟨y, wrote, z, last, hwrite, rfl, hret⟩ := Prog.runs_perform_iff.mp hrun
  cases wrote with
  | error e => cases (Prog.runs_ret_iff.mp hret).2.2
  | ok _ =>
  obtain ⟨rfl, rfl, -⟩ := Prog.runs_ret_iff.mp hret
  obtain ⟨rfl, rfl, -⟩ := pread_ok hin hread
  obtain ⟨hout', -⟩ := pwrite_holds hout hwrite
  refine ⟨smooth_transfer, ?_⟩
  have hrest : (data.drop start).take (data.length - start) = data.drop start :=
    List.take_of_length_le (by simp)
  rw [written, List.take_length, hrest] at hout'
  rw [pieced, if_pos (by omega)]
  exact hout'

end Loops

/-- Whether nothing is missing although `copy_file_range` was refused at `pos` after `q`
bytes: the plain copy has come to the end of the bulk or to bytes that were there, or what
it has not written is zero and a tail follows. -/
def Harmless (bulkEnd : ℕ) (data : Bytes) (pos q : ℕ) : Prop :=
  bulkEnd ≤ max (pos + q) (bulkEnd - pos) ∨ bulkEnd < data.length ∧
    ∀ k, max (pos + q) (bulkEnd - pos) ≤ k → k < bulkEnd → data[k]? = some 0

theorem pieced_iff {data : Bytes} {m start : ℕ} (hstart : start ≤ data.length) :
    pieced data m start = data ↔
      start ≤ m ∨ start < data.length ∧ ∀ k, m ≤ k → k < start → data[k]? = some 0 := by
  unfold pieced
  split
  · rename_i hlt
    by_cases hm : start ≤ m
    · refine iff_of_true ?_ (.inl hm)
      have hrest : data.drop start = (data.drop start).take (data.length - start) :=
        (List.take_of_length_le (by simp)).symm
      rw [hrest, splice_take hm (by omega)]
      exact List.take_of_length_le (by omega)
    · rw [splice_gap (by omega) hstart]
      constructor
      · exact fun h => .inr ⟨hlt, h⟩
      · rintro (h | ⟨-, h⟩)
        · exact absurd h hm
        · exact h
  · rename_i hge
    obtain rfl : start = data.length := by omega
    constructor
    · intro h
      have hlen := congrArg List.length h
      rw [List.length_take] at hlen
      exact .inl (by omega)
    · rintro (h | ⟨h, -⟩)
      · exact List.take_of_length_le h
      · exact absurd h (lt_irrefl _)

theorem pieced_refused_iff {data : Bytes} {bulkEnd p q : ℕ} (hp : p ≤ data.length)
    (hbulk : bulkEnd ≤ data.length) :
    pieced data (max (p + q) (bulkEnd - p)) (max p bulkEnd) = data ↔ Harmless bulkEnd data p q := by
  rw [pieced_iff (by omega)]
  unfold Harmless
  by_cases hle : bulkEnd ≤ p
  · exact iff_of_true (.inl (by omega)) (.inl (by omega))
  · rw [Nat.max_eq_right (by omega : p ≤ bulkEnd)]

end Ecopy.Workers.RangeFallback
