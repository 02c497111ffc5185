import Ecopy.Workers.RangeLoops

/-!
# A copy that loses `copy_file_range` on the way

Opening, the endings and the metadata keep what the loops have left, so that the result of
a whole copy is the piece that the plain loop reached and the tail behind it.
-/
namespace Ecopy.Workers.RangeFallback
open Protocol Ecopy.Path FileSystem Server Lib.Calls
open SmallCopy OtherCopies Events CallsMade Metadata Contents

/-- The calls that transfer nothing. -/
def NoTransfer : Call → Prop
  | .pread _ _ _ | .pwrite _ _ _ => False
  | _ => True

section Endings
variable {who : Identity} {cfg : Tuning} {t : Task} {w v : World} {tr : List Event}
  {data : Bytes} {fdIn : Fd} {target : Target} {m pos : ℕ}

theorem smooth_of_noTransfer {α : Type} {p : Handler α} {a : α}
    (hp : p.Keeps NoTransfer fun _ _ => True) (h : p.Runs (answerIds who) w tr v a) : Smooth tr := by
  intro ev hev pos q href
  obtain ⟨c, r⟩ := ev
  have hc := (hp.calls h).1 _ hev
  cases c with
  | pread | pwrite => exact hc
  | _ => exact href

theorem noTransfer_rename (path : Bytes) :
    (renameTempToFinalAt t path).Keeps NoTransfer fun _ _ => True :=
  keeps_renameTempToFinalAt (fun _ => trivial) trivial

variable {direct stillOpen : Bool}

theorem placed_smooth (h : (if cfg.inplace then return (true, false)
      else do return (← renameTempToFinalAt t target.path, false) : Handler (Bool × Bool)).Runs
        (answerIds who) w tr v (true, stillOpen)) : Smooth tr := by
  split at h
  · obtain ⟨rfl, -, -⟩ := Prog.runs_ret_iff.mp h
    exact smooth_nil
  · obtain ⟨before, after, u, renamed, rfl, hrename, hret⟩ := Prog.runs_bind_iff.mp h
    obtain ⟨rfl, -, -⟩ := Prog.runs_ret_iff.mp hret
    rw [List.append_nil]
    exact smooth_of_noTransfer (noTransfer_rename _) hrename

/-- The source that is kept open. -/
theorem keepSource_some {fd fd' : Fd} {direct' : Bool}
    (h : (keepSource t fd direct).Runs (answerIds who) w tr v (some (fd', direct'))) :
    fd' = fd ∧ fd.ino = t.ino ∧ ∃ data, Holds w t.ino data ∧ data.length = t.size := by
  obtain ⟨before, after, u, valid, rfl, hvalid, hrun⟩ := Prog.runs_bind_iff.mp h
  obtain ⟨x, st, s, rest, hst, rfl, hret⟩ := Prog.runs_perform_iff.mp hvalid
  split at hrun
  · rename_i hyes
    subst hyes
    obtain ⟨-, -, heq⟩ := Prog.runs_ret_iff.mp hrun
    obtain ⟨rfl, -⟩ := Prod.mk.inj (Option.some.inj heq)
    cases st with
    | error e => cases (Prog.runs_ret_iff.mp hret).2.2
    | ok n =>
      obtain ⟨-, -, hsame⟩ := Prog.runs_ret_iff.mp hret
      have hn : n = (fd'.ino, w.fs.node fd'.ino) := by
        have hout := congrArg Prod.fst (Option.some.inj hst)
        simp only [World.query] at hout
        split at hout
        · cases hout
        · exact (Except.ok.inj hout).symm
      rw [hn] at hsame
      have hboth := hsame.symm
      simp only [Bool.and_eq_true, sameOpenedSource, beq_iff_eq] at hboth
      obtain ⟨hreg, ⟨hino, hsize⟩, -⟩ := hboth
      refine ⟨rfl, hino, ?_⟩
      unfold Node.isRegular at hreg
      split at hreg
      · rename_i data hk
        rw [hino] at hk hsize
        refine ⟨data, hk, ?_⟩
        rw [statSize, hk] at hsize
        dsimp only at hsize
        exact_mod_cast hsize
      · cases hreg
  · obtain ⟨y, closed, z, last, -, -, hend⟩ := Prog.runs_perform_iff.mp hrun
    cases (Prog.runs_ret_iff.mp hend).2.2

/-- A source that was opened by its name. -/
theorem opened_source {x : Choice} {fd : Fd} {u s : World} {kept : Bool}
    (hopen : answerIds who w x (.openFile t.src (readFlags false) 0) = some (.ok fd, u))
    (hs : s.fs = u.fs)
    (hkeep : (keepSource t fd kept).Runs (answerIds who) s tr v (some (fdIn, direct))) :
    w.fs.entry (resolve t.src) = some t.ino ∧ fdIn.ino = t.ino ∧
      ∃ data, Holds w t.ino data ∧ data.length = t.size := by
  have hfs := openFile_looks ⟨rfl, rfl⟩ hopen
  obtain ⟨rfl, hino, data, hdata, hlen⟩ := keepSource_some hkeep
  refine ⟨by rw [← hfs, openFile_entry hopen, hino], hino, data, ?_, hlen⟩
  apply hdata.of_kind
  rw [hs, hfs]

theorem openReadAtBuffered_some
    (h : (openReadAtBuffered t).Runs (answerIds who) w tr v (some (fdIn, direct))) :
    w.fs.entry (resolve t.src) = some t.ino ∧ fdIn.ino = t.ino ∧
      ∃ data, Holds w t.ino data ∧ data.length = t.size := by
  obtain ⟨x, opened, u, rest, hopen, rfl, hrun⟩ := Prog.runs_perform_iff.mp h
  cases opened with
  | error e => cases (Prog.runs_ret_iff.mp hrun).2.2
  | ok fd => exact opened_source hopen rfl hrun

theorem openReadAtMaybeDirect_some
    (h : (openReadAtMaybeDirect cfg t).Runs (answerIds who) w tr v (some (fdIn, direct))) :
    w.fs.entry (resolve t.src) = some t.ino ∧ fdIn.ino = t.ino ∧
      ∃ data, Holds w t.ino data ∧ data.length = t.size := by
  unfold openReadAtMaybeDirect at h
  split at h
  · obtain ⟨x, opened, u, rest, hopen, rfl, hrun⟩ := Prog.runs_perform_iff.mp h
    cases opened with
    | error e =>
      obtain hu := openFile_looks ⟨rfl, rfl⟩ hopen
      dsimp only at hrun
      split at hrun
      · obtain ⟨hentry, hino, data, hdata, hlen⟩ := openReadAtBuffered_some hrun
        exact ⟨by rw [← hu, hentry], hino, data, hdata.of_kind (by rw [hu]), hlen⟩
      · cases (Prog.runs_ret_iff.mp hrun).2.2
    | ok fd =>
      obtain ⟨before, after, s, kept, rfl, htry, hkeep⟩ := Prog.runs_bind_iff.mp hrun
      have hs : s.fs = u.fs := (looked (i := 0) (m := Sys.attempt) (Prog.Keeps.last trivial) htry).1
      exact opened_source hopen hs hkeep
  · exact openReadAtBuffered_some h

/-- The tail through descriptors that are opened again. -/
theorem copyTailBufferedAt_pieced {path : Bytes} {start : ℕ}
    (hi : w.fs.entry (resolve path) = some target.fd.ino) (hin : Holds w t.ino data)
    (hsize : t.size = data.length) (hout : Holds w target.fd.ino (data.take m))
    (h : (copyTailBufferedAt t path start t.size).Runs (answerIds who) w tr v true) :
    Smooth tr ∧ Holds v target.fd.ino (pieced data m start) := by
  unfold copyTailBufferedAt at h
  split at h
  · rename_i hdone
    obtain ⟨rfl, rfl, -⟩ := Prog.runs_ret_iff.mp h
    rw [pieced, if_neg (by omega)]
    exact ⟨smooth_nil, hout⟩
  obtain ⟨before, after, u, source, rfl, hsource, hrun⟩ := Prog.runs_bind_iff.mp h
  have hlooks := tends_of_looks (looks_openReadAtBuffered (t := t))
  cases source with
  | none => cases (Prog.runs_ret_iff.mp hrun).2.2
  | some source =>
  obtain ⟨fd, direct⟩ := source
  obtain ⟨-, hino, -⟩ := openReadAtBuffered_some hsource
  obtain ⟨mid, rest, s, again, rfl, hopen, hrun⟩ := Prog.runs_bind_iff.mp hrun
  have hlooks' := tends_of_looks (looks_openTempWriteExisting path)
  cases again with
  | error e =>
    obtain ⟨x, closed, z, last, -, -, hret⟩ := Prog.runs_perform_iff.mp hrun
    cases (Prog.runs_ret_iff.mp hret).2.2
  | ok again =>
  have hsame : again.fd.ino = target.fd.ino := by
    have hentry := (reopened_entry hopen).2
    rw [(tended hlooks hsource 0).2, hi] at hentry
    exact (Option.some.inj hentry).symm
  obtain ⟨move, close, z, done, rfl, hmove, hclose⟩ := Prog.runs_bind_iff.mp hrun
  have hcloses : TendsOnly (do
      let _ ← Sys.close fd
      let _ ← Sys.close again.fd
      return done : Handler Bool) :=
    Prog.Keeps.call (c := Call.close fd) trivial fun _ _ =>
      Prog.Keeps.call (c := Call.close again.fd) trivial fun _ _ => trivial
  have hdone : done = true := by
    obtain ⟨x, closed, p, last, -, -, hnext⟩ := Prog.runs_perform_iff.mp hclose
    obtain ⟨y, closed', p', last', -, -, hret⟩ := Prog.runs_perform_iff.mp hnext
    exact (Prog.runs_ret_iff.mp hret).2.2.symm
  rw [hsize, hdone] at hmove
  have hkept : ∀ i, (s.fs.node i).kind = (w.fs.node i).kind := fun i =>
    (tended hlooks' hopen i).1.trans (tended hlooks hsource i).1
  have hin' : Holds s fd.ino data := by
    rw [hino]
    exact hin.of_kind (hkept _)
  have hout' : Holds s again.fd.ino (data.take m) := by
    rw [hsame]
    exact hout.of_kind (hkept _)
  obtain ⟨hsmooth, hout''⟩ := tail_pieced hin' hout' hmove
  rw [hsame] at hout''
  refine ⟨?_, hout''.of_kind (tended hcloses hclose _).1⟩
  simp only [smooth_append]
  exact ⟨smooth_of_tends hlooks hsource, smooth_of_tends hlooks' hopen, hsmooth,
    smooth_of_tends hcloses hclose⟩

theorem finishDirect_pieced (hinplace : cfg.inplace = true → target.path = t.dst)
    (hi : w.fs.entry (resolve target.path) = some target.fd.ino) (hin : Holds w t.ino data)
    (hsize : t.size = data.length) (hout : Holds w target.fd.ino (data.take m))
    (h : (finishDirect who cfg t target).Runs (answerIds who) w tr v (true, stillOpen)) :
    Smooth tr ∧ Holds v target.fd.ino (pieced data m t.bulkEnd) := by
  obtain ⟨first, rest, u, closed, rfl, hclose, hrun⟩ := Prog.runs_bind_iff.mp h
  have hcloses : TendsOnly (Sys.close target.fd) := Prog.Keeps.last trivial
  have hu := tended hcloses hclose
  obtain ⟨before, after, s, copied, rfl, htail, hrun⟩ := Prog.runs_bind_iff.mp hrun
  split at hrun
  · cases (Prog.runs_ret_iff.mp hrun).2.2
  rename_i hcopied
  obtain rfl : copied = true := by simpa using hcopied
  obtain ⟨hsmooth, hs⟩ := copyTailBufferedAt_pieced (by rw [(hu 0).2, hi]) (hin.of_kind (hu _).1) hsize
    (hout.of_kind (hu _).1) htail
  obtain ⟨mid, last, z, passed, rfl, hpass, hend⟩ := Prog.runs_bind_iff.mp hrun
  have hpasses : TendsOnly (preservePathMetadataAt who cfg target.path t.attr) :=
    tends_preservePathMetadataAt _ _
  split at hend
  · cases (Prog.runs_ret_iff.mp hend).2.2
  have hentry : z.fs.entry (resolve target.path) = some target.fd.ino := by
    have hdir := (hout.of_kind (hu _).1).isDir
    rw [(tended hpasses hpass 0).2, (moved (moves_copyTailBufferedAt ..) htail hdir).1.entry,
      (hu 0).2, hi]
  have hnode := (placed hinplace hentry hend).2.1
  constructor
  · simp only [smooth_append]
    exact ⟨smooth_of_tends hcloses hclose, hsmooth, smooth_of_tends hpasses hpass,
      placed_smooth hend⟩
  · apply hs.of_kind
    rw [hnode, (tended hpasses hpass _).1]

theorem finishBuffered_pieced {bulkDirect : Bool}
    (hinplace : cfg.inplace = true → target.path = t.dst)
    (hi : w.fs.entry (resolve target.path) = some target.fd.ino) (hin : Holds w fdIn.ino data)
    (hsize : t.size = data.length) (hout : Holds w target.fd.ino (data.take m))
    (h : (finishBuffered who cfg t fdIn target pos bulkDirect).Runs (answerIds who) w tr v
      (true, stillOpen)) : Smooth tr ∧ Holds v target.fd.ino (pieced data m pos) := by
  obtain ⟨first, rest, u, free, rfl, htry, hrun⟩ := Prog.runs_bind_iff.mp h
  have hattempt : TendsOnly Sys.attempt := Prog.Keeps.last trivial
  have hu := tended hattempt htry
  split at hrun
  · cases (Prog.runs_ret_iff.mp hrun).2.2
  obtain ⟨before, after, s, copied, rfl, htail, hrun⟩ := Prog.runs_bind_iff.mp hrun
  split at hrun
  · cases (Prog.runs_ret_iff.mp hrun).2.2
  rename_i hcopied
  obtain rfl : copied = true := by simpa using hcopied
  have hout' := hout.of_kind (hu _).1
  have hentry := (moved (moves_of_movesTo (movesTo_copyTailBufferedFds ..)) htail hout'.isDir).1.entry
  rw [hsize] at htail
  obtain ⟨hsmooth, hs⟩ := tail_pieced (hin.of_kind (hu _).1) hout' htail
  obtain ⟨mid, last, z, passed, rfl, hpass, hend⟩ := Prog.runs_bind_iff.mp hrun
  have hpasses : TendsOnly (preserveFdMetadata who cfg target.fd t.attr (some target.mode)) :=
    tends_preserveFdMetadata _ _ _
  split at hend
  · cases (Prog.runs_ret_iff.mp hend).2.2
  obtain ⟨y, closed, p, tail, hclose, rfl, hplace⟩ := Prog.runs_perform_iff.mp hend
  obtain rfl := query_eq (Option.some.inj hclose)
  cases closed with
  | error e => cases (Prog.runs_ret_iff.mp hplace).2.2
  | ok _ =>
  have hfinal : p.fs.entry (resolve target.path) = some target.fd.ino := by
    rw [(tended hpasses hpass 0).2, hentry, (hu 0).2, hi]
  have hnode := (placed hinplace hfinal hplace).2.1
  constructor
  · have hcloses : Smooth [⟨.close target.fd, .ok ()⟩] := by simp [Smooth, Refused]
    rw [← List.singleton_append (l := tail)]
    simp only [smooth_append]
    exact ⟨smooth_of_tends hattempt htry, hsmooth, smooth_of_tends hpasses hpass, hcloses,
      placed_smooth hplace⟩
  · apply hs.of_kind
    rw [hnode, (tended hpasses hpass _).1]

/-- What a successful copy leaves in the destination. -/
def Outcome (t : Task) (data : Bytes) (tr : List Event) (final : Bytes) : Prop :=
  (Smooth tr ∧ final = data) ∨ ∃ p q, p ≤ data.length ∧ RefusedOnly p q tr ∧
    final = pieced data (max (p + q) (t.bulkEnd - p)) (max p t.bulkEnd)

theorem Outcome.prepend {before : List Event} {final : Bytes} (h : Outcome t data tr final)
    (hsmooth : Smooth before) : Outcome t data (before ++ tr) final := by
  rcases h with ⟨hrest, hfinal⟩ | ⟨p, q, hp, href, hfinal⟩
  · exact .inl ⟨smooth_append.mpr ⟨hsmooth, hrest⟩, hfinal⟩
  · exact .inr ⟨p, q, hp, href.prepend hsmooth, hfinal⟩

theorem Outcome.append {after : List Event} {final : Bytes} (h : Outcome t data tr final)
    (hsmooth : Smooth after) : Outcome t data (tr ++ after) final := by
  rcases h with ⟨hrest, hfinal⟩ | ⟨p, q, hp, href, hfinal⟩
  · exact .inl ⟨smooth_append.mpr ⟨hrest, hsmooth⟩, hfinal⟩
  · exact .inr ⟨p, q, hp, href.append hsmooth, hfinal⟩

theorem bulkEnd_le : t.bulkEnd ≤ t.size := Nat.div_mul_le_self _ _

theorem pieced_all {data : Bytes} {start : ℕ} (h : start ≤ data.length) :
    pieced data start start = data :=
  (pieced_iff h).mpr (.inl (le_refl _))

theorem copyContent_outcome {inDirect : Bool}
    (hinplace : cfg.inplace = true → target.path = t.dst)
    (hi : w.fs.entry (resolve target.path) = some target.fd.ino) (hino : fdIn.ino = t.ino)
    (hin : Holds w t.ino data) (hsize : t.size = data.length) (hout : Holds w target.fd.ino [])
    (h : (copyContent who cfg t fdIn inDirect target).Runs (answerIds who) w tr v
      (true, stillOpen)) : ∃ final, Holds v target.fd.ino final ∧ Outcome t data tr final := by
  have hbulk : t.bulkEnd ≤ data.length := hsize ▸ bulkEnd_le
  obtain ⟨first, rest, u, free, rfl, htry, hrun⟩ := Prog.runs_bind_iff.mp h
  have hattempt : TendsOnly Sys.attempt := Prog.Keeps.last trivial
  have hu := tended hattempt htry
  split at hrun
  · cases (Prog.runs_ret_iff.mp hrun).2.2
  obtain ⟨switch, rest, s, switched, rfl, hswitch, hrun⟩ := Prog.runs_bind_iff.mp hrun
  have hswitches : TendsOnly (attemptIf
      (!(inDirect || target.direct) && !cfg.copyFileRange && smallBulkWantsDirect cfg t)) :=
    keeps_attemptIf trivial _
  have hs := tended hswitches hswitch
  have hsmooth := smooth_append.mpr ⟨smooth_of_tends hattempt htry, smooth_of_tends hswitches hswitch⟩
  obtain ⟨bulk, last, z, looped, rfl, hloop, hend⟩ := Prog.runs_bind_iff.mp hrun
  have hin' : Holds s fdIn.ino data := by
    rw [hino]
    exact (hin.of_kind (hu _).1).of_kind (hs _).1
  have hout' : Holds s target.fd.ino (data.take 0) := (hout.of_kind (hu _).1).of_kind (hs _).1
  have hsep : fdIn.ino = target.fd.ino → data = [] := by
    intro heq
    rw [heq] at hin'
    exact hin'.unique hout'
  have hentry : z.fs.entry (resolve target.path) = some target.fd.ino := by
    rw [(moved (moves_of_movesTo (movesTo_copyLoop ..)) hloop hout'.isDir).1.entry, (hs 0).2, (hu 0).2, hi]
  cases looped with
  | none => cases (Prog.runs_ret_iff.mp hend).2.2
  | some reached =>
  obtain ⟨pos, bulkDirect⟩ := reached
  dsimp only at hend
  by_cases hrange : (!(inDirect || target.direct) && cfg.copyFileRange) = true
  · have hbuffered : (inDirect || target.direct) = false := by
      cases hd : (inDirect || target.direct)
      · rfl
      · simp [hd] at hrange
    rw [hrange, if_pos rfl] at hloop
    rw [hbuffered, if_neg Bool.false_ne_true] at hend
    obtain ⟨hin'', ⟨rfl, hquiet, hall⟩ | ⟨p, q, rfl, hp, href, hpart⟩⟩ :=
      range_loop hsep hin' hout' (Nat.zero_le _) hsize hloop
    · rw [← List.take_length (l := data), ← hsize] at hall
      obtain ⟨hquiet', hfinal⟩ := finishBuffered_pieced hinplace hentry hin'' hsize hall hend
      refine ⟨_, hfinal, .inl ⟨?_, ?_⟩⟩
      · simp only [smooth_append] at hsmooth ⊢
        exact ⟨hsmooth.1, hsmooth.2, hquiet, hquiet'⟩
      · exact pieced_all hsize.le
    · obtain ⟨hquiet', hfinal⟩ := finishBuffered_pieced hinplace hentry hin'' hsize hpart hend
      refine ⟨_, hfinal, ?_⟩
      rw [← List.append_assoc]
      exact Outcome.prepend (.inr ⟨p, q, hsize ▸ hp, href.append hquiet', rfl⟩) hsmooth
  · rw [Bool.not_eq_true] at hrange
    rw [hrange, if_neg Bool.false_ne_true] at hloop
    obtain ⟨rfl, hin'', hquiet, hpart⟩ := plain_loop hsep hin' hout' (le_refl _) hloop
    have hreach : max 0 (0 + (t.bulkEnd - 0)) = t.bulkEnd := by omega
    have hstart : max 0 t.bulkEnd = t.bulkEnd := by omega
    rw [hreach] at hpart
    rw [hstart] at hend
    have hboth : Smooth last ∧ Holds v target.fd.ino (pieced data t.bulkEnd t.bulkEnd) := by
      split at hend
      · exact finishDirect_pieced hinplace hentry (hino ▸ hin'') hsize hpart hend
      · exact finishBuffered_pieced hinplace hentry hin'' hsize hpart hend
    refine ⟨_, hboth.2, .inl ⟨?_, pieced_all hbulk⟩⟩
    simp only [smooth_append] at hsmooth ⊢
    exact ⟨hsmooth.1, hsmooth.2, hquiet, hboth.1⟩

end Endings

section Same
variable {who : Identity} {cfg : Tuning} {t : Task} {w v : World} {tr : List Event}
  {fdIn fdOut : Fd} {target : Target} {fuel copyEnd pos pos' off : ℕ} {direct direct' : Bool}

theorem pread_empty {x : Choice} {fd : Fd} {off len : ℕ} {bytes : Bytes} (hin : Holds w fd.ino [])
    (hlen : 0 < len) (h : answerIds who w x (.pread fd len off) = some (.ok bytes, v)) : False := by
  obtain ⟨-, -, hfits⟩ := pread_ok hin h
  rw [List.length_nil] at hfits
  omega

theorem plain_loop_empty (hin : Holds w fdIn.ino [])
    (h : (copyLoop cfg t fdIn fdOut fuel copyEnd 0 off false direct).Runs (answerIds who) w tr v
      (some (pos', direct'))) : copyEnd = 0 ∧ pos' = 0 ∧ v = w := by
  cases fuel with
  | zero => cases (Prog.runs_ret_iff.mp h).2.2
  | succ fuel =>
  unfold copyLoop at h
  split at h
  · rename_i hdone
    obtain ⟨-, rfl, heq⟩ := Prog.runs_ret_iff.mp h
    exact ⟨Nat.le_zero.mp hdone, (Prod.mk.inj (Option.some.inj heq)).1, rfl⟩
  rename_i hmore
  dsimp only at h
  simp only [Bool.false_eq_true, if_false] at h
  obtain ⟨x, bytes, u, rest, hread, rfl, hrun⟩ := Prog.runs_perform_iff.mp h
  cases bytes with
  | error e => cases (Prog.runs_ret_iff.mp hrun).2.2
  | ok bytes =>
    have hchunk := cfg.chunkSize_pos
    exact (pread_empty hin (by omega) hread).elim

theorem copyLoop_empty {range : Bool} (hin : Holds w fdIn.ino [])
    (h : (copyLoop cfg t fdIn fdOut fuel copyEnd 0 0 range direct).Runs (answerIds who) w tr v
      (some (pos', direct'))) : (copyEnd = 0 ∨ range = true ∧ t.bulkEnd = 0) ∧ pos' = 0 ∧
        ∀ i, (v.fs.node i).kind = (w.fs.node i).kind := by
  cases range with
  | false =>
    obtain ⟨hend, hpos, rfl⟩ := plain_loop_empty hin h
    exact ⟨.inl hend, hpos, fun _ => rfl⟩
  | true =>
  cases fuel with
  | zero => cases (Prog.runs_ret_iff.mp h).2.2
  | succ fuel =>
  unfold copyLoop at h
  split at h
  · rename_i hdone
    obtain ⟨-, rfl, heq⟩ := Prog.runs_ret_iff.mp h
    exact ⟨.inl (Nat.le_zero.mp hdone), (Prod.mk.inj (Option.some.inj heq)).1, fun _ => rfl⟩
  rename_i hmore
  dsimp only at h
  simp only [if_true] at h
  obtain ⟨before, after, u, res, rfl, hstep, hrun⟩ := Prog.runs_bind_iff.mp h
  obtain ⟨x, bytes, s, rest, hread, rfl, hret⟩ := Prog.runs_perform_iff.mp hstep
  cases bytes with
  | ok bytes =>
    have hchunk := cfg.chunkSize_pos
    exact (pread_empty hin (by omega) hread).elim
  | error e =>
  obtain rfl := query_eq (Option.some.inj hread)
  obtain ⟨rfl, rfl, -⟩ := Prog.runs_ret_iff.mp hret
  cases res with
  | copied =>
    have hres := (Prog.runs_ret_iff.mp hret).2.2
    unfold rangeFailure at hres
    split at hres <;> cases hres
  | failed => cases (Prog.runs_ret_iff.mp hrun).2.2
  | unsupported =>
    obtain ⟨mid, last, z, switched, rfl, hswitch, hplain⟩ := Prog.runs_bind_iff.mp hrun
    have htends : TendsOnly (attemptIf (0 == 0 && smallBulkWantsDirect cfg t)) :=
      keeps_attemptIf trivial _
    have hkept := fun i => (tended htends hswitch i).1
    obtain ⟨hend, hpos, rfl⟩ := plain_loop_empty (hin.of_kind (hkept _)) hplain
    exact ⟨.inr ⟨rfl, hend⟩, hpos, hkept⟩

/-- Nothing is copied from an empty file that should have bytes. -/
theorem copyContent_empty {inDirect stillOpen : Bool} (hino : fdIn.ino = t.ino)
    (hin : Holds w t.ino []) (hsize : 0 < t.size) :
    ¬ (copyContent who cfg t fdIn inDirect target).Runs (answerIds who) w tr v
      (true, stillOpen) := by
  intro h
  obtain ⟨first, rest, u, free, rfl, htry, hrun⟩ := Prog.runs_bind_iff.mp h
  have hattempt : TendsOnly Sys.attempt := Prog.Keeps.last trivial
  have hu := hin.of_kind (tended hattempt htry _).1
  split at hrun
  · cases (Prog.runs_ret_iff.mp hrun).2.2
  obtain ⟨switch, rest, s, switched, rfl, hswitch, hrun⟩ := Prog.runs_bind_iff.mp hrun
  have hswitches : TendsOnly (attemptIf
      (!(inDirect || target.direct) && !cfg.copyFileRange && smallBulkWantsDirect cfg t)) :=
    keeps_attemptIf trivial _
  have hs := hu.of_kind (tended hswitches hswitch _).1
  obtain ⟨bulk, last, z, looped, rfl, hloop, hend⟩ := Prog.runs_bind_iff.mp hrun
  cases looped with
  | none => cases (Prog.runs_ret_iff.mp hend).2.2
  | some reached =>
  obtain ⟨pos, bulkDirect⟩ := reached
  obtain ⟨hempty, rfl, hkept⟩ := copyLoop_empty (hino.symm ▸ hs) hloop
  have hz := hs.of_kind (hkept _)
  dsimp only at hend
  split at hend
  · -- the source is opened again and is not what it was
    rename_i hdirect
    have hbulk : t.bulkEnd = 0 := by
      rw [hdirect] at hempty
      simpa using hempty
    obtain ⟨x, closed, p, after, hclose, -, hafter⟩ := Prog.runs_perform_iff.mp hend
    obtain rfl := query_eq (Option.some.inj hclose)
    obtain ⟨before, after', q, copied, -, htail, hmeta⟩ := Prog.runs_bind_iff.mp hafter
    split at hmeta
    · cases (Prog.runs_ret_iff.mp hmeta).2.2
    rename_i hcopied
    obtain rfl : copied = true := by simpa using hcopied
    unfold copyTailBufferedAt at htail
    rw [if_neg (by omega)] at htail
    obtain ⟨mid, tail, r, source, -, hsource, hnext⟩ := Prog.runs_bind_iff.mp htail
    cases source with
    | none => cases (Prog.runs_ret_iff.mp hnext).2.2
    | some source =>
      obtain ⟨-, -, data, hdata, hlen⟩ := openReadAtBuffered_some hsource
      obtain rfl := hdata.unique hz
      rw [List.length_nil] at hlen
      omega
  · obtain ⟨mid, after, p, free', -, htry', hafter⟩ := Prog.runs_bind_iff.mp hend
    have hp := hz.of_kind (tended hattempt htry' _).1
    split at hafter
    · cases (Prog.runs_ret_iff.mp hafter).2.2
    obtain ⟨before, after', q, copied, -, htail, hmeta⟩ := Prog.runs_bind_iff.mp hafter
    split at hmeta
    · cases (Prog.runs_ret_iff.mp hmeta).2.2
    rename_i hcopied
    obtain rfl : copied = true := by simpa using hcopied
    unfold copyTailBufferedFds at htail
    rw [if_neg (by omega)] at htail
    obtain ⟨y, bytes, r, tail, hread, -, hnext⟩ := Prog.runs_perform_iff.mp htail
    cases bytes with
    | error e => cases (Prog.runs_ret_iff.mp hnext).2.2
    | ok bytes => exact pread_empty (hino.symm ▸ hp) (by omega) hread

end Same

section Whole
variable {who : Identity} {cfg : Tuning} {t : Task} {w v : World} {tr : List Event}
  {target : Target}

theorem noTransfer_of_prepares {α : Type} {l : Loc} {p : Handler α} (h : PreparesOnly l p) :
    p.Keeps NoTransfer fun _ _ => True := by
  apply h.weaken
  · intro c hc
    cases c with
    | pread | pwrite => exact hc
    | _ => trivial
  · exact fun _ _ => id

theorem noTransfer_leaveTarget (fdIn : Fd) (done stillOpen : Bool) :
    (leaveTarget fdIn target done stillOpen).Keeps NoTransfer fun _ _ => True :=
  keeps_leaveTarget (fun _ => trivial) trivial done stillOpen

/-- The destination right after it was made, and the source beside it. -/
theorem createTarget_beside {data : Bytes} (ht : w.fs.Tree)
    (hsrc : w.fs.entry (resolve t.src) = some t.ino) (hdata : Holds w t.ino data)
    (h : (createTarget who cfg t).Runs (answerIds who) w tr v (some target)) :
    OpenAt v target ∧ (cfg.inplace = true → target.path = t.dst) ∧ Smooth tr ∧
      (Holds v t.ino data ∨ Holds v t.ino []) := by
  have hbounded := ht.bounded _ _ hsrc
  by_cases hin : cfg.inplace = true
  · rw [createTarget, if_pos hin] at h
    obtain ⟨hopen, hat⟩ := createFinal_opened h
    have hpath := (createFinal_path.calls h).2 target rfl
    refine ⟨hat, fun _ => hpath, smooth_of_noTransfer (noTransfer_of_prepares prepares_createFinal) h, ?_⟩
    by_cases hsame : w.fs.entry (resolve t.dst) = some t.ino
    · right
      have hentry := hat.entry
      rw [hpath, hopen.entry _ hsame] at hentry
      rw [Option.some.inj hentry]
      exact hat.empty
    · exact .inl (hdata.of_kind (prepared prepares_createFinal h ⟨hbounded, hsame⟩).1)
  · rw [createTarget, if_neg hin, createTempAt_buffered] at h
    obtain ⟨hat, -⟩ := createTempAt_openAt (bufferedCreateMode_noIds _) h
    have hprepares : PreparesOnly [] (createTempAt (bufferedCreateMode t.attr.mode) who cfg t 100) :=
      prepares_createTempAt _ _
    refine ⟨hat, fun hyes => absurd hyes hin, ?_, .inl ?_⟩
    · exact smooth_of_noTransfer (noTransfer_of_prepares hprepares) h
    · have htop : w.fs.entry [] ≠ some t.ino := by
        intro heq
        have hdir := ht.top
        rw [Fs.isDir, heq] at hdir
        exact Bool.false_ne_true (hdata.isDir.symm.trans hdir)
      exact hdata.of_kind (prepared hprepares h ⟨hbounded, htop⟩).1

/-- A successful copy leaves the bytes of the source, or is told what it missed. -/
theorem copyFileSerialSmall_outcome (ht : w.fs.Tree)
    (h : (copyFileSerialSmall who cfg t).Runs (answerIds who) w tr v true) :
    ∃ data i final, Holds w t.ino data ∧ t.size = data.length ∧
      v.fs.entry (resolve t.dst) = some i ∧ Holds v i final ∧ Outcome t data tr final := by
  obtain ⟨first, mid, last, u, s, ⟨fdIn, inDirect⟩, target, rfl, hsource, hcreate, hend⟩ :=
    opened_of_copy (r := .small) h
  obtain ⟨hsrc, hino, data, hdata, hlen⟩ := openReadAtMaybeDirect_some hsource
  have hlooks : LooksOnly (openReadAtMaybeDirect cfg t) := looks_openReadAtMaybeDirect
  have hu : u.fs = w.fs := (looked (i := 0) hlooks hsource).1
  obtain ⟨content, leave, z, ⟨done, stillOpen⟩, rfl, hcontent, hleave⟩ := Prog.runs_bind_iff.mp hend
  obtain ⟨rfl, hfs, -⟩ := leaveTarget_true hleave
  obtain ⟨hat, hpath, hquiet, hbeside⟩ :=
    createTarget_beside (hu ▸ ht) (hu ▸ hsrc) (hdata.of_kind (by rw [hu])) hcreate
  have hin : Holds s t.ino data := by
    rcases hbeside with hin | hempty
    · exact hin
    · rcases Nat.eq_zero_or_pos t.size with hzero | hpos
      · rw [hzero] at hlen
        rw [List.length_eq_zero_iff.mp hlen]
        exact hempty
      · exact absurd hcontent (copyContent_empty hino hempty hpos)
  obtain ⟨final, hfinal, hout⟩ := copyContent_outcome hpath hat.entry hino hin hlen.symm hat.empty hcontent
  have hwritten := copyContent_written hpath hat.entry hat.isDir hcontent
  refine ⟨data, _, final, hdata, hlen.symm, by rw [hfs, hwritten.entry], ?_, ?_⟩
  · exact hfinal.of_kind (by rw [hfs])
  · have hleft := smooth_of_noTransfer (noTransfer_leaveTarget fdIn true stillOpen) hleave
    exact ((hout.append hleft).prepend hquiet).prepend (smooth_of_tends (tends_of_looks hlooks) hsource)

/-- The contents are right exactly when nothing is missing after a refused
`copy_file_range`. -/
theorem copyFileSerialSmall_content (ht : w.fs.Tree)
    (h : (copyFileSerialSmall who cfg t).Runs (answerIds who) w tr v true) :
    ∃ data i, Holds w t.ino data ∧ v.fs.entry (resolve t.dst) = some i ∧
      (Holds v i data ↔ ∀ pos q, (∃ ev ∈ tr, Refused pos q ev) → Harmless t.bulkEnd data pos q) := by
  obtain ⟨data, i, final, hdata, hsize, hi, hfinal, hout⟩ := copyFileSerialSmall_outcome ht h
  refine ⟨data, i, hdata, hi, ?_⟩
  have hsame : Holds v i data ↔ final = data := by
    constructor
    · exact hfinal.unique
    · rintro rfl
      exact hfinal
  rw [hsame]
  rcases hout with ⟨hquiet, rfl⟩ | ⟨p, q, hp, href, rfl⟩
  · refine iff_of_true rfl ?_
    rintro pos q ⟨ev, hev, hrefused⟩
    exact absurd hrefused (hquiet ev hev pos q)
  · rw [pieced_refused_iff hp (hsize ▸ bulkEnd_le)]
    constructor
    · intro hfine pos q' hrefused
      obtain ⟨rfl, rfl⟩ := (href pos q').mp hrefused
      exact hfine
    · intro hall
      exact hall p q ((href p q).mpr ⟨rfl, rfl⟩)

end Whole

/-- `/a` with the given bytes. -/
def oneFile (data : Bytes) : Fs :=
  .flat [([97], 1)]
    (fun i => ⟨if i = 0 then .directory else .regular data, 0x1A4, 0, 0, (0, 0), (0, 0)⟩) 2

def copyTask (size : ℕ) : SmallCopy.Task where
  src := [47, 97]
  dstDir := [47]
  name := [98]
  ino := 1
  size := size
  attr := ⟨0, 0, 0x1A4, (0, 0), (0, 0)⟩
  name_ordinary := ordinary_b

def ranged (c : ℕ) (h : 0 < c) : Tuning :=
  { plain with inplace := true, copyFileRange := true, chunkSize := c, chunkSize_pos := h }

def fine : Choice := ⟨none, 0, false⟩

theorem oneFile_tree (data : Bytes) : (oneFile data).Tree := Fs.flat_tree rfl (by decide) (by simp)

theorem exists_call {σ χ α C : Type} {R : C → Type} {answer : σ → χ → (c : C) → Option (R c × σ)}
    {c : C} {k : R c → Prog R α} {s t u : σ} {r : R c} {a : α} (x : χ)
    (hx : answer s x c = some (r, t)) (h : ∃ tr, (k r).Runs answer t tr u a) :
    ∃ tr, (Prog.call c k).Runs answer s tr u a := by
  obtain ⟨tr, h⟩ := h
  exact ⟨_, .call x hx h⟩

variable {data : Bytes}

theorem source_runs {c n : ℕ} {h : 0 < c} (hlen : data.length = n) : ∃ tr,
    (openReadAtMaybeDirect (ranged c h) (copyTask n)).Runs (answerIds root) (.initial (oneFile data))
      tr (.initial (oneFile data)) (some (⟨[47, 97], 1⟩, false)) := by
  refine exists_call fine rfl (exists_call fine rfl ?_)
  have hsame : sameOpenedSource (copyTask n) 1 ((oneFile data).node 1) = true := by
    simp [sameOpenedSource, copyTask, oneFile, Fs.flat, statSize, hlen]
  refine ⟨[], ?_⟩
  change (if sameOpenedSource (copyTask n) 1 ((oneFile data).node 1) = true then _ else _ :
    Handler (Option (Fd × Bool))).Runs _ _ _ _ _
  rw [if_pos hsame]
  exact .ret _ _

/-- `/b` with the given bytes beside it. -/
def beside (data bytes : Bytes) (touched : List Bytes) : World :=
  { World.initial (oneFile data) with
    fs := (oneFile data).create [[98]] ⟨.regular bytes, 0x1A4, 0, 0, (0, 0), (0, 0)⟩
    touched := touched }

def bPath : Bytes := atDir [47] [98]

theorem beside_node (data bytes : Bytes) (touched : List Bytes) :
    (beside data bytes touched).fs.node 2 = ⟨.regular bytes, 0x1A4, 0, 0, (0, 0), (0, 0)⟩ := by
  simp [beside, oneFile, Fs.flat, Fs.create]

theorem beside_source (data bytes : Bytes) (touched : List Bytes) :
    Holds (beside data bytes touched) 1 data := by
  simp [Holds, beside, oneFile, Fs.flat, Fs.create]

theorem target_runs (data : Bytes) {c : ℕ} (n : ℕ) {h : 0 < c} : ∃ tr,
    (createTarget root (ranged c h) (copyTask n)).Runs (answerIds root) (.initial (oneFile data))
      tr (beside data [] [bPath]) (some ⟨bPath, ⟨bPath, 2⟩, false, 0x1A4⟩) := by
  have hdst : resolve bPath = [[98]] := by decide +kernel
  have hfree : (oneFile data).openFile (resolve bPath) (createFlags true false)
      (newNode root (.regular []) (bufferedCreateMode 0x1A4)) =
        .ok (2, (beside data [] [bPath]).fs) := by
    rw [hdst]
    rfl
  have hopen : answerIds root (.initial (oneFile data)) fine
      (.openFile bPath (createFlags true false) (bufferedCreateMode 0x1A4)) =
        some (.ok ⟨bPath, 2⟩, beside data [] [bPath]) :=
    answer_open_ok rfl (by decide) hfree
  refine exists_call fine hopen (exists_call fine rfl ⟨[], Prog.runs_ret_iff.mpr ⟨rfl, rfl, ?_⟩⟩)
  change _ = (Except.toOption (.ok ⟨bPath, ⟨bPath, 2⟩, false,
    ((beside data [] [bPath]).fs.node 2).mode &&& 0xFFF⟩) : Option Target)
  rw [beside_node]
  rfl

theorem pread_runs {w : World} {fd : Fd} {off len : ℕ} (hin : Holds w fd.ino data)
    (hlen : off + len ≤ data.length) :
    answerIds root w fine (.pread fd len off) = some (.ok ((data.drop off).take len), w) := by
  have hk : (w.fs.node fd.ino).kind = .regular data := hin
  exact answer_pread_ok root off rfl hk hlen

theorem pwrite_runs (data old bytes : Bytes) (touched : List Bytes) (off : ℕ) :
    answerIds root (beside data old touched) fine (.pwrite ⟨bPath, 2⟩ off bytes) =
      some (.ok (), beside data (Fs.splice old off bytes) (touched ++ [bPath])) := by
  have hwrite : (beside data old touched).writeData ⟨bPath, 2⟩ off bytes =
      beside data (Fs.splice old off bytes) (touched ++ [bPath]) := by
    unfold World.writeData Fs.modifyData
    rw [beside_node]
    simp [beside, Fs.setNode, Fs.create, oneFile, Fs.flat]
  have hnot : ¬ ((off : ℤ) < 0) := by omega
  have hanswer : answer root (beside data old touched) fine (.pwrite ⟨bPath, 2⟩ off bytes) =
      some (.ok (), beside data (Fs.splice old off bytes) (touched ++ [bPath])) := by
    simp only [answer, if_neg hnot, fine, Int.toNat_natCast, hwrite]
  rw [answerIds_pwrite_eq, hanswer]
  rfl

theorem range_runs (old : Bytes) (touched : List Bytes) {off len : ℕ}
    (hlen : off + len ≤ data.length) :
    (copyFileRangeWithProgress ⟨[47, 97], 1⟩ ⟨bPath, 2⟩ off len).Runs (answerIds root)
      (beside data old touched) [⟨.pread ⟨[47, 97], 1⟩ len off, .ok ((data.drop off).take len)⟩,
        ⟨.pwrite ⟨bPath, 2⟩ off ((data.drop off).take len), .ok ()⟩]
      (beside data (Fs.splice old off ((data.drop off).take len)) (touched ++ [bPath])) .copied :=
  .call fine (pread_runs (beside_source ..) hlen) (.call fine (pwrite_runs ..) (.ret _ _))

/-- The second chunk is refused. -/
theorem loop_runs (fuel : ℕ) {data : Bytes} {c : ℕ} {h : 0 < c} (hlen : data.length = 2 * c)
    (hbulk : (copyTask (2 * c)).bulkEnd = 2 * c) : ∃ tr,
    (copyLoop (ranged c h) (copyTask (2 * c)) ⟨[47, 97], 1⟩ ⟨bPath, 2⟩ (fuel + 4) (2 * c) 0 0
      true false).Runs (answerIds root) (beside data [] [bPath]) tr
        (beside data (data.take c) [bPath, bPath, bPath]) (some (2 * c, false)) ∧
        ∃ ev ∈ tr, Refused c 0 ev := by
  have hchunk : (ranged c h).chunkSize = c := rfl
  have hbegin : Fs.splice [] 0 ((data.drop 0).take c) = data.take c := by simp [Fs.splice]
  have hagain : Fs.splice (data.take c) 0 ((data.drop 0).take c) = data.take c := by
    rw [splice_take (Nat.zero_le _) (by omega)]
    simp
  have hne : (data.drop 0).take c ≠ [] := by
    apply List.ne_nil_of_length_pos
    simp
    omega
  have hzero : (c == 0) = false := by simp; omega
  have hdone : ∀ u, (copyLoop (ranged c h) (copyTask (2 * c)) ⟨[47, 97], 1⟩ ⟨bPath, 2⟩ (fuel + 1)
      (2 * c) (0 + c + c) (0 + c) false false).Runs (answerIds root) u [] u (some (2 * c, false)) := by
    intro u
    rw [copyLoop, if_pos (by omega)]
    have hpos : 0 + c + c = 2 * c := by omega
    rw [hpos]
    exact .ret _ _
  have hplain : ∃ tr, (copyLoop (ranged c h) (copyTask (2 * c)) ⟨[47, 97], 1⟩ ⟨bPath, 2⟩ (fuel + 2)
      (2 * c) (0 + c) 0 false false).Runs (answerIds root) (beside data (data.take c) [bPath, bPath])
        tr (beside data (data.take c) [bPath, bPath, bPath]) (some (2 * c, false)) := by
    have hmin : min c (2 * c - (0 + c)) = c := by omega
    rw [copyLoop, if_neg (by omega)]
    dsimp only
    rw [hchunk, hmin]
    refine exists_call fine (pread_runs (beside_source ..) (by omega)) ?_
    have hwrite := pwrite_runs data (data.take c) ((data.drop 0).take c) [bPath, bPath] 0
    rw [hagain] at hwrite
    change ∃ tr, (pwriteAll ⟨bPath, 2⟩ 0 ((data.drop 0).take c) >>= _).Runs _ _ tr _ _
    rw [pwriteAll, if_neg hne]
    exact exists_call fine hwrite ⟨[], hdone _⟩
  have hrefused : ∃ tr, (copyLoop (ranged c h) (copyTask (2 * c)) ⟨[47, 97], 1⟩ ⟨bPath, 2⟩ (fuel + 3)
      (2 * c) (0 + c) 0 true false).Runs (answerIds root) (beside data (data.take c) [bPath, bPath])
        tr (beside data (data.take c) [bPath, bPath, bPath]) (some (2 * c, false)) ∧
          ∃ ev ∈ tr, Refused c 0 ev := by
    obtain ⟨tr, hrest⟩ := hplain
    have hmin : min c (2 * c - (0 + c)) = c := by omega
    rw [copyLoop, if_neg (by omega)]
    dsimp only
    rw [hchunk, hmin]
    refine ⟨⟨.pread ⟨[47, 97], 1⟩ c ((0 + c : ℕ) : ℤ), .error .exdev⟩ :: tr,
      .call ⟨some .crossDevice, 0, false⟩ rfl ?_, _, List.mem_cons_self, ?_⟩
    · have hzero : (0 + c == 0) = false := by simp; omega
      change (attemptIf (0 + c == 0 && smallBulkWantsDirect (ranged c h) (copyTask (2 * c))) >>=
        fun switched => copyLoop (ranged c h) (copyTask (2 * c)) ⟨[47, 97], 1⟩ ⟨bPath, 2⟩ (fuel + 2)
          (copyTask (2 * c)).bulkEnd (0 + c) 0 false (false || switched)).Runs _ _ tr _ _
      rw [hzero, hbulk]
      exact hrest
    · exact ⟨rfl, by simp, rfl⟩
  obtain ⟨tr, hrest, ev, hev, href⟩ := hrefused
  rw [copyLoop, if_neg (by omega)]
  dsimp only
  have hmin : min c (2 * c - 0) = c := by omega
  rw [hchunk, hmin]
  have hfirst := range_runs [] [bPath] (by omega : 0 + c ≤ data.length)
  rw [hbegin] at hfirst
  refine ⟨_, .bind hfirst hrest, ev, ?_, href⟩
  exact List.mem_append_right _ hev

/-- A copy that succeeds although the second chunk is refused. -/
theorem refused_runs {c : ℕ} {h : 0 < c} (hlen : data.length = 2 * c)
    (hbulk : (copyTask (2 * c)).bulkEnd = 2 * c) : ∃ tr v,
    (copyFileSerialSmall root (ranged c h) (copyTask (2 * c))).Runs (answerIds root)
      (.initial (oneFile data)) tr v true ∧ ∃ ev ∈ tr, Refused c 0 ev := by
  obtain ⟨first, hsource⟩ := source_runs (h := h) hlen
  obtain ⟨mid, htarget⟩ := target_runs data (2 * c) (h := h)
  have hfuel : 2 * c + 2 = (2 * c - 2) + 4 := by omega
  obtain ⟨bulk, hloop, ev, hev, href⟩ := loop_runs (2 * c - 2) (h := h) hlen hbulk
  have hend : ∃ v tr, (finishBuffered root (ranged c h) (copyTask (2 * c)) ⟨[47, 97], 1⟩
      ⟨bPath, ⟨bPath, 2⟩, false, 0x1A4⟩ (2 * c) false).Runs (answerIds root)
        (beside data (data.take c) [bPath, bPath, bPath]) tr v (true, false) := by
    have htail : copyTailBufferedFds ⟨[47, 97], 1⟩ ⟨bPath, 2⟩ (2 * c) (copyTask (2 * c)).size =
        .ret true := by
      rw [copyTailBufferedFds, if_pos (by exact le_refl _)]
      rfl
    have howner : applyOwner root ⟨bPath, 2⟩ (copyTask (2 * c)).attr = .ret none := by
      rw [applyOwner, if_pos ⟨rfl, rfl⟩]
      rfl
    have hknown : (some 0x1A4 : Option UInt32) = some ((copyTask (2 * c)).attr.mode &&& 0xFFF) := by
      have hmode : (copyTask (2 * c)).attr.mode = 0x1A4 := rfl
      rw [hmode]
      decide
    have hpass : ∃ tr, (preserveFdMetadata root (ranged c h) ⟨bPath, 2⟩ (copyTask (2 * c)).attr
        (some 0x1A4)).Runs (answerIds root) (beside data (data.take c) [bPath, bPath, bPath]) tr
          (((beside data (data.take c) [bPath, bPath, bPath]).changeNode fine ⟨bPath, 2⟩
            fun n => { n with atime := (0, 0), mtime := (0, 0) }).2) true := by
      rw [preserveFdMetadata, howner]
      simp only [if_pos hknown]
      exact exists_call fine rfl ⟨[], .ret _ _⟩
    generalize (World.changeNode _ _ _ _).2 = after at hpass
    obtain ⟨mid, hpass⟩ := hpass
    refine ⟨after, exists_call fine rfl ?_⟩
    change ∃ tr, (copyTailBufferedFds ⟨[47, 97], 1⟩ ⟨bPath, 2⟩ (2 * c) (copyTask (2 * c)).size >>= _).Runs
      _ _ tr _ _
    rw [htail]
    exact ⟨_, Prog.Runs.bind (.ret _ _) (Prog.Runs.bind hpass (.call fine rfl (.ret _ _)))⟩
  obtain ⟨v, last, hlast⟩ := hend
  rw [← hfuel] at hloop
  have hcontent : (copyContent root (ranged c h) (copyTask (2 * c)) ⟨[47, 97], 1⟩ false
      ⟨bPath, ⟨bPath, 2⟩, false, 0x1A4⟩).Runs (answerIds root) (beside data [] [bPath])
        (⟨.attempt, true⟩ :: (bulk ++ last)) v (true, false) :=
    .call fine rfl (Prog.Runs.bind (a := some (2 * c, false)) hloop hlast)
  have hleave : ∃ tr, (leaveTarget ⟨[47, 97], 1⟩ ⟨bPath, ⟨bPath, 2⟩, false, 0x1A4⟩ true false).Runs
      (answerIds root) v tr v true :=
    exists_call fine rfl ⟨[], .ret _ _⟩
  obtain ⟨tr, hleave⟩ := hleave
  refine ⟨_, v, .bind hsource (.bind htarget (.bind hcontent hleave)), ev, ?_, href⟩
  simp [hev]

/-- Two chunks of ones, of which the second is refused. -/
theorem copyFileSerialSmall_content_refused : ∃ tr v,
    (copyFileSerialSmall root (ranged 0x1000 (by decide)) (copyTask (2 * 0x1000))).Runs
      (answerIds root) (.initial (oneFile (.replicate (2 * 0x1000) 1))) tr v true ∧
    (∃ ev ∈ tr, Refused 0x1000 0 ev) ∧
    ∃ data i, Holds (.initial (oneFile (.replicate (2 * 0x1000) 1))) 1 data ∧
      v.fs.entry (resolve (copyTask (2 * 0x1000)).dst) = some i ∧ ¬ Holds v i data := by
  have hlength : (List.replicate (2 * 0x1000) (1 : UInt8)).length = 2 * 0x1000 :=
    List.length_replicate
  obtain ⟨tr, v, hrun, href⟩ := refused_runs (h := by decide) hlength rfl
  obtain ⟨data, i, hdata, hi, hiff⟩ := copyFileSerialSmall_content (oneFile_tree _) hrun
  refine ⟨tr, v, hrun, href, data, i, hdata, hi, fun hsame => ?_⟩
  have hbulk : (copyTask (2 * 0x1000)).bulkEnd = 2 * 0x1000 := rfl
  have hlen : data.length = 2 * 0x1000 := by
    rw [← hlength]
    exact congrArg List.length (hdata.unique rfl)
  rcases hiff.mp hsame 0x1000 0 href with hle | ⟨hlt, -⟩
  · omega
  · omega

/-- A second chunk that was refused is missing. -/
theorem refused_chunk_missing : ¬ ∀ (who : Identity) (cfg : Tuning) (t : SmallCopy.Task)
    (w v : World) (tr : List Event), cfg.readDirect = false → cfg.writeDirect = false → w.fs.Tree →
    (copyFileSerialSmall who cfg t).Runs (answerIds who) w tr v true →
    ∀ data i, Holds w t.ino data → v.fs.entry (resolve t.dst) = some i → Holds v i data := by
  intro hclaim
  have hlength : (List.replicate (2 * 0x100000) (1 : UInt8)).length = 2 * 0x100000 :=
    List.length_replicate
  obtain ⟨tr, v, hrun, href⟩ := refused_runs (h := by decide) hlength rfl
  obtain ⟨data, i, final, hdata, hsize, hi, hfinal, hout⟩ :=
    copyFileSerialSmall_outcome (oneFile_tree _) hrun
  have hsame := hfinal.unique (hclaim _ _ _ _ v tr rfl rfl (oneFile_tree _) hrun data i hdata hi)
  rcases hout with ⟨hquiet, -⟩ | ⟨p, q, hp, hknown, hpieced⟩
  · obtain ⟨ev, hev, hrefused⟩ := href
    exact hquiet ev hev _ 0 hrefused
  · obtain ⟨rfl, rfl⟩ := (hknown _ 0).mp href
    rw [hsame] at hpieced
    have hlen : data.length = 2 * 0x100000 := hsize.symm
    have hbulk : (copyTask (2 * 0x100000)).bulkEnd = 2 * 0x100000 := rfl
    rcases (pieced_refused_iff hp (by omega)).mp hpieced.symm with hle | ⟨hlt, -⟩
    · omega
    · omega

end Ecopy.Workers.RangeFallback
