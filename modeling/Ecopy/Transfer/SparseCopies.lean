import Ecopy.Transfer.SparseSource

/-!
# Sparse copies to a server and sparse local copies

Both loops ask for the next data, then for the next hole, and copy what lies between. Where
`SEEK_DATA` is refused, the local loop copies the rest of the file; the loop that feeds the
server goes on to ask for the next hole, which the same file system refuses.
-/
namespace Ecopy.Transfer
open Lib.Calls
open Workers.SmallCopy (Tuning)

namespace Source
variable (src : Source)

/-- The data of the file from `pos` on. -/
def DataFrom (size pos x : ℕ) : Prop :=
  pos ≤ x ∧ x < size ∧ x < src.length ∧ src.isData x = true

instance (size pos x : ℕ) : Decidable (src.DataFrom size pos x) := by
  unfold DataFrom
  infer_instance

end Source

section Seeks
variable {src : Source} {pos : ℕ}

theorem seekData_cases (h : src.refusesData = none) (pos : ℕ) :
    (src.seekData pos = .error .enxio ∧ ∀ x, pos ≤ x → x < src.length → src.isData x = false) ∨
      ∃ data, src.seekData pos = .ok data ∧ pos ≤ data ∧ data < src.length ∧
        src.isData data = true ∧ ∀ x, pos ≤ x → x < data → src.isData x = false := by
  unfold Source.seekData
  rw [h]
  cases hfirst : Source.firstFrom src.isData pos src.length with
  | none => exact Or.inl ⟨rfl, firstFrom_eq_none.mp hfirst⟩
  | some data => exact Or.inr ⟨data, rfl, firstFrom_eq_some.mp hfirst⟩

theorem seekHole_of_lt (h : src.refusesHole = none) (hpos : pos < src.length) :
    ∃ hole, src.seekHole pos = .ok hole ∧ pos ≤ hole ∧ hole ≤ src.length ∧
      (∀ x, pos ≤ x → x < hole → src.isData x = true) ∧
      (hole < src.length → src.isData hole = false) := by
  unfold Source.seekHole
  rw [h]
  dsimp only
  rw [if_neg (Nat.not_le.mpr hpos)]
  cases hfirst : Source.firstFrom (fun x => !src.isData x) pos src.length with
  | none =>
    refine ⟨src.length, rfl, Nat.le_of_lt hpos, Nat.le_refl _, ?_, fun hlt => ?_⟩
    · intro x hle hlt
      have hx := firstFrom_eq_none.mp hfirst x hle hlt
      rwa [Bool.not_eq_false'] at hx
    · exact absurd hlt (Nat.lt_irrefl _)
  | some hole =>
    obtain ⟨hle, hlt, hhole, hbefore⟩ := firstFrom_eq_some.mp hfirst
    refine ⟨hole, rfl, hle, Nat.le_of_lt hlt, ?_, fun _ => ?_⟩
    · intro x hx hxlt
      have hdata := hbefore x hx hxlt
      rwa [Bool.not_eq_false'] at hdata
    · rwa [Bool.not_eq_true'] at hhole

/-- A hole begins behind the data at which it was asked for. -/
theorem seekHole_of_data (h : src.refusesHole = none) (hpos : pos < src.length)
    (hdata : src.isData pos = true) :
    ∃ hole, src.seekHole pos = .ok hole ∧ pos < hole ∧ hole ≤ src.length ∧
      ∀ x, pos ≤ x → x < hole → src.isData x = true := by
  obtain ⟨hole, hseek, hle, hlen, hbefore, hend⟩ := seekHole_of_lt h hpos
  refine ⟨hole, hseek, ?_, hlen, hbefore⟩
  rcases Nat.eq_or_lt_of_le hle with heq | hlt
  · rw [← heq, hdata] at hend
    exact absurd (hend hpos) Bool.true_eq_false.mp
  · exact hlt

/-- One extent and the data behind it. -/
theorem dataFrom_split {size data hole : ℕ} (hle : pos ≤ data)
    (hbefore : ∀ x, pos ≤ x → x < data → src.isData x = false)
    (hextent : ∀ x, data ≤ x → x < hole → src.isData x = true) (hhole : data < hole) (x : ℕ) :
    src.DataFrom size pos x ↔
      (data ≤ x ∧ x < min hole size ∧ x < src.length) ∨ src.DataFrom size (min hole size) x := by
  unfold Source.DataFrom
  constructor
  · rintro ⟨hx, hsize, hlen, hdata⟩
    have hge : data ≤ x := by
      by_contra hlt
      rw [hbefore x hx (Nat.lt_of_not_le hlt)] at hdata
      cases hdata
    by_cases hin : x < min hole size
    · exact Or.inl ⟨hge, hin, hlen⟩
    · exact Or.inr ⟨Nat.le_of_not_lt hin, hsize, hlen, hdata⟩
  · rintro (⟨hge, hin, hlen⟩ | ⟨hge, hsize, hlen, hdata⟩)
    · exact ⟨by omega, by omega, hlen, hextent x hge (by omega)⟩
    · exact ⟨by omega, hsize, hlen, hdata⟩

theorem not_dataFrom {size : ℕ}
    (h : ∀ x, pos ≤ x → x < size → x < src.length → src.isData x = false) (x : ℕ) :
    ¬src.DataFrom size pos x := by
  rintro ⟨hle, hsize, hlen, hdata⟩
  rw [h x hle hsize hlen] at hdata
  cases hdata

/-- What the two seeks of one turn find. -/
inductive Turn (src : Source) (size pos : ℕ) : Prop
  | noData (seek : src.seekData pos = .error .enxio) (rest : ∀ x, ¬src.DataFrom size pos x)
  | beyond (data : ℕ) (seek : src.seekData pos = .ok data) (far : size ≤ data)
      (rest : ∀ x, ¬src.DataFrom size pos x)
  | extent (data hole : ℕ) (seek : src.seekData pos = .ok data) (near : data < size)
      (seekHole : src.seekHole data = .ok hole) (known : src.refusesHole = none)
      (further : pos < min hole size)
      (split : ∀ x, src.DataFrom size pos x ↔
        (data ≤ x ∧ x < min hole size ∧ x < src.length) ∨ src.DataFrom size (min hole size) x)

theorem turn (hd : src.refusesData = none) {size : ℕ}
    (hh : ∀ x, src.DataFrom size pos x → src.refusesHole = none) : Turn src size pos := by
  rcases seekData_cases hd pos with ⟨hseek, hnone⟩ | ⟨data, hseek, hle, hlen, hdata, hbefore⟩
  · exact .noData hseek (not_dataFrom fun x hx _ hlt => hnone x hx hlt)
  · by_cases hbeyond : size ≤ data
    · exact .beyond data hseek hbeyond (not_dataFrom fun x hx hlt _ => hbefore x hx (by omega))
    · have hnear := Nat.lt_of_not_le hbeyond
      have hknown := hh data ⟨hle, hnear, hlen, hdata⟩
      obtain ⟨hole, hseekHole, hlt, -, hextent⟩ := seekHole_of_data hknown hlen hdata
      exact .extent data hole hseek hnear hseekHole hknown (by omega)
        (dataFrom_split hle hbefore hextent hlt)

end Seeks

section Loops
variable {src : Source} {cfg : Tuning} {size range fuel pos stop : ℕ} {w : World}

theorem copyRange_alone (pos : ℕ) (hrange : stop - pos < range) (hw : w.failed = false) :
    (copyByteRangeBuffered cfg range pos stop).Alone src.answer
      (fun t ok => ok = true ∧ Wrote (fun x => pos ≤ x ∧ x < stop ∧ x < src.length) w t) w :=
  copyBlocks_alone pos (writeBlock_passes range) cfg.chunkSize_pos hrange hrange hw

theorem sendRange_alone (pos : ℕ) (hrange : stop - pos < range) (hw : w.failed = false) :
    (copyBlocks (return true) (upTo stop cfg.chunkSize) (sendBlock range) stop range pos).Alone
      src.answer
      (fun t ok => ok = true ∧ Wrote (fun x => pos ≤ x ∧ x < stop ∧ x < src.length) w t) w :=
  copyBlocks_alone pos (sendBlock_passes range) cfg.chunkSize_pos hrange hrange hw

/-- Where the seeks are known, the local loop writes the data. -/
theorem copyDataExtentsBuffered_alone (hd : src.refusesData = none)
    (hh : ∀ x, src.DataFrom size pos x → src.refusesHole = none)
    (hfuel : size - pos < fuel) (hrange : size < range) (hw : w.failed = false) :
    (copyDataExtentsBuffered cfg size range fuel pos).Alone src.answer
      (fun t ok => ok = true ∧ Wrote (src.DataFrom size pos) w t) w := by
  induction fuel generalizing w pos with
  | zero => cases hfuel
  | succ fuel ih =>
    unfold copyDataExtentsBuffered
    by_cases hsize : size ≤ pos
    · rw [if_pos hsize]
      exact ⟨rfl, Wrote.refl (not_dataFrom fun x hx hlt _ => by omega) w⟩
    · rw [if_neg hsize]
      show (Prog.perform (Call.seekData pos) >>= fun x => _).Alone _ _ _
      rw [alone_seekData]
      cases turn hd hh with
      | noData hseek hrest =>
        rw [hseek]
        exact ⟨rfl, Wrote.refl hrest w⟩
      | beyond data hseek hfar hrest =>
        rw [hseek]
        dsimp only
        rw [if_pos hfar]
        exact ⟨rfl, Wrote.refl hrest w⟩
      | extent data hole hseek hnear hseekHole hknown hfurther hsplit =>
        rw [hseek]
        dsimp only
        rw [if_neg (Nat.not_le.mpr hnear)]
        show (Prog.perform (Call.seekHole data) >>= fun x => _).Alone _ _ _
        rw [alone_seekHole, hseekHole]
        apply (copyRange_alone data (by omega) hw).bind
        rintro t ok ⟨rfl, hwrote⟩
        refine (ih (fun _ _ => hknown) (by omega) (hwrote.failed.trans hw)).mono ?_
        rintro u ok ⟨hok, hend⟩
        exact ⟨hok, (hwrote.trans hend).congr hsplit⟩

/-- So does the loop that feeds the server. -/
theorem streamSparse_alone (hd : src.refusesData = none)
    (hh : ∀ x, src.DataFrom size pos x → src.refusesHole = none)
    (hfuel : size - pos < fuel) (hrange : size < range) (hw : w.failed = false) :
    (streamSparse cfg size range fuel pos).Alone src.answer
      (fun t ok => ok = true ∧ Wrote (src.DataFrom size pos) w t) w := by
  induction fuel generalizing w pos with
  | zero => cases hfuel
  | succ fuel ih =>
    unfold streamSparse
    by_cases hsize : size ≤ pos
    · rw [if_pos hsize]
      exact ⟨rfl, Wrote.refl (not_dataFrom fun x hx hlt _ => by omega) w⟩
    · rw [if_neg hsize]
      show (stopped >>= fun b => _).Alone _ _ _
      rw [alone_stopped]
      show (Prog.perform (Call.seekData pos) >>= fun x => _).Alone _ _ _
      rw [alone_seekData]
      cases turn hd hh with
      | noData hseek hrest =>
        rw [hseek]
        exact ⟨rfl, Wrote.refl hrest w⟩
      | beyond data hseek hfar hrest =>
        rw [hseek]
        show (if size ≤ data then Prog.ret true else _ : Action Bool).Alone _ _ _
        rw [if_pos hfar]
        exact ⟨rfl, Wrote.refl hrest w⟩
      | extent data hole hseek hnear hseekHole hknown hfurther hsplit =>
        rw [hseek]
        show (if size ≤ data then Prog.ret true else _ : Action Bool).Alone _ _ _
        rw [if_neg (Nat.not_le.mpr hnear)]
        show (Prog.perform (Call.seekHole data) >>= fun x => _).Alone _ _ _
        rw [alone_seekHole, hseekHole]
        apply (sendRange_alone data (by omega) hw).bind
        rintro t ok ⟨rfl, hwrote⟩
        refine (ih (fun _ _ => hknown) (by omega) (hwrote.failed.trans hw)).mono ?_
        rintro u ok ⟨hok, hend⟩
        exact ⟨hok, (hwrote.trans hend).congr hsplit⟩

variable {e : Fault}

theorem noSeek_ne_enxio (h : noSeek e = true) : e ≠ .enxio := by
  rintro rfl
  cases h

theorem seekData_refused (h : src.refusesData = some e) (pos : ℕ) :
    src.seekData pos = .error e := by
  unfold Source.seekData
  rw [h]

/-- The local loop copies the rest of the file. -/
theorem copyDataExtentsBuffered_dense (h : src.refusesData = some e) (hpos : pos < size)
    (hrange : size < range) (hw : w.failed = false) :
    (copyDataExtentsBuffered cfg size range (fuel + 1) pos).Alone src.answer
      (fun t ok => ok = true ∧ Wrote (fun x => pos ≤ x ∧ x < size ∧ x < src.length) w t) w := by
  have hno := src.data_refusal e h
  unfold copyDataExtentsBuffered
  rw [if_neg (Nat.not_le.mpr hpos)]
  show (Prog.perform (Call.seekData pos) >>= fun x => _).Alone _ _ _
  rw [alone_seekData, seekData_refused h]
  dsimp only
  rw [if_neg (noSeek_ne_enxio hno), if_pos hno]
  exact copyRange_alone pos (by omega) hw

/-- The other one takes the position for data and asks for the hole behind it. -/
theorem streamSparse_refused (h : src.refusesData = some e) (hpos : pos < size)
    {post : World → Bool → Prop} :
    (streamSparse cfg size range (fuel + 1) pos).Alone src.answer post w ↔
      match src.seekHole pos with
      | .error _ => post w false
      | .ok hole =>
        (copyBlocks (return true) (upTo (min hole size) cfg.chunkSize) (sendBlock range)
          (min hole size) range pos >>= fun ok =>
            if (!ok) = true then Prog.ret false
            else streamSparse cfg size range fuel (min hole size)).Alone src.answer post w := by
  have hno := src.data_refusal e h
  rw [streamSparse, if_neg (Nat.not_le.mpr hpos)]
  show (stopped >>= fun b => _).Alone _ _ _ ↔ _
  rw [alone_stopped]
  show (Prog.perform (Call.seekData pos) >>= fun x => _).Alone _ _ _ ↔ _
  rw [alone_seekData, seekData_refused h]
  dsimp only
  rw [if_neg (noSeek_ne_enxio hno), if_pos hno]
  show (if size ≤ pos then Prog.ret true else _ : Action Bool).Alone _ _ _ ↔ _
  rw [if_neg (Nat.not_le.mpr hpos)]
  show (Prog.perform (Call.seekHole pos) >>= fun x => _).Alone _ _ _ ↔ _
  rw [alone_seekHole]
  cases src.seekHole pos with
  | error e => exact Iff.rfl
  | ok hole => exact Iff.rfl

theorem alone_true (m : Action Bool) (w : World) : m.Alone src.answer (fun _ _ => True) w := by
  induction m generalizing w with
  | ret a => trivial
  | call c k ih => exact fun x r t _ => ih r t

/-- It never gets past a position where no data begins. -/
theorem streamSparse_stuck (h : src.refusesData = some e) (hpos : pos < size)
    (hstuck : src.refusesHole ≠ none ∨ src.length ≤ pos ∨ src.isData pos = false) :
    (streamSparse cfg size range fuel pos).Alone src.answer (fun _ ok => ok = false) w := by
  induction fuel generalizing w with
  | zero => exact rfl
  | succ fuel ih =>
    rw [streamSparse_refused h hpos]
    cases hhole : src.refusesHole with
    | some e =>
      have hseek : src.seekHole pos = .error e := by
        unfold Source.seekHole
        rw [hhole]
      rw [hseek]
    | none =>
      by_cases hlen : src.length ≤ pos
      · have hseek : src.seekHole pos = .error .enxio := by
          unfold Source.seekHole
          rw [hhole]
          exact if_pos hlen
        rw [hseek]
      · obtain ⟨hole, hseek, hle, -, hextent, -⟩ :=
          seekHole_of_lt hhole (Nat.lt_of_not_le hlen)
        have hhere : hole = pos := by
          rcases Nat.eq_or_lt_of_le hle with heq | hlt
          · exact heq.symm
          · have hdata := hextent pos (Nat.le_refl _) hlt
            rcases hstuck with hr | hr | hr
            · exact absurd hhole hr
            · exact absurd hr hlen
            · rw [hr] at hdata
              cases hdata
        rw [hseek, hhere]
        dsimp only
        apply (alone_true _ w).bind
        intro t ok _
        cases ok with
        | false => exact rfl
        | true =>
          rw [Nat.min_eq_left (Nat.le_of_lt hpos)]
          exact ih

/-- A file without a hole is copied as one extent, where the end of it can be asked for. -/
theorem streamSparse_dense (h : src.refusesData = some e) (hhole : src.refusesHole = none)
    (hpos : 0 < size) (hlen : size ≤ src.length) (hdata : ∀ x < size, src.isData x = true)
    (hrange : size < range) (hw : w.failed = false) :
    (streamSparse cfg size range (fuel + 2) 0).Alone src.answer
      (fun t ok => ok = true ∧ Wrote (fun x => 0 ≤ x ∧ x < size ∧ x < src.length) w t) w := by
  rw [streamSparse_refused h hpos]
  obtain ⟨hole, hseek, -, hle, -, hend⟩ := seekHole_of_lt hhole (show 0 < src.length by omega)
  have hfar : size ≤ hole := by
    by_contra hlt
    rw [hdata hole (by omega)] at hend
    exact absurd (hend (by omega)) Bool.true_eq_false.mp
  rw [hseek]
  dsimp only
  rw [Nat.min_eq_right hfar]
  apply (sendRange_alone 0 (by omega) hw).bind
  rintro t ok ⟨rfl, hwrote⟩
  unfold streamSparse
  show (if size ≤ size then Prog.ret true else _ : Action Bool).Alone _ _ _
  rw [if_pos (Nat.le_refl size)]
  exact ⟨rfl, hwrote⟩

/-- A file with a hole, or whose hole cannot be asked for, is not copied. -/
theorem streamSparse_fails (h : src.refusesData = some e) (hpos : 0 < size)
    (hsparse : src.refusesHole = none → size ≤ src.length → ¬∀ x < size, src.isData x = true) :
    (streamSparse cfg size range fuel 0).Alone src.answer (fun _ ok => ok = false) w := by
  cases fuel with
  | zero => exact rfl
  | succ fuel =>
    by_cases hstuck : src.refusesHole ≠ none ∨ src.length ≤ 0 ∨ src.isData 0 = false
    · exact streamSparse_stuck h hpos hstuck
    · push Not at hstuck
      obtain ⟨hhole, hlen, hdata⟩ := hstuck
      obtain ⟨hole, hseek, -, hle, hextent, hend⟩ := seekHole_of_lt hhole hlen
      rw [streamSparse_refused h hpos, hseek]
      dsimp only
      apply (alone_true _ w).bind
      intro t ok _
      cases ok with
      | false => exact rfl
      | true =>
        have hnear : hole < size := by
          by_contra hfar
          exact hsparse hhole (by omega) fun x hx => hextent x (Nat.zero_le x) (by omega)
        rw [Nat.min_eq_left (Nat.le_of_lt hnear)]
        apply streamSparse_stuck h hnear
        rcases Nat.eq_or_lt_of_le hle with heq | hlt
        · exact Or.inr (Or.inl (Nat.le_of_eq heq.symm))
        · exact Or.inr (Or.inr (hend hlt))

end Loops

/-- A destination of `size` bytes in which the offsets of `P` were written. -/
def shape (P : ℕ → Prop) [DecidablePred P] (size : ℕ) : Dest :=
  ⟨size, fun x => if x < size then (if P x then some x else none) else none⟩

theorem Wrote.resize {P : ℕ → Prop} [DecidablePred P] {t : World} (h : Wrote P World.start t)
    (size : ℕ) : t.dest.resize size = shape P size := by
  unfold Dest.resize shape
  congr
  funext x
  by_cases hx : P x
  · rw [h.inside x hx, if_pos hx]
  · rw [h.outside x hx, if_neg hx]
    rfl

section Whole
variable {src : Source} {cfg : Tuning} {size fuel : ℕ} {P : ℕ → Prop} [DecidablePred P]

theorem copyFileSparse_alone
    (h : (copyDataExtentsBuffered cfg size fuel fuel 0).Alone src.answer
      (fun t ok => ok = true ∧ Wrote P World.start t) World.start) :
    (copyFileSparse cfg size fuel).Alone src.answer
      (fun t ok => ok = true ∧ t.dest = shape P size) World.start := by
  unfold copyFileSparse
  simp only [alone_attempt, Bool.not_true, Bool.false_eq_true, if_false]
  apply h.bind
  rintro t ok ⟨rfl, hwrote⟩
  show (Prog.perform (Call.ftruncate size) >>= fun r => _).Alone _ _ _
  rw [alone_ftruncate]
  show (attempt >>= fun b => _).Alone _ _ _
  rw [alone_attempt]
  show attempt.Alone _ _ _
  rw [alone_attempt_last]
  exact ⟨rfl, hwrote.resize size⟩

theorem copyFileSparse_fails {w : World}
    (h : (copyDataExtentsBuffered cfg size fuel fuel 0).Alone src.answer
      (fun _ ok => ok = false) w) :
    (copyFileSparse cfg size fuel).Alone src.answer (fun _ ok => ok = false) w := by
  unfold copyFileSparse
  simp only [alone_attempt, Bool.not_true, Bool.false_eq_true, if_false]
  apply h.bind
  rintro t ok rfl
  exact rfl

/-- The open file of a sparse copy is not given its size. -/
theorem handleOpen_alone {α : Type} {post : World → α → Prop} {w : World} (f : Unit → Action α) :
    (handleOpen size true >>= f).Alone src.answer post w ↔ (f ()).Alone src.answer post w := by
  rw [Prog.alone_bind_iff]
  unfold handleOpen
  rw [alone_attempt]
  exact Iff.rfl

theorem streamContent_alone
    (h : (streamSparse cfg size fuel fuel 0).Alone src.answer
      (fun t ok => ok = true ∧ Wrote P World.start t) World.start) :
    (streamContent cfg size fuel true).Alone src.answer
      (fun t ok => ok = true ∧ t.failed = false ∧ t.dest = shape P size) World.start := by
  unfold streamContent
  rw [if_pos rfl]
  apply h.bind
  rintro t ok ⟨rfl, hwrote⟩
  show (stopped >>= fun b => _).Alone _ _ _
  rw [alone_stopped]
  show (attempt >>= fun b => _).Alone _ _ _
  rw [alone_attempt]
  show (handleFtruncate size >>= fun _ => Prog.ret true).Alone _ _ _
  rw [Prog.alone_bind_iff]
  unfold handleFtruncate
  rw [alone_failed hwrote.failed]
  show (Prog.perform (Call.ftruncate size) >>= fun r => _).Alone _ _ _
  rw [alone_ftruncate]
  exact ⟨rfl, hwrote.failed, hwrote.resize size⟩

theorem fileCommit_alone {post : World → Bool → Prop} {w : World} (hw : w.failed = false) :
    fileCommit.Alone src.answer post w ↔ post w true := by
  unfold fileCommit
  rw [alone_attempt]
  show (Prog.perform Call.failed >>= fun r => _).Alone _ _ _ ↔ _
  rw [alone_failed hw]
  show (attempt >>= fun b => _).Alone _ _ _ ↔ _
  rw [alone_attempt]
  exact alone_attempt_last

theorem copyFileRemote_alone
    (h : (streamSparse cfg size fuel fuel 0).Alone src.answer
      (fun t ok => ok = true ∧ Wrote P World.start t) World.start) :
    (copyFileRemote cfg size fuel true).Alone src.answer
      (fun t ok => ok = true ∧ t.dest = shape P size) World.start := by
  unfold copyFileRemote
  simp only [alone_attempt, handleOpen_alone, Bool.not_true, Bool.false_eq_true, if_false]
  apply (streamContent_alone h).bind
  rintro t ok ⟨rfl, hfailed, hdest⟩
  show fileCommit.Alone _ _ _
  rw [fileCommit_alone hfailed]
  exact ⟨rfl, hdest⟩

theorem copyFileRemote_fails {w : World}
    (h : (streamSparse cfg size fuel fuel 0).Alone src.answer (fun _ ok => ok = false) w) :
    (copyFileRemote cfg size fuel true).Alone src.answer (fun _ ok => ok = false) w := by
  have hcontent : (streamContent cfg size fuel true).Alone src.answer (fun _ ok => ok = false) w := by
    unfold streamContent
    rw [if_pos rfl]
    apply h.bind
    rintro t ok rfl
    exact rfl
  unfold copyFileRemote
  simp only [alone_attempt, handleOpen_alone, Bool.not_true, Bool.false_eq_true, if_false]
  apply hcontent.bind
  rintro t ok rfl
  exact rfl

theorem answer_total (w : World) (c : Call) : ∃ n r t, src.answer w n c = some (r, t) := by
  cases c <;> exact ⟨0, _, _, rfl⟩

theorem Source.Makes.unique {m : ℕ → Action Bool} {d d' : Dest} (h : src.Makes m d)
    (h' : src.Makes m d') : d = d' := by
  obtain ⟨enough, h⟩ := h
  obtain ⟨enough', h'⟩ := h'
  obtain ⟨t, ok, hd, hd'⟩ := Prog.Alone.meet answer_total
    (h (max enough enough') (Nat.le_max_left _ _)) (h' (max enough enough') (Nat.le_max_right _ _))
  exact hd.2.symm.trans hd'.2

/-- A program that fails with any fuel makes nothing. -/
theorem Source.Makes.not_of_fails {m : ℕ → Action Bool} {d : Dest}
    (hfails : ∀ fuel, (m fuel).Alone src.answer (fun _ ok => ok = false) World.start) :
    ¬src.Makes m d := by
  rintro ⟨enough, h⟩
  obtain ⟨t, ok, hd, hfail⟩ := Prog.Alone.meet answer_total (h enough (Nat.le_refl _)) (hfails enough)
  rw [hfail] at hd
  cases hd.1

end Whole

/-- The copy to the server succeeds where the local one does, and the bytes are the same. -/
def SparseAgrees (cfg : Tuning) (src : Source) (size : ℕ) : Prop :=
  ∀ d, src.Makes (copyFileSparse cfg size) d →
    ∃ d', src.Makes (fun fuel => copyFileRemote cfg size fuel true) d' ∧ src.bytes d' = src.bytes d

/-- `SEEK_DATA` is known; or the end of the file can be asked for and there is no hole before
it, so that it does not matter. -/
def Seekable (src : Source) (size : ℕ) : Prop :=
  size = 0 ∨ src.refusesData = none ∨
    (src.refusesHole = none ∧ size ≤ src.length ∧ ∀ x < size, src.isData x = true)

section Agreement
variable {cfg : Tuning} {src : Source} {size : ℕ}

/-- Both copies write the same offsets. -/
theorem SparseAgrees.of_wrote (P : ℕ → Prop) [DecidablePred P] (enough : ℕ)
    (hlocal : ∀ fuel, enough ≤ fuel → (copyDataExtentsBuffered cfg size fuel fuel 0).Alone src.answer
      (fun t ok => ok = true ∧ Wrote P World.start t) World.start)
    (hremote : ∀ fuel, enough ≤ fuel → (streamSparse cfg size fuel fuel 0).Alone src.answer
      (fun t ok => ok = true ∧ Wrote P World.start t) World.start) :
    SparseAgrees cfg src size := by
  intro d hd
  have hshape : src.Makes (copyFileSparse cfg size) (shape P size) :=
    ⟨enough, fun fuel hfuel => copyFileSparse_alone (hlocal fuel hfuel)⟩
  rw [hd.unique hshape]
  exact ⟨shape P size, ⟨enough, fun fuel hfuel => copyFileRemote_alone (hremote fuel hfuel)⟩, rfl⟩

/-- The local copy of data with an end that cannot be asked for. -/
theorem copyDataExtentsBuffered_fails (hd : src.refusesData = none) (hh : src.refusesHole ≠ none)
    {x : ℕ} (hx : src.DataFrom size 0 x) {range fuel : ℕ} {w : World} :
    (copyDataExtentsBuffered cfg size range fuel 0).Alone src.answer (fun _ ok => ok = false) w := by
  cases fuel with
  | zero => exact rfl
  | succ fuel =>
    obtain ⟨-, hsize, hlen, hdata⟩ := hx
    rw [copyDataExtentsBuffered, if_neg (by omega)]
    show (Prog.perform (Call.seekData 0) >>= fun x => _).Alone _ _ _
    rw [alone_seekData]
    rcases seekData_cases hd 0 with ⟨hseek, hnone⟩ | ⟨data, hseek, -, -, -, hbefore⟩
    · rw [hnone x (Nat.zero_le x) hlen] at hdata
      cases hdata
    · have hnear : data ≤ x := by
        by_contra hlt
        rw [hbefore x (Nat.zero_le x) (by omega)] at hdata
        cases hdata
      obtain ⟨e, he⟩ := Option.ne_none_iff_exists'.mp hh
      have hseekHole : src.seekHole data = .error e := by
        unfold Source.seekHole
        rw [he]
      rw [hseek]
      dsimp only
      rw [if_neg (by omega)]
      show (Prog.perform (Call.seekHole data) >>= fun x => _).Alone _ _ _
      rw [alone_seekHole, hseekHole]
      exact rfl

theorem not_sparseAgrees {e : Fault} (he : src.refusesData = some e) (hpos : 0 < size)
    (hsparse : src.refusesHole = none → size ≤ src.length → ¬∀ x < size, src.isData x = true) :
    ¬SparseAgrees cfg src size := by
  intro hagrees
  have hlocal : src.Makes (copyFileSparse cfg size)
      (shape (fun x => 0 ≤ x ∧ x < size ∧ x < src.length) size) := by
    refine ⟨size + 1, fun fuel hfuel => copyFileSparse_alone ?_⟩
    obtain ⟨fuel, rfl⟩ := Nat.exists_eq_add_of_lt (Nat.lt_of_lt_of_le (Nat.succ_pos size) hfuel)
    rw [Nat.zero_add] at hfuel ⊢
    exact copyDataExtentsBuffered_dense he hpos hfuel rfl
  obtain ⟨d', hremote, -⟩ := hagrees _ hlocal
  exact Source.Makes.not_of_fails
    (fun fuel => copyFileRemote_fails (streamSparse_fails he hpos hsparse)) hremote

theorem sparseAgrees_empty : SparseAgrees cfg src 0 := by
  apply SparseAgrees.of_wrote (fun _ => False) 1
  · intro fuel hfuel
    obtain ⟨fuel, rfl⟩ := Nat.exists_eq_add_of_lt hfuel
    rw [copyDataExtentsBuffered, if_pos (Nat.le_refl 0)]
    exact ⟨rfl, Wrote.refl (fun _ h => h) _⟩
  · intro fuel hfuel
    obtain ⟨fuel, rfl⟩ := Nat.exists_eq_add_of_lt hfuel
    rw [streamSparse, if_pos (Nat.le_refl 0)]
    exact ⟨rfl, Wrote.refl (fun _ h => h) _⟩

theorem sparseAgrees_of_known (hd : src.refusesData = none) : SparseAgrees cfg src size := by
  by_cases hh : ∀ x, src.DataFrom size 0 x → src.refusesHole = none
  · apply SparseAgrees.of_wrote (src.DataFrom size 0) (size + 1)
    · exact fun fuel hfuel => copyDataExtentsBuffered_alone hd hh (by omega) hfuel rfl
    · exact fun fuel hfuel => streamSparse_alone hd hh (by omega) hfuel rfl
  · push Not at hh
    obtain ⟨x, hx, hrefused⟩ := hh
    intro d hmade
    refine absurd hmade (Source.Makes.not_of_fails fun fuel => copyFileSparse_fails ?_)
    exact copyDataExtentsBuffered_fails hd hrefused hx

theorem sparseAgrees_of_dense {e : Fault} (he : src.refusesData = some e) (hpos : 0 < size)
    (hhole : src.refusesHole = none) (hlen : size ≤ src.length)
    (hdata : ∀ x < size, src.isData x = true) : SparseAgrees cfg src size := by
  apply SparseAgrees.of_wrote (fun x => 0 ≤ x ∧ x < size ∧ x < src.length) (size + 1)
  · intro fuel hfuel
    obtain ⟨fuel, rfl⟩ := Nat.exists_eq_add_of_lt (Nat.lt_of_lt_of_le (Nat.succ_pos size) hfuel)
    rw [Nat.zero_add] at hfuel ⊢
    exact copyDataExtentsBuffered_dense he hpos hfuel rfl
  · intro fuel hfuel
    obtain ⟨fuel, rfl⟩ := Nat.exists_eq_add_of_lt (show 1 < fuel by omega)
    rw [Nat.add_comm 1 fuel] at hfuel ⊢
    exact streamSparse_dense he hhole hpos hlen hdata hfuel rfl

/-- A block without data on a file system that refuses both seeks. -/
def seeklessSource : Source where
  length := 4096
  content := fun _ => 0
  isData := fun _ => false
  refusesData := some .einval
  refusesHole := some .einval
  data_refusal := by simp [noSeek]
  hole_refusal := by simp [noSeek]

end Agreement

end Ecopy.Transfer
