import Ecopy.Workers.ExtentMap

/-!
# What the extent map covers

The walks once more, with the byte total that `extent_list_add` keeps. Without it they are
the walks of `ExtentMap`. A run that begins no earlier than the ones before it is merged or
appended, so nothing of it is lost; for `SEEK_DATA` that follows from the positions, for
`FIEMAP` it is the order of its extents. Rounding outward keeps the bounds aligned when the
limit is.

The end of a run is an `off_t`, which overflows when it is rounded up within one block of
its maximum. Such a run counts as empty, so its data is left out of the map unless the run
before it reaches into the same block.

`FIEMAP` may hand over its extents in batches of any size and may cut an extent where a
batch ends; the extents of all batches together rise.
-/
namespace Ecopy.Workers.ExtentMap

/-- `extent_list_t`; the last run is the head. -/
structure ExtentList where
  runs : List Extent
  bytes : ℤ
deriving DecidableEq, Repr

def ExtentList.empty : ExtentList := ⟨[], 0⟩

def ExtentList.add (l : ExtentList) (data hole limit : ℤ) : ExtentList :=
  let r := roundRun data hole limit
  if r.2 ≤ r.1 then l
  else
    match l.runs with
    | [] => ⟨[r], l.bytes + (r.2 - r.1)⟩
    | last :: rest =>
      if r.1 ≤ last.2 then
        if r.2 > last.2 then ⟨(last.1, r.2) :: rest, l.bytes + (r.2 - last.2)⟩ else l
      else ⟨r :: last :: rest, l.bytes + (r.2 - r.1)⟩

inductive ByteWalk where
  | mapped (l : ExtentList)
  | unsupported
deriving DecidableEq, Repr

/-- One extent of an answer: the list and the offset expected next. -/
def fiemapExtentBytes (limit : ℤ) (acc : ExtentList × ℕ) (e : FiemapExtent) : ExtentList × ℕ :=
  (if !e.unwritten && decide ((e.logical : ℤ) < limit) then
      acc.1.add e.logical (if (e.stop : ℤ) < limit then e.stop else limit) limit
    else acc.1,
    if e.stop > acc.2 then e.stop else acc.2)

/-- The offset expected after some extents. -/
def expected (es : List FiemapExtent) (expect : ℕ) : ℕ :=
  es.foldl (fun x e => if e.stop > x then e.stop else x) expect

/-- The walk ends with this batch. -/
def fiemapOver (limit : ℤ) (last : FiemapExtent) (pos expect : ℕ) : Bool :=
  last.lastFlag || decide ((expect : ℤ) ≥ limit) || decide (expect ≤ pos)

/-- `fiemap_walk` -/
def fiemapWalkBytes (limit : ℤ) :
    List (Option (List FiemapExtent)) → (pos expect : ℕ) → ExtentList → Option ByteWalk
  | [], _, _, _ => none
  | none :: _, _, _, _ => some .unsupported
  | some es :: answers, pos, expect, l =>
    match es.getLast? with
    | none => some (.mapped l)
    | some last =>
      let r := es.foldl (fiemapExtentBytes limit) (l, expect)
      if fiemapOver limit last pos r.2 then some (.mapped r.1)
      else fiemapWalkBytes limit answers r.2 r.2 r.1

/-- `seek_walk` -/
def seekWalkBytes (limit : ℤ) : List (SeekData × Option ℤ) → ℤ → ExtentList → Option ByteWalk
  | answers, pos, l =>
    if pos < limit then
      match answers with
      | [] => none
      | (.enxio, _) :: _ => some (.mapped l)
      | (.failed, _) :: _ => some .unsupported
      | (.found data, hole) :: answers =>
        if data ≥ limit then some (.mapped l)
        else
          match hole with
          | none => some .unsupported
          | some hole => seekWalkBytes limit answers hole (l.add data hole limit)
    else some (.mapped l)

/-- `build_extent_map`: the map with `data_bytes`, or the null map. -/
def buildExtentMapBytes (k : Kernel) (limit : ℤ) : Option (Option (List Extent × ℤ)) :=
  let walk :=
    match fiemapWalkBytes limit k.fiemap 0 0 .empty with
    | some .unsupported => seekWalkBytes limit k.seek 0 .empty
    | w => w
  match walk with
  | none => none
  | some .unsupported => some none
  | some (.mapped l) => some (some (l.runs.reverse, l.bytes))

def ByteWalk.erase : ByteWalk → Walk
  | .mapped l => .mapped l.runs
  | .unsupported => .unsupported

theorem ExtentList.add_runs (l : ExtentList) (data hole limit : ℤ) :
    (l.add data hole limit).runs = extentListAdd l.runs data hole limit := by
  unfold ExtentList.add extentListAdd
  dsimp only
  split_ifs with hempty
  · rfl
  · cases hruns : l.runs with
    | nil => rfl
    | cons last rest =>
      dsimp only
      split_ifs
      · rfl
      · exact hruns
      · rfl

theorem fiemapExtents_erase (limit : ℤ) (es : List FiemapExtent) (l : ExtentList) (expect : ℕ) :
    es.foldl (fiemapExtent limit) (l.runs, expect) =
      ((es.foldl (fiemapExtentBytes limit) (l, expect)).1.runs,
        (es.foldl (fiemapExtentBytes limit) (l, expect)).2) := by
  induction es generalizing l expect with
  | nil => rfl
  | cons e es ih =>
    rw [List.foldl_cons, List.foldl_cons]
    have hone : fiemapExtent limit (l.runs, expect) e =
        ((fiemapExtentBytes limit (l, expect) e).1.runs,
          (fiemapExtentBytes limit (l, expect) e).2) := by
      simp only [fiemapExtent, fiemapExtentBytes, ← ExtentList.add_runs, Prod.mk.injEq, and_true]
      exact (apply_ite ExtentList.runs _ _ _).symm
    rw [hone]
    exact ih _ _

theorem fiemapWalkBytes_erase (limit : ℤ) (answers : List (Option (List FiemapExtent)))
    (pos expect : ℕ) (l : ExtentList) :
    (fiemapWalkBytes limit answers pos expect l).map ByteWalk.erase =
      fiemapWalk limit answers pos expect l.runs := by
  induction answers generalizing pos expect l with
  | nil => rfl
  | cons answer answers ih =>
    cases answer with
    | none => rfl
    | some es =>
      simp only [fiemapWalkBytes, fiemapWalk]
      cases es.getLast? with
      | none => rfl
      | some last =>
        rw [fiemapExtents_erase]
        by_cases hover : fiemapOver limit last pos
            (es.foldl (fiemapExtentBytes limit) (l, expect)).2 = true
        · exact (congrArg (Option.map ByteWalk.erase) (if_pos hover)).trans (if_pos hover).symm
        · apply (congrArg (Option.map ByteWalk.erase) (if_neg hover)).trans
          exact (ih _ _ _).trans (if_neg hover).symm

theorem seekWalkBytes_erase (limit : ℤ) (answers : List (SeekData × Option ℤ)) (pos : ℤ)
    (l : ExtentList) :
    (seekWalkBytes limit answers pos l).map ByteWalk.erase = seekWalk limit answers pos l.runs := by
  induction answers generalizing pos l with
  | nil =>
    unfold seekWalkBytes seekWalk
    split_ifs
    · rfl
    · rfl
  | cons answer answers ih =>
    obtain ⟨found, hole⟩ := answer
    unfold seekWalkBytes seekWalk
    split_ifs
    · cases found with
      | enxio => rfl
      | failed => rfl
      | found data =>
        dsimp only
        split_ifs
        · rfl
        · cases hole with
          | none => rfl
          | some hole =>
            dsimp only
            rw [← ExtentList.add_runs]
            exact ih _ _
    · rfl

theorem buildExtentMapBytes_erase (k : Kernel) (limit : ℤ) :
    (buildExtentMapBytes k limit).map (Option.map Prod.fst) = buildExtentMap k limit := by
  unfold buildExtentMapBytes buildExtentMap
  dsimp only
  have hfiemap : _ = fiemapWalk limit k.fiemap 0 0 [] :=
    fiemapWalkBytes_erase limit k.fiemap 0 0 .empty
  have hseek : _ = seekWalk limit k.seek 0 [] := seekWalkBytes_erase limit k.seek 0 .empty
  rw [← hfiemap, ← hseek]
  cases fiemapWalkBytes limit k.fiemap 0 0 .empty with
  | none => rfl
  | some w =>
    cases w with
    | mapped l => rfl
    | unsupported =>
      cases seekWalkBytes limit k.seek 0 .empty with
      | none => rfl
      | some w =>
        cases w with
        | mapped l => rfl
        | unsupported => rfl

def total (l : List Extent) : ℤ := (l.map fun e => e.2 - e.1).sum

/-- The list is in order and aligned, the total is right, no run begins behind `low`, and
the bytes that satisfy `P` are in it. -/
structure Holds (limit : ℤ) (l : ExtentList) (low : ℤ) (P : ℤ → Prop) : Prop where
  falling : Falling limit l.runs
  aligned : ∀ e ∈ l.runs, (Config.alignment : ℤ) ∣ e.1 ∧ (Config.alignment : ℤ) ∣ e.2
  bytes : l.bytes = total l.runs
  starts : ∀ e ∈ l.runs, e.1 ≤ low
  covers : ∀ x, 0 ≤ x → x < limit → P x → ∃ e ∈ l.runs, e.1 ≤ x ∧ x < e.2

theorem Holds.empty (limit low : ℤ) : Holds limit .empty low fun _ => False where
  falling := Ordered.nil limit
  aligned := nofun
  bytes := rfl
  starts := nofun
  covers := fun _ _ _ h => h.elim

variable {hole limit : ℤ} {answers : List (SeekData × Option ℤ)} {l : ExtentList}

theorem Holds.mono {low low' : ℤ} {P Q : ℤ → Prop} (h : Holds limit l low P) (hlow : low ≤ low')
    (hQ : ∀ x, 0 ≤ x → x < limit → Q x → P x) : Holds limit l low' Q where
  falling := h.falling
  aligned := h.aligned
  bytes := h.bytes
  starts := fun e he => (h.starts e he).trans hlow
  covers := fun x h0 hx hQx => h.covers x h0 hx (hQ x h0 hx hQx)

/-- The end of a run can be rounded up without an overflow. -/
def Fits (hole : ℤ) : Prop := hole + Config.alignment - 1 < 2 ^ 63

instance (hole : ℤ) : Decidable (Fits hole) := inferInstanceAs (Decidable (_ < _))

theorem offT_of_fits (h0 : 0 ≤ hole) (h : Fits hole) :
    offT (hole + Config.alignment - 1) = hole + Config.alignment - 1 := by
  have halign : (Config.alignment : ℤ) = 4096 := rfl
  unfold Fits at h
  rw [halign] at h ⊢
  apply Int.bmod_eq_of_le
  · omega
  · omega

theorem offT_neg (h : ¬ Fits hole) (hwide : hole < 2 ^ 63) :
    offT (hole + Config.alignment - 1) < 0 := by
  have halign : (Config.alignment : ℤ) = 4096 := rfl
  unfold Fits at h
  rw [halign] at h ⊢
  unfold offT
  rw [Int.bmod_def]
  split
  · omega
  · omega

/-- A run whose end overflows is left out. -/
theorem ExtentList.add_of_overflow (l : ExtentList) (data : ℤ) {hole : ℤ} (limit : ℤ)
    (h : ¬ Fits hole) (hwide : hole < 2 ^ 63) : l.add data hole limit = l := by
  have hfst := roundRun_fst_nonneg data hole limit
  have hsnd : (roundRun data hole limit).2 ≤ 0 := by
    have hneg := offT_neg h hwide
    have halign : (Config.alignment : ℤ) = 4096 := rfl
    unfold roundRun
    rw [halign] at hneg ⊢
    have hdiv : 0 ≤ (-offT (hole + 4096 - 1)).tdiv 4096 :=
      Int.tdiv_nonneg (by omega) (by decide)
    rw [Int.neg_tdiv] at hdiv
    dsimp only
    split_ifs
    · omega
    · omega
  unfold ExtentList.add
  exact if_pos (hsnd.trans hfst)

/-- The bounds of a rounded run are aligned and enclose what is below the limit. -/
theorem roundRun_spec {data : ℤ} (hdata : 0 ≤ data) (hhole : data < hole) (hfits : Fits hole)
    (hlimit : (Config.alignment : ℤ) ∣ limit) :
    (Config.alignment : ℤ) ∣ (roundRun data hole limit).1 ∧
      (Config.alignment : ℤ) ∣ (roundRun data hole limit).2 ∧
      (roundRun data hole limit).1 ≤ data ∧
      ∀ x, x < hole → x < limit → x < (roundRun data hole limit).2 := by
  have halign : (Config.alignment : ℤ) = 4096 := rfl
  unfold roundRun
  rw [offT_of_fits (by omega) hfits]
  rw [halign] at hlimit ⊢
  rw [Int.tdiv_eq_ediv_of_nonneg hdata, Int.tdiv_eq_ediv_of_nonneg (by omega)]
  dsimp only
  refine ⟨?_, ?_, ?_, ?_⟩
  · split_ifs
    · exact dvd_zero _
    · exact Dvd.intro_left _ rfl
  · split_ifs
    · exact hlimit
    · exact Dvd.intro_left _ rfl
  · split_ifs
    · exact hdata
    · omega
  · intro x hx hxl
    split_ifs
    · exact hxl
    · omega

/-- A run that begins no earlier than the others is taken in as a whole. -/
theorem Holds.add {low data : ℤ} {P : ℤ → Prop} (h : Holds limit l low P)
    (hlimit : (Config.alignment : ℤ) ∣ limit) (hlow : low ≤ data) (hdata : 0 ≤ data)
    (hhole : data < hole) (hfits : Fits hole) :
    Holds limit (l.add data hole limit) data fun x => P x ∨ data ≤ x ∧ x < hole := by
  obtain ⟨halign₁, halign₂, hfirst, hlast⟩ := roundRun_spec hdata hhole hfits hlimit
  have hfalling : Falling limit (l.add data hole limit).runs := by
    rw [ExtentList.add_runs]
    exact h.falling.add data hole
  set r := roundRun data hole limit with hr
  have hgrown : (∀ e ∈ (l.add data hole limit).runs,
        (Config.alignment : ℤ) ∣ e.1 ∧ (Config.alignment : ℤ) ∣ e.2 ∧ e.1 ≤ data) ∧
      (l.add data hole limit).bytes = total (l.add data hole limit).runs ∧
      (∀ e ∈ l.runs, ∃ b ∈ (l.add data hole limit).runs, b.1 ≤ e.1 ∧ e.2 ≤ b.2) ∧
      (r.1 < r.2 → ∃ b ∈ (l.add data hole limit).runs, b.1 ≤ data ∧ r.2 ≤ b.2) := by
    have hold : ∀ e ∈ l.runs, (Config.alignment : ℤ) ∣ e.1 ∧ (Config.alignment : ℤ) ∣ e.2 ∧
        e.1 ≤ data :=
      fun e he => ⟨(h.aligned e he).1, (h.aligned e he).2, (h.starts e he).trans hlow⟩
    have hbytes := h.bytes
    unfold ExtentList.add
    dsimp only
    rw [← hr]
    split_ifs with hempty
    · exact ⟨hold, hbytes, fun e he => ⟨e, he, le_rfl, le_rfl⟩, fun hlt => absurd hlt (by omega)⟩
    · cases hruns : l.runs with
      | nil =>
        rw [hruns] at hbytes
        refine ⟨?_, ?_, nofun, fun _ => ⟨r, List.mem_singleton_self r, hfirst, le_rfl⟩⟩
        · intro e he
          rw [List.mem_singleton.mp he]
          exact ⟨halign₁, halign₂, hfirst⟩
        · simp only [total, List.map_nil, List.sum_nil] at hbytes
          simp [total, hbytes]
      | cons last rest =>
        rw [hruns] at hold hbytes
        have hlastrun := hold last List.mem_cons_self
        have hsum : total (last :: rest) = last.2 - last.1 + total rest := by
          simp [total]
        dsimp only
        split_ifs with htouch hlonger
        · -- the last run grows
          refine ⟨?_, ?_, ?_, ?_⟩
          · intro e he
            rcases List.mem_cons.mp he with rfl | he
            · exact ⟨hlastrun.1, halign₂, hlastrun.2.2⟩
            · exact hold e (List.mem_cons_of_mem _ he)
          · have hnew : total ((last.1, r.2) :: rest) = r.2 - last.1 + total rest := by
              simp [total]
            dsimp only
            omega
          · intro e he
            rcases List.mem_cons.mp he with rfl | he
            · exact ⟨_, List.mem_cons_self, le_rfl, hlonger.le⟩
            · exact ⟨e, List.mem_cons_of_mem _ he, le_rfl, le_rfl⟩
          · exact fun _ => ⟨_, List.mem_cons_self, hlastrun.2.2, le_rfl⟩
        · rw [hruns]
          exact ⟨hold, hbytes, fun e he => ⟨e, he, le_rfl, le_rfl⟩,
            fun _ => ⟨last, List.mem_cons_self, hlastrun.2.2, by omega⟩⟩
        · refine ⟨?_, ?_, ?_, ?_⟩
          · intro e he
            rcases List.mem_cons.mp he with rfl | he
            · exact ⟨halign₁, halign₂, hfirst⟩
            · exact hold e he
          · have hnew : total (r :: last :: rest) = r.2 - r.1 + total (last :: rest) := by
              simp [total]
            dsimp only
            omega
          · exact fun e he => ⟨e, List.mem_cons_of_mem _ he, le_rfl, le_rfl⟩
          · exact fun _ => ⟨r, List.mem_cons_self, hfirst, le_rfl⟩
  obtain ⟨hall, hbytes, hkept, hnew⟩ := hgrown
  refine ⟨hfalling, fun e he => ⟨(hall e he).1, (hall e he).2.1⟩, hbytes,
    fun e he => (hall e he).2.2, ?_⟩
  intro x h0 hx hPx
  rcases hPx with hPx | hPx
  · obtain ⟨e, he, hlow', hhigh⟩ := h.covers x h0 hx hPx
    obtain ⟨b, hb, hb₁, hb₂⟩ := hkept e he
    exact ⟨b, hb, hb₁.trans hlow', hhigh.trans_le hb₂⟩
  · have hin := hlast x hPx.2 hx
    obtain ⟨b, hb, hb₁, hb₂⟩ := hnew (by omega)
    exact ⟨b, hb, hb₁.trans hPx.1, hin.trans_le hb₂⟩

/-- A run that the interface reports, with an end that may overflow. -/
theorem Holds.take {low data : ℤ} {P : ℤ → Prop} (h : Holds limit l low P)
    (hlimit : (Config.alignment : ℤ) ∣ limit) (hlow : low ≤ data) (hdata : 0 ≤ data)
    (hhole : data < hole) (hwide : hole < 2 ^ 63) :
    Holds limit (l.add data hole limit) data fun x => P x ∨ Fits hole ∧ data ≤ x ∧ x < hole := by
  by_cases hfits : Fits hole
  · refine (h.add hlimit hlow hdata hhole hfits).mono le_rfl ?_
    intro x _ _ hx
    exact hx.imp_right And.right
  · rw [l.add_of_overflow data limit hfits hwide]
    refine h.mono hlow ?_
    intro x _ _ hx
    exact hx.resolve_right fun hin => hfits hin.1

/-- The byte is data of the extent. -/
def FiemapExtent.Data (e : FiemapExtent) (x : ℤ) : Prop :=
  e.unwritten = false ∧ (e.logical : ℤ) ≤ x ∧ x < e.logical + e.length

/-- The extents that the walk is told of. -/
def fiemapSeen (limit : ℤ) : List (Option (List FiemapExtent)) → (pos expect : ℕ) →
    List FiemapExtent
  | some es :: answers, pos, expect =>
    match es.getLast? with
    | none => []
    | some last =>
      if fiemapOver limit last pos (expected es expect) then es
      else es ++ fiemapSeen limit answers (expected es expect) (expected es expect)
  | _, _, _ => []

/-- Extents as the interface documents them: not empty, within 64 bits, and in the range from
`pos` on that was asked for. -/
def Documented (limit : ℤ) (pos : ℕ) (e : FiemapExtent) : Prop :=
  0 < e.length ∧ e.logical + e.length < 2 ^ 64 ∧ (e.logical : ℤ) < limit ∧
    pos < e.logical + e.length

/-- The answers to one walk. All extents rise from `low` on. -/
def FiemapSane (limit : ℤ) :
    List (Option (List FiemapExtent)) → (pos expect low : ℕ) → Prop
  | some es :: answers, pos, expect, low =>
    (∀ e ∈ es, Documented limit pos e) ∧
      (low :: es.map FiemapExtent.logical).IsChain (· ≤ ·) ∧
      ∀ last, es.getLast? = some last → fiemapOver limit last pos (expected es expect) = false →
        FiemapSane limit answers (expected es expect) (expected es expect) last.logical
  | _, _, _, _ => True

theorem fiemapExtents_expected (limit : ℤ) (es : List FiemapExtent) (l : ExtentList)
    (expect : ℕ) : (es.foldl (fiemapExtentBytes limit) (l, expect)).2 = expected es expect := by
  unfold expected
  induction es generalizing l expect with
  | nil => rfl
  | cons e es ih =>
    rw [List.foldl_cons, List.foldl_cons]
    exact ih _ _

/-- The start of the last of some extents. -/
def lastStart (low : ℕ) (es : List FiemapExtent) : ℕ :=
  (es.getLast?.map FiemapExtent.logical).getD low

theorem lastStart_cons (low : ℕ) (e : FiemapExtent) (es : List FiemapExtent) :
    lastStart low (e :: es) = lastStart e.logical es := by
  unfold lastStart
  cases es with
  | nil => rfl
  | cons b es => simp [List.getLast?_cons]

theorem Holds.extents (hlimit : (Config.alignment : ℤ) ∣ limit) (hwide : limit < 2 ^ 63) {pos : ℕ}
    (es : List FiemapExtent) {low : ℕ} {l : ExtentList} {P : ℤ → Prop} (expect : ℕ)
    (h : Holds limit l low P) (hes : ∀ e ∈ es, Documented limit pos e)
    (hrise : (low :: es.map FiemapExtent.logical).IsChain (· ≤ ·)) :
    Holds limit (es.foldl (fiemapExtentBytes limit) (l, expect)).1 (lastStart low es)
      fun x => P x ∨ ∃ e ∈ es, e.Data x := by
  induction es generalizing low l expect P with
  | nil =>
    refine h.mono le_rfl ?_
    intro x _ _ hx
    rcases hx with hx | ⟨e, he, -⟩
    · exact hx
    · cases he
  | cons e es ih =>
    obtain ⟨hlen, hbits, hin, hover⟩ := hes e List.mem_cons_self
    rw [List.map_cons, List.isChain_cons_cons] at hrise
    have hlow : (low : ℤ) ≤ e.logical := Int.ofNat_le.mpr hrise.1
    have hstop : e.stop = e.logical + e.length := Nat.mod_eq_of_lt hbits
    have hone : Holds limit (fiemapExtentBytes limit (l, expect) e).1 e.logical
        fun x => P x ∨ e.Data x := by
      unfold fiemapExtentBytes
      dsimp only
      rw [hstop]
      cases hunwritten : e.unwritten with
      | true =>
        simp only [Bool.not_true, Bool.false_and, Bool.false_eq_true, if_false]
        refine h.mono hlow ?_
        intro x _ _ hx
        rcases hx with hx | hx
        · exact hx
        · exact absurd (hunwritten.symm.trans hx.1) (by simp)
      | false =>
        simp only [Bool.not_false, Bool.true_and, decide_eq_true hin, if_true]
        have hfits : Fits limit := by
          have halign : (Config.alignment : ℤ) = 4096 := rfl
          unfold Fits
          rw [halign] at hlimit ⊢
          omega
        refine (h.add hlimit hlow (Int.natCast_nonneg _) ?_ ?_).mono le_rfl ?_
        · push_cast
          split_ifs
          · omega
          · exact hin
        · unfold Fits at hfits ⊢
          push_cast
          split_ifs
          · omega
          · exact hfits
        · intro x _ hxl hx
          rcases hx with hx | ⟨-, hx₁, hx₂⟩
          · exact Or.inl hx
          · right
            push_cast
            split_ifs
            · exact ⟨hx₁, hx₂⟩
            · exact ⟨hx₁, hxl⟩
    rw [List.foldl_cons, lastStart_cons]
    refine (ih _ hone (fun b hb => hes b (List.mem_cons_of_mem e hb)) hrise.2).mono le_rfl ?_
    intro x _ _ hx
    rcases hx with hx | ⟨b, hb, hx⟩
    · exact Or.inl (Or.inl hx)
    · rcases List.mem_cons.mp hb with rfl | hb
      · exact Or.inl (Or.inr hx)
      · exact Or.inr ⟨b, hb, hx⟩

theorem fiemapWalkBytes_holds (hlimit : (Config.alignment : ℤ) ∣ limit) (hwide : limit < 2 ^ 63)
    {answers : List (Option (List FiemapExtent))} {pos expect low : ℕ} {l out : ExtentList}
    {P : ℤ → Prop} (h : Holds limit l low P) (hsane : FiemapSane limit answers pos expect low)
    (hw : fiemapWalkBytes limit answers pos expect l = some (.mapped out)) :
    ∃ low', Holds limit out low'
      fun x => P x ∨ ∃ e ∈ fiemapSeen limit answers pos expect, e.Data x := by
  induction answers generalizing pos expect low l P with
  | nil => cases hw
  | cons answer answers ih =>
    cases answer with
    | none => cases hw
    | some es =>
      obtain ⟨hes, hrise, hrest⟩ := hsane
      have hbatch := h.extents hlimit hwide es expect hes hrise
      simp only [fiemapWalkBytes, fiemapExtents_expected] at hw
      unfold fiemapSeen
      cases hlast : es.getLast? with
      | none =>
        rw [hlast] at hw
        cases hw
        refine ⟨low, h.mono le_rfl ?_⟩
        intro x _ _ hx
        rcases hx with hx | ⟨e, he, -⟩
        · exact hx
        · cases he
      | some last =>
        rw [hlast] at hw
        have hstart : lastStart low es = last.logical := by
          unfold lastStart
          rw [hlast]
          rfl
        rw [hstart] at hbatch
        dsimp only at hw ⊢
        split at hw
        · rename_i hover
          cases hw
          rw [if_pos hover]
          exact ⟨_, hbatch⟩
        · rename_i hover
          rw [if_neg hover]
          obtain ⟨low', hout⟩ := ih hbatch (hrest last hlast (by simpa using hover)) hw
          refine ⟨low', hout.mono le_rfl ?_⟩
          intro x _ _ hx
          rcases hx with hx | ⟨e, he, hx⟩
          · exact Or.inl (Or.inl hx)
          · rcases List.mem_append.mp he with he | he
            · exact Or.inl (Or.inr ⟨e, he, hx⟩)
            · exact Or.inr ⟨e, he, hx⟩

/-- Every further batch begins further on. -/
theorem fiemapWalkBytes_ends {answers : List (Option (List FiemapExtent))} {pos expect : ℕ}
    (hmany : (limit - pos).toNat < answers.length) :
    (fiemapWalkBytes limit answers pos expect l).isSome = true := by
  induction answers generalizing pos expect l with
  | nil => cases hmany
  | cons answer answers ih =>
    cases answer with
    | none => rfl
    | some es =>
      simp only [fiemapWalkBytes]
      split
      · rfl
      · split
        · rfl
        · rename_i hover
          simp only [fiemapOver, Bool.or_eq_true, decide_eq_true_eq, not_or] at hover
          apply ih
          rw [List.length_cons] at hmany
          omega

/-- The runs that the walk is told of. -/
def seekSeen (limit : ℤ) : List (SeekData × Option ℤ) → ℤ → List (ℤ × ℤ)
  | (.found data, some hole) :: answers, pos =>
    if pos < limit ∧ data < limit then (data, hole) :: seekSeen limit answers hole else []
  | _, _ => []

/-- Data lies at or behind the position that was asked for, and a hole behind the data.
The answers are of type `off_t`. -/
def SeekSane (limit : ℤ) : List (SeekData × Option ℤ) → ℤ → Prop
  | (.found data, some hole) :: answers, pos =>
    pos < limit → pos ≤ data ∧
      (data < limit → data < hole ∧ hole < 2 ^ 63 ∧ SeekSane limit answers hole)
  | _, _ => True

theorem seekWalkBytes_holds (hlimit : (Config.alignment : ℤ) ∣ limit)
    {answers : List (SeekData × Option ℤ)} {pos low : ℤ} {l out : ExtentList} {P : ℤ → Prop}
    (h : Holds limit l low P) (hlow : low ≤ pos) (hpos : 0 ≤ pos)
    (hsane : SeekSane limit answers pos)
    (hw : seekWalkBytes limit answers pos l = some (.mapped out)) :
    ∃ low', Holds limit out low'
      fun x => P x ∨ ∃ r ∈ seekSeen limit answers pos, Fits r.2 ∧ r.1 ≤ x ∧ x < r.2 := by
  have hdone : ∀ rs : List (ℤ × ℤ), rs = [] → ∃ low', Holds limit l low'
      fun x => P x ∨ ∃ r ∈ rs, Fits r.2 ∧ r.1 ≤ x ∧ x < r.2 := by
    rintro rs rfl
    refine ⟨low, h.mono le_rfl ?_⟩
    intro x _ _ hx
    rcases hx with hx | ⟨r, hr, -⟩
    · exact hx
    · cases hr
  induction answers generalizing pos low l P with
  | nil =>
    unfold seekWalkBytes at hw
    split at hw
    · cases hw
    · cases hw
      exact hdone _ rfl
  | cons answer answers ih =>
    obtain ⟨found, hole⟩ := answer
    unfold seekWalkBytes at hw
    split at hw
    · rename_i hlt
      cases found with
      | enxio =>
        cases hw
        exact hdone _ rfl
      | failed => cases hw
      | found data =>
        cases hole with
        | none =>
          dsimp only at hw
          split at hw
          · cases hw
            exact hdone _ rfl
          · cases hw
        | some hole =>
          obtain ⟨hdata, hnext⟩ := hsane hlt
          dsimp only at hw
          split at hw
          · rename_i hend
            cases hw
            exact hdone _ (if_neg fun hboth => absurd hboth.2 (not_lt.mpr hend))
          · rename_i hin
            rw [ge_iff_le, not_le] at hin
            obtain ⟨hhole, hwide, hrest⟩ := hnext hin
            have hadd := h.take hlimit (hlow.trans hdata) (hpos.trans hdata) hhole hwide
            have hdone' : ∀ rs : List (ℤ × ℤ), rs = [] →
                ∃ low', Holds limit (l.add data hole limit) low' fun x =>
                  (P x ∨ Fits hole ∧ data ≤ x ∧ x < hole) ∨
                    ∃ r ∈ rs, Fits r.2 ∧ r.1 ≤ x ∧ x < r.2 := by
              rintro rs rfl
              refine ⟨data, hadd.mono le_rfl ?_⟩
              intro x _ _ hx
              rcases hx with hx | ⟨r, hr, -⟩
              · exact hx
              · cases hr
            obtain ⟨low', hout⟩ := ih hadd hhole.le (by omega) hrest hw hdone'
            have hseen : seekSeen limit ((.found data, some hole) :: answers) pos =
                (data, hole) :: seekSeen limit answers hole := if_pos ⟨hlt, hin⟩
            rw [hseen]
            refine ⟨low', hout.mono le_rfl ?_⟩
            intro x _ _ hx
            rcases hx with hx | ⟨r, hr, hx⟩
            · exact Or.inl (Or.inl hx)
            · rcases List.mem_cons.mp hr with rfl | hr
              · exact Or.inl (Or.inr hx)
              · exact Or.inr ⟨r, hr, hx⟩
    · rename_i hover
      cases hw
      refine hdone _ ?_
      unfold seekSeen
      split
      · exact if_neg fun hboth => hover hboth.1
      · rfl

theorem seekWalkBytes_ends {pos : ℤ} (hsane : SeekSane limit answers pos)
    (hmany : (limit - pos).toNat < answers.length) :
    (seekWalkBytes limit answers pos l).isSome = true := by
  induction answers generalizing pos l with
  | nil => cases hmany
  | cons answer answers ih =>
    obtain ⟨found, hole⟩ := answer
    unfold seekWalkBytes
    split
    · rename_i hlt
      cases found with
      | enxio => rfl
      | failed => rfl
      | found data =>
        dsimp only
        split
        · rfl
        · rename_i hin
          rw [ge_iff_le, not_le] at hin
          cases hole with
          | none => rfl
          | some hole =>
            obtain ⟨hdata, hnext⟩ := hsane hlt
            obtain ⟨hhole, -, hrest⟩ := hnext hin
            apply ih hrest
            rw [List.length_cons] at hmany
            omega
    · rfl

/-- The byte is data according to the interface that the map was made with: `FIEMAP`, or the
seeks when one of its calls failed. -/
def ReportedData (k : Kernel) (limit x : ℤ) : Prop :=
  if fiemapWalkBytes limit k.fiemap 0 0 .empty = some .unsupported then
    ∃ r ∈ seekSeen limit k.seek 0, r.1 ≤ x ∧ x < r.2
  else ∃ e ∈ fiemapSeen limit k.fiemap 0 0, e.Data x

/-- The map is a sound description of the source. -/
structure SoundMap (k : Kernel) (limit : ℤ) (ext : List Extent) (bytes : ℤ) : Prop where
  ordered : Ordered limit ext
  aligned : ∀ e ∈ ext, (Config.alignment : ℤ) ∣ e.1 ∧ (Config.alignment : ℤ) ∣ e.2
  total : bytes = total ext
  covers : ∀ x, 0 ≤ x → x < limit → ReportedData k limit x → ∃ e ∈ ext, e.1 ≤ x ∧ x < e.2

theorem Holds.soundMap {k : Kernel} {low : ℤ} {P : ℤ → Prop} (h : Holds limit l low P)
    (hcovers : ∀ x, 0 ≤ x → x < limit → ReportedData k limit x →
      ∃ e ∈ l.runs, e.1 ≤ x ∧ x < e.2) : SoundMap k limit l.runs.reverse l.bytes where
  ordered := h.falling
  aligned := fun e he => h.aligned e (List.mem_reverse.mp he)
  total := by
    rw [h.bytes]
    unfold ExtentMap.total
    rw [List.map_reverse, List.sum_reverse]
  covers := by
    intro x h0 hx hrep
    obtain ⟨e, he, hin⟩ := hcovers x h0 hx hrep
    exact ⟨e, List.mem_reverse.mpr he, hin⟩

/-- The runs that the seeks report lie behind `pos` and one behind the other. -/
theorem seekSeen_rising {pos : ℤ} (hsane : SeekSane limit answers pos) :
    (∀ r ∈ seekSeen limit answers pos, pos ≤ r.1 ∧ r.1 < r.2 ∧ r.1 < limit ∧ r.2 < 2 ^ 63) ∧
      (seekSeen limit answers pos).Pairwise fun a b => a.2 ≤ b.1 := by
  induction answers generalizing pos with
  | nil => exact ⟨nofun, .nil⟩
  | cons answer answers ih =>
    obtain ⟨found, hole⟩ := answer
    cases found with
    | enxio => exact ⟨nofun, .nil⟩
    | failed => exact ⟨nofun, .nil⟩
    | found data =>
      cases hole with
      | none => exact ⟨nofun, .nil⟩
      | some hole =>
        unfold seekSeen
        split_ifs with hin
        · obtain ⟨hdata, hnext⟩ := hsane hin.1
          obtain ⟨hhole, hwide, hrest⟩ := hnext hin.2
          obtain ⟨hbounds, hrise⟩ := ih hrest
          refine ⟨List.forall_mem_cons.mpr ⟨⟨hdata, hhole, hin.2, hwide⟩, fun r hr => ?_⟩,
            .cons (fun r hr => (hbounds r hr).1) hrise⟩
          obtain ⟨hlow, hrun⟩ := hbounds r hr
          exact ⟨hdata.trans (hhole.le.trans hlow), hrun⟩
        · exact ⟨nofun, .nil⟩

theorem seekSeen_apart {pos : ℤ} (hsane : SeekSane limit answers pos) {p r : ℤ × ℤ}
    (hp : p ∈ seekSeen limit answers pos) (hr : r ∈ seekSeen limit answers pos) :
    p = r ∨ p.2 ≤ r.1 ∨ r.2 ≤ p.1 := by
  have hrise := (seekSeen_rising hsane).2
  exact List.Pairwise.forall_of_forall_of_flip (R := fun a b => a = b ∨ a.2 ≤ b.1 ∨ b.2 ≤ a.1)
    (fun _ _ => .inl rfl) (hrise.imp fun h => .inr (.inl h)) (hrise.imp fun h => .inr (.inr h)) hp hr

/-- No run of the list reaches further than the block in which a reported run ends. -/
theorem ExtentList.add_bounded {data : ℤ} (l : ExtentList) (hdata : 0 ≤ data)
    (hhole : data < hole) (hwide : hole < 2 ^ 63) {e : Extent}
    (he : e ∈ (l.add data hole limit).runs) :
    (∃ b ∈ l.runs, e.2 ≤ b.2) ∨ Fits hole ∧ e.2 < hole + Config.alignment := by
  by_cases hfits : Fits hole
  · have hsnd : (roundRun data hole limit).2 < hole + Config.alignment := by
      have halign : (Config.alignment : ℤ) = 4096 := rfl
      have hround := Int.ediv_mul_le (hole + 4096 - 1) (show (4096 : ℤ) ≠ 0 by decide)
      unfold roundRun
      rw [offT_of_fits (by omega) hfits, halign,
        Int.tdiv_eq_ediv_of_nonneg (show 0 ≤ hole + 4096 - 1 by omega)]
      dsimp only
      split_ifs
      · omega
      · omega
    unfold ExtentList.add at he
    dsimp only at he
    split_ifs at he
    · exact .inl ⟨e, he, le_rfl⟩
    · split at he
      · rw [List.mem_singleton.mp he]
        exact .inr ⟨hfits, hsnd⟩
      · rename_i last rest hruns
        have hrest : ∀ b ∈ last :: rest, ∃ b' ∈ l.runs, b.2 ≤ b'.2 :=
          fun b hb => ⟨b, hruns ▸ hb, le_rfl⟩
        split_ifs at he
        · rcases List.mem_cons.mp he with rfl | he
          · exact .inr ⟨hfits, hsnd⟩
          · exact .inl (hrest e (List.mem_cons_of_mem _ he))
        · exact .inl ⟨e, he, le_rfl⟩
        · rcases List.mem_cons.mp he with rfl | he
          · exact .inr ⟨hfits, hsnd⟩
          · exact .inl (hrest e he)
  · rw [l.add_of_overflow data limit hfits hwide] at he
    exact .inl ⟨e, he, le_rfl⟩

theorem seekWalkBytes_bounded {pos : ℤ} {out : ExtentList} (hpos : 0 ≤ pos)
    (hsane : SeekSane limit answers pos)
    (hw : seekWalkBytes limit answers pos l = some (.mapped out)) {e : Extent} (he : e ∈ out.runs) :
    (∃ b ∈ l.runs, e.2 ≤ b.2) ∨
      ∃ r ∈ seekSeen limit answers pos, Fits r.2 ∧ e.2 < r.2 + Config.alignment := by
  induction answers generalizing pos l with
  | nil =>
    unfold seekWalkBytes at hw
    split_ifs at hw
    cases hw
    exact .inl ⟨e, he, le_rfl⟩
  | cons answer answers ih =>
    obtain ⟨found, hole⟩ := answer
    unfold seekWalkBytes at hw
    split_ifs at hw with hlt
    · cases found with
      | enxio =>
        cases hw
        exact .inl ⟨e, he, le_rfl⟩
      | failed => cases hw
      | found data =>
        dsimp only at hw
        split_ifs at hw with hend
        · cases hw
          exact .inl ⟨e, he, le_rfl⟩
        · cases hole with
          | none => cases hw
          | some hole =>
            have hin : data < limit := not_le.mp hend
            obtain ⟨hdata, hnext⟩ := hsane hlt
            obtain ⟨hhole, hwide, hrest⟩ := hnext hin
            have hseen : seekSeen limit ((.found data, some hole) :: answers) pos =
                (data, hole) :: seekSeen limit answers hole := if_pos ⟨hlt, hin⟩
            rw [hseen]
            rcases ih (by omega) hrest hw with ⟨b, hb, hle⟩ | ⟨r, hr, hbound⟩
            · rcases l.add_bounded (hpos.trans hdata) hhole hwide hb with ⟨b', hb', hle'⟩ | hnew
              · exact .inl ⟨b', hb', hle.trans hle'⟩
              · exact .inr ⟨_, List.mem_cons_self, hnew.1, hle.trans_lt hnew.2⟩
            · exact .inr ⟨r, List.mem_cons_of_mem _ hr, hbound⟩
    · cases hw
      exact .inl ⟨e, he, le_rfl⟩

/-- After a run whose end overflows the walk is over. -/
theorem fits_of_unsupported (hwide : limit < 2 ^ 63) (hlimit : (Config.alignment : ℤ) ∣ limit)
    {answers : List (SeekData × Option ℤ)} {pos : ℤ} {l : ExtentList}
    (hw : seekWalkBytes limit answers pos l = some .unsupported) :
    ∀ r ∈ seekSeen limit answers pos, Fits r.2 := by
  induction answers generalizing pos l with
  | nil => exact nofun
  | cons answer answers ih =>
    obtain ⟨found, hole⟩ := answer
    cases found with
    | enxio => exact nofun
    | failed => exact nofun
    | found data =>
      cases hole with
      | none => exact nofun
      | some hole =>
        unfold seekWalkBytes at hw
        unfold seekSeen
        split_ifs with hin
        · rw [if_pos hin.1] at hw
          dsimp only at hw
          rw [if_neg (not_le.mpr hin.2)] at hw
          refine List.forall_mem_cons.mpr ⟨?_, ih hw⟩
          by_contra hfits
          have hover : ¬ hole < limit := by
            have halign : (Config.alignment : ℤ) = 4096 := rfl
            unfold Fits at hfits
            rw [halign] at hfits hlimit
            omega
          unfold seekWalkBytes at hw
          rw [if_neg hover] at hw
          cases hw
        · exact nofun

/-- No data is lost: the map is not made with the seeks, or each run that they report ends
where it can be rounded up, or one that does reaches into the last block. -/
def Lossless (k : Kernel) (limit : ℤ) : Prop :=
  fiemapWalkBytes limit k.fiemap 0 0 .empty ≠ some .unsupported ∨
    (∀ r ∈ seekSeen limit k.seek 0, Fits r.2) ∨
      ∃ r ∈ seekSeen limit k.seek 0, Fits r.2 ∧ limit < r.2 + Config.alignment

/-- The map of the seeks is sound exactly when no data is lost. -/
theorem seekMap_sound_iff {k : Kernel} (hlimit : (Config.alignment : ℤ) ∣ limit)
    (hwide : limit < 2 ^ 63) (hseek : SeekSane limit k.seek 0)
    (hfiemap : fiemapWalkBytes limit k.fiemap 0 0 .empty = some .unsupported) {l : ExtentList}
    (hw : seekWalkBytes limit k.seek 0 .empty = some (.mapped l)) :
    SoundMap k limit l.runs.reverse l.bytes ↔ Lossless k limit := by
  have halign : (Config.alignment : ℤ) = 4096 := rfl
  have hbounds := (seekSeen_rising hseek).1
  have hreported : ∀ x, ReportedData k limit x ↔
      ∃ r ∈ seekSeen limit k.seek 0, r.1 ≤ x ∧ x < r.2 := by
    intro x
    unfold ReportedData
    rw [if_pos hfiemap]
  constructor
  · intro h
    by_cases hall : ∀ r ∈ seekSeen limit k.seek 0, Fits r.2
    · exact .inr (.inl hall)
    · -- the last byte below the limit is in the run that overflows
      push Not at hall
      obtain ⟨r, hr, hfits⟩ := hall
      obtain ⟨hlow, -, hin, -⟩ := hbounds r hr
      have hhigh : limit - 1 < r.2 := by
        unfold Fits at hfits
        rw [halign] at hfits hlimit
        omega
      obtain ⟨e, he, -, hlast⟩ := h.covers (limit - 1) (by omega) (by omega)
        ((hreported _).mpr ⟨r, hr, by omega, hhigh⟩)
      rcases seekWalkBytes_bounded le_rfl hseek hw (List.mem_reverse.mp he) with
        ⟨b, hb, -⟩ | ⟨p, hp, hkept, hend⟩
      · cases hb
      · exact .inr (.inr ⟨p, hp, hkept, by omega⟩)
  · intro h
    obtain ⟨low, hholds⟩ :=
      seekWalkBytes_holds hlimit (Holds.empty limit 0) le_rfl le_rfl hseek hw
    apply hholds.soundMap
    intro x h0 hx hrep
    obtain ⟨r, hr, hrx⟩ := (hreported x).mp hrep
    by_cases hfits : Fits r.2
    · exact hholds.covers x h0 hx (.inr ⟨r, hr, hfits, hrx⟩)
    · -- a run before it takes in the last block
      obtain ⟨p, hp, hkept, hend⟩ := (h.resolve_left fun hne => hne hfiemap).resolve_left
        fun hall => hfits (hall r hr)
      have hne : p ≠ r := fun heq => hfits (heq ▸ hkept)
      obtain ⟨hp0, hprun, hplimit, -⟩ := hbounds p hp
      have hbehind : p.2 ≤ r.1 := by
        refine ((seekSeen_apart hseek hp hr).resolve_left hne).resolve_right fun hle => hfits ?_
        unfold Fits
        rw [halign] at hlimit ⊢
        omega
      obtain ⟨e, he, hfirst, hlast⟩ := hholds.covers (p.2 - 1) (by omega) (by omega)
        (.inr ⟨p, hp, hkept, by omega, by omega⟩)
      obtain ⟨-, haligned⟩ := hholds.aligned e he
      rw [halign] at haligned hend hlimit
      exact ⟨e, he, by omega, by omega⟩

/-- With answers as the interfaces document them, `build_extent_map` ends, and the map that it
returns, if it returns one, is sound exactly when no data is lost. -/
theorem buildExtentMap_sound_iff {k : Kernel} {limit : ℤ} (hlimit : (Config.alignment : ℤ) ∣ limit)
    (hwide : limit < 2 ^ 63) (hfiemap : FiemapSane limit k.fiemap 0 0 0)
    (hseek : SeekSane limit k.seek 0)
    (hmany : limit.toNat < k.fiemap.length ∧ limit.toNat < k.seek.length) :
    ∃ r, buildExtentMapBytes k limit = some r ∧
      ((∀ ext bytes, r = some (ext, bytes) → SoundMap k limit ext bytes) ↔ Lossless k limit) := by
  have hends₁ : (fiemapWalkBytes limit k.fiemap 0 0 .empty).isSome = true :=
    fiemapWalkBytes_ends (by simpa using hmany.1)
  have hends₂ : (seekWalkBytes limit k.seek 0 .empty).isSome = true :=
    seekWalkBytes_ends hseek (by simpa using hmany.2)
  obtain ⟨walk, hwalk⟩ := Option.isSome_iff_exists.mp hends₁
  unfold buildExtentMapBytes
  rw [hwalk]
  cases walk with
  | mapped l =>
    refine ⟨_, rfl, iff_of_true ?_ (.inl (by rw [hwalk]; exact nofun))⟩
    intro ext bytes heq
    obtain ⟨rfl, rfl⟩ := Prod.mk.inj (Option.some.inj heq)
    obtain ⟨low, hholds⟩ :=
      fiemapWalkBytes_holds hlimit hwide (Holds.empty limit 0) hfiemap hwalk
    apply hholds.soundMap
    intro x h0 hx hrep
    unfold ReportedData at hrep
    rw [hwalk, if_neg (by simp)] at hrep
    exact hholds.covers x h0 hx (.inr hrep)
  | unsupported =>
    obtain ⟨walk, hseekwalk⟩ := Option.isSome_iff_exists.mp hends₂
    dsimp only
    rw [hseekwalk]
    cases walk with
    | unsupported =>
      exact ⟨none, rfl, iff_of_true nofun
        (.inr (.inl (fits_of_unsupported hwide hlimit hseekwalk)))⟩
    | mapped l =>
      refine ⟨_, rfl, ?_⟩
      rw [← seekMap_sound_iff hlimit hwide hseek hwalk hseekwalk]
      constructor
      · exact fun h => h _ _ rfl
      · intro h ext bytes heq
        obtain ⟨rfl, rfl⟩ := Prod.mk.inj (Option.some.inj heq)
        exact h

/-- `FIEMAP` fails at its second batch; the map is that of the seeks. -/
def failingKernel : Kernel where
  fiemap := some [⟨0, 4096, false, false, false⟩] :: List.replicate 8192 none
  seek := (.found 100, some 5000) :: List.replicate 8192 (.enxio, none)

theorem failingKernel_lossless : Lossless failingKernel 8192 := by
  refine .inr (.inl ?_)
  have hseen : seekSeen 8192 failingKernel.seek 0 = [(100, 5000)] := rfl
  rw [hseen]
  decide

theorem buildExtentMap_sound_failing :
    ∃ r, buildExtentMapBytes failingKernel 8192 = some r ∧
      ∀ ext bytes, r = some (ext, bytes) → SoundMap failingKernel 8192 ext bytes := by
  have hfiemap : FiemapSane 8192 failingKernel.fiemap 0 0 0 := by
    refine ⟨?_, by simp, ?_⟩
    · intro e he
      rw [List.mem_singleton.mp he]
      unfold Documented
      decide
    · intro last _ _
      trivial
  have hseek : SeekSane 8192 failingKernel.seek 0 :=
    fun _ => ⟨by decide, fun _ => ⟨by decide, by decide, trivial⟩⟩
  have hmany : (8192 : ℤ).toNat < failingKernel.fiemap.length ∧
      (8192 : ℤ).toNat < failingKernel.seek.length := by
    unfold failingKernel
    rw [List.length_cons, List.length_cons, List.length_replicate, List.length_replicate]
    omega
  obtain ⟨r, hr, hsound⟩ := buildExtentMap_sound_iff (by decide) (by decide) hfiemap hseek hmany
  exact ⟨r, hr, hsound.mpr failingKernel_lossless⟩

/-- A file of `2 ^ 63 - 1` bytes on a file system without `FIEMAP`, with data in its last two
blocks alone. -/
def longestKernel : Kernel where
  fiemap := [none]
  seek := [(.found (2 ^ 63 - 8192), some (2 ^ 63 - 1))]

/-- The map says that the file has no data. -/
theorem longest_file_lost :
    FiemapSane (2 ^ 63 - 4096) longestKernel.fiemap 0 0 0 ∧
      SeekSane (2 ^ 63 - 4096) longestKernel.seek 0 ∧
      buildExtentMapBytes longestKernel (2 ^ 63 - 4096) = some (some ([], 0)) ∧
      ReportedData longestKernel (2 ^ 63 - 4096) (2 ^ 63 - 8192) ∧
      ¬ SoundMap longestKernel (2 ^ 63 - 4096) [] 0 := by
  have hreported : ReportedData longestKernel (2 ^ 63 - 4096) (2 ^ 63 - 8192) := by
    refine (if_pos ?_).mpr ?_
    · rfl
    exact ⟨_, List.mem_singleton_self _, by decide, by decide⟩
  refine ⟨trivial, fun _ => ⟨by decide, fun _ => ⟨by decide, by decide, trivial⟩⟩, by decide,
    hreported, fun h => ?_⟩
  obtain ⟨e, he, -⟩ := h.covers _ (by decide) (by decide) hreported
  cases he

end Ecopy.Workers.ExtentMap
