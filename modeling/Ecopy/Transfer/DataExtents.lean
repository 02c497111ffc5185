import Ecopy.Transfer.Blocks

/-!
# Extents that were not read to their end

Both sparse loops go from extent to extent as the seeks of the source find them, and copy each
one block by block. The extents never overlap and are met in rising order. A range that met the
end of the source is left as it is, and the loop goes on with the next seek: its last bytes are
data of the source that the destination does not have.
-/
namespace Ecopy.Transfer
open Lib.Calls
open Workers.SmallCopy (Tuning)

/-- The answer calls the byte data; where the seeks are not known, everything is. -/
def dataIn (x : ℕ) : Event → Prop
  | ⟨.seekHole data, (r : Except Fault ℕ)⟩ => data ≤ x ∧ ∃ hole, r = .ok hole ∧ x < hole
  | ⟨.seekData pos, (r : Except Fault ℕ)⟩ => pos ≤ x ∧ ∃ e, r = .error e ∧ noSeek e = true
  | _ => False

/-- What the seeks of a copy have called data. -/
def Data (tr : List Event) (x : ℕ) : Prop := ∃ e ∈ tr, dataIn x e

@[simp] theorem not_data_nil (x : ℕ) : ¬Data [] x := by simp [Data]

@[simp] theorem data_cons (e : Event) (tr : List Event) (x : ℕ) :
    Data (e :: tr) x ↔ dataIn x e ∨ Data tr x := by
  simp [Data]

@[simp] theorem data_append (tr tr' : List Event) (x : ℕ) :
    Data (tr ++ tr') x ↔ Data tr x ∨ Data tr' x := by
  simp [Data, or_and_right, exists_or]

/-- A call that does not look for data. -/
def SeeksNothing : Call → Prop
  | .seekData _ | .seekHole _ => False
  | _ => True

theorem not_data {tr : List Event} (h : ∀ e ∈ tr, SeeksNothing e.1) (x : ℕ) : ¬Data tr x := by
  rintro ⟨⟨c, r⟩, he, hdata⟩
  have hc := h _ he
  cases c with
  | seekData => exact hc
  | seekHole => exact hc
  | _ => exact hdata

theorem ReadsNothing.seeksNothing {c : Call} (h : ReadsNothing c) : SeeksNothing c := by
  cases c with
  | seekData => exact h
  | seekHole => exact h
  | _ => trivial

theorem Silent.not_data {tr : List Event} (h : Silent tr) (x : ℕ) : ¬Data tr x :=
  Transfer.not_data (fun e he => (h e he).seeksNothing) x

/-- What comes before and after the loop of a copy learns nothing. -/
theorem framed {tr : List Event} (front mid back : List Event) (htr : tr = front ++ (mid ++ back))
    (hfront : Silent front) (hback : Silent back) :
    Data tr = Data mid ∧ tr.any early = mid.any early := by
  constructor
  · funext x
    rw [htr, data_append, data_append, or_iff_right (hfront.not_data x),
      or_iff_left (hback.not_data x)]
  · rw [htr, List.any_append, List.any_append, hfront.early, hback.early, Bool.or_false,
      Bool.false_or]

theorem not_data_found {pos data : ℕ} (x : ℕ) :
    ¬Data [⟨.seekData pos, (.ok data : Except Fault ℕ)⟩] x := by
  rw [data_cons, or_iff_left (not_data_nil x)]
  rintro ⟨-, e, he, -⟩
  cases he

theorem not_data_end {pos : ℕ} {e : Fault} (he : e = .enxio) (x : ℕ) :
    ¬Data [⟨.seekData pos, (.error e : Except Fault ℕ)⟩] x := by
  rw [data_cons, or_iff_left (not_data_nil x), he]
  rintro ⟨-, _, ⟨⟩, hno⟩
  cases hno

section Loops
variable {known : Bool} {s t u : World} {tr : List Event} {fuel : ℕ} {cfg : Tuning} {size : ℕ}

/-- One extent, as far as it could be read. -/
structure Extent (s t : World) (tr : List Event) (data stop reach : ℕ) : Prop where
  le : data ≤ reach
  within : reach ≤ stop
  dest : t.dest = s.dest.fill data reach
  early : tr.any early = true ↔ reach < stop
  seeks : ∀ x, ¬Data tr x

theorem copyExtent_runs {remote : Prop} {more : Action Bool} {pass : (pos len : ℕ) → Action Bool}
    {cap data stop : ℕ} (hmore : Looks known remote more) (hpass : Hands known remote pass)
    (hle : data ≤ stop)
    (h : (copyBlocks more (upTo stop cap) pass stop fuel data).Runs (answer known) s tr t true)
    (hcalm : remote → t.Calm) : ∃ reach, Extent s t tr data stop reach := by
  obtain ⟨reach, hdata, hdest, hearly, -, hwithin⟩ := copyBlocks_runs hmore hpass hle h hcalm
  refine ⟨reach, hdata, ?_, hdest, hearly, not_data ?_⟩
  · rcases hwithin with hend | ⟨p, hp, hasked⟩
    · exact hend
    · unfold upTo at hasked
      omega
  · have hkeeps : (copyBlocks more (upTo stop cap) pass stop fuel data).Keeps SeeksNothing
        fun _ _ => True := by
      refine keeps_copyBlocks (fun _ _ => trivial) ?_ (fun pos len => ?_) stop fuel data
      · exact hmore.silent.weaken (fun _ => ReadsNothing.seeksNothing) fun _ _ _ => trivial
      · refine (hpass.silent pos len).weaken (fun _ => ReadsNothing.seeksNothing) ?_
        exact fun _ _ _ => trivial
    exact (hkeeps.calls h).1

/-- The extents from `pos` on: what was called data is copied, unless a read met the end of the
source; then a byte that was called data is not. -/
structure Extents (size : ℕ) (s t : World) (tr : List Event) (pos : ℕ) : Prop where
  before : ∀ x < pos, t.dest.byte x = s.dest.byte x
  rising : ∀ x, Data tr x → pos ≤ x
  copied : tr.any early = false → ∀ x < size, Data tr x → t.dest.byte x = some x
  missed : tr.any early = true → ∃ x < size, Data tr x ∧ t.dest.byte x = s.dest.byte x

theorem Extents.of_no_data {pos : ℕ} (hdest : t.dest = s.dest) (hearly : tr.any early = false)
    (hdata : ∀ x, ¬Data tr x) : Extents size s t tr pos where
  before := fun x _ => by rw [hdest]
  rising := fun x hx => absurd hx (hdata x)
  copied := fun _ x _ hx => absurd hx (hdata x)
  missed := fun hsome => (Bool.false_ne_true (hearly.symm.trans hsome)).elim

/-- Calls that learn nothing come before. -/
theorem Extents.silent_append {front : List Event} {pos : ℕ} (hfront : Silent front)
    (hdest : u.dest = s.dest) (h : Extents size u t tr pos) :
    Extents size s t (front ++ tr) pos := by
  have hdata : ∀ x, Data (front ++ tr) x ↔ Data tr x := fun x => by
    rw [data_append, or_iff_right (hfront.not_data x)]
  have hearly : (front ++ tr).any early = tr.any early := by
    rw [List.any_append, hfront.early, Bool.false_or]
  constructor
  · intro x hx
    rw [← hdest]
    exact h.before x hx
  · exact fun x hx => h.rising x ((hdata x).mp hx)
  · rw [hearly]
    exact fun hnone x hx hin => h.copied hnone x hx ((hdata x).mp hin)
  · rw [hearly]
    intro hsome
    obtain ⟨x, hx, hin, hbyte⟩ := h.missed hsome
    exact ⟨x, hx, (hdata x).mpr hin, hbyte.trans (by rw [hdest])⟩

/-- One extent and those behind it. -/
theorem Extents.turn {range rest : List Event} {pos data hole reach : ℕ} (hpos : pos ≤ data)
    (h : Extent s u range data (min hole size) reach)
    (hrest : Extents size u t rest (min hole size)) :
    Extents size s t (⟨.seekData pos, (.ok data : Except Fault ℕ)⟩ ::
      ⟨.seekHole data, (.ok hole : Except Fault ℕ)⟩ :: (range ++ rest)) pos := by
  obtain ⟨hle, hwithin, hdest, hearly, hseeks⟩ := h
  have hdata : ∀ x, Data (⟨.seekData pos, (.ok data : Except Fault ℕ)⟩ ::
      ⟨.seekHole data, (.ok hole : Except Fault ℕ)⟩ :: (range ++ rest)) x ↔
      (data ≤ x ∧ x < hole) ∨ Data rest x := by
    intro x
    have hno : ¬dataIn x ⟨.seekData pos, (.ok data : Except Fault ℕ)⟩ := by
      rintro ⟨-, e, he, -⟩
      cases he
    have hfound : dataIn x ⟨.seekHole data, (.ok hole : Except Fault ℕ)⟩ ↔ data ≤ x ∧ x < hole := by
      constructor
      · rintro ⟨hx, _, ⟨⟩, hlt⟩
        exact ⟨hx, hlt⟩
      · exact fun ⟨hx, hlt⟩ => ⟨hx, hole, rfl, hlt⟩
    rw [data_cons, data_cons, data_append, or_iff_right hno, hfound, or_iff_right (hseeks x)]
  have hany : (⟨.seekData pos, (.ok data : Except Fault ℕ)⟩ ::
      ⟨.seekHole data, (.ok hole : Except Fault ℕ)⟩ :: (range ++ rest) : List Event).any early =
      (range.any early || rest.any early) := by
    rw [List.any_cons, List.any_cons, List.any_append]
    rfl
  constructor
  · intro x hx
    rw [hrest.before x (by omega), hdest, Dest.fill_byte, if_neg (by omega)]
  · intro x hx
    rcases (hdata x).mp hx with ⟨hx, -⟩ | hx
    · exact hpos.trans hx
    · have := hrest.rising x hx
      omega
  · rw [hany, Bool.or_eq_false_iff]
    rintro ⟨hrange, hlater⟩ x hx hin
    have hreach : reach = min hole size := by
      have := mt hearly.mpr (Bool.not_eq_true _ ▸ hrange)
      omega
    rcases (hdata x).mp hin with ⟨hx', hlt⟩ | hin
    · rw [hrest.before x (by omega), hdest, Dest.fill_byte, if_pos (by omega)]
    · exact hrest.copied hlater x hx hin
  · rw [hany, Bool.or_eq_true]
    rintro (hrange | hlater)
    · have hreach := hearly.mp hrange
      refine ⟨reach, by omega, (hdata reach).mpr (.inl ⟨hle, by omega⟩), ?_⟩
      rw [hrest.before reach hreach, hdest, Dest.fill_byte, if_neg (by omega)]
    · obtain ⟨x, hx, hin, hbyte⟩ := hrest.missed hlater
      have hbehind := hrest.rising x hin
      refine ⟨x, hx, (hdata x).mpr (.inr hin), ?_⟩
      rw [hbyte, hdest, Dest.fill_byte, if_neg (by omega)]

/-- Where the seeks are not known, the rest of the file is one extent. -/
theorem Extents.rest {pos reach : ℕ} {e : Fault} (he : noSeek e = true)
    (h : Extent s t tr pos size reach) :
    Extents size s t (⟨.seekData pos, (.error e : Except Fault ℕ)⟩ :: tr) pos := by
  obtain ⟨hle, hwithin, hdest, hearly, hseeks⟩ := h
  have hdata : ∀ x, Data (⟨.seekData pos, (.error e : Except Fault ℕ)⟩ :: tr) x ↔ pos ≤ x := by
    intro x
    rw [data_cons, or_iff_left (hseeks x)]
    exact ⟨And.left, fun hx => ⟨hx, e, rfl, he⟩⟩
  have hany : (⟨.seekData pos, (.error e : Except Fault ℕ)⟩ :: tr : List Event).any early =
      tr.any early := Bool.false_or _
  constructor
  · intro x hx
    rw [hdest, Dest.fill_byte, if_neg (by omega)]
  · exact fun x hx => (hdata x).mp hx
  · rw [hany]
    intro hnone x hx hin
    have hreach : ¬reach < size := mt hearly.mpr (Bool.not_eq_true _ ▸ hnone)
    have hpos := (hdata x).mp hin
    rw [hdest, Dest.fill_byte, if_pos (by omega)]
  · rw [hany]
    intro hsome
    refine ⟨reach, hearly.mp hsome, (hdata reach).mpr hle, ?_⟩
    rw [hdest, Dest.fill_byte, if_neg (by omega)]

theorem copyDataExtentsBuffered_runs {range pos : ℕ}
    (h : (copyDataExtentsBuffered cfg size range fuel pos).Runs (answer known) s tr t true) :
    Extents size s t tr pos := by
  induction fuel generalizing s tr pos with
  | zero => cases (Prog.runs_ret_iff.mp h).2.2
  | succ fuel ih =>
    unfold copyDataExtentsBuffered at h
    split at h
    · obtain ⟨rfl, rfl, -⟩ := Prog.runs_ret_iff.mp h
      exact .of_no_data rfl rfl not_data_nil
    rename_i hleft
    obtain ⟨x, found, u, rest, hx, rfl, hfound⟩ := Prog.runs_perform_iff.mp h
    obtain ⟨rfl, hgo, -⟩ := seeks_same hx
    cases found with
    | error e =>
      dsimp only at hfound
      split_ifs at hfound with hend hunknown
      · obtain ⟨rfl, rfl, -⟩ := Prog.runs_ret_iff.mp hfound
        exact .of_no_data rfl rfl (not_data_end hend)
      · obtain ⟨reach, hextent⟩ := copyExtent_runs (Looks.always known False)
          (Hands.writeBlock known range) (by omega) hfound False.elim
        exact .rest hunknown hextent
      · cases (Prog.runs_ret_iff.mp hfound).2.2
    | ok data =>
      dsimp only at hfound
      obtain ⟨hpos, -⟩ := hgo data rfl
      split_ifs at hfound with hbehind
      · obtain ⟨rfl, rfl, -⟩ := Prog.runs_ret_iff.mp hfound
        exact .of_no_data rfl rfl not_data_found
      obtain ⟨y, ended, v, later, hy, rfl, hended⟩ := Prog.runs_perform_iff.mp hfound
      obtain ⟨rfl, hgo', -⟩ := seeks_same hy
      cases ended with
      | error e => cases (Prog.runs_ret_iff.mp hended).2.2
      | ok hole =>
        obtain ⟨hhole, -⟩ := hgo' hole rfl
        obtain ⟨range', rest', w, rfl, hrange, hrest⟩ := guard_runs hended
        obtain ⟨reach, hextent⟩ := copyExtent_runs (Looks.always known False)
          (Hands.writeBlock known range) (by omega) hrange False.elim
        exact .turn hpos hextent (ih hrest)

theorem streamSparse_runs {range pos : ℕ}
    (h : (streamSparse cfg size range fuel pos).Runs (answer known) s tr t true) (ht : t.Calm) :
    Extents size s t tr pos := by
  induction fuel generalizing s tr pos with
  | zero => cases (Prog.runs_ret_iff.mp h).2.2
  | succ fuel ih =>
    unfold streamSparse at h
    split at h
    · obtain ⟨rfl, rfl, -⟩ := Prog.runs_ret_iff.mp h
      exact .of_no_data rfl rfl not_data_nil
    rename_i hleft
    obtain ⟨before, after, w, b, rfl, hlook, hturn⟩ := Prog.runs_bind_iff.mp h
    have hbefore := Silent.of_keeps keeps_stopped hlook
    obtain ⟨hdest, hgoes⟩ := stopped_runs hlook
    obtain rfl := hgoes (calm_of_runs hturn ht)
    refine .silent_append hbefore hdest ?_
    obtain ⟨x, found, u, rest, hx, rfl, hfound⟩ := Prog.runs_perform_iff.mp hturn
    obtain ⟨rfl, hgo, hrefused⟩ := seeks_same hx
    cases found with
    | error e =>
      dsimp only at hfound
      split_ifs at hfound with hend hunknown
      · obtain ⟨rfl, rfl, -⟩ := Prog.runs_ret_iff.mp hfound
        exact .of_no_data rfl rfl (not_data_end hend)
      · -- whoever refuses the one seek refuses the other
        change (if size ≤ pos then Prog.ret true else _ : Action Bool).Runs _ _ _ _ _ at hfound
        rw [if_neg hleft] at hfound
        obtain ⟨y, ended, v, later, hy, rfl, hended⟩ := Prog.runs_perform_iff.mp hfound
        obtain ⟨rfl, hgo', -⟩ := seeks_same hy
        cases ended with
        | error e => cases (Prog.runs_ret_iff.mp hended).2.2
        | ok hole =>
          have hknown := hrefused e rfl
          rw [hunknown, (hgo' hole rfl).2] at hknown
          cases hknown
      · cases (Prog.runs_ret_iff.mp hfound).2.2
    | ok data =>
      obtain ⟨hpos, -⟩ := hgo data rfl
      change (if size ≤ data then Prog.ret true else _ : Action Bool).Runs _ _ _ _ _ at hfound
      split_ifs at hfound with hbehind
      · obtain ⟨rfl, rfl, -⟩ := Prog.runs_ret_iff.mp hfound
        exact .of_no_data rfl rfl not_data_found
      obtain ⟨y, ended, v, later, hy, rfl, hended⟩ := Prog.runs_perform_iff.mp hfound
      obtain ⟨rfl, hgo', -⟩ := seeks_same hy
      cases ended with
      | error e => cases (Prog.runs_ret_iff.mp hended).2.2
      | ok hole =>
        obtain ⟨hhole, -⟩ := hgo' hole rfl
        obtain ⟨range', rest', v, rfl, hrange, hrest⟩ := guard_runs hended
        obtain ⟨reach, hextent⟩ := copyExtent_runs (Looks.always known True)
          (Hands.sendBlock known range) (by omega) hrange fun _ => calm_of_runs hrest ht
        exact .turn hpos hextent (ih hrest)

/-- The length is set at the end, so that only bytes can be missing. -/
theorem Extents.whole_iff (h : Extents size s t tr 0) (hs : ∀ x, s.dest.byte x = none) :
    Whole size (Data tr) (t.dest.resize size) ↔ tr.any early = false := by
  constructor
  · rintro ⟨-, hwhole⟩
    rw [← Bool.not_eq_true]
    intro hsome
    obtain ⟨x, hx, hin, hbyte⟩ := h.missed hsome
    have hx' := hwhole x hx hin
    rw [Dest.resize_byte _ hx, hbyte, hs] at hx'
    cases hx'
  · intro hnone
    refine ⟨rfl, fun x hx hin => ?_⟩
    rw [Dest.resize_byte _ hx]
    exact h.copied hnone x hx hin

theorem copyFileSparse_whole_iff
    (h : (copyFileSparse cfg size fuel).Runs (answer known) .start tr t true) :
    Whole size (Data tr) t.dest ↔ tr.any early = false := by
  obtain ⟨x₁, tr₁, htr, h₁⟩ := guard_attempt_runs h
  obtain ⟨x₂, tr₂, rfl, h₂⟩ := guard_attempt_runs h₁
  obtain ⟨x₃, tr₃, rfl, h₃⟩ := guard_attempt_runs h₂
  obtain ⟨loop, tr₄, u, rfl, hloop, h₄⟩ := guard_runs h₃
  obtain ⟨x₅, cut, v, tr₅, hcut, rfl, h₅⟩ := Prog.runs_perform_iff.mp h₄
  cases cut with
  | error e => cases (Prog.runs_ret_iff.mp h₅).2.2
  | ok n =>
  obtain ⟨x₆, tr₆, rfl, h₆⟩ := guard_attempt_runs h₅
  obtain ⟨rfl, x₇, rfl⟩ := attempt_runs h₆
  obtain ⟨hdata, hearly⟩ := framed [⟨.step, x₁⟩, ⟨.step, x₂⟩, ⟨.step, x₃⟩] loop
    [⟨.ftruncate size, (.ok n : Except Fault ℕ)⟩, ⟨.step, x₆⟩, ⟨.step, x₇⟩] htr
    (by simp [Silent, ReadsNothing]) (by simp [Silent, ReadsNothing])
  rw [does_ok hcut, hdata, hearly]
  exact (copyDataExtentsBuffered_runs hloop).whole_iff fun _ => rfl

end Loops

end Ecopy.Transfer
