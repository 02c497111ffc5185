import Ecopy.Workers.ExtentMap
import Ecopy.Workers.LargePipelineProgress

/-!
# The chunks of the bulk part

The readers share one cursor, which moves over the bulk part of the file from
chunk to chunk and jumps over what lies between two extents. A placed cursor is
either at the end or inside the extent it points to. A chunk from a placed
cursor lies inside the data, and no data byte is between its end and the next
position. So the chunks claimed up to any point are disjoint and cover exactly
the data in front of the cursor.
-/
namespace Ecopy.Workers.LargePipeline
open ExtentMap

variable {p : Params}

/-- What a copy is started with: a chunk size above zero, and a map as
`build_extent_map` makes it. -/
structure Params.Mapped (p : Params) : Prop where
  bulk : 0 ≤ p.bulkEnd
  chunk : 0 < p.chunkSize
  ordered : ∀ ext, p.extents = some ext → Ordered p.bulkEnd ext

/-- The data bytes of the bulk part. -/
def InData (p : Params) (x : ℤ) : Prop :=
  0 ≤ x ∧ x < p.bulkEnd ∧ ∀ ext, p.extents = some ext → ∃ e ∈ ext, e.1 ≤ x ∧ x < e.2

/-- The offset is in the range. -/
def InRange (r : ℤ × ℤ) (x : ℤ) : Prop := r.1 ≤ x ∧ x < r.1 + r.2

/-- The cursor is at the end, or in the extent it points to with all earlier ones behind. -/
structure Placed (p : Params) (c : Cursor) : Prop where
  nonneg : 0 ≤ c.nextReadOffset
  le_end : c.nextReadOffset ≤ p.bulkEnd
  behind : ∀ ext, p.extents = some ext → ∀ e ∈ ext.take c.extIdx, e.2 ≤ c.nextReadOffset
  complete : ∀ ext, p.extents = some ext → ext[c.extIdx]? = none → c.nextReadOffset = p.bulkEnd
  here : ∀ ext, p.extents = some ext → ∀ e, ext[c.extIdx]? = some e →
    e.1 ≤ c.nextReadOffset ∧ c.nextReadOffset < e.2

theorem passedExtents_behind (off : ℤ) (l : List (ℤ × ℤ)) :
    ∀ e ∈ l.take (passedExtents off l), e.2 ≤ off := by
  induction l with
  | nil => simp [passedExtents]
  | cons e rest ih =>
    unfold passedExtents
    split_ifs with h
    · intro b hb
      rw [List.take_succ_cons, List.mem_cons] at hb
      rcases hb with rfl | hb
      · exact h
      · exact ih b hb
    · simp

theorem passedExtents_ahead (off : ℤ) (l : List (ℤ × ℤ)) {e : ℤ × ℤ}
    (he : l[passedExtents off l]? = some e) : off < e.2 := by
  induction l with
  | nil => simp at he
  | cons b rest ih =>
    unfold passedExtents at he
    split_ifs at he with h
    · exact ih (by simpa using he)
    · simp only [List.getElem?_cons_zero, Option.some.injEq] at he
      rw [← he]
      omega

/-- Data at or after the extent an index points to does not begin before it. -/
theorem Params.Mapped.first_le (hp : p.Mapped) {ext : List (ℤ × ℤ)} (hext : p.extents = some ext)
    {idx : ℕ} {off x : ℤ} (hbehind : ∀ e ∈ ext.take idx, e.2 ≤ off) (hx : InData p x)
    (hoff : off ≤ x) : ∃ e, ext[idx]? = some e ∧ e.1 ≤ x := by
  obtain ⟨-, -, hdata⟩ := hx
  obtain ⟨d, hd, hlow, hhigh⟩ := hdata ext hext
  have hsplit : d ∈ ext.take idx ++ ext.drop idx := by rwa [List.take_append_drop]
  rcases List.mem_append.mp hsplit with hd | hd
  · have := hbehind d hd
    omega
  · have hord := hp.ordered ext hext
    cases hrest : ext.drop idx with
    | nil =>
      rw [hrest] at hd
      cases hd
    | cons e rest =>
      have hget : ext[idx]? = some e := by
        rw [← List.head?_drop, hrest]
        rfl
      refine ⟨e, hget, ?_⟩
      rw [hrest, List.mem_cons] at hd
      rcases hd with rfl | hd
      · exact hlow
      · have hrising : (e :: rest).Pairwise fun a b => a.2 < b.1 := by
          rw [← hrest]
          exact hord.rising.sublist (List.drop_sublist idx ext)
        have hgap := List.rel_of_pairwise_cons hrising hd
        have hnonempty := (hord.inside e (List.mem_of_getElem? hget)).2.1
        omega

/-- Skipping holes places the cursor and passes no data. -/
theorem readerSkipHoles_spec (hp : p.Mapped) {c : Cursor} (hnonneg : 0 ≤ c.nextReadOffset)
    (hend : c.nextReadOffset ≤ p.bulkEnd)
    (hbehind : ∀ ext, p.extents = some ext → ∀ e ∈ ext.take c.extIdx, e.2 ≤ c.nextReadOffset) :
    Placed p (readerSkipHoles p c) ∧ c.nextReadOffset ≤ (readerSkipHoles p c).nextReadOffset ∧
      ∀ x, InData p x → c.nextReadOffset ≤ x → (readerSkipHoles p c).nextReadOffset ≤ x := by
  unfold readerSkipHoles
  split
  · next hnone =>
    refine ⟨⟨hnonneg, hend, ?_, ?_, ?_⟩, le_rfl, fun x _ hx => hx⟩
    · simp [hnone]
    · simp [hnone]
    · simp [hnone]
  · next ext hext =>
    set k := passedExtents c.nextReadOffset (ext.drop c.extIdx) with hk
    have htake : ∀ e ∈ ext.take (c.extIdx + k), e.2 ≤ c.nextReadOffset := by
      intro e he
      rw [List.take_add, List.mem_append] at he
      rcases he with he | he
      · exact hbehind ext hext e he
      · exact passedExtents_behind _ _ e he
    have hahead : ∀ e, ext[c.extIdx + k]? = some e → c.nextReadOffset < e.2 := by
      intro e he
      apply passedExtents_ahead _ (ext.drop c.extIdx)
      rwa [List.getElem?_drop]
    have hsame : ∀ ext', p.extents = some ext' → ext' = ext := fun ext' h =>
      Option.some.inj (h.symm.trans hext)
    have hfirst := fun x => hp.first_le (x := x) hext htake
    dsimp only
    split
    · next hget =>
      refine ⟨⟨hp.bulk, le_rfl, ?_, ?_, ?_⟩, hend, ?_⟩
      · intro ext' h e he
        rw [hsame ext' h] at he
        exact (htake e he).trans hend
      · exact fun _ _ _ => rfl
      · intro ext' h e he
        rw [hsame ext' h, hget] at he
        cases he
      · intro x hx hle
        obtain ⟨e, he, -⟩ := hfirst x hx hle
        rw [hget] at he
        cases he
    · next e hget =>
      obtain ⟨hlow, hlen, hhigh⟩ := (hp.ordered ext hext).inside e (List.mem_of_getElem? hget)
      have hin := hahead e hget
      refine ⟨⟨?_, ?_, ?_, ?_, ?_⟩, ?_, ?_⟩
      · dsimp only
        split_ifs <;> omega
      · dsimp only
        split_ifs <;> omega
      · intro ext' h b hb
        rw [hsame ext' h] at hb
        have := htake b hb
        dsimp only
        split_ifs <;> omega
      · intro ext' h hnone
        rw [hsame ext' h, hget] at hnone
        cases hnone
      · intro ext' h b hb
        rw [hsame ext' h, hget] at hb
        cases hb
        dsimp only
        split_ifs <;> omega
      · dsimp only
        split_ifs <;> omega
      · intro x hx hle
        obtain ⟨b, hb, hbx⟩ := hfirst x hx hle
        rw [hget] at hb
        cases hb
        dsimp only
        split_ifs <;> omega

theorem Placed.start (hp : p.Mapped) : Placed p (Cursor.start p) :=
  (readerSkipHoles_spec hp le_rfl hp.bulk (by simp)).1

theorem start_le_of_inData (hp : p.Mapped) {x : ℤ} (hx : InData p x) :
    (Cursor.start p).nextReadOffset ≤ x :=
  (readerSkipHoles_spec hp le_rfl hp.bulk (by simp)).2.2 x hx hx.1

theorem Placed.runEnd_le (hp : p.Mapped) (c : Cursor) : readerRunEnd p c ≤ p.bulkEnd := by
  unfold readerRunEnd
  split
  · exact le_rfl
  · next ext hext =>
    split
    · exact le_rfl
    · next e he => exact ((hp.ordered ext hext).inside e (List.mem_of_getElem? he)).2.2

theorem Placed.lt_runEnd {c : Cursor} (hc : Placed p c) (hleft : c.exhausted p = false) :
    c.nextReadOffset < readerRunEnd p c := by
  have hlt : c.nextReadOffset < p.bulkEnd := by simpa [Cursor.exhausted] using hleft
  unfold readerRunEnd
  split
  · exact hlt
  · next ext hext =>
    split
    · exact hlt
    · next e he => exact (hc.here ext hext e he).2

theorem Placed.chunkLen_pos (hp : p.Mapped) {c : Cursor} (hc : Placed p c)
    (hleft : c.exhausted p = false) :
    0 < chunkLen p c ∧ c.nextReadOffset + chunkLen p c ≤ readerRunEnd p c := by
  have hlt := hc.lt_runEnd hleft
  have hpos := hp.chunk
  unfold chunkLen
  dsimp only
  split_ifs <;> omega

/-- Everything in the run of a placed cursor is data. -/
theorem Placed.inData_of_lt (hp : p.Mapped) {c : Cursor} (hc : Placed p c)
    (hleft : c.exhausted p = false) {x : ℤ} (hlow : c.nextReadOffset ≤ x)
    (hhigh : x < readerRunEnd p c) : InData p x := by
  have hend := Placed.runEnd_le hp c
  have hnonneg := hc.nonneg
  refine ⟨by omega, by omega, fun ext hext => ?_⟩
  cases hget : ext[c.extIdx]? with
  | none =>
    have hover := hc.complete ext hext hget
    simp [Cursor.exhausted, hover] at hleft
  | some e =>
    have hrun : readerRunEnd p c = e.2 := by simp [readerRunEnd, hext, hget]
    have hhere := hc.here ext hext e hget
    exact ⟨e, List.mem_of_getElem? hget, by omega, by omega⟩

theorem Placed.advance (hp : p.Mapped) {c : Cursor} (hc : Placed p c)
    (hleft : c.exhausted p = false) :
    Placed p (c.advance p) ∧
      c.nextReadOffset + chunkLen p c ≤ (c.advance p).nextReadOffset ∧
      ∀ x, InData p x → c.nextReadOffset + chunkLen p c ≤ x →
        (c.advance p).nextReadOffset ≤ x := by
  obtain ⟨hpos, hrun⟩ := hc.chunkLen_pos hp hleft
  have hend := Placed.runEnd_le hp c
  have hnonneg := hc.nonneg
  apply readerSkipHoles_spec hp
  · dsimp only
    omega
  · dsimp only
    omega
  · intro ext hext e he
    have hbehind := hc.behind ext hext e he
    dsimp only
    omega

/-- The ranges lie one after the other between two cursors, in the data, and leave out none
of it. -/
structure Covers (p : Params) (c d : Cursor) (rs : List (ℤ × ℤ)) : Prop where
  forward : c.nextReadOffset ≤ d.nextReadOffset
  rising : rs.Pairwise fun a b => a.1 + a.2 ≤ b.1
  between : ∀ r ∈ rs, c.nextReadOffset ≤ r.1 ∧ 0 < r.2 ∧ r.1 + r.2 ≤ d.nextReadOffset
  data : ∀ r ∈ rs, ∀ x, InRange r x → InData p x
  all : ∀ x, InData p x → c.nextReadOffset ≤ x → x < d.nextReadOffset → ∃ r ∈ rs, InRange r x

theorem Covers.nil (p : Params) (c : Cursor) : Covers p c c [] where
  forward := le_rfl
  rising := .nil
  between := nofun
  data := nofun
  all := fun x _ hlow hhigh => by omega

theorem Covers.chunk (hp : p.Mapped) {c d : Cursor} {rs : List (ℤ × ℤ)} (hc : Placed p c)
    (hleft : c.exhausted p = false) (h : Covers p (c.advance p) d rs) :
    Covers p c d (c.chunk p :: rs) := by
  obtain ⟨hpos, hrun⟩ := hc.chunkLen_pos hp hleft
  obtain ⟨-, hnext, hskip⟩ := hc.advance hp hleft
  have hforward := h.forward
  constructor
  · omega
  · apply List.Pairwise.cons _ h.rising
    intro r hr
    have hr' := h.between r hr
    simp only [Cursor.chunk]
    omega
  · intro r hr
    rw [List.mem_cons] at hr
    rcases hr with rfl | hr
    · simp only [Cursor.chunk]
      omega
    · have hr' := h.between r hr
      omega
  · intro r hr x hx
    rw [List.mem_cons] at hr
    rcases hr with rfl | hr
    · obtain ⟨hlow, hhigh⟩ := hx
      simp only [Cursor.chunk] at hlow hhigh
      exact hc.inData_of_lt hp hleft hlow (by omega)
    · exact h.data r hr x hx
  · intro x hx hlow hhigh
    by_cases hin : x < c.nextReadOffset + chunkLen p c
    · exact ⟨c.chunk p, List.mem_cons_self, hlow, hin⟩
    · obtain ⟨r, hr, hrx⟩ := h.all x hx (hskip x hx (by omega)) hhigh
      exact ⟨r, List.mem_cons_of_mem _ hr, hrx⟩

/-- The chunks of a run of claims cover the data between its two cursors. -/
theorem chunksFrom_covers (hp : p.Mapped) (n : ℕ) {c : Cursor} (hc : Placed p c)
    (hleft : ∀ k < n, ((Cursor.next p)^[k] c).exhausted p = false) :
    Covers p c ((Cursor.next p)^[n] c) (chunksFrom p n c) := by
  induction n generalizing c with
  | zero => exact Covers.nil p c
  | succ n ih =>
    have hfirst : c.exhausted p = false := hleft 0 n.succ_pos
    have hnext : Cursor.next p c = c.advance p := by simp [Cursor.next, hfirst]
    rw [chunksFrom_succ, Function.iterate_succ_apply, hnext]
    apply Covers.chunk hp hc hfirst
    apply ih (hc.advance hp hfirst).1
    intro k hk
    rw [← hnext, ← Function.iterate_succ_apply]
    exact hleft (k + 1) (Nat.succ_lt_succ hk)

/-- At the end of input the chunks are the data, each byte in one of them. -/
theorem chunksFrom_start (hp : p.Mapped) {n : ℕ}
    (hleft : ∀ k < n, ((Cursor.next p)^[k] (Cursor.start p)).exhausted p = false)
    (hover : ((Cursor.next p)^[n] (Cursor.start p)).exhausted p = true) :
    (chunksFrom p n (Cursor.start p)).Pairwise (fun a b => a.1 + a.2 ≤ b.1) ∧
      ∀ x, (∃ r ∈ chunksFrom p n (Cursor.start p), InRange r x) ↔ InData p x := by
  have hcovers := chunksFrom_covers hp n (Placed.start hp) hleft
  refine ⟨hcovers.rising, fun x => ⟨?_, ?_⟩⟩
  · rintro ⟨r, hr, hx⟩
    exact hcovers.data r hr x hx
  · intro hx
    have hend : p.bulkEnd ≤ ((Cursor.next p)^[n] (Cursor.start p)).nextReadOffset := by
      simpa [Cursor.exhausted] using hover
    exact hcovers.all x hx (start_le_of_inData hp hx) (by have := hx.2.1; omega)

end Ecopy.Workers.LargePipeline
