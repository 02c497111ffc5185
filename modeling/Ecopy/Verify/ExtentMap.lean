import Ecopy.Verify.SampleDomain
import Mathlib.Order.Bounds.Basic

/-!
# Extent maps of files that have changed

The recorded size is that of the scan. When the map is built the file may be shorter or longer,
and other processes may write to it between two answers. `extent_map_build` takes a hole beyond
the recorded size for one at the recorded size; it does not look at where the data begins.

A file that does not change while the map is built is the set of the offsets of its data; what
lies behind its end is a hole. An answer that leaves no extent below the recorded size can then
only be the last one, when a hole reaches to the recorded size and data follows behind it.
-/
namespace Ecopy.Verify.Sampling

/-- Every answer is at or behind the offset of the question. -/
structure Seeker.Posix (k : Seeker) : Prop where
  data_ge : ∀ pos d, k.data pos = .ok d → pos ≤ d
  hole_ge : ∀ d h, k.hole d = .ok h → d ≤ h

/-- The answers about a file that does not change. -/
structure Seeker.Reads (k : Seeker) (data : Set ℕ) : Prop where
  data_least : ∀ pos d, k.data pos = .ok d → IsLeast {x | pos ≤ x ∧ x ∈ data} d
  no_data : ∀ pos, k.data pos = .error .enxio → ∀ x ∈ data, x < pos
  hole_least : ∀ d h, d ∈ data → k.hole d = .ok h → IsLeast {x | d < x ∧ x ∉ data} h

/-- The answers that the loop gets and has room for: where data begins, and the hole behind. -/
def received (alloc : Allocator) (k : Seeker) (size pos cap count : ℕ) : List (ℕ × ℕ) :=
  if pos < size then
    match k.data pos with
    | .error _ => []
    | .ok data =>
      match k.hole data with
      | .error _ => []
      | .ok hole =>
        match grow alloc count cap with
        | none => []
        | some cap' =>
          (data, hole) ::
            received alloc k size (onward pos (clip size hole)) cap' (count + 1)
  else []
termination_by size - pos
decreasing_by
  have := lt_onward pos (clip size hole)
  omega

def extentOf (size : ℕ) (a : ℕ × ℕ) : Extent := ⟨a.1, clip size a.2⟩

/-- There is data before the recorded size in this answer. -/
def Inside (size : ℕ) (a : ℕ × ℕ) : Prop := a.1 < size ∧ a.1 < a.2

/-- The map is well-formed, and the unsigned totals of `sample_domain_init` are the true ones. -/
structure Sound (m : ExtentMap) (size : ℕ) : Prop where
  ordered : Ordered size m.extents
  totals : ∀ alloc d, sampleDomainInit alloc m size = some d →
    (∀ e ∈ m.extents, e.first ≤ e.last ∧ e.start ≤ e.stop) ∧
    d.dataN = (m.extents.map fun e => e.last - e.first).sum ∧
    d.dataBytes = (m.extents.map fun e => e.stop - e.start).sum ∧ d.dataBytes ≤ size

section Maps
variable {alloc : Allocator} {k : Seeker} {size pos cap count : ℕ} {found : List Extent}

theorem received_cons {data hole cap' : ℕ} (hpos : pos < size) (hdata : k.data pos = .ok data)
    (hhole : k.hole data = .ok hole) (hgrow : grow alloc count cap = some cap') :
    received alloc k size pos cap count = (data, hole) ::
      received alloc k size (onward pos (clip size hole)) cap' (count + 1) := by
  rw [received, if_pos hpos, hdata]
  dsimp only
  rw [hhole]
  dsimp only
  rw [hgrow]

/-- A map that counts as supported has the extents of the answers. -/
theorem extentMapLoop_extents
    (hs : (extentMapLoop alloc k size pos cap found).2.supported = true) :
    (extentMapLoop alloc k size pos cap found).2.extents =
      found ++ (received alloc k size pos cap found.length).map (extentOf size) := by
  fun_induction extentMapLoop alloc k size pos cap found with
  | case1 pos cap found hpos hdata =>
    rw [received, if_pos hpos, hdata]
    simp
  | case2 => cases hs
  | case3 pos cap found hpos e hne hdata hsupp =>
    rw [received, if_pos hpos, hdata]
    simp
  | case4 => cases hs
  | case5 pos cap found hpos data hdata e hhole hsupp =>
    rw [received, if_pos hpos, hdata]
    dsimp only
    rw [hhole]
    simp
  | case6 pos cap found hpos data hdata hole hhole hgrow =>
    rw [received, if_pos hpos, hdata]
    dsimp only
    rw [hhole]
    dsimp only
    rw [hgrow]
    simp
  | case7 pos cap found hpos data hdata hole hhole cap' hgrow ih =>
    rw [ih hs, received_cons hpos hdata hhole hgrow, List.length_append, List.length_singleton,
      List.map_cons, List.append_assoc]
    rfl
  | case8 pos cap found hpos =>
    rw [received, if_neg hpos]
    simp

theorem inside_iff {a : ℕ × ℕ} : Inside size a ↔ (extentOf size a).start < (extentOf size a).stop := by
  unfold Inside extentOf clip
  dsimp only
  split <;> omega

theorem clip_le (size hole : ℕ) : clip size hole ≤ size ∧ clip size hole ≤ hole := by
  unfold clip
  split <;> omega

theorem le_onward (pos hole : ℕ) : hole ≤ onward pos hole := by
  unfold onward
  split <;> omega

/-- Behind what is found already the answers keep the map in order. -/
theorem ordered_received (hk : k.Posix)
    (h : ∀ a ∈ received alloc k size pos cap count, Inside size a) (hfound : Ordered size found)
    (hbehind : ∀ e ∈ found, e.stop ≤ pos) :
    Ordered size (found ++ (received alloc k size pos cap count).map (extentOf size)) := by
  fun_induction received alloc k size pos cap count generalizing found with
  | case4 pos cap count hpos data hdata hole hhole cap' hgrow ih =>
    have hin := inside_iff.mp (h (data, hole) List.mem_cons_self)
    have hge := hk.data_ge pos data hdata
    rw [List.map_cons, List.append_cons]
    refine ih (fun a ha => h a (List.mem_cons_of_mem _ ha)) ?_ ?_
    · exact hfound.concat (fun x hx => (hbehind x hx).trans hge) hin (clip_le size hole).1
    · intro x hx
      rcases List.mem_append.mp hx with hx | hx
      · exact (hbehind x hx).trans (lt_onward pos _).le
      · rw [List.mem_singleton.mp hx]
        exact le_onward pos _
  | _ => simpa using hfound

/-- There are no more extents in order than there are bytes. -/
theorem Ordered.sum_bytes_le {l : List Extent} {lo : ℕ} (h : Ordered size l)
    (hlo : ∀ e ∈ l, lo ≤ e.start) (hsize : lo ≤ size) :
    (l.map fun e => e.stop - e.start).sum + lo ≤ size ∧
      l.length ≤ (l.map fun e => e.stop - e.start).sum := by
  induction l generalizing lo with
  | nil => simpa using hsize
  | cons e l ih =>
    have hrest := ih h.tail (fun x hx => List.rel_of_pairwise_cons h.apart hx) (h.inside e (.head _))
    have hhead := hlo e (.head _)
    have hne := h.nonempty e (.head _)
    rw [List.map_cons, List.sum_cons, List.length_cons]
    omega

theorem foldl_dataBytes {l : List Extent} (d : Domain) (hne : ∀ e ∈ l, e.start < e.stop)
    (hfits : d.dataBytes + (l.map fun e => e.stop - e.start).sum < 2 ^ 64) :
    (l.foldl Domain.add d).dataBytes = d.dataBytes + (l.map fun e => e.stop - e.start).sum := by
  induction l generalizing d with
  | nil => rfl
  | cons e l ih =>
    have he := hne e (.head _)
    rw [List.map_cons, List.sum_cons] at hfits ⊢
    have hbytes : (d.add e).dataBytes = d.dataBytes + (e.stop - e.start) := by
      unfold Domain.add Extent.bytes wrap
      dsimp only
      omega
    rw [List.foldl_cons, ih (d.add e) (fun x hx => hne x (.tail _ hx)) (by omega), hbytes]
    omega

/-- An ordered map of a file has true totals. -/
theorem Ordered.sound {m : ExtentMap} (h : Ordered size m.extents) (hsize : size < 2 ^ 63)
    (hs : m.supported = true) : Sound m size := by
  have hbytes := h.sum_bytes_le (fun _ _ => Nat.zero_le _) (Nat.zero_le size)
  have hblocks : ∀ i, blocksBefore m.extents i < 2 ^ 64 := by
    intro i
    have hle := blocksBefore_le (i := i) h
    unfold blockSize at hle
    omega
  refine ⟨h, fun alloc d hd => ?_⟩
  have hnumbers := (sampleDomainInit_numbers h hblocks hsize hs hd).1
  have hsum : d.dataBytes = (m.extents.map fun e => e.stop - e.start).sum := by
    unfold sampleDomainInit at hd
    rw [if_pos hs] at hd
    split_ifs at hd
    rw [← Option.some.inj hd, foldl_dataBytes _ h.nonempty (by dsimp only; omega)]
    exact Nat.zero_add _
  refine ⟨fun e he => ?_, ?_, hsum, by omega⟩
  · have hne := h.nonempty e he
    exact ⟨(Extent.first_lt_last hne).le, hne.le⟩
  · rw [hnumbers.total, blocksBefore, List.take_of_length_le (by simp)]

/-- The answers decide whether a supported map is sound. -/
theorem sound_iff_inside (hk : k.Posix) (hsize : size < 2 ^ 63)
    (hs : (extentMapBuild alloc k size).2.supported = true) :
    Sound (extentMapBuild alloc k size).2 size ↔
      ∀ a ∈ received alloc k size 0 0 0, Inside size a := by
  have hextents := extentMapLoop_extents hs
  constructor
  · intro h a ha
    rw [inside_iff]
    apply h.ordered.nonempty
    rw [extentMapBuild, hextents]
    exact List.mem_append_right _ (List.mem_map_of_mem ha)
  · intro h
    refine Ordered.sound ?_ hsize hs
    rw [extentMapBuild, hextents]
    exact ordered_received hk h .nil nofun

theorem Seeker.Reads.posix {data : Set ℕ} (hk : k.Reads data)
    (hhole : ∀ d h, k.hole d = .ok h → d ≤ h) : k.Posix :=
  ⟨fun pos d hd => (hk.data_least pos d hd).1.1, hhole⟩

/-- No data behind a hole that reaches to the recorded size. -/
def NoDataBehind (data : Set ℕ) (size : ℕ) : Prop :=
  size = 0 ∨ size - 1 ∈ data ∨ ∀ x ∈ data, x < size

/-- Without data behind it no answer leaves the recorded size. -/
theorem inside_of_noDataBehind {data : Set ℕ} (hk : k.Reads data) (h : NoDataBehind data size) :
    ∀ a ∈ received alloc k size pos cap count, Inside size a := by
  fun_induction received alloc k size pos cap count with
  | case4 pos cap count hpos d hd hole hhole cap' hgrow ih =>
    have hleast := hk.data_least pos d hd
    have hnext := (hk.hole_least d hole hleast.1.2 hhole).1.1
    have hlt : d < size := by
      rcases h with hzero | hlast | hnone
      · omega
      · have hle := hleast.2 ⟨(by omega : pos ≤ size - 1), hlast⟩
        omega
      · exact hnone d hleast.1.2
    intro a ha
    rcases List.mem_cons.mp ha with rfl | ha
    · exact ⟨hlt, hnext⟩
    · exact ih a ha
  | _ => exact nofun

/-- With data behind a hole at the recorded size, a loop that comes to its end is answered with
this data. -/
theorem exists_outside {data : Set ℕ} (hk : k.Reads data) (hlast : size - 1 ∉ data) {x : ℕ}
    (hx : x ∈ data) (hbehind : size ≤ x) (hpos : pos < size)
    (hok : (extentMapLoop alloc k size pos cap found).1 = true)
    (hs : (extentMapLoop alloc k size pos cap found).2.supported = true) :
    ∃ a ∈ received alloc k size pos cap found.length, ¬ Inside size a := by
  fun_induction extentMapLoop alloc k size pos cap found with
  | case1 pos cap found _ hdata =>
    have hlt := hk.no_data pos hdata x hx
    omega
  | case2 => cases hs
  | case3 => cases hok
  | case4 => cases hs
  | case5 => cases hok
  | case6 => cases hok
  | case7 pos cap found _ d hd hole hhole cap' hgrow ih =>
    rw [received_cons hpos hd hhole hgrow]
    have hleast := hk.data_least pos d hd
    have hfree := hk.hole_least d hole hleast.1.2 hhole
    by_cases hout : size ≤ d
    · exact ⟨(d, hole), List.mem_cons_self, fun hin => Nat.not_lt.mpr hout hin.1⟩
    · -- the data ends before the last byte, and the loop goes on below the recorded size
      have hne : d ≠ size - 1 := fun heq => hlast (heq ▸ hleast.1.2)
      have hhole_le := hfree.2 ⟨(by omega : d < size - 1), hlast⟩
      have hpos_le := hleast.1.1
      have hd_lt := hfree.1.1
      have hnext : onward pos (clip size hole) < size := by
        unfold onward clip
        split_ifs <;> omega
      obtain ⟨a, ha, hbad⟩ := ih hnext hok hs
      rw [List.length_append, List.length_singleton] at ha
      exact ⟨a, List.mem_cons_of_mem _ ha, hbad⟩
  | case8 pos cap found hge => exact absurd hpos hge

/-- A supported map is sound exactly if every answer that the loop stored leaves an extent below
the recorded size. If the file does not change, a map that is complete is sound exactly if no data
comes behind a hole that reaches to the recorded size. -/
theorem extentMapBuild_sound_iff (alloc : Allocator) {k : Seeker} (hk : k.Posix) {size : ℕ}
    (hsize : size < 2 ^ 63) (hs : (extentMapBuild alloc k size).2.supported = true) :
    (Sound (extentMapBuild alloc k size).2 size ↔
      ∀ a ∈ received alloc k size 0 0 0, Inside size a) ∧
    ∀ data : Set ℕ, k.Reads data → (extentMapBuild alloc k size).1 = true →
      (Sound (extentMapBuild alloc k size).2 size ↔ NoDataBehind data size) := by
  have hiff := sound_iff_inside hk hsize hs
  refine ⟨hiff, fun data hreads hok => ?_⟩
  rw [hiff]
  refine ⟨fun h => ?_, fun h => inside_of_noDataBehind hreads h⟩
  by_contra hbad
  unfold NoDataBehind at hbad
  push Not at hbad
  obtain ⟨hzero, hlast, x, hx, hbehind⟩ := hbad
  obtain ⟨a, ha, hout⟩ :=
    exists_outside hreads hlast hx hbehind (Nat.pos_of_ne_zero hzero) hok hs
  exact hout (h a ha)

end Maps

/-- A file whose first two blocks are a hole, and the third is data. -/
def grownFile : Seeker where
  data pos := if pos < 8192 then .ok 8192 else if pos < 12288 then .ok pos else .error .enxio
  hole pos := if pos < 8192 then .ok pos else if pos < 12288 then .ok 12288 else .error .enxio

def plenty : Allocator := ⟨fun n => decide (n ≤ 2 ^ 47), fun _ h => of_decide_eq_true h⟩

theorem grownFile_reads : grownFile.Reads {x | 8192 ≤ x ∧ x < 12288} := by
  refine ⟨?_, ?_, ?_⟩
  · intro pos d h
    unfold grownFile at h
    dsimp only at h
    split_ifs at h with h₁ h₂
    · cases h
      exact ⟨⟨h₁.le, le_refl _, by decide⟩, fun x hx => hx.2.1⟩
    · cases h
      exact ⟨⟨le_refl _, by omega, h₂⟩, fun x hx => hx.1⟩
  · intro pos h x hx
    unfold grownFile at h
    dsimp only at h
    split_ifs at h with h₁ h₂
    have hend : x < 12288 := hx.2
    omega
  · intro d hole hd h
    have hstart : 8192 ≤ d := hd.1
    have hend : d < 12288 := hd.2
    unfold grownFile at h
    dsimp only at h
    rw [if_neg (by omega), if_pos hend] at h
    cases h
    refine ⟨⟨hend, fun hx => absurd hx.2 (lt_irrefl _)⟩, fun x hx => ?_⟩
    by_contra hlt
    exact hx.2 ⟨hstart.trans hx.1.le, by omega⟩

theorem grownFile_posix : grownFile.Posix := by
  refine grownFile_reads.posix fun d x h => ?_
  unfold grownFile at h
  dsimp only at h
  split_ifs at h <;> cases h <;> omega

theorem grownFile_build : extentMapBuild plenty grownFile 4096 = (true, ⟨[⟨8192, 4096⟩], true⟩) := by
  have hgrow : grow plenty 0 0 = some 16 := by decide
  rw [extentMapBuild, extentMapLoop, if_pos (by decide)]
  dsimp only [grownFile]
  rw [if_pos (by decide)]
  dsimp only
  rw [if_neg (by decide), if_pos (by decide)]
  dsimp only [List.length_nil]
  rw [hgrow]
  dsimp only
  rw [extentMapLoop, if_neg (by decide)]
  rfl

theorem grownFile_sound_iff :
    (Sound (extentMapBuild plenty grownFile 4096).2 4096 ↔
      ∀ a ∈ received plenty grownFile 4096 0 0 0, Inside 4096 a) ∧
    (Sound (extentMapBuild plenty grownFile 4096).2 4096 ↔
      NoDataBehind {x | 8192 ≤ x ∧ x < 12288} 4096) :=
  have hs : (extentMapBuild plenty grownFile 4096).2.supported = true := by rw [grownFile_build]
  have h := extentMapBuild_sound_iff plenty grownFile_posix (by decide) hs
  ⟨h.1, h.2 _ grownFile_reads (by rw [grownFile_build])⟩

/-- The file had 4096 bytes when it was scanned, and its only data now comes behind them. -/
theorem grownFile_unsound : ¬ ∀ (alloc : Allocator) (k : Seeker) (size : ℕ), k.Posix → size < 2 ^ 63 →
    (extentMapBuild alloc k size).2.supported = true → Sound (extentMapBuild alloc k size).2 size := by
  intro h
  have hsound := h plenty grownFile 4096 grownFile_posix (by decide) (by rw [grownFile_build])
  rw [grownFile_build] at hsound
  exact absurd (hsound.ordered.nonempty _ List.mem_cons_self) (by decide)

end Ecopy.Verify.Sampling
