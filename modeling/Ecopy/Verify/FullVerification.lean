import Ecopy.Verify.LocalItem
import Ecopy.Verify.SampleDomain

/-!
# Full verification of a local file

When no read fails, `pread_full` returns exactly the bytes asked for, whatever is
interrupted or cut short on the way, and it asks for nothing beyond them. A sample of a
block in use is therefore compared byte for byte, and at a hundred per cent the samples
are all the blocks in use.
-/
namespace Ecopy.Verify.LocalItem
open Protocol (Bytes)
open Sampling

section Read
variable {side : Side} {data got : Bytes} {len off size : ℕ} {quirks : List Quirk}
  {made : List Read}

/-- No read asks for bytes beyond `size`. -/
def Within (size : ℕ) (made : List Read) : Prop := ∀ x ∈ made, x.offset + x.length ≤ size

theorem Within.concat {x : Read} (h : Within size made) (hx : x.offset + x.length ≤ size) :
    Within size (made ++ [x]) := by
  intro y hy
  rcases List.mem_append.mp hy with hy | hy
  · exact h y hy
  · rw [List.mem_singleton.mp hy]
    exact hx

/-- The next `n` bytes of the file are put after those read already. -/
theorem length_extended {n : ℕ} (hfits : off + got.length + n ≤ data.length) :
    (got ++ (data.drop (off + got.length)).take n).length = got.length + n := by
  rw [List.length_append, List.length_take, List.length_drop]
  omega

theorem extended {n : ℕ} (hfits : off + got.length + n ≤ data.length)
    (hgot : got = (data.drop off).take got.length) :
    got ++ (data.drop (off + got.length)).take n =
      (data.drop off).take (got ++ (data.drop (off + got.length)).take n).length := by
  rw [length_extended hfits, List.take_add, List.drop_drop, ← hgot]

theorem preadLoop_spec (hcalm : Quirk.failed ∉ quirks) (hfits : off + len ≤ data.length)
    (hsize : off + len ≤ size) (hgot : got = (data.drop off).take got.length)
    (hle : got.length ≤ len) (hmade : Within size made) :
    (preadLoop side data len off got quirks made).1 = some ((data.drop off).take len) ∧
      Quirk.failed ∉ (preadLoop side data len off got quirks made).2.quirks ∧
      Within size (preadLoop side data len off got quirks made).2.made := by
  fun_induction preadLoop side data len off got quirks made with
  | case1 got made hlt quirks ih =>
    apply ih (fun h => hcalm (.tail _ h)) hgot hle
    apply hmade.concat
    show off + got.length + (len - got.length) ≤ size
    omega
  | case2 => exact absurd (.head _) hcalm
  | case3 got made hlt n quirks hempty =>
    rw [List.drop_eq_nil_iff] at hempty
    omega
  | case4 got made hlt n quirks hempty ih =>
    have hn : off + got.length + min (len - got.length) (n + 1) ≤ data.length := by omega
    apply ih (fun h => hcalm (.tail _ h)) (extended hn hgot)
    · rw [length_extended hn]
      omega
    · apply hmade.concat
      show off + got.length + (len - got.length) ≤ size
      omega
  | case5 got made hlt hempty =>
    rw [List.drop_eq_nil_iff] at hempty
    omega
  | case6 got made hlt hempty ih =>
    have hn : off + got.length + (len - got.length) ≤ data.length := by omega
    apply ih hcalm (extended hn hgot)
    · rw [length_extended hn]
      omega
    · apply hmade.concat
      show off + got.length + (len - got.length) ≤ size
      omega
  | case7 got quirks made hge =>
    have heq : got.length = len := by omega
    rw [heq] at hgot
    exact ⟨by rw [← hgot], hcalm, hmade⟩

theorem preadFull_spec (side : Side) (data : Bytes) {r : Reads} (hcalm : Quirk.failed ∉ r.quirks)
    (hfits : off + len ≤ data.length) (hsize : off + len ≤ size) (hmade : Within size r.made) :
    (preadFull side data len off r).1 = some ((data.drop off).take len) ∧
      Quirk.failed ∉ (preadFull side data len off r).2.quirks ∧
      Within size (preadFull side data len off r).2.made :=
  preadLoop_spec hcalm hfits hsize rfl (Nat.zero_le len) hmade

end Read

/-- The bytes of a sample. -/
def part (data : Bytes) (x : Sample) : Bytes := (data.drop x.offset).take x.length

section Compare
variable {size : ℕ} {m : ExtentMap} {source target : Bytes} {seen : List Sample} {ctx : Local}

/-- What the samples seen so far have left behind. -/
structure Sound (size : ℕ) (source target : Bytes) (seen : List Sample) (ctx : Local) : Prop where
  calm : Quirk.failed ∉ ctx.reads.quirks
  within : Within size ctx.reads.made
  compared : ctx.compared = seen.map fun x => ⟨x.offset, part source x, part target x⟩
  mismatch : ctx.dataMismatch = false ↔ ∀ x ∈ seen, part source x = part target x
  zero : ctx.zeroMismatch = false

theorem Sound.start {quirks : List Quirk} (h : Quirk.failed ∉ quirks) :
    Sound size source target [] (Local.start quirks) :=
  ⟨h, by simp [Within, Local.start], rfl, by simp [Local.start], rfl⟩

/-- The sample lies in the file, and the map knows data in it. -/
structure InData (m : ExtentMap) (size : ℕ) (x : Sample) : Prop where
  fits : x.offset + x.length ≤ size
  data : extentMapRangeIsHole m x.offset x.length = false

theorem length_part {data : Bytes} {x : Sample} (h : x.offset + x.length ≤ data.length) :
    (part data x).length = x.length := by
  unfold part
  rw [List.length_take, List.length_drop]
  omega

theorem compareSample_sound {x : Sample} (hsource : source.length = size)
    (htarget : target.length = size) (hx : InData m size x)
    (h : Sound size source target seen ctx) :
    (compareSample m source target x ctx).1 = true ∧
      Sound size source target (seen ++ [x]) (compareSample m source target x ctx).2 := by
  have hfits := hx.fits
  obtain ⟨hsr, hcalm, hwithin⟩ := preadFull_spec .source source h.calm (by omega) hfits
    h.within
  obtain ⟨hdr, hcalm', hwithin'⟩ := preadFull_spec .target target hcalm (by omega) hfits
    hwithin
  have hlook : comparison x (some (part source x)) (some (part target x)) =
      some ⟨x.offset, part source x, part target x⟩ := by
    simp only [comparison]
    rw [if_pos ⟨length_part (by omega), length_part (by omega)⟩]
  change _ = some (part source x) at hsr
  change _ = some (part target x) at hdr
  unfold compareSample
  simp only [hx.data, Bool.false_eq_true, if_false, hsr, hdr, hlook]
  refine ⟨trivial, hcalm', hwithin', ?_, ?_, ?_⟩
  · simp [h.compared]
  · have hmis := h.mismatch
    simp only [agrees, Bool.not_false, Bool.and_true, Bool.or_eq_false_iff, Bool.not_eq_false',
      beq_iff_eq, List.mem_append, List.mem_singleton, hmis]
    constructor
    · rintro ⟨hold, hnew⟩ y (hy | rfl)
      · exact hold y hy
      · exact hnew
    · intro hall
      exact ⟨fun y hy => hall y (.inl hy), hall x (.inr rfl)⟩
  · simp [h.zero]

theorem forEach_sound {l : List Sample} (hsource : source.length = size)
    (htarget : target.length = size) (hl : ∀ x ∈ l, InData m size x)
    (h : Sound size source target seen ctx) :
    Sound size source target (seen ++ l) (forEach (compareSample m source target) l ctx).2 := by
  induction l generalizing seen ctx with
  | nil =>
    rw [List.append_nil]
    exact h
  | cons x l ih =>
    obtain ⟨hgo, hnext⟩ := compareSample_sound hsource htarget (hl x (.head _)) h
    have hrest := ih (fun y hy => hl y (.tail _ hy)) hnext
    rw [List.append_assoc, List.singleton_append] at hrest
    unfold forEach
    generalize compareSample m source target x ctx = r at hgo hrest
    obtain ⟨ok, next⟩ := r
    cases hgo
    exact hrest

end Compare

/-- The bytes of block `b`, fewer in a short last block. -/
def blockOf (data : Bytes) (b : ℕ) : Bytes := (data.drop (b * blockSize)).take blockSize

section Full
variable {alloc : Allocator} {m : ExtentMap} {size : ℕ} {d : Domain}

theorem sourceMap_spec (alloc : Allocator) {item : Item} {f : File} (hk : f.seek.Consistent item.srcSt.size) :
    Ordered item.srcSt.size (sourceMap item alloc (some f)).2.extents ∧
      (sourceMap item alloc (some f)).2.extents.length ≤ 2 ^ 43 := by
  unfold sourceMap
  dsimp only
  split
  · exact extentMapBuild_spec hk
  · exact ⟨.nil, Nat.zero_le _⟩

theorem mem_samples_full {seed : UInt64} {src : Bytes} {x : Sample} (hfew : d.dataN ≤ 3 * 2 ^ 50) :
    x ∈ samples (sampleTarget 100 d.dataN) seed src d ↔
      ∃ ordinal, ordinal < d.dataN ∧ sampleDomainOffset d ordinal = x := by
  unfold samples
  split
  · rename_i hzero
    simp [hzero]
  · rename_i hpos
    rw [if_pos (sampleTarget_full (Nat.pos_of_ne_zero hpos) hfew)]
    simp

/-- The sample of a block in use covers the block, and the map knows data in it. -/
theorem sample_spec {ordinal : ℕ} (hm : Ordered size m.extents) (hlen : m.extents.length ≤ 2 ^ 43)
    (hsize : size < 2 ^ 63) (hd : sampleDomainInit alloc m size = some d) (h : ordinal < d.dataN) :
    (sampleDomainOffset d ordinal).offset = d.block ordinal * blockSize ∧
      InData m size (sampleDomainOffset d ordinal) ∧
      ∀ data : Bytes, data.length = size →
        part data (sampleDomainOffset d ordinal) = blockOf data (d.block ordinal) := by
  have hsz := sampleDomainInit_size hm hlen hsize hd
  obtain ⟨hin, hused⟩ := (exists_block_iff hm hlen hsize hd).mp ⟨ordinal, h, rfl⟩
  have hx := sampleDomainOffset_eq (by omega) (hsz ▸ hin)
  rw [hx, hsz]
  refine ⟨rfl, ⟨?_, ?_⟩, ?_⟩
  · dsimp only
    omega
  · dsimp only
    cases hs : m.supported with
    | false => simp [extentMapRangeIsHole, hs]
    | true =>
      obtain ⟨e, he, hstart, hstop⟩ := hused hs
      have hne := hm.nonempty e he
      have hle := hm.inside e he
      apply extentMapRangeIsHole_false hm he _ hstop
      rw [Nat.add_mul] at hstart
      omega
  · intro data hdata
    unfold part blockOf
    dsimp only
    rw [List.take_eq_take_iff, List.length_drop, hdata, min_assoc, min_self]

end Full

section Item
variable {c : Config} {item : Item} {s : System} {source target : File} {actual : Stat}

/-- Two regular files of one size pass the check of the structure. -/
theorem checkMetadata_structural (hdir : item.isDir = false) (hreg : item.srcSt.isReg = true)
    (hreg' : actual.isReg = true) (hequal : actual.size = item.srcSt.size) :
    (checkMetadata c item (some actual)).structural = false := by
  have htype : actual.fileType = item.srcSt.fileType := by
    unfold Stat.isReg at hreg hreg'
    rw [beq_iff_eq.mp hreg, beq_iff_eq.mp hreg']
  unfold checkMetadata
  split
  · dsimp only
    split
    · simp [htype, hequal]
    · rfl
    · rfl
  · simp [hdir, hreg', hequal]

theorem verifyData_local {d : Domain}
    (hsource : s.openFile .source (c.metadata && c.preserveTimes) = some source)
    (htarget : s.openFile .target (c.metadata && c.preserveTimes) = some target)
    (hsame : sourceStillMatches item s.fstatBefore = true)
    (hd : sampleDomainInit s.alloc (sourceMap item s.alloc (some source)).2 item.srcSt.size =
      some d) :
    (verifyData c item s).2.2 =
      (forEach (compareSample (sourceMap item s.alloc (some source)).2 source.data target.data)
        (samples (sampleTarget c.percent d.dataN) c.seed item.src d) (Local.start s.quirks)).2 := by
  unfold verifyData
  dsimp only
  rw [hsource, htarget, hd]
  dsimp only
  rw [if_pos hsame]

theorem verifyLocalItem_local (hdata : c.data = true) (hdir : item.isDir = false)
    (hcheck : (checkMetadata c item s.lstat).structural = false) :
    (verifyLocalItem c item s).localCtx =
      if 0 < item.srcSt.size then (verifyData c item s).2.2 else Local.start s.quirks := by
  unfold verifyLocalItem
  simp only [hdir, hcheck, hdata, Bool.not_false, Bool.and_true, Bool.true_and, decide_eq_true_eq]
  split <;> rfl

end Item

/-- At a hundred per cent, with every read answered, no data mismatch is reported exactly
when all blocks in use agree; each of them is compared as a whole, and no read goes
past the size. -/
theorem verifyLocalItem_full (c : Config) (item : Item) (s : System) {source target : File}
    {actual : Stat} (hfull : c.percent = 100) (hdata : c.data = true) (hdir : item.isDir = false)
    (hreg : item.srcSt.isReg = true) (hstat : s.lstat = some actual)
    (hreg' : actual.isReg = true) (hequal : actual.size = item.srcSt.size)
    (hsource : s.openFile .source (c.metadata && c.preserveTimes) = some source)
    (htarget : s.openFile .target (c.metadata && c.preserveTimes) = some target)
    (hsize : source.data.length = item.srcSt.size) (hsize' : target.data.length = item.srcSt.size)
    (hreads : Quirk.failed ∉ s.quirks) (hsame : sourceStillMatches item s.fstatBefore = true)
    (hseek : source.seek.Consistent item.srcSt.size)
    (hmem : s.alloc.grants ((sourceMap item s.alloc (some source)).2.extents.length * 8) = true) :
    ((verifyLocalItem c item s).localCtx.dataMismatch = false ↔
      ∀ b, b * blockSize < item.srcSt.size → Used (sourceMap item s.alloc (some source)).2 b →
        blockOf source.data b = blockOf target.data b) ∧
    (∀ b, b * blockSize < item.srcSt.size → Used (sourceMap item s.alloc (some source)).2 b →
      ⟨b * blockSize, blockOf source.data b, blockOf target.data b⟩ ∈
        (verifyLocalItem c item s).localCtx.compared) ∧
    Within item.srcSt.size (verifyLocalItem c item s).localCtx.reads.made := by
  have hcheck : (checkMetadata c item s.lstat).structural = false := by
    rw [hstat]
    exact checkMetadata_structural hdir hreg hreg' hequal
  rw [verifyLocalItem_local hdata hdir hcheck]
  split
  · obtain ⟨hm, hlen⟩ := sourceMap_spec s.alloc hseek
    have hlt := item.srcSt.size_lt
    generalize hmap : (sourceMap item s.alloc (some source)).2 = m at *
    obtain ⟨d, hd⟩ : ∃ d, sampleDomainInit s.alloc m item.srcSt.size = some d := by
      simp only [sampleDomainInit, hmem, Bool.or_true, if_true]
      split <;> exact ⟨_, rfl⟩
    have hfew := sampleDomainInit_few hm hlen hlt hd
    rw [verifyData_local hsource htarget hsame (hmap ▸ hd), hfull, hmap]
    have hl : ∀ x ∈ samples (sampleTarget 100 d.dataN) c.seed item.src d,
        InData m item.srcSt.size x := by
      intro x hx
      obtain ⟨ordinal, hlt', rfl⟩ := (mem_samples_full hfew).mp hx
      exact (sample_spec hm hlen hlt hd hlt').2.1
    have hsound := forEach_sound hsize hsize' hl (.start hreads)
    rw [List.nil_append] at hsound
    refine ⟨hsound.mismatch.trans ?_, ?_, hsound.within⟩
    · constructor
      · intro hall b hb hused
        obtain ⟨ordinal, hlt', rfl⟩ := (exists_block_iff hm hlen hlt hd).mpr ⟨hb, hused⟩
        obtain ⟨-, -, hpart⟩ := sample_spec hm hlen hlt hd hlt'
        have heq := hall _ ((mem_samples_full hfew).mpr ⟨ordinal, hlt', rfl⟩)
        rwa [hpart _ hsize, hpart _ hsize'] at heq
      · intro hall x hx
        obtain ⟨ordinal, hlt', rfl⟩ := (mem_samples_full hfew).mp hx
        obtain ⟨-, -, hpart⟩ := sample_spec hm hlen hlt hd hlt'
        obtain ⟨hb, hused⟩ := (exists_block_iff hm hlen hlt hd).mp ⟨ordinal, hlt', rfl⟩
        rw [hpart _ hsize, hpart _ hsize']
        exact hall _ hb hused
    · intro b hb hused
      obtain ⟨ordinal, hlt', rfl⟩ := (exists_block_iff hm hlen hlt hd).mpr ⟨hb, hused⟩
      obtain ⟨hoff, -, hpart⟩ := sample_spec hm hlen hlt hd hlt'
      rw [hsound.compared, List.mem_map]
      refine ⟨_, (mem_samples_full hfew).mpr ⟨ordinal, hlt', rfl⟩, ?_⟩
      rw [hoff, hpart _ hsize, hpart _ hsize']
  · rename_i hempty
    refine ⟨⟨?_, fun _ => rfl⟩, ?_, ?_⟩
    · intro _ b hb
      omega
    · intro b hb
      omega
    · intro x hx
      cases hx

/-- A file with a hole of one block and four bytes after it. -/
def holed (tail : Bytes) : File where
  data := List.replicate 4096 0 ++ tail
  seek :=
    { data := fun pos => if pos ≤ 4096 then .ok 4096 else if pos < 4100 then .ok pos else .error .enxio
      hole := fun _ => .ok 4100 }

def holedStat : Stat := ⟨1, 2, 0o100644, 0, 0, 4100, 1, (0, 0), (0, 0), by decide⟩

/-- Every read is interrupted once and returns one byte less than asked for. -/
def holedSystem : System where
  lstat := some holedStat
  openFile := fun side _ =>
    match side with
    | .source => some (holed [1, 2, 3, 4])
    | .target => some (holed [1, 2, 3, 5])
  fstatBefore := some holedStat
  fstatAfter := some holedStat
  alloc := ⟨fun n => decide (n ≤ 2 ^ 47), by simp⟩
  quirks := [.interrupted, .short 2, .interrupted, .short 2]

theorem holed_length {tail : Bytes} (h : tail.length = 4) : (holed tail).data.length = 4100 := by
  unfold holed
  rw [List.length_append, List.length_replicate, h]

theorem holed_consistent (tail : Bytes) : (holed tail).seek.Consistent 4100 := by
  have hdata : ∀ pos d, (holed tail).seek.data pos = .ok d → pos ≤ d ∧ d < 4100 := by
    intro pos d h
    simp only [holed] at h
    split at h
    · cases h
      omega
    · split at h
      · cases h
        omega
      · cases h
  refine ⟨hdata, ?_⟩
  intro pos d hole h hh
  cases hh
  exact (hdata pos d h).2

theorem holed_mismatch :
    (verifyLocalItem ⟨true, true, 100, 0, true, false, false⟩ ⟨[115], [100], holedStat, false⟩
      holedSystem).localCtx.dataMismatch = true := by
  have hmap : (sourceMap ⟨[115], [100], holedStat, false⟩ holedSystem.alloc
      (some (holed [1, 2, 3, 4]))).2 = ⟨[⟨4096, 4100⟩], true⟩ := by decide +kernel
  have hfull := verifyLocalItem_full ⟨true, true, 100, 0, true, false, false⟩
    ⟨[115], [100], holedStat, false⟩ holedSystem rfl rfl rfl (by decide) rfl (by decide) rfl rfl rfl
    (holed_length rfl) (holed_length rfl) (by decide) (by decide) (holed_consistent _)
    (by rw [hmap]; decide)
  rw [hmap] at hfull
  by_contra hno
  have hblock := hfull.1.mp (Bool.eq_false_iff.mpr hno) 1 (by decide)
    fun _ => ⟨⟨4096, 4100⟩, by simp, by decide, by decide⟩
  have htail : ∀ tail : Bytes, tail.length = 4 → blockOf (holed tail).data 1 = tail := by
    intro tail h
    unfold blockOf holed blockSize
    rw [List.drop_left' (by rw [List.length_replicate])]
    exact List.take_of_length_le (by omega)
  rw [htail _ rfl, htail _ rfl] at hblock
  cases hblock

end Ecopy.Verify.LocalItem
