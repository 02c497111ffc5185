import Ecopy.FileSystem
import Ecopy.Workers.LargeBuffers

/-!
# A large file from start to finish

`start_large_file_copy` sets the bulk part, the extent map and the pipeline up;
`finish_large_file_ctx` joins the threads, copies the unaligned tail through the
page cache and publishes the temporary file. The source does not change while it
is copied: a chunk holds the bytes of its range, and a read of the tail hands
over at least one byte before the end of the file. Reads and writes of the tail
may be short.

A thread that could not be created leaves the file failed, so a file that is
finished without a failure had all its threads.
-/
namespace Ecopy.Workers.LargePipeline
open Lib.Runs ExtentMap FileSystem
open Protocol (Bytes)

variable {p : Params}

/-- The source and the configuration of one copy. `extents` is what
`build_extent_map` returned, and null for a file that is not sparse. -/
structure LargeFile where
  size : ℕ
  src : Bytes
  sparse : Bool
  kernel : Kernel
  extents : Option (List Extent)
  chunkSize : ℕ
  readers : ℕ
  writers : ℕ
  inflight : ℕ
  src_length : src.length = size
  map : if sparse then
      buildExtentMap kernel (size / Config.alignment * Config.alignment : ℕ) = some extents
    else extents = none
  chunk_pos : 0 < chunkSize
  chunk_aligned : Config.alignment ∣ chunkSize
  readers_pos : 0 < readers
  writers_pos : 0 < writers
  inflight_pos : 0 < inflight

def LargeFile.bulkEnd (f : LargeFile) : ℕ := f.size / Config.alignment * Config.alignment

theorem LargeFile.bulkEnd_le (f : LargeFile) : f.bulkEnd ≤ f.size := Nat.div_mul_le_self _ _

def LargeFile.params (f : LargeFile) : Params where
  readers := f.readers
  writers := f.writers
  inflight := f.inflight
  chunkSize := f.chunkSize
  bulkEnd := f.bulkEnd
  extents := f.extents
  readers_pos := f.readers_pos
  writers_pos := f.writers_pos
  inflight_pos := f.inflight_pos

theorem LargeFile.mapped (f : LargeFile) : f.params.Mapped where
  bulk := Int.natCast_nonneg _
  chunk := Int.natCast_pos.mpr f.chunk_pos
  ordered := by
    intro ext hext
    have hmap := f.map
    have hext' : f.extents = some ext := hext
    split_ifs at hmap
    · rw [hext'] at hmap
      exact buildExtentMap_ordered hmap
    · rw [hmap] at hext'
      cases hext'

/-- What the kernel does with one block of the tail: a failed read or at most
how many bytes above one it hands over, and for each write how many bytes it
takes. -/
structure TailAnswer where
  read : Option ℕ
  writes : List (Option ℕ)

/-- The write loop for `r` bytes at `pos`, and the ranges it wrote. -/
def tailWrites (pos r : ℤ) : List (Option ℕ) → (done : ℤ) → Option (Bool × List (ℤ × ℤ))
  | answers, done =>
    if done < r then
      match answers with
      | [] => none
      | none :: _ => some (false, [])
      | some n :: answers =>
        let w := min (n : ℤ) (r - done)
        (tailWrites pos r answers (done + w)).map fun out => (out.1, (pos + done, w) :: out.2)
    else some (true, [])

/-- Length of the next block of the tail. -/
def tailLen (pos stop : ℤ) : ℤ :=
  if stop - pos < Config.alignment then stop - pos else Config.alignment

/-- What a read of `len` bytes at `pos` returns. -/
def tailRead (src : Bytes) (pos len : ℤ) (n : ℕ) : ℤ := min (min len (n + 1)) (src.length - pos)

/-- `copy_tail_buffered_fds` -/
def copyTailBuffered (src : Bytes) (stop : ℤ) :
    List TailAnswer → (pos : ℤ) → Option (Bool × List (ℤ × ℤ))
  | answers, pos =>
    if pos < stop then
      match answers with
      | [] => none
      | ⟨none, _⟩ :: _ => some (false, [])
      | ⟨some n, writes⟩ :: answers =>
        let r := tailRead src pos (tailLen pos stop) n
        if r ≤ 0 then some (true, [])
        else
          match tailWrites pos r writes 0 with
          | none => none
          | some (false, ws) => some (false, ws)
          | some (true, ws) =>
            (copyTailBuffered src stop answers (pos + r)).map fun out => (out.1, ws ++ out.2)
    else some (true, [])

/-- Outcomes of the calls `finish_large_file_ctx` makes; `opened` stands for the two opens of
the tail copy. -/
structure FinishAnswers where
  opened : Bool
  tail : List TailAnswer
  finalized : Bool
  closed : Bool
  renamed : Bool
  queued : Bool

structure Finished where
  ok : Bool
  published : Bool
  tail : List (ℤ × ℤ)

/-- `copy_tail_buffered_at` -/
def copyTailBufferedAt (f : LargeFile) (k : FinishAnswers) : Option (Bool × List (ℤ × ℤ)) :=
  if (f.bulkEnd : ℤ) ≥ f.size then some (true, [])
  else if k.opened then copyTailBuffered f.src f.size k.tail f.bulkEnd
  else some (false, [])

/-- `finish_large_file_ctx`; without a result until every thread has left. -/
def finishLargeFileCtx (f : LargeFile) (s : State f.params) (k : FinishAnswers) :
    Option Finished :=
  if s.Joined then
    if s.failed then some ⟨false, false, []⟩
    else
      (copyTailBufferedAt f k).map fun out =>
        let published := out.1 && k.finalized && k.closed && k.renamed
        ⟨published && k.queued, published, out.2⟩
  else none

/-- One range copied into the destination. -/
def storeRange (src dst : Bytes) (r : ℤ × ℤ) : Bytes :=
  Fs.splice dst r.1.toNat ((src.drop r.1.toNat).take r.2.toNat)

/-- The destination after ranges were copied into a new file of the full size. -/
def stored (f : LargeFile) (rs : List (ℤ × ℤ)) : Bytes :=
  rs.foldl (storeRange f.src) (List.replicate f.size 0)

/-- Ranges that follow each other from `a` to `b`, without a gap. -/
structure Tiles (a b : ℤ) (rs : List (ℤ × ℤ)) : Prop where
  le : a ≤ b
  rising : rs.Pairwise fun q r => q.1 + q.2 ≤ r.1
  between : ∀ r ∈ rs, a ≤ r.1 ∧ 0 ≤ r.2 ∧ r.1 + r.2 ≤ b
  all : ∀ x, a ≤ x → x < b → ∃ r ∈ rs, InRange r x

theorem Tiles.nil (a : ℤ) : Tiles a a [] where
  le := le_rfl
  rising := .nil
  between := nofun
  all := fun x hlow hhigh => by omega

theorem Tiles.single {a n : ℤ} (h : 0 ≤ n) : Tiles a (a + n) [(a, n)] where
  le := by omega
  rising := List.pairwise_singleton _ _
  between := by
    intro r hr
    rw [List.mem_singleton.mp hr]
    exact ⟨le_rfl, h, le_rfl⟩
  all := fun x hlow hhigh => ⟨(a, n), List.mem_singleton_self _, hlow, hhigh⟩

variable {f : LargeFile} {rs : List (ℤ × ℤ)}

theorem Tiles.append {a b c : ℤ} {qs : List (ℤ × ℤ)} (hq : Tiles a b qs) (hr : Tiles b c rs) :
    Tiles a c (qs ++ rs) := by
  constructor
  · exact hq.le.trans hr.le
  · apply List.pairwise_append.mpr
    refine ⟨hq.rising, hr.rising, ?_⟩
    intro q hqm r hrm
    exact (hq.between q hqm).2.2.trans (hr.between r hrm).1
  · intro r hrm
    rcases List.mem_append.mp hrm with hm | hm
    · have hb := hq.between r hm
      exact ⟨hb.1, hb.2.1, hb.2.2.trans hr.le⟩
    · have hb := hr.between r hm
      exact ⟨hq.le.trans hb.1, hb.2.1, hb.2.2⟩
  · intro x hlow hhigh
    by_cases hx : x < b
    · obtain ⟨r, hm, hin⟩ := hq.all x hlow hx
      exact ⟨r, List.mem_append_left _ hm, hin⟩
    · obtain ⟨r, hm, hin⟩ := hr.all x (by omega) hhigh
      exact ⟨r, List.mem_append_right _ hm, hin⟩

theorem tailWrites_tiles {pos r : ℤ} {answers : List (Option ℕ)} {done : ℤ}
    {ws : List (ℤ × ℤ)} (hle : done ≤ r)
    (h : tailWrites pos r answers done = some (true, ws)) : Tiles (pos + done) (pos + r) ws := by
  induction answers generalizing done ws with
  | nil =>
    unfold tailWrites at h
    split_ifs at h with hlt
    cases h
    have hdone : done = r := by omega
    rw [hdone]
    exact Tiles.nil _
  | cons answer answers ih =>
    unfold tailWrites at h
    split_ifs at h with hlt
    · cases answer with
      | none => cases h
      | some n =>
        dsimp only at h
        obtain ⟨⟨ok, vs⟩, hout, heq⟩ := Option.map_eq_some_iff.mp h
        cases heq
        have hw : 0 ≤ min (n : ℤ) (r - done) := le_min (Int.natCast_nonneg n) (by omega)
        have hrest := ih (by omega) hout
        have hfirst := Tiles.single (a := pos + done) hw
        rw [Int.add_assoc] at hfirst
        exact hfirst.append hrest
    · cases h
      have hdone : done = r := by omega
      rw [hdone]
      exact Tiles.nil _

/-- A tail copy that succeeds has written every byte up to the end once. -/
theorem copyTailBuffered_tiles {src : Bytes} {stop : ℤ} (hstop : stop ≤ src.length)
    {answers : List TailAnswer} {pos : ℤ} {ws : List (ℤ × ℤ)} (hle : pos ≤ stop)
    (h : copyTailBuffered src stop answers pos = some (true, ws)) : Tiles pos stop ws := by
  induction answers generalizing pos ws with
  | nil =>
    unfold copyTailBuffered at h
    split_ifs at h with hlt
    cases h
    have hpos : pos = stop := by omega
    rw [hpos]
    exact Tiles.nil _
  | cons answer answers ih =>
    obtain ⟨read, writes⟩ := answer
    unfold copyTailBuffered at h
    split_ifs at h with hlt
    · cases read with
      | none => cases h
      | some n =>
        have hlen : 0 < tailLen pos stop ∧ tailLen pos stop ≤ stop - pos := by
          have halign : (Config.alignment : ℤ) = 4096 := rfl
          unfold tailLen
          split_ifs <;> omega
        have hread : 0 < tailRead src pos (tailLen pos stop) n ∧
            tailRead src pos (tailLen pos stop) n ≤ stop - pos := by
          unfold tailRead
          omega
        dsimp only at h
        rw [if_neg (by omega)] at h
        split at h
        · cases h
        · cases h
        · next vs hwrites =>
          obtain ⟨⟨ok, rest⟩, hout, heq⟩ := Option.map_eq_some_iff.mp h
          cases heq
          have hblock := tailWrites_tiles hread.1.le hwrites
          rw [Int.add_zero] at hblock
          exact hblock.append (ih (by omega) hout)
    · cases h
      have hpos : pos = stop := by omega
      rw [hpos]
      exact Tiles.nil _

theorem copyTailBufferedAt_tiles {k : FinishAnswers} {ws : List (ℤ × ℤ)}
    (h : copyTailBufferedAt f k = some (true, ws)) : Tiles f.bulkEnd f.size ws := by
  have hle := Int.ofNat_le.mpr f.bulkEnd_le
  unfold copyTailBufferedAt at h
  split_ifs at h with hnone
  · cases h
    have hsame : (f.bulkEnd : ℤ) = f.size := by omega
    rw [hsame]
    exact Tiles.nil _
  · exact copyTailBuffered_tiles (Int.ofNat_le.mpr f.src_length.ge) hle h
  · cases h

theorem length_splice {old data : Bytes} {off : ℕ} (h : off + data.length ≤ old.length) :
    (Fs.splice old off data).length = old.length := by
  simp [Fs.splice]
  omega

theorem getElem?_splice {old data : Bytes} {off : ℕ} (h : off + data.length ≤ old.length)
    (n : ℕ) : (Fs.splice old off data)[n]? =
      if off ≤ n ∧ n < off + data.length then data[n - off]? else old[n]? := by
  have hpad : off - old.length = 0 := by omega
  have htake : (old.take off).length = off := by simp; omega
  unfold Fs.splice
  simp only [hpad, List.replicate_zero, List.append_nil, List.append_assoc]
  by_cases hlow : n < off
  · rw [List.getElem?_append_left (by omega), List.getElem?_take_of_lt hlow, if_neg (by omega)]
  · rw [List.getElem?_append_right (by omega), htake]
    by_cases hhigh : n < off + data.length
    · rw [List.getElem?_append_left (by omega), if_pos (by omega)]
    · rw [List.getElem?_append_right (by omega), List.getElem?_drop, if_neg (by omega)]
      congr 1
      omega

/-- The range lies in a file of `n` bytes. -/
def Fits (n : ℕ) (r : ℤ × ℤ) : Prop := 0 ≤ r.1 ∧ 0 ≤ r.2 ∧ r.1 + r.2 ≤ n

theorem storeRange_spec {src dst : Bytes} {r : ℤ × ℤ} (hlen : dst.length = src.length)
    (hr : Fits src.length r) : (storeRange src dst r).length = src.length ∧
      ∀ n : ℕ, (InRange r n → (storeRange src dst r)[n]? = src[n]?) ∧
        (¬InRange r n → (storeRange src dst r)[n]? = dst[n]?) := by
  obtain ⟨hoff, hcount, hend⟩ := hr
  have hdata : ((src.drop r.1.toNat).take r.2.toNat).length = r.2.toNat := by simp; omega
  have hin : r.1.toNat + ((src.drop r.1.toNat).take r.2.toNat).length ≤ dst.length := by omega
  unfold storeRange
  refine ⟨(length_splice hin).trans hlen, fun n => ⟨fun hx => ?_, fun hx => ?_⟩⟩
  · obtain ⟨hlow, hhigh⟩ := hx
    rw [getElem?_splice hin, hdata, if_pos (by omega), List.getElem?_take_of_lt (by omega),
      List.getElem?_drop]
    congr 1
    omega
  · rw [getElem?_splice hin, hdata, if_neg]
    rintro ⟨hlow, hhigh⟩
    exact hx ⟨by omega, by omega⟩

/-- Copied ranges hold the source, and the rest is as it was. -/
theorem foldl_storeRange_spec {src : Bytes} {dst : Bytes} (hlen : dst.length = src.length)
    (hrs : ∀ r ∈ rs, Fits src.length r) :
    (rs.foldl (storeRange src) dst).length = src.length ∧
      ∀ n : ℕ, ((∃ r ∈ rs, InRange r n) ∨ dst[n]? = src[n]? →
        (rs.foldl (storeRange src) dst)[n]? = src[n]?) := by
  induction rs generalizing dst with
  | nil =>
    refine ⟨hlen, fun n hn => ?_⟩
    rcases hn with ⟨r, hr, -⟩ | hn
    · cases hr
    · exact hn
  | cons q rs ih =>
    obtain ⟨hlen', hspec⟩ := storeRange_spec hlen (hrs q List.mem_cons_self)
    obtain ⟨hfinal, hall⟩ := ih hlen' fun r hr => hrs r (List.mem_cons_of_mem q hr)
    refine ⟨hfinal, fun n hn => hall n ?_⟩
    by_cases hq : InRange q n
    · exact Or.inr ((hspec n).1 hq)
    · rcases hn with ⟨r, hr, hx⟩ | hn
      · rw [List.mem_cons] at hr
        rcases hr with rfl | hr
        · exact absurd hx hq
        · exact Or.inl ⟨r, hr, hx⟩
      · exact Or.inr (((hspec n).2 hq).trans hn)

/-- Bytes of the bulk part that are not in an extent are zero. -/
def LargeFile.HolesZero (f : LargeFile) : Prop :=
  ∀ n : ℕ, n < f.bulkEnd → ¬InData f.params n → f.src[n]? = some 0

/-- A destination that got the data and the tail is the source. -/
theorem stored_eq (hzero : f.HolesZero) (hfit : ∀ r ∈ rs, Fits f.size r)
    (hcover : ∀ n : ℕ, n < f.size → InData f.params n ∨ f.bulkEnd ≤ n → ∃ r ∈ rs, InRange r n) :
    stored f rs = f.src := by
  have hsize := f.src_length
  have hspec : (stored f rs).length = f.src.length ∧
      ∀ n : ℕ, ((∃ r ∈ rs, InRange r n) ∨ (List.replicate f.size 0)[n]? = f.src[n]? →
        (stored f rs)[n]? = f.src[n]?) :=
    foldl_storeRange_spec (by simp [hsize]) (by rwa [hsize])
  obtain ⟨hlen, hall⟩ := hspec
  apply List.ext_getElem?
  intro n
  apply hall
  by_cases hn : n < f.size
  · by_cases hdata : InData f.params n ∨ f.bulkEnd ≤ n
    · exact Or.inl (hcover n hn hdata)
    · rw [not_or, not_le] at hdata
      right
      rw [hzero n hdata.2 hdata.1, List.getElem?_replicate, if_pos hn]
  · right
    rw [List.getElem?_eq_none (by simp; omega), List.getElem?_eq_none (by omega)]

/-- Two ranges have no byte in common. -/
def Apart (q r : ℤ × ℤ) : Prop := q.1 + q.2 ≤ r.1 ∨ r.1 + r.2 ≤ q.1

/-- What a copied file looks like: every data byte of the bulk part was written by exactly one
chunk, the tail once, and nothing else. -/
structure Copied (f : LargeFile) (written tail : List (ℤ × ℤ)) : Prop where
  apart : written.Pairwise Apart
  data : ∀ x, (∃ r ∈ written, InRange r x) ↔ InData f.params x
  tail_once : Tiles f.bulkEnd f.size tail
  content : f.HolesZero → stored f (written ++ tail) = f.src

theorem Copied.of_perm {written tail : List (ℤ × ℤ)} {n : ℕ}
    (hleft : ∀ k < n, ((Cursor.next f.params)^[k] (Cursor.start f.params)).exhausted f.params = false)
    (hover : ((Cursor.next f.params)^[n] (Cursor.start f.params)).exhausted f.params = true)
    (hperm : written.Perm (chunksFrom f.params n (Cursor.start f.params)))
    (htail : Tiles f.bulkEnd f.size tail) : Copied f written tail := by
  obtain ⟨hrising, hiff⟩ := chunksFrom_start f.mapped hleft hover
  have hbetween := (chunksFrom_covers f.mapped n (Placed.start f.mapped) hleft).between
  have hplaced := (chunksFrom_covers f.mapped n (Placed.start f.mapped) hleft).data
  have hstart := (Placed.start f.mapped).nonneg
  have hmem : ∀ x, (∃ r ∈ written, InRange r x) ↔ InData f.params x := by
    intro x
    rw [← hiff x]
    simp only [hperm.mem_iff]
  have hbulk := Int.ofNat_le.mpr f.bulkEnd_le
  constructor
  · have hchunks : (chunksFrom f.params n (Cursor.start f.params)).Pairwise Apart :=
      hrising.imp Or.inl
    exact (hperm.symm.pairwise_iff fun h => h.symm).mp hchunks
  · exact hmem
  · exact htail
  · intro hzero
    apply stored_eq hzero
    · intro r hr
      rcases List.mem_append.mp hr with hr | hr
      · have hb := hbetween r (hperm.mem_iff.mp hr)
        -- the last byte of a chunk is data, so it lies in the bulk part
        have hlast := hplaced r (hperm.mem_iff.mp hr) (r.1 + r.2 - 1)
          ⟨by omega, by omega⟩
        have hlt : r.1 + r.2 - 1 < f.bulkEnd := hlast.2.1
        exact ⟨by omega, by omega, by omega⟩
      · have hb := htail.between r hr
        exact ⟨by omega, hb.2.1, hb.2.2⟩
    · intro m hm hcase
      rcases hcase with hdata | htl
      · obtain ⟨r, hr, hx⟩ := (hmem m).mpr hdata
        exact ⟨r, List.mem_append_left _ hr, hx⟩
      · obtain ⟨r, hr, hx⟩ := htail.all m (by omega) (by omega)
        exact ⟨r, List.mem_append_right _ hr, hx⟩

/-- A finish that succeeds comes after all threads of an unfailed file have left. -/
theorem finishLargeFileCtx_ok {s : State f.params} {k : FinishAnswers} {out : Finished}
    (h : finishLargeFileCtx f s k = some out) (hok : out.ok = true) :
    s.Joined ∧ s.failed = false ∧ copyTailBufferedAt f k = some (true, out.tail) := by
  unfold finishLargeFileCtx at h
  split_ifs at h with hjoined hfailed
  · cases h
    cases hok
  · obtain ⟨⟨ok, ws⟩, htail, rfl⟩ := Option.map_eq_some_iff.mp h
    simp only [Bool.and_eq_true] at hok
    refine ⟨hjoined, by simpa using hfailed, ?_⟩
    rw [htail, hok.1.1.1.1]

/-- In every run in which no writer leaves data behind on a shutdown request, a file that is
finished with success is copied, and every buffer always is in exactly one place. -/
theorem large_file_copied (f : LargeFile) (as : List (Act f.params)) (s : State f.params)
    (hr : exec step (State.start f.params) as = some s)
    (hdata : Along step (fun s a => ¬LeavesData s a) (State.start f.params) as) :
    (∀ id < f.inflight, s.places id = 1) ∧
      ∀ k out, finishLargeFileCtx f s k = some out → out.ok = true →
        Copied f s.written out.tail := by
  constructor
  · intro id hid
    exact places_of_reachable ⟨as, hr⟩ hid
  · intro k out hfinish hok
    obtain ⟨hjoined, hfailed, htail⟩ := finishLargeFileCtx_ok hfinish hok
    obtain ⟨n, hleft, hover, hperm⟩ := (sound_of_exec hdata hr hfailed).written_perm hjoined
    exact Copied.of_perm hleft hover hperm (copyTailBufferedAt_tiles htail)

/-- One block of ones, copied by one reader and one writer. -/
def oneBlock : LargeFile where
  size := 4096
  src := List.replicate 4096 1
  sparse := false
  kernel := ⟨[], []⟩
  extents := none
  chunkSize := 4096
  readers := 1
  writers := 1
  inflight := 1
  src_length := List.length_replicate
  map := rfl
  chunk_pos := by decide
  chunk_aligned := ⟨1, rfl⟩
  readers_pos := Nat.one_pos
  writers_pos := Nat.one_pos
  inflight_pos := Nat.one_pos

def allFine : FinishAnswers := ⟨true, [], true, true, true, true⟩

/-- The reader delivers the chunk, the writer writes it, and both leave. -/
def oneBlockRun : List (Act oneBlock.params) :=
  [.readerLock ⟨0, Nat.one_pos⟩, .readerDone ⟨0, Nat.one_pos⟩ true none,
    .readerLock ⟨0, Nat.one_pos⟩, .writerLock ⟨0, Nat.one_pos⟩,
    .writerDone ⟨0, Nat.one_pos⟩ none none, .writerLock ⟨0, Nat.one_pos⟩]

theorem large_file_copied_oneBlock :
    ∃ s out, exec step (State.start oneBlock.params) oneBlockRun = some s ∧
      finishLargeFileCtx oneBlock s allFine = some out ∧ out.ok = true ∧
      Copied oneBlock s.written out.tail := by
  have hr : exec step (State.start oneBlock.params) oneBlockRun =
      some ((exec step (State.start oneBlock.params) oneBlockRun).getD
        (State.start oneBlock.params)) := rfl
  have hcopied := (large_file_copied oneBlock oneBlockRun _ hr (by decide)).2
  exact ⟨_, ⟨true, true, []⟩, hr, rfl, rfl, hcopied allFine _ rfl rfl⟩

/-- The writer parks, the reader delivers the chunk and leaves, the shutdown request comes, and
the woken writer leaves. -/
def shutdownRun : List (Act oneBlock.params) :=
  [.writerLock ⟨0, Nat.one_pos⟩, .readerLock ⟨0, Nat.one_pos⟩,
    .readerDone ⟨0, Nat.one_pos⟩ true (some ⟨0, Nat.one_pos⟩), .readerLock ⟨0, Nat.one_pos⟩,
    .requestShutdown, .writerLock ⟨0, Nat.one_pos⟩]

/-- The file is published with success although nothing was written to it. -/
theorem shutdown_publishes_hole :
    ∃ s out, exec step (State.start oneBlock.params) shutdownRun = some s ∧
      finishLargeFileCtx oneBlock s allFine = some out ∧ out.ok = true ∧ out.published = true ∧
      oneBlock.HolesZero ∧ ¬(∀ x, (∃ r ∈ s.written, InRange r x) ↔ InData oneBlock.params x) ∧
      stored oneBlock (s.written ++ out.tail) ≠ oneBlock.src := by
  have hr : exec step (State.start oneBlock.params) shutdownRun =
      some ((exec step (State.start oneBlock.params) shutdownRun).getD
        (State.start oneBlock.params)) := rfl
  refine ⟨_, ⟨true, true, []⟩, hr, rfl, rfl, rfl, ?_, ?_, ?_⟩
  · intro n hn hhole
    refine absurd ⟨Int.natCast_nonneg n, ?_, fun ext hext => by cases hext⟩ hhole
    exact Int.ofNat_lt.mpr hn
  · intro hall
    obtain ⟨r, hr, -⟩ := (hall 0).mpr ⟨le_rfl, by decide, fun ext hext => by cases hext⟩
    cases hr
  · intro heq
    have hzeros : List.replicate 4096 (0 : UInt8) = List.replicate 4096 1 := heq
    have hbyte := (List.replicate_right_inj (by decide)).mp hzeros
    cases hbyte

end Ecopy.Workers.LargePipeline
