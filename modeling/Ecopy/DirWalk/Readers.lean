import Ecopy.DirWalk.Walker
import Mathlib.Data.List.TakeWhile

/-!
# The two directory readers

`dirreader_next` takes the entries of a directory from the records that `getdents64` leaves
in a buffer, or from `readdir`. The kernel hands over as many whole records as it likes, but
at least one while there are entries; a buffer that is too small for the next record is an
error. An error of the directory itself comes after the entries that could be read, and
`readdir` reports it through `errno` only, with the null pointer that ends a directory.
-/
namespace Ecopy.DirWalk
open Protocol (Bytes le64)
open Lib

/-- A directory entry as the kernel knows it. -/
structure Dirent where
  ino : UInt64
  off : UInt64
  type : UInt8
  name : Bytes
  name_text : 0 ∉ name
  name_short : name.length ≤ 255

/-- Size of the fixed part of a record. -/
def headerSize : ℕ := 19

/-- `d_reclen`: with the name and its end, in units of eight bytes. -/
def Dirent.reclen (e : Dirent) : ℕ := (headerSize + e.name.length + 1 + 7) / 8 * 8

def Dirent.record (e : Dirent) : Bytes :=
  le64 e.ino ++ (le64 e.off ++ (LittleEndian.encode 2 e.reclen ++ e.type :: (e.name ++
    List.replicate (e.reclen - (headerSize + e.name.length)) 0)))

/-- What is left of a directory stream: its entries, then the end or an error. -/
structure Stream where
  entries : List Dirent
  failed : Bool

/-- How many records the kernel hands over, `limit` at most. -/
def fitting : (limit room : ℕ) → List Dirent → ℕ
  | 0, _, _ => 0
  | _, _, [] => 0
  | limit + 1, room, e :: rest =>
    if e.reclen ≤ room then fitting limit (room - e.reclen) rest + 1 else 0

/-- The bytes are `none` for an error. -/
def getdents64 (cap limit : ℕ) (s : Stream) : Option Bytes × Stream :=
  match s.entries with
  | [] => (if s.failed then none else some [], s)
  | e :: _ =>
    if cap < e.reclen then (none, s)
    else
      let n := fitting (limit + 1) cap s.entries
      (some ((s.entries.take n).flatMap Dirent.record), { s with entries := s.entries.drop n })

/-- `dirreader_t`, with the stream that its descriptor is at. `batch` is how many records
beyond the first the kernel hands over when so many entries are left. -/
structure Reader where
  raw : Bool
  cap : ℕ
  buf : Bytes
  off : ℕ
  stream : Stream
  batch : ℕ → ℕ

/-- `dirreader_open`: without a buffer size, `readdir` is used. -/
def dirreaderOpen (cap : ℕ) (batch : ℕ → ℕ) (s : Stream) : Reader :=
  ⟨decide (0 < cap), cap, [], 0, s, batch⟩

/-- A name and its type. -/
abbrev Found := Bytes × UInt8

def Dirent.found (e : Dirent) : Found := (e.name, e.type)

/-- The results 1, with the next reader, and 0 and -1. -/
inductive Next where
  | entry (f : Found) (rd : Reader)
  | stop (rc : ℤ)

/-- The record at the offset. -/
def takeRecord (rd : Reader) : Next :=
  let rest := rd.buf.drop rd.off
  let reclen := LittleEndian.decode ((rest.drop 16).take 2)
  if reclen = 0 then .stop 0
  else .entry ((rest.drop headerSize).takeWhile (· ≠ 0), rest.getD 18 0) { rd with off := rd.off + reclen }

def dirreaderNext (rd : Reader) : Next :=
  if rd.raw = false then
    match rd.stream.entries with
    | [] => .stop 0
    | e :: rest => .entry e.found { rd with stream := { rd.stream with entries := rest } }
  else if rd.buf.length ≤ rd.off then
    match getdents64 rd.cap (rd.batch rd.stream.entries.length) rd.stream with
    | (none, _) => .stop (-1)
    | (some [], _) => .stop 0
    | (some (b :: bytes), s) => takeRecord { rd with buf := b :: bytes, off := 0, stream := s }
  else takeRecord rd

/-- What `process_node` makes of a directory: the entries it sees, the last result of
`dirreader_next`, whether it reports an error, and what it passes to `dir_end`. -/
structure Processed where
  names : List Found
  rc : ℤ
  reported : Bool
  dirEnd : ℤ
deriving DecidableEq, Repr

/-- The loop of `process_node` when no stop is requested, and what follows it. `none` when
the rounds were not enough. -/
def processEntries : (rounds : ℕ) → Reader → Option Processed
  | 0, _ => none
  | rounds + 1, rd =>
    match dirreaderNext rd with
    | .stop rc => some ⟨[], rc, decide (rc < 0), if rc < 0 then -1 else 0⟩
    | .entry f rd => (processEntries rounds rd).map fun out => { out with names := f :: out.names }

/-- A round for every entry, and one for the end. -/
def processDirectory (cap : ℕ) (batch : ℕ → ℕ) (s : Stream) : Option Processed :=
  processEntries (s.entries.length + 1) (dirreaderOpen cap batch s)

theorem Dirent.reclen_bounds (e : Dirent) :
    headerSize + e.name.length < e.reclen ∧ e.reclen < 256 ^ 2 := by
  have hshort := e.name_short
  unfold reclen headerSize
  omega

theorem Dirent.length_record (e : Dirent) : e.record.length = e.reclen := by
  have hbounds := e.reclen_bounds
  unfold headerSize at hbounds
  simp only [record, List.length_append, List.length_cons, Protocol.length_le64,
    LittleEndian.length_encode, List.length_replicate, headerSize]
  omega

/-- The fields that the reader looks at. -/
theorem Dirent.record_fields (e : Dirent) (rest : Bytes) :
    LittleEndian.decode (((e.record ++ rest).drop 16).take 2) = e.reclen ∧
      (e.record ++ rest).getD 18 0 = e.type ∧
      ((e.record ++ rest).drop headerSize).takeWhile (· ≠ 0) = e.name := by
  have hbounds := e.reclen_bounds
  have hlen := LittleEndian.length_encode 2 e.reclen
  set size := LittleEndian.encode 2 e.reclen with hsize
  obtain ⟨m, hpad⟩ := Nat.exists_eq_add_of_lt hbounds.1
  have hpads : e.reclen - (headerSize + e.name.length) = m + 1 := by omega
  have hrecord : e.record ++ rest = (le64 e.ino ++ le64 e.off) ++ (size ++ (e.type :: (e.name ++
      (0 :: (List.replicate m 0 ++ rest))))) := by
    simp only [record, hpads, List.replicate_succ, List.append_assoc, List.cons_append, ← hsize]
  have hfront : (le64 e.ino ++ le64 e.off).length = 16 := by simp
  have hdrop : (e.record ++ rest).drop 16 = size ++ (e.type :: (e.name ++
      (0 :: (List.replicate m 0 ++ rest)))) := by
    rw [hrecord, ← hfront, List.drop_left]
  have hdrop18 : (e.record ++ rest).drop 18 = e.type :: (e.name ++
      (0 :: (List.replicate m 0 ++ rest))) := by
    rw [show 18 = 16 + 2 from rfl, ← List.drop_drop, hdrop, ← hlen, List.drop_left]
  refine ⟨?_, ?_, ?_⟩
  · rw [hdrop, ← hlen, List.take_left, hsize, LittleEndian.decode_encode_of_lt hbounds.2]
  · rw [List.getD_eq_getElem?_getD, ← Nat.add_zero 18, ← List.getElem?_drop, hdrop18]
    rfl
  · rw [show headerSize = 18 + 1 from rfl, ← List.drop_drop, hdrop18, List.drop_one, List.tail_cons,
      List.takeWhile_append_of_pos]
    · simp
    · intro b hb
      have hne : b ≠ 0 := fun h => e.name_text (h ▸ hb)
      simpa using hne

/-- The records that are still in the buffer. -/
structure Holding (rd : Reader) (pending : List Dirent) : Prop where
  raw : rd.raw = true
  rest : rd.buf.drop rd.off = pending.flatMap Dirent.record

theorem Holding.takeRecord {rd : Reader} {e : Dirent} {pending : List Dirent}
    (h : Holding rd (e :: pending)) :
    DirWalk.takeRecord rd = .entry e.found { rd with off := rd.off + e.reclen } ∧
      Holding { rd with off := rd.off + e.reclen } pending := by
  have hrest : rd.buf.drop rd.off = e.record ++ pending.flatMap Dirent.record := h.rest
  obtain ⟨hlen, htype, hname⟩ := e.record_fields (pending.flatMap Dirent.record)
  constructor
  · unfold DirWalk.takeRecord
    dsimp only
    rw [hrest, hlen, htype, hname, if_neg (by have := e.reclen_bounds; omega)]
    rfl
  · refine ⟨h.raw, ?_⟩
    dsimp only
    rw [← List.drop_drop, hrest, ← e.length_record, List.drop_left]

theorem fitting_pos {limit cap : ℕ} {e : Dirent} {rest : List Dirent} (h : e.reclen ≤ cap) :
    0 < fitting (limit + 1) cap (e :: rest) := by
  unfold fitting
  rw [if_pos h]
  exact Nat.succ_pos _

/-- Records that are handed over fit. -/
theorem fitting_fits (limit room : ℕ) (l : List Dirent) :
    ∀ e ∈ l.take (fitting limit room l), e.reclen ≤ room := by
  induction l generalizing limit room with
  | nil => simp
  | cons e rest ih =>
    cases limit with
    | zero => simp [fitting]
    | succ limit =>
      unfold fitting
      split
      · rename_i hfit
        intro a ha
        rw [List.take_succ_cons, List.mem_cons] at ha
        rcases ha with rfl | ha
        · exact hfit
        · exact (ih limit _ a ha).trans (Nat.sub_le _ _)
      · simp

/-- The entries in front of the first that is too large for the buffer. -/
def readable (cap : ℕ) (l : List Dirent) : List Dirent :=
  l.takeWhile fun e => decide (e.reclen ≤ cap)

theorem readable_append {cap : ℕ} {l : List Dirent} (h : ∀ e ∈ l, e.reclen ≤ cap)
    (rest : List Dirent) : readable cap (l ++ rest) = l ++ readable cap rest := by
  unfold readable
  apply List.takeWhile_append_of_pos
  intro e he
  exact decide_eq_true (h e he)

theorem readable_eq_iff {cap : ℕ} {l : List Dirent} :
    readable cap l = l ↔ ∀ e ∈ l, e.reclen ≤ cap := by
  unfold readable
  rw [List.takeWhile_eq_self_iff]
  simp

/-- The last result of the raw reader. -/
def rawEnd (cap : ℕ) (s : Stream) : ℤ :=
  if s.failed = true ∨ ∃ e ∈ s.entries, cap < e.reclen then -1 else 0

/-- A directory that was seen up to an entry or to its end. -/
def processedTo (names : List Found) (rc : ℤ) : Processed :=
  ⟨names, rc, decide (rc < 0), if rc < 0 then -1 else 0⟩

theorem flatMap_record_ne_nil (e : Dirent) (l : List Dirent) :
    (e :: l).flatMap Dirent.record ≠ [] := by
  intro hnil
  have hlen := congrArg List.length hnil
  have hpos := e.reclen_bounds
  rw [List.flatMap_cons, List.length_append, e.length_record, List.length_nil] at hlen
  omega

/-- A call that hands over records: the next one and perhaps more, all of which fit. -/
theorem getdents64_some (limit : ℕ) {cap : ℕ} {s : Stream} {e : Dirent} {rest : List Dirent}
    (hentries : s.entries = e :: rest) (hfit : e.reclen ≤ cap) :
    ∃ m b bs, getdents64 cap limit s = (some (b :: bs), { s with entries := rest.drop m }) ∧
      (e :: rest.take m).flatMap Dirent.record = b :: bs ∧
      ∀ a ∈ e :: rest.take m, a.reclen ≤ cap := by
  set n := fitting (limit + 1) cap (e :: rest) with hn
  have hpos : 0 < n := fitting_pos hfit
  obtain ⟨m, hm⟩ := Nat.exists_eq_succ_of_ne_zero (Nat.ne_of_gt hpos)
  have htake : (e :: rest).take n = e :: rest.take m := by rw [hm, List.take_succ_cons]
  obtain ⟨b, bs, hcons⟩ := List.exists_cons_of_ne_nil (flatMap_record_ne_nil e (rest.take m))
  refine ⟨m, b, bs, ?_, hcons, ?_⟩
  · unfold getdents64
    rw [hentries]
    dsimp only
    rw [if_neg (Nat.not_lt.mpr hfit), ← hn, htake, hcons, hm, List.drop_succ_cons]
  · rw [← htake, hn]
    exact fitting_fits _ _ _

/-- Entries that fit do not matter for the end. -/
theorem rawEnd_drop {cap : ℕ} {s : Stream} {front back : List Dirent}
    (hentries : s.entries = front ++ back) (hfit : ∀ e ∈ front, e.reclen ≤ cap) :
    rawEnd cap { s with entries := back } = rawEnd cap s := by
  have hnone : ¬ ∃ e ∈ front, cap < e.reclen := by
    rintro ⟨e, he, hlt⟩
    exact absurd (hfit e he) (Nat.not_le.mpr hlt)
  unfold rawEnd
  rw [hentries]
  simp only [List.mem_append, or_and_right, exists_or, hnone, false_or]

/-- The raw reader delivers what is in the buffer, then all that fits it. -/
theorem processEntries_raw (rounds : ℕ) {rd : Reader} {pending : List Dirent}
    (h : Holding rd pending) (hrounds : pending.length + rd.stream.entries.length < rounds) :
    processEntries rounds rd = some (processedTo
      ((pending ++ readable rd.cap rd.stream.entries).map Dirent.found)
      (rawEnd rd.cap rd.stream)) := by
  induction rounds generalizing rd pending with
  | zero => omega
  | succ rounds ih =>
    -- one record is taken from the buffer, which may have been filled just before
    have hone : ∀ {rd' : Reader} {e : Dirent} {rest : List Dirent}, Holding rd' (e :: rest) →
        dirreaderNext rd = DirWalk.takeRecord rd' →
        (e :: rest).length + rd'.stream.entries.length < rounds + 1 →
        processEntries (rounds + 1) rd = some (processedTo
          ((e :: rest ++ readable rd'.cap rd'.stream.entries).map Dirent.found)
          (rawEnd rd'.cap rd'.stream)) := by
      intro rd' e rest hheld hnext hlen
      obtain ⟨htake, hafter⟩ := hheld.takeRecord
      rw [List.length_cons] at hlen
      unfold processEntries
      rw [hnext, htake]
      dsimp only
      rw [ih hafter (by dsimp only; omega)]
      rfl
    have hraw : ¬ rd.raw = false := by simp [h.raw]
    cases pending with
    | cons e pending =>
      have hin : ¬ rd.buf.length ≤ rd.off := by
        intro hle
        exact flatMap_record_ne_nil e pending (h.rest.symm.trans (List.drop_eq_nil_of_le hle))
      apply hone h
      · unfold dirreaderNext
        rw [if_neg hraw, if_neg hin]
      · exact hrounds
    | nil =>
      have hout : rd.buf.length ≤ rd.off := List.drop_eq_nil_iff.mp h.rest
      have hfilled : ∀ {out : Option Bytes × Stream},
          getdents64 rd.cap (rd.batch rd.stream.entries.length) rd.stream = out →
          dirreaderNext rd = match out with
            | (none, _) => .stop (-1)
            | (some [], _) => .stop 0
            | (some (b :: bytes), s) =>
              DirWalk.takeRecord { rd with buf := b :: bytes, off := 0, stream := s } := by
        intro out hout'
        unfold dirreaderNext
        rw [if_neg hraw, if_pos hout, hout']
      cases hentries : rd.stream.entries with
      | nil =>
        have hgot := hfilled (show _ = (if rd.stream.failed then none else some [], rd.stream) by
          unfold getdents64
          rw [hentries])
        have hend : rawEnd rd.cap rd.stream = if rd.stream.failed then -1 else 0 := by
          simp [rawEnd, hentries]
        unfold processEntries
        rw [hgot, hend]
        cases rd.stream.failed with
        | true => rfl
        | false => rfl
      | cons e rest =>
        by_cases hfit : e.reclen ≤ rd.cap
        · obtain ⟨m, b, bs, hgot, hbytes, hall⟩ :=
            getdents64_some (rd.batch rd.stream.entries.length) hentries hfit
          have hheld : Holding
              { rd with
                buf := b :: bs
                off := 0
                stream := { rd.stream with entries := rest.drop m } } (e :: rest.take m) :=
            ⟨h.raw, hbytes.symm⟩
          have hsplit : e :: rest = (e :: rest.take m) ++ rest.drop m := by
            rw [List.cons_append, List.take_append_drop]
          have hread : readable rd.cap (e :: rest) =
              (e :: rest.take m) ++ readable rd.cap (rest.drop m) := by
            rw [hsplit, readable_append hall]
          rw [hone hheld (hfilled hgot) (by
            rw [hentries] at hrounds
            simp only [List.length_cons, List.length_nil, List.length_take,
              List.length_drop] at hrounds ⊢
            omega)]
          dsimp only
          rw [List.nil_append, hread, rawEnd_drop (hentries.trans hsplit) hall]
        · have hgot := hfilled (show _ = (none, rd.stream) by
            unfold getdents64
            rw [hentries]
            exact if_pos (Nat.not_le.mp hfit))
          have hend : rawEnd rd.cap rd.stream = -1 := by
            unfold rawEnd
            rw [hentries]
            exact if_pos (Or.inr ⟨e, List.mem_cons_self, Nat.not_le.mp hfit⟩)
          have hread : readable rd.cap (e :: rest) = [] := by
            unfold readable
            rw [List.takeWhile_cons_of_neg (by simpa using hfit)]
          unfold processEntries
          rw [hgot, hend, hread]
          rfl

/-- `readdir` delivers everything, and never an error. -/
theorem processEntries_readdir (rounds : ℕ) (rd : Reader) (hraw : rd.raw = false)
    (hrounds : rd.stream.entries.length < rounds) :
    processEntries rounds rd = some (processedTo (rd.stream.entries.map Dirent.found) 0) := by
  induction rounds generalizing rd with
  | zero => omega
  | succ rounds ih =>
    unfold processEntries dirreaderNext
    rw [if_pos hraw]
    cases hentries : rd.stream.entries with
    | nil => rfl
    | cons e rest =>
      rw [hentries] at hrounds
      dsimp only
      have hrest := ih { rd with stream := { rd.stream with entries := rest } } hraw
        (Nat.lt_of_succ_lt_succ hrounds)
      rw [hrest]
      rfl

theorem processDirectory_raw {cap : ℕ} (hcap : 0 < cap) (batch : ℕ → ℕ) (s : Stream) :
    processDirectory cap batch s =
      some (processedTo ((readable cap s.entries).map Dirent.found) (rawEnd cap s)) := by
  have hheld : Holding (dirreaderOpen cap batch s) [] := ⟨decide_eq_true hcap, rfl⟩
  have hall := processEntries_raw (s.entries.length + 1) hheld
    (by dsimp only [dirreaderOpen, List.length_nil]; omega)
  rw [List.nil_append] at hall
  exact hall

theorem processDirectory_readdir (batch : ℕ → ℕ) (s : Stream) :
    processDirectory 0 batch s = some (processedTo (s.entries.map Dirent.found) 0) :=
  processEntries_readdir (s.entries.length + 1) _ rfl (Nat.lt_succ_self _)

/-- The same entries come out of both, and an error is reported by both. -/
def ReadersAgree (cap : ℕ) (batch : ℕ → ℕ) (s : Stream) : Prop :=
  ∃ raw plain, processDirectory cap batch s = some raw ∧ processDirectory 0 batch s = some plain ∧
    raw.names = plain.names ∧
      (s.failed = true → ∀ out ∈ [raw, plain], out.rc = -1 ∧ out.reported = true ∧ out.dirEnd = -1)

/-- The readers agree on the directories that can be read to their end, with records that fit
the buffer where there is one. -/
theorem readersAgree_iff (cap : ℕ) (batch : ℕ → ℕ) (s : Stream) :
    ReadersAgree cap batch s ↔
      s.failed = false ∧ (0 < cap → ∀ e ∈ s.entries, e.reclen ≤ cap) := by
  constructor
  · rintro ⟨raw, plain, hraw, hplain, hnames, herror⟩
    rw [processDirectory_readdir] at hplain
    obtain rfl := Option.some.inj hplain
    constructor
    · by_contra hfailed
      rw [Bool.not_eq_false] at hfailed
      have hrc := (herror hfailed _ (List.mem_cons_of_mem _ List.mem_cons_self)).1
      cases hrc
    · intro hcap
      rw [processDirectory_raw hcap] at hraw
      obtain rfl := Option.some.inj hraw
      rw [← readable_eq_iff]
      have hlen := congrArg List.length hnames
      simp only [processedTo, List.length_map] at hlen
      exact (List.takeWhile_prefix _).eq_of_length hlen
  · rintro ⟨hfailed, hfit⟩
    have hnone : ¬ s.failed = true := by simp [hfailed]
    by_cases hcap : 0 < cap
    · refine ⟨_, _, processDirectory_raw hcap batch s, processDirectory_readdir batch s, ?_, ?_⟩
      · rw [readable_eq_iff.mpr (hfit hcap)]
        rfl
      · exact fun h => absurd h hnone
    · obtain rfl := Nat.eq_zero_of_not_pos hcap
      exact ⟨_, _, processDirectory_readdir batch s, processDirectory_readdir batch s, rfl,
        fun h => absurd h hnone⟩

/-- A directory that cannot be read at all: with `readdir` it counts as empty. -/
theorem readdir_hides_error : ¬ ReadersAgree 262144 (fun _ => 0) ⟨[], true⟩ := by
  rintro ⟨raw, plain, hraw, hplain, hnames, herror⟩
  obtain rfl := Option.some.inj hplain
  have hrc := (herror rfl _ (List.mem_cons_of_mem _ List.mem_cons_self)).1
  cases hrc

end Ecopy.DirWalk
