import Ecopy.Protocol.Wire

/-!
# Framing over a byte stream

`io_write_all` and `io_read_all` repeat a system call until the whole buffer has
been moved. A schedule lists what the successive calls do: an interrupted call
moves nothing and is repeated, a failed one ends the loop, the others move some
bytes of what is asked for. A schedule that is too short leaves the caller
blocked. A reader finds the end of the stream when nothing is left of it.

The three writers send a header and the nonempty parts of the payload, each with
its own loop. The reader asks for a header and then for as many bytes as the
header announces.
-/
namespace Ecopy.Protocol.Framing
open Lib

inductive Attempt where
  | interrupted
  | failed
  | moved (n : ℕ)
deriving DecidableEq, Repr

/-- A call that is not interrupted makes progress. -/
def Attempt.Fair : Attempt → Prop
  | .interrupted => True
  | .failed => False
  | .moved n => 0 < n

def Attempt.progress : Attempt → ℕ
  | .moved _ => 1
  | _ => 0

/-- The number of calls that are not interrupted. -/
def transfers (as : List Attempt) : ℕ := (as.map Attempt.progress).sum

inductive Status where
  | done
  | failed
  | blocked
deriving DecidableEq, Repr

structure Written where
  status : Status
  out : Bytes
  schedule : List Attempt
deriving DecidableEq, Repr

def ioWriteAll (buf : Bytes) : List Attempt → Written
  | [] => ⟨if buf = [] then .done else .blocked, [], []⟩
  | a :: as =>
    if buf = [] then ⟨.done, [], a :: as⟩
    else
      match a with
      | .interrupted => ioWriteAll buf as
      | .failed => ⟨.failed, [], as⟩
      | .moved n =>
        if n = 0 then ⟨.failed, [], as⟩
        else
          let r := ioWriteAll (buf.drop n) as
          { r with out := buf.take n ++ r.out }

/-- Buffers written one after the other, up to the first that fails. -/
def writeSegments : List Bytes → List Attempt → Written
  | [], as => ⟨.done, [], as⟩
  | seg :: segs, as =>
    let r := ioWriteAll seg as
    match r.status with
    | .done =>
      let r' := writeSegments segs r.schedule
      { r' with out := r.out ++ r'.out }
    | _ => r

inductive WriteCall where
  | frameWrite (type : UInt8) (id : UInt64) (payload : Bytes)
  | frameWriteData (id fileId offset : UInt64) (data : Bytes)
  | frameWriteParts (type : UInt8) (id : UInt64) (head data : Bytes)
deriving DecidableEq, Repr

/-- What is written only when it is not empty. -/
def optional (seg : Bytes) : List Bytes := if seg.length = 0 then [] else [seg]

/-- The buffers that a writer hands to `io_write_all`. -/
def WriteCall.segments : WriteCall → List Bytes
  | .frameWrite type id payload =>
    encodeHeader type id (UInt32.ofNat payload.length) :: optional payload
  | .frameWriteData id fileId offset data =>
    encodeHeader MsgType.write.code id (UInt32.ofNat (16 + data.length)) ::
      (le64 fileId ++ le64 offset) :: optional data
  | .frameWriteParts type id head data =>
    encodeHeader type id (UInt32.ofNat (head.length + data.length)) ::
      (optional head ++ optional data)

def WriteCall.run (c : WriteCall) (as : List Attempt) : Written := writeSegments c.segments as

/-- Calls made one after the other, up to the first that fails. -/
def writeCalls : List WriteCall → List Attempt → Written
  | [], as => ⟨.done, [], as⟩
  | c :: cs, as =>
    let r := c.run as
    match r.status with
    | .done =>
      let r' := writeCalls cs r.schedule
      { r' with out := r.out ++ r'.out }
    | _ => r

structure Received where
  status : Status
  got : Bytes
  stream : Bytes
  schedule : List Attempt
deriving DecidableEq, Repr

/-- A read moves no more than is asked for and no more than is there; at the end
of the stream it returns zero. -/
def ioReadAll (len : ℕ) (stream : Bytes) : List Attempt → Received
  | [] => ⟨if len = 0 then .done else .blocked, [], stream, []⟩
  | a :: as =>
    if len = 0 then ⟨.done, [], stream, a :: as⟩
    else
      match a with
      | .interrupted => ioReadAll len stream as
      | .failed => ⟨.failed, [], stream, as⟩
      | .moved n =>
        let r := min (min n len) stream.length
        if r = 0 then ⟨.failed, [], stream, as⟩
        else
          let rest := ioReadAll (len - r) (stream.drop r) as
          { rest with got := stream.take r ++ rest.got }

/-- What a reader learns of one frame. -/
structure Message where
  type : UInt8
  id : UInt64
  payload : Bytes
deriving DecidableEq, Repr

structure Header where
  type : UInt8
  id : UInt64
  plen : UInt32
deriving DecidableEq, Repr

def decodeHeader (hdr : Bytes) : Header :=
  ⟨hdr.headD 0, UInt64.ofNat (LittleEndian.decode ((hdr.drop 1).take 8)),
    UInt32.ofNat (LittleEndian.decode ((hdr.drop 9).take 4))⟩

/-- `ECOPY_HDR_LEN`. -/
def hdrLen : ℕ := 13

def frameReadHeader (stream : Bytes) (as : List Attempt) : Option Header × Received :=
  let r := ioReadAll hdrLen stream as
  (match r.status with
    | .done => some (decodeHeader r.got)
    | _ => none, r)

/-- A header and the payload it announces. -/
def receive (stream : Bytes) (as : List Attempt) : Option Message × Received :=
  match frameReadHeader stream as with
  | (none, r) => (none, r)
  | (some h, r) =>
    let r := ioReadAll h.plen.toNat r.stream r.schedule
    (match r.status with
      | .done => some ⟨h.type, h.id, r.got⟩
      | _ => none, r)

/-- At most `n` frames, up to the first read that does not succeed, and how the
last read went. -/
def receiveMany : ℕ → Bytes → List Attempt → List Message × Status
  | 0, _, _ => ([], .done)
  | n + 1, stream, as =>
    match receive stream as with
    | (none, r) => ([], r.status)
    | (some m, r) =>
      let (ms, st) := receiveMany n r.stream r.schedule
      (m :: ms, st)

/-- The frame that a writer means to send. -/
def WriteCall.message : WriteCall → Message
  | .frameWrite type id payload => ⟨type, id, payload⟩
  | .frameWriteData id fileId offset data => ⟨MsgType.write.code, id, le64 fileId ++ le64 offset ++ data⟩
  | .frameWriteParts type id head data => ⟨type, id, head ++ data⟩

def WriteCall.bytes (c : WriteCall) : Bytes := c.segments.flatten

/-- The calls whose frames lie within the first `k` bytes of the stream. -/
def completeWithin (k : ℕ) : List WriteCall → List Message
  | [] => []
  | c :: cs =>
    if c.bytes.length ≤ k then c.message :: completeWithin (k - c.bytes.length) cs else []

/-- Every call makes progress or is repeated, and at least `n` make progress. -/
def Ready (n : ℕ) (as : List Attempt) : Prop := (∀ a ∈ as, a.Fair) ∧ n ≤ transfers as

instance (a : Attempt) : Decidable a.Fair := by
  cases a <;> simp only [Attempt.Fair] <;> infer_instance

instance (n : ℕ) (as : List Attempt) : Decidable (Ready n as) := by
  unfold Ready
  infer_instance

theorem not_ready_nil (n : ℕ) : ¬ Ready (n + 1) [] := by
  simp [Ready, transfers]

variable {n : ℕ} {as : List Attempt}

theorem Ready.mono {m : ℕ} (h : Ready n as) (hmn : m ≤ n) : Ready m as :=
  ⟨h.1, Nat.le_trans hmn h.2⟩

theorem ready_interrupted : Ready n (.interrupted :: as) ↔ Ready n as := by
  simp [Ready, transfers, Attempt.Fair, Attempt.progress]

theorem not_ready_failed : ¬ Ready n (.failed :: as) := by
  simp [Ready, Attempt.Fair]

theorem ready_moved {m : ℕ} (h : Ready (n + 1) (.moved m :: as)) : 0 < m ∧ Ready n as := by
  simp only [Ready, transfers, List.forall_mem_cons, Attempt.Fair, List.map_cons, List.sum_cons,
    Attempt.progress] at h ⊢
  exact ⟨h.1.1, h.1.2, by omega⟩

/-- The loop ends with the whole buffer written. -/
theorem ioWriteAll_ready {buf : Bytes} (h : Ready (buf.length + n) as) :
    ∃ as', ioWriteAll buf as = ⟨.done, buf, as'⟩ ∧ Ready n as' := by
  induction as generalizing buf with
  | nil =>
    cases buf with
    | nil => exact ⟨[], rfl, by simpa using h⟩
    | cons b buf =>
      rw [List.length_cons, Nat.add_right_comm] at h
      exact absurd h (not_ready_nil _)
  | cons a as ih =>
    by_cases hbuf : buf = []
    · subst hbuf
      exact ⟨a :: as, by simp [ioWriteAll], by simpa using h⟩
    · have hpos : 0 < buf.length := List.length_pos_iff.mpr hbuf
      cases a with
      | interrupted =>
        obtain ⟨as', heq, hready⟩ := ih (ready_interrupted.mp h)
        exact ⟨as', by simpa [ioWriteAll, hbuf] using heq, hready⟩
      | failed => exact absurd h not_ready_failed
      | moved m =>
        obtain ⟨hm, hrest⟩ := ready_moved (n := buf.length + n - 1) (h.mono (by omega))
        have hleft : (buf.drop m).length + n ≤ buf.length + n - 1 := by
          rw [List.length_drop]
          omega
        obtain ⟨as', heq, hready⟩ := ih (hrest.mono hleft)
        refine ⟨as', ?_, hready⟩
        simp only [ioWriteAll, if_neg hbuf, if_neg (Nat.ne_of_gt hm), heq, List.take_append_drop]

theorem writeSegments_ready {segs : List Bytes} (h : Ready (segs.flatten.length + n) as) :
    ∃ as', writeSegments segs as = ⟨.done, segs.flatten, as'⟩ ∧ Ready n as' := by
  induction segs generalizing as with
  | nil => exact ⟨as, rfl, by simpa using h⟩
  | cons seg segs ih =>
    rw [List.flatten_cons, List.length_append, Nat.add_assoc] at h
    obtain ⟨as₁, h₁, hready₁⟩ := ioWriteAll_ready h
    obtain ⟨as₂, h₂, hready₂⟩ := ih hready₁
    exact ⟨as₂, by simp [writeSegments, h₁, h₂], hready₂⟩

/-- All calls succeed and the stream is what they mean to send. -/
theorem writeCalls_ready {cs : List WriteCall}
    (h : Ready ((cs.map WriteCall.bytes).flatten.length + n) as) :
    ∃ as', writeCalls cs as = ⟨.done, (cs.map WriteCall.bytes).flatten, as'⟩ ∧ Ready n as' := by
  induction cs generalizing as with
  | nil => exact ⟨as, rfl, by simpa using h⟩
  | cons c cs ih =>
    rw [List.map_cons, List.flatten_cons, List.length_append, Nat.add_assoc] at h
    obtain ⟨as₁, h₁, hready₁⟩ := writeSegments_ready h
    obtain ⟨as₂, h₂, hready₂⟩ := ih hready₁
    exact ⟨as₂, by simp [writeCalls, WriteCall.run, h₁, h₂, WriteCall.bytes], hready₂⟩

/-- A read that can be satisfied is. -/
theorem ioReadAll_ready {len : ℕ} {stream : Bytes} (hlen : len ≤ stream.length)
    (h : Ready (len + n) as) :
    ∃ as', ioReadAll len stream as = ⟨.done, stream.take len, stream.drop len, as'⟩ ∧
      Ready n as' := by
  induction as generalizing len stream with
  | nil =>
    cases len with
    | zero => exact ⟨[], by simp [ioReadAll], by simpa using h⟩
    | succ len =>
      rw [Nat.add_right_comm] at h
      exact absurd h (not_ready_nil _)
  | cons a as ih =>
    by_cases hzero : len = 0
    · subst hzero
      exact ⟨a :: as, by simp [ioReadAll], by simpa using h⟩
    · cases a with
      | interrupted =>
        obtain ⟨as', heq, hready⟩ := ih hlen (ready_interrupted.mp h)
        exact ⟨as', by simpa [ioReadAll, hzero] using heq, hready⟩
      | failed => exact absurd h not_ready_failed
      | moved m =>
        obtain ⟨hm, hrest⟩ := ready_moved (n := len + n - 1) (h.mono (by omega))
        have hr : min (min m len) stream.length = min m len := by omega
        have hne : min m len ≠ 0 := by omega
        have hfit : len - min m len ≤ (stream.drop (min m len)).length := by
          rw [List.length_drop]
          omega
        obtain ⟨as', heq, hready⟩ := ih hfit (hrest.mono (by omega))
        refine ⟨as', ?_, hready⟩
        have htake : stream.take (min m len) ++
            (stream.drop (min m len)).take (len - min m len) = stream.take len := by
          rw [← List.take_add, Nat.add_sub_cancel' (Nat.min_le_right m len)]
        have hdrop : (stream.drop (min m len)).drop (len - min m len) = stream.drop len := by
          rw [List.drop_drop, Nat.add_sub_cancel' (Nat.min_le_right m len)]
        simp only [ioReadAll, if_neg hzero, hr, if_neg hne, heq, htake, hdrop]

/-- A read that reaches the end of the stream fails. -/
theorem ioReadAll_short {len : ℕ} {stream : Bytes} (hlen : stream.length < len)
    (h : Ready (stream.length + 1) as) : (ioReadAll len stream as).status = .failed := by
  induction as generalizing len stream with
  | nil => exact absurd h (not_ready_nil _)
  | cons a as ih =>
    have hzero : len ≠ 0 := by omega
    cases a with
    | interrupted => simpa [ioReadAll, hzero] using ih hlen (ready_interrupted.mp h)
    | failed => exact absurd h not_ready_failed
    | moved m =>
      obtain ⟨hm, hrest⟩ := ready_moved h
      by_cases hr : min (min m len) stream.length = 0
      · simp [ioReadAll, hzero, hr]
      · simp only [ioReadAll, if_neg hzero, if_neg hr]
        apply ih
        · rw [List.length_drop]
          omega
        · exact hrest.mono (by rw [List.length_drop]; omega)

@[simp] theorem length_encodeHeader (type : UInt8) (id : UInt64) (plen : UInt32) :
    (encodeHeader type id plen).length = hdrLen := by
  simp [encodeHeader, hdrLen]

theorem decodeHeader_encodeHeader (type : UInt8) (id : UInt64) (plen : UInt32) :
    decodeHeader (encodeHeader type id plen) = ⟨type, id, plen⟩ := by
  have hid : (le64 id ++ le32 plen).take 8 = le64 id := by
    rw [← length_le64 id, List.take_left]
  have hplen : (le64 id ++ le32 plen).drop 8 = le32 plen := by
    rw [← length_le64 id, List.drop_left]
  have hwhole : (le32 plen).take 4 = le32 plen := by
    rw [← length_le32 plen, List.take_length]
  simp only [decodeHeader, encodeHeader, List.headD_cons, List.drop_succ_cons, List.drop_zero, hid,
    hplen, hwhole, decode_le64, decode_le32]

@[simp] theorem flatten_optional (seg : Bytes) : (optional seg).flatten = seg := by
  unfold optional
  split
  · next h => simp [List.eq_nil_of_length_eq_zero h]
  · simp

/-- Whatever the writer, the stream gets a header and the payload it announces. -/
theorem WriteCall.bytes_eq (c : WriteCall) :
    c.bytes = encodeHeader c.message.type c.message.id (UInt32.ofNat c.message.payload.length) ++
      c.message.payload := by
  cases c with
  | frameWrite type id payload => simp [bytes, segments, message]
  | frameWriteData id fileId offset data =>
    have hlen : (le64 fileId ++ le64 offset ++ data).length = 16 + data.length := by
      simp
      omega
    simp only [bytes, segments, message, hlen]
    simp
  | frameWriteParts type id head data => simp [bytes, segments, message]

theorem WriteCall.length_bytes (c : WriteCall) :
    c.bytes.length = hdrLen + c.message.payload.length := by
  rw [c.bytes_eq, List.length_append, length_encodeHeader]

/-- A frame at the front of the stream is received whole. -/
theorem receive_complete {c : WriteCall} (hlen : c.message.payload.length < 2 ^ 32) (rest : Bytes)
    {as : List Attempt} {n : ℕ} (h : Ready (c.bytes.length + n) as) :
    ∃ as', receive (c.bytes ++ rest) as = (some c.message, ⟨.done, c.message.payload, rest, as'⟩) ∧
      Ready n as' := by
  rw [c.length_bytes, Nat.add_assoc] at h
  rw [c.bytes_eq, List.append_assoc]
  have hhdr : hdrLen ≤ (encodeHeader c.message.type c.message.id
      (UInt32.ofNat c.message.payload.length) ++ (c.message.payload ++ rest)).length := by
    simp
  have hpayload : c.message.payload.length ≤ (c.message.payload ++ rest).length := by simp
  obtain ⟨as₁, h₁, hready₁⟩ := ioReadAll_ready hhdr h
  obtain ⟨as₂, h₂, hready₂⟩ := ioReadAll_ready hpayload hready₁
  rw [List.take_left' (by simp), List.drop_left' (by simp)] at h₁
  rw [List.take_left, List.drop_left] at h₂
  refine ⟨as₂, ?_, hready₂⟩
  simp only [receive, frameReadHeader, h₁, decodeHeader_encodeHeader, toNat_ofNat_of_lt hlen, h₂]

/-- A frame that is cut short, the empty one included, is an error. -/
theorem receive_cut {c : WriteCall} (hlen : c.message.payload.length < 2 ^ 32) {k : ℕ}
    (hk : k < c.bytes.length) {as : List Attempt} (h : Ready (k + 1) as) :
    (receive (c.bytes.take k) as).1 = none ∧ (receive (c.bytes.take k) as).2.status = .failed := by
  rw [c.length_bytes] at hk
  have hlength : (c.bytes.take k).length = k := by
    rw [List.length_take, c.length_bytes]
    omega
  by_cases hhdr : hdrLen ≤ k
  · -- the header is there and announces more than what follows
    have hsplit : c.bytes.take k = encodeHeader c.message.type c.message.id
        (UInt32.ofNat c.message.payload.length) ++ c.message.payload.take (k - hdrLen) := by
      rw [c.bytes_eq, List.take_append, length_encodeHeader,
        List.take_of_length_le (by simpa using hhdr)]
    have hready : Ready (hdrLen + (k - hdrLen + 1)) as := h.mono (by omega)
    obtain ⟨as₁, h₁, hready₁⟩ := ioReadAll_ready (by rw [hlength]; exact hhdr) hready
    rw [hsplit, List.take_left' (by simp), List.drop_left' (by simp)] at h₁
    have hrest : (c.message.payload.take (k - hdrLen)).length = k - hdrLen := by
      rw [List.length_take]
      omega
    have h₂ : (ioReadAll c.message.payload.length (c.message.payload.take (k - hdrLen)) as₁).status =
        .failed := by
      apply ioReadAll_short
      · rw [hrest]
        omega
      · rw [hrest]
        exact hready₁
    rw [hsplit]
    simp only [receive, frameReadHeader, h₁, decodeHeader_encodeHeader, toNat_ofNat_of_lt hlen, h₂,
      and_self]
  · have h₁ : (ioReadAll hdrLen (c.bytes.take k) as).status = .failed := by
      apply ioReadAll_short
      · rw [hlength]
        omega
      · rw [hlength]
        exact h
    simp only [receive, frameReadHeader, h₁, and_self]

theorem receive_end (h : Ready 1 as) :
    (receive [] as).1 = none ∧ (receive [] as).2.status = .failed := by
  have hread : (ioReadAll hdrLen [] as).status = .failed := ioReadAll_short (by decide) h
  simp only [receive, frameReadHeader, hread, and_self]

theorem receiveMany_of_none {stream : Bytes} (n : ℕ)
    (h : (receive stream as).1 = none ∧ (receive stream as).2.status = .failed) :
    receiveMany (n + 1) stream as = ([], .failed) := by
  obtain ⟨hnone, hstatus⟩ := h
  cases hr : receive stream as with
  | mk m r =>
    rw [hr] at hnone hstatus
    dsimp only at hnone hstatus
    simp only [receiveMany, hr, hnone, hstatus]

/-- Reading a stream that is cut after `k` bytes: the complete frames come back
in order, and the read after the last of them fails. -/
theorem receiveMany_cut {cs : List WriteCall} (hlen : ∀ c ∈ cs, c.message.payload.length < 2 ^ 32)
    {k : ℕ} {as : List Attempt} (h : Ready (k + 1) as) (n : ℕ) :
    receiveMany n ((cs.map WriteCall.bytes).flatten.take k) as =
      ((completeWithin k cs).take n,
        if n ≤ (completeWithin k cs).length then .done else .failed) := by
  induction cs generalizing k as n with
  | nil =>
    cases n with
    | zero => simp [receiveMany]
    | succ n =>
      have hend := receive_end (h.mono (by omega))
      simpa [completeWithin] using receiveMany_of_none n hend
  | cons c cs ih =>
    cases n with
    | zero => simp [receiveMany]
    | succ n =>
      rw [List.map_cons, List.flatten_cons]
      by_cases hk : c.bytes.length ≤ k
      · have hready : Ready (c.bytes.length + (k - c.bytes.length + 1)) as := h.mono (by omega)
        obtain ⟨as', hfirst, hready'⟩ := receive_complete (hlen c (by simp))
          ((cs.map WriteCall.bytes).flatten.take (k - c.bytes.length)) hready
        have hrest := ih (fun d hd => hlen d (by simp [hd])) hready' n
        rw [List.take_append, List.take_of_length_le hk]
        simp only [receiveMany, hfirst, hrest, completeWithin, if_pos hk, List.take_succ_cons,
          List.length_cons, Nat.add_le_add_iff_right]
      · have hk' : k < c.bytes.length := Nat.lt_of_not_le hk
        have hcut := receive_cut (hlen c (by simp)) hk' h
        rw [List.take_append_of_le_length (Nat.le_of_lt hk')]
        simpa [completeWithin, hk] using receiveMany_of_none n hcut

/-- Nothing is cut off. -/
theorem completeWithin_all (cs : List WriteCall) :
    completeWithin (cs.map WriteCall.bytes).flatten.length cs = cs.map WriteCall.message := by
  induction cs with
  | nil => rfl
  | cons c cs ih =>
    rw [List.map_cons, List.flatten_cons, List.length_append, completeWithin,
      if_pos (Nat.le_add_right _ _), Nat.add_sub_cancel_left, ih, List.map_cons]

/-- Framing does not depend on how the transport splits the bytes. All calls
succeed and the reader gets their frames back in order; when the stream is cut
after `k` bytes it gets those that are complete, and then an error. -/
theorem framing_faithful (cs : List WriteCall) (ws : List Attempt)
    (hlen : ∀ c ∈ cs, c.message.payload.length < 2 ^ 32)
    (hw : Ready (cs.map WriteCall.bytes).flatten.length ws) :
    (writeCalls cs ws).status = .done ∧
    (∀ rs, Ready ((writeCalls cs ws).out.length + 1) rs →
      receiveMany cs.length (writeCalls cs ws).out rs = (cs.map WriteCall.message, .done)) ∧
    ∀ k rs n, Ready (k + 1) rs →
      receiveMany n ((writeCalls cs ws).out.take k) rs =
        ((completeWithin k cs).take n,
          if n ≤ (completeWithin k cs).length then .done else .failed) := by
  obtain ⟨ws', hwritten, -⟩ := writeCalls_ready (n := 0) (by simpa using hw)
  rw [hwritten]
  refine ⟨rfl, fun rs hrs => ?_, fun k rs n hrs => receiveMany_cut hlen hrs n⟩
  have hall := receiveMany_cut hlen hrs cs.length
  rw [List.take_length, completeWithin_all, List.take_of_length_le (by simp)] at hall
  simpa using hall

/-- A put and a write, sent in pieces and read byte by byte, with the second one
cut. -/
theorem framing_faithful_two :
    receiveMany 2
        ((writeCalls [.frameWriteParts 17 5 [1, 2] [3], .frameWriteData 6 1 0 [9]]
          (List.replicate 46 (.moved 3))).out.take 17)
        (.interrupted :: List.replicate 18 (.moved 1)) =
      ([⟨17, 5, [1, 2, 3]⟩], .failed) := by
  have h := (framing_faithful [.frameWriteParts 17 5 [1, 2] [3], .frameWriteData 6 1 0 [9]]
    (List.replicate 46 (.moved 3)) (by decide) (by decide)).2.2 17
    (.interrupted :: List.replicate 18 (.moved 1)) 2 (by decide)
  rw [h]
  decide

end Ecopy.Protocol.Framing
