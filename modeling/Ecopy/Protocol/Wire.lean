import Ecopy.Protocol.Message

/-!
# Frames on the wire

The three writers of `protocol.c` send a header with a 32-bit payload length and
then the payload parts. The length in the header is the sum of the part lengths
truncated to 32 bits, so a `WireFrame` keeps it apart from the bytes that follow.
`readFrame` is what the server's main loop does with the byte stream: read a
header, give up on a length above `ECOPY_MAX_FRAME`, read as many bytes as the
header says.
-/
namespace Ecopy.Protocol
open Lib

structure WireFrame where
  type : UInt8
  id : UInt64
  plen : UInt32
  payload : Bytes
deriving DecidableEq, Repr

def frameWrite (type : MsgType) (id : UInt64) (payload : Bytes) : WireFrame :=
  ⟨type.code, id, UInt32.ofNat payload.length, payload⟩

def frameWriteData (id fileId offset : UInt64) (data : Bytes) : WireFrame :=
  ⟨MsgType.write.code, id, UInt32.ofNat (16 + data.length), le64 fileId ++ le64 offset ++ data⟩

def frameWriteParts (type : MsgType) (id : UInt64) (head data : Bytes) : WireFrame :=
  ⟨type.code, id, UInt32.ofNat (head.length + data.length), head ++ data⟩

def encodeHeader (type : UInt8) (id : UInt64) (plen : UInt32) : Bytes :=
  type :: (le64 id ++ le32 plen)

def WireFrame.bytes (w : WireFrame) : Bytes := encodeHeader w.type w.id w.plen ++ w.payload

inductive ReadResult where
  | frame (type : UInt8) (id : UInt64) (payload rest : Bytes)
  | oversized
  | eof
deriving DecidableEq, Repr

def readFrame (stream : Bytes) : ReadResult :=
  match stream with
  | [] => .eof
  | type :: stream =>
    let (id, d) := pdecU64 ⟨stream, false⟩
    let (plen, d) := pdecU32 d
    if d.error then .eof
    else if plen.toNat > maxFrame then .oversized
    else if d.rest.length < plen.toNat then .eof
    else .frame type id (d.rest.take plen.toNat) (d.rest.drop plen.toNat)

/-- The header announces the bytes that follow, and no more than a peer reads. -/
def WireFrame.Acceptable (w : WireFrame) : Prop :=
  w.plen.toNat = w.payload.length ∧ w.plen.toNat ≤ maxFrame

/-- An acceptable frame is read back whole and the stream stays in step. -/
theorem readFrame_of_acceptable {w : WireFrame} (h : w.Acceptable) (rest : Bytes) :
    readFrame (w.bytes ++ rest) = .frame w.type w.id w.payload rest := by
  obtain ⟨hlen, hmax⟩ := h
  simp only [WireFrame.bytes, encodeHeader, List.cons_append, List.append_assoc, readFrame,
    pdecU64_le64, pdecU32_le32, Bool.false_eq_true, if_false]
  rw [if_neg (Nat.not_lt.mpr hmax), if_neg (by simp [hlen]), hlen, List.take_left, List.drop_left]

/-- A frame that is announced as too long ends the connection. -/
theorem readFrame_oversized {w : WireFrame} (h : maxFrame < w.plen.toNat) (rest : Bytes) :
    readFrame (w.bytes ++ rest) = .oversized := by
  simp only [WireFrame.bytes, encodeHeader, List.cons_append, List.append_assoc, readFrame,
    pdecU64_le64, pdecU32_le32, Bool.false_eq_true, if_false]
  rw [if_pos h]

theorem maxFrame_lt : maxFrame < 2 ^ 32 := by decide

/-- A length that is announced truthfully and within the limit is within the
limit. -/
theorem acceptable_iff {type : UInt8} {id : UInt64} {payload : Bytes} :
    (WireFrame.mk type id (UInt32.ofNat payload.length) payload).Acceptable ↔
      payload.length ≤ maxFrame := by
  constructor
  · rintro ⟨hlen, hmax⟩
    dsimp only at hlen hmax
    omega
  · intro h
    have hlt : payload.length < 2 ^ 32 := Nat.lt_of_le_of_lt h maxFrame_lt
    have hnat := toNat_ofNat_of_lt hlt
    exact ⟨hnat, by rw [hnat]; exact h⟩

theorem frameWriteData_acceptable_iff {id fileId offset : UInt64} {data : Bytes} :
    (frameWriteData id fileId offset data).Acceptable ↔ 16 + data.length ≤ maxFrame := by
  have hlen : (le64 fileId ++ le64 offset ++ data).length = 16 + data.length := by
    simp
    omega
  unfold frameWriteData
  rw [← hlen]
  exact acceptable_iff

theorem frameWriteParts_acceptable_iff {type : MsgType} {id : UInt64} {head data : Bytes} :
    (frameWriteParts type id head data).Acceptable ↔ head.length + data.length ≤ maxFrame := by
  unfold frameWriteParts
  rw [← List.length_append]
  exact acceptable_iff

end Ecopy.Protocol
