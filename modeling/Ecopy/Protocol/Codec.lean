import Ecopy.Lib.LittleEndian

/-!
# Encoding and decoding of message fields

`penc_*` appends fields to a buffer of fixed capacity. A field that does not fit
is dropped and the overflow flag is set, but later fields are still tried, so an
overflowed buffer holds the fields that happened to fit. `pdec_*` reads fields
from a payload; after the first error every read fails.

A payload is a list of bytes, and the read offset is represented by the unread
part. A decoded string is what a C reader of the output buffer sees, that is, the
bytes up to the first zero.
-/
namespace Ecopy.Protocol
open Lib

abbrev Bytes := List UInt8

def le32 (v : UInt32) : Bytes := LittleEndian.encode 4 v.toNat
def le64 (v : UInt64) : Bytes := LittleEndian.encode 8 v.toNat

@[simp] theorem length_le32 (v : UInt32) : (le32 v).length = 4 := LittleEndian.length_encode ..
@[simp] theorem length_le64 (v : UInt64) : (le64 v).length = 8 := LittleEndian.length_encode ..

theorem decode_le32 (v : UInt32) : UInt32.ofNat (LittleEndian.decode (le32 v)) = v := by
  have hlt : v.toNat < 256 ^ 4 := UInt32.toNat_lt v
  rw [le32, LittleEndian.decode_encode_of_lt hlt, UInt32.ofNat_toNat]

theorem decode_le64 (v : UInt64) : UInt64.ofNat (LittleEndian.decode (le64 v)) = v := by
  have hlt : v.toNat < 256 ^ 8 := UInt64.toNat_lt v
  rw [le64, LittleEndian.decode_encode_of_lt hlt, UInt64.ofNat_toNat]

structure Penc where
  cap : ℕ
  buf : Bytes
  overflow : Bool
deriving DecidableEq, Repr

def pencInit (cap : ℕ) : Penc := ⟨cap, [], false⟩

def pencBytes (e : Penc) (bs : Bytes) : Penc :=
  if e.buf.length + bs.length > e.cap then { e with overflow := true }
  else { e with buf := e.buf ++ bs }

def pencU8 (e : Penc) (v : UInt8) : Penc := pencBytes e [v]
def pencU32 (e : Penc) (v : UInt32) : Penc := pencBytes e (le32 v)
def pencU64 (e : Penc) (v : UInt64) : Penc := pencBytes e (le64 v)

/-- A NUL-free string: its length, then its bytes. -/
def pencStr (e : Penc) (s : Bytes) : Penc :=
  pencBytes (pencU32 e (UInt32.ofNat s.length)) s

variable {e : Penc}

theorem pencBytes_of_fits {bs : Bytes} (h : e.buf.length + bs.length ≤ e.cap) :
    pencBytes e bs = { e with buf := e.buf ++ bs } :=
  if_neg (Nat.not_lt.mpr h)

theorem pencBytes_of_overflow {bs : Bytes} (h : e.cap < e.buf.length + bs.length) :
    pencBytes e bs = { e with overflow := true } :=
  if_pos h

/-- Fields written one after the other. -/
def pencBlocks (e : Penc) (blocks : List Bytes) : Penc := blocks.foldl pencBytes e

theorem pencStr_eq_blocks (e : Penc) (s : Bytes) :
    pencStr e s = pencBlocks e [le32 (UInt32.ofNat s.length), s] := rfl

@[simp] theorem pencBytes_cap (e : Penc) (bs : Bytes) : (pencBytes e bs).cap = e.cap := by
  unfold pencBytes
  split_ifs <;> rfl

theorem pencBytes_overflow_mono {bs : Bytes} (h : e.overflow = true) :
    (pencBytes e bs).overflow = true := by
  unfold pencBytes
  split_ifs <;> simp [h]

theorem pencBlocks_overflow_mono (h : e.overflow = true) (blocks : List Bytes) :
    (pencBlocks e blocks).overflow = true := by
  induction blocks generalizing e with
  | nil => exact h
  | cons b blocks ih => exact ih (pencBytes_overflow_mono h)

/-- When everything fits, the buffer is the concatenation of the fields. -/
theorem pencBlocks_of_fits {blocks : List Bytes}
    (h : e.buf.length + blocks.flatten.length ≤ e.cap) :
    pencBlocks e blocks = { e with buf := e.buf ++ blocks.flatten } := by
  induction blocks generalizing e with
  | nil => simp [pencBlocks]
  | cons b blocks ih =>
    simp only [List.flatten_cons, List.length_append] at h
    have hb : e.buf.length + b.length ≤ e.cap := by omega
    have hstep : pencBlocks e (b :: blocks) = pencBlocks (pencBytes e b) blocks := rfl
    rw [hstep, pencBytes_of_fits hb, ih (by simp only [List.length_append]; omega)]
    simp [List.append_assoc]

/-- Otherwise the overflow flag is set at the end. -/
theorem pencBlocks_overflow_of_too_long (blocks : List Bytes)
    (h : e.cap < e.buf.length + blocks.flatten.length) (hlen : e.buf.length ≤ e.cap) :
    (pencBlocks e blocks).overflow = true := by
  induction blocks generalizing e with
  | nil =>
    simp only [List.flatten_nil, List.length_nil, Nat.add_zero] at h
    omega
  | cons b blocks ih =>
    simp only [List.flatten_cons, List.length_append] at h
    have hstep : pencBlocks e (b :: blocks) = pencBlocks (pencBytes e b) blocks := rfl
    rw [hstep]
    by_cases hb : e.buf.length + b.length ≤ e.cap
    · rw [pencBytes_of_fits hb]
      refine ih ?_ ?_
      · simp only [List.length_append]
        omega
      · simpa using hb
    · rw [pencBytes_of_overflow (Nat.lt_of_not_le hb)]
      exact pencBlocks_overflow_mono rfl blocks

/-- Later fields never touch what is already in the buffer. -/
theorem pencBlocks_extends (e : Penc) (blocks : List Bytes) :
    ∃ t, (pencBlocks e blocks).buf = e.buf ++ t := by
  induction blocks generalizing e with
  | nil => exact ⟨[], by simp [pencBlocks]⟩
  | cons b blocks ih =>
    obtain ⟨t, ht⟩ := ih (pencBytes e b)
    have hstep : pencBlocks e (b :: blocks) = pencBlocks (pencBytes e b) blocks := rfl
    rw [hstep, ht]
    unfold pencBytes
    split_ifs
    · exact ⟨t, rfl⟩
    · exact ⟨b ++ t, by simp⟩

theorem pencBlocks_length_le (blocks : List Bytes) (h : e.buf.length ≤ e.cap) :
    (pencBlocks e blocks).buf.length ≤ e.cap := by
  induction blocks generalizing e with
  | nil => exact h
  | cons b blocks ih =>
    have hstep : pencBlocks e (b :: blocks) = pencBlocks (pencBytes e b) blocks := rfl
    have hlen : (pencBytes e b).buf.length ≤ (pencBytes e b).cap := by
      unfold pencBytes
      split_ifs with hb
      · exact h
      · simp only [List.length_append]
        omega
    rw [hstep]
    simpa using ih hlen

theorem pencBlocks_append (e : Penc) (xs ys : List Bytes) :
    pencBlocks e (xs ++ ys) = pencBlocks (pencBlocks e xs) ys :=
  List.foldl_append

structure Pdec where
  rest : Bytes
  error : Bool
deriving DecidableEq, Repr

def pdecInit (payload : Bytes) : Pdec := ⟨payload, false⟩

def pdecBytes (d : Pdec) (n : ℕ) : Option Bytes × Pdec :=
  if d.error ∨ d.rest.length < n then (none, { d with error := true })
  else (some (d.rest.take n), { d with rest := d.rest.drop n })

def pdecU8 (d : Pdec) : UInt8 × Pdec :=
  let r := pdecBytes d 1
  ((r.1.bind List.head?).getD 0, r.2)

def pdecU32 (d : Pdec) : UInt32 × Pdec :=
  let r := pdecBytes d 4
  (match r.1 with
    | none => 0
    | some b => UInt32.ofNat (LittleEndian.decode b), r.2)

def pdecU64 (d : Pdec) : UInt64 × Pdec :=
  let r := pdecBytes d 8
  (match r.1 with
    | none => 0
    | some b => UInt64.ofNat (LittleEndian.decode b), r.2)

/-- The bytes up to the first zero. -/
def cString (bs : Bytes) : Bytes := bs.takeWhile (· != 0)

theorem cString_of_nul_free {bs : Bytes} (h : 0 ∉ bs) : cString bs = bs := by
  induction bs with
  | nil => rfl
  | cons b bs ih =>
    rw [List.mem_cons, not_or] at h
    have hb : (b != 0) = true := bne_iff_ne.mpr (Ne.symm h.1)
    simp only [cString, List.takeWhile_cons, hb, if_true]
    exact congrArg (b :: ·) (ih h.2)

/-- What is seen of a buffer holds no zero. -/
def pdecStr (d : Pdec) (outsz : ℕ) : Option Bytes × Pdec :=
  let (n, d) := pdecU32 d
  if d.error ∨ n.toNat ≥ outsz ∨ d.rest.length < n.toNat then (none, { d with error := true })
  else (some (cString (d.rest.take n.toNat)), { d with rest := d.rest.drop n.toNat })

@[simp] theorem pdecU8_cons (b : UInt8) (rest : Bytes) :
    pdecU8 ⟨b :: rest, false⟩ = (b, ⟨rest, false⟩) := by
  simp [pdecU8, pdecBytes]

@[simp] theorem pdecU32_le32 (v : UInt32) (rest : Bytes) :
    pdecU32 ⟨le32 v ++ rest, false⟩ = (v, ⟨rest, false⟩) := by
  have htake : (le32 v ++ rest).take 4 = le32 v := by
    rw [← length_le32 v, List.take_left]
  have hdrop : (le32 v ++ rest).drop 4 = rest := by
    rw [← length_le32 v, List.drop_left]
  simp [pdecU32, pdecBytes, htake, hdrop, decode_le32]

@[simp] theorem pdecU64_le64 (v : UInt64) (rest : Bytes) :
    pdecU64 ⟨le64 v ++ rest, false⟩ = (v, ⟨rest, false⟩) := by
  have htake : (le64 v ++ rest).take 8 = le64 v := by
    rw [← length_le64 v, List.take_left]
  have hdrop : (le64 v ++ rest).drop 8 = rest := by
    rw [← length_le64 v, List.drop_left]
  simp [pdecU64, pdecBytes, htake, hdrop, decode_le64]

@[simp] theorem pdecU8_error (d : Pdec) (h : d.error = true) : pdecU8 d = (0, d) := by
  cases d
  simp_all [pdecU8, pdecBytes]

@[simp] theorem pdecU32_error (d : Pdec) (h : d.error = true) : pdecU32 d = (0, d) := by
  cases d
  simp_all [pdecU32, pdecBytes]

@[simp] theorem pdecU64_error (d : Pdec) (h : d.error = true) : pdecU64 d = (0, d) := by
  cases d
  simp_all [pdecU64, pdecBytes]

@[simp] theorem pdecStr_error (d : Pdec) (outsz : ℕ) (h : d.error = true) :
    pdecStr d outsz = (none, d) := by
  cases d
  simp_all [pdecStr]

theorem toNat_ofNat_of_lt {n : ℕ} (h : n < 2 ^ 32) : (UInt32.ofNat n).toNat = n := by
  rw [UInt32.toNat_ofNat']
  exact Nat.mod_eq_of_lt h

/-- A NUL-free string that fits the output buffer is read back. -/
theorem pdecStr_le32 {s : Bytes} (rest : Bytes) {outsz : ℕ} (hnul : 0 ∉ s) (hfit : s.length < outsz)
    (hlen : s.length < 2 ^ 32) :
    pdecStr ⟨le32 (UInt32.ofNat s.length) ++ (s ++ rest), false⟩ outsz = (some s, ⟨rest, false⟩) := by
  simp only [pdecStr, pdecU32_le32, toNat_ofNat_of_lt hlen]
  have hcond : ¬((false = true) ∨ s.length ≥ outsz ∨ (s ++ rest).length < s.length) := by
    simp only [Bool.false_eq_true, false_or, List.length_append]
    omega
  rw [if_neg hcond, List.take_left, List.drop_left, cString_of_nul_free hnul]

/-- A string that does not fit the output buffer is an error. -/
theorem pdecStr_too_long {s rest : Bytes} {outsz : ℕ} (hbig : outsz ≤ s.length)
    (hlen : s.length < 2 ^ 32) :
    pdecStr ⟨le32 (UInt32.ofNat s.length) ++ rest, false⟩ outsz = (none, ⟨rest, true⟩) := by
  simp only [pdecStr, pdecU32_le32, toNat_ofNat_of_lt hlen]
  rw [if_pos (Or.inr (Or.inl hbig))]

/-- A string whose bytes are missing is an error. -/
theorem pdecStr_cut {s rest : Bytes} {outsz : ℕ} (hcut : rest.length < s.length)
    (hlen : s.length < 2 ^ 32) :
    pdecStr ⟨le32 (UInt32.ofNat s.length) ++ rest, false⟩ outsz = (none, ⟨rest, true⟩) := by
  simp only [pdecStr, pdecU32_le32, toNat_ofNat_of_lt hlen]
  rw [if_pos (Or.inr (Or.inr hcut))]

end Ecopy.Protocol
