import Ecopy.Lib.CStrings
import Ecopy.Protocol.Wire

/-!
# User and group ids on the command line

`edelete` compares the ids given with `--uid` and `--gid` with the owners of files, `ecopy`
gives them to the files it writes. Both read them with a function for unsigned numbers, which
takes a minus sign and then negates modulo 2^64. `parse_id` keeps all 64 bits and `main` casts
them to an id of 32; `parse_id_arg` tests the number before its cast.
-/
namespace Ecopy.IdOptions
open Lib.CStrings
open Protocol (Bytes)

/-- An `unsigned long`, or what is printed behind the label. -/
def parseId (s : Bytes) : Except String ℕ :=
  if s = [] then .error "requires a numeric argument"
  else
    let v := strtoul s
    if v.erange ∨ v.rest = s ∨ v.rest ≠ [] then .error "must be a non-negative integer"
    else .ok v.value

def parseIdArg (s : Bytes) : Option UInt32 :=
  if s = [] then none
  else
    let v := strtoul s
    if v.erange ∨ v.rest ≠ [] ∨ v.value > 4294967294 then none else some (UInt32.ofNat v.value)

inductive IdKind where
  | uid
  | gid
deriving DecidableEq, Repr

/-- The globals that the options set. -/
structure Options where
  dryRun : Bool
  force : Bool
  uid : Option UInt32
  gid : Option UInt32
deriving DecidableEq, Repr

def Options.initial : Options := ⟨true, false, none, none⟩

def Options.id (o : Options) : IdKind → Option UInt32
  | .uid => o.uid
  | .gid => o.gid

/-- The cast to `uid_t` and `gid_t`. -/
def Options.setId (o : Options) (kind : IdKind) (v : ℕ) : Options :=
  match kind with
  | .uid => { o with uid := some (UInt32.ofNat v) }
  | .gid => { o with gid := some (UInt32.ofNat v) }

structure Owner where
  uid : UInt32
  gid : UInt32
deriving DecidableEq, Repr

def copyPolicyApplyIdOverride (uid gid : Option UInt32) (st : Owner) : Owner :=
  ⟨uid.getD st.uid, gid.getD st.gid⟩

/-- The number of a numeral. -/
def number (n : Numeral) : ℤ := if n.negative then -digitsValue n.digits else digitsValue n.digits

/-- The whole string is a numeral of this number. -/
def Denotes (s : Bytes) (z : ℤ) : Prop := ∃ n, Spelled s n ∧ n.rest = [] ∧ z = number n

variable {s : Bytes} {z : ℤ}

theorem Denotes.unique {w : ℤ} (hz : Denotes s z) (hw : Denotes s w) : z = w := by
  obtain ⟨n, hn, -, rfl⟩ := hz
  obtain ⟨m, hm, -, rfl⟩ := hw
  rw [← scan_eq_some_iff] at hn hm
  rw [hn, Option.some.injEq] at hm
  rw [hm]

/-- The numbers that `strtoul` reads whole, and what it makes of them. -/
theorem strtoul_whole_iff {v : ℕ} :
    ((strtoul s).erange = false ∧ (strtoul s).rest = [] ∧ (strtoul s).rest ≠ s ∧
        (strtoul s).value = v) ↔
      ∃ z, Denotes s z ∧ -2 ^ 64 < z ∧ z < 2 ^ 64 ∧ v = (z % 2 ^ 64).toNat := by
  have hread : strtoul s = strtoul s := rfl
  conv at hread =>
    rhs
    unfold strtoul
  cases hscan : scan s with
  | none =>
    rw [hscan] at hread
    rw [hread]
    constructor
    · rintro ⟨-, -, hmoved, -⟩
      exact absurd rfl hmoved
    · rintro ⟨z, ⟨n, hn, -⟩, -⟩
      rw [← scan_eq_some_iff, hscan] at hn
      cases hn
  | some n =>
    obtain ⟨negative, digits, rest⟩ := n
    have hspelled := scan_spelled hscan
    have hne : s ≠ [] := by
      obtain ⟨blanks, sign, rfl, -⟩ := hspelled.spelling
      simp [hspelled.digits_ne]
    have hunique : ∀ z, Denotes s z → z = number ⟨negative, digits, rest⟩ ∧ rest = [] := by
      rintro z ⟨m, hm, hrest, rfl⟩
      rw [← scan_eq_some_iff, hscan, Option.some.injEq] at hm
      rw [← hm] at hrest ⊢
      exact ⟨rfl, hrest⟩
    rw [hscan] at hread
    dsimp only at hread
    by_cases hlarge : digitsValue digits ≥ 2 ^ 64
    · rw [if_pos hlarge] at hread
      rw [hread]
      refine iff_of_false (fun h => Bool.noConfusion h.1) ?_
      rintro ⟨z, hz, hlow, hhigh, -⟩
      obtain ⟨rfl, -⟩ := hunique z hz
      unfold number at hlow hhigh
      dsimp only at hlow hhigh
      split_ifs at hlow hhigh <;> omega
    · rw [if_neg hlarge] at hread
      have hvalue : (strtoul s).erange = false ∧ (strtoul s).rest = rest ∧
          (strtoul s).value = (number ⟨negative, digits, rest⟩ % 2 ^ 64).toNat := by
        rw [hread]
        unfold number
        dsimp only
        split_ifs with hneg
        · refine ⟨rfl, rfl, ?_⟩
          dsimp only
          omega
        · refine ⟨rfl, rfl, ?_⟩
          dsimp only
          omega
      rw [hvalue.1, hvalue.2.1, hvalue.2.2]
      constructor
      · rintro ⟨-, hrest, -, rfl⟩
        refine ⟨_, ⟨_, hspelled, hrest, rfl⟩, ?_, ?_, rfl⟩
        · unfold number
          dsimp only
          split_ifs <;> omega
        · unfold number
          dsimp only
          split_ifs <;> omega
      · rintro ⟨z, hz, -, -, rfl⟩
        obtain ⟨rfl, hrest⟩ := hunique z hz
        exact ⟨rfl, hrest, fun heq => hne (heq ▸ hrest), rfl⟩

theorem denotes_ne_nil (h : Denotes s z) : s ≠ [] := by
  obtain ⟨n, hn, -⟩ := h
  obtain ⟨blanks, sign, rfl, -⟩ := hn.spelling
  simp [hn.digits_ne]

/-- `parse_id` takes every numeral below 2^64 in absolute value, and reduces it modulo 2^64. -/
theorem parseId_eq_ok_iff {v : ℕ} : parseId s = .ok v ↔
    ∃ z, Denotes s z ∧ -2 ^ 64 < z ∧ z < 2 ^ 64 ∧ v = (z % 2 ^ 64).toNat := by
  rw [← strtoul_whole_iff]
  unfold parseId
  by_cases hnil : s = []
  · rw [if_pos hnil]
    refine iff_of_false nofun ?_
    rintro ⟨-, hrest, hmoved, -⟩
    rw [hnil] at hmoved hrest
    exact hmoved hrest
  · rw [if_neg hnil]
    constructor
    · intro h
      dsimp only at h
      split_ifs at h with hbad
      rw [not_or, not_or, not_not, Bool.not_eq_true] at hbad
      exact ⟨hbad.1, hbad.2.2, hbad.2.1, Except.ok.inj h⟩
    · rintro ⟨herange, hrest, hmoved, rfl⟩
      dsimp only
      rw [if_neg]
      rw [not_or, not_or, not_not, Bool.not_eq_true]
      exact ⟨herange, hmoved, hrest⟩

theorem parseIdArg_eq_some_iff {id : UInt32} : parseIdArg s = some id ↔
    ∃ z, Denotes s z ∧ -2 ^ 64 < z ∧ z < 2 ^ 64 ∧ z % 2 ^ 64 ≤ 4294967294 ∧
      id.toNat = (z % 2 ^ 64).toNat := by
  unfold parseIdArg
  constructor
  · intro h
    split_ifs at h with hnil
    dsimp only at h
    split_ifs at h with hbad
    rw [not_or, not_or, not_not, Bool.not_eq_true] at hbad
    obtain ⟨herange, hrest, hsmall⟩ := hbad
    obtain ⟨z, hz, hlow, hhigh, hv⟩ :=
      strtoul_whole_iff.mp ⟨herange, hrest, fun heq => hnil (heq ▸ hrest), rfl⟩
    refine ⟨z, hz, hlow, hhigh, by omega, ?_⟩
    rw [← Option.some.inj h, UInt32.toNat_ofNat', Nat.mod_eq_of_lt (by omega), hv]
  · rintro ⟨z, hz, hlow, hhigh, hsmall, hid⟩
    obtain ⟨herange, hrest, -, hv⟩ := strtoul_whole_iff.mpr ⟨z, hz, hlow, hhigh, rfl⟩
    rw [if_neg (denotes_ne_nil hz)]
    dsimp only
    rw [if_neg, hv, ← hid, UInt32.ofNat_toNat]
    rw [not_or, not_or, not_not, Bool.not_eq_true, hv]
    exact ⟨herange, hrest, by omega⟩

/-- Where `parse_id` takes the string, it denotes an integer from zero on, and the ids that
`eligible` compares are that integer. -/
def FilterMeans (s : Bytes) : Prop :=
  ∀ v, parseId s = .ok v → ∃ n : ℕ, Denotes s n ∧
    ∀ (o : Options) kind, ((o.setId kind v).id kind).map UInt32.toNat = some n

/-- Where `parse_id_arg` takes the string, it denotes an integer from zero on, and the owner that
is forced is that integer. -/
def OverrideMeans (s : Bytes) : Prop :=
  ∀ id, parseIdArg s = some id → ∃ n : ℕ, Denotes s n ∧
    ∀ other st, (copyPolicyApplyIdOverride (some id) other st).uid.toNat = n ∧
      (copyPolicyApplyIdOverride other (some id) st).gid.toNat = n

theorem toNat_id_setId (o : Options) (kind : IdKind) (v : ℕ) :
    ((o.setId kind v).id kind).map UInt32.toNat = some (v % 2 ^ 32) := by
  cases kind <;> exact congrArg some (UInt32.toNat_ofNat' ..)

theorem filterMeans_iff : FilterMeans s ↔
    ∀ z, Denotes s z → -2 ^ 64 < z → z < 2 ^ 64 → 0 ≤ z ∧ z < 2 ^ 32 := by
  constructor
  · intro h z hz hlow hhigh
    obtain ⟨n, hn, hid⟩ := h _ (parseId_eq_ok_iff.mpr ⟨z, hz, hlow, hhigh, rfl⟩)
    have hsame := hid .initial .uid
    rw [toNat_id_setId, Option.some.injEq] at hsame
    have hvalue := hz.unique hn
    omega
  · intro h v hv
    obtain ⟨z, hz, hlow, hhigh, rfl⟩ := parseId_eq_ok_iff.mp hv
    obtain ⟨hpos, hsmall⟩ := h z hz hlow hhigh
    refine ⟨z.toNat, ?_, fun o kind => ?_⟩
    · rwa [Int.toNat_of_nonneg hpos]
    · rw [toNat_id_setId, Option.some.injEq]
      omega

theorem overrideMeans_iff : OverrideMeans s ↔
    ∀ z, Denotes s z → -2 ^ 64 < z → 4294967294 - 2 ^ 64 < z := by
  constructor
  · intro h z hz hlow
    by_contra hhigh
    have hsmall : (z % 2 ^ 64).toNat < 2 ^ 32 := by omega
    obtain ⟨n, hn, -⟩ := h (UInt32.ofNat (z % 2 ^ 64).toNat) (parseIdArg_eq_some_iff.mpr
      ⟨z, hz, hlow, by omega, by omega, by rw [UInt32.toNat_ofNat', Nat.mod_eq_of_lt hsmall]⟩)
    have hvalue := hz.unique hn
    omega
  · intro h id hid
    obtain ⟨z, hz, hlow, hhigh, hsmall, hnat⟩ := parseIdArg_eq_some_iff.mp hid
    have hpos : 0 ≤ z := by
      have hlarge := h z hz hlow
      omega
    refine ⟨z.toNat, by rwa [Int.toNat_of_nonneg hpos], fun other st => ?_⟩
    have hvalue : id.toNat = z.toNat := by omega
    exact ⟨hvalue, hvalue⟩

/-- In `edelete` an id means what it says exactly if no negative number and none from 2^32 on is
given, numbers outside of 64 bits apart, which are refused. In `ecopy` it does exactly if no
negative number is given that is at most 4294967294 modulo 2^64. -/
theorem id_options_mean_iff (s : Bytes) :
    (FilterMeans s ↔ ∀ z, Denotes s z → -2 ^ 64 < z → z < 2 ^ 64 → 0 ≤ z ∧ z < 2 ^ 32) ∧
    (OverrideMeans s ↔ ∀ z, Denotes s z → -2 ^ 64 < z → 4294967294 - 2 ^ 64 < z) :=
  ⟨filterMeans_iff, overrideMeans_iff⟩

/-- `edelete --uid 4294967296` removes the files of root, and
`ecopy --uid -18446744073709551615` gives all files to user 1. -/
theorem ids_wrap : (¬ ∀ s, FilterMeans s) ∧ ¬ ∀ s, OverrideMeans s := by
  constructor
  · intro h
    have hdenotes : Denotes (ascii "4294967296") 4294967296 :=
      ⟨⟨false, ascii "4294967296", []⟩, scan_eq_some_iff.mp (by decide +kernel), rfl,
        by decide +kernel⟩
    obtain ⟨-, hhigh⟩ := filterMeans_iff.mp (h _) _ hdenotes (by omega) (by omega)
    omega
  · intro h
    have hdenotes : Denotes (ascii "-18446744073709551615") (-18446744073709551615) :=
      ⟨⟨true, ascii "18446744073709551615", []⟩, scan_eq_some_iff.mp (by decide +kernel), rfl,
        by decide +kernel⟩
    have hlarge := overrideMeans_iff.mp (h _) _ hdenotes (by omega)
    omega

end Ecopy.IdOptions
