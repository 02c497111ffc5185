import Mathlib.Algebra.Ring.Int.Defs
import Mathlib.Algebra.Ring.Nat
import Mathlib.Data.List.Basic
import Mathlib.Data.List.TakeWhile
import Mathlib.Tactic.Common
import Mathlib.Tactic.SplitIfs

/-!
# Searching and reading C strings

A C string is the list of its bytes, without the NUL at its end. `strchr` and `strrchr` give
the place of the first and of the last occurrence of a byte; each is determined by the parts
before and behind it.

`scan` is what `strtol` and its relatives have in common: they skip white space, take one
sign, and then all decimal digits that follow. Without a digit there is no number. The
functions differ in what they do with a number outside their range: `strtol` saturates,
`strtoul` negates modulo its width, and both report a range error where the digits alone do
not fit.

Strings that are packed into one buffer, each with its NUL, are taken out again by stepping
from one NUL to the next.
-/
namespace Ecopy.Lib.CStrings

section Search
variable {α : Type*} [DecidableEq α] {c : α} {s a b : List α} {k : ℕ}

def strchr (c : α) : List α → Option ℕ
  | [] => none
  | x :: s => if x = c then some 0 else (strchr c s).map (· + 1)

def strrchr (c : α) : List α → Option ℕ
  | [] => none
  | x :: s =>
    match strrchr c s with
    | some k => some (k + 1)
    | none => if x = c then some 0 else none

theorem strchr_eq_none_iff : strchr c s = none ↔ c ∉ s := by
  induction s with
  | nil => simp [strchr]
  | cons x s ih =>
    rw [strchr, List.mem_cons, not_or]
    split_ifs with h
    · simp [h]
    · rw [Option.map_eq_none_iff, ih]
      exact ⟨fun hs => ⟨fun heq => h heq.symm, hs⟩, And.right⟩

theorem strchr_append (h : c ∉ a) : strchr c (a ++ c :: b) = some a.length := by
  induction a with
  | nil => simp [strchr]
  | cons x a ih =>
    rw [List.mem_cons, not_or] at h
    rw [List.cons_append, strchr, if_neg (Ne.symm h.1), ih h.2]
    rfl

theorem strchr_eq_some_iff :
    strchr c s = some k ↔ ∃ a b, s = a ++ c :: b ∧ c ∉ a ∧ k = a.length := by
  constructor
  · intro h
    have hmem : c ∈ s := by
      by_contra hnot
      rw [strchr_eq_none_iff.mpr hnot] at h
      cases h
    obtain ⟨a, b, rfl, hfree⟩ := List.eq_append_cons_of_mem hmem
    rw [strchr_append hfree] at h
    exact ⟨a, b, rfl, hfree, (Option.some.inj h).symm⟩
  · rintro ⟨a, b, rfl, hfree, rfl⟩
    exact strchr_append hfree

theorem strrchr_eq_none_iff : strrchr c s = none ↔ c ∉ s := by
  induction s with
  | nil => simp [strrchr]
  | cons x s ih =>
    rw [strrchr, List.mem_cons, not_or]
    cases hs : strrchr c s with
    | some k =>
      rw [hs] at ih
      simp only [reduceCtorEq, false_iff] at ih ⊢
      exact fun h => ih h.2
    | none =>
      have hfree := ih.mp hs
      dsimp only
      split_ifs with h
      · simp [h]
      · simpa using ⟨fun heq => h heq.symm, hfree⟩

theorem strrchr_append (h : c ∉ b) : strrchr c (a ++ c :: b) = some a.length := by
  induction a with
  | nil =>
    rw [List.nil_append, strrchr, strrchr_eq_none_iff.mpr h]
    simp
  | cons x a ih =>
    rw [List.cons_append, strrchr, ih]
    rfl

omit [DecidableEq α] in
/-- The last occurrence splits the string where nothing follows any more. -/
theorem exists_last_split (h : c ∈ s) : ∃ a b, s = a ++ c :: b ∧ c ∉ b := by
  obtain ⟨b, a, hrev, hfree⟩ := List.eq_append_cons_of_mem (List.mem_reverse.mpr h)
  refine ⟨a.reverse, b.reverse, ?_, by rwa [List.mem_reverse]⟩
  rw [← List.reverse_reverse s, hrev]
  simp

theorem strrchr_eq_some_iff :
    strrchr c s = some k ↔ ∃ a b, s = a ++ c :: b ∧ c ∉ b ∧ k = a.length := by
  constructor
  · intro h
    have hmem : c ∈ s := by
      by_contra hnot
      rw [strrchr_eq_none_iff.mpr hnot] at h
      cases h
    obtain ⟨a, b, rfl, hfree⟩ := exists_last_split hmem
    rw [strrchr_append hfree] at h
    exact ⟨a, b, rfl, hfree, (Option.some.inj h).symm⟩
  · rintro ⟨a, b, rfl, hfree, rfl⟩
    exact strrchr_append hfree

omit [DecidableEq α] in
theorem take_drop_around (a b : List α) (c : α) :
    (a ++ c :: b).take a.length = a ∧ (a ++ c :: b).drop (a.length + 1) = b := by
  refine ⟨List.take_left, ?_⟩
  rw [← List.drop_drop, List.drop_left, List.drop_one, List.tail_cons]

omit [DecidableEq α] in
theorem append_first_inj {u v : List α} (ha : c ∉ a) (hu : c ∉ u)
    (h : a ++ c :: b = u ++ c :: v) : a = u ∧ b = v := by
  classical
  have hfirst := strchr_append (b := b) ha
  rw [h, strchr_append hu, Option.some.injEq] at hfirst
  obtain ⟨hau, htail⟩ := List.append_inj h hfirst.symm
  exact ⟨hau, (List.cons.inj htail).2⟩

omit [DecidableEq α] in
theorem append_last_inj {u v : List α} (hb : c ∉ b) (hv : c ∉ v)
    (h : a ++ c :: b = u ++ c :: v) : a = u ∧ b = v := by
  classical
  have hlast := strrchr_append (a := a) hb
  rw [h, strrchr_append hv, Option.some.injEq] at hlast
  obtain ⟨hau, htail⟩ := List.append_inj h hlast.symm
  exact ⟨hau, (List.cons.inj htail).2⟩

end Search

/-- The bytes of an ASCII literal. -/
def ascii (s : String) : List UInt8 := s.toList.map fun c => UInt8.ofNat c.toNat

/-- `isspace` in the C locale. -/
def isSpace (b : UInt8) : Bool := b == 32 || (9 ≤ b && b ≤ 13)

def isDigit (b : UInt8) : Bool := 48 ≤ b && b ≤ 57

theorem isDigit_iff {d : UInt8} : isDigit d = true ↔ 48 ≤ d.toNat ∧ d.toNat ≤ 57 := by
  unfold isDigit
  rw [Bool.and_eq_true, decide_eq_true_iff, decide_eq_true_iff, UInt8.le_iff_toNat_le,
    UInt8.le_iff_toNat_le]
  rfl

def plus : UInt8 := 43
def minus : UInt8 := 45

/-- The number that decimal digits stand for. -/
def digitsValue (ds : List UInt8) : ℕ := ds.foldl (fun n d => 10 * n + (d.toNat - 48)) 0

structure Numeral where
  negative : Bool
  digits : List UInt8
  rest : List UInt8
deriving DecidableEq, Repr

/-- The sign, if there is one, and what follows. -/
def takeSign : List UInt8 → Bool × List UInt8
  | [] => (false, [])
  | b :: s => if b = minus then (true, s) else if b = plus then (false, s) else (false, b :: s)

def scan (s : List UInt8) : Option Numeral :=
  let signed := takeSign (s.dropWhile isSpace)
  let digits := signed.2.takeWhile isDigit
  if digits = [] then none else some ⟨signed.1, digits, signed.2.dropWhile isDigit⟩

/-- The value, whether a range error is reported, and what the end pointer points to. -/
structure Converted (α : Type) where
  value : α
  erange : Bool
  rest : List UInt8
deriving DecidableEq, Repr

/-- `strtol` in base 10, for a `long` of 64 bits. -/
def strtol (s : List UInt8) : Converted ℤ :=
  match scan s with
  | none => ⟨0, false, s⟩
  | some n =>
    let m : ℤ := digitsValue n.digits
    if n.negative then
      if m > 2 ^ 63 then ⟨-2 ^ 63, true, n.rest⟩ else ⟨-m, false, n.rest⟩
    else if m ≥ 2 ^ 63 then ⟨2 ^ 63 - 1, true, n.rest⟩
    else ⟨m, false, n.rest⟩

/-- `strtoul` and `strtoull` in base 10, both of 64 bits. -/
def strtoul (s : List UInt8) : Converted ℕ :=
  match scan s with
  | none => ⟨0, false, s⟩
  | some n =>
    let m := digitsValue n.digits
    if m ≥ 2 ^ 64 then ⟨2 ^ 64 - 1, true, n.rest⟩
    else if n.negative then ⟨(2 ^ 64 - m) % 2 ^ 64, false, n.rest⟩
    else ⟨m, false, n.rest⟩

/-- How a number is written: white space, a sign, digits. -/
structure Spelled (s : List UInt8) (n : Numeral) : Prop where
  digits_ne : n.digits ≠ []
  digits_all : ∀ d ∈ n.digits, isDigit d = true
  rest_stops : ∀ d, n.rest.head? = some d → isDigit d = false
  spelling : ∃ blanks sign, s = blanks ++ sign ++ n.digits ++ n.rest ∧
    (∀ b ∈ blanks, isSpace b = true) ∧
    ((n.negative = true ∧ sign = [minus]) ∨ (n.negative = false ∧ (sign = [] ∨ sign = [plus])))

theorem isDigit_ne_sign {d : UInt8} (h : isDigit d = true) :
    d ≠ minus ∧ d ≠ plus ∧ isSpace d = false := by
  rw [isDigit_iff] at h
  have hne : ∀ k : UInt8, k.toNat < 48 → d ≠ k := by
    rintro k hk rfl
    omega
  refine ⟨hne minus (by decide), hne plus (by decide), ?_⟩
  unfold isSpace
  rw [Bool.or_eq_false_iff, Bool.and_eq_false_iff, beq_eq_false_iff_ne, decide_eq_false_iff_not,
    decide_eq_false_iff_not, UInt8.le_iff_toNat_le, UInt8.le_iff_toNat_le]
  refine ⟨hne 32 (by decide), .inr ?_⟩
  have hcr : (13 : UInt8).toNat = 13 := rfl
  omega

theorem head_dropWhile {p : UInt8 → Bool} {s : List UInt8} {d : UInt8}
    (h : (s.dropWhile p).head? = some d) : p d = false := by
  induction s with
  | nil => cases h
  | cons x s ih =>
    rw [List.dropWhile_cons] at h
    split at h
    · exact ih h
    · rename_i hx
      rw [List.head?_cons, Option.some.injEq] at h
      rw [← h]
      exact Bool.eq_false_iff.mpr hx

theorem takeSign_spec (s : List UInt8) :
    ∃ sign, s = sign ++ (takeSign s).2 ∧
      (((takeSign s).1 = true ∧ sign = [minus]) ∨
        ((takeSign s).1 = false ∧ (sign = [] ∨ sign = [plus]))) := by
  cases s with
  | nil => exact ⟨[], rfl, .inr ⟨rfl, .inl rfl⟩⟩
  | cons b s =>
    rw [takeSign]
    split_ifs with hminus hplus
    · exact ⟨[minus], by rw [hminus]; rfl, .inl ⟨rfl, rfl⟩⟩
    · exact ⟨[plus], by rw [hplus]; rfl, .inr ⟨rfl, .inr rfl⟩⟩
    · exact ⟨[], rfl, .inr ⟨rfl, .inl rfl⟩⟩

theorem scan_spelled {s : List UInt8} {n : Numeral} (h : scan s = some n) : Spelled s n := by
  unfold scan at h
  dsimp only at h
  split_ifs at h with hdigits
  obtain rfl := Option.some.inj h
  obtain ⟨sign, hsign, hkind⟩ := takeSign_spec (s.dropWhile isSpace)
  refine ⟨hdigits, fun d hd => List.mem_takeWhile_imp hd, fun d hd => head_dropWhile hd,
    s.takeWhile isSpace, sign, ?_, fun b hb => List.mem_takeWhile_imp hb, hkind⟩
  rw [List.append_assoc, List.takeWhile_append_dropWhile, List.append_assoc, ← hsign,
    List.takeWhile_append_dropWhile]

theorem dropWhile_append_of_all {p : UInt8 → Bool} {u v : List UInt8} (hu : ∀ x ∈ u, p x = true)
    (hv : ∀ x, v.head? = some x → p x = false) :
    (u ++ v).dropWhile p = v ∧ (u ++ v).takeWhile p = u := by
  have hstop : v.dropWhile p = v ∧ v.takeWhile p = [] := by
    cases v with
    | nil => exact ⟨rfl, rfl⟩
    | cons x v =>
      have hx := hv x rfl
      simp [hx]
  rw [List.dropWhile_append_of_pos hu, List.takeWhile_append_of_pos hu, hstop.1, hstop.2,
    List.append_nil]
  exact ⟨rfl, rfl⟩

/-- A number is read exactly where one is written, and it is read whole. -/
theorem scan_eq_some_iff {s : List UInt8} {n : Numeral} : scan s = some n ↔ Spelled s n := by
  refine ⟨scan_spelled, ?_⟩
  intro h
  obtain ⟨blanks, sign, rfl, hblanks, hsign⟩ := h.spelling
  obtain ⟨d, ds, hds⟩ := List.exists_cons_of_ne_nil h.digits_ne
  have hd : isDigit d = true := h.digits_all d (by simp [hds])
  have hplain := isDigit_ne_sign hd
  have hafter : ∀ x, (sign ++ (n.digits ++ n.rest)).head? = some x → isSpace x = false := by
    intro x hx
    rcases hsign with ⟨-, rfl⟩ | ⟨-, rfl | rfl⟩
    · obtain rfl : minus = x := by simpa using hx
      decide
    · obtain rfl : d = x := by simpa [hds] using hx
      exact hplain.2.2
    · obtain rfl : plus = x := by simpa using hx
      decide
  have hskip := (dropWhile_append_of_all hblanks hafter).1
  have htake : takeSign (sign ++ (n.digits ++ n.rest)) = (n.negative, n.digits ++ n.rest) := by
    rcases hsign with ⟨hneg, rfl⟩ | ⟨hneg, rfl | rfl⟩
    · simp [takeSign, hneg]
    · simp [takeSign, hneg, hds, hplain.1, hplain.2.1]
    · simp [takeSign, hneg, plus, minus]
  have hdigits := dropWhile_append_of_all h.digits_all h.rest_stops
  unfold scan
  rw [List.append_assoc, List.append_assoc, hskip]
  dsimp only
  rw [htake]
  dsimp only
  rw [hdigits.1, hdigits.2, if_neg h.digits_ne]

/-- Digits alone are read as the number they stand for. -/
theorem strtol_digits {ds : List UInt8} (hne : ds ≠ []) (hall : ∀ d ∈ ds, isDigit d = true)
    (hsmall : digitsValue ds < 2 ^ 63) : strtol ds = ⟨digitsValue ds, false, []⟩ := by
  have hscan : scan ds = some ⟨false, ds, []⟩ := by
    rw [scan_eq_some_iff]
    exact ⟨hne, hall, nofun, [], [], by simp, nofun, .inr ⟨rfl, .inl rfl⟩⟩
  have hfits : ¬ (digitsValue ds : ℤ) ≥ 2 ^ 63 := by omega
  unfold strtol
  rw [hscan]
  dsimp only
  rw [if_neg Bool.false_ne_true, if_neg hfits]

/-- A positive number that does not saturate is written with these digits. -/
theorem strtol_spelled {s : List UInt8} (hpos : 0 < (strtol s).value)
    (hmax : (strtol s).value < 2 ^ 63 - 1) :
    ∃ digits, Spelled s ⟨false, digits, (strtol s).rest⟩ ∧ (strtol s).value = digitsValue digits := by
  have hread : strtol s = strtol s := rfl
  conv at hread =>
    rhs
    unfold strtol
  cases hscan : scan s with
  | none =>
    rw [hscan] at hread
    rw [hread] at hpos
    exact absurd hpos (Int.lt_irrefl 0)
  | some n =>
    obtain ⟨negative, digits, rest⟩ := n
    have hspelled := scan_spelled hscan
    rw [hscan] at hread
    dsimp only at hread
    split_ifs at hread with hneg hlow hhigh
    · rw [hread] at hpos
      exact absurd hpos (show ¬ (0 : ℤ) < -2 ^ 63 by decide)
    · rw [hread] at hpos
      dsimp only at hpos
      omega
    · rw [hread] at hmax
      exact absurd hmax (Int.lt_irrefl _)
    · rw [Bool.not_eq_true] at hneg
      rw [hread]
      rw [hneg] at hspelled
      exact ⟨digits, hspelled, rfl⟩

theorem digitsValue_concat (ds : List UInt8) (d : UInt8) :
    digitsValue (ds ++ [d]) = 10 * digitsValue ds + (d.toNat - 48) := by
  simp [digitsValue, List.foldl_append]

/-- The string that begins at the offset; none where its NUL is not in the buffer. -/
def stringAt (data : List UInt8) (o : ℕ) : Option (List UInt8) :=
  (strchr 0 (data.drop o)).map fun k => (data.drop o).take k

/-- `n` strings, one behind the other. -/
def unpack (data : List UInt8) : ℕ → ℕ → Option (List (List UInt8))
  | 0, _ => some []
  | n + 1, o =>
    match stringAt data o with
    | none => none
    | some s => (unpack data n (o + s.length + 1)).map (s :: ·)

def pack (strings : List (List UInt8)) : List UInt8 := strings.flatMap (· ++ [0])

theorem length_pack (strings : List (List UInt8)) :
    (pack strings).length = (strings.map fun s => s.length + 1).sum := by
  simp [pack, List.length_flatMap]

theorem pack_append (a b : List (List UInt8)) : pack (a ++ b) = pack a ++ pack b :=
  List.flatMap_append

theorem stringAt_append {before s after : List UInt8} (h : 0 ∉ s) :
    stringAt (before ++ (s ++ 0 :: after)) before.length = some s := by
  unfold stringAt
  rw [List.drop_left, strchr_append h, Option.map_some, List.take_left]

theorem stringAt_of_split {data s : List UInt8} {p : ℕ} (before after : List UInt8)
    (hdata : data = before ++ (s ++ 0 :: after)) (hp : p = before.length) (h : 0 ∉ s) :
    stringAt data p = some s := by
  rw [hdata, hp, stringAt_append h]

/-- Strings come out as they were put in, whatever is around them, and none is read beyond. -/
theorem unpack_pack {strings : List (List UInt8)} (h : ∀ s ∈ strings, 0 ∉ s)
    (before after : List UInt8) :
    unpack (before ++ (pack strings ++ after)) strings.length before.length = some strings := by
  induction strings generalizing before with
  | nil => rfl
  | cons s strings ih =>
    have hsplit : before ++ (pack (s :: strings) ++ after) =
        before ++ (s ++ 0 :: (pack strings ++ after)) := by
      simp [pack]
    have hnext : before ++ (s ++ 0 :: (pack strings ++ after)) =
        (before ++ s ++ [0]) ++ (pack strings ++ after) := by
      simp
    have hrest := ih (fun x hx => h x (List.mem_cons_of_mem s hx)) (before ++ s ++ [0])
    rw [← hnext, List.length_append, List.length_append, List.length_singleton] at hrest
    rw [hsplit, List.length_cons, unpack, stringAt_append (h s List.mem_cons_self)]
    dsimp only
    rw [hrest]
    rfl

end Ecopy.Lib.CStrings
