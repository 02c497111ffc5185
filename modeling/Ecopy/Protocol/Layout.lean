import Ecopy.Protocol.Codec

/-!
# Message layouts

A decoder reads fields in order and may give up. It carries the proof that a set
error flag stays set, so decoders compose without further conditions. `Decodes m
blocks v` relates a decoder to the fields a sender has written: the fields,
followed by anything, are read back as `v` and nothing more is consumed, and when
they are cut short the error flag ends up set. There is one rule for each kind of
field; a message is checked by applying them in the order of its fields.
-/
namespace Ecopy.Protocol

structure Decoder (α : Type) where
  run : Pdec → Option α × Pdec
  sticky : ∀ d, d.error = true → (run d).2.error = true

namespace Decoder
variable {α β : Type}

def ret (a : α) : Decoder α where
  run d := (some a, d)
  sticky _ h := h

/-- Give up without touching the flag. -/
def giveUp : Decoder α where
  run d := (none, d)
  sticky _ h := h

def andThen (m : Decoder α) (f : α → Decoder β) : Decoder β where
  run d :=
    match m.run d with
    | (none, d) => (none, d)
    | (some a, d) => (f a).run d
  sticky d h := by
    have hm := m.sticky d h
    cases hr : m.run d with
    | mk r d' =>
      rw [hr] at hm
      cases r with
      | none => exact hm
      | some a => exact (f a).sticky d' hm

instance : Monad Decoder where
  pure := ret
  bind := andThen

theorem run_bind (m : Decoder α) (f : α → Decoder β) (d : Pdec) :
    (m >>= f).run d =
      match m.run d with
      | (none, d) => (none, d)
      | (some a, d) => (f a).run d :=
  rfl

/-- A field that is read as zero after an error. -/
def total (read : Pdec → α × Pdec) (h : ∀ d, d.error = true → (read d).2 = d) : Decoder α where
  run d := (some (read d).1, (read d).2)
  sticky d hd := by
    rw [h d hd]
    exact hd

def u8 : Decoder UInt8 := total pdecU8 fun d h => by rw [pdecU8_error d h]
def u32 : Decoder UInt32 := total pdecU32 fun d h => by rw [pdecU32_error d h]
def u64 : Decoder UInt64 := total pdecU64 fun d h => by rw [pdecU64_error d h]

/-- A string that ends the decoding when it cannot be read. -/
def str (outsz : ℕ) : Decoder Bytes where
  run d := pdecStr d outsz
  sticky d h := by
    rw [pdecStr_error d outsz h]
    exact h

/-- A string that is replaced by the empty one when it cannot be read. -/
def strOrEmpty (outsz : ℕ) : Decoder Bytes where
  run d := (some ((pdecStr d outsz).1.getD []), (pdecStr d outsz).2)
  sticky d h := by
    rw [pdecStr_error d outsz h]
    exact h

/-- A block of bytes that ends the decoding when it cannot be read. -/
def bytes (n : ℕ) : Decoder Bytes where
  run d := pdecBytes d n
  sticky d h := by simp [pdecBytes, h]

/-- The same fields again and again, up to the first time the decoding ends. -/
def times (m : Decoder α) : ℕ → Decoder (List α)
  | 0 => pure []
  | n + 1 => do
    let a ← m
    let as ← times m n
    return a :: as

end Decoder

/-- The decoder takes the written fields for `v`, and does not take less. -/
structure Decodes {α : Type} (m : Decoder α) (blocks : List Bytes) (v : α) : Prop where
  whole : ∀ rest, m.run ⟨blocks.flatten ++ rest, false⟩ = (some v, ⟨rest, false⟩)
  cut : ∀ p, p <+: blocks.flatten → p ≠ blocks.flatten → (m.run ⟨p, false⟩).2.error = true

namespace Decodes
variable {α β : Type} {m : Decoder α} {f : α → Decoder β} {xs ys : List Bytes} {a : α} {b : β}

theorem ret (a : α) : Decodes (pure a) [] a where
  whole _ := rfl
  cut _ hp hne := absurd (List.prefix_nil.mp hp) hne

theorem bind (hm : Decodes m xs a) (hf : Decodes (f a) ys b) : Decodes (m >>= f) (xs ++ ys) b where
  whole rest := by
    rw [Decoder.run_bind, List.flatten_append, List.append_assoc, hm.whole]
    exact hf.whole rest
  cut p hp hne := by
    rw [List.flatten_append] at hp hne
    rw [Decoder.run_bind]
    rcases List.prefix_or_prefix_of_prefix hp (List.prefix_append _ _) with hshort | ⟨q, rfl⟩
    · by_cases heq : p = xs.flatten
      · -- exactly the first part: the second one is missing altogether
        subst heq
        have hys : ys.flatten ≠ [] := by
          intro hnil
          rw [hnil, List.append_nil] at hne
          exact hne rfl
        have hwhole := hm.whole []
        rw [List.append_nil] at hwhole
        rw [hwhole]
        exact hf.cut [] List.nil_prefix (Ne.symm hys)
      · have hm' := hm.cut p hshort heq
        cases hr : m.run ⟨p, false⟩ with
        | mk r d =>
          rw [hr] at hm'
          cases r with
          | none => exact hm'
          | some c => exact (f c).sticky d hm'
    · rw [hm.whole q]
      apply hf.cut q ((List.prefix_append_right_inj _).mp hp)
      intro heq
      exact hne (by rw [heq])

/-- One field and the rest of the message. -/
theorem field {block : Bytes} (hm : Decodes m [block] a) (hf : Decodes (f a) ys b) :
    Decodes (m >>= f) (block :: ys) b :=
  bind hm hf

/-- The last field. -/
theorem last (hm : Decodes m xs a) (hf : f a = pure b) : Decodes (m >>= f) xs b := by
  have h := bind hm (hf ▸ ret b)
  rwa [List.append_nil] at h

/-- A field of fixed width that is an error when less is there. -/
theorem of_width {block : Bytes} (hwhole : ∀ rest, m.run ⟨block ++ rest, false⟩ = (some a, ⟨rest, false⟩))
    (hshort : ∀ p, p.length < block.length → (m.run ⟨p, false⟩).2.error = true) :
    Decodes m [block] a where
  whole rest := by
    rw [List.flatten_singleton]
    exact hwhole rest
  cut p hp hne := by
    rw [List.flatten_singleton] at hp hne
    exact hshort p (Nat.lt_of_le_of_ne hp.length_le fun h => hne (hp.eq_of_length h))

theorem pdecBytes_short {p : Bytes} {n : ℕ} (h : p.length < n) :
    pdecBytes ⟨p, false⟩ n = (none, ⟨p, true⟩) := by
  simp [pdecBytes, h]

theorem u8 (v : UInt8) : Decodes Decoder.u8 [[v]] v :=
  of_width (fun rest => by simp [Decoder.u8, Decoder.total]) fun p hp => by
    simp [Decoder.u8, Decoder.total, pdecU8, pdecBytes_short (n := 1) hp]

theorem u32 (v : UInt32) : Decodes Decoder.u32 [le32 v] v :=
  of_width (fun rest => by simp [Decoder.u32, Decoder.total]) fun p hp => by
    rw [length_le32] at hp
    simp [Decoder.u32, Decoder.total, pdecU32, pdecBytes_short hp]

theorem u64 (v : UInt64) : Decodes Decoder.u64 [le64 v] v :=
  of_width (fun rest => by simp [Decoder.u64, Decoder.total]) fun p hp => by
    rw [length_le64] at hp
    simp [Decoder.u64, Decoder.total, pdecU64, pdecBytes_short hp]

theorem bytes (bs : Bytes) : Decodes (Decoder.bytes bs.length) [bs] bs :=
  of_width (fun rest => by simp [Decoder.bytes, pdecBytes]) fun p hp => by
    simp [Decoder.bytes, pdecBytes_short hp]

/-- A string whose length or bytes are missing is an error. -/
theorem pdecStr_short {s p : Bytes} {outsz : ℕ} (hlen : s.length < 2 ^ 32)
    (hp : p <+: le32 (UInt32.ofNat s.length) ++ s) (hne : p ≠ le32 (UInt32.ofNat s.length) ++ s) :
    (pdecStr ⟨p, false⟩ outsz).2.error = true := by
  rcases List.prefix_or_prefix_of_prefix hp (List.prefix_append _ _) with hshort | ⟨q, rfl⟩
  · by_cases heq : p = le32 (UInt32.ofNat s.length)
    · subst heq
      have hs : s ≠ [] := by
        intro hnil
        rw [hnil, List.append_nil] at hne
        exact hne rfl
      have hcut : pdecStr ⟨le32 (UInt32.ofNat s.length) ++ [], false⟩ outsz = (none, ⟨[], true⟩) :=
        pdecStr_cut (List.length_pos_iff.mpr hs) hlen
      rw [List.append_nil] at hcut
      rw [hcut]
    · have hlt : p.length < 4 := by
        have hle := hshort.length_le
        rw [length_le32] at hle
        refine Nat.lt_of_le_of_ne hle fun h => heq (hshort.eq_of_length ?_)
        rw [length_le32, h]
      simp [pdecStr, pdecU32, pdecBytes_short hlt]
  · have hq := (List.prefix_append_right_inj _).mp hp
    have hlt : q.length < s.length := by
      refine Nat.lt_of_le_of_ne hq.length_le fun h => hne ?_
      rw [hq.eq_of_length h]
    rw [pdecStr_cut hlt hlen]

theorem str {s : Bytes} {outsz : ℕ} (hnul : 0 ∉ s) (hfit : s.length < outsz)
    (hlen : s.length < 2 ^ 32) :
    Decodes (Decoder.str outsz) [le32 (UInt32.ofNat s.length), s] s where
  whole rest := by
    simp only [List.flatten_cons, List.flatten_nil, List.append_nil, List.append_assoc]
    exact pdecStr_le32 rest hnul hfit hlen
  cut p hp hne := by
    simp only [List.flatten_cons, List.flatten_nil, List.append_nil] at hp hne
    exact pdecStr_short hlen hp hne

theorem strOrEmpty {s : Bytes} {outsz : ℕ} (hnul : 0 ∉ s) (hfit : s.length < outsz)
    (hlen : s.length < 2 ^ 32) :
    Decodes (Decoder.strOrEmpty outsz) [le32 (UInt32.ofNat s.length), s] s where
  whole rest := by
    simp only [List.flatten_cons, List.flatten_nil, List.append_nil, List.append_assoc,
      Decoder.strOrEmpty, pdecStr_le32 rest hnul hfit hlen, Option.getD_some]
  cut p hp hne := by
    simp only [List.flatten_cons, List.flatten_nil, List.append_nil] at hp hne
    exact pdecStr_short hlen hp hne

/-- A list of items, each with its own fields. -/
theorem times {γ : Type} {enc : γ → List Bytes} {dec : γ → α} {items : List γ}
    (h : ∀ x ∈ items, Decodes m (enc x) (dec x)) :
    Decodes (m.times items.length) (items.map enc).flatten (items.map dec) := by
  induction items with
  | nil => exact ret []
  | cons x items ih =>
    have hx := h x (by simp)
    have hrest := ih fun y hy => h y (by simp [hy])
    have hlast : Decodes (pure (dec x :: items.map dec)) [] (dec x :: items.map dec) := ret _
    have htail := bind hrest hlast (f := fun as => pure (dec x :: as))
    rw [List.append_nil] at htail
    exact bind hx htail

end Decodes

/-- The decoder takes `w` bytes whenever it ends without an error. -/
def Width {α : Type} (m : Decoder α) (w : ℕ) : Prop :=
  ∀ d a d', m.run d = (some a, d') → d'.error = false →
    d.error = false ∧ d'.rest.length + w = d.rest.length

namespace Width
variable {α β : Type} {m : Decoder α} {f : α → Decoder β} {v w : ℕ}

theorem ret (a : α) : Width (pure a) 0 := by
  intro d b d' h he
  obtain ⟨-, rfl⟩ := Prod.mk.inj h
  exact ⟨he, rfl⟩

theorem bind (hm : Width m v) (hf : ∀ a, Width (f a) w) : Width (m >>= f) (v + w) := by
  intro d b d' h he
  rw [Decoder.run_bind] at h
  split at h
  · cases h
  · rename_i a d₁ hrun
    obtain ⟨he₁, hlen₁⟩ := hf a d₁ b d' h he
    obtain ⟨he₀, hlen₀⟩ := hm d a d₁ hrun he₁
    exact ⟨he₀, by omega⟩

/-- The last field before the result is put together. -/
theorem map (hm : Width m v) {g : α → β} : Width (m >>= fun a => pure (g a)) v :=
  bind hm fun a => ret (g a)

theorem pdecBytes_width {d d' : Pdec} {n : ℕ} {r : Option Bytes} (h : pdecBytes d n = (r, d'))
    (he : d'.error = false) : d.error = false ∧ d'.rest.length + n = d.rest.length := by
  unfold pdecBytes at h
  split at h
  · obtain ⟨-, rfl⟩ := Prod.mk.inj h
    cases he
  · rename_i hok
    obtain ⟨-, rfl⟩ := Prod.mk.inj h
    refine ⟨he, ?_⟩
    show (d.rest.drop n).length + n = d.rest.length
    rw [List.length_drop]
    omega

theorem u8 : Width Decoder.u8 1 := by
  intro d a d' h he
  obtain ⟨-, rfl⟩ := Prod.mk.inj h
  exact pdecBytes_width rfl he

theorem u32 : Width Decoder.u32 4 := by
  intro d a d' h he
  obtain ⟨-, rfl⟩ := Prod.mk.inj h
  exact pdecBytes_width rfl he

theorem u64 : Width Decoder.u64 8 := by
  intro d a d' h he
  obtain ⟨-, rfl⟩ := Prod.mk.inj h
  exact pdecBytes_width rfl he

theorem times (hm : Width m w) (n : ℕ) : Width (m.times n) (n * w) := by
  induction n with
  | zero =>
    rw [Nat.zero_mul]
    exact ret []
  | succ n ih =>
    rw [Nat.succ_mul, Nat.add_comm (n * w) w]
    exact bind hm fun a => map ih

end Width

end Ecopy.Protocol
