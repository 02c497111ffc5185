import Ecopy.Lib.CStrings
import Ecopy.Path
import Mathlib.Data.List.Induction

/-!
# The two lexical normalisers on their buffers

`normalize_abs` of the server and `normalize_abs_path_lexically` of `main` both build the
result in the output buffer, and cut it at its last slash for a `..`. The server keeps the
length of the output beside it, `main` measures the output again for every component; the
tests for the end of the buffer are written differently, and so are the cuts at the root.

Here both are followed on the buffer itself. `normalizeAbs` keeps the components instead;
the buffer holds their rendering at every step, which makes all three the same function.
Strings are shorter than 2 GiB, so that `snprintf` can return their length.
-/
namespace Ecopy.Path
open Lib.Fields Lib.CStrings
open Protocol (Bytes)

/-- `..` in `normalize_abs`. -/
def cutAtSlash (out : Bytes) : Bytes :=
  match strrchr slash out with
  | some k => if k ≠ 0 then out.take k else out.take 1
  | none => out.take 1

/-- The loop of `normalize_abs`; `olen` is the length that it keeps. -/
def normalizeAbsLoop (outsz : ℕ) : List Bytes → Bytes → ℕ → Except Errno Bytes
  | [], out, _ => .ok out
  | tok :: toks, out, olen =>
    if tok = dot then normalizeAbsLoop outsz toks out olen
    else if tok = dotdot then
      normalizeAbsLoop outsz toks (cutAtSlash out) (cutAtSlash out).length
    else
      let need := (if olen = 1 then 0 else 1) + tok.length
      if olen + need + 1 > outsz then .error .enametoolong
      else
        let out := if olen ≠ 1 then out.take olen ++ [slash] else out.take olen
        normalizeAbsLoop outsz toks (out ++ tok) (olen + need)

def normalizeAbsText (path : Bytes) (outsz : ℕ) : Except Errno Bytes :=
  if path.head? ≠ some slash ∨ outsz < 2 then .error .einval
  else if path.length ≥ pathMax then .error .enametoolong
  else normalizeAbsLoop outsz (fields slash path) [slash] 1

def removeLastPathComponent (path : Bytes) : Bytes :=
  if path = [slash] then path
  else
    match strrchr slash path with
    | none => path.take 1
    | some k => if k = 0 then path.take 1 else path.take k

def appendPathComponent (path : Bytes) (pathSz : ℕ) (component : Bytes) : Except Errno Bytes :=
  let extraSlash := if path = [slash] then 0 else 1
  if path.length + extraSlash + component.length ≥ pathSz then .error .enametoolong
  else
    let path := if extraSlash ≠ 0 then path ++ [slash] else path
    .ok (path ++ component)

def lexicallyLoop (outSz : ℕ) : List Bytes → Bytes → Except Errno Bytes
  | [], out => .ok out
  | component :: rest, out =>
    if component = dot then lexicallyLoop outSz rest out
    else if component = dotdot then lexicallyLoop outSz rest (removeLastPathComponent out)
    else
      match appendPathComponent out outSz component with
      | .error e => .error e
      | .ok out => lexicallyLoop outSz rest out

def normalizeAbsPathLexically (path : Bytes) (outSz : ℕ) : Except Errno Bytes :=
  if path.head? ≠ some slash ∨ outSz < 2 then .error .einval
  else if path.length ≥ pathMax then .error .enametoolong
  else lexicallyLoop outSz (fields slash path) [slash]

variable {cs : List Bytes} {c : Bytes} {outsz : ℕ}

theorem render_nil : render [] = [slash] := rfl

theorem render_concat (cs : List Bytes) (c : Bytes) :
    render (cs ++ [c]) = (if cs = [] then [] else render cs) ++ slash :: c := by
  rw [render_eq_join (by simp), join_append, join_cons, join_nil, List.append_nil]
  split_ifs with hnil
  · rw [hnil]
    rfl
  · rw [render_eq_join hnil]

/-- The output is `/` alone exactly where nothing has been kept. -/
theorem length_render_eq_one_iff (h : ∀ c ∈ cs, Ordinary c) : (render cs).length = 1 ↔ cs = [] := by
  constructor
  · intro hone
    have hhead := head_render cs
    cases hr : render cs with
    | nil =>
      rw [hr] at hhead
      cases hhead
    | cons b r =>
      rw [hr] at hone hhead
      have hb : b = slash := Option.some.inj hhead
      have hnil : r = [] := List.length_eq_zero_iff.mp (Nat.succ.inj hone)
      exact (render_eq_slash_iff h).mp (by rw [hr, hb, hnil])
  · rintro rfl
    rfl

theorem length_render_concat (cs : List Bytes) (c : Bytes) (h : ∀ c ∈ cs, Ordinary c) :
    (render (cs ++ [c])).length =
      (render cs).length + (if (render cs).length = 1 then 0 else 1) + c.length := by
  rw [render_concat, if_congr (length_render_eq_one_iff h) rfl rfl]
  split_ifs with hnil
  · rw [hnil, render_nil, List.length_append, List.length_nil, List.length_cons,
      List.length_singleton]
    omega
  · rw [List.length_append, List.length_cons]
    omega

/-- Where the last component begins. -/
theorem strrchr_render_concat (hc : Ordinary c) :
    strrchr slash (render (cs ++ [c])) = some (if cs = [] then [] else render cs).length := by
  rw [render_concat]
  exact strrchr_append hc.1.2

theorem take_render_concat (cs : List Bytes) (c : Bytes) :
    (if (if cs = [] then [] else render cs).length = 0 then (render (cs ++ [c])).take 1
      else (render (cs ++ [c])).take (if cs = [] then [] else render cs).length) = render cs := by
  rw [render_concat]
  by_cases hnil : cs = []
  · simp [hnil, render_nil]
  · have hpos : (render cs).length ≠ 0 := by
      intro hzero
      have hhead := head_render cs
      rw [List.length_eq_zero_iff.mp hzero] at hhead
      cases hhead
    rw [if_neg hnil, if_neg hpos, List.take_left]

theorem cutAtSlash_render (h : ∀ c ∈ cs, Ordinary c) :
    cutAtSlash (render cs) = render cs.dropLast := by
  rcases cs.eq_nil_or_concat' with rfl | ⟨init, last, rfl⟩
  · rfl
  · rw [cutAtSlash, strrchr_render_concat (h last (by simp)), List.dropLast_concat]
    dsimp only
    rw [ite_not]
    exact take_render_concat init last

/-- Both ways to drop the last component agree. -/
theorem removeLastPathComponent_render (h : ∀ c ∈ cs, Ordinary c) :
    removeLastPathComponent (render cs) = render cs.dropLast := by
  rcases cs.eq_nil_or_concat' with rfl | ⟨init, last, rfl⟩
  · rfl
  · have hne : render (init ++ [last]) ≠ [slash] := fun heq =>
      absurd ((render_eq_slash_iff h).mp heq) (by simp)
    rw [removeLastPathComponent, if_neg hne, strrchr_render_concat (h last (by simp)),
      List.dropLast_concat]
    exact take_render_concat init last

theorem appendPathComponent_render (h : ∀ c ∈ cs, Ordinary c) (c : Bytes) :
    appendPathComponent (render cs) outsz c =
      if (render (cs ++ [c])).length + 1 > outsz then .error .enametoolong
      else .ok (render (cs ++ [c])) := by
  have hlen := length_render_concat cs c h
  rw [if_congr (length_render_eq_one_iff h) rfl rfl] at hlen
  unfold appendPathComponent
  rw [if_congr (render_eq_slash_iff h) rfl rfl]
  dsimp only
  by_cases hnil : cs = []
  · subst hnil
    simp only [if_true, ne_eq, not_true, if_false] at hlen ⊢
    have hout : render [] ++ c = render ([] ++ [c]) := by
      rw [render_concat, render_nil]
      rfl
    rw [hout]
    exact if_congr (by omega) rfl rfl
  · simp only [if_neg hnil, ne_eq, one_ne_zero, not_false_eq_true, if_true] at hlen ⊢
    have hout : render cs ++ [slash] ++ c = render (cs ++ [c]) := by
      rw [render_concat, if_neg hnil]
      simp
    rw [hout]
    exact if_congr (by omega) rfl rfl

theorem ordinary_concat (h : ∀ c ∈ cs, Ordinary c) (hc : Ordinary c) :
    ∀ x ∈ cs ++ [c], Ordinary x := by
  intro x hx
  rcases List.mem_append.mp hx with hx | hx
  · exact h x hx
  · rwa [List.mem_singleton.mp hx]

theorem ordinary_dropLast (h : ∀ c ∈ cs, Ordinary c) : ∀ c ∈ cs.dropLast, Ordinary c :=
  fun c hc => h c (List.dropLast_subset cs hc)

variable {toks : List Bytes} {path : Bytes}

/-- The server's buffer and length, component after component. -/
theorem normalizeAbsLoop_render (h : ∀ c ∈ cs, Ordinary c) (htoks : ∀ t ∈ toks, Proper slash t) :
    normalizeAbsLoop outsz toks (render cs) (render cs).length =
      (normalizeLoop outsz toks cs).map render := by
  induction toks generalizing cs with
  | nil => rfl
  | cons tok toks ih =>
    have hrest : ∀ t ∈ toks, Proper slash t := fun t ht => htoks t (List.mem_cons_of_mem tok ht)
    rw [normalizeAbsLoop, normalizeLoop]
    by_cases hdot : tok = dot
    · rw [if_pos hdot, if_pos hdot]
      exact ih h hrest
    rw [if_neg hdot, if_neg hdot]
    by_cases hdotdot : tok = dotdot
    · rw [if_pos hdotdot, if_pos hdotdot, cutAtSlash_render h]
      exact ih (ordinary_dropLast h) hrest
    rw [if_neg hdotdot, if_neg hdotdot]
    have hlen := length_render_concat cs tok h
    rw [Nat.add_assoc] at hlen
    dsimp only
    rw [← hlen]
    by_cases hlong : (render (cs ++ [tok])).length + 1 > outsz
    · rw [if_pos hlong, if_pos hlong]
      rfl
    have hout : (if (render cs).length ≠ 1 then (render cs).take (render cs).length ++ [slash]
        else (render cs).take (render cs).length) ++ tok = render (cs ++ [tok]) := by
      rw [List.take_length, render_concat, ite_not,
        if_congr (length_render_eq_one_iff h) rfl rfl]
      split_ifs with hnil
      · rw [hnil, render_nil]
        rfl
      · simp
    rw [if_neg hlong, if_neg hlong, hout]
    exact ih (ordinary_concat h ⟨htoks tok List.mem_cons_self, hdot, hdotdot⟩) hrest

/-- The buffer of `main`, component after component. -/
theorem lexicallyLoop_render (h : ∀ c ∈ cs, Ordinary c) (htoks : ∀ t ∈ toks, Proper slash t) :
    lexicallyLoop outsz toks (render cs) = (normalizeLoop outsz toks cs).map render := by
  induction toks generalizing cs with
  | nil => rfl
  | cons tok toks ih =>
    have hrest : ∀ t ∈ toks, Proper slash t := fun t ht => htoks t (List.mem_cons_of_mem tok ht)
    rw [lexicallyLoop, normalizeLoop, appendPathComponent_render h]
    split_ifs with hdot hdotdot hlong
    · exact ih h hrest
    · rw [removeLastPathComponent_render h]
      exact ih (ordinary_dropLast h) hrest
    · rfl
    · have htok : Ordinary tok := ⟨htoks tok List.mem_cons_self, hdot, hdotdot⟩
      exact ih (ordinary_concat h htok) hrest

theorem normalizeAbsText_eq (path : Bytes) (outsz : ℕ) :
    normalizeAbsText path outsz = normalizeAbs path outsz := by
  unfold normalizeAbsText normalizeAbs
  have hnone : ∀ c ∈ ([] : List Bytes), Ordinary c := by simp
  have hloop : normalizeAbsLoop outsz (fields slash path) [slash] 1 = _ :=
    normalizeAbsLoop_render hnone fun t ht => fields_proper ht
  rw [hloop]

theorem normalizeAbsPathLexically_eq (path : Bytes) (outsz : ℕ) :
    normalizeAbsPathLexically path outsz = normalizeAbs path outsz := by
  unfold normalizeAbsPathLexically normalizeAbs
  have hnone : ∀ c ∈ ([] : List Bytes), Ordinary c := by simp
  have hloop : lexicallyLoop outsz (fields slash path) [slash] = _ :=
    lexicallyLoop_render hnone fun t ht => fields_proper ht
  rw [hloop]

/-- A normalised path: absolute, without `.`, `..` or empty components, and without a slash at
its end. -/
structure Normal (path : Bytes) : Prop where
  absolute : path.head? = some slash
  components : ∀ c ∈ fields slash path, c ≠ dot ∧ c ≠ dotdot
  noEmpty : ¬ [slash, slash] <:+: path
  noTrailing : path = [slash] ∨ path.getLast? ≠ some slash

/-- Whatever the buffer, what is kept is what the folding keeps. -/
theorem normalizeLoop_ok {out res : List Bytes} (h : normalizeLoop outsz toks out = .ok res) :
    res = resolveFrom out toks := by
  induction toks generalizing out with
  | nil => exact (Except.ok.inj h).symm
  | cons tok toks ih =>
    rw [normalizeLoop] at h
    rw [resolveFrom]
    split_ifs at h ⊢ with hdot hdotdot hlong
    · exact ih h
    · exact ih h
    · exact ih h

theorem normalizeAbs_ok {out : Bytes} (h : normalizeAbs path outsz = .ok out) :
    path.head? = some slash ∧ 2 ≤ outsz ∧ path.length < pathMax ∧ out = render (resolve path) := by
  unfold normalizeAbs at h
  split_ifs at h with hbad hlong
  rw [not_or, not_not, Nat.not_lt] at hbad
  cases hloop : normalizeLoop outsz (fields slash path) [] with
  | error e =>
    rw [hloop] at h
    cases h
  | ok res =>
    rw [hloop] at h
    refine ⟨hbad.1, hbad.2, Nat.not_le.mp hlong, ?_⟩
    rw [← Except.ok.inj h, normalizeLoop_ok hloop]
    rfl

/-- Ordinary components that fit are kept. -/
theorem normalizeLoop_ordinary {out : List Bytes} (h : ∀ t ∈ toks, t ≠ dot ∧ t ≠ dotdot)
    (hfits : ∀ n ≤ toks.length, (render (out ++ toks.take n)).length + 1 ≤ outsz) :
    normalizeLoop outsz toks out = .ok (out ++ toks) := by
  induction toks generalizing out with
  | nil => rw [List.append_nil]; rfl
  | cons tok toks ih =>
    have htok := h tok List.mem_cons_self
    have hone := hfits 1 (by simp)
    rw [List.take_succ_cons, List.take_zero] at hone
    rw [normalizeLoop, if_neg htok.1, if_neg htok.2, if_neg (by omega),
      ih (fun t ht => h t (List.mem_cons_of_mem tok ht)), List.append_assoc]
    · rfl
    · intro n hn
      have hnext := hfits (n + 1) (by simpa using hn)
      rw [List.take_succ_cons] at hnext
      simpa using hnext

theorem length_render_mono {as bs : List Bytes} (h : as <+: bs) :
    (render as).length ≤ (render bs).length := by
  obtain ⟨t, rfl⟩ := h
  by_cases has : as = []
  · subst has
    have hhead := head_render ([] ++ t)
    rw [render_nil, List.length_singleton]
    cases hr : render ([] ++ t) with
    | nil =>
      rw [hr] at hhead
      cases hhead
    | cons b r => simp
  · rw [render_eq_join has, render_eq_join (by simp [has]), join_append, List.length_append]
    exact Nat.le_add_right _ _

/-- The output of the last step was within the buffer. -/
theorem normalizeLoop_fits {out res : List Bytes} (h : normalizeLoop outsz toks out = .ok res)
    (hout : (render out).length + 1 ≤ outsz) : (render res).length + 1 ≤ outsz := by
  induction toks generalizing out with
  | nil =>
    rw [← Except.ok.inj h]
    exact hout
  | cons tok toks ih =>
    rw [normalizeLoop] at h
    split_ifs at h with hdot hdotdot hlong
    · exact ih h hout
    · have hdrop := length_render_mono (List.dropLast_prefix out)
      exact ih h (by omega)
    · exact ih h (by omega)

theorem normalizeAbs_fits {out : Bytes} (h : normalizeAbs path outsz = .ok out) :
    out.length + 1 ≤ outsz := by
  have hok := normalizeAbs_ok h
  unfold normalizeAbs at h
  split_ifs at h with hbad hlong
  cases hloop : normalizeLoop outsz (fields slash path) [] with
  | error e =>
    rw [hloop] at h
    cases h
  | ok res =>
    rw [hloop] at h
    rw [← Except.ok.inj h]
    exact normalizeLoop_fits hloop hok.2.1

/-- Normalising again changes nothing, in the same buffer. -/
theorem normalizeAbs_idem {out : Bytes} (h : normalizeAbs path outsz = .ok out) :
    normalizeAbs out outsz = .ok out := by
  obtain ⟨habs, hsz, hlen, rfl⟩ := normalizeAbs_ok h
  have hfits := normalizeAbs_fits h
  have hord : ∀ c ∈ resolve path, Ordinary c := fun c hc => ordinary_of_mem_resolve hc
  have hshort := length_render_resolve_le habs
  have hstart : ¬ ((render (resolve path)).head? ≠ some slash ∨ outsz < 2) :=
    not_or.mpr ⟨not_not.mpr (head_render _), Nat.not_lt.mpr hsz⟩
  unfold normalizeAbs
  rw [if_neg hstart, if_neg (by omega), fields_render hord,
    normalizeLoop_ordinary (fun t ht => (hord t ht).2), List.nil_append]
  · rfl
  · intro n hn
    have hmono := length_render_mono (List.take_prefix n (resolve path))
    rw [List.nil_append]
    omega

theorem getLast_render_concat (hc : Ordinary c) :
    (render (cs ++ [c])).getLast? ≠ some slash := by
  obtain ⟨init, last, hlast⟩ := c.eq_nil_or_concat'.resolve_left hc.1.1
  rw [render_concat, hlast, ← List.cons_append, ← List.append_assoc, List.getLast?_concat]
  intro heq
  apply hc.1.2
  rw [hlast, ← Option.some.inj heq]
  simp

theorem noEmpty_render (h : ∀ c ∈ cs, Ordinary c) : ¬ [slash, slash] <:+: render cs := by
  rintro ⟨s, t, heq⟩
  -- two slashes in a row would be an empty component, or one at the end
  have hf := fields_render h
  induction cs using List.reverseRecOn generalizing s t with
  | nil =>
    have hlen := congrArg List.length heq
    simp [render_nil] at hlen
    omega
  | append_singleton cs c ih =>
    have hc := h c (by simp)
    have hcs : ∀ x ∈ cs, Ordinary x := fun x hx => h x (by simp [hx])
    rw [render_concat] at heq
    have hsplit : s ++ slash :: slash :: t = (if cs = [] then [] else render cs) ++ slash :: c := by
      simpa using heq
    rcases List.append_eq_append_iff.mp hsplit with ⟨u, hu, htail⟩ | ⟨u, hu, htail⟩
    · -- both slashes lie before the last one, or the second is the last one
      cases u with
      | nil =>
        rw [List.nil_append, List.cons.injEq] at htail
        exact hc.1.2 (htail.2 ▸ List.mem_cons_self)
      | cons x u =>
        rw [List.cons_append, List.cons.injEq] at htail
        obtain ⟨rfl, htail⟩ := htail
        cases u with
        | nil =>
          by_cases hnil : cs = []
          · rw [if_pos hnil] at hu
            simp at hu
          · rw [if_neg hnil] at hu
            obtain ⟨init, last, rfl⟩ := cs.eq_nil_or_concat'.resolve_left hnil
            have hlast : (render (init ++ [last])).getLast? ≠ some slash :=
              getLast_render_concat (hcs last (by simp))
            rw [hu, List.getLast?_concat] at hlast
            exact hlast rfl
        | cons y u =>
          rw [List.cons_append, List.cons.injEq] at htail
          obtain ⟨rfl, rfl⟩ := htail
          by_cases hnil : cs = []
          · rw [if_pos hnil] at hu
            simp at hu
          · rw [if_neg hnil] at hu
            exact ih hcs s u (by rw [hu]; simp) (fields_render hcs)
    · cases u with
      | nil =>
        rw [List.nil_append, List.cons.injEq] at htail
        exact hc.1.2 (htail.2 ▸ List.mem_cons_self)
      | cons x u =>
        rw [List.cons_append, List.cons.injEq] at htail
        obtain ⟨-, rfl⟩ := htail
        exact hc.1.2 (by simp)

theorem normal_render (h : ∀ c ∈ cs, Ordinary c) : Normal (render cs) := by
  refine ⟨head_render cs, ?_, noEmpty_render h, ?_⟩
  · rw [fields_render h]
    exact fun c hc => (h c hc).2
  · rcases cs.eq_nil_or_concat' with rfl | ⟨init, last, rfl⟩
    · exact .inl rfl
    · exact .inr (getLast_render_concat (h last (by simp)))

theorem Normal.ordinary (h : Normal path) : ∀ c ∈ fields slash path, Ordinary c :=
  fun c hc => ⟨fields_proper hc, h.components c hc⟩

/-- Only rendered component lists are normalised. -/
theorem Normal.eq_render (h : Normal path) : path = render (fields slash path) := by
  rcases h.noTrailing with rfl | hlast
  · rfl
  · have hjoin := join_fields h.absolute h.noEmpty hlast
    have hne : fields slash path ≠ [] := by
      intro hnil
      rw [hnil] at hjoin
      have habs := h.absolute
      rw [← hjoin] at habs
      cases habs
    rw [render_eq_join hne, hjoin]

/-- The two normalisers are one function, for every string and every buffer that can hold a
path, and what it computes is the folding of the components. -/
theorem normalisers_agree (path : Bytes) (outsz : ℕ) :
    normalizeAbsText path outsz = normalizeAbsPathLexically path outsz ∧
      (∀ out, normalizeAbsText path outsz = .ok out →
        out = render (resolve path) ∧ Normal out ∧ out.length ≤ path.length ∧
          normalizeAbsText out outsz = .ok out) ∧
      (path.head? = some slash → path.length < pathMax →
        normalizeAbsText path pathMax = .ok (render (resolve path))) := by
  rw [normalizeAbsText_eq, normalizeAbsPathLexically_eq]
  refine ⟨rfl, ?_, ?_⟩
  · intro out hout
    obtain ⟨habs, -, -, rfl⟩ := normalizeAbs_ok hout
    rw [normalizeAbsText_eq]
    exact ⟨rfl, normal_render fun c hc => ordinary_of_mem_resolve hc,
      length_render_resolve_le habs, normalizeAbs_idem hout⟩
  · intro habs hlen
    rw [normalizeAbsText_eq]
    exact normalizeAbs_eq habs hlen

end Ecopy.Path
