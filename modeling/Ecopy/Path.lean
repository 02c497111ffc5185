import Ecopy.Lib.Fields
import Ecopy.Protocol.Codec

/-!
# Lexical paths

A path is a C string, here a list of bytes. `normalizeAbs` follows
`normalize_abs` of the server: it splits an absolute path at slashes, drops `.`,
lets `..` remove the last component that was kept, and checks the size of the
output buffer at every step. The output is kept as its list of components and
rendered at the end; the source keeps it rendered, which is the same since a
component holds no slash.

`normalizeAbs_eq` says what it computes: the buffer check never fails for
buffers of `PATH_MAX` bytes, because the output is never longer than the input.
-/
namespace Ecopy.Path
open Lib.Fields
open Protocol (Bytes)

inductive Errno where
  | einval
  | enametoolong
  | eacces
  | enoent
  | enotdir
  | eexist
  | eisdir
  | eio
  | eperm
  | ebadf
  | eloop
  | enotempty
  | enomem
  | enospc
  | eopnotsupp
  | enosys
  | exdev
deriving DecidableEq, Repr

def slash : UInt8 := 47
def dot : Bytes := [46]
def dotdot : Bytes := [46, 46]
def pathMax : ℕ := 4096

/-- An absolute path from its components. -/
def render (cs : List Bytes) : Bytes := if cs = [] then [slash] else join slash cs

def normalizeLoop (outsz : ℕ) : List Bytes → List Bytes → Except Errno (List Bytes)
  | [], out => .ok out
  | tok :: toks, out =>
    if tok = dot then normalizeLoop outsz toks out
    else if tok = dotdot then normalizeLoop outsz toks out.dropLast
    else if (render (out ++ [tok])).length + 1 > outsz then .error .enametoolong
    else normalizeLoop outsz toks (out ++ [tok])

def normalizeAbs (path : Bytes) (outsz : ℕ) : Except Errno Bytes :=
  if path.head? ≠ some slash ∨ outsz < 2 then .error .einval
  else if path.length ≥ pathMax then .error .enametoolong
  else (normalizeLoop outsz (fields slash path) []).map render

/-- Resolution of `.` and `..` without any buffer, starting below `out`. -/
def resolveFrom : List Bytes → List Bytes → List Bytes
  | out, [] => out
  | out, tok :: toks =>
    if tok = dot then resolveFrom out toks
    else if tok = dotdot then resolveFrom out.dropLast toks
    else resolveFrom (out ++ [tok]) toks

/-- The components an absolute path stands for. -/
def resolve (path : Bytes) : List Bytes := resolveFrom [] (fields slash path)

variable {path : Bytes} {cs : List Bytes}

theorem exists_tail_of_abs (h : path.head? = some slash) : ∃ tail, path = slash :: tail := by
  cases path with
  | nil => cases h
  | cons c tail =>
    simp only [List.head?_cons, Option.some.injEq] at h
    exact ⟨tail, by rw [h]⟩

theorem length_render_le {n : ℕ} (h : (join slash cs).length ≤ n) (hn : 1 ≤ n) :
    (render cs).length ≤ n := by
  unfold render
  split_ifs
  · exact hn
  · exact h

theorem length_join_dropLast_le (cs : List Bytes) :
    (join slash cs.dropLast).length ≤ (join slash cs).length := by
  rcases cs.eq_nil_or_concat with rfl | ⟨init, last, rfl⟩
  · simp
  · simp

/-- The output never outgrows the part of the input already read. -/
theorem normalizeLoop_eq {outsz : ℕ} {toks out : List Bytes}
    (h : (join slash out).length + (join slash toks).length + 1 ≤ outsz) (hsz : 2 ≤ outsz) :
    normalizeLoop outsz toks out = .ok (resolveFrom out toks) := by
  induction toks generalizing out with
  | nil => rfl
  | cons tok toks ih =>
    simp only [join_cons, List.length_cons, List.length_append] at h
    simp only [normalizeLoop, resolveFrom]
    split_ifs with hdot hdotdot hlong
    · exact ih (by omega)
    · have hdrop := length_join_dropLast_le out
      exact ih (by omega)
    · have hjoin : (join slash (out ++ [tok])).length ≤ outsz - 1 := by
        simp only [join_append, join_cons, join_nil, List.length_append, List.length_cons,
          List.length_nil]
        omega
      have hren := length_render_le hjoin (by omega)
      omega
    · refine ih ?_
      simp only [join_append, join_cons, join_nil, List.length_append, List.length_cons,
        List.length_nil]
      omega

theorem mem_resolveFrom {out toks : List Bytes} {c : Bytes} (h : c ∈ resolveFrom out toks) :
    c ∈ out ∨ c ∈ toks ∧ c ≠ dot ∧ c ≠ dotdot := by
  induction toks generalizing out with
  | nil => exact Or.inl h
  | cons tok toks ih =>
    simp only [resolveFrom] at h
    split_ifs at h with hdot hdotdot
    · rcases ih h with h | ⟨h, hne⟩
      · exact Or.inl h
      · exact Or.inr ⟨List.mem_cons_of_mem tok h, hne⟩
    · rcases ih h with h | ⟨h, hne⟩
      · exact Or.inl (List.dropLast_subset out h)
      · exact Or.inr ⟨List.mem_cons_of_mem tok h, hne⟩
    · rcases ih h with h | ⟨h, hne⟩
      · rcases List.mem_append.mp h with h | h
        · exact Or.inl h
        · rw [List.mem_singleton] at h
          subst h
          exact Or.inr ⟨List.mem_cons_self, hdot, hdotdot⟩
      · exact Or.inr ⟨List.mem_cons_of_mem tok h, hne⟩

theorem length_join_resolveFrom_le (out toks : List Bytes) :
    (join slash (resolveFrom out toks)).length ≤
      (join slash out).length + (join slash toks).length := by
  induction toks generalizing out with
  | nil => simp [resolveFrom]
  | cons tok toks ih =>
    simp only [resolveFrom, join_cons, List.length_cons, List.length_append]
    split_ifs
    · have := ih out
      omega
    · have := ih out.dropLast
      have := length_join_dropLast_le out
      omega
    · have := ih (out ++ [tok])
      simp only [join_append, join_cons, join_nil, List.length_append, List.length_cons,
        List.length_nil] at this
      omega

/-- A component of a resolved path is an ordinary name taken from the path. -/
theorem mem_resolve {c : Bytes} (h : c ∈ resolve path) :
    Proper slash c ∧ c ≠ dot ∧ c ≠ dotdot ∧ ∀ b ∈ c, b ∈ path := by
  rcases mem_resolveFrom h with h | ⟨h, hdot, hdotdot⟩
  · cases h
  · exact ⟨fields_proper h, hdot, hdotdot, fun b hb => mem_of_mem_fields h hb⟩

theorem length_render_resolve_le (habs : path.head? = some slash) :
    (render (resolve path)).length ≤ path.length := by
  obtain ⟨tail, rfl⟩ := exists_tail_of_abs habs
  have hjoin := length_join_resolveFrom_le [] (fields slash (slash :: tail))
  have hfields := length_join_fields_of_sep_cons slash tail
  rw [join_nil, List.length_nil, Nat.zero_add] at hjoin
  exact length_render_le (Nat.le_trans hjoin hfields) (by simp)

theorem mem_join {b : UInt8} (h : b ∈ join slash cs) : b = slash ∨ ∃ c ∈ cs, b ∈ c := by
  simp only [join, List.mem_flatMap, List.mem_cons] at h
  obtain ⟨c, hc, rfl | hb⟩ := h
  · exact Or.inl rfl
  · exact Or.inr ⟨c, hc, hb⟩

theorem nul_free_render_resolve (h : 0 ∉ path) : 0 ∉ render (resolve path) := by
  intro hmem
  unfold render at hmem
  split_ifs at hmem
  · simp [slash] at hmem
  · rcases mem_join hmem with h0 | ⟨c, hc, h0⟩
    · simp [slash] at h0
    · exact h ((mem_resolve hc).2.2.2 0 h0)

/-- For output buffers of `PATH_MAX` bytes normalisation fails only on relative
and on over-long paths. -/
theorem normalizeAbs_eq (habs : path.head? = some slash) (hlen : path.length < pathMax) :
    normalizeAbs path pathMax = .ok (render (resolve path)) := by
  obtain ⟨tail, rfl⟩ := exists_tail_of_abs habs
  have hfields := length_join_fields_of_sep_cons slash tail
  have hloop : normalizeLoop pathMax (fields slash (slash :: tail)) [] =
      .ok (resolve (slash :: tail)) := by
    refine normalizeLoop_eq ?_ (by decide)
    simp only [join_nil, List.length_nil, Nat.zero_add]
    omega
  unfold normalizeAbs
  rw [if_neg (by simp [pathMax]), if_neg (Nat.not_le.mpr hlen), hloop]
  rfl

theorem normalizeAbs_relative {outsz : ℕ} (h : path.head? ≠ some slash) :
    normalizeAbs path outsz = .error .einval :=
  if_pos (Or.inl h)

theorem normalizeAbs_long (habs : path.head? = some slash) (hlen : pathMax ≤ path.length) :
    normalizeAbs path pathMax = .error .enametoolong := by
  unfold normalizeAbs
  rw [if_neg (by simp [habs, pathMax]), if_pos hlen]

/-- A component that a resolved path can have. -/
def Ordinary (c : Bytes) : Prop := Proper slash c ∧ c ≠ dot ∧ c ≠ dotdot

theorem ordinary_of_mem_resolve {c : Bytes} (h : c ∈ resolve path) : Ordinary c := by
  obtain ⟨hproper, hdot, hdotdot, -⟩ := mem_resolve h
  exact ⟨hproper, hdot, hdotdot⟩

theorem resolveFrom_ordinary {out : List Bytes} (h : ∀ c ∈ cs, Ordinary c) :
    resolveFrom out cs = out ++ cs := by
  induction cs generalizing out with
  | nil => simp [resolveFrom]
  | cons c cs ih =>
    have hc := h c (by simp)
    rw [resolveFrom, if_neg hc.2.1, if_neg hc.2.2, ih fun x hx => h x (by simp [hx])]
    simp

theorem fields_render (h : ∀ c ∈ cs, Ordinary c) : fields slash (render cs) = cs := by
  unfold render
  split_ifs with hnil
  · rw [hnil]
    rfl
  · exact fields_join fun c hc => (h c hc).1

/-- Normalised paths stand for the components they were rendered from. -/
theorem resolve_render (h : ∀ c ∈ cs, Ordinary c) : resolve (render cs) = cs := by
  rw [resolve, fields_render h, resolveFrom_ordinary h, List.nil_append]

/-- The name `base` in the directory `dir`, as the `*at` calls see it. No
object has an empty name. -/
def atDir (dir base : Bytes) : Bytes := if base = [] then [] else dir ++ slash :: base

theorem resolve_append (h : ∀ c ∈ cs, Ordinary c) (name : Bytes) :
    resolve (render cs ++ slash :: name) = resolveFrom cs (fields slash name) := by
  have hsplit : ∀ out cs' rest : List Bytes, (∀ c ∈ cs', Ordinary c) →
      resolveFrom out (cs' ++ rest) = resolveFrom (out ++ cs') rest := by
    intro out cs' rest
    induction cs' generalizing out with
    | nil => simp
    | cons c cs' ih =>
      intro hcs
      have hc := hcs c (by simp)
      rw [List.cons_append, resolveFrom, if_neg hc.2.1, if_neg hc.2.2,
        ih _ fun x hx => hcs x (by simp [hx])]
      simp
  rw [resolve, fields_append_sep, fields_render h, hsplit [] cs _ h, List.nil_append]

theorem resolve_atDir (h : ∀ c ∈ cs, Ordinary c) {name : Bytes} (hname : Ordinary name) :
    resolve (atDir (render cs) name) = cs ++ [name] := by
  rw [atDir, if_neg hname.1.1, resolve_append h, fields_of_sep_free hname.1.2 hname.1.1]
  exact resolveFrom_ordinary fun c hc => by rwa [List.mem_singleton.mp hc]

def pathUnderRoot (root norm : Bytes) : Bool :=
  if root = [slash] then norm.head? == some slash
  else root.isPrefixOf norm &&
    match norm.drop root.length with
    | [] => true
    | b :: _ => b == slash

/-- Normalise and confine. -/
def resolvePath (root path : Bytes) : Except Errno Bytes :=
  match normalizeAbs path pathMax with
  | .error e => .error e
  | .ok out => if pathUnderRoot root out then .ok out else .error .eacces

theorem head_render (cs : List Bytes) : (render cs).head? = some slash := by
  unfold render
  split_ifs with h
  · rfl
  · cases cs with
    | nil => exact absurd rfl h
    | cons c cs => rfl

theorem render_eq_join (h : cs ≠ []) : render cs = join slash cs := if_neg h

theorem render_eq_slash_iff (h : ∀ c ∈ cs, Ordinary c) : render cs = [slash] ↔ cs = [] := by
  constructor
  · intro heq
    have hf := fields_render h
    rw [heq] at hf
    exact hf.symm
  · intro heq
    rw [heq]
    rfl

/-- The textual test is the component-wise one. -/
theorem pathUnderRoot_iff {r : List Bytes} (hr : ∀ c ∈ r, Ordinary c) (hcs : ∀ c ∈ cs, Ordinary c) :
    pathUnderRoot (render r) (render cs) = true ↔ r <+: cs := by
  unfold pathUnderRoot
  by_cases hnil : r = []
  · subst hnil
    rw [if_pos ((render_eq_slash_iff hr).mpr rfl), head_render]
    simp
  rw [if_neg fun h => hnil ((render_eq_slash_iff hr).mp h), render_eq_join hnil]
  have hfree : ∀ xs : List Bytes, (∀ c ∈ xs, Ordinary c) → ∀ c ∈ xs, slash ∉ c :=
    fun xs hxs c hc => (hxs c hc).1.2
  constructor
  · intro h
    rw [Bool.and_eq_true, List.isPrefixOf_iff_prefix] at h
    obtain ⟨⟨t, ht⟩, hbound⟩ := h
    rw [← ht, List.drop_left] at hbound
    have htail : t = [] ∨ t.head? = some slash := by
      cases t with
      | nil => exact .inl rfl
      | cons b t => exact .inr (congrArg some (beq_iff_eq.mp hbound))
    have hne : cs ≠ [] := by
      rintro rfl
      -- `/` would have to start with the longer root
      rcases r with _ | ⟨x, r⟩
      · exact hnil rfl
      · have hx := (hr x (by simp)).1.1
        rcases x with _ | ⟨b, x⟩
        · exact hx rfl
        · simp [render] at ht
    rw [render_eq_join hne] at ht
    exact prefix_of_join_append (hfree r hr) (hfree cs hcs) htail ht
  · rintro ⟨t, rfl⟩
    have hne : r ++ t ≠ [] := by simp [hnil]
    rw [render_eq_join hne, join_append, Bool.and_eq_true, List.isPrefixOf_iff_prefix,
      List.drop_left]
    refine ⟨List.prefix_append _ _, ?_⟩
    cases t with
    | nil => rfl
    | cons c t => simp

theorem resolvePath_eq_ok {r : List Bytes} (hr : ∀ c ∈ r, Ordinary c) {path out : Bytes}
    (h : resolvePath (render r) path = .ok out) :
    out = render (resolve path) ∧ r <+: resolve path ∧ out.length < pathMax := by
  unfold resolvePath at h
  by_cases habs : path.head? = some slash
  · by_cases hlen : path.length < pathMax
    · rw [normalizeAbs_eq habs hlen] at h
      simp only at h
      split_ifs at h with hunder
      have hout : out = render (resolve path) := (Except.ok.inj h).symm
      refine ⟨hout, (pathUnderRoot_iff hr fun c hc => ordinary_of_mem_resolve hc).mp hunder, ?_⟩
      rw [hout]
      exact Nat.lt_of_le_of_lt (length_render_resolve_le habs) hlen
    · rw [normalizeAbs_long habs (Nat.not_lt.mp hlen)] at h
      cases h
  · rw [normalizeAbs_relative habs] at h
    cases h

def splitDirBase (path : Bytes) : Bytes × Bytes :=
  let base := (path.reverse.takeWhile (· != slash)).reverse
  if base.length = path.length then (dot, path)
  else
    let dir := path.take (path.length - base.length - 1)
    (if dir = [] then [slash] else dir, base)

theorem splitDirBase_append {dir base : Bytes} (h : slash ∉ base) :
    splitDirBase (dir ++ slash :: base) = (if dir = [] then [slash] else dir, base) := by
  have hbase : ((dir ++ slash :: base).reverse.takeWhile (· != slash)).reverse = base := by
    have hall : ∀ b ∈ base.reverse, (b != slash) = true := by
      intro b hb
      rw [List.mem_reverse] at hb
      exact bne_iff_ne.mpr fun heq => h (heq ▸ hb)
    rw [List.reverse_append, List.reverse_cons, List.append_assoc,
      List.takeWhile_append_of_pos hall]
    simp
  simp only [splitDirBase, hbase]
  have hlen : (dir ++ slash :: base).length - base.length - 1 = dir.length := by
    simp only [List.length_append, List.length_cons]
    omega
  rw [if_neg (by simp only [List.length_append, List.length_cons]; omega), hlen, List.take_left]

theorem splitDirBase_render {c : Bytes} (hc : Ordinary c) :
    splitDirBase (render (cs ++ [c])) = (render cs, c) := by
  have hne : cs ++ [c] ≠ [] := by simp
  rw [render_eq_join hne, join_append, join_cons, join_nil, List.append_nil,
    splitDirBase_append hc.1.2]
  congr 1
  unfold render
  cases cs with
  | nil => rfl
  | cons x cs => simp

theorem splitDirBase_slash : splitDirBase (render []) = ([slash], []) := by decide

end Ecopy.Path
