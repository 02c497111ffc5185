import Ecopy.FileSystem
import Mathlib.Data.List.Induction

/-!
# Walking a path

`lstatPath` resolves an absolute path as the kernel does: component by component
from the top directory, through symlinks, with `..` as the parent of the
directory that has been reached. A symlink at the end is followed only when a
slash comes after it, and what stands before a slash or a dot has to be a
directory. Forty symlinks are followed at most.

The walk agrees with the lexical resolution on paths without `..` that end in a
name (`walk_clean`), and in states without symlinks as long as every directory
on the way exists (`walk_through`, `walk_plain`).
-/
namespace Ecopy.FileSystem.Fs
open Protocol (Bytes)
open Ecopy.Path Lib.Fields

def walkWith (fs : Fs) (follow : Bool) (jump : Loc → List Bytes → Except Errno Loc) :
    Loc → List Bytes → Except Errno Loc
  | cur, [] => .ok cur
  | cur, c :: rest =>
    if fs.isDir cur = false then .error .enotdir
    else if c = dot then fs.walkWith follow jump cur rest
    else if c = dotdot then fs.walkWith follow jump cur.dropLast rest
    else
      match fs.entry (cur ++ [c]) with
      | none => .error .enoent
      | some i =>
        match (fs.node i).kind with
        | .symlink target =>
          if rest = [] ∧ follow = false then .ok (cur ++ [c])
          else if target = [] then .error .enoent
          else jump (if target.head? = some slash then [] else cur)
            (fields slash target ++ rest)
        | _ => fs.walkWith follow jump (cur ++ [c]) rest

/-- The walk with a bound on the symlinks that are followed. -/
def walk (fs : Fs) (follow : Bool) : ℕ → Loc → List Bytes → Except Errno Loc
  | 0 => fs.walkWith follow fun _ _ => .error .eloop
  | budget + 1 => fs.walkWith follow (fs.walk follow budget)

def lstatPath (fs : Fs) (path : Bytes) : Except Errno (ℕ × Node) :=
  let slashed := path.getLast? == some slash
  match fs.walk slashed 40 [] (fields slash path) with
  | .error e => .error e
  | .ok l =>
    if slashed && !fs.isDir l then .error .enotdir
    else
      match fs.entry l with
      | none => .error .enoent
      | some i => .ok (i, fs.node i)

section Clean
variable {fs : Fs} {follow : Bool} {jump : Loc → List Bytes → Except Errno Loc}

/-- Components that end in a name, or nothing at all. -/
def Tidy (cs : List Bytes) : Prop := dotdot ∉ cs ∧ cs.getLast? ≠ some dot

def clean (cs : List Bytes) : List Bytes := cs.filter (· ≠ dot)

theorem Tidy.tail {c : Bytes} {cs : List Bytes} (h : Tidy (c :: cs)) : Tidy cs := by
  refine ⟨fun hm => h.1 (List.mem_cons_of_mem c hm), ?_⟩
  intro hl
  apply h.2
  rw [List.getLast?_cons, hl]
  rfl

theorem clean_eq_nil_iff {cs : List Bytes} (h : Tidy cs) : clean cs = [] ↔ cs = [] := by
  constructor
  · intro hnil
    rcases cs.eq_nil_or_concat with hcs | ⟨init, c, hcs⟩
    · exact hcs
    · rw [List.concat_eq_append] at hcs
      subst hcs
      have hc : c ≠ dot := by
        intro heq
        exact h.2 (by simp [heq])
      simp [clean, hc] at hnil
  · rintro rfl
    rfl

/-- Dots in a tidy rest make no difference: the name after them needs the same
directory. -/
theorem walkWith_clean (hjump : ∀ cur pre post, Tidy post →
    jump cur (pre ++ post) = jump cur (pre ++ clean post)) (cur : Loc) (pre : List Bytes)
    {post : List Bytes} (hpost : Tidy post) :
    fs.walkWith follow jump cur (pre ++ post) = fs.walkWith follow jump cur (pre ++ clean post) := by
  induction pre generalizing cur with
  | nil =>
    simp only [List.nil_append]
    induction post generalizing cur with
    | nil => rfl
    | cons c post ih =>
      have htail := hpost.tail
      have hparent : c ≠ dotdot := fun heq => hpost.1 (heq ▸ List.mem_cons_self)
      by_cases hc : c = dot
      · have hne : post ≠ [] := by
          rintro rfl
          exact hpost.2 (by simp [hc])
        have hclean : clean (c :: post) = clean post := by simp [clean, hc]
        rw [hclean, walkWith, if_pos hc, ih htail cur]
        split
        · -- the rest starts with a component that asks for the same directory
          rename_i hdir
          cases hcs : clean post with
          | nil => exact absurd ((clean_eq_nil_iff htail).mp hcs) hne
          | cons d ds => rw [walkWith, if_pos hdir]
        · rfl
      · have hclean : clean (c :: post) = c :: clean post := by simp [clean, hc]
        have hempty : clean post = [] ↔ post = [] := clean_eq_nil_iff htail
        rw [hclean, walkWith, walkWith]
        simp only [if_neg hc, if_neg hparent, hempty, hjump _ _ _ htail, ih htail]
  | cons c pre ih =>
    have hempty : pre ++ clean post = [] ↔ pre ++ post = [] := by
      rw [List.append_eq_nil_iff, List.append_eq_nil_iff, clean_eq_nil_iff hpost]
    simp only [List.cons_append, walkWith, ih, hempty, ← List.append_assoc]
    simp only [hjump _ _ _ hpost]

theorem walk_clean (fs : Fs) (follow : Bool) (budget : ℕ) (cur : Loc) (pre : List Bytes)
    {post : List Bytes} (hpost : Tidy post) :
    fs.walk follow budget cur (pre ++ post) = fs.walk follow budget cur (pre ++ clean post) := by
  induction budget generalizing cur pre post with
  | zero => exact walkWith_clean (fun _ _ _ _ => rfl) cur pre hpost
  | succ budget ih => exact walkWith_clean (fun cur pre post h => ih cur pre h) cur pre hpost

end Clean

section Plain
variable {fs : Fs} {follow : Bool} {cur l : Loc} {cs : List Bytes} {c : Bytes}

/-- One step of the lexical resolution. -/
def lexStep (cur : Loc) (c : Bytes) : Loc :=
  if c = dot then cur else if c = dotdot then cur.dropLast else cur ++ [c]

theorem resolveFrom_cons (cur : Loc) (c : Bytes) (cs : List Bytes) :
    resolveFrom cur (c :: cs) = resolveFrom (lexStep cur c) cs := by
  unfold lexStep
  rw [resolveFrom]
  split
  · rfl
  split
  · rfl
  · rfl

theorem resolveFrom_append (cur : Loc) (cs ds : List Bytes) :
    resolveFrom cur (cs ++ ds) = resolveFrom (resolveFrom cur cs) ds := by
  induction cs generalizing cur with
  | nil => rfl
  | cons c cs ih => rw [List.cons_append, resolveFrom_cons, resolveFrom_cons, ih]

/-- Where the lexical resolution has been, the end included. -/
def visited : Loc → List Bytes → List Loc
  | cur, [] => [cur]
  | cur, c :: cs => cur :: visited (lexStep cur c) cs

theorem walk_nil (budget : ℕ) : fs.walk follow budget cur [] = .ok cur := by
  cases budget with
  | zero => rfl
  | succ budget => rfl

/-- A step that meets no symlink. -/
theorem walk_cons (budget : ℕ) (hdir : fs.isDir cur = true)
    (hnext : c ≠ dot → c ≠ dotdot →
      ∃ i, fs.entry (cur ++ [c]) = some i ∧ ∀ t, (fs.node i).kind ≠ .symlink t) :
    fs.walk follow budget cur (c :: cs) = fs.walk follow budget (lexStep cur c) cs := by
  have hstep : ∀ jump, fs.walkWith follow jump cur (c :: cs) =
      fs.walkWith follow jump (lexStep cur c) cs := by
    intro jump
    unfold lexStep
    rw [walkWith, if_neg (by simp [hdir])]
    split
    · rfl
    split
    · rfl
    rename_i hdot hparent
    obtain ⟨i, hi, hkind⟩ := hnext hdot hparent
    rw [hi]
    simp only
  cases budget with
  | zero => exact hstep _
  | succ budget => exact hstep _

/-- What stops a walk that meets no symlink. -/
theorem walk_cons_error (budget : ℕ)
    (h : fs.isDir cur = false ∨ (c ≠ dot ∧ c ≠ dotdot ∧ fs.entry (cur ++ [c]) = none)) :
    ∃ e, fs.walk follow budget cur (c :: cs) = .error e := by
  have hstep : ∀ jump, ∃ e, fs.walkWith follow jump cur (c :: cs) = .error e := by
    intro jump
    rw [walkWith]
    split
    · exact ⟨_, rfl⟩
    · rename_i hdir
      obtain ⟨hdot, hparent, hnone⟩ := h.resolve_left hdir
      refine ⟨.enoent, ?_⟩
      rw [if_neg hdot, if_neg hparent, hnone]
  cases budget with
  | zero => exact hstep _
  | succ budget => exact hstep _

theorem isDir_iff : fs.isDir l = true ↔ ∃ i, fs.entry l = some i ∧ (fs.node i).isDir = true := by
  unfold isDir
  cases fs.entry l with
  | none => simp
  | some i => simp

theorem head_mem_visited (cur : Loc) (cs : List Bytes) : cur ∈ visited cur cs := by
  cases cs with
  | nil => exact List.mem_cons_self
  | cons c cs => exact List.mem_cons_self

theorem last_mem_visited (cur : Loc) (cs : List Bytes) : resolveFrom cur cs ∈ visited cur cs := by
  induction cs generalizing cur with
  | nil => exact List.mem_cons_self
  | cons c cs ih =>
    rw [resolveFrom_cons]
    exact List.mem_cons_of_mem cur (ih _)

/-- Where all directories exist the walk is the lexical resolution. -/
theorem walk_append (budget : ℕ) {rest : List Bytes} (h : ∀ v ∈ visited cur cs, fs.isDir v = true) :
    fs.walk follow budget cur (cs ++ rest) = fs.walk follow budget (resolveFrom cur cs) rest := by
  induction cs generalizing cur with
  | nil => rfl
  | cons c cs ih =>
    have hrest : ∀ v ∈ visited (lexStep cur c) cs, fs.isDir v = true :=
      fun v hv => h v (List.mem_cons_of_mem cur hv)
    have hnext := hrest _ (head_mem_visited _ _)
    rw [List.cons_append, walk_cons budget (h cur List.mem_cons_self), ih hrest, resolveFrom_cons]
    intro hdot hparent
    rw [lexStep, if_neg hdot, if_neg hparent] at hnext
    obtain ⟨i, hi, hnode⟩ := isDir_iff.mp hnext
    refine ⟨i, hi, ?_⟩
    intro t ht
    rw [Node.isDir_iff, ht] at hnode
    cases hnode

theorem walk_through (budget : ℕ) (h : ∀ v ∈ visited cur cs, fs.isDir v = true) :
    fs.walk follow budget cur cs = .ok (resolveFrom cur cs) := by
  have happ : fs.walk follow budget cur (cs ++ []) = fs.walk follow budget (resolveFrom cur cs) [] :=
    walk_append budget h
  rwa [List.append_nil, walk_nil] at happ

/-- A final name that is not followed only has to exist. -/
theorem walk_last (budget : ℕ) (hdir : fs.isDir cur = true) (hdot : c ≠ dot) (hparent : c ≠ dotdot)
    (he : (fs.entry (cur ++ [c])).isSome = true) :
    fs.walk false budget cur [c] = .ok (cur ++ [c]) := by
  obtain ⟨i, hi⟩ := Option.isSome_iff_exists.mp he
  have hstep : ∀ jump, fs.walkWith false jump cur [c] = .ok (cur ++ [c]) := by
    intro jump
    rw [walkWith, if_neg (by simp [hdir]), if_neg hdot, if_neg hparent, hi]
    simp only
    split
    · simp
    · rfl
  cases budget with
  | zero => exact hstep _
  | succ budget => exact hstep _

/-- A symlink with more to come is followed. -/
theorem walk_symlink (budget : ℕ) {i : ℕ} {t : Bytes} {rest : List Bytes}
    (hdir : fs.isDir cur = true) (hdot : c ≠ dot) (hparent : c ≠ dotdot)
    (hi : fs.entry (cur ++ [c]) = some i) (hkind : (fs.node i).kind = .symlink t)
    (habs : t.head? = some slash) (hrest : rest ≠ []) :
    fs.walk follow (budget + 1) cur (c :: rest) =
      fs.walk follow budget [] (fields slash t ++ rest) := by
  have hne : t ≠ [] := by
    rintro rfl
    cases habs
  rw [walk, walkWith, if_neg (by simp [hdir]), if_neg hdot, if_neg hparent, hi]
  simp only [hkind, hrest, hne, habs, false_and, if_false, if_true]

/-- Without symlinks the walk can only follow the lexical resolution, and it
needs a directory wherever another component comes. -/
theorem walk_plain {budget : ℕ} (hplain : ∀ i t, (fs.node i).kind ≠ .symlink t)
    (h : fs.walk follow budget cur cs = .ok l) :
    l = resolveFrom cur cs ∧ ∀ v ∈ (visited cur cs).dropLast, fs.isDir v = true := by
  induction cs generalizing cur with
  | nil =>
    rw [walk_nil] at h
    exact ⟨(Except.ok.inj h).symm, fun v hv => nomatch hv⟩
  | cons c cs ih =>
    by_cases hstop : fs.isDir cur = false ∨
        (c ≠ dot ∧ c ≠ dotdot ∧ fs.entry (cur ++ [c]) = none)
    · have herror : ∃ e, fs.walk follow budget cur (c :: cs) = .error e :=
        walk_cons_error budget hstop
      obtain ⟨e, he⟩ := herror
      rw [he] at h
      cases h
    · rw [not_or] at hstop
      have hdir : fs.isDir cur = true := by simpa using hstop.1
      have hnext : c ≠ dot → c ≠ dotdot →
          ∃ i, fs.entry (cur ++ [c]) = some i ∧ ∀ t, (fs.node i).kind ≠ .symlink t := by
        intro hdot hparent
        cases he : fs.entry (cur ++ [c]) with
        | none => exact absurd ⟨hdot, hparent, he⟩ hstop.2
        | some i => exact ⟨i, rfl, hplain i⟩
      rw [walk_cons budget hdir hnext] at h
      obtain ⟨hl, hdirs⟩ := ih h
      rw [resolveFrom_cons]
      refine ⟨hl, ?_⟩
      intro v hv
      have hne : visited (lexStep cur c) cs ≠ [] := by
        cases cs with
        | nil => simp [visited]
        | cons d ds => simp [visited]
      rw [visited, List.dropLast_cons_of_ne_nil hne] at hv
      rcases List.mem_cons.mp hv with rfl | hv
      · exact hdir
      · exact hdirs v hv

end Plain

section Pops
variable {cur : Loc} {cs ds : List Bytes} {c : Bytes}

/-- No `..` of the components removes anything: it stands at the top. -/
def noPops : Loc → List Bytes → Bool
  | _, [] => true
  | cur, c :: cs =>
    if c = dotdot then cur == [] && noPops [] cs else noPops (lexStep cur c) cs

theorem noPops_append : noPops cur (cs ++ ds) = (noPops cur cs && noPops (resolveFrom cur cs) ds) := by
  induction cs generalizing cur with
  | nil => rfl
  | cons c cs ih =>
    rw [List.cons_append, noPops, noPops, resolveFrom_cons]
    split
    · rename_i hc
      by_cases hcur : cur = []
      · have hstep : lexStep cur c = [] := by
          rw [hc, hcur]
          rfl
        rw [hstep, ih, Bool.and_assoc]
      · have hfalse : (cur == []) = false := beq_eq_false_iff_ne.mpr hcur
        rw [hfalse]
        rfl
    · exact ih

theorem noPops_ordinary (h : ∀ c ∈ cs, Ordinary c) : noPops cur cs = true := by
  induction cs generalizing cur with
  | nil => rfl
  | cons c cs ih =>
    rw [noPops, if_neg (h c List.mem_cons_self).2.2]
    exact ih fun d hd => h d (List.mem_cons_of_mem c hd)

theorem prefix_lexStep (h : c = dotdot → cur = []) : cur <+: lexStep cur c := by
  unfold lexStep
  split
  · exact List.prefix_refl cur
  split
  · rename_i hc
    rw [h hc]
    exact List.nil_prefix
  · exact List.prefix_append cur [c]

/-- Without pops the resolution only goes down. -/
theorem prefix_of_mem_visited (h : noPops cur cs = true) :
    ∀ v ∈ visited cur cs, cur <+: v ∧ v <+: resolveFrom cur cs := by
  induction cs generalizing cur with
  | nil =>
    intro v hv
    rw [List.mem_singleton.mp hv]
    exact ⟨List.prefix_refl cur, List.prefix_refl cur⟩
  | cons c cs ih =>
    intro v hv
    have hstep : cur <+: lexStep cur c ∧ noPops (lexStep cur c) cs = true := by
      rw [noPops] at h
      split at h
      · rename_i hc
        rw [Bool.and_eq_true, beq_iff_eq] at h
        have hnil : lexStep cur c = [] := by
          rw [hc, h.1]
          rfl
        rw [hnil, h.1]
        exact ⟨List.prefix_refl [], h.2⟩
      · rename_i hc
        exact ⟨prefix_lexStep fun heq => absurd heq hc, h⟩
    rw [resolveFrom_cons]
    rcases List.mem_cons.mp hv with rfl | hv
    · exact ⟨List.prefix_refl _, hstep.1.trans (ih hstep.2 _ (head_mem_visited _ _)).2⟩
    · exact ⟨hstep.1.trans (ih hstep.2 v hv).1, (ih hstep.2 v hv).2⟩

/-- Below the top a path without pops has no parent steps at all. -/
theorem below_of_noPops (h : noPops cur cs = true) (hcur : cur ≠ []) :
    dotdot ∉ cs ∧ resolveFrom cur cs = cur ++ clean cs := by
  induction cs generalizing cur with
  | nil => exact ⟨List.not_mem_nil, (List.append_nil cur).symm⟩
  | cons c cs ih =>
    rw [noPops] at h
    split at h
    · rw [Bool.and_eq_true, beq_iff_eq] at h
      exact absurd h.1 hcur
    rename_i hparent
    have hnext : lexStep cur c ≠ [] := by
      intro hnil
      have hle : cur <+: lexStep cur c := prefix_lexStep fun heq => absurd heq hparent
      rw [hnil] at hle
      exact hcur (List.prefix_nil.mp hle)
    obtain ⟨hnot, hres⟩ := ih h hnext
    constructor
    · rw [List.mem_cons, not_or]
      exact ⟨fun heq => hparent heq.symm, hnot⟩
    · rw [resolveFrom_cons, hres]
      by_cases hdot : c = dot
      · simp [lexStep, clean, hdot]
      · simp [lexStep, clean, hdot, hparent]

/-- A path without pops that does not end in a dot is walked like the path it
resolves to. -/
theorem walk_straight {fs : Fs} (follow : Bool) (budget : ℕ) (htop : fs.isDir [] = true)
    (h : noPops [] cs = true) (hlast : cs.getLast? ≠ some dot) :
    fs.walk follow budget [] cs = fs.walk follow budget [] (resolveFrom [] cs) := by
  induction cs with
  | nil => rfl
  | cons c cs ih =>
    have hskip : lexStep [] c = [] → c = dot ∨ c = dotdot →
        fs.walk follow budget [] (c :: cs) = fs.walk follow budget [] (resolveFrom [] (c :: cs)) := by
      intro hstep hc
      have hcs : noPops [] cs = true := by
        rw [noPops, hstep] at h
        split at h
        · exact (Bool.and_eq_true _ _ ▸ h).2
        · exact h
      have hlast' : cs.getLast? ≠ some dot := by
        intro hl
        apply hlast
        rw [List.getLast?_cons, hl]
        rfl
      rw [walk_cons budget htop, resolveFrom_cons, hstep]
      · exact ih hcs hlast'
      · intro hdot hparent
        exact absurd (hc.resolve_left hdot) hparent
    by_cases hdot : c = dot
    · exact hskip (by rw [hdot]; rfl) (.inl hdot)
    by_cases hparent : c = dotdot
    · exact hskip (by rw [hparent]; rfl) (.inr hparent)
    have hstep : lexStep [] c = [c] := by simp [lexStep, hdot, hparent]
    have hcs : noPops [c] cs = true := by
      rwa [noPops, if_neg hparent, hstep] at h
    obtain ⟨hnot, hres⟩ := below_of_noPops hcs (by simp)
    have htidy : Tidy (c :: cs) := by
      constructor
      · rw [List.mem_cons, not_or]
        exact ⟨fun heq => hparent heq.symm, hnot⟩
      · exact hlast
    have hclean : clean (c :: cs) = [c] ++ clean cs := by simp [clean, hdot]
    rw [resolveFrom_cons, hstep, hres, ← hclean]
    exact walk_clean fs follow budget [] [] htidy

/-- The first pop, and the components before it. -/
theorem exists_pop (h : noPops cur cs = false) :
    ∃ us vs, cs = us ++ dotdot :: vs ∧ noPops cur us = true ∧ resolveFrom cur us ≠ [] := by
  induction cs generalizing cur with
  | nil => cases h
  | cons c cs ih =>
    by_cases hpop : c = dotdot ∧ cur ≠ []
    · exact ⟨[], cs, by rw [hpop.1]; rfl, rfl, hpop.2⟩
    · have hgo : noPops (lexStep cur c) cs = false := by
        rw [noPops] at h
        split at h
        · rename_i hc
          have hcur : cur = [] := by
            by_contra hne
            exact hpop ⟨hc, hne⟩
          have hnil : lexStep cur c = [] := by
            rw [hc, hcur]
            rfl
          rw [hnil]
          simpa [hcur] using h
        · exact h
      obtain ⟨us, vs, rfl, hus, hne⟩ := ih hgo
      refine ⟨c :: us, vs, rfl, ?_, by rwa [resolveFrom_cons]⟩
      rw [noPops]
      split
      · rename_i hc
        have hcur : cur = [] := by
          by_contra hne'
          exact hpop ⟨hc, hne'⟩
        have hnil : lexStep cur c = [] := by
          rw [hc, hcur]
          rfl
        rw [hnil] at hus
        simp [hcur, hus]
      · exact hus

/-- Where the resolution stands when another component comes. -/
theorem mem_visited_append : resolveFrom cur cs ∈ (visited cur (cs ++ c :: ds)).dropLast := by
  induction cs generalizing cur with
  | nil =>
    have hne : visited (lexStep cur c) ds ≠ [] :=
      List.ne_nil_of_mem (head_mem_visited _ _)
    rw [List.nil_append, visited, List.dropLast_cons_of_ne_nil hne]
    exact List.mem_cons_self
  | cons d cs ih =>
    have hne : visited (lexStep cur d) (cs ++ c :: ds) ≠ [] :=
      List.ne_nil_of_mem (head_mem_visited _ _)
    rw [List.cons_append, visited, List.dropLast_cons_of_ne_nil hne, resolveFrom_cons]
    exact List.mem_cons_of_mem _ ih

/-- The name that was entered last; only dots come after it. -/
theorem exists_last_push (h : noPops cur cs = true) (hne : resolveFrom cur cs ≠ [])
    (hcur : cur = []) :
    ∃ us c dots, cs = us ++ c :: dots ∧ c ≠ dot ∧ c ≠ dotdot ∧ (∀ d ∈ dots, d = dot) ∧
      resolveFrom cur cs = resolveFrom cur us ++ [c] := by
  induction cs using List.reverseRecOn with
  | nil => exact absurd hcur hne
  | append_singleton cs c ih =>
    rw [noPops_append, Bool.and_eq_true] at h
    rw [resolveFrom_append] at hne ⊢
    by_cases hdot : c = dot
    · have hsame : resolveFrom (resolveFrom cur cs) [c] = resolveFrom cur cs := by
        rw [hdot]
        rfl
      rw [hsame] at hne ⊢
      obtain ⟨us, d, dots, rfl, hd, hd', hdots, hres⟩ := ih h.1 hne
      refine ⟨us, d, dots ++ [c], by simp, hd, hd', ?_, hres⟩
      intro x hx
      rcases List.mem_append.mp hx with hx | hx
      · exact hdots x hx
      · rw [List.mem_singleton.mp hx, hdot]
    · by_cases hparent : c = dotdot
      · -- a parent step is taken at the top only
        exfalso
        have htop := h.2
        rw [noPops, if_pos hparent, Bool.and_eq_true, beq_iff_eq] at htop
        apply hne
        rw [htop.1, hparent]
        rfl
      · refine ⟨cs, c, [], rfl, hdot, hparent, fun d hd => (nomatch hd), ?_⟩
        rw [resolveFrom_cons, lexStep, if_neg hdot, if_neg hparent]
        rfl

end Pops

end Ecopy.FileSystem.Fs
