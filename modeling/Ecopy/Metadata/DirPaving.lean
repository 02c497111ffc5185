import Mathlib.Data.List.Infix
import Ecopy.Metadata.DirMakers
import Ecopy.Traversal.DestinationRoot

/-!
# The way to the destination root

Before anything is copied the directories on the way to the destination root are made, all with
the mode `0777`. The client does it for a local destination, and every server for a remote one.
-/
namespace Ecopy.Metadata.DirMakers
open Protocol Ecopy.Path FileSystem Server Lib.Calls
open DirSteps
open Traversal (Maker mkdirChild mkdirPDirLoop mkdirPDir ensureDestinationRoot localRoots Roots View)

/-- Nothing has changed but that directories were made on the way. -/
structure Paved (base : Fs) (way : List Loc) (fs : Fs) : Prop where
  tree : fs.Tree
  next : base.next ≤ fs.next
  kinds : ∀ i, i < base.next → (fs.node i).isDir = (base.node i).isDir
  kept : ∀ l i, base.entry l = some i → fs.entry l = some i
  fresh : ∀ l i, fs.entry l = some i → base.entry l = some i ∨ base.next ≤ i ∧ l ∈ way ∧
    base.entry l = none ∧ (fs.node i).isDir = true ∧ bits (fs.node i).mode = 0x1FF
  unique : ∀ l l' i, base.next ≤ i → fs.entry l = some i → fs.entry l' = some i → l = l'

section Paved
variable {base fs : Fs} {way : List Loc} {l : Loc} {n : Node}

theorem Paved.refl (ht : base.Tree) (way : List Loc) : Paved base way base where
  tree := ht
  next := le_refl _
  kinds := fun _ _ => rfl
  kept := fun _ _ h => h
  fresh := fun _ _ h => .inl h
  unique := fun l _ i hi hl _ => absurd (ht.bounded l i hl) (Nat.not_lt.mpr hi)

/-- One more directory on the way. -/
theorem Paved.create (h : Paved base way fs) (hl : fs.entry l = none) (hway : l ∈ way)
    (hp : fs.parentError l = none) (hdir : n.isDir = true) (hmode : bits n.mode = 0x1FF) :
    Paved base way (fs.create l n) := by
  have hadd : fs.add l n = .ok (fs.create l n) := by
    have hne : l ≠ [] := by
      rintro rfl
      exact absurd (h.tree.top) (by simp [Fs.isDir, hl])
    unfold Fs.add
    rw [if_neg hne, hp]
    dsimp only
    rw [hl, if_neg (by simp)]
  have hold : ∀ i, i < fs.next → (fs.create l n).node i = fs.node i :=
    fun i hi => Function.update_of_ne hi.ne _ _
  have hcases : ∀ k i, (fs.create l n).entry k = some i →
      k ≠ l ∧ fs.entry k = some i ∨ k = l ∧ i = fs.next := by
    intro k i hk
    by_cases hkl : k = l
    · subst hkl
      have hnext : fs.next = i := by simpa [Fs.create] using hk
      exact .inr ⟨rfl, hnext.symm⟩
    · exact .inl ⟨hkl, (Function.update_of_ne hkl _ _).symm.trans hk⟩
  have hnone : base.entry l = none := by
    by_contra hsome
    obtain ⟨i, hi⟩ := Option.ne_none_iff_exists'.mp hsome
    rw [h.kept l i hi] at hl
    cases hl
  constructor
  · exact h.tree.add hadd
  · exact h.next.trans (Nat.le_succ _)
  · intro i hi
    rw [hold i (hi.trans_le h.next)]
    exact h.kinds i hi
  · intro k i hk
    rcases eq_or_ne k l with rfl | hkl
    · rw [hnone] at hk
      cases hk
    · exact (Function.update_of_ne hkl _ _).trans (h.kept k i hk)
  · intro k i hk
    rcases hcases k i hk with ⟨-, hk⟩ | ⟨rfl, rfl⟩
    · rw [hold i (h.tree.bounded k i hk)]
      exact h.fresh k i hk
    · have hnode : (fs.create k n).node fs.next = n := Function.update_self _ _ _
      rw [hnode]
      exact .inr ⟨h.next, hway, hnone, hdir, hmode⟩
  · intro k k' i hi hk hk'
    rcases hcases k i hk with ⟨-, hk⟩ | ⟨rfl, rfl⟩
    · rcases hcases k' i hk' with ⟨-, hk'⟩ | ⟨-, rfl⟩
      · exact h.unique k k' i hi hk hk'
      · exact absurd (h.tree.bounded k _ hk) (lt_irrefl _)
    · rcases hcases k' _ hk' with ⟨-, hk'⟩ | ⟨rfl, -⟩
      · exact absurd (h.tree.bounded k' _ hk') (lt_irrefl _)
      · rfl

end Paved

section Local
variable {base fs fs' : Fs} {way : List Loc} {m : Maker} {cur child : Loc} {made : Bool}
variable {c : Bytes} {cs d : List Bytes}

theorem bits_newNode (who : Identity) : bits (newNode who .directory 0x1FF).mode = 0x1FF := by
  change (0x1FF : UInt32) &&& 0xFFF &&& 0x1FF = 0x1FF
  decide

theorem paved_mkdirChild (hmask : m.umask = 0) (h : Paved base way fs) (hc : Ordinary c)
    (hcur : fs.isDir cur = true) (hway : cur ++ [c] ∈ way) :
    Paved base way (mkdirChild m 0x1FF fs cur c).1 := by
  rcases Traversal.mkdirChild_fst m 0x1FF fs cur c with heq | ⟨hnone, heq⟩
  · rw [heq]
    exact h
  · have hstep : Fs.lexStep cur c = cur ++ [c] := by
      unfold Fs.lexStep
      rw [if_neg hc.2.1, if_neg hc.2.2]
    rw [heq]
    rw [hstep] at hnone ⊢
    have hmode : (0x1FF : UInt32) &&& ~~~(0 : UInt32) = 0x1FF := by decide
    rw [hmask, hmode]
    refine h.create hnone hway ?_ rfl (bits_newNode m.who)
    rw [Fs.parentError_eq_none_iff, List.dropLast_concat]
    intro k hk
    by_cases hne : k = cur
    · rw [hne]
      exact hcur
    · obtain ⟨i, hi, -⟩ := Fs.isDir_iff_entry.mp hcur
      exact h.tree.isDir_of_prefix (by rw [hi]; rfl) hk hne

theorem isDir_mkdirChild (hc : Ordinary c) (h : mkdirChild m 0x1FF fs cur c = (fs', .ok (child, made))) :
    child = cur ++ [c] ∧ fs'.isDir child = true := by
  have hstep : Fs.lexStep cur c = cur ++ [c] := by
    unfold Fs.lexStep
    rw [if_neg hc.2.1, if_neg hc.2.2]
  unfold mkdirChild at h
  dsimp only at h
  rw [hstep] at h
  split at h
  · cases h
  · split at h
    · rename_i i hi
      split at h
      · cases h
      · rename_i hdir
        split at h
        · cases h
        · cases h
          exact ⟨rfl, Fs.isDir_iff_entry.mpr ⟨i, hi, by simpa using hdir⟩⟩
    · split at h
      · cases h
      · split at h
        · cases h
        · cases h
          exact ⟨rfl, by simp [Fs.isDir, Fs.create, newNode, Node.isDir]⟩

theorem paved_mkdirPDirLoop (made : Bool) (hmask : m.umask = 0) (h : Paved base way fs)
    (hcs : ∀ x ∈ cs, Ordinary x) (hcur : fs.isDir cur = true)
    (hway : ∀ k, k <+: cur ++ cs → k ∈ way) :
    Paved base way (mkdirPDirLoop m 0x1FF fs cur cs made).1 ∧
      ∀ fs' out, mkdirPDirLoop m 0x1FF fs cur cs made = (fs', .ok out) →
        fs'.isDir (cur ++ cs) = true := by
  induction cs generalizing fs cur made with
  | nil =>
    refine ⟨h, fun fs' out heq => ?_⟩
    cases heq
    rw [List.append_nil]
    exact hcur
  | cons c cs ih =>
    have hc := hcs c List.mem_cons_self
    have hpath : cur ++ c :: cs = cur ++ [c] ++ cs := by simp
    rw [hpath] at hway ⊢
    have hchild := paved_mkdirChild hmask h hc hcur (hway _ (List.prefix_append _ _))
    rw [mkdirPDirLoop]
    split
    · rename_i fs₁ e hstep
      rw [hstep] at hchild
      exact ⟨hchild, fun fs' out heq => by cases heq⟩
    · rename_i fs₁ child made hstep
      rw [hstep] at hchild
      obtain ⟨rfl, hdir⟩ := isDir_mkdirChild hc hstep
      exact ih _ hchild (fun x hx => hcs x (List.mem_cons_of_mem c hx)) hdir hway

theorem paved_mkdirPDir (hmask : m.umask = 0) (ht : fs.Tree) {path : Bytes} {fresh : Bool}
    (hpath : ∀ x ∈ Lib.Fields.fields slash path, Ordinary x)
    (h : mkdirPDir m fs path 0x1FF = (fs', .ok fresh)) :
    Paved fs (Lib.Fields.fields slash path).inits fs' ∧
      fs'.isDir (Lib.Fields.fields slash path) = true := by
  have hway : ∀ k, k <+: [] ++ Lib.Fields.fields slash path →
      k ∈ (Lib.Fields.fields slash path).inits := fun k hk => (List.mem_inits k _).mpr hk
  have hloop := paved_mkdirPDirLoop false hmask (.refl ht _) hpath ht.top hway
  unfold mkdirPDir at h
  split at h
  · cases h
  · split at h
    · cases h
    · split at h
      · cases h
      · split at h
        · cases h
        · rename_i fs₁ cur made heq
          rw [heq] at hloop
          split at h
          · cases h
          · cases h
            exact ⟨hloop.1, hloop.2 _ _ rfl⟩

/-- The destination of a local copy. -/
theorem paved_localRoots (hmask : m.umask = 0) {v : View} {cwd : Option Bytes} {src dst : Bytes}
    {roots : Roots} {fresh : Bool}
    (h : localRoots m v cwd false src dst = (fs', some (roots, fresh))) :
    ∃ b d, roots = ⟨render b, render d⟩ ∧ (∀ x ∈ b, Ordinary x) ∧ (∀ x ∈ d, Ordinary x) ∧
      b ≠ [] ∧ Paved v.fs d.inits fs' ∧ fs'.isDir d = true := by
  rcases Traversal.localRoots_cases m v cwd false src dst with
    heq | ⟨b, d, hb, hd, hsrc, hdst, hbd, -, -, hroots⟩
  · rw [heq] at h
    cases h
  · obtain rfl := hroots roots fresh (by rw [h])
    refine ⟨b, d, rfl, hb, hd, fun hnil => hbd (hnil ▸ List.nil_prefix), ?_⟩
    unfold localRoots at h
    rw [hsrc] at h
    dsimp only at h
    rw [hdst] at h
    dsimp only at h
    split at h
    · cases h
    · rw [if_neg Bool.false_ne_true] at h
      split at h
      · cases h
      · rename_i fs₁ made heq
        obtain ⟨rfl, -⟩ := Prod.mk.inj h
        unfold ensureDestinationRoot at heq
        split at heq
        · cases heq
        · rename_i path habs
          have hfields := Traversal.fields_toAbsPath hd habs
          rw [← hfields]
          exact paved_mkdirPDir hmask v.tree (by rwa [hfields]) heq

end Local

section Servers
variable {n : ℕ} {who : Fin n → Identity} {base : Fs} {way : List Loc} {s t u : Shared n} {c : Fin n}
variable {x : Choice} {call : Call} {r : call.Result} {arg : Bytes}

structure Onset (base : Fs) (way : List Loc) (s : Shared n) : Prop where
  paved : Paved base way s.fs
  blank : ∀ c d, (s.mem c).dirCache d = none
  begun : s.begun = []

/-- What any server may do to the others while they start. -/
def Paves (base : Fs) (way : List Loc) (s t : Shared n) : Prop :=
  Onset base way s → Onset base way t ∧ ∀ l, s.fs.entry l ≠ none → t.fs.entry l ≠ none

instance : Std.Refl (Paves (n := n) base way) := ⟨fun _ hs => ⟨hs, fun _ h => h⟩⟩

instance : IsTrans (Shared n) (Paves base way) where
  trans := by
    intro s t u hst htu hs
    obtain ⟨ht, h⟩ := hst hs
    obtain ⟨hu, h'⟩ := htu ht
    exact ⟨hu, fun l hl => h' l (h l hl)⟩

def StartCall (way : List Loc) : Call → Prop
  | .lstat _ => True
  | .mkdir p mode => mode = 0x1FF ∧ resolve p ∈ way
  | _ => False

theorem parentError_of_add {fs fs' : Fs} {l : Loc} {node : Node} (h : fs.add l node = .ok fs') :
    fs.parentError l = none := by
  unfold Fs.add at h
  split at h
  · cases h
  · split at h
    · cases h
    · assumption

theorem onset_of_answer (hs : Onset base way s) (hc : StartCall way call)
    (h : answer who c s x call = some (r, t)) :
    Onset base way t ∧ ∀ l, s.fs.entry l ≠ none → t.fs.entry l ≠ none := by
  obtain ⟨⟨r', w⟩, hanswer, heq⟩ := Option.map_eq_some_iff.mp h
  obtain ⟨rfl, rfl⟩ := Prod.mk.inj heq
  have hblank : ∀ d k, ((s.store c w).mem d).dirCache k = none := by
    intro d k
    have hsame : w.dirCache = (s.view c).dirCache := by
      refine answerIds_dirCache ?_ hanswer
      cases call with
      | lstat | mkdir => rfl
      | _ => exact hc.elim
    by_cases hd : d = c
    · subst hd
      have hw : ((s.store d w).mem d).dirCache = w.dirCache := by simp [Shared.store]
      rw [hw, hsame]
      exact hs.blank d k
    · simpa [Shared.store, hd] using hs.blank d k
  cases call with
  | lstat p =>
    have hw : w = s.view c := query_eq (Option.some.inj (answer_of_plain (c := .lstat p) rfl hanswer))
    subst hw
    exact ⟨⟨hs.paved, hblank, hs.begun⟩, fun l hl => hl⟩
  | mkdir p mode =>
    obtain ⟨rfl, hway⟩ := hc
    have hmkdir : Server.answer (who c) (s.view c) x (.mkdir p (0x1FF &&& 0x3FF)) = some (r', w) :=
      hanswer
    rcases answer_mkdir hmkdir with ⟨e, -, rfl⟩ | ⟨fs, -, hadd, rfl⟩
    · exact ⟨⟨hs.paved, hblank, hs.begun⟩, fun l hl => hl⟩
    · obtain ⟨hnone, rfl⟩ := add_eq_ok hadd
      refine ⟨⟨?_, hblank, hs.begun⟩, fun l hl => ?_⟩
      · exact hs.paved.create hnone hway (parentError_of_add hadd) rfl (bits_newNode _)
      · by_cases hlp : l = resolve p
        · subst hlp
          exact absurd hnone hl
        · exact fun hgone => hl ((Function.update_of_ne hlp _ _).symm.trans hgone)
  | _ => exact hc.elim

/-- What a program that starts comes to, whatever the other servers do meanwhile. -/
abbrev Starts {α : Type} (who : Fin n → Identity) (base : Fs) (way : List Loc) (c : Fin n)
    (m : Handler α) (post : Shared n → α → Prop) (s : Shared n) : Prop :=
  m.Amid (answer who c) (fun _ _ => True) (Paves base way) (Paves base way) post s

theorem Starts.step {α : Type} {k : call.Result → Handler α} {post : Shared n → α → Prop}
    (hs : Onset base way s) (hc : StartCall way call)
    (h : ∀ t x r u, Onset base way t → answer who c t x call = some (r, u) → Onset base way u →
      Starts who base way c (k r) post u) : Starts who base way c (.call call k) post s := by
  intro t hst _ x r u hanswer
  obtain ⟨ht, -⟩ := hst hs
  obtain ⟨hu, hkept⟩ := onset_of_answer ht hc hanswer
  exact ⟨fun _ => ⟨hu, hkept⟩, h t x r u ht hanswer hu⟩

theorem Starts.bind {α β : Type} {m : Handler α} {f : α → Handler β} {mid : Shared n → α → Prop}
    {post : Shared n → β → Prop} (hs : Onset base way s) (h : Starts who base way c m mid s)
    (hf : ∀ t a, Onset base way t → mid t a → Starts who base way c (f a) post t) :
    Starts who base way c (m >>= f) post s := by
  have hkept := Prog.Amid.keep (fun _ _ htu ht => (htu ht).1) (fun _ _ h => h) h hs
  exact hkept.bind fun t a ⟨ht, hmid⟩ => hf t a ht hmid

/-- Where there is a name now, there is one later. -/
theorem starts_mkdirAll {paths done : List Bytes} (hs : Onset base way s)
    (hpaths : ∀ p ∈ paths, resolve p ∈ way) (hdone : ∀ p ∈ done, s.fs.entry (resolve p) ≠ none) :
    Starts who base way c (mkdirAll paths)
      (fun t r => r = none → ∀ p ∈ done ++ paths, t.fs.entry (resolve p) ≠ none) s := by
  induction paths generalizing s done with
  | nil =>
    intro t hst _ p hp
    rw [List.append_nil] at hp
    exact (hst hs).2 _ (hdone p hp)
  | cons p ps ih =>
    intro t hst _ x r u hanswer
    obtain ⟨ht, hmoved⟩ := hst hs
    have hcall : StartCall way (.mkdir p 0x1FF) := ⟨rfl, hpaths p List.mem_cons_self⟩
    obtain ⟨hu, hkept⟩ := onset_of_answer ht hcall hanswer
    refine ⟨fun _ => ⟨hu, hkept⟩, ?_⟩
    have hgo : u.fs.entry (resolve p) ≠ none → Starts who base way c (mkdirAll ps)
        (fun t r => r = none → ∀ q ∈ done ++ p :: ps, t.fs.entry (resolve q) ≠ none) u := by
      intro hp
      have hdone' : ∀ q ∈ done ++ [p], u.fs.entry (resolve q) ≠ none := by
        intro q hq
        rcases List.mem_append.mp hq with hq | hq
        · exact hkept _ (hmoved _ (hdone q hq))
        · rwa [List.mem_singleton.mp hq]
      have hrest := ih hu (fun q hq => hpaths q (List.mem_cons_of_mem p hq)) hdone'
      rwa [List.append_assoc] at hrest
    obtain ⟨⟨r', w⟩, hcall, heq⟩ := Option.map_eq_some_iff.mp hanswer
    obtain ⟨rfl, rfl⟩ := Prod.mk.inj heq
    cases r' with
    | ok _ =>
      have hentry : w.fs.entry (resolve p) = some _ := (mkdir_ok hcall).1.1
      exact hgo fun hgone => Option.some_ne_none _ (hentry.symm.trans hgone)
    | error e =>
      cases e with
      | eexist =>
        obtain ⟨hfs, hentry⟩ := mkdir_eexist ht.paved.tree hcall
        have hsame : w.fs.entry (resolve p) = t.fs.entry (resolve p) := by
          rw [hfs]
          rfl
        exact hgo fun hgone => hentry (hsame.symm.trans hgone)
      | _ => exact fun _ _ hnone => nomatch hnone

/-- The directories that a server makes for its root, if they are missing. -/
def serverWay (arg : Bytes) : List Loc := (slashPrefixes arg ++ [arg]).map resolve

/-- What is known of a server that has answered. -/
def Answered (arg : Bytes) (t : Shared n) (out : Option (Bytes × Bool)) : Prop :=
  ∀ root present, out = some (root, present) →
    root = render (resolve arg) ∧ ∀ l ∈ serverWay arg, t.fs.entry l ≠ none

theorem starts_mkdirP (hs : Onset base (serverWay arg) s) :
    Starts who base (serverWay arg) c (mkdirP arg)
      (fun t r => r = none → ∀ l ∈ serverWay arg, t.fs.entry l ≠ none) s := by
  unfold mkdirP
  split
  · exact fun _ _ hnone => nomatch hnone
  · have hpaths : ∀ p ∈ slashPrefixes arg ++ [arg], resolve p ∈ serverWay arg :=
      fun p hp => List.mem_map_of_mem hp
    have hnone : ∀ p ∈ ([] : List Bytes), s.fs.entry (resolve p) ≠ none := by simp
    refine Prog.Amid.mono (starts_mkdirAll hs hpaths hnone) ?_
    intro t r h hok l hl
    obtain ⟨p, hp, rfl⟩ := List.mem_map.mp hl
    exact h hok p hp

theorem normalizeAbs_ok {norm : Bytes} (habs : arg.head? = some slash)
    (h : normalizeAbs arg pathMax = .ok norm) : norm = render (resolve arg) := by
  by_cases hlen : arg.length < pathMax
  · rw [normalizeAbs_eq habs hlen] at h
    exact (Except.ok.inj h).symm
  · rw [normalizeAbs_long habs (Nat.not_lt.mp hlen)] at h
    cases h

theorem starts_serverStart (hs : Onset base (serverWay arg) s) :
    Starts who base (serverWay arg) c (serverStart arg false) (Answered arg) s := by
  have hnone : ∀ t, Starts who base (serverWay arg) c (.ret none) (Answered arg) t :=
    fun t u _ root present heq => nomatch heq
  unfold serverStart
  split
  · exact hnone s
  · rename_i habs
    rw [not_not] at habs
    refine Starts.step hs trivial fun t x found u _ _ hu => ?_
    change Starts who base (serverWay arg) c (mkdirP arg >>= _) (Answered arg) u
    refine Starts.bind hu (starts_mkdirP hu) fun v r hv hmade => ?_
    cases r with
    | some e => exact hnone v
    | none =>
      cases hnorm : normalizeAbs arg pathMax with
      | error e => simpa [hnorm] using hnone v
      | ok norm =>
        have hend : ∀ present : Bool, Starts who base (serverWay arg) c
            (.ret (some (norm, present))) (Answered arg) v := by
          intro present w hvw root present' heq
          cases heq
          exact ⟨normalizeAbs_ok habs hnorm, fun l hl => (hvw hv).2 l (hmade rfl l hl)⟩
        simpa [hnorm] using hend _

end Servers

end Ecopy.Metadata.DirMakers
