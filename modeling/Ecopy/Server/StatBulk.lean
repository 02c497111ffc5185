import Ecopy.PathWalk
import Ecopy.Server.Handlers

/-!
# Bulk stat and single stat

`STAT` normalises the whole path and confines it; `STAT_BULK` normalises and
confines the base only and joins the names to it as they are. Both then ask the
kernel. `JoinSafe` is the condition under which the two agree in every state of
the file system. Each way in which it can fail comes with a state in which the
answers differ.
-/
namespace Ecopy.Server
open Protocol Ecopy.Path FileSystem Lib.Calls Lib.Fields

/-- The kernel as the two handlers see it: they ask for nothing else. -/
def statAnswers (fs : Fs) : (c : Call) → c.Result
  | .lstat path => fs.lstatPath path
  | .stat _ | .fstat _ => (.error .enosys : Except Errno (ℕ × Node))
  | .openFile _ _ _ => (.error .enosys : Except Errno Fd)
  | .pwrite _ _ _ => (.error (.enosys, 0) : Except (Errno × ℕ) Unit)
  | .pread _ _ _ => (.error .enosys : Except Errno Bytes)
  | .mkdir _ _ | .openDir _ | .fallocate _ _ | .ftruncate _ _ | .fsync _ | .close _
  | .fchown _ _ _ | .fchmod _ _ | .futimens _ _ _ | .rename _ _ | .unlink _ | .symlink _ _
  | .link _ _ | .lchown _ _ _ | .lutimes _ _ _ => (.error .enosys : Except Errno Unit)
  | .findFile _ => (none : Option OpenFile)
  | .claimDir _ => Claim.ready
  | .dirMode _ => (none : Option UInt32)
  | .nextSeq _ => (0 : ℕ)
  | .settings => (⟨true, true, 0, 0⟩ : Remote.Handshake.Settings)
  | .attempt => true
  | .takeFiles => ([] : List OpenFile)
  | .report => (⟨[], fun _ => 0, 0, 0, 0⟩ : Report)
  | .sync | .addFile _ | .updateFile _ | .removeFile _ | .settleDir _ _ | .setSettings _
  | .logError _ _ | .logVerify _ _ _ | .noteUnpreserved => ()

/-- The names of a bulk request. -/
def decodeNames : ℕ → Pdec → Option (List Bytes)
  | 0, _ => some []
  | count + 1, d =>
    match pdecStr d pathMax with
    | (none, _) => none
    | (some name, d) => (decodeNames count d).map (name :: ·)

/-- A `STAT` request. -/
def statFrame (path : Bytes) : Frame := ⟨.stat, 0, le32 (UInt32.ofNat path.length) ++ path⟩

/-- The entry that `STAT` returns for a path; a refused request counts as
absent. -/
def singleStat (cfg : Config) (fs : Fs) (path : Bytes) : Bytes :=
  let reply := (handleStat cfg 0 (statFrame path).payload).eval (statAnswers fs)
  if reply.type = .statResp then reply.payload else absentEntry

def encodeNames : List Bytes → Bytes
  | [] => []
  | name :: names => le32 (UInt32.ofNat name.length) ++ (name ++ encodeNames names)

/-- A `STAT_BULK` request. -/
def bulkFrame (base : Bytes) (names : List Bytes) : Frame :=
  ⟨.statBulk, 0, le32 (UInt32.ofNat base.length) ++
    (base ++ (le32 (UInt32.ofNat names.length) ++ encodeNames names))⟩

/-- The `i`-th entry that `STAT_BULK` returns; a refused request counts as absent
for every name. -/
def bulkAnswer (cfg : Config) (fs : Fs) (base : Bytes) (names : List Bytes) (i : ℕ) : Bytes :=
  let reply := (handleStatBulk cfg 0 (bulkFrame base names).payload).eval (statAnswers fs)
  if reply.type = .statBulkResp then (reply.payload.drop (4 + 29 * i)).take 29 else absentEntry

/-- One entry of the bulk reply. -/
def bulkStat (cfg : Config) (fs : Fs) (base name : Bytes) : Bytes :=
  (bulkEntry (resolvePath cfg.root base) name).eval (statAnswers fs)

def entryAt (fs : Fs) (path : Bytes) : Bytes :=
  match fs.lstatPath path with
  | .ok (_, n) => statEntry n
  | .error _ => absentEntry

theorem eval_encodeStat (fs : Fs) (path : Bytes) :
    (encodeStat path).eval (statAnswers fs) = entryAt fs path := by
  change Prog.eval (statAnswers fs) (match fs.lstatPath path with
    | .ok (_, n) => _
    | .error _ => _) = _
  unfold entryAt
  split
  · rfl
  · rfl

theorem length_le64Signed (v : ℤ) : (le64Signed v).length = 8 := length_le64 _

theorem length_entryAt (fs : Fs) (path : Bytes) : (entryAt fs path).length = 29 := by
  unfold entryAt
  split
  · simp [statEntry, length_le64Signed]
  · rfl

theorem statEntry_ne_absentEntry (n : Node) : statEntry n ≠ absentEntry := by
  intro h
  have hhead := congrArg List.head? h
  simp [statEntry, absentEntry] at hhead

theorem entryAt_eq_absentEntry_iff (fs : Fs) (path : Bytes) :
    entryAt fs path = absentEntry ↔ ∃ e, fs.lstatPath path = .error e := by
  unfold entryAt
  cases fs.lstatPath path with
  | error e => simp
  | ok r => simp [statEntry_ne_absentEntry]

theorem bulkStat_eq (cfg : Config) (fs : Fs) (base name : Bytes) :
    bulkStat cfg fs base name =
      match resolvePath cfg.root base with
      | .error _ => absentEntry
      | .ok norm =>
        match pathJoinFast norm name pathMax with
        | none => absentEntry
        | some full => entryAt fs full := by
  unfold bulkStat bulkEntry
  cases resolvePath cfg.root base with
  | error e => rfl
  | ok norm =>
    simp only
    cases pathJoinFast norm name pathMax with
    | none => rfl
    | some full => exact eval_encodeStat fs full

theorem length_bulkStat (cfg : Config) (fs : Fs) (base name : Bytes) :
    (bulkStat cfg fs base name).length = 29 := by
  rw [bulkStat_eq]
  split
  · rfl
  split
  · rfl
  · exact length_entryAt fs _

/-- A path that does not fit into a request is refused like one that does not
fit into the buffer. -/
theorem singleStat_eq {cfg : Config} {fs : Fs} {path : Bytes} (hnul : 0 ∉ path)
    (hsmall : path.length < 2 ^ 32) :
    singleStat cfg fs path =
      match resolvePath cfg.root path with
      | .error _ => absentEntry
      | .ok norm => entryAt fs norm := by
  by_cases hlen : path.length < pathMax
  · have hdec : decodePath (statFrame path).payload = some path := by
      have h := pdecStr_le32 [] hnul hlen hsmall
      rw [List.append_nil] at h
      simp only [decodePath, statFrame, pdecInit, h]
    unfold singleStat handleStat
    rw [hdec]
    dsimp only
    cases resolvePath cfg.root path with
    | error e => rfl
    | ok norm =>
      dsimp only
      rw [Prog.eval_bind, eval_encodeStat]
      rfl
  · have hdec : decodePath (statFrame path).payload = none := by
      have h : pdecStr ⟨le32 (UInt32.ofNat path.length) ++ path, false⟩ pathMax = _ :=
        pdecStr_too_long (Nat.not_lt.mp hlen) hsmall
      simp only [decodePath, statFrame, pdecInit, h]
    have herr : ∃ e, resolvePath cfg.root path = .error e := by
      unfold resolvePath
      by_cases habs : path.head? = some slash
      · rw [normalizeAbs_long habs (Nat.not_lt.mp hlen)]
        exact ⟨_, rfl⟩
      · rw [normalizeAbs_relative habs]
        exact ⟨_, rfl⟩
    obtain ⟨e, he⟩ := herr
    unfold singleStat handleStat
    rw [hdec, he]
    rfl

theorem eval_bulkEntries (cfg : Config) (fs : Fs) (base : Bytes) (count : ℕ) (d : Pdec) :
    (bulkEntries (resolvePath cfg.root base) count d).eval (statAnswers fs) =
      (decodeNames count d).map fun names => (names.map (bulkStat cfg fs base)).flatten := by
  induction count generalizing d with
  | zero => rfl
  | succ count ih =>
    rcases hs : pdecStr d pathMax with ⟨_ | name, d'⟩
    · simp only [bulkEntries, decodeNames, hs]
      rfl
    · simp only [bulkEntries, decodeNames, hs]
      rw [Prog.eval_bind, Prog.eval_bind, ih]
      cases decodeNames count d' with
      | none => rfl
      | some names => rfl

variable {names : List Bytes}

theorem eval_handleStatBulk {cfg : Config} {fs : Fs} {id : UInt64} {payload base : Bytes}
    {count : ℕ} {d : Pdec} (hd : decodeStatBulk payload = some (base, count, d))
    (hn : decodeNames count d = some names) :
    (handleStatBulk cfg id payload).eval (statAnswers fs) =
      ⟨.statBulkResp, id, le32 (UInt32.ofNat count) ++
        (names.map (bulkStat cfg fs base)).flatten⟩ := by
  unfold handleStatBulk
  rw [hd]
  change Prog.eval (statAnswers fs) (bulkEntries (resolvePath cfg.root base) count d >>= _) = _
  rw [Prog.eval_bind, eval_bulkEntries, hn]
  rfl

/-- Entries have the same length, so each is found at its place. -/
theorem entry_of_flatten_map {f : Bytes → Bytes} {k : ℕ} (hlen : ∀ n ∈ names, (f n).length = k)
    {i : ℕ} (hi : i < names.length) : ((names.map f).flatten.drop (k * i)).take k = f names[i] := by
  induction names generalizing i with
  | nil => cases hi
  | cons n names ih =>
    rw [List.forall_mem_cons] at hlen
    simp only [List.map_cons, List.flatten_cons]
    cases i with
    | zero =>
      rw [Nat.mul_zero, List.drop_zero, ← hlen.1, List.take_left]
      rfl
    | succ i =>
      have hdrop : (f n ++ (names.map f).flatten).drop (k * (i + 1)) =
          (names.map f).flatten.drop (k * i) := by
        rw [show k * (i + 1) = (f n).length + k * i by rw [hlen.1]; ring, List.drop_length_add_append]
      rw [hdrop, ih hlen.2 (Nat.lt_of_succ_lt_succ hi)]
      rfl

/-- The requests that are answered with entries. -/
def Accepted (base : Bytes) (names : List Bytes) : Prop :=
  base.length < pathMax ∧ names.length ≤ 1000000 ∧ ∀ name ∈ names, name.length < pathMax

theorem length_le_encodeNames (names : List Bytes) :
    4 * names.length ≤ (encodeNames names).length ∧
      ∀ name ∈ names, 4 + name.length ≤ (encodeNames names).length := by
  induction names with
  | nil => simp [encodeNames]
  | cons n names ih =>
    simp only [encodeNames, List.length_cons, List.length_append, length_le32,
      List.forall_mem_cons]
    refine ⟨by omega, by omega, fun name hname => ?_⟩
    have := ih.2 name hname
    omega

theorem decodeNames_encodeNames (hnul : ∀ name ∈ names, 0 ∉ name)
    (hsmall : (encodeNames names).length < 2 ^ 32) :
    decodeNames names.length ⟨encodeNames names, false⟩ =
      if ∀ name ∈ names, name.length < pathMax then some names else none := by
  induction names with
  | nil => rfl
  | cons n names ih =>
    rw [List.forall_mem_cons] at hnul
    have hn := (length_le_encodeNames (n :: names)).2 n List.mem_cons_self
    have hrest : (encodeNames names).length ≤ (encodeNames (n :: names)).length := by
      simp only [encodeNames, List.length_append]
      omega
    simp only [encodeNames, List.length_cons, decodeNames, List.forall_mem_cons]
    by_cases hlen : n.length < pathMax
    · rw [pdecStr_le32 _ hnul.1 hlen (by omega)]
      dsimp only
      rw [ih hnul.2 (by omega)]
      by_cases hall : ∀ name ∈ names, name.length < pathMax
      · rw [if_pos hall, if_pos ⟨hlen, hall⟩]
        rfl
      · rw [if_neg hall, if_neg fun h => hall h.2]
        rfl
    · rw [pdecStr_too_long (Nat.le_of_not_lt hlen) (by omega), if_neg fun h => hlen h.1]

/-- What the handler reads of a request that a frame can carry. -/
theorem decodeStatBulk_bulkFrame {base : Bytes} (hbase : 0 ∉ base)
    (hsmall : (bulkFrame base names).payload.length ≤ maxFrame) :
    decodeStatBulk (bulkFrame base names).payload =
      if base.length < pathMax ∧ names.length ≤ 1000000 then
        some (base, names.length, ⟨encodeNames names, false⟩)
      else none := by
  have hmax : maxFrame < 2 ^ 32 := by decide
  have hcount := (length_le_encodeNames names).1
  simp only [bulkFrame, List.length_append, length_le32] at hsmall
  unfold decodeStatBulk bulkFrame pdecInit
  dsimp only
  by_cases hlen : base.length < pathMax
  · rw [pdecStr_le32 _ hbase hlen (by omega)]
    dsimp only
    rw [pdecU32_le32]
    dsimp only
    rw [toNat_ofNat_of_lt (by omega)]
    by_cases hmany : names.length ≤ 1000000
    · rw [if_neg (by simp [hmany]), if_pos ⟨hlen, hmany⟩]
    · rw [if_pos (.inr (Nat.lt_of_not_le hmany)), if_neg fun h => hmany h.2]
  · rw [pdecStr_too_long (Nat.le_of_not_lt hlen) (by omega), if_neg fun h => hlen h.1]

/-- The answer to a request that a frame can carry. -/
theorem bulkAnswer_eq {cfg : Config} {fs : Fs} {base : Bytes} (hbase : 0 ∉ base)
    (hnames : ∀ name ∈ names, 0 ∉ name)
    (hsmall : (bulkFrame base names).payload.length ≤ maxFrame) {i : ℕ} (hi : i < names.length)
    [Decidable (Accepted base names)] :
    bulkAnswer cfg fs base names i =
      if Accepted base names then bulkStat cfg fs base names[i] else absentEntry := by
  have hmax : maxFrame < 2 ^ 32 := by decide
  have hrest : (encodeNames names).length ≤ (bulkFrame base names).payload.length := by
    simp only [bulkFrame, List.length_append]
    omega
  have hread := decodeNames_encodeNames hnames (by omega)
  have hframe := decodeStatBulk_bulkFrame hbase hsmall
  by_cases haccept : Accepted base names
  · rw [if_pos haccept]
    rw [if_pos haccept.2.2] at hread
    rw [if_pos ⟨haccept.1, haccept.2.1⟩] at hframe
    unfold bulkAnswer
    dsimp only
    rw [eval_handleStatBulk hframe hread, if_pos rfl]
    dsimp only
    rw [show 4 + 29 * i = (le32 (UInt32.ofNat names.length)).length + 29 * i by
      rw [length_le32], List.drop_length_add_append]
    exact entry_of_flatten_map (fun n _ => length_bulkStat cfg fs base n) hi
  · rw [if_neg haccept]
    by_cases hhead : base.length < pathMax ∧ names.length ≤ 1000000
    · have hlong : ¬ ∀ name ∈ names, name.length < pathMax :=
        fun h => haccept ⟨hhead.1, hhead.2, h⟩
      rw [if_neg hlong] at hread
      rw [if_pos hhead] at hframe
      unfold bulkAnswer handleStatBulk
      rw [hframe]
      change (if Frame.type (Prog.eval (statAnswers fs) (bulkEntries (resolvePath cfg.root base)
        names.length ⟨encodeNames names, false⟩ >>= _)) = _ then _ else _) = _
      rw [Prog.eval_bind, eval_bulkEntries, hread]
      rfl
    · rw [if_neg hhead] at hframe
      unfold bulkAnswer handleStatBulk
      rw [hframe]
      rfl

section Samples

/-- A small state: one object of the given kind at `spot`, and directories at
the top and on the way to `spot` and to `far`. -/
def sample (spot : Loc) (kind : Kind) (far : List Loc) : Fs where
  entry := fun l =>
    if l = spot then some 1
    else if l <+: spot ∨ ∃ d ∈ far, l <+: d then some 0
    else none
  node := fun i => ⟨if i = 1 then kind else .directory, 0x1ED, 0, 0, (0, 0), (0, 0)⟩
  next := 2

variable {spot l : Loc} {kind : Kind} {far : List Loc}

theorem entry_sample_spot : (sample spot kind far).entry spot = some 1 := by simp [sample]

theorem isDir_sample_spot : (sample spot kind far).isDir spot = (kind == .directory) := by
  simp [Fs.isDir, sample, Node.isDir]

theorem isDir_sample (hne : l ≠ spot) (h : l <+: spot ∨ ∃ d ∈ far, l <+: d) :
    (sample spot kind far).isDir l = true := by
  simp [Fs.isDir, sample, hne, h, Node.isDir]

theorem entry_sample_eq_none (hne : l ≠ spot) (hspot : ¬ l <+: spot) (hfar : ∀ d ∈ far, ¬ l <+: d) :
    (sample spot kind far).entry l = none := by
  simp only [sample, if_neg hne]
  rw [if_neg]
  rintro (h | ⟨d, hd, h⟩)
  · exact hspot h
  · exact hfar d hd h

theorem sample_sane (h : spot ≠ [] ∨ kind = .directory) : (sample spot kind far).Sane := by
  constructor
  · by_cases hnil : spot = []
    · rw [← hnil, isDir_sample_spot, h.resolve_left (fun hne => hne hnil)]
      rfl
    · exact isDir_sample (fun heq => hnil heq.symm) (.inl List.nil_prefix)
  · intro l i hl
    simp only [sample] at hl ⊢
    split_ifs at hl
    · cases hl
      decide
    · cases hl
      decide

/-- Only the object at `spot` may be a symlink. -/
theorem plain_sample (h : ∀ t, kind ≠ .symlink t) (i : ℕ) (t : Bytes) :
    ((sample spot kind far).node i).kind ≠ .symlink t := by
  simp only [sample]
  split
  · exact h t
  · exact fun heq => nomatch heq

end Samples

section Joins
variable {b : Loc} {name : Bytes} {fs : Fs}

/-- What comes after the last slash. -/
def lastSegment (name : Bytes) : Bytes := (name.reverse.takeWhile (· != slash)).reverse

theorem slash_notMem_lastSegment (name : Bytes) : slash ∉ lastSegment name := by
  intro h
  rw [lastSegment, List.mem_reverse] at h
  have hall : (name.reverse.takeWhile (· != slash)).all (· != slash) = true := List.all_takeWhile
  have := List.all_eq_true.mp hall slash h
  simp at this

theorem exists_front (name : Bytes) : ∃ front, slash :: name = front ++ slash :: lastSegment name := by
  have hsplit := List.takeWhile_append_dropWhile (p := (· != slash)) (l := name.reverse)
  have hname : name = (name.reverse.dropWhile (· != slash)).reverse ++ lastSegment name := by
    rw [lastSegment, ← List.reverse_append, hsplit, List.reverse_reverse]
  cases hd : name.reverse.dropWhile (· != slash) with
  | nil =>
    rw [hd] at hname
    exact ⟨[], by simpa using hname⟩
  | cons x xs =>
    have hx : x = slash := by
      have := List.head_dropWhile_not (p := (· != slash)) (l := name.reverse) (by simp [hd])
      simpa [hd] using this
    refine ⟨slash :: xs.reverse, ?_⟩
    rw [hd, hx] at hname
    conv_lhs => rw [hname]
    simp

/-- The path that the bulk handler gives to the kernel. -/
def joined (b : Loc) (name : Bytes) : Bytes := (if b = [] then [] else render b) ++ slash :: name

theorem pathJoinFast_render (hb : ∀ c ∈ b, Ordinary c) (outsz : ℕ) :
    pathJoinFast (render b) name outsz =
      if (joined b name).length + 1 > outsz then none else some (joined b name) := by
  have hbase : (if render b = [slash] then [] else render b) = if b = [] then [] else render b := by
    simp only [render_eq_slash_iff hb]
  simp only [pathJoinFast, joined, hbase, List.length_append, List.length_cons]
  rw [Nat.add_assoc _ 1 name.length, Nat.add_comm 1 name.length]

theorem fields_joined (hb : ∀ c ∈ b, Ordinary c) :
    fields slash (joined b name) = b ++ fields slash name := by
  unfold joined
  rw [fields_append_sep]
  split
  · rename_i hnil
    rw [hnil]
    rfl
  · rw [fields_render hb]

theorem resolveFrom_nil_append (hb : ∀ c ∈ b, Ordinary c) (cs : List Bytes) :
    resolveFrom [] (b ++ cs) = resolveFrom b cs := by
  rw [Fs.resolveFrom_append, resolveFrom_ordinary hb, List.nil_append]

theorem getLast_joined (b : Loc) (name : Bytes) :
    (joined b name).getLast? = some slash ↔ lastSegment name = [] := by
  obtain ⟨front, hfront⟩ := exists_front name
  rw [joined, hfront, ← List.append_assoc]
  cases hl : lastSegment name with
  | nil => simp
  | cons x xs =>
    have hnot := slash_notMem_lastSegment name
    rw [hl] at hnot
    simp only [List.getLast?_append, List.getLast?_cons_cons]
    constructor
    · intro h
      have hmem : slash ∈ x :: xs := by
        cases hlast : (x :: xs).getLast? with
        | none => simp at hlast
        | some y =>
          rw [hlast] at h
          simp only [Option.some_or, Option.some.injEq] at h
          rw [← h]
          exact List.mem_of_getLast? hlast
      exact absurd hmem hnot
    · intro h
      cases h

theorem fields_getLast (h : lastSegment name ≠ []) (cs : List Bytes) :
    (cs ++ fields slash name).getLast? = some (lastSegment name) := by
  obtain ⟨front, hfront⟩ := exists_front name
  have hfields : fields slash name = fields slash front ++ [lastSegment name] := by
    rw [← fields_sep_cons, hfront, fields_append_sep,
      fields_of_sep_free (slash_notMem_lastSegment name) h]
  rw [hfields, ← List.append_assoc]
  simp

variable {l : Loc}

theorem getLast_render (hl : ∀ c ∈ l, Ordinary c) : (render l).getLast? = some slash ↔ l = [] := by
  constructor
  · intro h
    rcases l.eq_nil_or_concat with hnil | ⟨init, c, hc⟩
    · exact hnil
    · rw [List.concat_eq_append] at hc
      subst hc
      have hord : Ordinary c := hl c (by simp)
      obtain ⟨x, hx⟩ : ∃ x, c.getLast? = some x := by
        cases hg : c.getLast? with
        | none => exact absurd (List.getLast?_eq_none_iff.mp hg) hord.1.1
        | some x => exact ⟨x, rfl⟩
      rw [render_eq_join (by simp), join_append, join_cons, join_nil, List.append_nil,
        List.getLast?_append, List.getLast?_cons, hx] at h
      simp only [Option.getD_some, Option.some_or, Option.some.injEq] at h
      rw [h] at hx
      exact absurd (List.mem_of_getLast? hx) hord.1.2
  · rintro rfl
    rfl

/-- The kernel's answer for a walk that ends well. -/
theorem lstatPath_of_walk {path : Bytes}
    (hwalk : fs.walk (path.getLast? == some slash) 40 [] (fields slash path) = .ok l)
    (hdir : path.getLast? = some slash → fs.isDir l = true) :
    fs.lstatPath path = match fs.entry l with
      | none => .error .enoent
      | some i => .ok (i, fs.node i) := by
  unfold Fs.lstatPath
  dsimp only
  rw [hwalk]
  dsimp only
  have hgo : ¬ ((path.getLast? == some slash) && !fs.isDir l) = true := by
    rw [Bool.and_eq_true, beq_iff_eq, Bool.not_eq_true']
    rintro ⟨hs, hd⟩
    rw [hdir hs] at hd
    cases hd
  rewrite [if_neg hgo]
  cases fs.entry l with
  | none => rfl
  | some i => rfl

theorem entryAt_ne_absentEntry {path : Bytes}
    (hwalk : fs.walk (path.getLast? == some slash) 40 [] (fields slash path) = .ok l)
    (hdir : path.getLast? = some slash → fs.isDir l = true) (he : (fs.entry l).isSome = true) :
    entryAt fs path ≠ absentEntry := by
  rw [ne_eq, entryAt_eq_absentEntry_iff, lstatPath_of_walk hwalk hdir]
  obtain ⟨i, hi⟩ := Option.isSome_iff_exists.mp he
  rw [hi]
  rintro ⟨e, h⟩
  cases h

theorem entryAt_of_walk_error {path : Bytes} {e : Errno}
    (hwalk : fs.walk (path.getLast? == some slash) 40 [] (fields slash path) = .error e) :
    entryAt fs path = absentEntry := by
  rw [entryAt_eq_absentEntry_iff]
  refine ⟨e, ?_⟩
  unfold Fs.lstatPath
  dsimp only
  rw [hwalk]

/-- Every path can be present. -/
theorem exists_present (b : Loc) (name : Bytes) :
    ∃ fs : Fs, fs.Sane ∧ entryAt fs (joined b name) ≠ absentEntry := by
  refine ⟨sample [] .directory (Fs.visited [] (fields slash (joined b name))),
    sample_sane (.inr rfl), ?_⟩
  have hdirs : ∀ v ∈ Fs.visited [] (fields slash (joined b name)),
      (sample [] .directory (Fs.visited [] (fields slash (joined b name)))).isDir v = true := by
    intro v hv
    by_cases hnil : v = []
    · rw [hnil, isDir_sample_spot]
      rfl
    · exact isDir_sample hnil (.inr ⟨v, hv, List.prefix_refl v⟩)
  have hend := hdirs _ (Fs.last_mem_visited [] (fields slash (joined b name)))
  apply entryAt_ne_absentEntry (Fs.walk_through 40 hdirs)
  · exact fun _ => hend
  · obtain ⟨i, hi, -⟩ := Fs.isDir_iff.mp hend
    rw [hi]
    rfl

theorem joined_of_concat (init : Loc) (c : Bytes) : joined init c = render (init ++ [c]) := by
  rw [render_eq_join (by simp), join_append, join_cons, join_nil, List.append_nil, joined]
  split
  · rename_i hnil
    rw [hnil]
    rfl
  · rename_i hne
    rw [render_eq_join hne]

theorem exists_present_render (l : Loc) :
    ∃ fs : Fs, fs.Sane ∧ entryAt fs (render l) ≠ absentEntry := by
  rcases l.eq_nil_or_concat with rfl | ⟨init, c, rfl⟩
  · exact exists_present [] []
  · rw [List.concat_eq_append, ← joined_of_concat]
    exact exists_present init c

/-- An object at `l`, found by its normalised path. -/
theorem render_present (hl : ∀ c ∈ l, Ordinary c) (hne : l ≠ []) (kind : Kind) (far : List Loc) :
    entryAt (sample l kind far) (render l) ≠ absentEntry := by
  obtain ⟨init, c, rfl⟩ : ∃ init c, l = init ++ [c] := by
    rcases l.eq_nil_or_concat with hnil | ⟨init, c, hc⟩
    · exact absurd hnil hne
    · exact ⟨init, c, by rw [hc, List.concat_eq_append]⟩
  have hinit : ∀ d ∈ init, Ordinary d := fun d hd => hl d (by simp [hd])
  have hc : Ordinary c := hl c (by simp)
  have hdirs : ∀ v ∈ Fs.visited [] init, (sample (init ++ [c]) kind far).isDir v = true := by
    intro v hv
    obtain ⟨-, hle⟩ := Fs.prefix_of_mem_visited (Fs.noPops_ordinary hinit) v hv
    rw [resolveFrom_ordinary hinit, List.nil_append] at hle
    apply isDir_sample
    · rintro rfl
      have := hle.length_le
      simp at this
    · exact .inl (hle.trans (List.prefix_append init [c]))
  have hslash : ((render (init ++ [c])).getLast? == some slash) = false := by
    rw [beq_eq_false_iff_ne, ne_eq, getLast_render hl]
    simp
  have htop : resolveFrom [] init = init := resolveFrom_ordinary hinit
  apply entryAt_ne_absentEntry (l := init ++ [c])
  · rw [hslash, fields_render hl, Fs.walk_append 40 hdirs, htop]
    apply Fs.walk_last 40 _ hc.2.1 hc.2.2
    · rw [entry_sample_spot]
      rfl
    · have hlast := hdirs _ (Fs.last_mem_visited [] init)
      rwa [htop] at hlast
  · intro h
    rw [h] at hslash
    simp at hslash
  · rw [entry_sample_spot]
    rfl

/-- A directory at `l`, found by its normalised path. -/
theorem render_present_dirs (hl : ∀ c ∈ l, Ordinary c) :
    entryAt (sample [] .directory [l]) (render l) ≠ absentEntry := by
  have hdirs : ∀ v ∈ Fs.visited [] l, (sample [] .directory [l]).isDir v = true := by
    intro v hv
    obtain ⟨-, hle⟩ := Fs.prefix_of_mem_visited (Fs.noPops_ordinary hl) v hv
    rw [resolveFrom_ordinary hl, List.nil_append] at hle
    by_cases hnil : v = []
    · rw [hnil, isDir_sample_spot]
      rfl
    · exact isDir_sample hnil (.inr ⟨l, List.mem_singleton_self l, hle⟩)
  have hend := hdirs _ (Fs.last_mem_visited [] l)
  have hwalk : (sample [] .directory [l]).walk ((render l).getLast? == some slash) 40 []
      (fields slash (render l)) = .ok (resolveFrom [] l) := by
    rw [fields_render hl]
    exact Fs.walk_through 40 hdirs
  apply entryAt_ne_absentEntry hwalk
  · exact fun _ => hend
  · obtain ⟨i, hi, -⟩ := Fs.isDir_iff.mp hend
    rw [hi]
    rfl

/-- A regular file whose name is followed by a slash or a dot: the bulk handler
does not find it. -/
theorem trailing_absent (hb : ∀ c ∈ b, Ordinary c)
    (hpops : Fs.noPops b (fields slash name) = true) (hlast : ¬ Ordinary (lastSegment name)) :
    entryAt (sample (resolveFrom b (fields slash name)) (.regular []) [])
      (joined b name) = absentEntry := by
  have hres := resolveFrom_nil_append hb (fields slash name)
  have hplain : ∀ i t, ((sample (resolveFrom b (fields slash name)) (.regular []) []).node i).kind ≠
      .symlink t := plain_sample fun t h => nomatch h
  have hnotdir : (sample (resolveFrom b (fields slash name)) (.regular []) []).isDir
      (resolveFrom b (fields slash name)) = false := by
    rw [isDir_sample_spot]
    rfl
  rw [entryAt_eq_absentEntry_iff]
  unfold Fs.lstatPath
  dsimp only
  rw [fields_joined hb]
  cases hwalk : (sample (resolveFrom b (fields slash name)) (.regular []) []).walk
      ((joined b name).getLast? == some slash) 40 [] (b ++ fields slash name) with
  | error e => exact ⟨e, rfl⟩
  | ok l =>
    obtain ⟨rfl, hdirs⟩ := Fs.walk_plain hplain hwalk
    rw [hres] at hwalk ⊢
    by_cases hnil : lastSegment name = []
    · -- a slash asks for a directory
      have hslash := (getLast_joined b name).mpr hnil
      refine ⟨.enotdir, ?_⟩
      dsimp only
      rw [hslash, hnotdir]
      rfl
    · exfalso
      have hend := fields_getLast hnil b
      obtain ⟨cs, hcs⟩ : ∃ cs, b ++ fields slash name = cs ++ [lastSegment name] := by
        rcases (b ++ fields slash name).eq_nil_or_concat with h | ⟨cs, x, h⟩
        · rw [h] at hend
          cases hend
        · rw [List.concat_eq_append] at h
          rw [h] at hend
          simp only [List.getLast?_append, List.getLast?_singleton, Option.some_or,
            Option.some.injEq] at hend
          exact ⟨cs, by rw [h, hend]⟩
      have hmid : resolveFrom [] cs ∈ (Fs.visited [] (cs ++ [lastSegment name])).dropLast :=
        Fs.mem_visited_append
      have hsame : resolveFrom [] cs = resolveFrom b (fields slash name) := by
        rw [← hres, hcs, Fs.resolveFrom_append, Fs.resolveFrom_cons]
        change resolveFrom [] cs = Fs.lexStep (resolveFrom [] cs) (lastSegment name)
        unfold Fs.lexStep
        split
        · rfl
        rename_i hdot
        split
        · -- a parent step at the end is one at the top
          rename_i hparent
          have hall : Fs.noPops [] (cs ++ [lastSegment name]) = true := by
            rw [← hcs, Fs.noPops_append, Fs.noPops_ordinary hb, resolveFrom_ordinary hb]
            exact hpops
          rw [Fs.noPops_append, Bool.and_eq_true, Fs.noPops, if_pos hparent, Bool.and_eq_true,
            beq_iff_eq] at hall
          rw [hall.2.1]
          rfl
        · rename_i hparent
          exact absurd ⟨⟨hnil, slash_notMem_lastSegment name⟩, hdot, hparent⟩ hlast
      rw [← hcs, hsame] at hmid
      rw [hdirs _ hmid] at hnotdir
      cases hnotdir

/-- A component that is entered and left again has to be there. -/
theorem popped_absent (hb : ∀ c ∈ b, Ordinary c) {us vs : List Bytes}
    (hsegs : fields slash name = us ++ dotdot :: vs)
    (hout : ¬ resolveFrom b us <+: resolveFrom b (fields slash name)) :
    entryAt (sample [] .directory [resolveFrom b (fields slash name)]) (joined b name) =
      absentEntry := by
  have hplain : ∀ i t, ((sample [] .directory [resolveFrom b (fields slash name)]).node i).kind ≠
      .symlink t := plain_sample fun t h => nomatch h
  have hmid : resolveFrom b us ∈ (Fs.visited [] (b ++ fields slash name)).dropLast := by
    rw [hsegs, ← List.append_assoc, ← resolveFrom_nil_append hb us]
    exact Fs.mem_visited_append
  have hnotdir : (sample [] .directory [resolveFrom b (fields slash name)]).isDir
      (resolveFrom b us) = false := by
    have hne : resolveFrom b us ≠ [] := by
      intro h
      rw [h] at hout
      exact hout List.nil_prefix
    have hnone : (sample [] .directory [resolveFrom b (fields slash name)]).entry
        (resolveFrom b us) = none := by
      apply entry_sample_eq_none hne
      · exact fun h => hne (List.prefix_nil.mp h)
      · intro d hd
        rwa [List.mem_singleton.mp hd]
    simp only [Fs.isDir, hnone]
  cases hwalk : (sample [] .directory [resolveFrom b (fields slash name)]).walk
      ((joined b name).getLast? == some slash) 40 [] (fields slash (joined b name)) with
  | error e => exact entryAt_of_walk_error hwalk
  | ok l =>
    rw [fields_joined hb] at hwalk
    obtain ⟨-, hdirs⟩ := Fs.walk_plain hplain hwalk
    rw [hdirs _ hmid] at hnotdir
    cases hnotdir

theorem exists_fresh (cs : List Bytes) : ∃ z, Ordinary z ∧ z ∉ cs := by
  have hlen : ∀ z ∈ cs, z.length ≤ cs.flatten.length := by
    intro z hz
    exact List.Sublist.length_le (List.sublist_flatten_of_mem hz)
  refine ⟨List.replicate (cs.flatten.length + 3) 122, ⟨⟨by simp, ?_⟩, ?_, ?_⟩, ?_⟩
  · intro h
    have := List.eq_of_mem_replicate h
    simp [slash] at this
  · intro h
    have := congrArg List.length h
    simp [dot] at this
  · intro h
    have := congrArg List.length h
    simp [dotdot] at this
  · intro h
    have := hlen _ h
    simp at this

/-- Far away from everything else, where the only names are `z`, a path of other
names gets nowhere. -/
theorem walk_lost {z : Bytes} {n : ℕ} (hfs : ∀ k x, 1 ≤ k → k < n → x ≠ z →
    fs.entry (List.replicate k z ++ [x]) = none) (follow : Bool) (budget : ℕ) {k : ℕ}
    {vs : List Bytes} (hz : z ∉ vs) (hlong : vs.length < k) (hk : k < n)
    (hname : ∃ x ∈ vs, x ≠ dot ∧ x ≠ dotdot) :
    ∃ e, fs.walk follow budget (List.replicate k z) vs = .error e := by
  induction vs generalizing k with
  | nil =>
    obtain ⟨x, hx, -⟩ := hname
    cases hx
  | cons c vs ih =>
    rw [List.mem_cons, not_or] at hz
    rw [List.length_cons] at hlong
    by_cases hdir : fs.isDir (List.replicate k z) = false
    · exact Fs.walk_cons_error budget (.inl hdir)
    rw [Bool.not_eq_false] at hdir
    by_cases hc : c ≠ dot ∧ c ≠ dotdot
    · apply Fs.walk_cons_error budget
      exact .inr ⟨hc.1, hc.2, hfs k c (by omega) hk fun h => hz.1 h.symm⟩
    -- a dot or a parent step: the names are still to come
    have hrest : ∃ x ∈ vs, x ≠ dot ∧ x ≠ dotdot := by
      obtain ⟨x, hx, hne⟩ := hname
      rcases List.mem_cons.mp hx with rfl | hx
      · exact absurd hne hc
      · exact ⟨x, hx, hne⟩
    rw [Fs.walk_cons budget hdir fun h₁ h₂ => absurd ⟨h₁, h₂⟩ hc]
    by_cases hdot : c = dot
    · rw [Fs.lexStep, if_pos hdot]
      exact ih hz.2 (by omega) hk hrest
    · have hparent : c = dotdot := by
        by_contra hne
        exact hc ⟨hdot, hne⟩
      rw [Fs.lexStep, if_neg hdot, if_pos hparent, List.dropLast_replicate]
      exact ih hz.2 (by omega) (by omega) hrest

theorem walk_leave {d : Loc} (follow : Bool) (budget : ℕ) (hdir : fs.isDir d = true)
    {dots vs : List Bytes} (hdots : ∀ x ∈ dots, x = dot) :
    fs.walk follow budget d (dots ++ dotdot :: vs) = fs.walk follow budget d.dropLast vs := by
  induction dots with
  | nil =>
    rw [List.nil_append, Fs.walk_cons budget hdir fun _ h => absurd rfl h]
    rfl
  | cons x dots ih =>
    have hx := hdots x List.mem_cons_self
    rw [List.cons_append, Fs.walk_cons budget hdir fun h _ => absurd hx h, Fs.lexStep, if_pos hx]
    exact ih fun y hy => hdots y (List.mem_cons_of_mem x hy)

/-- Parent steps and dots never make a location longer. -/
theorem length_resolveFrom_le {cs : List Bytes} (h : ∀ x ∈ cs, x = dot ∨ x = dotdot) (cur : Loc) :
    (resolveFrom cur cs).length ≤ cur.length := by
  induction cs generalizing cur with
  | nil => exact Nat.le_refl _
  | cons c cs ih =>
    have hrest := ih (fun x hx => h x (List.mem_cons_of_mem c hx)) (Fs.lexStep cur c)
    have hstep : (Fs.lexStep cur c).length ≤ cur.length := by
      unfold Fs.lexStep
      rcases h c List.mem_cons_self with rfl | rfl
      · simp
      · rw [if_neg (by decide), if_pos rfl, List.length_dropLast]
        omega
    rw [Fs.resolveFrom_cons]
    omega

/-- A symlink at `spot` to a place far away, with something at `q` below it. -/
def detour (spot : Loc) (z : Bytes) (n : ℕ) (q : Loc) : Fs :=
  sample spot (.symlink (render (List.replicate n z))) [List.replicate n z ++ q]

section Detour
variable {spot q : Loc} {z c : Bytes} {n : ℕ}

theorem isDir_detour_far (hn : 1 ≤ n) (hspot : spot ≠ []) (hz : z ∉ spot) {l : Loc}
    (hl : l <+: List.replicate n z ++ q) : (detour spot z n q).isDir l = true := by
  refine isDir_sample ?_ (.inr ⟨_, List.mem_singleton_self _, hl⟩)
  rintro rfl
  cases l with
  | nil => exact hspot rfl
  | cons x xs =>
    obtain ⟨m, rfl⟩ := Nat.exists_eq_add_of_le' hn
    rw [List.replicate_succ, List.cons_append, List.cons_prefix_cons] at hl
    exact hz (hl.1 ▸ List.mem_cons_self)

theorem entry_detour_lost (hz : z ∉ spot) {k : ℕ} {x : Bytes} (hk : 1 ≤ k) (hkn : k < n)
    (hx : x ≠ z) : (detour spot z n q).entry (List.replicate k z ++ [x]) = none := by
  have hmem : z ∈ List.replicate k z ++ [x] :=
    List.mem_append_left _ (List.mem_replicate.mpr ⟨by omega, rfl⟩)
  apply entry_sample_eq_none
  · intro h
    exact hz (h ▸ hmem)
  · intro h
    exact hz (h.subset hmem)
  · intro d hd hle
    obtain ⟨m, rfl⟩ := Nat.exists_eq_add_of_lt hkn
    rw [List.mem_singleton.mp hd, Nat.add_assoc, List.replicate_add, List.append_assoc,
      List.prefix_append_right_inj, List.replicate_succ, List.cons_append,
      List.cons_prefix_cons] at hle
    exact hx hle.1

/-- Whatever leads to the symlink ends up at its target. -/
theorem walk_detour (follow : Bool) (hn : 1 ≤ n) (hord : Ordinary z) (hz : z ∉ spot)
    {ws rest : List Bytes} (hws : Fs.noPops [] ws = true) (hspot : spot = resolveFrom [] ws ++ [c])
    (hdot : c ≠ dot) (hparent : c ≠ dotdot) (hrest : rest ≠ []) :
    (detour spot z n q).walk follow 40 [] (ws ++ c :: rest) =
      (detour spot z n q).walk follow 39 (List.replicate n z) rest := by
  have hne : spot ≠ [] := by simp [hspot]
  have hdest : ∀ x ∈ List.replicate n z, Ordinary x := by
    intro x hx
    rwa [List.eq_of_mem_replicate hx]
  have habove : ∀ v ∈ Fs.visited [] ws, (detour spot z n q).isDir v = true := by
    intro v hv
    obtain ⟨-, hle⟩ := Fs.prefix_of_mem_visited hws v hv
    apply isDir_sample
    · rintro rfl
      have hlen := hle.length_le
      rw [hspot, List.length_append, List.length_singleton] at hlen
      omega
    · rw [hspot]
      exact .inl (hle.trans (List.prefix_append _ _))
  have hfar : ∀ v ∈ Fs.visited [] (List.replicate n z), (detour spot z n q).isDir v = true := by
    intro v hv
    obtain ⟨-, hle⟩ := Fs.prefix_of_mem_visited (Fs.noPops_ordinary hdest) v hv
    rw [resolveFrom_ordinary hdest, List.nil_append] at hle
    exact isDir_detour_far hn hne hz (hle.trans (List.prefix_append _ _))
  have hentry : (detour spot z n q).entry (resolveFrom [] ws ++ [c]) = some 1 := by
    rw [← hspot]
    exact entry_sample_spot
  rw [Fs.walk_append 40 habove, Fs.walk_symlink 39 (habove _ (Fs.last_mem_visited [] ws)) hdot
    hparent hentry rfl (head_render _) hrest, fields_render hdest, Fs.walk_append 39 hfar,
    resolveFrom_ordinary hdest, List.nil_append]

end Detour

theorem ordinary_joined (hb : ∀ c ∈ b, Ordinary c) (name : Bytes) :
    ∀ c ∈ resolveFrom b (fields slash name), Ordinary c := by
  intro c hc
  rcases mem_resolveFrom hc with hc | ⟨hc, hdot, hparent⟩
  · exact hb c hc
  · exact ⟨fields_proper hc, hdot, hparent⟩

/-- A component that is entered, left and entered again may be a symlink: the
normalised path goes through it, the raw one ends up next to its target. -/
theorem reentered_differs (hb : ∀ c ∈ b, Ordinary c) {us vs : List Bytes}
    (hsegs : fields slash name = us ++ dotdot :: vs) (hpops : Fs.noPops b us = true)
    (hp : resolveFrom b us ≠ [])
    (hin : resolveFrom b us <+: resolveFrom b (fields slash name)) :
    ∃ fs : Fs, fs.Sane ∧ entryAt fs (joined b name) = absentEntry ∧
      entryAt fs (render (resolveFrom b (fields slash name))) ≠ absentEntry := by
  have hord := ordinary_joined hb name
  have hres := resolveFrom_nil_append hb us
  have hall : Fs.noPops [] (b ++ us) = true := by
    rw [Fs.noPops_append, Fs.noPops_ordinary hb, resolveFrom_ordinary hb]
    exact hpops
  obtain ⟨ws, c, dots, hws, hcdot, hcparent, hdots, hspot⟩ :=
    Fs.exists_last_push hall (by rwa [hres]) rfl
  rw [hres] at hspot
  have hnws : Fs.noPops [] ws = true := by
    rw [hws, Fs.noPops_append, Bool.and_eq_true] at hall
    exact hall.1
  obtain ⟨q, hq⟩ := hin
  obtain ⟨z, hz, hfresh⟩ := exists_fresh (resolveFrom b (fields slash name) ++ vs)
  rw [List.mem_append, not_or] at hfresh
  have hzspot : z ∉ resolveFrom b us := fun h => hfresh.1 (hq ▸ List.mem_append_left q h)
  have hlast : (resolveFrom b us).dropLast = resolveFrom [] ws := by
    rw [hspot, List.dropLast_concat]
  refine ⟨detour (resolveFrom b us) z (vs.length + 2) q, sample_sane (.inl hp), ?_, ?_⟩
  · have hlost : ∀ k x, 1 ≤ k → k < vs.length + 2 → x ≠ z →
        (detour (resolveFrom b us) z (vs.length + 2) q).entry (List.replicate k z ++ [x]) = none :=
      fun k x hk hkn hx => entry_detour_lost hzspot hk hkn hx
    have hname : ∃ x ∈ vs, x ≠ dot ∧ x ≠ dotdot := by
      by_contra hnone
      have hdd : ∀ x ∈ vs, x = dot ∨ x = dotdot := by
        intro x hx
        by_contra hne
        rw [not_or] at hne
        exact hnone ⟨x, hx, hne⟩
      have hle := length_resolveFrom_le hdd (resolveFrom [] ws)
      have hend : resolveFrom b (fields slash name) = resolveFrom (resolveFrom [] ws) vs := by
        rw [hsegs, Fs.resolveFrom_append, Fs.resolveFrom_cons, ← hlast]
        rfl
      have hlen := congrArg List.length hq
      rw [hend, hspot] at hlen
      simp only [List.length_append, List.length_singleton] at hlen
      omega
    have hdir := isDir_detour_far (l := List.replicate (vs.length + 2) z) (q := q)
      (Nat.le_add_left 1 _) hp hzspot (List.prefix_append _ _)
    obtain ⟨e, he⟩ := walk_lost hlost ((joined b name).getLast? == some slash) 39 hfresh.2
      (Nat.lt_succ_self _) (Nat.lt_succ_self _) hname
    refine entryAt_of_walk_error (e := e) ?_
    rw [fields_joined hb, hsegs, ← List.append_assoc, hws, List.append_assoc, List.cons_append,
      walk_detour _ (Nat.le_add_left 1 _) hz hzspot hnws hspot hcdot hcparent (by simp),
      walk_leave _ 39 hdir hdots, List.dropLast_replicate]
    exact he
  · by_cases hnil : q = []
    · rw [hnil, List.append_nil] at hq
      rw [← hq]
      exact render_present (hq ▸ hord) hp _ _
    · have hqord : ∀ x ∈ q, Ordinary x := fun x hx => hord x (hq ▸ List.mem_append_right _ hx)
      have hinit : ∀ x ∈ resolveFrom [] ws, Ordinary x := by
        intro x hx
        apply hord
        rw [← hq, hspot]
        exact List.mem_append_left _ (List.mem_append_left _ hx)
      have hsame : resolveFrom [] (resolveFrom [] ws) = resolveFrom [] ws := resolveFrom_ordinary hinit
      have hdirs : ∀ v ∈ Fs.visited (List.replicate (vs.length + 2) z) q,
          (detour (resolveFrom b us) z (vs.length + 2) q).isDir v = true := by
        intro v hv
        obtain ⟨-, hle⟩ := Fs.prefix_of_mem_visited (Fs.noPops_ordinary hqord) v hv
        rw [resolveFrom_ordinary hqord] at hle
        exact isDir_detour_far (Nat.le_add_left 1 _) hp hzspot hle
      have hend := hdirs _ (Fs.last_mem_visited _ q)
      have hslash : (render (resolveFrom b (fields slash name))).getLast? ≠ some slash := by
        rw [ne_eq, getLast_render hord, ← hq]
        simp [hnil]
      apply entryAt_ne_absentEntry (l := resolveFrom (List.replicate (vs.length + 2) z) q)
      · have hcomps : resolveFrom b (fields slash name) = resolveFrom [] ws ++ c :: q := by
          rw [← hq, hspot, List.append_assoc, List.singleton_append]
        rw [fields_render hord, hcomps,
          walk_detour _ (Nat.le_add_left 1 _) hz hzspot (Fs.noPops_ordinary hinit)
            (by rw [hsame]; exact hspot) hcdot hcparent hnil]
        exact Fs.walk_through 39 hdirs
      · exact fun _ => hend
      · obtain ⟨i, hi, -⟩ := Fs.isDir_iff.mp hend
        rw [hi]
        rfl

/-- The name goes straight down from the base and ends in a name: no `..`
removes a component, and no slash or dot comes last. -/
def Straight (b : Loc) (name : Bytes) : Prop :=
  Fs.noPops b (fields slash name) = true ∧
    (resolveFrom b (fields slash name) = [] ∨ Ordinary (lastSegment name))

/-- A straight name is looked up at the normalised path. -/
theorem entryAt_joined (hfs : fs.Sane) (hb : ∀ c ∈ b, Ordinary c) (h : Straight b name) :
    entryAt fs (joined b name) = entryAt fs (render (resolveFrom b (fields slash name))) := by
  have hres := resolveFrom_nil_append hb (fields slash name)
  have hall : Fs.noPops [] (b ++ fields slash name) = true := by
    rw [Fs.noPops_append, Fs.noPops_ordinary hb, resolveFrom_ordinary hb]
    exact h.1
  have hord := ordinary_joined hb name
  unfold entryAt
  by_cases hnil : resolveFrom b (fields slash name) = []
  · -- both paths are the top directory
    have hdirs : ∀ v ∈ Fs.visited [] (b ++ fields slash name), fs.isDir v = true := by
      intro v hv
      have hle := (Fs.prefix_of_mem_visited hall v hv).2
      rw [hres, hnil, List.prefix_nil] at hle
      rw [hle]
      exact hfs.top
    have hraw : fs.walk ((joined b name).getLast? == some slash) 40 [] (b ++ fields slash name) =
        .ok _ := Fs.walk_through 40 hdirs
    have htop : fs.walk ((render []).getLast? == some slash) 40 [] (fields slash (render [])) =
        .ok [] := Fs.walk_nil 40
    rw [hres, hnil, ← fields_joined hb] at hraw
    rw [lstatPath_of_walk hraw fun _ => hfs.top, hnil, lstatPath_of_walk htop fun _ => hfs.top]
  · have hlast := h.2.resolve_left hnil
    have hseg := hlast.1.1
    have hraw : ((joined b name).getLast? == some slash) = false := by
      rw [beq_eq_false_iff_ne, ne_eq, getLast_joined]
      exact hseg
    have hlex : ((render (resolveFrom b (fields slash name))).getLast? == some slash) = false := by
      rw [beq_eq_false_iff_ne, ne_eq, getLast_render hord]
      exact hnil
    have hend : (b ++ fields slash name).getLast? ≠ some dot := by
      rw [fields_getLast hseg b]
      intro heq
      exact hlast.2.1 (Option.some.inj heq)
    have hwalk := Fs.walk_straight false 40 hfs.top hall hend
    unfold Fs.lstatPath
    dsimp only
    rw [hraw, hlex, fields_joined hb, fields_render hord, hwalk, hres]

/-- Every other name has a state in which the two answers differ. -/
theorem exists_differs (hb : ∀ c ∈ b, Ordinary c) (h : ¬ Straight b name) :
    ∃ fs : Fs, fs.Sane ∧
      entryAt fs (joined b name) ≠ entryAt fs (render (resolveFrom b (fields slash name))) := by
  have hord := ordinary_joined hb name
  cases hpops : Fs.noPops b (fields slash name) with
  | true =>
    have hend : resolveFrom b (fields slash name) ≠ [] ∧ ¬ Ordinary (lastSegment name) :=
      not_or.mp fun hend => h ⟨hpops, hend⟩
    refine ⟨sample (resolveFrom b (fields slash name)) (.regular []) [], sample_sane (.inl hend.1), ?_⟩
    rw [trailing_absent hb hpops hend.2]
    exact (render_present hord hend.1 _ _).symm
  | false =>
    obtain ⟨us, vs, hsegs, hus, hne⟩ := Fs.exists_pop hpops
    by_cases hback : resolveFrom b us <+: resolveFrom b (fields slash name)
    · obtain ⟨fs, hfs, hraw, hlex⟩ := reentered_differs hb hsegs hus hne hback
      exact ⟨fs, hfs, by rw [hraw]; exact hlex.symm⟩
    · refine ⟨sample [] .directory [resolveFrom b (fields slash name)], sample_sane (.inr rfl), ?_⟩
      rw [popped_absent hb hsegs hback]
      exact (render_present_dirs hord).symm

end Joins

section Agreement
variable {cfg : Config} {r : Loc} {base name : Bytes}

/-- When the bulk entry of a name is the entry that `STAT` returns for
`base/name`, in every state. A path that is too long for `STAT` is absent there,
so it must not reach the kernel; the same holds for a base that is refused, where
the path with the name must be refused too. -/
def JoinSafe (root base name : Bytes) : Prop :=
  if pathMax ≤ base.length + 1 + name.length then
    ∀ norm, resolvePath root base = .ok norm → pathJoinFast norm name pathMax = none
  else
    match resolvePath root base with
    | .error _ => ∃ e, resolvePath root (base ++ slash :: name) = .error e
    | .ok _ => Straight (resolve base) name

/-- The lexical meaning of `base/name`. -/
theorem resolve_base_name (base name : Bytes) :
    resolve (base ++ slash :: name) = resolveFrom (resolve base) (fields slash name) := by
  rw [resolve, fields_append_sep, Fs.resolveFrom_append]
  rfl

theorem resolvePath_of_head {path : Bytes} (hr : ∀ c ∈ r, Ordinary c)
    (habs : path.head? = some slash) (hlen : path.length < pathMax) :
    resolvePath (render r) path =
      if r <+: resolve path then .ok (render (resolve path)) else .error .eacces := by
  have hunder := pathUnderRoot_iff hr fun c (hc : c ∈ resolve path) => ordinary_of_mem_resolve hc
  unfold resolvePath
  rw [normalizeAbs_eq habs hlen]
  dsimp only
  simp only [hunder]

theorem resolvePath_error_of_long (root : Bytes) {path : Bytes} (hlen : pathMax ≤ path.length) :
    ∃ e, resolvePath root path = .error e := by
  unfold resolvePath
  by_cases habs : path.head? = some slash
  · rw [normalizeAbs_long habs hlen]
    exact ⟨_, rfl⟩
  · rw [normalizeAbs_relative habs]
    exact ⟨_, rfl⟩

theorem agrees_iff (hr : ∀ c ∈ r, Ordinary c) (hroot : cfg.root = render r)
    (hbase : 0 ∉ base) (hname : 0 ∉ name) (hsmall : (base ++ slash :: name).length < 2 ^ 32) :
    (∀ fs : Fs, fs.Sane →
      bulkStat cfg fs base name = singleStat cfg fs (base ++ slash :: name)) ↔
      JoinSafe cfg.root base name := by
  have hnul : 0 ∉ base ++ slash :: name := by
    simp only [List.mem_append, List.mem_cons, not_or]
    exact ⟨hbase, by decide, hname⟩
  have hlength : (base ++ slash :: name).length = base.length + 1 + name.length := by
    simp only [List.length_append, List.length_cons]
    omega
  have hb : ∀ c ∈ resolve base, Ordinary c := fun c hc => ordinary_of_mem_resolve hc
  simp only [bulkStat_eq, singleStat_eq hnul hsmall]
  unfold JoinSafe
  by_cases hlong : pathMax ≤ base.length + 1 + name.length
  · -- `STAT` refuses the path
    rw [if_pos hlong]
    obtain ⟨e, he⟩ := resolvePath_error_of_long cfg.root (hlength ▸ hlong)
    rw [he]
    cases hres : resolvePath cfg.root base with
    | error e' => simp
    | ok norm =>
      have hrest := hres
      rw [hroot] at hrest
      obtain ⟨rfl, -, -⟩ := resolvePath_eq_ok hr hrest
      simp only [Except.ok.injEq, forall_eq']
      rw [pathJoinFast_render hb]
      by_cases hfits : (joined (resolve base) name).length + 1 > pathMax
      · rw [if_pos hfits]
        exact iff_of_true (fun _ _ => rfl) rfl
      · rw [if_neg hfits]
        constructor
        · intro h
          obtain ⟨fs, hfs, hpresent⟩ := exists_present (resolve base) name
          exact absurd (h fs hfs) hpresent
        · intro h
          cases h
  rw [if_neg hlong]
  rw [Nat.not_le] at hlong
  cases hres : resolvePath cfg.root base with
  | error e =>
    cases hfull : resolvePath cfg.root (base ++ slash :: name) with
    | error e' => simp
    | ok norm =>
      rw [hroot] at hfull
      obtain ⟨rfl, -, -⟩ := resolvePath_eq_ok hr hfull
      constructor
      · intro h
        obtain ⟨fs, hfs, hpresent⟩ := exists_present_render (resolve (base ++ slash :: name))
        exact absurd (h fs hfs).symm hpresent
      · rintro ⟨e', he'⟩
        cases he'
  | ok norm =>
    have hrest := hres
    rw [hroot] at hrest
    obtain ⟨rfl, hunder, -⟩ := resolvePath_eq_ok hr hrest
    have habs : base.head? = some slash := by
      by_contra hrel
      unfold resolvePath at hres
      rw [normalizeAbs_relative hrel] at hres
      cases hres
    have habs' : (base ++ slash :: name).head? = some slash := by
      rw [List.head?_append, habs]
      rfl
    have hfits : ¬ (joined (resolve base) name).length + 1 > pathMax := by
      have hshort := length_render_resolve_le habs
      have hpos : (joined (resolve base) name).length ≤ base.length + 1 + name.length := by
        simp only [joined, List.length_append, List.length_cons]
        split
        · simp only [List.length_nil]
          omega
        · omega
      omega
    rw [hroot, resolvePath_of_head hr habs' (by rw [hlength]; exact hlong), resolve_base_name]
    dsimp only
    rw [pathJoinFast_render hb, if_neg hfits]
    dsimp only
    constructor
    · intro h
      by_contra hnot
      by_cases hin : r <+: resolveFrom (resolve base) (fields slash name)
      · rw [if_pos hin] at h
        obtain ⟨fs, hfs, hdiff⟩ := exists_differs hb hnot
        exact hdiff (h fs hfs)
      · rw [if_neg hin] at h
        obtain ⟨fs, hfs, hpresent⟩ := exists_present (resolve base) name
        exact hpresent (h fs hfs)
    · intro h fs hfs
      have hdown := (Fs.prefix_of_mem_visited h.1 _ (Fs.head_mem_visited _ _)).2
      rw [if_pos (hunder.trans hdown)]
      exact entryAt_joined hfs hb h

/-- When the entries of a bulk request are those that `STAT` returns. A request
that is refused as a whole has no entries, so `STAT` must refuse every path. -/
def BulkSafe (root base : Bytes) (names : List Bytes) : Prop :=
  (Accepted base names → ∀ name ∈ names, JoinSafe root base name) ∧
    (¬ Accepted base names →
      ∀ name ∈ names, ∃ e, resolvePath root (base ++ slash :: name) = .error e)

/-- `STAT` says absent in every state only where it refuses the path. -/
theorem refused_iff {root path : Bytes} (hroot : cfg.root = render (resolve root)) (hnul : 0 ∉ path)
    (hsmall : path.length < 2 ^ 32) :
    (∀ fs : Fs, fs.Sane → absentEntry = singleStat cfg fs path) ↔
      ∃ e, resolvePath cfg.root path = .error e := by
  simp only [singleStat_eq hnul hsmall]
  cases hres : resolvePath cfg.root path with
  | error e => simp
  | ok norm =>
    rw [hroot] at hres
    obtain ⟨rfl, -, -⟩ := resolvePath_eq_ok (fun c hc => ordinary_of_mem_resolve hc) hres
    constructor
    · intro h
      obtain ⟨fs, hfs, hpresent⟩ := exists_present_render (resolve path)
      exact absurd (h fs hfs).symm hpresent
    · rintro ⟨e, he⟩
      cases he

/-- The entries of `STAT_BULK` are those of `STAT` in every state of the file
system exactly when the request is accepted and every name can be joined safely,
or it is refused and so is every path. -/
theorem statBulk_agrees_iff {root base : Bytes} {names : List Bytes}
    (hroot : cfg.root = render (resolve root)) (hbase : 0 ∉ base)
    (hnames : ∀ name ∈ names, 0 ∉ name)
    (hsmall : (bulkFrame base names).payload.length ≤ maxFrame) :
    (∀ fs : Fs, fs.Sane → ∀ i (hi : i < names.length),
      bulkAnswer cfg fs base names i = singleStat cfg fs (base ++ slash :: names[i])) ↔
      BulkSafe cfg.root base names := by
  classical
  have hfull : ∀ name ∈ names, 0 ∉ base ++ slash :: name ∧
      (base ++ slash :: name).length < 2 ^ 32 := by
    intro name hname
    have hmax : maxFrame < 2 ^ 32 := by decide
    have hname' := (length_le_encodeNames names).2 name hname
    constructor
    · simp only [List.mem_append, List.mem_cons, not_or]
      exact ⟨hbase, by decide, hnames name hname⟩
    · simp only [bulkFrame, List.length_append, length_le32] at hsmall
      simp only [List.length_append, List.length_cons]
      omega
  have hone : ∀ name ∈ names, ((∀ fs : Fs, fs.Sane →
      (if Accepted base names then bulkStat cfg fs base name else absentEntry) =
        singleStat cfg fs (base ++ slash :: name)) ↔
      (Accepted base names → JoinSafe cfg.root base name) ∧ (¬ Accepted base names →
        ∃ e, resolvePath cfg.root (base ++ slash :: name) = .error e)) := by
    intro name hname
    obtain ⟨hnul, hlen⟩ := hfull name hname
    by_cases haccept : Accepted base names
    · simp only [haccept, if_true, not_true_eq_false, IsEmpty.forall_iff, and_true,
        true_imp_iff]
      exact agrees_iff (fun c hc => ordinary_of_mem_resolve hc) hroot hbase (hnames name hname) hlen
    · simp only [haccept, if_false, not_false_eq_true, IsEmpty.forall_iff, true_and,
        true_imp_iff]
      exact refused_iff hroot hnul hlen
  constructor
  · intro h
    have hall : ∀ name ∈ names, _ := fun name hname => (hone name hname).mp <| by
      intro fs hfs
      obtain ⟨i, hi, rfl⟩ := List.getElem_of_mem hname
      rw [← h fs hfs i hi, bulkAnswer_eq hbase hnames hsmall hi]
    exact ⟨fun haccept name hname => (hall name hname).1 haccept,
      fun haccept name hname => (hall name hname).2 haccept⟩
  · intro h fs hfs i hi
    have hname : names[i] ∈ names := List.getElem_mem hi
    rw [bulkAnswer_eq hbase hnames hsmall hi]
    exact (hone _ hname).mpr ⟨fun haccept => h.1 haccept _ hname,
      fun haccept => h.2 haccept _ hname⟩ fs hfs

end Agreement

-- A server for `/r`, and a state with `/`, `/r` and a file `/r/f`.
def smallConfig : Config :=
  ⟨[47, 114], ⟨0, 0, [], 1⟩, ⟨Remote.Handshake.terse, [47, 114], true⟩, fun _ => []⟩

theorem joinSafe_file : JoinSafe smallConfig.root [47, 114] [102] := by
  have hstraight : Straight (resolve [47, 114]) [102] :=
    ⟨by decide, .inr ⟨⟨by decide, by decide⟩, by decide, by decide⟩⟩
  exact hstraight

/-- `STAT_BULK /r` with the name `f` -/
theorem statBulk_agrees_file : (bulkFrame [47, 114] [[102]]).payload.length ≤ maxFrame ∧
    ∀ fs : Fs, fs.Sane → ∀ i (hi : i < ([[102]] : List Bytes).length),
      bulkAnswer smallConfig fs [47, 114] [[102]] i =
        singleStat smallConfig fs ([47, 114] ++ slash :: ([[102]] : List Bytes)[i]) := by
  have hroot : smallConfig.root = render (resolve [47, 114]) := by decide
  have hsmall : (bulkFrame [47, 114] [[102]]).payload.length ≤ maxFrame := by decide
  refine ⟨hsmall, (statBulk_agrees_iff hroot (by decide) (by decide) hsmall).mpr ⟨?_, ?_⟩⟩
  · intro _ name hname
    rw [List.mem_singleton.mp hname]
    exact joinSafe_file
  · intro hrefused
    exact absurd ⟨by decide, by decide, by decide⟩ hrefused

/-- The parent of the root, which `STAT` reports as absent. -/
theorem statBulk_leaks_parent :
    (sample [[114]] .directory []).Sane ∧
      bulkAnswer smallConfig (sample [[114]] .directory []) [47, 114] [[46, 46]] 0 ≠
        singleStat smallConfig (sample [[114]] .directory []) [47, 114, 47, 46, 46] ∧
      singleStat smallConfig (sample [[114]] .directory []) [47, 114, 47, 46, 46] = absentEntry := by
  refine ⟨sample_sane (.inr rfl), ?_, ?_⟩
  · decide +kernel
  · decide +kernel

end Ecopy.Server
