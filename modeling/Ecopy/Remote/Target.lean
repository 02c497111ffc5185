import Ecopy.Lib.CStrings
import Ecopy.Server.Handlers
import Mathlib.Data.Nat.Digits.Lemmas

/-!
# The target of a remote copy

`ssh_target_parse` cuts `ssh://[user@]host[:port]/path` at the first slash behind the scheme,
at the first `@` before that slash and at the last `:` behind the `@`. It does not look at the
bytes of the parts. `Parts.Reads` says what it takes, `Parts.Strict` is the grammar, and
`Odd` lists what the parser lets through beside it.

`spawn_ssh` passes the host to the client as an argument of its own, behind all options.
Strings are shorter than 2 GiB, so that `snprintf` can return their length.
-/
namespace Ecopy.Remote.Target
open Lib.CStrings Ecopy.Path
open Protocol (Bytes)
open Server (decimal)

def atSign : UInt8 := 64
def colon : UInt8 := 58

/-- `ssh_target_t`; no user is the empty string, and port 0 the default. -/
structure SshTarget where
  user : Bytes
  host : Bytes
  port : ℤ
  path : Bytes
deriving DecidableEq, Repr

def scheme : Bytes := ascii "ssh://"

def sshTargetIsUrl (s : Bytes) : Bool := s.take 6 == scheme

/-- The user, and what is left of the authority. -/
def splitUser (authority : Bytes) : Option (Bytes × Bytes) :=
  match strchr atSign authority with
  | none => some ([], authority)
  | some k => if k ≥ 256 then none else some (authority.take k, authority.drop (k + 1))

/-- The host, and the port. -/
def splitPort (hostpart : Bytes) : Option (Bytes × ℤ) :=
  match strrchr colon hostpart with
  | none => some (hostpart, 0)
  | some k =>
    let port := strtol (hostpart.drop (k + 1))
    if port.rest ≠ [] ∨ port.value ≤ 0 ∨ port.value > 65535 then none
    else some (hostpart.take k, port.value)

def sshTargetParse (s : Bytes) : Option SshTarget :=
  if ¬ sshTargetIsUrl s then none
  else
    let p := s.drop 6
    match strchr slash p with
    | none => none
    | some alen =>
      if alen = 0 ∨ alen ≥ 512 then none
      else if (p.drop alen).length ≥ pathMax then none
      else
        match splitUser (p.take alen) with
        | none => none
        | some (user, hostpart) =>
          match splitPort hostpart with
          | none => none
          | some (host, port) =>
            if host = [] then none
            else if host.length ≥ 256 then none
            else some ⟨user, host, port, p.drop alen⟩

inductive SshMux where
  | none
  | master
  | secondary
deriving DecidableEq, Repr

def SshTarget.hostArg (t : SshTarget) : Bytes :=
  (if t.user ≠ [] then t.user ++ atSign :: t.host else t.host).take 511

/-- The arguments in `spawn_ssh`. -/
def spawnArgv (sshBinary : Bytes) (t : SshTarget) (remoteCommand : Bytes) (mux : SshMux)
    (cipherOpt controlPath : Bytes) : List Bytes :=
  [sshBinary] ++
  (if t.port > 0 then [ascii "-p", decimal t.port.toNat] else []) ++
  [ascii "-o", ascii "BatchMode=no"] ++
  (if cipherOpt ≠ [] ∧ mux ≠ .secondary then [ascii "-o", cipherOpt] else []) ++
  (if mux ≠ .none then
    [ascii "-o", ascii "ControlMaster=" ++ ascii (if mux = .master then "auto" else "no"),
      ascii "-o", ascii "ControlPath=" ++ controlPath] ++
    (if mux = .master then [ascii "-o", ascii "ControlPersist=60"] else [])
  else []) ++
  [t.hostArg, remoteCommand]

/-- What the client takes for an option. -/
def ReadAsOption (arg : Bytes) : Prop := arg.head? = some minus

instance (arg : Bytes) : Decidable (ReadAsOption arg) :=
  inferInstanceAs (Decidable (arg.head? = some minus))

/-- What is left behind the options. Those of this call have their value in the next argument. -/
def operands : List Bytes → List Bytes
  | option :: value :: argv =>
    if ReadAsOption option then operands argv else option :: value :: argv
  | argv => argv

/-- A user and a port are there or not. -/
structure Parts where
  user : Option Bytes
  host : Bytes
  port : Option Bytes
  path : Bytes

namespace Parts

/-- The host with a user, as it stands in the text and in the argument. -/
def login (p : Parts) : Bytes := p.user.elim p.host (· ++ atSign :: p.host)

def authority (p : Parts) : Bytes := p.login ++ p.port.elim [] (colon :: ·)

def text (p : Parts) : Bytes := scheme ++ (p.authority ++ p.path)

/-- Neither empty nor with a byte that separates parts. -/
def Name (x : Bytes) : Prop := x ≠ [] ∧ slash ∉ x ∧ atSign ∉ x ∧ colon ∉ x

def PortDigits (x : Bytes) : Prop :=
  x ≠ [] ∧ (∀ d ∈ x, isDigit d = true) ∧ 1 ≤ digitsValue x ∧ digitsValue x ≤ 65535

/-- The grammar, and the room in the buffers. -/
structure Strict (p : Parts) : Prop where
  user : ∀ u, p.user = some u → Name u ∧ u.length < 256
  host : Name p.host ∧ p.host.length < 256
  dash : p.host.head? ≠ some minus ∧ p.login.head? ≠ some minus
  port : ∀ n, p.port = some n → PortDigits n
  absolute : p.path.head? = some slash
  path_lt : p.path.length < pathMax
  room : p.authority.length < 512

/-- What these parts stand for. -/
def target (p : Parts) : SshTarget :=
  ⟨p.user.getD [], p.host, p.port.elim 0 fun n => digitsValue n, p.path⟩

end Parts

/-- `s` is a target of the grammar, with these fields. -/
def Grammar (s : Bytes) (t : SshTarget) : Prop := ∃ p : Parts, s = p.text ∧ p.Strict ∧ t = p.target

/-- A port as `strtol` reads it. -/
def PortText (x : Bytes) : Prop :=
  (strtol x).rest = [] ∧ 1 ≤ (strtol x).value ∧ (strtol x).value ≤ 65535

namespace Parts

structure Reads (p : Parts) : Prop where
  room : p.authority.length < 512
  slashFree : slash ∉ p.authority
  absolute : p.path.head? = some slash
  path_lt : p.path.length < pathMax
  user : ∀ u, p.user = some u → atSign ∉ u ∧ u.length < 256
  noUser : p.user = none → atSign ∉ p.authority
  port : ∀ n, p.port = some n → PortText n
  noPort : p.port = none → colon ∉ p.host
  host_ne : p.host ≠ []
  host_lt : p.host.length < 256

/-- What the parser takes the parts for. -/
def taken (p : Parts) : SshTarget :=
  ⟨p.user.getD [], p.host, p.port.elim 0 fun n => (strtol n).value, p.path⟩

/-- What the parser lets through beside the grammar. -/
inductive Odd (p : Parts) : Prop where
  | emptyUser (h : p.user = some [])
  | colonInUser (u : Bytes) (h : p.user = some u) (hc : colon ∈ u)
  | atInHost (h : atSign ∈ p.host)
  | colonInHost (h : colon ∈ p.host)
  | dashedUser (u : Bytes) (h : p.user = some u) (hd : u.head? = some minus)
  | dashedHost (h : p.host.head? = some minus)
  | spelledPort (n : Bytes) (h : p.port = some n) (b : UInt8) (hb : b ∈ n) (hd : isDigit b = false)

end Parts

variable {x : Bytes} {t : SshTarget}

theorem portText_spelled (h : PortText x) :
    ∃ digits, Spelled x ⟨false, digits, []⟩ ∧ (strtol x).value = digitsValue digits := by
  obtain ⟨hrest, hpos, hmax⟩ := h
  have hspelled := strtol_spelled (s := x) (by omega) (by omega)
  rwa [hrest] at hspelled

/-- Such a port has blanks, a plus sign and digits only. -/
theorem portText_bytes (h : PortText x) :
    ∀ b ∈ x, isSpace b = true ∨ b = plus ∨ isDigit b = true := by
  obtain ⟨digits, hspelled, -⟩ := portText_spelled h
  obtain ⟨blanks, sign, rfl, hblanks, hsign⟩ := hspelled.spelling
  have hplus : ∀ b ∈ sign, b = plus := by
    rcases hsign with ⟨hneg, -⟩ | ⟨-, rfl | rfl⟩
    · cases hneg
    · exact nofun
    · exact fun b hb => List.mem_singleton.mp hb
  intro b hb
  rw [List.append_nil, List.mem_append, List.mem_append] at hb
  rcases hb with (hb | hb) | hb
  · exact .inl (hblanks b hb)
  · exact .inr (.inl (hplus b hb))
  · exact .inr (.inr (hspelled.digits_all b hb))

theorem portText_free (h : PortText x) : colon ∉ x ∧ atSign ∉ x ∧ slash ∉ x := by
  have hbytes := portText_bytes h
  refine ⟨fun hb => ?_, fun hb => ?_, fun hb => ?_⟩
  · exact absurd (hbytes _ hb) (by decide)
  · exact absurd (hbytes _ hb) (by decide)
  · exact absurd (hbytes _ hb) (by decide)

theorem portText_of_digits (h : Parts.PortDigits x) :
    PortText x ∧ (strtol x).value = digitsValue x := by
  obtain ⟨hne, hall, hpos, hmax⟩ := h
  have hread := strtol_digits hne hall (by omega)
  unfold PortText
  rw [hread]
  exact ⟨⟨rfl, by simpa using hpos, by simpa using hmax⟩, rfl⟩

theorem portDigits_of_text (h : PortText x) (hall : ∀ b ∈ x, isDigit b = true) :
    Parts.PortDigits x := by
  have hne : x ≠ [] := by
    rintro rfl
    exact absurd h.2.1 (by decide)
  obtain ⟨digits, hspelled, hvalue⟩ := portText_spelled h
  have hwhole : Spelled x ⟨false, x, []⟩ :=
    ⟨hne, hall, nofun, [], [], by simp, nofun, .inr ⟨rfl, .inl rfl⟩⟩
  have hsame := (scan_eq_some_iff.mpr hspelled).symm.trans (scan_eq_some_iff.mpr hwhole)
  obtain rfl : digits = x := by simpa using hsame
  obtain ⟨-, hpos, hmax⟩ := h
  rw [hvalue] at hpos hmax
  exact ⟨hne, hall, by omega, by omega⟩

theorem splitUser_eq_some_iff {a u h : Bytes} : splitUser a = some (u, h) ↔
    (atSign ∉ a ∧ u = [] ∧ h = a) ∨ (a = u ++ atSign :: h ∧ atSign ∉ u ∧ u.length < 256) := by
  unfold splitUser
  cases hat : strchr atSign a with
  | none =>
    have hfree := strchr_eq_none_iff.mp hat
    dsimp only
    rw [Option.some.injEq, Prod.mk.injEq]
    constructor
    · rintro ⟨rfl, rfl⟩
      exact .inl ⟨hfree, rfl, rfl⟩
    · rintro (⟨-, rfl, rfl⟩ | ⟨rfl, -⟩)
      · exact ⟨rfl, rfl⟩
      · exact absurd (by simp) hfree
  | some k =>
    obtain ⟨u', h', rfl, hfree, rfl⟩ := strchr_eq_some_iff.mp hat
    dsimp only
    rw [(take_drop_around u' h' atSign).1, (take_drop_around u' h' atSign).2]
    constructor
    · intro hcut
      split_ifs at hcut with hfits
      obtain ⟨rfl, rfl⟩ := Prod.mk.inj (Option.some.inj hcut)
      exact .inr ⟨rfl, hfree, Nat.not_le.mp hfits⟩
    · rintro (⟨hnone, -⟩ | ⟨heq, hfree', hfits⟩)
      · exact absurd (by simp) hnone
      · obtain ⟨rfl, rfl⟩ := append_first_inj hfree hfree' heq
        rw [if_neg (Nat.not_le.mpr hfits)]

/-- The last colon is looked for; a port that is read has none. -/
theorem splitPort_eq_some_iff {a h : Bytes} {port : ℤ} : splitPort a = some (h, port) ↔
    (colon ∉ a ∧ h = a ∧ port = 0) ∨
      ∃ x, a = h ++ colon :: x ∧ PortText x ∧ port = (strtol x).value := by
  unfold splitPort
  cases hcolon : strrchr colon a with
  | none =>
    have hfree := strrchr_eq_none_iff.mp hcolon
    dsimp only
    rw [Option.some.injEq, Prod.mk.injEq]
    constructor
    · rintro ⟨rfl, rfl⟩
      exact .inl ⟨hfree, rfl, rfl⟩
    · rintro (⟨-, rfl, rfl⟩ | ⟨x, rfl, -⟩)
      · exact ⟨rfl, rfl⟩
      · exact absurd (by simp) hfree
  | some k =>
    obtain ⟨h', x, rfl, hfree, rfl⟩ := strrchr_eq_some_iff.mp hcolon
    dsimp only
    rw [(take_drop_around h' x colon).1, (take_drop_around h' x colon).2]
    constructor
    · intro hcut
      split_ifs at hcut with hbad
      obtain ⟨rfl, rfl⟩ := Prod.mk.inj (Option.some.inj hcut)
      rw [not_or, not_or, not_not] at hbad
      exact .inr ⟨x, rfl, ⟨hbad.1, by omega, by omega⟩, rfl⟩
    · rintro (⟨hnone, -⟩ | ⟨y, heq, hport, rfl⟩)
      · exact absurd (by simp) hnone
      · obtain ⟨rfl, rfl⟩ := append_last_inj hfree (portText_free hport).1 heq
        rw [if_neg]
        rw [not_or, not_or, not_not]
        exact ⟨hport.1, by have := hport.2.1; omega, by have := hport.2.2; omega⟩

theorem sshTargetIsUrl_iff {s : Bytes} : sshTargetIsUrl s = true ↔ ∃ rest, s = scheme ++ rest := by
  unfold sshTargetIsUrl
  rw [beq_iff_eq]
  constructor
  · intro h
    exact ⟨s.drop 6, by rw [← h, List.take_append_drop]⟩
  · rintro ⟨rest, rfl⟩
    exact List.take_left' rfl

/-- A string without the scheme, or without a slash behind it, is refused. -/
theorem exists_split_of_parse {s : Bytes} (h : sshTargetParse s = some t) :
    ∃ a b, s = scheme ++ (a ++ slash :: b) ∧ slash ∉ a := by
  unfold sshTargetParse at h
  split_ifs at h with hurl
  obtain ⟨rest, rfl⟩ := sshTargetIsUrl_iff.mp (by simpa using hurl)
  cases hslash : strchr slash rest with
  | none =>
    have hdrop : (scheme ++ rest).drop 6 = rest := List.drop_left' rfl
    rw [hdrop] at h
    dsimp only at h
    rw [hslash] at h
    cases h
  | some k =>
    obtain ⟨a, b, rfl, hfree, -⟩ := strchr_eq_some_iff.mp hslash
    exact ⟨a, b, rfl, hfree⟩

/-- Behind the first slash the cuts of the authority decide. -/
theorem parse_split_iff {a b : Bytes} (ha : slash ∉ a) :
    sshTargetParse (scheme ++ (a ++ slash :: b)) = some t ↔
      a ≠ [] ∧ a.length < 512 ∧ (slash :: b).length < pathMax ∧
        ∃ u hostpart h port, splitUser a = some (u, hostpart) ∧ splitPort hostpart = some (h, port) ∧
          h ≠ [] ∧ h.length < 256 ∧ t = ⟨u, h, port, slash :: b⟩ := by
  have hurl : sshTargetIsUrl (scheme ++ (a ++ slash :: b)) = true := sshTargetIsUrl_iff.mpr ⟨_, rfl⟩
  have hdrop : (scheme ++ (a ++ slash :: b)).drop 6 = a ++ slash :: b :=
    List.drop_left' rfl
  unfold sshTargetParse
  rw [hurl, if_neg (not_not.mpr rfl), hdrop]
  dsimp only
  rw [strchr_append ha]
  dsimp only
  rw [List.take_left, List.drop_left]
  constructor
  · intro h
    split_ifs at h with hlen hpath
    rw [not_or, List.length_eq_zero_iff, Nat.not_le] at hlen
    cases huser : splitUser a with
    | none =>
      rw [huser] at h
      cases h
    | some cut =>
      obtain ⟨u, hostpart⟩ := cut
      rw [huser] at h
      dsimp only at h
      cases hport : splitPort hostpart with
      | none =>
        rw [hport] at h
        cases h
      | some cut =>
        obtain ⟨host, port⟩ := cut
        rw [hport] at h
        dsimp only at h
        split_ifs at h with hne hfits
        exact ⟨hlen.1, hlen.2, Nat.not_le.mp hpath, u, hostpart, host, port, rfl, hport, hne,
          Nat.not_le.mp hfits, (Option.some.inj h).symm⟩
  · rintro ⟨hne, hlen, hpath, u, hostpart, host, port, huser, hport, hhost, hfits, rfl⟩
    rw [if_neg, if_neg (Nat.not_le.mpr hpath), huser]
    · dsimp only
      rw [hport]
      dsimp only
      rw [if_neg hhost, if_neg (Nat.not_le.mpr hfits)]
    · rw [not_or, List.length_eq_zero_iff, Nat.not_le]
      exact ⟨hne, hlen⟩

/-- The parser takes the strings whose parts it reads. -/
theorem sshTargetParse_eq_some_iff {s : Bytes} :
    sshTargetParse s = some t ↔ ∃ p : Parts, s = p.text ∧ p.Reads ∧ t = p.taken := by
  constructor
  · intro h
    obtain ⟨a, b, rfl, hfree⟩ := exists_split_of_parse h
    obtain ⟨-, hlen, hpath, u, hostpart, host, port, huser, hport, hne, hfits, rfl⟩ :=
      (parse_split_iff hfree).mp h
    -- the two ways to cut off a user, and the two ways to cut off a port
    obtain ⟨user, hlogin, hu, huser⟩ : ∃ user : Option Bytes,
        a = user.elim hostpart (· ++ atSign :: hostpart) ∧ u = user.getD [] ∧
          (∀ x, user = some x → atSign ∉ x ∧ x.length < 256) ∧ (user = none → atSign ∉ a) := by
      rcases splitUser_eq_some_iff.mp huser with ⟨hnone, rfl, rfl⟩ | ⟨rfl, hnone, hroom⟩
      · exact ⟨none, rfl, rfl, nofun, fun _ => hnone⟩
      · refine ⟨some u, rfl, rfl, ?_, nofun⟩
        rintro x ⟨rfl⟩
        exact ⟨hnone, hroom⟩
    obtain ⟨number, hhost, hn, hnumber⟩ : ∃ number : Option Bytes,
        hostpart = host ++ number.elim [] (colon :: ·) ∧
          port = number.elim 0 (fun n => (strtol n).value) ∧
          (∀ x, number = some x → PortText x) ∧ (number = none → colon ∉ host) := by
      rcases splitPort_eq_some_iff.mp hport with ⟨hnone, rfl, rfl⟩ | ⟨x, rfl, htext, rfl⟩
      · exact ⟨none, by simp, rfl, nofun, fun _ => hnone⟩
      · refine ⟨some x, rfl, rfl, ?_, nofun⟩
        rintro y ⟨rfl⟩
        exact htext
    have hauthority : (Parts.mk user host number (slash :: b)).authority = a := by
      rw [hlogin, hhost]
      unfold Parts.authority Parts.login
      cases user with
      | none => rfl
      | some u => simp
    refine ⟨⟨user, host, number, slash :: b⟩, ?_, ?_, ?_⟩
    · rw [Parts.text, hauthority]
    · exact ⟨by rwa [hauthority], by rwa [hauthority], rfl, hpath, huser.1,
        fun hnone => by rw [hauthority]; exact huser.2 hnone, hnumber.1, hnumber.2, hne, hfits⟩
    · rw [hu, hn]
      rfl
  · rintro ⟨p, rfl, hr, rfl⟩
    obtain ⟨b, hb⟩ : ∃ b, p.path = slash :: b := by
      have habs := hr.absolute
      cases hp : p.path with
      | nil =>
        rw [hp] at habs
        cases habs
      | cons c b =>
        rw [hp] at habs
        exact ⟨b, by rw [Option.some.inj habs]⟩
    unfold Parts.text
    rw [hb, parse_split_iff hr.slashFree]
    have hlogin : p.login ≠ [] := by
      unfold Parts.login
      cases p.user with
      | none => exact hr.host_ne
      | some u => simp
    refine ⟨by simp [Parts.authority, hlogin], hr.room, hb ▸ hr.path_lt, p.user.getD [],
      p.host ++ p.port.elim [] (colon :: ·), p.host, p.taken.port, ?_, ?_, hr.host_ne, hr.host_lt, ?_⟩
    · rw [splitUser_eq_some_iff]
      cases hu : p.user with
      | none => exact .inl ⟨hr.noUser hu, rfl, by simp [Parts.authority, Parts.login, hu]⟩
      | some u => exact .inr ⟨by simp [Parts.authority, Parts.login, hu], hr.user u hu⟩
    · rw [splitPort_eq_some_iff]
      cases hn : p.port with
      | none => exact .inl ⟨by simpa using hr.noPort hn, by simp, by simp [Parts.taken, hn]⟩
      | some n => exact .inr ⟨n, rfl, hr.port n hn, by simp [Parts.taken, hn]⟩
    · unfold Parts.taken
      rw [hb]

namespace Parts
variable {p q : Parts}

/-- A string is read in one way only. -/
theorem Reads.unique (hp : p.Reads) (hq : q.Reads) (h : p.text = q.text) : p = q := by
  obtain ⟨hauth, hpath⟩ := Lib.Fields.append_sep_inj hp.slashFree hq.slashFree (.inr hp.absolute)
    (.inr hq.absolute) (List.append_cancel_left h)
  have huser : p.user = q.user ∧
      p.host ++ p.port.elim [] (colon :: ·) = q.host ++ q.port.elim [] (colon :: ·) := by
    have hpnone := hp.noUser
    have hqnone := hq.noUser
    unfold authority login at hauth hpnone hqnone
    cases hpu : p.user with
    | none =>
      cases hqu : q.user with
      | none =>
        rw [hpu, hqu] at hauth
        exact ⟨rfl, hauth⟩
      | some u =>
        have hfree := hpnone hpu
        rw [hauth, hqu] at hfree
        exact absurd (by simp) hfree
    | some u =>
      cases hqu : q.user with
      | none =>
        have hfree := hqnone hqu
        rw [← hauth, hpu] at hfree
        exact absurd (by simp) hfree
      | some v =>
        rw [hpu, hqu] at hauth
        simp only [Option.elim_some, List.append_assoc, List.cons_append] at hauth
        obtain ⟨rfl, hrest⟩ := append_first_inj (hp.user u hpu).1 (hq.user v hqu).1 hauth
        exact ⟨rfl, hrest⟩
  have hport : p.host = q.host ∧ p.port = q.port := by
    have hhost := huser.2
    cases hpn : p.port with
    | none =>
      cases hqn : q.port with
      | none =>
        rw [hpn, hqn] at hhost
        exact ⟨by simpa using hhost, rfl⟩
      | some n =>
        have hfree := hp.noPort hpn
        rw [hpn, hqn, Option.elim_none, List.append_nil] at hhost
        rw [hhost] at hfree
        exact absurd (by simp) hfree
    | some n =>
      cases hqn : q.port with
      | none =>
        have hfree := hq.noPort hqn
        rw [hpn, hqn, Option.elim_none, List.append_nil] at hhost
        rw [← hhost] at hfree
        exact absurd (by simp) hfree
      | some m =>
        rw [hpn, hqn] at hhost
        obtain ⟨heq, rfl⟩ := append_last_inj (portText_free (hp.port n hpn)).1
          (portText_free (hq.port m hqn)).1 hhost
        exact ⟨heq, rfl⟩
  obtain ⟨pu, ph, pn, pp⟩ := p
  obtain ⟨qu, qh, qn, qp⟩ := q
  obtain ⟨rfl, -⟩ := huser
  obtain ⟨rfl, rfl⟩ := hport
  obtain rfl := hpath
  rfl

theorem head_login (h : ∀ u, p.user = some u → u ≠ []) :
    p.login.head? = some minus ↔
      (∃ u, p.user = some u ∧ u.head? = some minus) ∨ p.user = none ∧ p.host.head? = some minus := by
  unfold login
  cases hu : p.user with
  | none => simp
  | some u =>
    obtain ⟨b, r, rfl⟩ := List.exists_cons_of_ne_nil (h u hu)
    simp

/-- The grammar is what the parser reads, less the oddities. -/
theorem strict_iff : p.Strict ↔ p.Reads ∧ ¬ p.Odd := by
  constructor
  · intro h
    have hdigits : ∀ n, p.port = some n → PortText n := fun n hn => (portText_of_digits (h.port n hn)).1
    have hnoPort : ∀ c : UInt8, c ≠ colon → (∀ n, PortText n → c ∉ n) →
        c ∉ p.port.elim [] (colon :: ·) := by
      intro c hc hfree
      cases hn : p.port with
      | none => exact List.not_mem_nil
      | some n =>
        rw [Option.elim_some, List.mem_cons, not_or]
        exact ⟨hc, hfree n (hdigits n hn)⟩
    refine ⟨⟨h.room, ?_, h.absolute, h.path_lt, ?_, ?_, hdigits, fun _ => h.host.1.2.2.2, h.host.1.1,
      h.host.2⟩, ?_⟩
    · unfold authority login
      rw [List.mem_append, not_or]
      refine ⟨?_, hnoPort slash (by decide) fun n hn => (portText_free hn).2.2⟩
      cases hu : p.user with
      | none => exact h.host.1.2.1
      | some u =>
        rw [Option.elim_some, List.mem_append, List.mem_cons, not_or, not_or]
        exact ⟨(h.user u hu).1.2.1, by decide, h.host.1.2.1⟩
    · exact fun u hu => ⟨(h.user u hu).1.2.2.1, (h.user u hu).2⟩
    · intro hu
      unfold authority login
      rw [hu, Option.elim_none, List.mem_append, not_or]
      exact ⟨h.host.1.2.2.1, hnoPort atSign (by decide) fun n hn => (portText_free hn).2.1⟩
    · intro hodd
      cases hodd with
      | emptyUser hu => exact (h.user [] hu).1.1 rfl
      | colonInUser u hu hc => exact (h.user u hu).1.2.2.2 hc
      | atInHost hc => exact h.host.1.2.2.1 hc
      | colonInHost hc => exact h.host.1.2.2.2 hc
      | dashedUser u hu hd =>
        exact h.dash.2 ((head_login fun v hv => (h.user v hv).1.1).mpr (.inl ⟨u, hu, hd⟩))
      | dashedHost hd => exact h.dash.1 hd
      | spelledPort n hn b hb hd =>
        rw [(h.port n hn).2.1 b hb] at hd
        cases hd
  · rintro ⟨h, hodd⟩
    have hslash := h.slashFree
    unfold authority at hslash
    rw [List.mem_append, not_or] at hslash
    have hlogin : slash ∉ p.host ∧ ∀ u, p.user = some u → slash ∉ u := by
      have hfree := hslash.1
      unfold login at hfree
      cases hu : p.user with
      | none =>
        rw [hu] at hfree
        exact ⟨hfree, nofun⟩
      | some u =>
        rw [hu, Option.elim_some, List.mem_append, List.mem_cons, not_or, not_or] at hfree
        exact ⟨hfree.2.2, fun v hv => Option.some.inj hv ▸ hfree.1⟩
    have huser : ∀ u, p.user = some u → Name u ∧ u.length < 256 := by
      intro u hu
      refine ⟨⟨?_, hlogin.2 u hu, (h.user u hu).1, fun hc => hodd (.colonInUser u hu hc)⟩,
        (h.user u hu).2⟩
      rintro rfl
      exact hodd (.emptyUser hu)
    refine ⟨huser, ⟨⟨h.host_ne, hlogin.1, fun hc => hodd (.atInHost hc),
      fun hc => hodd (.colonInHost hc)⟩, h.host_lt⟩, ⟨fun hd => hodd (.dashedHost hd), ?_⟩, ?_,
      h.absolute, h.path_lt, h.room⟩
    · rw [Ne, head_login fun v hv => (huser v hv).1.1]
      rintro (⟨u, hu, hd⟩ | ⟨-, hd⟩)
      · exact hodd (.dashedUser u hu hd)
      · exact hodd (.dashedHost hd)
    · intro n hn
      refine portDigits_of_text (h.port n hn) fun b hb => ?_
      by_contra hd
      exact hodd (.spelledPort n hn b hb (by simpa using hd))

theorem taken_eq_target (h : p.Strict) : p.taken = p.target := by
  unfold taken target
  cases hn : p.port with
  | none => rfl
  | some n =>
    rw [Option.elim_some, Option.elim_some, (portText_of_digits (h.port n hn)).2]

/-- The argument is the host with its user, unshortened. -/
theorem hostArg_target (h : p.Strict) : p.target.hostArg = p.login := by
  have hhost := h.host.2
  unfold SshTarget.hostArg target login
  cases hu : p.user with
  | none =>
    dsimp only [Option.getD_none, Option.elim_none]
    rw [if_neg (not_not.mpr rfl), List.take_of_length_le (by omega)]
  | some u =>
    have hlen := (h.user u hu).2
    dsimp only [Option.getD_some, Option.elim_some]
    rw [if_pos (h.user u hu).1.1, List.take_of_length_le]
    rw [List.length_append, List.length_cons]
    omega

end Parts

section Decimal

theorem digitsValue_eq_ofDigits (x : Bytes) :
    digitsValue x = Nat.ofDigits 10 (x.reverse.map fun d => d.toNat - 48) := by
  induction x using List.reverseRecOn with
  | nil => rfl
  | append_singleton x d ih =>
    rw [digitsValue_concat, ih, List.reverse_append, List.reverse_singleton,
      List.singleton_append, List.map_cons, Nat.ofDigits_cons, Nat.add_comm]

theorem toNat_digit {d : ℕ} (h : d < 10) : (UInt8.ofNat (48 + d)).toNat = 48 + d := by
  rw [UInt8.toNat_ofNat', Nat.mod_eq_of_lt (by omega)]

theorem decimal_pos {n : ℕ} (h : 0 < n) : decimal n ≠ [] ∧ (∀ d ∈ decimal n, isDigit d = true) ∧
    digitsValue (decimal n) = n := by
  have hbase : ∀ d ∈ Nat.digits 10 n, d < 10 := fun d hd => Nat.digits_lt_base (by decide) hd
  unfold decimal
  rw [if_neg (by omega)]
  refine ⟨by simp [Nat.digits_ne_nil_iff_ne_zero]; omega, ?_, ?_⟩
  · intro d hd
    obtain ⟨k, hk, rfl⟩ := List.mem_map.mp hd
    have hlt := hbase k (List.mem_reverse.mp hk)
    rw [isDigit_iff, toNat_digit hlt]
    omega
  · rw [digitsValue_eq_ofDigits, ← List.map_reverse, List.reverse_reverse, List.map_map]
    have hid : (Nat.digits 10 n).map ((fun d : UInt8 => d.toNat - 48) ∘ fun d => UInt8.ofNat (48 + d))
        = Nat.digits 10 n := by
      conv_rhs => rw [← List.map_id (Nat.digits 10 n)]
      refine List.map_congr_left fun d hd => ?_
      rw [Function.comp_apply, toNat_digit (hbase d hd), Nat.add_sub_cancel_left, id]
    rw [hid, Nat.ofDigits_digits]

theorem decimal_digitsValue {d : UInt8} {x : Bytes} (hall : ∀ b ∈ d :: x, isDigit b = true)
    (hd : d ≠ 48) : decimal (digitsValue (d :: x)) = d :: x := by
  have hrange : ∀ b ∈ d :: x, 48 ≤ b.toNat ∧ b.toNat ≤ 57 := fun b hb => isDigit_iff.mp (hall b hb)
  have hback : ((d :: x).map fun b => b.toNat - 48).map (fun k => UInt8.ofNat (48 + k)) = d :: x := by
    rw [List.map_map]
    conv_rhs => rw [← List.map_id (d :: x)]
    refine List.map_congr_left fun b hb => ?_
    have hb := hrange b hb
    rw [Function.comp_apply, Nat.add_sub_cancel' hb.1, UInt8.ofNat_toNat, id]
  have hlead : d.toNat - 48 ≠ 0 := by
    have hlow := hrange d List.mem_cons_self
    intro heq
    exact hd (UInt8.toNat_inj.mp (show d.toNat = 48 by omega))
  have hdigits : Nat.digits 10 (digitsValue (d :: x)) =
      (d :: x).reverse.map fun b => b.toNat - 48 := by
    rw [digitsValue_eq_ofDigits]
    refine Nat.digits_ofDigits 10 (by decide) _ ?_ ?_
    · intro k hk
      obtain ⟨b, hb, rfl⟩ := List.mem_map.mp hk
      have hb := hrange b (List.mem_reverse.mp hb)
      omega
    · intro hne
      simpa using hlead
  have hpos : digitsValue (d :: x) ≠ 0 := by
    intro hzero
    rw [hzero, Nat.digits_zero] at hdigits
    simp at hdigits
  unfold decimal
  rw [if_neg hpos, hdigits, ← List.map_reverse, List.reverse_reverse, hback]

/-- A number is written with some zeros in front of its shortest form. -/
theorem exists_zeros {x : Bytes} (hall : ∀ b ∈ x, isDigit b = true) (hpos : 0 < digitsValue x) :
    ∃ zeros, x = List.replicate zeros 48 ++ decimal (digitsValue x) := by
  induction x with
  | nil => exact absurd hpos (lt_irrefl 0)
  | cons d x ih =>
    by_cases hd : d = 48
    · subst hd
      have hsame : digitsValue (48 :: x) = digitsValue x := rfl
      obtain ⟨zeros, heq⟩ := ih (fun b hb => hall b (List.mem_cons_of_mem _ hb)) hpos
      refine ⟨zeros + 1, ?_⟩
      rw [hsame, List.replicate_succ, List.cons_append, ← heq]
    · exact ⟨0, (decimal_digitsValue hall hd).symm⟩

end Decimal

/-- A target with its port written in this way. -/
def SshTarget.spell (t : SshTarget) (port : Bytes) : Bytes :=
  scheme ++ ((if t.user ≠ [] then t.user ++ atSign :: t.host else t.host) ++
    (if t.port > 0 then colon :: port else []) ++ t.path)

def SshTarget.print (t : SshTarget) : Bytes := t.spell (decimal t.port.toNat)

namespace Parts
variable {p : Parts}

theorem target_port (h : p.Strict) : p.target.port > 0 ↔ p.port ≠ none := by
  unfold target
  cases hn : p.port with
  | none => simp
  | some n =>
    have hpos : 0 < digitsValue n := (h.port n hn).2.2.1
    simpa using hpos

theorem text_eq_spell (h : p.Strict) : p.text = p.target.spell (p.port.getD []) := by
  have hlogin : (if p.target.user ≠ [] then p.target.user ++ atSign :: p.target.host
      else p.target.host) = p.login := by
    unfold target login
    cases hu : p.user with
    | none => simp
    | some u => simp [(h.user u hu).1.1]
  have hport : (if p.target.port > 0 then colon :: p.port.getD [] else []) =
      p.port.elim [] (colon :: ·) := by
    rw [if_congr (target_port h) rfl rfl]
    cases p.port with
    | none => rfl
    | some n => rfl
  unfold text SshTarget.spell authority
  rw [hlogin, hport]
  rfl

/-- The parts with the port in its shortest form. -/
def canonical (p : Parts) : Parts := { p with port := p.port.map fun n => decimal (digitsValue n) }

theorem Strict.canonical (h : p.Strict) : p.canonical.Strict := by
  refine ⟨h.user, h.host, h.dash, ?_, h.absolute, h.path_lt, lt_of_le_of_lt ?_ h.room⟩
  · intro x hx
    obtain ⟨n, hn, rfl⟩ := Option.map_eq_some_iff.mp hx
    obtain ⟨-, -, hpos, hmax⟩ := h.port n hn
    obtain ⟨hne, hall, hvalue⟩ := decimal_pos hpos
    exact ⟨hne, hall, by omega, by omega⟩
  · show (p.login ++ _).length ≤ (p.login ++ _).length
    rw [List.length_append, List.length_append]
    refine Nat.add_le_add_left ?_ _
    show ((p.port.map fun n => decimal (digitsValue n)).elim [] (colon :: ·)).length ≤ _
    cases hn : p.port with
    | none => exact le_refl _
    | some n =>
      obtain ⟨zeros, heq⟩ := exists_zeros (h.port n hn).2.1 (h.port n hn).2.2.1
      have hlen := congrArg List.length heq
      rw [List.length_append] at hlen
      simp only [Option.map_some, Option.elim_some, List.length_cons]
      omega

theorem target_canonical (h : p.Strict) : p.canonical.target = p.target := by
  unfold target canonical
  cases hn : p.port with
  | none => rfl
  | some n =>
    simp only [Option.map_some, Option.elim_some, (decimal_pos (h.port n hn).2.2.1).2.2]

theorem print_target (h : p.Strict) : p.target.print = p.canonical.text := by
  rw [text_eq_spell h.canonical, target_canonical h, SshTarget.print]
  unfold canonical target
  cases hn : p.port with
  | none => simp [SshTarget.spell]
  | some n => simp

end Parts

/-- The options of the call have their values behind them; the host is the first argument that
could be read as one. -/
theorem operands_spawnArgv (h : ¬ ReadAsOption t.hostArg) (sshBinary cmd : Bytes) (mux : SshMux)
    (cipherOpt controlPath : Bytes) :
    operands (spawnArgv sshBinary t cmd mux cipherOpt controlPath).tail = [t.hostArg, cmd] := by
  have hskip : ∀ option value argv, ReadAsOption option →
      operands (option :: value :: argv) = operands argv := by
    intro option value argv hoption
    rw [operands, if_pos hoption]
  have hstop : operands [t.hostArg, cmd] = [t.hostArg, cmd] := by
    rw [operands, if_neg h]
  have hp : ReadAsOption (ascii "-p") := by decide
  have ho : ReadAsOption (ascii "-o") := by decide
  unfold spawnArgv
  cases mux <;> split_ifs <;>
    simp only [List.cons_append, List.nil_append, List.tail_cons, hskip _ _ _ hp, hskip _ _ _ ho,
      hstop]

/-- The string is parsed as the grammar says. What is accepted can be printed, which gives the
same string but for zeros in front of the port, and the client reads the host as the host. -/
structure Meets (s : Bytes) : Prop where
  exact : ∀ t, sshTargetParse s = some t ↔ Grammar s t
  printed : ∀ t, sshTargetParse s = some t → sshTargetParse t.print = some t ∧
    ∃ zeros, s = t.spell (List.replicate zeros 48 ++ decimal t.port.toNat)
  operand : ∀ t, sshTargetParse s = some t → ∀ sshBinary cmd mux cipherOpt controlPath,
    operands (spawnArgv sshBinary t cmd mux cipherOpt controlPath).tail = [t.hostArg, cmd]

theorem grammar_parses {s : Bytes} (h : Grammar s t) : sshTargetParse s = some t := by
  obtain ⟨p, rfl, hp, rfl⟩ := h
  exact sshTargetParse_eq_some_iff.mpr
    ⟨p, rfl, (Parts.strict_iff.mp hp).1, (Parts.taken_eq_target hp).symm⟩

/-- A string meets the grammar exactly if the parts that the parser cuts it into are not odd. -/
theorem sshTargetParse_meets_iff (s : Bytes) :
    Meets s ↔ ∀ p : Parts, s = p.text → p.Reads → ¬ p.Odd := by
  constructor
  · rintro h p rfl hr hodd
    have hparse := sshTargetParse_eq_some_iff.mpr ⟨p, rfl, hr, rfl⟩
    obtain ⟨q, htext, hq, -⟩ := (h.exact _).mp hparse
    obtain ⟨hqr, hqodd⟩ := Parts.strict_iff.mp hq
    rw [hr.unique hqr htext] at hodd
    exact hqodd hodd
  · intro h
    have hgrammar : ∀ t, sshTargetParse s = some t → Grammar s t := by
      intro t ht
      obtain ⟨p, rfl, hr, rfl⟩ := sshTargetParse_eq_some_iff.mp ht
      have hp := Parts.strict_iff.mpr ⟨hr, h p rfl hr⟩
      exact ⟨p, rfl, hp, Parts.taken_eq_target hp⟩
    refine ⟨fun t => ⟨hgrammar t, grammar_parses⟩, ?_, ?_⟩
    · intro t ht
      obtain ⟨p, hs, hp, rfl⟩ := hgrammar t ht
      constructor
      · rw [Parts.print_target hp]
        exact grammar_parses ⟨p.canonical, rfl, hp.canonical, (Parts.target_canonical hp).symm⟩
      · rw [hs, Parts.text_eq_spell hp]
        cases hn : p.port with
        | none => exact ⟨0, by simp [SshTarget.spell, Parts.target, hn]⟩
        | some n =>
          obtain ⟨zeros, heq⟩ := exists_zeros (hp.port n hn).2.1 (hp.port n hn).2.2.1
          refine ⟨zeros, ?_⟩
          have hvalue : p.target.port.toNat = digitsValue n := by simp [Parts.target, hn]
          rw [hvalue, ← heq, Option.getD_some]
    · intro t ht
      obtain ⟨p, -, hp, rfl⟩ := hgrammar t ht
      refine operands_spawnArgv ?_
      rw [Parts.hostArg_target hp]
      exact hp.dash.2

/-- The host of this target is an option that makes the client run a command. -/
theorem dashed_host_parses : ¬ ∀ s, Meets s := by
  intro h
  have hparse : sshTargetParse (ascii "ssh://-oProxyCommand=x/p") =
      some ⟨[], ascii "-oProxyCommand=x", 0, ascii "/p"⟩ := by decide +kernel
  have hoperand := (h _).operand _ hparse [] [] .none [] []
  exact absurd hoperand (by decide +kernel)

end Ecopy.Remote.Target
