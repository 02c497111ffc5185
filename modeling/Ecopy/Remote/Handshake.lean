import Ecopy.Path
import Ecopy.Protocol.Message

/-!
# The HELLO handshake

The client encodes its version, capabilities, platform, the remote root, the
number of apply threads it asks for and its option bits into a buffer of 1024
bytes. The server, started with the same root, decodes them and answers with its
own version, capabilities, platform, normalised root and a flag, in a buffer of
512 bytes whose overflow it does not check. Both sides read the other's platform
into 128 bytes, although the string can have 129.

The exchange is the composition of the two functions; transport of the two frames
is not modelled here.
-/
namespace Ecopy.Remote.Handshake
open Protocol Ecopy.Path

/-- The two fields of `struct utsname` that are used. -/
structure Utsname where
  sysname : Bytes
  machine : Bytes
  sysname_le : sysname.length ≤ 64
  machine_le : machine.length ≤ 64
  sysname_nul_free : 0 ∉ sysname
  machine_nul_free : 0 ∉ machine

/-- `snprintf` of `"%s %s"` into 160 bytes. -/
def unameString (u : Utsname) : Bytes := (u.sysname ++ 32 :: u.machine).take 159

theorem unameString_eq (u : Utsname) : unameString u = u.sysname ++ 32 :: u.machine := by
  refine List.take_of_length_le ?_
  have h₁ := u.sysname_le
  have h₂ := u.machine_le
  simp only [List.length_append, List.length_cons]
  omega

theorem length_unameString_le (u : Utsname) : (unameString u).length ≤ 129 := by
  have h₁ := u.sysname_le
  have h₂ := u.machine_le
  rw [unameString_eq]
  simp only [List.length_append, List.length_cons]
  omega

theorem unameString_nul_free (u : Utsname) : 0 ∉ unameString u := by
  rw [unameString_eq]
  simp [u.sysname_nul_free, u.machine_nul_free]

structure Client where
  uname : Utsname
  /-- The path part of the target, from its first slash on. -/
  path : Bytes
  /-- `strtol` of `DIRECT_COPY_SSH_SERVER_THREADS`, 0 when unset. -/
  serverThreads : ℤ
  preserveTimes : Bool
  /-- `DIRECT_COPY_SSH_SERVER_DIRECT_IO` starts with `0`. -/
  serverBuffered : Bool
  path_abs : path.head? = some slash
  path_nul_free : 0 ∉ path

def Client.wantThreads (c : Client) : UInt32 :=
  let v := if c.serverThreads ≤ 0 then 16 else c.serverThreads
  let v := if v > 256 then 256 else v
  UInt32.ofNat v.toNat

def Client.options (c : Client) : UInt32 :=
  (if c.preserveTimes then optPreserveTimes else 0) |||
    (if c.serverBuffered then optServerBuffered else 0)

def helloPayload (c : Client) : Penc :=
  let e := pencInit 1024
  let e := pencU32 e protoVersion
  let e := pencU32 e (capFallocate ||| capSparse)
  let e := pencStr e (unameString c.uname)
  let e := pencStr e c.path
  let e := pencU32 e c.wantThreads
  pencU32 e c.options

/-- What the server reads from HELLO. -/
structure Hello where
  version : UInt32
  caps : UInt32
  wantThreads : UInt32
  options : UInt32
  error : Bool
deriving DecidableEq, Repr

def decodeHello (payload : Bytes) : Hello :=
  let d := pdecInit payload
  let (cver, d) := pdecU32 d
  let (ccaps, d) := pdecU32 d
  let (_, d) := pdecStr d 128
  let (_, d) := pdecStr d pathMax
  let (wantThreads, d) := pdecU32 d
  let wantThreads := if d.error then 0 else wantThreads
  let (opts, d) := pdecU32 d
  ⟨cver, ccaps, wantThreads, opts, d.error⟩

/-- The session settings that follow from HELLO: whether times are applied,
whether streamed files are opened for direct I/O, and the pool size asked of
`pool_start`. -/
structure Settings where
  preserveTimes : Bool
  serverDirectIo : Bool
  caps : UInt32
  poolThreads : ℕ
deriving DecidableEq, Repr

def settingsOf (serverDirectIo : Bool) (h : Hello) : Settings where
  preserveTimes := h.error || h.options &&& optPreserveTimes ≠ 0
  serverDirectIo := if !h.error && h.options &&& optServerBuffered ≠ 0 then false else serverDirectIo
  caps := h.caps
  -- the cast to `int` makes the upper half negative
  poolThreads := if h.wantThreads.toNat < 2 ^ 31 then min h.wantThreads.toNat 256 else 0

structure Server where
  uname : Utsname
  rootNorm : Bytes
  rootPresent : Bool

def helloOkPayload (s : Server) : Penc :=
  let e := pencInit 512
  let e := pencU32 e protoVersion
  let e := pencU32 e (capFallocate ||| capSparse)
  let e := pencStr e (unameString s.uname)
  let e := pencStr e s.rootNorm
  pencU8 e (if s.rootPresent then 1 else 0)

/-- The decoded HELLO and the reply. -/
def handleHello (s : Server) (f : Frame) : Hello × Frame :=
  (decodeHello f.payload, ⟨.helloOk, f.id, (helloOkPayload s).buf⟩)

inductive Outcome where
  | ok (version caps : UInt32) (remoteRoot : Bytes) (rootPresent : Bool)
  | retry
  | fatal
deriving DecidableEq, Repr

/-- The client's reading of the reply. -/
def readHelloOk (f : Frame) : Outcome :=
  if f.type ≠ .helloOk ∨ f.payload.length > 1024 then .retry
  else
    let d := pdecInit f.payload
    let (sver, d) := pdecU32 d
    let (scaps, d) := pdecU32 d
    match pdecStr d 128 with
    | (none, _) => .retry
    | (some _, d) =>
      match pdecStr d pathMax with
      | (none, _) => .retry
      | (some sroot, d) =>
        if d.error then .retry
        else if sver ≠ protoVersion then .retry
        else
          let (present, d) := pdecU8 d
          .ok sver scaps sroot (!d.error && present ≠ 0)

/-- The server process for the client's root. `none` when it refuses to start. -/
def startServer (c : Client) (uname : Utsname) (rootPresent : Bool) : Option Server :=
  match normalizeAbs c.path pathMax with
  | .error _ => none
  | .ok root => some ⟨uname, root, rootPresent⟩

def handshake (c : Client) (uname : Utsname) (rootPresent : Bool) : Option Hello × Outcome :=
  let e := helloPayload c
  if e.overflow then (none, .fatal)
  else
    match startServer c uname rootPresent with
    | none => (none, .retry)
    | some s =>
      let (h, reply) := handleHello s ⟨.hello, 1, e.buf⟩
      (some h, readHelloOk reply)

/-- Both sides read exactly what the other one sent. -/
def RoundTrip (c : Client) (uname : Utsname) : Prop :=
  ∀ rootPresent, handshake c uname rootPresent =
    (some ⟨protoVersion, capFallocate ||| capSparse, c.wantThreads, c.options, false⟩,
      .ok protoVersion (capFallocate ||| capSparse) (render (resolve c.path)) rootPresent)

def helloBlocks (c : Client) : List Bytes :=
  [le32 protoVersion, le32 (capFallocate ||| capSparse),
    le32 (UInt32.ofNat (unameString c.uname).length), unameString c.uname,
    le32 (UInt32.ofNat c.path.length), c.path, le32 c.wantThreads, le32 c.options]

theorem helloPayload_eq (c : Client) : helloPayload c = pencBlocks (pencInit 1024) (helloBlocks c) :=
  rfl

theorem length_helloBlocks (c : Client) :
    (helloBlocks c).flatten.length = 24 + (unameString c.uname).length + c.path.length := by
  simp [helloBlocks]
  omega

/-- The payload fits exactly when its fields do. -/
theorem helloPayload_overflow_iff (c : Client) :
    (helloPayload c).overflow = false ↔ 24 + (unameString c.uname).length + c.path.length ≤ 1024 := by
  rw [helloPayload_eq, ← length_helloBlocks]
  constructor
  · intro h
    by_contra hbig
    have hover := pencBlocks_overflow_of_too_long (e := pencInit 1024) (helloBlocks c)
      (by simpa [pencInit] using hbig) (by simp [pencInit])
    rw [h] at hover
    cases hover
  · intro h
    rw [pencBlocks_of_fits (by simpa [pencInit] using h)]
    rfl

theorem helloPayload_buf {c : Client} (h : (helloPayload c).overflow = false) :
    (helloPayload c).buf = (helloBlocks c).flatten := by
  rw [helloPayload_overflow_iff, ← length_helloBlocks] at h
  rw [helloPayload_eq, pencBlocks_of_fits (by simpa [pencInit] using h)]
  rfl

theorem wantThreads_ne_zero (c : Client) : c.wantThreads ≠ 0 := by
  unfold Client.wantThreads
  dsimp only
  intro h
  have hnat := congrArg UInt32.toNat h
  rw [UInt32.toNat_ofNat'] at hnat
  simp only [UInt32.toNat_zero] at hnat
  split_ifs at hnat <;> omega

/-- The server reads HELLO back when the platform string fits its buffer. -/
theorem decodeHello_of_fits {c : Client} (hfit : (helloPayload c).overflow = false)
    (hname : (unameString c.uname).length < 128) :
    decodeHello (helloPayload c).buf =
      ⟨protoVersion, capFallocate ||| capSparse, c.wantThreads, c.options, false⟩ := by
  have hpath := (helloPayload_overflow_iff c).mp hfit
  rw [helloPayload_buf hfit]
  simp only [helloBlocks, List.flatten_cons, List.flatten_nil, List.append_nil]
  unfold decodeHello pdecInit
  have hn := unameString_nul_free c.uname
  simp only [pdecU32_le32, pdecStr_le32 _ hn hname (by omega),
    pdecStr_le32 _ c.path_nul_free (show c.path.length < pathMax by unfold pathMax; omega)
      (by omega)]
  have hlast := pdecU32_le32 c.options []
  rw [List.append_nil] at hlast
  simp [hlast]

/-- Otherwise it falls back to no threads at all. -/
theorem decodeHello_of_long {c : Client} (hfit : (helloPayload c).overflow = false)
    (hname : 128 ≤ (unameString c.uname).length) :
    (decodeHello (helloPayload c).buf).wantThreads = 0 := by
  have hle := length_unameString_le c.uname
  rw [helloPayload_buf hfit]
  simp only [helloBlocks, List.flatten_cons, List.flatten_nil, List.append_nil]
  unfold decodeHello pdecInit
  simp only [pdecU32_le32, pdecStr_too_long hname (by omega)]
  simp

/-- The fields of HELLO_OK up to the length of the root. -/
def helloOkHead (s : Server) : List Bytes :=
  [le32 protoVersion, le32 (capFallocate ||| capSparse),
    le32 (UInt32.ofNat (unameString s.uname).length), unameString s.uname,
    le32 (UInt32.ofNat s.rootNorm.length)]

def rootFlag (s : Server) : Bytes := [if s.rootPresent then 1 else 0]

theorem helloOkPayload_eq (s : Server) :
    helloOkPayload s = pencBlocks (pencInit 512) (helloOkHead s ++ [s.rootNorm, rootFlag s]) :=
  rfl

theorem length_helloOkHead (s : Server) :
    (helloOkHead s).flatten.length = 16 + (unameString s.uname).length := by
  simp [helloOkHead]
  omega

/-- The head always fits. -/
theorem helloOkPayload_head (s : Server) :
    helloOkPayload s =
      pencBlocks ⟨512, (helloOkHead s).flatten, false⟩ [s.rootNorm, rootFlag s] := by
  have hle := length_unameString_le s.uname
  have hfits : (pencInit 512).buf.length + (helloOkHead s).flatten.length ≤ (pencInit 512).cap := by
    rw [length_helloOkHead]
    simp [pencInit]
    omega
  rw [helloOkPayload_eq, pencBlocks_append, pencBlocks_of_fits hfits]
  rfl

variable {s : Server} {id : UInt64}

theorem helloOkPayload_buf_of_fits
    (h : 17 + (unameString s.uname).length + s.rootNorm.length ≤ 512) :
    (helloOkPayload s).buf = (helloOkHead s).flatten ++ (s.rootNorm ++ rootFlag s) := by
  have hlen := length_helloOkHead s
  have htail : ([s.rootNorm, rootFlag s] : List Bytes).flatten.length = s.rootNorm.length + 1 := by
    simp [rootFlag]
  rw [helloOkPayload_head, pencBlocks_of_fits (by rw [htail]; dsimp only; omega)]
  simp

/-- One byte short: the flag is lost. -/
theorem helloOkPayload_buf_of_flag_lost
    (h : 16 + (unameString s.uname).length + s.rootNorm.length = 512) :
    (helloOkPayload s).buf = (helloOkHead s).flatten ++ s.rootNorm := by
  have hlen := length_helloOkHead s
  have hflag : (rootFlag s).length = 1 := rfl
  have hroot : pencBytes ⟨512, (helloOkHead s).flatten, false⟩ s.rootNorm =
      ⟨512, (helloOkHead s).flatten ++ s.rootNorm, false⟩ :=
    pencBytes_of_fits (by dsimp only; omega)
  rw [helloOkPayload_head]
  change (pencBytes (pencBytes ⟨512, (helloOkHead s).flatten, false⟩ s.rootNorm) (rootFlag s)).buf = _
  rw [hroot, pencBytes_of_overflow]
  dsimp only
  rw [List.length_append]
  omega

/-- Shorter still: the root is lost and the flag stands in its place. -/
theorem helloOkPayload_buf_of_root_lost
    (h : 512 < 16 + (unameString s.uname).length + s.rootNorm.length) :
    (helloOkPayload s).buf = (helloOkHead s).flatten ++ rootFlag s := by
  have hlen := length_helloOkHead s
  have hle := length_unameString_le s.uname
  have hflag : (rootFlag s).length = 1 := rfl
  have hroot : pencBytes ⟨512, (helloOkHead s).flatten, false⟩ s.rootNorm =
      ⟨512, (helloOkHead s).flatten, true⟩ :=
    pencBytes_of_overflow (by dsimp only; omega)
  rw [helloOkPayload_head]
  change (pencBytes (pencBytes ⟨512, (helloOkHead s).flatten, false⟩ s.rootNorm) (rootFlag s)).buf = _
  rw [hroot, pencBytes_of_fits]
  dsimp only
  omega

theorem length_helloOkPayload_le (s : Server) : (helloOkPayload s).buf.length ≤ 1024 := by
  have hcap := pencBlocks_length_le (e := pencInit 512)
    (helloOkHead s ++ [s.rootNorm, rootFlag s]) (by simp [pencInit])
  rw [← helloOkPayload_eq] at hcap
  exact Nat.le_trans hcap (by decide)

/-- The client's decoding after the head, for a platform string that fits. -/
theorem readHelloOk_head {tail : Bytes} (hname : (unameString s.uname).length < 128)
    (hbuf : (helloOkPayload s).buf = (helloOkHead s).flatten ++ tail) :
    readHelloOk ⟨.helloOk, id, (helloOkPayload s).buf⟩ =
      match pdecStr ⟨le32 (UInt32.ofNat s.rootNorm.length) ++ tail, false⟩ pathMax with
      | (none, _) => .retry
      | (some sroot, d) =>
        if d.error then .retry
        else
          .ok protoVersion (capFallocate ||| capSparse) sroot
            (!(pdecU8 d).2.error && (pdecU8 d).1 ≠ 0) := by
  have hlen := length_helloOkPayload_le s
  have hn := unameString_nul_free s.uname
  unfold readHelloOk
  rw [if_neg (by simpa using hlen)]
  simp only [hbuf, helloOkHead, List.flatten_cons, List.flatten_nil, List.append_nil,
    List.append_assoc, pdecInit, pdecU32_le32, pdecStr_le32 _ hn hname (by omega)]
  simp

theorem readHelloOk_of_long_name (hname : 128 ≤ (unameString s.uname).length) :
    readHelloOk ⟨.helloOk, id, (helloOkPayload s).buf⟩ = .retry := by
  have hlen := length_helloOkPayload_le s
  have hle := length_unameString_le s.uname
  obtain ⟨t, ht⟩ := pencBlocks_extends ⟨512, (helloOkHead s).flatten, false⟩
    [s.rootNorm, rootFlag s]
  rw [← helloOkPayload_head] at ht
  unfold readHelloOk
  rw [if_neg (by simpa using hlen)]
  simp only [ht, helloOkHead, List.flatten_cons, List.flatten_nil, List.append_nil,
    List.append_assoc, pdecInit, pdecU32_le32, pdecStr_too_long hname (by omega)]

theorem readHelloOk_of_root_lost (hname : (unameString s.uname).length < 128)
    (hroot : s.rootNorm.length < pathMax)
    (h : 512 < 16 + (unameString s.uname).length + s.rootNorm.length) :
    readHelloOk ⟨.helloOk, id, (helloOkPayload s).buf⟩ = .retry := by
  unfold pathMax at hroot
  rw [readHelloOk_head hname (helloOkPayload_buf_of_root_lost h),
    pdecStr_cut (by simp [rootFlag]; omega) (by omega)]

theorem readHelloOk_of_flag_lost (hname : (unameString s.uname).length < 128)
    (hroot : s.rootNorm.length < pathMax) (hnul : 0 ∉ s.rootNorm)
    (h : 16 + (unameString s.uname).length + s.rootNorm.length = 512) :
    readHelloOk ⟨.helloOk, id, (helloOkPayload s).buf⟩ =
      .ok protoVersion (capFallocate ||| capSparse) s.rootNorm false := by
  have hdec := pdecStr_le32 [] hnul hroot (by unfold pathMax at hroot; omega)
  rw [List.append_nil] at hdec
  rw [readHelloOk_head hname (helloOkPayload_buf_of_flag_lost h), hdec]
  rfl

theorem readHelloOk_of_fits (hname : (unameString s.uname).length < 128)
    (hroot : s.rootNorm.length < pathMax) (hnul : 0 ∉ s.rootNorm)
    (h : 17 + (unameString s.uname).length + s.rootNorm.length ≤ 512) :
    readHelloOk ⟨.helloOk, id, (helloOkPayload s).buf⟩ =
      .ok protoVersion (capFallocate ||| capSparse) s.rootNorm s.rootPresent := by
  have hdec := pdecStr_le32 (rootFlag s) hnul hroot (by unfold pathMax at hroot; omega)
  rw [readHelloOk_head hname (helloOkPayload_buf_of_fits h), hdec]
  cases hp : s.rootPresent <;> simp [rootFlag, hp]

/-- The handshake round trip, for a HELLO that the client can send. It holds
exactly when both platform strings fit the 128 bytes the peers read them into and
the reply fits the 512 bytes of the server. -/
theorem roundTrip_iff (c : Client) (uname : Utsname) (hfit : (helloPayload c).overflow = false) :
    RoundTrip c uname ↔
      (unameString c.uname).length < 128 ∧ (unameString uname).length < 128 ∧
        17 + (unameString uname).length + (render (resolve c.path)).length ≤ 512 := by
  have hlen := (helloPayload_overflow_iff c).mp hfit
  have hpath : c.path.length < pathMax := by
    unfold pathMax
    omega
  have hroot : (render (resolve c.path)).length < pathMax :=
    Nat.lt_of_le_of_lt (length_render_resolve_le c.path_abs) hpath
  have hnul := nul_free_render_resolve c.path_nul_free
  have hrun : ∀ present, handshake c uname present =
      (some (decodeHello (helloPayload c).buf),
        readHelloOk ⟨.helloOk, 1, (helloOkPayload ⟨uname, render (resolve c.path), present⟩).buf⟩) := by
    intro present
    simp only [handshake, hfit, startServer, normalizeAbs_eq c.path_abs hpath, handleHello,
      Bool.false_eq_true, if_false]
  constructor
  · intro h
    have hboth := fun present => Prod.mk.inj ((hrun present).symm.trans (h present))
    have hc : (unameString c.uname).length < 128 := by
      by_contra hbig
      have hzero := decodeHello_of_long hfit (Nat.le_of_not_lt hbig)
      rw [Option.some.inj (hboth true).1] at hzero
      exact wantThreads_ne_zero c hzero
    have hs : (unameString uname).length < 128 := by
      by_contra hbig
      have hreply := (hboth true).2
      rw [readHelloOk_of_long_name (Nat.le_of_not_lt hbig)] at hreply
      cases hreply
    refine ⟨hc, hs, ?_⟩
    by_contra hbig
    have hreply := (hboth true).2
    rcases Nat.lt_or_ge 512 (16 + (unameString uname).length + (render (resolve c.path)).length)
      with hlost | hlost
    · rw [readHelloOk_of_root_lost hs hroot hlost] at hreply
      cases hreply
    · rw [readHelloOk_of_flag_lost hs hroot hnul (by dsimp only; omega)] at hreply
      cases hreply
  · rintro ⟨hc, hs, hsize⟩ present
    rw [hrun present, decodeHello_of_fits hfit hc, readHelloOk_of_fits hs hroot hnul hsize]

def linux : Utsname where
  sysname := [76, 105, 110, 117, 120]
  machine := [120, 56, 54, 95, 54, 52]
  sysname_le := by decide
  machine_le := by decide
  sysname_nul_free := by decide
  machine_nul_free := by decide

/-- A host whose names have one letter. -/
def terse : Utsname := ⟨[76], [120], by decide, by decide, by decide, by decide⟩

/-- The names of a directory three levels below the top, of `n` letters each. -/
def threeLevels (n : ℕ) : List Bytes :=
  [List.replicate n 97, List.replicate n 98, List.replicate n 99]

/-- A client that copies to that directory. -/
def clientFor (n : ℕ) : Client where
  uname := linux
  path := render (threeLevels n)
  serverThreads := 0
  preserveTimes := true
  serverBuffered := false
  path_abs := head_render _
  path_nul_free := by
    intro h
    rw [render_eq_join (by simp [threeLevels])] at h
    simp [threeLevels, slash] at h

/-- The round trip to `/aaa/bbb/ccc`. -/
theorem roundTrip_iff_short_root :
    (helloPayload (clientFor 3)).overflow = false ∧ RoundTrip (clientFor 3) linux := by
  have hfit : (helloPayload (clientFor 3)).overflow = false := by decide
  exact ⟨hfit, (roundTrip_iff (clientFor 3) linux hfit).mpr (by decide)⟩

theorem length_path_clientFor (n : ℕ) : (clientFor n).path.length = 3 * n + 3 := by
  simp only [clientFor]
  rw [render_eq_join (by simp [threeLevels])]
  simp [threeLevels]
  omega

theorem ordinary_replicate (n : ℕ) {b : UInt8} (hslash : b ≠ slash) (hdot : b ≠ 46) :
    Ordinary (List.replicate (n + 1) b) := by
  refine ⟨⟨by simp, by simpa using hslash.symm⟩, ?_, ?_⟩
  · simp [dot, List.replicate_succ, hdot]
  · simp [dotdot, List.replicate_succ, hdot]

theorem length_root_clientFor (n : ℕ) :
    (render (resolve (clientFor (n + 1)).path)).length = 3 * n + 6 := by
  have hord : ∀ c ∈ threeLevels (n + 1), Ordinary c := by
    intro c hc
    simp only [threeLevels, List.mem_cons, List.not_mem_nil, or_false] at hc
    rcases hc with rfl | rfl | rfl
    · exact ordinary_replicate n (by decide) (by decide)
    · exact ordinary_replicate n (by decide) (by decide)
    · exact ordinary_replicate n (by decide) (by decide)
  have hpath := length_path_clientFor (n + 1)
  simp only [clientFor] at hpath ⊢
  rw [resolve_render hord, hpath]
  omega

/-- A root of 603 bytes, each name of 200 letters, fits HELLO but not HELLO_OK:
the client takes the reply for that of an incompatible server. -/
theorem long_root_handshake_fails :
    (helloPayload (clientFor 200)).overflow = false ∧
      (handshake (clientFor 200) linux true).2 = .retry ∧ ¬RoundTrip (clientFor 200) linux := by
  have huname : (unameString linux).length = 12 := by decide
  have hroot : (render (resolve (clientFor 200).path)).length = 603 := length_root_clientFor 199
  have hlen := length_path_clientFor 200
  have hfit : (helloPayload (clientFor 200)).overflow = false := by
    have hname : (unameString (clientFor 200).uname).length = 12 := huname
    rw [helloPayload_overflow_iff]
    omega
  have hpath : (clientFor 200).path.length < pathMax := by
    unfold pathMax
    omega
  have hretry : (handshake (clientFor 200) linux true).2 = .retry := by
    simp only [handshake, hfit, startServer, normalizeAbs_eq (clientFor 200).path_abs hpath,
      handleHello, Bool.false_eq_true, if_false]
    refine readHelloOk_of_root_lost ?_ ?_ ?_
    · dsimp only
      omega
    · unfold pathMax
      dsimp only
      omega
    · dsimp only
      omega
  refine ⟨hfit, hretry, fun h => ?_⟩
  rw [h true] at hretry
  cases hretry

end Ecopy.Remote.Handshake
