import Ecopy.Lib.CStrings

/-!
# How a shell reads a command line

Token recognition and quoting of the POSIX shell, one byte after the other. A token is a word
or a byte of an operator; each byte of a word is kept together with whether it was quoted,
since only bytes that are not quoted take part in expansions. Command and arithmetic
substitution, braced parameters, dollar-single-quotes and here-documents are not followed: the
scan ends in `beyond`.
-/
namespace Ecopy.Lib.ShellWords
open CStrings (ascii)

def quote : UInt8 := 39
def doubleQuote : UInt8 := 34
def backslash : UInt8 := 92
def dollar : UInt8 := 36
def backquote : UInt8 := 96
def newline : UInt8 := 10

def isBlank (b : UInt8) : Bool := b == 32 || b == 9

/-- `&`, `|`, `;`, `<`, `>`, `(`, `)` and the end of a line. -/
def isOperator (b : UInt8) : Bool := b ∈ ascii "&|;<>()" ++ [newline]

/-- The bytes of a word, and whether they were quoted. -/
abbrev Word := List (UInt8 × Bool)

inductive Token where
  | word (w : Word)
  | operator (b : UInt8)
deriving DecidableEq, Repr

/-- Where the scan is, or which byte it has just read. -/
inductive Mode where
  | plain
  | escape
  | variable
  | single
  | double
  | doubleEscape
  | comment
  | beyond
deriving DecidableEq, Repr

/-- The tokens that are complete, and the word that is not. -/
structure Scan where
  tokens : List Token
  word : Option Word
  mode : Mode
deriving DecidableEq, Repr

namespace Scan

def start : Scan := ⟨[], none, .plain⟩

/-- The tokens at the end of the word. -/
def flush (s : Scan) : List Token := s.tokens ++ (s.word.map Token.word).toList

def add (s : Scan) (b : UInt8) (quoted : Bool) : Scan :=
  { s with word := some (s.word.getD [] ++ [(b, quoted)]) }

/-- A byte outside of quotes. -/
def stepPlain (s : Scan) (b : UInt8) : Scan :=
  if b = quote then { s with word := some (s.word.getD []), mode := .single }
  else if b = doubleQuote then { s with word := some (s.word.getD []), mode := .double }
  else if b = backslash then { s with mode := .escape }
  else if b = backquote then { s with mode := .beyond }
  else if b = dollar then { s.add b false with mode := .variable }
  else if isBlank b then ⟨s.flush, none, .plain⟩
  else if isOperator b then
    if b = 60 ∧ s.flush.getLast? = some (.operator 60) then { s with mode := .beyond }
    else ⟨s.flush ++ [.operator b], none, .plain⟩
  else if b = 35 ∧ s.word = none then { s with mode := .comment }
  else { s.add b false with mode := .plain }

def step (s : Scan) (b : UInt8) : Scan :=
  match s.mode with
  | .plain => s.stepPlain b
  | .variable =>
    if b ∈ ascii "(\x7b'\"" then { s with mode := .beyond } else s.stepPlain b
  | .escape =>
    if b = newline then { s with mode := .plain } else { s.add b true with mode := .plain }
  | .single => if b = quote then { s with mode := .plain } else s.add b true
  | .double =>
    if b = doubleQuote then { s with mode := .plain }
    else if b = dollar ∨ b = backquote then { s with mode := .beyond }
    else if b = backslash then { s with mode := .doubleEscape }
    else s.add b true
  | .doubleEscape =>
    if b = newline then { s with mode := .double }
    else if b ∈ ascii "$`\"\\" then { s.add b true with mode := .double }
    else { (s.add backslash true).add b true with mode := .double }
  | .comment =>
    if b = newline then ⟨s.flush ++ [.operator newline], none, .plain⟩ else s
  | .beyond => s

/-- Outside of quotes and comments. -/
def Resting (s : Scan) : Prop := s.mode = .plain ∨ s.mode = .variable

instance (s : Scan) : Decidable s.Resting :=
  inferInstanceAs (Decidable (s.mode = .plain ∨ s.mode = .variable))

end Scan

def scan (text : List UInt8) : Scan := text.foldl Scan.step .start

/-- The tokens of a text that ends outside of quotes. -/
def tokens (text : List UInt8) : Option (List Token) :=
  if (scan text).Resting ∨ (scan text).mode = .comment then some (scan text).flush else none

section Reading
variable {s : Scan} {text : List UInt8}

theorem scan_append (a b : List UInt8) : scan (a ++ b) = b.foldl Scan.step (scan a) :=
  List.foldl_append

/-- A blank ends the word. -/
theorem step_space (h : s.Resting) : s.step 32 = ⟨s.flush, none, .plain⟩ := by
  unfold Scan.step
  rcases h with h | h <;>
  · rw [h]
    rfl

/-- Bytes without a meaning outside of quotes. -/
def Ordinary (b : UInt8) : Prop :=
  b ∉ ascii "'\"\\`$#" ∧ isBlank b = false ∧ isOperator b = false

instance (b : UInt8) : Decidable (Ordinary b) :=
  inferInstanceAs (Decidable (b ∉ ascii "'\"\\`$#" ∧ isBlank b = false ∧ isOperator b = false))

theorem step_ordinary {b : UInt8} (hb : Ordinary b) (h : s.mode = .plain) :
    s.step b = s.add b false := by
  obtain ⟨hspecial, hblank, hoperator⟩ := hb
  have hne : ∀ c ∈ ascii "'\"\\`$#", b ≠ c := by
    rintro c hc rfl
    exact hspecial hc
  unfold Scan.step Scan.stepPlain
  rw [h]
  dsimp only
  rw [if_neg (hne quote (by decide)), if_neg (hne doubleQuote (by decide)),
    if_neg (hne backslash (by decide)), if_neg (hne backquote (by decide)),
    if_neg (hne dollar (by decide)), hblank, hoperator, if_neg Bool.false_ne_true,
    if_neg Bool.false_ne_true, if_neg fun heq => hne 35 (by decide) heq.1, ← h]
  rfl

/-- Such bytes join the word. -/
theorem foldl_ordinary (hall : ∀ b ∈ text, Ordinary b) (h : s.mode = .plain) {w : Word}
    (hw : s.word = some w) :
    text.foldl Scan.step s = { s with word := some (w ++ text.map fun b => (b, false)) } := by
  induction text generalizing s w with
  | nil =>
    rw [List.map_nil, List.append_nil, ← hw]
    rfl
  | cons b text ih =>
    have hnext : (s.add b false).word = some (w ++ [(b, false)]) := by simp [Scan.add, hw]
    rw [List.foldl_cons, step_ordinary (hall b List.mem_cons_self) h,
      ih (s := s.add b false) (fun c hc => hall c (List.mem_cons_of_mem b hc)) h hnext,
      List.map_cons, List.append_assoc]
    rfl

/-- Between two words they are a word. -/
theorem foldl_word (hall : ∀ b ∈ text, Ordinary b) (hne : text ≠ []) (h : s.mode = .plain)
    (hnone : s.word = none) :
    text.foldl Scan.step s = { s with word := some (text.map fun b => (b, false)) } := by
  obtain ⟨b, rest, rfl⟩ := List.exists_cons_of_ne_nil hne
  have hnext : (s.add b false).word = some [(b, false)] := by simp [Scan.add, hnone]
  rw [List.foldl_cons, step_ordinary (hall b List.mem_cons_self) h,
    foldl_ordinary (s := s.add b false) (fun c hc => hall c (List.mem_cons_of_mem b hc)) h hnext,
    List.map_cons]
  rfl

/-- In single quotes every byte but the quote stands for itself. -/
theorem step_single (h : s.mode = .single) {b : UInt8} (hb : b ≠ quote) :
    s.step b = s.add b true := by
  unfold Scan.step
  rw [h]
  exact if_neg hb

/-- In single quotes; a quote itself is written outside of them. -/
def singleQuoted (text : List UInt8) : List UInt8 :=
  quote :: text.flatMap (fun b => if b = quote then [quote, backslash, quote, quote] else [b]) ++
    [quote]

/-- Each byte is read as itself, and as quoted. -/
theorem foldl_quotedByte (b : UInt8) (h : s.mode = .single) {w : Word} (hw : s.word = some w) :
    (if b = quote then [quote, backslash, quote, quote] else [b]).foldl Scan.step s =
      { s with word := some (w ++ [(b, true)]) } := by
  by_cases hb : b = quote
  · subst hb
    rw [if_pos rfl]
    obtain ⟨tokens, word, mode⟩ := s
    obtain rfl : mode = .single := h
    obtain rfl : word = some w := hw
    rfl
  · rw [if_neg hb, List.foldl_cons, List.foldl_nil, step_single h hb]
    simp [Scan.add, hw]

theorem foldl_quotedBytes (text : List UInt8) (h : s.mode = .single) {w : Word}
    (hw : s.word = some w) :
    (text.flatMap fun b => if b = quote then [quote, backslash, quote, quote] else [b]).foldl
        Scan.step s = { s with word := some (w ++ text.map fun b => (b, true)) } := by
  induction text generalizing s w with
  | nil =>
    rw [List.map_nil, List.append_nil, ← hw]
    rfl
  | cons b text ih =>
    rw [List.flatMap_cons, List.foldl_append, foldl_quotedByte b h hw,
      ih (s := { s with word := some (w ++ [(b, true)]) }) h rfl, List.map_cons, List.append_assoc]
    rfl

/-- A text in single quotes is one word, the text, with nothing left to expand. -/
theorem foldl_singleQuoted (text : List UInt8) (h : s.mode = .plain) (hnone : s.word = none) :
    (singleQuoted text).foldl Scan.step s =
      { s with word := some (text.map fun b => (b, true)) } := by
  have hopen : s.step quote = { s with word := some [], mode := .single } := by
    unfold Scan.step
    rw [h]
    simp [Scan.stepPlain, hnone]
  unfold singleQuoted
  rw [List.cons_append, List.foldl_cons, List.foldl_append, hopen, foldl_quotedBytes text rfl rfl,
    List.foldl_cons, List.foldl_nil, h]
  rfl

theorem tokens_singleQuoted (text : List UInt8) :
    tokens (singleQuoted text) = some [.word (text.map fun b => (b, true))] := by
  unfold tokens scan
  rw [foldl_singleQuoted text rfl rfl]
  rfl

end Reading

end Ecopy.Lib.ShellWords
