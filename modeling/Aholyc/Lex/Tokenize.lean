import Mathlib.Algebra.Order.Ring.Nat
import Aholyc.Lex.Hints

/-!
# The tokenizer (src/lex.c)

A pointer into the source text is the list of bytes from there on, the terminating NUL
included; with nothing left it is past the NUL, and every read there is outside of the
buffer. An `int` is a word of 32 bits.
-/

namespace Aholyc.Lex

open Aholyc.Lib

inductive TokenKind
  | id
  | type
  | keyword
  | num
  | fnum
  | str
  | chr
  | punct
  | eof
  deriving DecidableEq, Repr

structure Token where
  kind : TokenKind
  ival : BitVec 64 := 0
  fval : List UInt8 := []
  str : List UInt8 := []
  len : BitVec 32 := 0
  line : BitVec 32
  atBol : Bool := false
  hasSpace : Bool := false
  hints : LexHints := {}
  deriving DecidableEq, Repr

abbrev Cursor := List UInt8

def outside {α : Type} : Lexing α := .error .outside

/-! ## Reading at the cursor -/

def peek (p : Cursor) (i : Nat) : Lexing UInt8 :=
  match p[i]? with
  | some c => .ok c
  | none => outside

/-- `!strncmp (p, text, strlen (text))`, and `p[0] == text[0] && p[1] == text[1]`. -/
def startsWith : (p : Cursor) → (text : List UInt8) → Lexing Bool
  | _, [] => .ok true
  | [], _ :: _ => outside
  | c :: p, d :: text => if c = d then startsWith p text else .ok false

/-- `while (test (*p)) p++`, with the bytes that it passes. -/
def pass (test : UInt8 → Bool) : Cursor → Lexing (List UInt8 × Cursor)
  | [] => outside
  | c :: p =>
    if test c then do
      let (word, rest) ← pass test p
      return (c :: word, rest)
    else
      .ok ([], c :: p)

def strlen (p : Cursor) : Lexing Nat := do
  let (text, _) ← pass (· != 0) p
  return text.length

/-! ## Words -/

def identStart (c : UInt8) : Bool := isLetter c || c == byte '_'

def identCont (c : UInt8) : Bool := identStart c || isDigit c

def types : List String := ["U0", "I8", "U8", "I16", "U16", "I32", "U32", "I64", "U64", "F64"]

def keywords : List String :=
  ["_extern", "_import", "argpop", "asm", "break", "case", "catch", "class", "continue", "default",
    "do", "else", "extern", "for", "goto", "haserrcode", "if", "import", "interrupt", "lastclass",
    "lock", "no_warn", "noargpop", "public", "return", "sizeof", "switch", "try", "union", "while"]

def wordKind (s : List UInt8) : TokenKind :=
  if s ∈ types.map bytes then .type
  else if s ∈ keywords.map bytes then .keyword
  else .id

/-- The word is copied by its length as an `int`, one byte more is allocated. -/
def copyWord (s : List UInt8) : Lexing (List UInt8) :=
  let len := BitVec.ofNat 32 s.length
  if (len + 1).toInt < 0 then .error (.error none "out of memory")
  else if len.toInt < 0 then outside
  else .ok (s.take len.toNat)

def wordToken (line : BitVec 32) (p : Cursor) : Lexing (Token × Cursor) := do
  let (s, p) ← pass identCont p
  let str ← copyWord s
  return ({ kind := wordKind str, str, len := BitVec.ofNat 32 s.length, line }, p)

/-! ## Numbers -/

def hexval (c : UInt8) : Option Nat :=
  if isDigit c then some (c.toNat - 48)
  else if byte 'a' ≤ c && c ≤ byte 'f' then some (c.toNat - 97 + 10)
  else if byte 'A' ≤ c && c ≤ byte 'F' then some (c.toNat - 65 + 10)
  else none

def isBinary (c : UInt8) : Bool := c == byte '0' || c == byte '1'

def digitsValue (base : Nat) (digits : List UInt8) : Nat :=
  digits.foldl (fun v c => v * base + (hexval c).getD 0) 0

def strtoull (digits : List UInt8) : BitVec 64 :=
  BitVec.ofNat 64 (min (digitsValue 10 digits) (2 ^ 64 - 1))

def prefixed (base : Nat) (isBaseDigit : UInt8 → Bool) (line : BitVec 32) (p : Cursor) :
    Lexing (Token × Cursor) := do
  let (word, p) ← pass (fun c => isBaseDigit c || c == byte '_') (p.drop 2)
  let digits := word.filter (· != byte '_')
  return ({ kind := .num, ival := BitVec.ofNat 64 (digitsValue base digits), line }, p)

/-- `*p == '.' && p[1] >= '0' && p[1] <= '9'`. -/
def pointDigit (p : Cursor) : Lexing Bool := do
  if (← peek p 0) == byte '.' then
    return isDigit (← peek p 1)
  else
    return false

def fraction (p : Cursor) : Lexing (List UInt8 × Cursor) := do
  if ← pointDigit p then
    let (digits, rest) ← pass isDigit (p.drop 1)
    return (byte '.' :: digits, rest)
  else
    return ([], p)

def isSign (c : UInt8) : Bool := c == byte '+' || c == byte '-'

def exponent (p : Cursor) : Lexing (List UInt8 × Cursor) := do
  let e ← peek p 0
  if e == byte 'e' || e == byte 'E' then
    let c ← peek p 1
    let sign := if isSign c then [c] else []
    let q := p.drop (1 + sign.length)
    if isDigit (← peek q 0) then
      let (digits, rest) ← pass isDigit q
      return (e :: sign ++ digits, rest)
    else
      return ([], p)
  else
    return ([], p)

def decimal (line : BitVec 32) (p : Cursor) : Lexing (Token × Cursor) := do
  let (s, p) ← pass isDigit p
  let (point, p) ← fraction p
  let (power, p) ← exponent p
  if point.isEmpty && power.isEmpty then
    return ({ kind := .num, ival := strtoull s, line }, p)
  else
    return ({ kind := .fnum, fval := s ++ point ++ power, line }, p)

def numberToken (line : BitVec 32) (p : Cursor) : Lexing (Token × Cursor) := do
  if ← startsWith p (bytes "0x") then prefixed 16 (fun c => (hexval c).isSome) line p
  else if ← startsWith p (bytes "0X") then prefixed 16 (fun c => (hexval c).isSome) line p
  else if ← startsWith p (bytes "0b") then prefixed 2 isBinary line p
  else if ← startsWith p (bytes "0B") then prefixed 2 isBinary line p
  else decimal line p

/-! ## Literals -/

/-- `while (hexval (*p) >= 0) v = v * 16 + hexval (*p++)`. -/
def hexDigits (v : BitVec 32) : Cursor → Lexing (BitVec 32 × Cursor)
  | [] => outside
  | c :: p =>
    match hexval c with
    | some digit => hexDigits (v * 16 + BitVec.ofNat 32 digit) p
    | none => .ok (v, c :: p)

def escapes : List (Char × Nat) :=
  [('n', 10), ('t', 9), ('r', 13), ('a', 7), ('b', 8), ('f', 12), ('v', 11), ('0', 0)]

/-- `p` stands behind the backslash. The byte there is consumed unseen. -/
def readEscape (p : Cursor) : Lexing (BitVec 32 × Cursor) := do
  let c ← peek p 0
  match escapes.find? (byte ·.1 == c) with
  | some (_, v) => return (BitVec.ofNat 32 v, p.drop 1)
  | none =>
    if c == byte 'x' then hexDigits 0 (p.drop 1)
    else return (BitVec.ofNat 32 c.toNat, p.drop 1)

def backslash : UInt8 := byte '\\'

theorem hexDigits_suffix {v v' : BitVec 32} {p p' : Cursor}
    (ended : hexDigits v p = .ok (v', p')) : p' <:+ p := by
  induction p generalizing v with
  | nil => cases ended
  | cons c p ih =>
    unfold hexDigits at ended
    split at ended
    · exact (ih ended).trans (List.suffix_cons _ _)
    · injection ended with same
      injection same with _ same
      cases same
      exact List.suffix_rfl

theorem readEscape_suffix {v : BitVec 32} {p p' : Cursor}
    (ended : readEscape p = .ok (v, p')) : p' <:+ p := by
  have behind := List.drop_suffix 1 p
  unfold readEscape at ended
  obtain ⟨c, _, ended⟩ := bind_ok_iff.mp ended
  split at ended
  · injection ended with same
    injection same with _ same
    rw [← same]
    exact behind
  · split at ended
    · exact (hexDigits_suffix ended).trans behind
    · injection ended with same
      injection same with _ same
      rw [← same]
      exact behind

/-- The loop over the body of a literal. `put` takes each byte, `true` says that it was
escaped. -/
def literalBody {α : Type} (quote : UInt8) (put : α → Bool → BitVec 32 → Lexing α) (a : α)
    (p : Cursor) : Lexing (α × Cursor) :=
  match p with
  | [] => outside
  | c :: rest =>
    if c = 0 ∨ c = quote then .ok (a, c :: rest)
    else if c = backslash then
      match _ended : readEscape rest with
      | .error stop => .error stop
      | .ok (v, behind) =>
        match put a true v with
        | .error stop => .error stop
        | .ok a => literalBody quote put a behind
    else
      match put a false (BitVec.ofNat 32 c.toNat) with
      | .error stop => .error stop
      | .ok a => literalBody quote put a rest
termination_by p.length
decreasing_by
  · exact Nat.lt_succ_of_le (readEscape_suffix _ended).length_le
  · exact Nat.lt_succ_self _

/-- A string while it is decoded: `buf[0..n]` and the line. -/
structure Decoding where
  buf : List UInt8 := []
  line : BitVec 32

/-- `buf[n] = c` in a buffer of `size` bytes. -/
def store (size : Nat) (buf : List UInt8) (c : UInt8) : Lexing (List UInt8) :=
  let n := (BitVec.ofNat 32 buf.length).toInt
  if 0 ≤ n ∧ n < size then .ok (buf ++ [c]) else outside

def newline : BitVec 32 := 10

def putString (size : Nat) (s : Decoding) (escaped : Bool) (v : BitVec 32) : Lexing Decoding := do
  let buf ← store size s.buf (UInt8.ofBitVec (v.truncate 8))
  return { buf, line := if !escaped && v == newline then s.line + 1 else s.line }

def closeString (size : Nat) (s : Decoding) (p : Cursor) :
    Lexing (Token × Cursor × BitVec 32) := do
  if (← peek p 0) ≠ byte '"' then
    fail s.line "unterminated string"
  else
    let _ ← store size s.buf 0
    return ({ kind := .str, str := s.buf, len := BitVec.ofNat 32 s.buf.length, line := s.line },
      p.drop 1, s.line)

def stringToken (line : BitVec 32) (p : Cursor) : Lexing (Token × Cursor × BitVec 32) := do
  let p := p.drop 1
  let length ← strlen p
  let (s, p) ← literalBody (byte '"') (putString (length + 1)) { line } p
  closeString (length + 1) s p

/-- The value of a character constant: its first eight bytes, and their number `n`. -/
structure Packing where
  v : BitVec 64 := 0
  n : BitVec 32 := 0

def putChar (s : Packing) (_escaped : Bool) (c : BitVec 32) : Lexing Packing :=
  .ok {
    v := if s.n.slt 8 then s.v ||| ((c &&& 0xff).zeroExtend 64) <<< ((8 * s.n) % 64) else s.v
    n := s.n + 1 }

def charToken (line : BitVec 32) (p : Cursor) : Lexing (Token × Cursor) := do
  let (s, p) ← literalBody (byte '\'') putChar {} (p.drop 1)
  if (← peek p 0) ≠ byte '\'' then
    fail line "unterminated char constant"
  else
    return ({ kind := .chr, ival := s.v, len := s.n, line }, p.drop 1)

/-! ## Punctuation -/

def puncts : List String :=
  ["<<=", ">>=", "...", "==", "!=", "<=", ">=", "&&", "||", "^^", "<<", ">>", "+=", "-=", "*=",
    "/=", "%=", "&=", "|=", "^=", "++", "--", "->", "$$", "+", "-", "*", "/", "%", "&", "|", "^",
    "~", "!", "<", ">", "=", "(", ")", "\x7b", "\x7d", "[", "]", ",", ";", ":", ".", "\x60", "#",
    "?", "@", "$"]

def findPunct (p : Cursor) : List (List UInt8) → Lexing (Option (List UInt8))
  | [] => .ok none
  | punct :: puncts => do
    if ← startsWith p punct then return some punct else findPunct p puncts

def strayMessage (c : UInt8) : String :=
  "stray character '" ++ shown [c] ++ "' (0x" ++
    String.ofList [Nat.digitChar (c.toNat / 16), Nat.digitChar (c.toNat % 16)] ++ ")"

def punctToken (line : BitVec 32) (p : Cursor) : Lexing (Token × Cursor) := do
  match ← findPunct p (puncts.map bytes) with
  | some punct =>
    return ({ kind := .punct, str := punct, len := BitVec.ofNat 32 punct.length, line },
      p.drop punct.length)
  | none => fail line (strayMessage (← peek p 0))

/-! ## The loop -/

/-- `while (*p && !(p[0] == '*' && p[1] == '/'))`, with the bytes that it passes. -/
def blockComment (line : BitVec 32) : Cursor → Lexing (List UInt8 × Cursor × BitVec 32)
  | [] => outside
  | c :: p =>
    if c = 0 then .ok ([], c :: p, line)
    else do
      if ← startsWith (c :: p) (bytes "*/") then
        return ([], c :: p, line)
      else
        let (text, rest, line) ← blockComment (if c = byte '\n' then line + 1 else line) p
        return (c :: text, rest, line)

structure Placed where
  token : Token
  start : Cursor
  deriving DecidableEq, Repr

structure Lexer where
  p : Cursor
  line : BitVec 32 := 1
  bol : Bool := true
  space : Bool := false
  pending : LexHints := {}
  tokens : List Placed := []

def isBlank (c : UInt8) : Bool := c == byte ' ' || c == byte '\t' || c == byte '\r'

def readToken (line : BitVec 32) (p : Cursor) : Lexing (Token × Cursor × BitVec 32) := do
  let c ← peek p 0
  if identStart c then
    let (token, p) ← wordToken line p
    return (token, p, line)
  else if isDigit c || (← pointDigit p) then
    let (token, p) ← numberToken line p
    return (token, p, line)
  else if c == byte '"' then
    stringToken line p
  else if c == byte '\'' then
    let (token, p) ← charToken line p
    return (token, p, line)
  else
    let (token, p) ← punctToken line p
    return (token, p, line)

def lexHintsApply (pending : LexHints) (token : Token) : Token := { token with hints := pending }

/-- One round of the main loop, `none` at the end of the text. -/
def round (cfg : Config) (l : Lexer) : Lexing (Option Lexer) := do
  let c ← peek l.p 0
  if c = 0 then
    return none
  else if c = byte '\n' then
    return some { l with p := l.p.drop 1, line := l.line + 1, bol := true, space := false }
  else if isBlank c then
    return some { l with p := l.p.drop 1, space := true }
  else if ← startsWith l.p (bytes "//") then
    let (text, p) ← pass (fun c => c != 0 && c != byte '\n') (l.p.drop 2)
    let pending ← lexHintsScanComment l.line cfg l.pending text
    return some { l with p, pending }
  else if ← startsWith l.p (bytes "/*") then
    let (text, p, line) ← blockComment l.line (l.p.drop 2)
    let pending ← lexHintsScanComment l.line cfg l.pending text
    let p := if (← peek p 0) = 0 then p else p.drop 2
    return some { l with p, line, pending, space := true }
  else
    let (token, p, line) ← readToken l.line l.p
    let token := { lexHintsApply l.pending token with atBol := l.bol, hasSpace := l.space }
    return some { p, line, bol := false, tokens := l.tokens ++ [⟨token, l.p⟩] }

/-! ## Every round moves on -/

section

variable {line line' : BitVec 32} {token : Token} {p p' : Cursor}

variable {test : UInt8 → Bool} {c : UInt8}

theorem pass_suffix {word : List UInt8} (ended : pass test p = .ok (word, p')) : p' <:+ p := by
  induction p generalizing word with
  | nil => cases ended
  | cons c p ih =>
    unfold pass at ended
    split at ended
    · obtain ⟨result, passed, ended⟩ := bind_ok_iff.mp ended
      cases ended
      exact (ih passed).trans (List.suffix_cons _ _)
    · cases ended
      exact List.suffix_rfl

theorem pass_first {word : List UInt8} (first : peek p 0 = .ok c) (holds : test c)
    (ended : pass test p = .ok (word, p')) : p' <:+ p.drop 1 := by
  cases p with
  | nil => cases ended
  | cons d p =>
    cases first
    unfold pass at ended
    rw [if_pos holds] at ended
    obtain ⟨result, passed, ended⟩ := bind_ok_iff.mp ended
    cases ended
    exact pass_suffix passed

theorem drop_suffix_drop (p : Cursor) (n : Nat) : p.drop (1 + n) <:+ p.drop 1 := by
  rw [← List.drop_drop]
  exact List.drop_suffix _ _

theorem prefixed_suffix {base : Nat} {isBaseDigit : UInt8 → Bool}
    (ended : prefixed base isBaseDigit line p = .ok (token, p')) : p' <:+ p.drop 1 := by
  unfold prefixed at ended
  obtain ⟨result, passed, ended⟩ := bind_ok_iff.mp ended
  cases ended
  exact (pass_suffix passed).trans (drop_suffix_drop p 1)

theorem fraction_suffix {point : List UInt8} (ended : fraction p = .ok (point, p')) :
    p' <:+ p := by
  unfold fraction at ended
  obtain ⟨isPoint, _, ended⟩ := bind_ok_iff.mp ended
  split at ended
  · obtain ⟨result, passed, ended⟩ := bind_ok_iff.mp ended
    cases ended
    exact (pass_suffix passed).trans (List.drop_suffix 1 p)
  · cases ended
    exact List.suffix_rfl

theorem exponent_suffix {power : List UInt8} (ended : exponent p = .ok (power, p')) :
    p' <:+ p := by
  unfold exponent at ended
  obtain ⟨e, _, ended⟩ := bind_ok_iff.mp ended
  split at ended
  · obtain ⟨c, _, ended⟩ := bind_ok_iff.mp ended
    obtain ⟨d, _, ended⟩ := bind_ok_iff.mp ended
    split at ended
    · obtain ⟨result, passed, ended⟩ := bind_ok_iff.mp ended
      cases ended
      exact (pass_suffix passed).trans (List.drop_suffix _ p)
    · cases ended
      exact List.suffix_rfl
  · cases ended
    exact List.suffix_rfl

theorem pass_none (first : peek p 0 = .ok c) (stops : ¬test c = true) :
    pass test p = .ok ([], p) := by
  cases p with
  | nil => cases first
  | cons d p =>
    cases first
    unfold pass
    rw [if_neg stops]

theorem decimal_suffix (first : peek p 0 = .ok c)
    (isNumber : isDigit c = true ∨ pointDigit p = .ok true)
    (ended : decimal line p = .ok (token, p')) : p' <:+ p.drop 1 := by
  unfold decimal at ended
  obtain ⟨⟨whole, p₁⟩, isWhole, ended⟩ := bind_ok_iff.mp ended
  obtain ⟨⟨point, p₂⟩, isPoint, ended⟩ := bind_ok_iff.mp ended
  obtain ⟨⟨power, p₃⟩, isPower, ended⟩ := bind_ok_iff.mp ended
  have last : p₃ = p' := by
    dsimp only at ended
    split at ended
    · cases ended
      rfl
    · cases ended
      rfl
  have behind : p₂ <:+ p.drop 1 := by
    by_cases digit : isDigit c = true
    · exact (fraction_suffix isPoint).trans (pass_first first digit isWhole)
    have pointed := isNumber.resolve_left digit
    rw [pass_none first digit] at isWhole
    cases isWhole
    unfold fraction at isPoint
    rw [pointed] at isPoint
    obtain ⟨⟨digits, rest⟩, passed, isPoint⟩ :=
      bind_ok_iff (c := pass isDigit (p.drop 1)).mp isPoint
    cases isPoint
    exact pass_suffix passed
  rw [← last]
  exact (exponent_suffix isPower).trans behind

theorem numberToken_suffix (first : peek p 0 = .ok c)
    (isNumber : isDigit c = true ∨ pointDigit p = .ok true)
    (ended : numberToken line p = .ok (token, p')) : p' <:+ p.drop 1 := by
  unfold numberToken at ended
  obtain ⟨_, _, ended⟩ := bind_ok_iff.mp ended
  split at ended
  · exact prefixed_suffix ended
  obtain ⟨_, _, ended⟩ := bind_ok_iff.mp ended
  split at ended
  · exact prefixed_suffix ended
  · obtain ⟨_, _, ended⟩ := bind_ok_iff.mp ended
    split at ended
    · exact prefixed_suffix ended
    · obtain ⟨_, _, ended⟩ := bind_ok_iff.mp ended
      split at ended
      · exact prefixed_suffix ended
      · exact decimal_suffix first isNumber ended

theorem wordToken_suffix (first : peek p 0 = .ok c) (starts : identStart c = true)
    (ended : wordToken line p = .ok (token, p')) : p' <:+ p.drop 1 := by
  unfold wordToken at ended
  obtain ⟨word, isWord, ended⟩ := bind_ok_iff.mp ended
  obtain ⟨_, _, ended⟩ := bind_ok_iff.mp ended
  cases ended
  have continues : identCont c = true := by
    unfold identCont
    rw [starts, Bool.true_or]
  exact pass_first first continues isWord

theorem literalBody_cons {α : Type} (quote : UInt8) (put : α → Bool → BitVec 32 → Lexing α)
    (a : α) (c : UInt8) (rest : Cursor) :
    literalBody quote put a (c :: rest) =
      if c = 0 ∨ c = quote then .ok (a, c :: rest)
      else if c = backslash then
        readEscape rest >>= fun escape =>
          put a true escape.1 >>= fun a => literalBody quote put a escape.2
      else
        put a false (BitVec.ofNat 32 c.toNat) >>= fun a => literalBody quote put a rest := by
  rw [literalBody]
  split
  · rfl
  split
  · split
    · next isError => rw [isError]; rfl
    · next isEscape =>
      rw [isEscape]
      show _ = put _ _ _ >>= _
      split
      · next isError => rw [isError]; rfl
      · next isPut => rw [isPut]; rfl
  · show _ = put _ _ _ >>= _
    split
    · next isError => rw [isError]; rfl
    · next isPut => rw [isPut]; rfl

theorem literalBody_suffix {α : Type} {quote : UInt8} {put : α → Bool → BitVec 32 → Lexing α}
    {a a' : α} (ended : literalBody quote put a p = .ok (a', p')) : p' <:+ p := by
  induction size : p.length using Nat.strong_induction_on generalizing a p with
  | _ size ih =>
    cases p with
    | nil =>
      unfold literalBody at ended
      cases ended
    | cons c rest =>
      rw [literalBody_cons] at ended
      split at ended
      · cases ended
        exact List.suffix_rfl
      split at ended
      · obtain ⟨⟨v, behind⟩, isEscape, ended⟩ := bind_ok_iff.mp ended
        obtain ⟨_, _, ended⟩ := bind_ok_iff.mp ended
        have shorter := readEscape_suffix isEscape
        have rest' := ih behind.length (by
          rw [← size]
          exact Nat.lt_succ_of_le shorter.length_le) ended rfl
        exact rest'.trans (shorter.trans (List.suffix_cons _ _))
      · obtain ⟨_, _, ended⟩ := bind_ok_iff.mp ended
        have rest' := ih rest.length (by
          rw [← size]
          exact Nat.lt_succ_self _) ended rfl
        exact rest'.trans (List.suffix_cons _ _)

theorem closeString_suffix {size : Nat} {s : Decoding}
    (ended : closeString size s p = .ok (token, p', line')) : p' <:+ p := by
  unfold closeString at ended
  obtain ⟨c, _, ended⟩ := bind_ok_iff.mp ended
  split at ended
  · cases ended
  · obtain ⟨_, _, ended⟩ := bind_ok_iff.mp ended
    cases ended
    exact List.drop_suffix 1 p

theorem stringToken_suffix (ended : stringToken line p = .ok (token, p', line')) :
    p' <:+ p.drop 1 := by
  unfold stringToken at ended
  obtain ⟨length, _, ended⟩ := bind_ok_iff.mp ended
  obtain ⟨⟨s, q⟩, isBody, ended⟩ := bind_ok_iff.mp ended
  exact (closeString_suffix ended).trans (literalBody_suffix isBody)

theorem charToken_suffix (ended : charToken line p = .ok (token, p')) : p' <:+ p.drop 1 := by
  unfold charToken at ended
  obtain ⟨⟨s, q⟩, isBody, ended⟩ := bind_ok_iff.mp ended
  obtain ⟨c, _, ended⟩ := bind_ok_iff.mp ended
  split at ended
  · cases ended
  · cases ended
    exact (List.drop_suffix 1 q).trans (literalBody_suffix isBody)

theorem findPunct_mem {punct : List UInt8} {puncts : List (List UInt8)}
    (found : findPunct p puncts = .ok (some punct)) : punct ∈ puncts := by
  induction puncts with
  | nil => cases found
  | cons first puncts ih =>
    unfold findPunct at found
    obtain ⟨starts, _, found⟩ := bind_ok_iff.mp found
    split at found
    · cases found
      exact List.mem_cons_self
    · exact List.mem_cons_of_mem _ (ih found)

theorem punct_length : ∀ punct ∈ puncts.map bytes, ∃ n, punct.length = 1 + n := by
  have one : ∀ punct ∈ puncts.map bytes, punct ≠ [] := by decide
  intro punct isPunct
  obtain ⟨c, rest, same⟩ := List.exists_cons_of_ne_nil (one punct isPunct)
  exact ⟨rest.length, by rw [same, List.length_cons, Nat.add_comm]⟩

theorem punctToken_suffix (ended : punctToken line p = .ok (token, p')) : p' <:+ p.drop 1 := by
  unfold punctToken at ended
  obtain ⟨found, isFound, ended⟩ := bind_ok_iff.mp ended
  cases found with
  | none =>
    obtain ⟨_, _, ended⟩ := bind_ok_iff.mp ended
    cases ended
  | some punct =>
    cases ended
    obtain ⟨n, length⟩ := punct_length punct (findPunct_mem isFound)
    rw [length]
    exact drop_suffix_drop p n

theorem readToken_suffix (ended : readToken line p = .ok (token, p', line')) :
    p' <:+ p.drop 1 := by
  unfold readToken at ended
  obtain ⟨c, first, ended⟩ := bind_ok_iff.mp ended
  split at ended
  · next starts =>
    obtain ⟨result, isToken, ended⟩ := bind_ok_iff.mp ended
    cases ended
    exact wordToken_suffix first starts isToken
  · obtain ⟨pointed, isPointed, ended⟩ := bind_ok_iff.mp ended
    split at ended
    · next isNumber =>
      obtain ⟨result, isToken, ended⟩ := bind_ok_iff.mp ended
      cases ended
      apply numberToken_suffix first _ isToken
      rw [Bool.or_eq_true] at isNumber
      apply isNumber.imp_right
      intro same
      rw [isPointed, same]
    · split at ended
      · exact stringToken_suffix ended
      · split at ended
        · obtain ⟨result, isToken, ended⟩ := bind_ok_iff.mp ended
          cases ended
          exact charToken_suffix isToken
        · obtain ⟨result, isToken, ended⟩ := bind_ok_iff.mp ended
          cases ended
          exact punctToken_suffix isToken

theorem blockComment_suffix {text : List UInt8}
    (ended : blockComment line p = .ok (text, p', line')) : p' <:+ p := by
  induction p generalizing line text with
  | nil => cases ended
  | cons c p ih =>
    unfold blockComment at ended
    split at ended
    · cases ended
      exact List.suffix_rfl
    · obtain ⟨starts, _, ended⟩ := bind_ok_iff.mp ended
      split at ended
      · cases ended
        exact List.suffix_rfl
      · obtain ⟨result, isRest, ended⟩ := bind_ok_iff.mp ended
        cases ended
        exact (ih isRest).trans (List.suffix_cons _ _)

end

theorem round_suffix {cfg : Config} {l l' : Lexer} (ended : round cfg l = .ok (some l')) :
    l.p ≠ [] ∧ l'.p <:+ l.p.drop 1 := by
  unfold round at ended
  obtain ⟨c, first, ended⟩ := bind_ok_iff.mp ended
  constructor
  · intro empty
    rw [empty] at first
    cases first
  split at ended
  · cases ended
  split at ended
  · cases ended
    exact List.suffix_rfl
  split at ended
  · cases ended
    exact List.suffix_rfl
  obtain ⟨isLine, _, ended⟩ := bind_ok_iff.mp ended
  have two := drop_suffix_drop l.p 1
  split at ended
  · obtain ⟨⟨text, p⟩, passed, ended⟩ := bind_ok_iff.mp ended
    obtain ⟨pending, _, ended⟩ := bind_ok_iff.mp ended
    cases ended
    exact (pass_suffix passed).trans two
  · obtain ⟨isBlock, _, ended⟩ := bind_ok_iff.mp ended
    split at ended
    · obtain ⟨⟨text, p, line⟩, passed, ended⟩ := bind_ok_iff.mp ended
      obtain ⟨pending, _, ended⟩ := bind_ok_iff.mp ended
      obtain ⟨d, _, ended⟩ := bind_ok_iff.mp ended
      cases ended
      have inside := (blockComment_suffix passed).trans two
      dsimp only
      split
      · exact inside
      · exact (List.drop_suffix 2 p).trans inside
    · obtain ⟨⟨token, p, line⟩, isToken, ended⟩ := bind_ok_iff.mp ended
      cases ended
      exact readToken_suffix isToken

theorem round_shorter {cfg : Config} {l l' : Lexer} (ended : round cfg l = .ok (some l')) :
    l'.p.length < l.p.length := by
  obtain ⟨nonempty, suffix⟩ := round_suffix ended
  have le := suffix.length_le
  have pos := List.length_pos_iff.mpr nonempty
  rw [List.length_drop] at le
  omega

def rounds (cfg : Config) (l : Lexer) : Lexing Lexer :=
  match _ended : round cfg l with
  | .error stop => .error stop
  | .ok none => .ok l
  | .ok (some l') => rounds cfg l'
termination_by l.p.length
decreasing_by exact round_shorter _ended

def hashbang (p : Cursor) : Lexing Cursor := do
  if ← startsWith p (bytes "#!") then
    let (_, p) ← pass (fun c => c != 0 && c != byte '\n') p
    return p
  else
    return p

def tokenizePlaced (cfg : Config) (src : Cursor) : Lexing (List Placed) := do
  let p ← hashbang src
  let l ← rounds cfg { p }
  return l.tokens ++ [⟨{ kind := .eof, line := l.line, atBol := true }, l.p⟩]

def tokenize (cfg : Config) (src : Cursor) : Lexing (List Token) := do
  let tokens ← tokenizePlaced cfg src
  return tokens.map Placed.token

end Aholyc.Lex
