import Aholyc.Lex.Literals

/-!
# The tokenizer and the end of its input

The tokenizer leaves its input just where a literal is cut off behind a backslash, where a
string decodes to more bytes than an `int` counts, or where a word is as long as -1.
-/

namespace Aholyc.Lex

open Aholyc.Lib

def isQuote (c : UInt8) : Prop := c = byte '"' ∨ c = byte '\''

/-- What must not stand where a round of the main loop begins. -/
structure Safe (p : Cursor) : Prop where
  uncut : ∀ quote p', isQuote quote → p = quote :: p' → ¬CutOff quote p'
  short : ∀ p' items rest, p = byte '"' :: p' → Literal (byte '"') p' items rest →
    written items rest ≤ 2 ^ 31
  ends : ∀ c, peek p 0 = .ok c → identStart c = true → ¬Endless (p.takeWhile identCont)

def Read (line : BitVec 32) (p : Cursor) (r : Token × Cursor × BitVec 32) : Prop :=
  Within p r.2.1 ∧ Fits line r.1 ∧ r.2.2 = line ∨
    ∃ quote, isQuote quote ∧ Closed quote line p r.1 r.2.1 r.2.2

section

variable {line : BitVec 32} {p : Cursor} {c : UInt8}

theorem Safely.read {reader : Lexing (Token × Cursor)}
    (safe : Safely (fun r => Within p r.2 ∧ Fits line r.1) reader) :
    Safely (Read line p) (reader >>= fun r => .ok (r.1, r.2, line)) := by
  apply safe.bind
  intro r read
  exact .inl ⟨read.1, read.2, rfl⟩

theorem Read.with {token token' : Token} {p' : Cursor} {line' : BitVec 32}
    (read : Read line p (token, p', line')) (sameLine : token'.line = token.line)
    (sameKind : token'.kind = token.kind) : Read line p (token', p', line') := by
  have fits : ∀ line, Fits line token → Fits line token' := by
    intro line fits
    exact ⟨sameLine.trans fits.line, fun isEof => fits.kind (sameKind.symm.trans isEof)⟩
  rcases read with onLine | literal
  · exact .inl ⟨onLine.1, fits _ onLine.2.1, onLine.2.2⟩
  · obtain ⟨quote, quoted, closed⟩ := literal
    exact .inr ⟨quote, quoted, closed.inside, closed.literal, fits _ closed.fits⟩

/-! ## One branch for each first byte -/

theorem readToken_word (first : peek p 0 = .ok c) (starts : identStart c = true) :
    readToken line p = wordToken line p >>= fun r => .ok (r.1, r.2, line) := by
  unfold readToken
  rw [first]
  show (if identStart c = true then _ else _) = _
  rw [if_pos starts]
  rfl

theorem readToken_number (first : peek p 0 = .ok c) (other : ¬identStart c = true)
    {pointed : Bool} (isPointed : pointDigit p = .ok pointed)
    (isNumber : (isDigit c || pointed) = true) :
    readToken line p = numberToken line p >>= fun r => .ok (r.1, r.2, line) := by
  unfold readToken
  rw [first]
  show (if identStart c = true then _ else _) = _
  rw [if_neg other, isPointed]
  show (if (isDigit c || pointed) = true then _ else _) = _
  rw [if_pos isNumber]
  rfl

theorem readToken_string (p : Cursor) :
    readToken line (byte '"' :: p) = stringToken line (byte '"' :: p) := rfl

theorem readToken_char (p : Cursor) :
    readToken line (byte '\'' :: p) =
      charToken line (byte '\'' :: p) >>= fun r => .ok (r.1, r.2, line) := rfl

theorem readToken_punct (first : peek p 0 = .ok c) (other : ¬identStart c = true)
    {pointed : Bool} (isPointed : pointDigit p = .ok pointed)
    (noNumber : ¬(isDigit c || pointed) = true) (noQuote : ¬isQuote c) :
    readToken line p = punctToken line p >>= fun r => .ok (r.1, r.2, line) := by
  obtain ⟨noString, noChar⟩ := not_or.mp noQuote
  unfold readToken
  rw [first]
  show (if identStart c = true then _ else _) = _
  rw [if_neg other, isPointed]
  show (if (isDigit c || pointed) = true then _ else _) = _
  rw [if_neg noNumber, if_neg (mt beq_iff_eq.mp noString), if_neg (mt beq_iff_eq.mp noChar)]
  rfl

theorem readToken_safe (inside : Inside p) (first : peek p 0 = .ok c) (nonzero : c ≠ 0)
    (safe : Safe p) : Safely (Read line p) (readToken line p) := by
  obtain ⟨same, inside'⟩ := inside.tail first nonzero
  obtain ⟨pointed, isPointed, _⟩ := pointDigit_inside inside
  by_cases starts : identStart c = true
  · rw [readToken_word first starts]
    exact (wordToken_safe inside (safe.ends c first starts)).read
  by_cases isNumber : (isDigit c || pointed) = true
  · rw [readToken_number first starts isPointed isNumber]
    obtain ⟨token, rest, isToken, within, fits⟩ := numberToken_within line inside
    rw [isToken]
    exact .inl ⟨within, fits, rfl⟩
  · by_cases quoted : isQuote c
    · have uncut := safe.uncut c (p.drop 1) quoted same
      rcases quoted with isString | isChar
      · rw [isString] at same uncut
        obtain ⟨items, rest, literal⟩ :=
          (cutOff_or_literal (by decide) inside').resolve_left uncut
        rw [same, readToken_string]
        apply (stringToken_safe inside' literal (safe.short _ _ _ same literal)).mono
        intro r closed
        exact .inr ⟨byte '"', .inl rfl, closed⟩
      · rw [isChar] at same uncut
        obtain ⟨items, rest, literal⟩ :=
          (cutOff_or_literal (by decide) inside').resolve_left uncut
        rw [same, readToken_char]
        apply (charToken_safe inside' literal).bind
        intro r closed
        exact .inr ⟨byte '\'', .inr rfl, closed⟩
    · rw [readToken_punct first starts isPointed isNumber quoted]
      exact (punctToken_safe inside).read

theorem Inside.behind (inside : Inside (c :: p)) (nonzero : c ≠ 0) : Inside p :=
  (inside.tail rfl nonzero).2

theorem readToken_unsafe (inside : Inside p) (not_safe : ¬Safe p) :
    readToken line p = outside := by
  by_contra reads
  apply not_safe
  constructor
  · intro quote p' quoted split cut
    rw [split] at inside reads
    apply reads
    rcases quoted with isString | isChar
    · rw [isString] at inside cut ⊢
      rw [readToken_string]
      exact stringToken_cut (inside.behind (by decide)) cut
    · rw [isChar] at inside cut ⊢
      rw [readToken_char, charToken_cut (inside.behind (by decide)) cut]
      rfl
  · intro p' items rest split literal
    rw [split] at inside reads
    by_contra long
    apply reads
    rw [readToken_string]
    exact stringToken_long (inside.behind (by decide)) literal (not_le.mp long)
  · intro c first starts endless
    apply reads
    rw [readToken_word first starts, wordToken_endless inside endless]
    rfl

end

/-! ## A round -/

/-- What a round of the main loop does: it passes blanks or a comment, or it appends a token. -/
inductive Moved (l l' : Lexer) : Prop
  | between (piece : List UInt8) : Inside l'.p → l.p = piece ++ l'.p → l'.tokens = l.tokens →
      l'.line = l.line + BitVec.ofNat 32 (piece.count (byte '\n')) →
      (l'.bol = l.bol ∨ l'.bol = true ∧ byte '\n' ∈ piece) → Moved l l'
  | token (t : Token) : Read l.line l.p (t, l'.p, l'.line) →
      l'.tokens = l.tokens ++ [⟨{ t with atBol := l.bol }, l.p⟩] → l'.bol = false → Moved l l'

section

variable {cfg : Config} {l l' : Lexer} {c : UInt8}

theorem round_nul (first : peek l.p 0 = .ok 0) : round cfg l = .ok none := by
  unfold round
  rw [first]
  rfl

theorem fail_safe {α : Type} {good : α → Prop} (line : BitVec 32) (message : String) :
    Safely good (fail line message : Lexing α) := fun isOutside => nomatch isOutside

theorem alignValue_safe (line : BitVec 32) (text : List UInt8) :
    Safely (fun _ => True) (alignValue line text) := by
  unfold alignValue
  dsimp only
  split
  · split
    · exact fail_safe _ _
    · split
      · exact fail_safe _ _
      · trivial
  · trivial

theorem bitsValue_safe (line : BitVec 32) (text : List UInt8) :
    Safely (fun _ => True) (bitsValue line text) := by
  unfold bitsValue
  dsimp only
  split
  · exact fail_safe _ _
  · split
    · exact fail_safe _ _
    · split
      · exact fail_safe _ _
      · trivial

theorem flagHint_safe (line : BitVec 32) (pkg : Bool) (word text : List UInt8) :
    Safely (fun _ => True) (flagHint line cfg pkg word text) := by
  unfold flagHint
  dsimp only
  split
  · exact fail_safe _ _
  · split
    · exact fun isOutside => nomatch isOutside
    · trivial

theorem scanHint_safe (line : BitVec 32) (pending : LexHints) (text : List UInt8) :
    Safely (fun _ => True) (scanHint line cfg pending text) := by
  unfold scanHint
  dsimp only
  split
  · apply (alignValue_safe line _).bind
    intro value _
    split
    · exact fail_safe _ _
    · trivial
  · split
    · split
      · exact fail_safe _ _
      · trivial
    split
    · exact (flagHint_safe line _ _ _).bind fun _ _ => trivial
    · split
      · apply (bitsValue_safe line _).bind
        intro value _
        split
        · exact fail_safe _ _
        · trivial
      · trivial

theorem scanHints_safe (line : BitVec 32) (pending : LexHints) (text : List UInt8) :
    Safely (fun _ => True) (scanHints line cfg pending text) := by
  induction isSize : text.length using Nat.strong_induction_on generalizing pending text with
  | _ size ih =>
    cases text with
    | nil =>
      unfold scanHints
      trivial
    | cons c text =>
      have shorter : text.length < size := by
        rw [← isSize]
        exact Nat.lt_succ_self _
      unfold scanHints
      split
      · exact ih text.length shorter pending text rfl
      · split
        · next stop isHint => exact (scanHint_safe line pending text).error isHint
        · next after rest isHint =>
          have le := (scanHint_suffix isHint).length_le
          exact ih rest.length (lt_of_le_of_lt le shorter) after rest rfl

theorem scanComment_safe (cfg : Config) (line : BitVec 32) (pending : LexHints) (text : List UInt8) :
    Safely (fun _ => True) (lexHintsScanComment line cfg pending text) := by
  unfold lexHintsScanComment
  split
  · exact scanHints_safe line pending text
  · trivial

/-! ### Its branches -/

theorem lineComment_safe (behind : Within l.p (l.p.drop 2)) :
    Safely (fun next => ∀ l', next = some l' → Moved l l')
      (pass (fun c => c != 0 && c != byte '\n') (l.p.drop 2) >>= fun passed =>
        lexHintsScanComment l.line cfg l.pending passed.1 >>= fun pending =>
          .ok (some { l with p := passed.2, pending })) := by
  obtain ⟨text, rest, passed, within⟩ :=
    pass_within (fun c => c != 0 && c != byte '\n') behind.inside rfl rfl
  rw [passed]
  apply (scanComment_safe cfg l.line l.pending text).bind
  intro pending _ l' moved
  cases moved
  obtain ⟨piece, isPiece, noNewline⟩ := (behind.trans within).piece
  refine .between piece within.inside isPiece rfl ?_ (.inl rfl)
  rw [List.count_eq_zero.mpr noNewline]
  exact (BitVec.add_zero _).symm

theorem blockComment_safe (behind : Within l.p (l.p.drop 2)) :
    Safely (fun next => ∀ l', next = some l' → Moved l l')
      (blockComment l.line (l.p.drop 2) >>= fun passed =>
        lexHintsScanComment l.line cfg l.pending passed.1 >>= fun pending =>
          peek passed.2.1 0 >>= fun c =>
            .ok (some { l with
              p := if c = 0 then passed.2.1 else passed.2.1.drop 2
              line := passed.2.2
              pending
              space := true })) := by
  obtain ⟨front, isFront, noNewline⟩ := behind.piece
  obtain ⟨text, rest, passed, split, inside, stops⟩ := blockComment_inside behind.inside l.line
  rw [passed]
  apply (scanComment_safe cfg l.line l.pending text).bind
  intro pending _
  have counts : ∀ back, byte '\n' ∉ back →
      (front ++ (text ++ back)).count (byte '\n') = text.count (byte '\n') := by
    intro back noNewline'
    rw [List.count_append, List.count_append, List.count_eq_zero.mpr noNewline,
      List.count_eq_zero.mpr noNewline', Nat.zero_add, Nat.add_zero]
  rcases stops with isNul | closed
  · show Safely _ (peek rest 0 >>= _)
    rw [isNul]
    intro l' moved
    cases moved
    refine .between (front ++ (text ++ [])) inside ?_ rfl ?_ (.inl rfl)
    · rw [List.append_nil, List.append_assoc]
      exact isFront.trans (congrArg _ split)
    · rw [counts [] List.not_mem_nil]
  · obtain ⟨c, first, nonzero, within⟩ := closed
    obtain ⟨back, isBack, noNewline'⟩ := within.piece
    show Safely _ (peek rest 0 >>= _)
    rw [first]
    intro l' moved
    cases moved
    have rest' : (if c = 0 then rest else rest.drop 2) = rest.drop 2 := if_neg nonzero
    refine .between (front ++ (text ++ back)) ?_ ?_ rfl ?_ (.inl rfl)
    · dsimp only
      rw [rest']
      exact within.inside
    · dsimp only
      rw [rest', List.append_assoc, List.append_assoc, ← isBack, ← split]
      exact isFront
    · rw [counts back noNewline']

theorem token_safe (inside : Inside l.p) (first : peek l.p 0 = .ok c) (nonzero : c ≠ 0)
    (safe : Safe l.p) :
    Safely (fun next => ∀ l', next = some l' → Moved l l')
      (readToken l.line l.p >>= fun r => .ok (some {
        p := r.2.1
        line := r.2.2
        bol := false
        tokens := l.tokens ++ [⟨{ lexHintsApply l.pending r.1 with
          atBol := l.bol, hasSpace := l.space }, l.p⟩] })) := by
  apply (readToken_safe inside first nonzero safe).bind
  intro r read l' moved
  cases moved
  exact .token { lexHintsApply l.pending r.1 with hasSpace := l.space } (read.with rfl rfl) rfl rfl

theorem round_safe (cfg : Config) (inside : Inside l.p) (safe : Safe l.p) :
    Safely (fun next => ∀ l', next = some l' → Moved l l') (round cfg l) := by
  obtain ⟨c, first⟩ := inside.reads
  by_cases isNul : c = 0
  · rw [isNul] at first
    rw [round_nul first]
    intro l' moved
    cases moved
  obtain ⟨same, inside'⟩ := inside.tail first isNul
  obtain ⟨isLine, lineStarts, lineBehind⟩ :=
    within_spelling (bytes "//") inside (by decide) (by decide)
  obtain ⟨isBlock, blockStarts, blockBehind⟩ :=
    within_spelling (bytes "/*") inside (by decide) (by decide)
  unfold round
  rw [first]
  show Safely _ (if c = 0 then _ else _)
  rw [if_neg isNul]
  split
  · next isNewline =>
    intro l' moved
    cases moved
    refine .between [c] inside' same rfl ?_ (.inr ⟨rfl, ?_⟩)
    · rw [isNewline]
      rfl
    · rw [isNewline]
      exact List.mem_singleton_self _
  · next noNewline =>
    split
    · intro l' moved
      cases moved
      refine .between [c] inside' same rfl ?_ (.inl rfl)
      rw [List.count_eq_zero.mpr fun member => noNewline (List.mem_singleton.mp member).symm]
      exact (BitVec.add_zero _).symm
    · rw [lineStarts]
      cases isLine with
      | true => exact lineComment_safe (lineBehind rfl)
      | false =>
        rw [blockStarts]
        cases isBlock with
        | true => exact blockComment_safe (blockBehind rfl)
        | false => exact token_safe inside first isNul safe

/-- Where a round is not safe, it comes to a word or a literal. -/
theorem unsafe_first {p : Cursor} (notSafe : ¬Safe p) :
    ∃ c, peek p 0 = .ok c ∧ (isQuote c ∨ identStart c = true) := by
  by_contra other
  apply notSafe
  constructor
  · intro quote p' quoted split cut
    exact other ⟨quote, by rw [split]; rfl, .inl quoted⟩
  · intro p' items rest split literal
    exact absurd ⟨byte '"', by rw [split]; rfl, .inl (.inl rfl)⟩ other
  · intro c first starts
    exact absurd ⟨c, first, .inr starts⟩ other

/-- Neither of them is a blank, a newline, a comment or the NUL. -/
theorem first_other (starts : isQuote c ∨ identStart c = true) :
    c ≠ 0 ∧ c ≠ byte '\n' ∧ isBlank c = false ∧ c ≠ byte '/' := by
  rcases starts with quoted | starts
  · rcases quoted with isString | isChar
    · rw [isString]
      decide
    · rw [isChar]
      decide
  · refine ⟨?_, ?_, ?_, ?_⟩
    · intro same
      rw [same] at starts
      cases starts
    · intro same
      rw [same] at starts
      cases starts
    · by_contra blank
      rw [Bool.not_eq_false, isBlank, Bool.or_eq_true, Bool.or_eq_true, beq_iff_eq, beq_iff_eq,
        beq_iff_eq] at blank
      rcases blank with (same | same) | same
      · rw [same] at starts
        cases starts
      · rw [same] at starts
        cases starts
      · rw [same] at starts
        cases starts
    · intro same
      rw [same] at starts
      cases starts

theorem startsWith_other {p : Cursor} {d : UInt8} {text : List UInt8} (first : peek p 0 = .ok c)
    (other : c ≠ d) : startsWith p (d :: text) = .ok false := by
  cases p with
  | nil => cases first
  | cons c' p =>
    cases first
    unfold startsWith
    rw [if_neg other]

theorem round_token (first : peek l.p 0 = .ok c) (starts : isQuote c ∨ identStart c = true) :
    round cfg l = readToken l.line l.p >>= fun r => .ok (some {
      p := r.2.1
      line := r.2.2
      bol := false
      tokens := l.tokens ++ [⟨{ lexHintsApply l.pending r.1 with
        atBol := l.bol, hasSpace := l.space }, l.p⟩] }) := by
  obtain ⟨noNul, noNewline, noBlank, noSlash⟩ := first_other starts
  unfold round
  rw [first]
  show (if c = 0 then _ else _) = _
  rw [if_neg noNul, if_neg noNewline, noBlank, if_neg Bool.false_ne_true]
  have noLine : startsWith l.p (bytes "//") = .ok false := startsWith_other first noSlash
  have noBlock : startsWith l.p (bytes "/*") = .ok false := startsWith_other first noSlash
  rw [noLine, noBlock]
  rfl

theorem round_unsafe (cfg : Config) (inside : Inside l.p) (notSafe : ¬Safe l.p) : round cfg l = outside := by
  obtain ⟨c, first, starts⟩ := unsafe_first notSafe
  rw [round_token first starts, readToken_unsafe inside notSafe]
  rfl

end

/-! ## The run -/

def Next (cfg : Config) (l l' : Lexer) : Prop := round cfg l = .ok (some l')

def Reaches (cfg : Config) (src : Cursor) (l : Lexer) : Prop :=
  ∃ p, hashbang src = .ok p ∧ Relation.ReflTransGen (Next cfg) { p } l

section

variable {cfg : Config} {l l' : Lexer} {src : Cursor}

theorem Moved.inside (moved : Moved l l') : Inside l'.p := by
  cases moved with
  | between piece inside => exact inside
  | token t read =>
    rcases read with onLine | literal
    · exact onLine.1.inside
    · obtain ⟨quote, _, closed⟩ := literal
      exact closed.inside

theorem Next.moved (next : Next cfg l l') (inside : Inside l.p) : Moved l l' := by
  by_cases safe : Safe l.p
  · exact (round_safe cfg inside safe).ok next l' rfl
  · have isOutside := round_unsafe cfg inside safe
    rw [next] at isOutside
    cases isOutside

theorem inside_run (run : Relation.ReflTransGen (Next cfg) l l') (inside : Inside l.p) :
    Inside l'.p := by
  induction run with
  | refl => exact inside
  | tail _ next ih => exact (next.moved ih).inside

/-- How the main loop ends: at the NUL, or with the error of its last round. -/
theorem rounds_ends (cfg : Config) (l : Lexer) :
    ∃ l', Relation.ReflTransGen (Next cfg) l l' ∧
      (round cfg l' = .ok none ∧ rounds cfg l = .ok l' ∨
        ∃ stop, round cfg l' = .error stop ∧ rounds cfg l = .error stop) := by
  induction isSize : l.p.length using Nat.strong_induction_on generalizing l with
  | _ size ih =>
    rw [rounds]
    split
    · next stop isRound => exact ⟨l, .refl, .inr ⟨stop, isRound, rfl⟩⟩
    · next isRound => exact ⟨l, .refl, .inl ⟨isRound, rfl⟩⟩
    · next l' isRound =>
      have shorter : l'.p.length < size := isSize ▸ round_shorter isRound
      obtain ⟨last, run, ends⟩ := ih l'.p.length shorter l' rfl
      exact ⟨last, run.head isRound, ends⟩

theorem hashbang_inside (inside : Inside src) : ∃ p, hashbang src = .ok p ∧ Within src p := by
  obtain ⟨starts, isStart, _⟩ := within_spelling (bytes "#!") inside (by decide) (by decide)
  unfold hashbang
  rw [isStart]
  cases starts with
  | false => exact ⟨src, rfl, .here inside⟩
  | true =>
    obtain ⟨word, rest, passed, within⟩ :=
      pass_within (fun c => c != 0 && c != byte '\n') inside rfl rfl
    refine ⟨rest, ?_, within⟩
    show (pass _ src >>= _) = _
    rw [passed]
    rfl

theorem Reaches.inside (reaches : Reaches cfg src l) (isText : Inside src) : Inside l.p := by
  obtain ⟨p, begins, run⟩ := reaches
  obtain ⟨p', begins', within⟩ := hashbang_inside isText
  rw [begins] at begins'
  cases begins'
  exact inside_run run within.inside

/-- A state that the loop comes to and does not go on from is its last. -/
theorem run_last {last : Lexer} (run : Relation.ReflTransGen (Next cfg) l l')
    (run' : Relation.ReflTransGen (Next cfg) l last) (stops : ∀ l'', ¬Next cfg last l'') :
    Relation.ReflTransGen (Next cfg) l' last := by
  have unique : Relator.RightUnique (Next cfg) := by
    intro a b c first second
    have same := first.symm.trans second
    cases same
    rfl
  rcases Relation.ReflTransGen.total_of_right_unique unique run run' with onward | back
  · exact onward
  · cases back.cases_head with
    | inl same => exact same ▸ .refl
    | inr next =>
      obtain ⟨l'', next, _⟩ := next
      exact absurd next (stops l'')

theorem round_none (ended : round cfg l = .ok none) : peek l.p 0 = .ok 0 := by
  unfold round at ended
  obtain ⟨c, first, ended⟩ := bind_ok_iff.mp ended
  split at ended
  · next isNul => rw [first, isNul]
  split at ended
  · cases ended
  split at ended
  · cases ended
  obtain ⟨_, _, ended⟩ := bind_ok_iff.mp ended
  split at ended
  · obtain ⟨_, _, ended⟩ := bind_ok_iff.mp ended
    obtain ⟨_, _, ended⟩ := bind_ok_iff.mp ended
    cases ended
  obtain ⟨_, _, ended⟩ := bind_ok_iff.mp ended
  split at ended
  · obtain ⟨_, _, ended⟩ := bind_ok_iff.mp ended
    obtain ⟨_, _, ended⟩ := bind_ok_iff.mp ended
    obtain ⟨_, _, ended⟩ := bind_ok_iff.mp ended
    cases ended
  · obtain ⟨_, _, ended⟩ := bind_ok_iff.mp ended
    cases ended

/-- The run of a text ends in one state, which all others lead to. -/
theorem tokenizePlaced_ends (isText : Inside src) (cfg : Config) :
    ∃ last, Reaches cfg src last ∧
      (∀ l, Reaches cfg src l → Relation.ReflTransGen (Next cfg) l last) ∧
      (round cfg last = .ok none ∧ tokenizePlaced cfg src =
          .ok (last.tokens ++ [⟨{ kind := .eof, line := last.line, atBol := true }, last.p⟩]) ∨
        ∃ stop, round cfg last = .error stop ∧ tokenizePlaced cfg src = .error stop) := by
  obtain ⟨p, begins, within⟩ := hashbang_inside isText
  obtain ⟨last, run, ends⟩ := rounds_ends cfg { p }
  have stops : ∀ l, ¬Next cfg last l := by
    intro l next
    unfold Next at next
    rcases ends with ended | failed
    · rw [ended.1] at next
      cases next
    · obtain ⟨stop, failed, _⟩ := failed
      rw [failed] at next
      cases next
  refine ⟨last, ⟨p, begins, run⟩, ?_, ?_⟩
  · intro l reaches
    obtain ⟨p', begins', run'⟩ := reaches
    rw [begins] at begins'
    cases begins'
    exact run_last run' run stops
  · unfold tokenizePlaced
    rw [begins]
    show _ ∧ (rounds cfg { p } >>= _) = _ ∨ ∃ stop, _ ∧ (rounds cfg { p } >>= _) = _
    rcases ends with ended | failed
    · rw [ended.2]
      exact .inl ⟨ended.1, rfl⟩
    · obtain ⟨stop, failed, isError⟩ := failed
      rw [isError]
      exact .inr ⟨stop, failed, rfl⟩

end

def Ends (result : Lexing (List Token)) : Prop :=
  (∃ tokens, result = .ok tokens) ∨ ∃ line message, result = .error (.error line message)

/-- The tokenizer stays inside its input just when every round of its loop begins at a safe
place. -/
theorem tokenize_inBounds (cfg : Config) (src : Cursor) (isText : Inside src) :
    Ends (tokenize cfg src) ↔ ∀ l, Reaches cfg src l → Safe l.p := by
  obtain ⟨last, reaches, leads, ends⟩ := tokenizePlaced_ends isText cfg
  constructor
  · intro ended l reached
    by_contra notSafe
    have isOutside := round_unsafe cfg (reached.inside isText) notSafe
    have isLast : l = last := by
      rcases (leads l reached).cases_head with same | next
      · exact same
      · obtain ⟨l', next, _⟩ := next
        unfold Next at next
        rw [isOutside] at next
        cases next
    rw [isLast] at isOutside
    have failed : tokenize cfg src = outside := by
      unfold tokenize
      rcases ends with ended | failed
      · rw [isOutside] at ended
        cases ended.1
      · obtain ⟨stop, isRound, failed⟩ := failed
        rw [isOutside] at isRound
        cases isRound
        rw [failed]
        rfl
    rcases ended with ok | reported
    · obtain ⟨tokens, ok⟩ := ok
      rw [failed] at ok
      cases ok
    · obtain ⟨line, message, reported⟩ := reported
      rw [failed] at reported
      cases reported
  · intro safe
    unfold tokenize
    rcases ends with ended | failed
    · rw [ended.2]
      exact .inl ⟨_, rfl⟩
    · obtain ⟨stop, isRound, failed⟩ := failed
      have notOutside :=
        (round_safe cfg (reaches.inside isText) (safe last reaches)).error isRound
      rw [failed]
      cases stop with
      | outside => exact absurd rfl notOutside
      | error line message => exact .inr ⟨line, message, rfl⟩

def noHints : Config := ⟨false, fun _ _ => none⟩

def source (text : String) : Cursor := bytes text ++ [0]

theorem inside_source {text : List UInt8} (noNul : 0 ∉ text) : Inside (text ++ [0]) := by
  induction text with
  | nil => exact .nul
  | cons c text ih =>
    rw [List.mem_cons, not_or] at noNul
    exact .more c _ (Ne.symm noNul.1) (ih noNul.2)

theorem tokenize_inBounds_open :
    Ends (tokenize noHints (source "x \"\\n")) ↔
      ∀ l, Reaches noHints (source "x \"\\n") l → Safe l.p :=
  tokenize_inBounds noHints _ (inside_source (by decide))

/-- A text that ends behind the backslash of an escape is read on. -/
theorem cut_escape_outside : ¬∀ cfg src, Inside src → Ends (tokenize cfg src) := by
  intro all
  have ended := all noHints (source "\"\\") (inside_source (by decide))
  have failed : tokenize noHints (source "\"\\") = outside := by decide +kernel
  rw [failed] at ended
  rcases ended with ok | reported
  · obtain ⟨_, ok⟩ := ok
    cases ok
  · obtain ⟨_, _, reported⟩ := reported
    cases reported

end Aholyc.Lex
