import Aholyc.Lex.Bounds

/-!
# Line numbers

The tokenizer counts the newlines between tokens and in block comments, and those of a
string before it makes the string's token. It counts no newline of a character constant and
none that is escaped.
-/

namespace Aholyc.Lex

open Aholyc.Lib

def lineAt (src p : Cursor) : Nat :=
  1 + (src.take (src.length - p.length)).count (byte '\n')

def operands (dline : BitVec 32) (tokens : List Token) : List Token :=
  tokens.takeWhile fun b => b.kind != .eof && !b.atBol && b.line == dline

def Exact (src : Cursor) (t : Placed) : Prop := t.token.line.toInt = lineAt src t.start

def isDirective (t : Token) : Prop := t.kind = .punct ∧ t.str = bytes "#" ∧ t.atBol = true

/-- The lines of the tokens are exact, and the operands of a directive are the tokens that
start on its line. -/
structure LinesExact (src : Cursor) (placed : List Placed) : Prop where
  exact : ∀ t ∈ placed, Exact src t
  operands : ∀ front hash skipped rest, placed = front ++ hash :: (skipped ++ rest) →
    isDirective hash.token →
    operands hash.token.line (rest.map Placed.token) =
      (rest.filter fun t => t.token.kind != .eof &&
        lineAt src t.start == lineAt src hash.start).map Placed.token

/-- No literal that the tokenizer comes to has a newline in its body. -/
def NoNewlineInLiterals (cfg : Config) (src : Cursor) : Prop :=
  ∀ l, Reaches cfg src l → ∀ quote body items rest, isQuote quote → l.p = quote :: (body ++ rest) →
    Literal quote (body ++ rest) items rest → byte '\n' ∉ body

/-! ## Places -/

section

variable {src p p' : Cursor} {piece : List UInt8}

theorem lineAt_eq {front : List UInt8} (split : src = front ++ p) :
    lineAt src p = 1 + front.count (byte '\n') := by
  unfold lineAt
  rw [split, List.length_append, Nat.add_sub_cancel, List.take_left]

theorem lineAt_behind (suffix : p <:+ src) (split : p = piece ++ p') :
    lineAt src p' = lineAt src p + piece.count (byte '\n') := by
  obtain ⟨front, isFront⟩ := suffix
  have whole : src = (front ++ piece) ++ p' := by
    rw [← isFront, split, List.append_assoc]
  rw [lineAt_eq isFront.symm, lineAt_eq whole, List.count_append, Nat.add_assoc]

theorem lineAt_le (suffix : p <:+ src) : lineAt src p ≤ 1 + src.count (byte '\n') := by
  obtain ⟨front, isFront⟩ := suffix
  rw [lineAt_eq isFront.symm, ← isFront, List.count_append]
  omega

theorem lineAt_end (suffix : [0] <:+ src) : lineAt src [0] = 1 + src.count (byte '\n') := by
  obtain ⟨front, isFront⟩ := suffix
  rw [lineAt_eq isFront.symm, ← isFront, List.count_append]
  rfl

theorem line_toInt {n : Nat} (small : n < 2 ^ 31) : (BitVec.ofNat 32 n).toInt = n := by
  rw [BitVec.toInt_eq_toNat_of_lt]
  · rw [BitVec.toNat_ofNat, Nat.mod_eq_of_lt (by omega)]
  · rw [BitVec.toNat_ofNat, Nat.mod_eq_of_lt (by omega)]
    omega

theorem line_injective {m n : Nat} (small : m < 2 ^ 31) (small' : n < 2 ^ 31)
    (same : BitVec.ofNat 32 m = BitVec.ofNat 32 n) : m = n := by
  have ints := congrArg BitVec.toInt same
  rw [line_toInt small, line_toInt small'] at ints
  exact Int.ofNat.inj ints

end

/-! ## What a round counts -/

/-- A round passes a piece of the text and counts some of its newlines: all of them between
tokens, and those that stand in front of its end for a token. -/
structure Passed (l l' : Lexer) (piece : List UInt8) (counts : Nat) : Prop where
  split : l.p = piece ++ l'.p
  few : counts ≤ piece.count (byte '\n')
  line : l'.line = l.line + BitVec.ofNat 32 counts
  yields :
    l'.tokens = l.tokens ∧ counts = piece.count (byte '\n') ∧
        (l'.bol = l.bol ∨ l'.bol = true ∧ byte '\n' ∈ piece) ∨
      ∃ t, l'.tokens = l.tokens ++ [⟨t, l.p⟩] ∧ t.line = l'.line ∧ t.kind ≠ .eof ∧
        t.atBol = l.bol ∧ l'.bol = false

section

variable {l l' : Lexer} {cfg : Config} {src : Cursor}

theorem Moved.passed (moved : Moved l l') : ∃ piece counts, Passed l l' piece counts := by
  cases moved with
  | between piece inside split tokens line bol =>
    exact ⟨piece, _, split, Nat.le_refl _, line, .inl ⟨tokens, rfl, bol⟩⟩
  | token t read tokens bol =>
    rcases read with onLine | literal
    · obtain ⟨within, fits, line⟩ := onLine
      obtain ⟨piece, split, _⟩ := within.piece
      refine ⟨piece, 0, split, Nat.zero_le _, ?_, .inr ⟨_, tokens, ?_, fits.kind, rfl, bol⟩⟩
      · exact line.trans (BitVec.add_zero _).symm
      · exact fits.line.trans line.symm
    · obtain ⟨quote, _, closed⟩ := literal
      obtain ⟨body, items, split, _, counts, few, line⟩ := closed.literal
      refine ⟨quote :: (body ++ [quote]), counts, ?_, ?_, line,
        .inr ⟨_, tokens, closed.fits.line, closed.fits.kind, rfl, bol⟩⟩
      · rw [split, List.cons_append, List.append_assoc]
        rfl
      · rw [List.count_cons, List.count_append]
        omega

theorem Reaches.suffix (reaches : Reaches cfg src l) (isText : Inside src) : l.p <:+ src := by
  obtain ⟨p, begins, run⟩ := reaches
  obtain ⟨p', begins', within⟩ := hashbang_inside isText
  rw [begins] at begins'
  cases begins'
  induction run with
  | refl =>
    obtain ⟨piece, split, _⟩ := within.piece
    exact ⟨piece, split.symm⟩
  | tail run next ih =>
    obtain ⟨piece, counts, passed⟩ := (next.moved (inside_run run within.inside)).passed
    exact List.IsSuffix.trans ⟨piece, passed.split.symm⟩ ih

theorem Reaches.next (reaches : Reaches cfg src l) (next : Next cfg l l') :
    Reaches cfg src l' := by
  obtain ⟨p, begins, run⟩ := reaches
  exact ⟨p, begins, run.tail next⟩

theorem tokens_run (isText : Inside src) (reaches : Reaches cfg src l)
    (run : Relation.ReflTransGen (Next cfg) l l') : l.tokens ⊆ l'.tokens := by
  induction run using Relation.ReflTransGen.head_induction_on with
  | refl => exact List.Subset.refl _
  | head next _ ih =>
    obtain ⟨piece, counts, passed⟩ := (next.moved (reaches.inside isText)).passed
    apply List.Subset.trans _ (ih (reaches.next next))
    rcases passed.yields with blank | token
    · rw [blank.1]
      exact List.Subset.refl _
    · obtain ⟨t, tokens, _⟩ := token
      rw [tokens]
      exact List.subset_append_left _ _

/-! ## Newlines that are not counted -/

def Drift (src : Cursor) (l : Lexer) (u : Nat) : Prop :=
  u < lineAt src l.p ∧ l.line = BitVec.ofNat 32 (lineAt src l.p - u)

variable {u : Nat} {quote : UInt8} {placed : List Placed}

theorem Passed.drift {piece : List UInt8} {counts : Nat} (passed : Passed l l' piece counts)
    (suffix : l.p <:+ src) (drift : Drift src l u) :
    Drift src l' (u + (piece.count (byte '\n') - counts)) := by
  obtain ⟨behind, line⟩ := drift
  have place := lineAt_behind suffix passed.split
  have few := passed.few
  constructor
  · omega
  · rw [passed.line, line, ← BitVec.ofNat_add]
    apply congrArg
    omega

theorem drift_run (isText : Inside src) (reaches : Reaches cfg src l)
    (run : Relation.ReflTransGen (Next cfg) l l') (drift : Drift src l u) :
    ∃ u', u ≤ u' ∧ Drift src l' u' := by
  induction run using Relation.ReflTransGen.head_induction_on generalizing u with
  | refl => exact ⟨u, Nat.le_refl _, drift⟩
  | head next _ ih =>
    obtain ⟨piece, counts, passed⟩ := (next.moved (reaches.inside isText)).passed
    obtain ⟨u', le, drift'⟩ := ih (reaches.next next) (passed.drift (reaches.suffix isText) drift)
    exact ⟨u', le_trans (Nat.le_add_right _ _) le, drift'⟩

theorem Reaches.drift (reaches : Reaches cfg src l) (isText : Inside src) :
    ∃ u, Drift src l u := by
  obtain ⟨p, begins, run⟩ := reaches
  obtain ⟨p', begins', within⟩ := hashbang_inside isText
  have isStart := begins
  rw [begins] at begins'
  cases begins'
  obtain ⟨piece, split, noNewline⟩ := within.piece
  have first : lineAt src p = 1 := by
    rw [lineAt_eq split, List.count_eq_zero.mpr noNewline]
  have start : Drift src { p } 0 := by
    constructor
    · rw [first]
      decide
    · rw [first]
      rfl
  obtain ⟨u, _, drift⟩ := drift_run isText ⟨p, isStart, .refl⟩ run start
  exact ⟨u, drift⟩

/-- An exact line at the end has counted every newline. -/
theorem Drift.exact (drift : Drift src l u) (exact : l.line.toInt = lineAt src l.p) :
    u = 0 ∧ lineAt src l.p < 2 ^ 31 := by
  obtain ⟨behind, line⟩ := drift
  have upper := BitVec.toInt_lt (x := l.line)
  rw [exact] at upper
  have small : lineAt src l.p < 2 ^ 31 := by
    omega
  rw [line, line_toInt (by omega)] at exact
  constructor
  · omega
  · exact small

/-! ## A newline in a literal -/

theorem Literal.unique {p rest rest' : Cursor} {items items' : List Item}
    (literal : Literal quote p items rest) (other : Literal quote p items' rest')
    (quoted : quote ≠ backslash) : rest = rest' := by
  induction literal generalizing items' with
  | stop c p stops =>
    cases other with
    | stop _ _ _ => rfl
    | plain _ _ _ _ nonzero notQuote _ _ => exact absurd stops (not_or.mpr ⟨nonzero, notQuote⟩)
    | escape _ _ _ _ _ _ _ => exact absurd stops (not_or.mpr ⟨by decide, quoted.symm⟩)
  | plain c p items rest nonzero notQuote escaped _ ih =>
    cases other with
    | stop _ _ stops => exact absurd stops (not_or.mpr ⟨nonzero, notQuote⟩)
    | plain _ _ _ _ _ _ _ other => exact ih other
    | escape _ _ _ _ _ _ _ => exact absurd rfl escaped
  | escape p v behind items rest isEscape _ ih =>
    cases other with
    | stop _ _ stops => exact absurd stops (not_or.mpr ⟨by decide, quoted.symm⟩)
    | plain _ _ _ _ _ _ escaped _ => exact absurd rfl escaped
    | escape _ _ _ _ _ isEscape' other =>
      rw [isEscape] at isEscape'
      cases isEscape'
      exact ih other

theorem isQuote_other (quoted : isQuote quote) :
    quote ≠ 0 ∧ quote ≠ backslash ∧ quote ≠ byte '\n' := by
  rcases quoted with same | same
  · rw [same]
    decide
  · rw [same]
    decide

/-- A round that begins at a quote reads that literal. -/
theorem Next.closed {p : Cursor} (next : Next cfg l l') (inside : Inside l.p)
    (quoted : isQuote quote) (first : l.p = quote :: p) :
    ∃ t, Closed quote l.line l.p t l'.p l'.line ∧
      ∃ t', l'.tokens = l.tokens ++ [⟨t', l.p⟩] ∧ t'.line = t.line ∧ t'.kind = t.kind ∧
        t'.atBol = l.bol ∧ l'.bol = false := by
  have safe : Safe l.p := by
    by_contra notSafe
    have isOutside := round_unsafe cfg inside notSafe
    rw [next] at isOutside
    cases isOutside
  have isFirst : peek l.p 0 = .ok quote := by
    rw [first]
    rfl
  have inside' : Inside p := (first ▸ inside).behind (isQuote_other quoted).1
  have ended := next
  unfold Next at ended
  rw [round_token isFirst (.inl quoted)] at ended
  obtain ⟨⟨t, p', line⟩, isToken, same⟩ := bind_ok_iff.mp ended
  cases same
  refine ⟨t, ?_, _, rfl, rfl, rfl, rfl, rfl⟩
  have uncut := safe.uncut quote p quoted first
  have notHex : isHex quote = false := by
    rcases quoted with same | same
    · rw [same]
      rfl
    · rw [same]
      rfl
  obtain ⟨items, rest, literal⟩ := (cutOff_or_literal notHex inside').resolve_left uncut
  rcases quoted with isString | isChar
  · rw [isString] at first literal ⊢
    have short := safe.short p items rest first literal
    rw [first, readToken_string] at isToken
    rw [first]
    exact (stringToken_safe inside' literal short).ok isToken
  · rw [isChar] at first literal ⊢
    rw [first, readToken_char] at isToken
    obtain ⟨⟨t', p''⟩, isChar, same⟩ := bind_ok_iff.mp isToken
    cases same
    rw [first]
    exact (charToken_safe inside' literal).ok isChar

theorem placed_ends (isText : Inside src) (ended : tokenizePlaced cfg src = .ok placed) :
    ∃ last, Reaches cfg src last ∧
      (∀ l, Reaches cfg src l → Relation.ReflTransGen (Next cfg) l last) ∧ last.p = [0] ∧
      placed = last.tokens ++ [⟨{ kind := .eof, line := last.line, atBol := true }, last.p⟩] := by
  obtain ⟨last, reaches, leads, ends⟩ := tokenizePlaced_ends isText cfg
  rcases ends with ok | failed
  · have first := round_none ok.1
    rw [ok.2] at ended
    injection ended with same
    exact ⟨last, reaches, leads, (reaches.inside isText).of_nul first, same.symm⟩
  · obtain ⟨stop, _, failed⟩ := failed
    rw [failed] at ended
    cases ended

/-- Exact lines of all tokens leave no newline uncounted, and none in a literal. -/
theorem exact_counts (isText : Inside src) (ended : tokenizePlaced cfg src = .ok placed)
    (exact : ∀ t ∈ placed, Exact src t) :
    NoNewlineInLiterals cfg src ∧ src.count (byte '\n') < 2 ^ 31 - 1 := by
  obtain ⟨last, reaches, leads, atEnd, isPlaced⟩ := placed_ends isText ended
  have isEnd : [0] <:+ src := by
    have suffix := reaches.suffix isText
    rw [atEnd] at suffix
    exact suffix
  have lastLine := lineAt_end isEnd
  have lastExact : last.line.toInt = lineAt src last.p := by
    apply exact ⟨{ kind := .eof, line := last.line, atBol := true }, last.p⟩
    rw [isPlaced]
    exact List.mem_append_right _ (List.mem_singleton_self _)
  have small : 1 + src.count (byte '\n') < 2 ^ 31 := by
    obtain ⟨u, drift⟩ := reaches.drift isText
    have bound := (drift.exact lastExact).2
    rw [atEnd, lastLine] at bound
    exact bound
  refine ⟨?_, by omega⟩
  intro l reached quote body items rest quoted first literal newline
  have inside := reached.inside isText
  have suffix := reached.suffix isText
  obtain ⟨noNul, noBackslash, noNewline⟩ := isQuote_other quoted
  rcases (leads l reached).cases_head with same | onward
  · rw [same, atEnd] at first
    injection first with isNul _
    exact noNul isNul.symm
  obtain ⟨l', next, run⟩ := onward
  obtain ⟨t, closed, t', tokens, sameLine, sameKind, atBol, bol⟩ :=
    next.closed inside quoted first
  obtain ⟨body', items', split, literal', counts, few, line⟩ := closed.literal
  rw [split] at first
  injection first with _ bodies
  rw [bodies] at literal'
  have isRest := literal.unique literal' noBackslash
  rw [isRest] at bodies
  have isBody := List.append_cancel_right bodies
  have passed : Passed l l' (quote :: (body ++ [quote])) counts := by
    refine ⟨?_, ?_, line, .inr ⟨t', tokens, ?_, ?_, atBol, bol⟩⟩
    · rw [split, isBody, List.cons_append, List.append_assoc]
      rfl
    · rw [isBody] at few
      rw [List.count_cons, List.count_append]
      omega
    · exact sameLine.trans closed.fits.line
    · exact fun isEof => closed.fits.kind (sameKind.symm.trans isEof)
  have place := lineAt_behind suffix passed.split
  have newlines : 0 < (quote :: (body ++ [quote])).count (byte '\n') := by
    apply List.count_pos_iff.mpr
    exact List.mem_cons_of_mem _ (List.mem_append_left _ newline)
  obtain ⟨u, drift⟩ := reached.drift isText
  have drift' := passed.drift suffix drift
  obtain ⟨u', le, drift''⟩ := drift_run isText (reached.next next) run drift'
  have none := (drift''.exact lastExact).1
  have line' := drift'.2
  have counted : u + ((quote :: (body ++ [quote])).count (byte '\n') - counts) = 0 := by
    omega
  rw [counted, Nat.sub_zero] at line'
  have le' := lineAt_le ((reached.next next).suffix isText)
  have isExact : t'.line.toInt = lineAt src l.p := by
    apply exact ⟨t', l.p⟩
    rw [isPlaced]
    apply List.mem_append_left
    apply tokens_run isText (reached.next next) run
    rw [tokens]
    exact List.mem_append_right _ (List.mem_singleton_self _)
  rw [sameLine, closed.fits.line, line', line_toInt (by omega)] at isExact
  omega

/-! ## When every newline is counted -/

/-- The state and its tokens while no literal has had a newline. -/
structure Counted (src : Cursor) (l : Lexer) : Prop where
  line : l.line = BitVec.ofNat 32 (lineAt src l.p)
  exact : ∀ t ∈ l.tokens, t.token.line = BitVec.ofNat 32 (lineAt src t.start)
  le : ∀ t ∈ l.tokens, lineAt src t.start ≤ lineAt src l.p
  bol : l.bol = true → ∀ t ∈ l.tokens, lineAt src t.start < lineAt src l.p
  order : l.tokens.Pairwise fun a b => lineAt src a.start ≤ lineAt src b.start ∧
    (b.token.atBol = true → lineAt src a.start < lineAt src b.start)
  kind : ∀ t ∈ l.tokens, t.token.kind ≠ .eof

theorem Read.onLine {t : Token} (read : Read l.line l.p (t, l'.p, l'.line))
    (reaches : Reaches cfg src l) (clean : NoNewlineInLiterals cfg src) :
    Within l.p l'.p ∧ Fits l.line t ∧ l'.line = l.line := by
  rcases read with onLine | literal
  · exact onLine
  obtain ⟨quote, quoted, closed⟩ := literal
  obtain ⟨body, items, split, literal, counts, few, line⟩ := closed.literal
  have noNewline := clean l reaches quote body items _ quoted split literal
  rw [List.count_eq_zero.mpr noNewline] at few
  have same : l'.line = l.line := by
    have line' : l'.line = l.line + BitVec.ofNat 32 counts := line
    rw [line', Nat.le_zero.mp few]
    exact BitVec.add_zero _
  have fits : Fits l'.line t := closed.fits
  rw [same] at fits
  refine ⟨⟨closed.inside, quote :: (body ++ [quote]), ?_, ?_⟩, fits, same⟩
  · have split' : l.p = quote :: (body ++ quote :: l'.p) := split
    rw [split', List.cons_append, List.append_assoc]
    rfl
  · intro newline
    rcases List.mem_cons.mp newline with same | newline
    · exact (isQuote_other quoted).2.2 same.symm
    · rcases List.mem_append.mp newline with inBody | atEnd
      · exact noNewline inBody
      · exact (isQuote_other quoted).2.2 (List.mem_singleton.mp atEnd).symm

theorem Counted.next (isText : Inside src) (reaches : Reaches cfg src l)
    (clean : NoNewlineInLiterals cfg src) (counted : Counted src l) (next : Next cfg l l') :
    Counted src l' := by
  have suffix := reaches.suffix isText
  cases next.moved (reaches.inside isText) with
  | between piece inside split tokens line bol =>
    have place := lineAt_behind suffix split
    have le : ∀ t ∈ l.tokens, lineAt src t.start ≤ lineAt src l'.p := by
      intro t member
      rw [place]
      exact le_trans (counted.le t member) (Nat.le_add_right _ _)
    refine ⟨?_, ?_, ?_, ?_, ?_, ?_⟩
    · rw [line, counted.line, ← BitVec.ofNat_add, place]
    · rw [tokens]
      exact counted.exact
    · rw [tokens]
      exact le
    · rw [tokens]
      intro isBol t member
      rcases bol with same | newline
      · rw [same] at isBol
        rw [place]
        exact lt_of_lt_of_le (counted.bol isBol t member) (Nat.le_add_right _ _)
      · have pos := List.count_pos_iff.mpr newline.2
        have before := counted.le t member
        omega
    · rw [tokens]
      exact counted.order
    · rw [tokens]
      exact counted.kind
  | token t read tokens bol =>
    obtain ⟨within, fits, line⟩ := read.onLine reaches clean
    obtain ⟨piece, split, noNewline⟩ := within.piece
    have place := lineAt_behind suffix split
    rw [List.count_eq_zero.mpr noNewline, Nat.add_zero] at place
    refine ⟨?_, ?_, ?_, ?_, ?_, ?_⟩
    · rw [line, place]
      exact counted.line
    · rw [tokens, List.forall_mem_append]
      refine ⟨counted.exact, ?_⟩
      rw [List.forall_mem_singleton]
      exact fits.line.trans counted.line
    · rw [tokens, List.forall_mem_append, place]
      refine ⟨counted.le, ?_⟩
      rw [List.forall_mem_singleton]
    · intro isBol
      rw [bol] at isBol
      cases isBol
    · rw [tokens, List.pairwise_append]
      refine ⟨counted.order, List.pairwise_singleton _ _, ?_⟩
      intro a member b isLast
      rw [List.mem_singleton.mp isLast]
      exact ⟨counted.le a member, fun atBol => counted.bol atBol a member⟩
    · rw [tokens, List.forall_mem_append]
      refine ⟨counted.kind, ?_⟩
      rw [List.forall_mem_singleton]
      exact fits.kind

theorem Reaches.counted (reaches : Reaches cfg src l) (isText : Inside src)
    (clean : NoNewlineInLiterals cfg src) : Counted src l := by
  obtain ⟨p, begins, run⟩ := reaches
  obtain ⟨p', begins', within⟩ := hashbang_inside isText
  have isStart := begins
  rw [begins] at begins'
  cases begins'
  induction run with
  | refl =>
    obtain ⟨piece, split, noNewline⟩ := within.piece
    have first : lineAt src p = 1 := by
      rw [lineAt_eq split, List.count_eq_zero.mpr noNewline]
    refine ⟨?_, List.forall_mem_nil _, List.forall_mem_nil _, fun _ => List.forall_mem_nil _,
      List.Pairwise.nil, List.forall_mem_nil _⟩
    rw [first]
    rfl
  | tail run next ih => exact ih.next isText ⟨p, isStart, run⟩ clean next

theorem takeWhile_eq_filter {α : Type} {test : α → Bool} {items : List α}
    (stays : items.Pairwise fun a b => test b = true → test a = true) :
    items.takeWhile test = items.filter test := by
  induction stays with
  | nil => rfl
  | cons first _ ih =>
    rename_i a items _
    by_cases holds : test a = true
    · rw [List.takeWhile_cons_of_pos holds, List.filter_cons_of_pos holds, ih]
    · rw [List.takeWhile_cons_of_neg holds, List.filter_cons_of_neg holds]
      symm
      rw [List.filter_eq_nil_iff]
      intro b member later
      exact holds (first b member later)

def Before (src : Cursor) (a b : Placed) : Prop :=
  a.token.kind ≠ .eof ∧ lineAt src a.start ≤ lineAt src b.start ∧
    (b.token.kind ≠ .eof → b.token.atBol = true → lineAt src a.start < lineAt src b.start)

/-- What the collection of operands asks of a token, by its line and by its place. -/
theorem onLine_iff {hash b : Placed} (before : Before src hash b) (small : lineAt src b.start < 2 ^ 31)
    (line : hash.token.line = BitVec.ofNat 32 (lineAt src hash.start))
    (line' : b.token.line = BitVec.ofNat 32 (lineAt src b.start)) :
    (b.token.kind != .eof && !b.token.atBol && b.token.line == hash.token.line) =
      (b.token.kind != .eof && lineAt src b.start == lineAt src hash.start) := by
  obtain ⟨_, le, bol⟩ := before
  by_cases isEof : b.token.kind = .eof
  · rw [isEof]
    rfl
  by_cases same : lineAt src b.start = lineAt src hash.start
  · have noBol : b.token.atBol = false := by
      by_contra isBol
      rw [Bool.not_eq_false] at isBol
      exact absurd same (bol isEof isBol).ne'
    rw [noBol, line, line', same, beq_self_eq_true, beq_self_eq_true, Bool.not_false,
      Bool.and_true]
  · have other : b.token.line ≠ hash.token.line := by
      intro equal
      rw [line, line'] at equal
      exact same (line_injective small (by omega) equal)
    rw [beq_eq_false_iff_ne.mpr other, beq_eq_false_iff_ne.mpr same, Bool.and_false,
      Bool.and_false]

theorem counted_lines (isText : Inside src) (ended : tokenizePlaced cfg src = .ok placed)
    (clean : NoNewlineInLiterals cfg src) (small : src.count (byte '\n') < 2 ^ 31 - 1) :
    LinesExact src placed := by
  obtain ⟨last, reaches, _, _, isPlaced⟩ := placed_ends isText ended
  have counted := reaches.counted isText clean
  have bound := lineAt_le (reaches.suffix isText)
  have line : ∀ t ∈ placed, t.token.line = BitVec.ofNat 32 (lineAt src t.start) := by
    rw [isPlaced, List.forall_mem_append, List.forall_mem_singleton]
    exact ⟨counted.exact, counted.line⟩
  have less : ∀ t ∈ placed, lineAt src t.start < 2 ^ 31 := by
    have le : ∀ t ∈ placed, lineAt src t.start ≤ lineAt src last.p := by
      rw [isPlaced, List.forall_mem_append, List.forall_mem_singleton]
      exact ⟨counted.le, Nat.le_refl _⟩
    intro t member
    have bound' := le t member
    omega
  have order : placed.Pairwise (Before src) := by
    rw [isPlaced, List.pairwise_append]
    refine ⟨?_, List.pairwise_singleton _ _, ?_⟩
    · apply counted.order.imp_of_mem
      intro a b isA _ order
      exact ⟨counted.kind a isA, order.1, fun _ => order.2⟩
    · intro a isA b isEof
      rw [List.mem_singleton.mp isEof]
      exact ⟨counted.kind a isA, counted.le a isA, fun notEof => absurd rfl notEof⟩
  constructor
  · intro t member
    unfold Exact
    rw [line t member, line_toInt (less t member)]
  intro front hash skipped rest split _
  rw [split] at line less order
  have members : ∀ b ∈ rest, b ∈ front ++ hash :: (skipped ++ rest) := by
    intro b member
    exact List.mem_append_right _ (List.mem_cons_of_mem _ (List.mem_append_right _ member))
  have isHash : hash ∈ front ++ hash :: (skipped ++ rest) :=
    List.mem_append_right _ List.mem_cons_self
  have behind := (List.pairwise_append.mp order).2.1
  rw [List.pairwise_cons, List.pairwise_append] at behind
  obtain ⟨afterHash, _, inRest, _⟩ := behind
  have same : ∀ b ∈ rest, (b.token.kind != .eof && !b.token.atBol &&
      b.token.line == hash.token.line) =
        (b.token.kind != .eof && lineAt src b.start == lineAt src hash.start) := by
    intro b member
    exact onLine_iff (afterHash b (List.mem_append_right _ member)) (less b (members b member))
      (line hash isHash) (line b (members b member))
  unfold operands
  rw [List.takeWhile_map]
  apply congrArg
  rw [takeWhile_eq_filter]
  · exact List.filter_congr same
  apply inRest.imp_of_mem
  intro a b isA isB before later
  have later' := later
  change (b.token.kind != .eof && !b.token.atBol && b.token.line == hash.token.line) = true
    at later'
  change (a.token.kind != .eof && !a.token.atBol && a.token.line == hash.token.line) = true
  rw [same b isB, Bool.and_eq_true, beq_iff_eq] at later'
  rw [same a isA, Bool.and_eq_true, beq_iff_eq, bne_iff_ne]
  have first := (afterHash a (List.mem_append_right _ isA)).2.1
  have next := before.2.1
  exact ⟨before.1, by omega⟩

end

/-- The lines of an accepted text are exact just when no literal has a newline in it and an `int`
holds the number of the last line. -/
theorem lines_exact_iff (cfg : Config) (src : Cursor) (placed : List Placed) (isText : Inside src)
    (ended : tokenizePlaced cfg src = .ok placed) :
    LinesExact src placed ↔
      NoNewlineInLiterals cfg src ∧ src.count (byte '\n') < 2 ^ 31 - 1 := by
  constructor
  · intro lines
    exact exact_counts isText ended lines.exact
  · intro clean
    exact counted_lines isText ended clean.1 clean.2

theorem lines_exact_word :
    LinesExact (source "\n x")
      [⟨{ kind := .id, str := bytes "x", len := 1, line := 2, atBol := true, hasSpace := true },
        source "x"⟩, ⟨{ kind := .eof, line := 2, atBol := true }, [0]⟩] ↔
      NoNewlineInLiterals noHints (source "\n x") ∧
        (source "\n x").count (byte '\n') < 2 ^ 31 - 1 :=
  lines_exact_iff noHints (source "\n x") _ (inside_source (by decide)) (by decide +kernel)

/-- Behind a newline in a character constant the word `x` stands on line 2, and is recorded on
line 1. -/
theorem newline_in_char : ¬∀ cfg src placed, Inside src → tokenizePlaced cfg src = .ok placed →
    LinesExact src placed := by
  intro all
  have ended : tokenizePlaced noHints (source "'\n'x") = .ok
      [⟨{ kind := .chr, ival := 10, len := 1, line := 1, atBol := true }, source "'\n'x"⟩,
        ⟨{ kind := .id, str := bytes "x", len := 1, line := 1 }, source "x"⟩,
        ⟨{ kind := .eof, line := 1, atBol := true }, [0]⟩] := by decide +kernel
  have lines := all noHints _ _ (inside_source (by decide)) ended
  have exact := lines.exact _ (List.mem_cons_of_mem _ List.mem_cons_self)
  unfold Exact at exact
  revert exact
  decide

end Aholyc.Lex
