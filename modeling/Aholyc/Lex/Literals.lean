import Aholyc.Lex.Pieces

/-!
# Literals

A literal is cut off when the text ends between the backslash and the byte that it escapes:
`readEscape` then consumes the NUL. Every other literal has a decoding, closed or not.
-/

namespace Aholyc.Lex

open Aholyc.Lib

/-- The text ends behind the backslash of an escape, with the literal still open. -/
inductive CutOff (quote : UInt8) : Cursor → Prop
  | here : CutOff quote [backslash, 0]
  | plain (c : UInt8) (p : Cursor) : c ≠ 0 → c ≠ quote → c ≠ backslash → CutOff quote p →
      CutOff quote (c :: p)
  | escape (c : UInt8) (p : Cursor) : c ≠ 0 → CutOff quote p → CutOff quote (backslash :: c :: p)

abbrev Item := Bool × BitVec 32

/-- The body of a literal decodes to the items, up to its closing quote or the NUL. -/
inductive Literal (quote : UInt8) : Cursor → List Item → Cursor → Prop
  | stop (c : UInt8) (p : Cursor) : c = 0 ∨ c = quote → Literal quote (c :: p) [] (c :: p)
  | plain (c : UInt8) (p : Cursor) (items : List Item) (rest : Cursor) : c ≠ 0 → c ≠ quote →
      c ≠ backslash → Literal quote p items rest →
      Literal quote (c :: p) ((false, BitVec.ofNat 32 c.toNat) :: items) rest
  | escape (p : Cursor) (v : BitVec 32) (behind : Cursor) (items : List Item) (rest : Cursor) :
      readEscape p = .ok (v, behind) → Literal quote behind items rest →
      Literal quote (backslash :: p) ((true, v) :: items) rest

def isHex (c : UInt8) : Bool := (hexval c).isSome

section

variable {p p' rest : Cursor} {quote : UInt8} {items : List Item}

/-! ## Escapes -/

theorem hexDigits_inside (inside : Inside p) (v : BitVec 32) :
    ∃ v' digits behind, hexDigits v p = .ok (v', behind) ∧ p = digits ++ behind ∧
      Inside behind ∧ ∀ d ∈ digits, isHex d = true := by
  induction inside generalizing v with
  | nul => exact ⟨v, [], [0], rfl, rfl, .nul, List.forall_mem_nil _⟩
  | more c p nonzero inside ih =>
    unfold hexDigits
    split
    · next digit isDigit =>
      obtain ⟨v', digits, behind, ended, split, inside', all⟩ :=
        ih (v * 16 + BitVec.ofNat 32 digit)
      refine ⟨v', c :: digits, behind, ended, by rw [split, List.cons_append], inside', ?_⟩
      apply List.forall_mem_cons (p := fun d => isHex d = true).mpr
      refine ⟨?_, all⟩
      unfold isHex
      rw [isDigit]
      rfl
    · exact ⟨v, [], c :: p, rfl, rfl, .more c p nonzero inside, List.forall_mem_nil _⟩

/-- The escaped byte is there: the escape is that byte, and the hex digits behind an `x`. -/
theorem readEscape_inside (inside : Inside p) (c : UInt8) :
    ∃ v digits behind, readEscape (c :: p) = .ok (v, behind) ∧ p = digits ++ behind ∧
      Inside behind ∧ ∀ d ∈ digits, isHex d = true := by
  have first : peek (c :: p) 0 = .ok c := rfl
  unfold readEscape
  rw [first]
  dsimp only [bind, Except.bind]
  split
  · exact ⟨_, [], p, rfl, rfl, inside, List.forall_mem_nil _⟩
  · split
    · exact hexDigits_inside inside 0
    · exact ⟨_, [], p, rfl, rfl, inside, List.forall_mem_nil _⟩

theorem CutOff.tail {c : UInt8} (cut : CutOff quote (c :: p)) (plain : c ≠ backslash) :
    CutOff quote p := by
  cases cut with
  | here => exact absurd rfl plain
  | plain c p _ _ _ cut => exact cut
  | escape c p _ _ => exact absurd rfl plain

theorem CutOff.skip {digits : List UInt8} (cut : CutOff quote (digits ++ p)) (hex : ∀ d ∈ digits, isHex d = true) : CutOff quote p := by
  induction digits with
  | nil => exact cut
  | cons d digits ih =>
    obtain ⟨isDigit, hex'⟩ := List.forall_mem_cons.mp hex
    have other : d ≠ backslash := by
      intro same
      rw [same] at isDigit
      revert isDigit
      decide
    exact ih (CutOff.tail cut other) hex'

theorem CutOff.add {digits : List UInt8} (notHex : isHex quote = false) (cut : CutOff quote p)
    (hex : ∀ d ∈ digits, isHex d = true) : CutOff quote (digits ++ p) := by
  induction digits with
  | nil => exact cut
  | cons d digits ih =>
    obtain ⟨isDigit, hex'⟩ := List.forall_mem_cons.mp hex
    have cut' := ih hex'
    have other : ∀ c, isHex c = false → d ≠ c := by
      intro c notHex same
      rw [same, notHex] at isDigit
      cases isDigit
    exact .plain d _ (other 0 (by decide)) (other quote notHex) (other backslash (by decide)) cut'

/-! ## The loop over a body -/

theorem cutOff_or_literal (notHex : isHex quote = false) (inside : Inside p) :
    CutOff quote p ∨ ∃ items rest, Literal quote p items rest := by
  induction isSize : p.length using Nat.strong_induction_on generalizing p with
  | _ size ih =>
    cases inside with
    | nul => exact .inr ⟨[], [0], .stop 0 [] (.inl rfl)⟩
    | more c p nonzero inside =>
      by_cases isQuote : c = quote
      · exact .inr ⟨[], c :: p, .stop c p (.inr isQuote)⟩
      by_cases escaped : c = backslash
      · rw [escaped]
        cases inside with
        | nul => exact .inl .here
        | more d p nonzero' inside' =>
          obtain ⟨v, digits, behind, isEscape, split, inside'', hex⟩ :=
            readEscape_inside inside' d
          have shorter : behind.length < size := by
            rw [← isSize, split, List.length_cons, List.length_cons, List.length_append]
            omega
          rcases ih behind.length shorter inside'' rfl with cut | literal
          · apply Or.inl
            rw [split]
            exact .escape d _ nonzero' (cut.add notHex hex)
          · obtain ⟨items, rest, literal⟩ := literal
            exact .inr ⟨_, rest, .escape (d :: p) v behind items rest isEscape literal⟩
      · have shorter : p.length < size := by
          rw [← isSize, List.length_cons]
          exact Nat.lt_succ_self _
        rcases ih p.length shorter inside rfl with cut | literal
        · exact .inl (.plain c p nonzero isQuote escaped cut)
        · obtain ⟨items, rest, literal⟩ := literal
          exact .inr ⟨_, rest, .plain c p items rest nonzero isQuote escaped literal⟩

theorem Literal.run {α : Type} (literal : Literal quote p items rest) (quoted : quote ≠ backslash)
    (put : α → Bool → BitVec 32 → Lexing α) (a : α) :
    literalBody quote put a p =
      items.foldlM (fun a item => put a item.1 item.2) a >>= fun a => .ok (a, rest) := by
  induction literal generalizing a with
  | stop c p stops =>
    rw [literalBody_cons, if_pos stops]
    rfl
  | plain c p items rest nonzero isQuote escaped literal ih =>
    rw [literalBody_cons, if_neg (not_or.mpr ⟨nonzero, isQuote⟩), if_neg escaped, List.foldlM_cons,
      bind_assoc]
    apply congrArg
    funext a
    exact ih a
  | escape p v behind items rest isEscape literal ih =>
    rw [literalBody_cons, if_neg (not_or.mpr ⟨by decide, quoted.symm⟩), if_pos rfl, isEscape,
      List.foldlM_cons, bind_assoc]
    show put a true v >>= _ = _
    apply congrArg
    funext a
    exact ih a

theorem CutOff.run {α : Type} {put : α → Bool → BitVec 32 → Lexing α} (cut : CutOff quote p)
    (quoted : quote ≠ backslash) (inside : Inside p)
    (fails : ∀ a escaped v stop, put a escaped v = .error stop → stop = .outside) (a : α) :
    literalBody quote put a p = outside := by
  have next : ∀ a escaped v (rest : Cursor), (∀ a, literalBody quote put a rest = outside) →
      (put a escaped v >>= fun a => literalBody quote put a rest) = outside := by
    intro a escaped v rest ends
    cases isPut : put a escaped v with
    | ok a => exact ends a
    | error stop =>
      rw [fails a escaped v stop isPut]
      rfl
  induction isSize : p.length using Nat.strong_induction_on generalizing a p with
  | _ size ih =>
    cases cut with
    | here =>
      rw [literalBody_cons, if_neg (not_or.mpr ⟨by decide, quoted.symm⟩), if_pos rfl]
      apply next
      intro a
      unfold literalBody
      rfl
    | plain c p nonzero isQuote escaped cut =>
      rw [literalBody_cons, if_neg (not_or.mpr ⟨nonzero, isQuote⟩), if_neg escaped]
      apply next
      cases inside with
      | nul => exact absurd rfl nonzero
      | more c p _ inside =>
        have shorter : p.length < size := by
          rw [← isSize, List.length_cons]
          exact Nat.lt_succ_self _
        intro a
        exact ih p.length shorter cut inside a rfl
    | escape c p nonzero cut =>
      cases inside with
      | more _ _ _ inside =>
        cases inside with
        | nul => exact absurd rfl nonzero
        | more _ _ _ inside =>
          obtain ⟨v, digits, behind, isEscape, split, inside', hex⟩ := readEscape_inside inside c
          have shorter : behind.length < size := by
            rw [← isSize, split, List.length_cons, List.length_cons, List.length_append]
            omega
          rw [split] at cut
          rw [literalBody_cons, if_neg (not_or.mpr ⟨by decide, quoted.symm⟩), if_pos rfl, isEscape]
          apply next
          intro a
          exact ih behind.length shorter (cut.skip hex) inside' a rfl

def counted (items : List Item) : Nat := items.countP fun item => !item.1 && item.2 == newline

theorem counted_escaped (v : BitVec 32) (items : List Item) :
    counted ((true, v) :: items) = counted items :=
  List.countP_cons_of_neg fun holds => Bool.false_ne_true holds

theorem byte_newline {c : UInt8} (same : BitVec.ofNat 32 c.toNat = newline) : c = byte '\n' := by
  have value := congrArg BitVec.toNat same
  rw [BitVec.toNat_ofNat, Nat.mod_eq_of_lt (lt_trans c.toNat_lt (by decide))] at value
  exact UInt8.toNat_inj.mp value

theorem Literal.reads (literal : Literal quote p items rest) (inside : Inside p) :
    Inside rest ∧ (peek rest 0 = .ok 0 ∨ peek rest 0 = .ok quote) ∧
      ∃ body, p = body ++ rest ∧ items.length ≤ body.length ∧
        counted items ≤ body.count (byte '\n') := by
  induction literal with
  | stop c p stops =>
    refine ⟨inside, ?_, [], rfl, Nat.le_refl _, Nat.le_refl _⟩
    rcases stops with isNul | isQuote
    · rw [isNul]
      exact .inl rfl
    · rw [isQuote]
      exact .inr rfl
  | plain c p items rest nonzero isQuote escaped literal ih =>
    cases inside with
    | nul => exact absurd rfl nonzero
    | more _ _ _ inside =>
      obtain ⟨inside', stops, body, split, fewer, counts⟩ := ih inside
      refine ⟨inside', stops, c :: body, by rw [split, List.cons_append], ?_, ?_⟩
      · exact Nat.succ_le_succ fewer
      unfold counted at counts ⊢
      rw [List.countP_cons, List.count_cons]
      apply Nat.add_le_add counts
      by_cases isNewline : c = byte '\n'
      · rw [if_pos (beq_iff_eq.mpr isNewline)]
        split
        · exact Nat.le_refl _
        · exact Nat.zero_le _
      · rw [if_neg]
        · exact Nat.zero_le _
        · intro counts
          exact isNewline (byte_newline (beq_iff_eq.mp counts))
  | escape p v behind items rest isEscape literal ih =>
    cases inside with
    | more _ _ _ inside =>
      cases inside with
      | nul =>
        cases isEscape
        cases literal
      | more c p nonzero inside =>
        obtain ⟨v', digits, behind', isEscape', split, inside', _⟩ := readEscape_inside inside c
        rw [isEscape] at isEscape'
        cases isEscape'
        obtain ⟨inside'', stops, body, split', fewer, counts⟩ := ih inside'
        refine ⟨inside'', stops, backslash :: c :: (digits ++ body), ?_, ?_, ?_⟩
        · rw [split, split', List.cons_append, List.cons_append, List.append_assoc]
        · rw [List.length_cons, List.length_cons, List.length_cons, List.length_append]
          omega
        · rw [counted_escaped, List.count_cons, List.count_cons, List.count_append]
          omega

end

/-! ## Strings -/

variable {s : Decoding}

section

variable (size : Nat) {buf : List UInt8} {c : UInt8}

theorem index_eq (small : buf.length < 2 ^ 31) :
    (BitVec.ofNat 32 buf.length).toInt = buf.length := by
  rw [BitVec.toInt_eq_toNat_of_lt]
  · rw [BitVec.toNat_ofNat, Nat.mod_eq_of_lt (by omega)]
  · rw [BitVec.toNat_ofNat, Nat.mod_eq_of_lt (by omega)]
    omega

theorem store_ok (small : buf.length < 2 ^ 31) (room : buf.length < size) :
    store size buf c = .ok (buf ++ [c]) := by
  unfold store
  dsimp only
  rw [index_eq small, if_pos ⟨Int.natCast_nonneg _, Int.ofNat_lt.mpr room⟩]

theorem store_full (full : buf.length = 2 ^ 31) : store size buf c = outside := by
  unfold store
  dsimp only
  rw [full, if_neg]
  intro inBuffer
  exact absurd inBuffer.1 (by decide)

theorem store_fails {stop : Stop} (failed : store size buf c = .error stop) :
    stop = .outside := by
  unfold store at failed
  dsimp only at failed
  split at failed
  · cases failed
  · cases failed
    rfl

theorem putString_fails (s : Decoding) (escaped : Bool) (v : BitVec 32) (stop : Stop)
    (failed : putString size s escaped v = .error stop) : stop = .outside := by
  unfold putString at failed
  cases isStore : store size s.buf (UInt8.ofBitVec (v.truncate 8)) with
  | ok buf =>
    rw [isStore] at failed
    cases failed
  | error stop' =>
    rw [isStore] at failed
    cases failed
    exact store_fails size isStore

def Decoding.put (s : Decoding) (item : Item) : Decoding :=
  ⟨s.buf ++ [UInt8.ofBitVec (item.2.truncate 8)],
    if !item.1 && item.2 == newline then s.line + 1 else s.line⟩

theorem putString_ok (small : s.buf.length < 2 ^ 31) (room : s.buf.length < size) (item : Item) :
    putString size s item.1 item.2 = .ok (s.put item) := by
  unfold putString
  rw [store_ok size small room]
  rfl

theorem putString_full (full : s.buf.length = 2 ^ 31) (item : Item) :
    putString size s item.1 item.2 = outside := by
  unfold putString
  rw [store_full size full]
  rfl

theorem put_length (s : Decoding) (item : Item) :
    (s.put item).buf.length = s.buf.length + 1 := by
  unfold Decoding.put
  rw [List.length_append, List.length_singleton]

def decoded (items : List Item) : List UInt8 :=
  items.map fun item => UInt8.ofBitVec (item.2.truncate 8)

theorem decode_ok (items : List Item) (s : Decoding) (small : s.buf.length + items.length ≤ 2 ^ 31)
    (room : s.buf.length + items.length ≤ size) :
    items.foldlM (fun a item => putString size a item.1 item.2) s =
      .ok ⟨s.buf ++ decoded items, s.line + BitVec.ofNat 32 (counted items)⟩ := by
  induction items generalizing s with
  | nil =>
    unfold decoded counted
    rw [List.map_nil, List.append_nil, List.countP_nil, BitVec.add_zero]
    rfl
  | cons item items ih =>
    rw [List.length_cons] at small room
    rw [List.foldlM_cons, putString_ok size (by omega) (by omega)]
    show items.foldlM _ (s.put item) = _
    rw [ih (s.put item) (by rw [put_length]; omega) (by rw [put_length]; omega)]
    have bytes : (s.put item).buf ++ decoded items = s.buf ++ decoded (item :: items) := by
      unfold Decoding.put decoded
      rw [List.append_assoc, List.map_cons]
      rfl
    have lines : (s.put item).line + BitVec.ofNat 32 (counted items) =
        s.line + BitVec.ofNat 32 (counted (item :: items)) := by
      unfold Decoding.put counted
      rw [List.countP_cons, Nat.add_comm (items.countP _), BitVec.ofNat_add, ← BitVec.add_assoc]
      dsimp only
      split
      · rfl
      · rw [BitVec.add_zero]
    rw [bytes, lines]

theorem decode_full (items : List Item) (s : Decoding)
    (many : 2 ^ 31 < s.buf.length + items.length) (small : s.buf.length ≤ 2 ^ 31)
    (room : s.buf.length + items.length ≤ size) :
    items.foldlM (fun a item => putString size a item.1 item.2) s = outside := by
  induction items generalizing s with
  | nil =>
    rw [List.length_nil] at many
    omega
  | cons item items ih =>
    rw [List.length_cons] at many room
    rw [List.foldlM_cons]
    by_cases full : s.buf.length = 2 ^ 31
    · rw [putString_full size full]
      rfl
    · rw [putString_ok size (by omega) (by omega)]
      show items.foldlM _ (s.put item) = _
      have length := put_length s item
      exact ih (s.put item) (by omega) (by omega) (by omega)

end

/-! ## The tokens -/

structure Closed (quote : UInt8) (line : BitVec 32) (p : Cursor) (token : Token) (p' : Cursor)
    (line' : BitVec 32) : Prop where
  inside : Inside p'
  literal : ∃ body items, p = quote :: (body ++ quote :: p') ∧
    Literal quote (body ++ quote :: p') items (quote :: p') ∧
      ∃ counts ≤ body.count (byte '\n'), line' = line + BitVec.ofNat 32 counts
  fits : Fits line' token

/-- The bytes that a string stores, with the NUL behind a closed one. -/
def written (items : List Item) (rest : Cursor) : Nat :=
  items.length + if rest = [0] then 0 else 1

section

variable {line line' : BitVec 32} {p p' rest : Cursor} {items : List Item} {token : Token}

theorem strlen_eq (inside : Inside p) : ∃ length, strlen p = .ok length ∧ length + 1 = p.length := by
  refine ⟨(p.takeWhile (· != 0)).length, ?_, ?_⟩
  · unfold strlen
    rw [pass_eq _ inside rfl]
    rfl
  · induction inside with
    | nul => rfl
    | more c p nonzero inside ih =>
      rw [List.takeWhile_cons, if_pos (bne_iff_ne.mpr nonzero), List.length_cons, ih,
        List.length_cons]

theorem Inside.of_nul (inside : Inside p) (first : peek p 0 = .ok 0) : p = [0] := by
  cases inside with
  | nul => rfl
  | more c p nonzero inside =>
    cases first
    exact absurd rfl nonzero

theorem stringToken_eq (inside : Inside p) :
    stringToken line (byte '"' :: p) =
      literalBody (byte '"') (putString p.length) { line } p >>= fun s =>
        closeString p.length s.1 s.2 := by
  obtain ⟨length, isLength, size⟩ := strlen_eq inside
  unfold stringToken
  rw [← size]
  show (strlen p >>= _) = _
  rw [isLength]
  rfl

theorem stringToken_cut (inside : Inside p) (cut : CutOff (byte '"') p) :
    stringToken line (byte '"' :: p) = outside := by
  rw [stringToken_eq inside, cut.run (by decide) inside (putString_fails _)]
  rfl

theorem charToken_cut (inside : Inside p) (cut : CutOff (byte '\'') p) :
    charToken line (byte '\'' :: p) = outside := by
  unfold charToken
  show (literalBody _ _ _ p >>= _) = _
  rw [cut.run (by decide) inside]
  · rfl
  · intro a escaped v stop failed
    cases failed

theorem closeString_open {size : Nat} (isOpen : peek p 0 = .ok 0) :
    closeString size s p = fail s.line "unterminated string" := by
  unfold closeString
  rw [isOpen]
  rfl

theorem closeString_closed {size : Nat} (closed : peek p 0 = .ok (byte '"')) :
    closeString size s p = store size s.buf 0 >>= fun _ =>
      .ok ({ kind := .str, str := s.buf, len := BitVec.ofNat 32 s.buf.length, line := s.line },
        p.drop 1, s.line) := by
  unfold closeString
  rw [closed]
  rfl

/-- The items leave room for what is behind the literal. -/
theorem Literal.room {quote : UInt8} (literal : Literal quote p items rest) (inside : Inside p) :
    items.length < p.length := by
  obtain ⟨inside', _, body, split, fewer, _⟩ := literal.reads inside
  have pos := List.length_pos_iff.mpr inside'.ne_nil
  rw [split, List.length_append]
  omega

/-- A string of more than 2 ^ 31 bytes leaves its buffer. -/
theorem stringToken_long (inside : Inside p) (literal : Literal (byte '"') p items rest)
    (long : 2 ^ 31 < written items rest) : stringToken line (byte '"' :: p) = outside := by
  obtain ⟨inside', stops, _⟩ := literal.reads inside
  have room := literal.room inside
  rw [stringToken_eq inside, literal.run (by decide)]
  by_cases many : 2 ^ 31 < items.length
  · have isFull := decode_full p.length items { line } (by
      rw [List.length_nil, Nat.zero_add]
      exact many) (Nat.zero_le _) (by
      rw [List.length_nil, Nat.zero_add]
      exact room.le)
    rw [isFull]
    rfl
  · have isDecoded := decode_ok p.length items { line } (by
      rw [List.length_nil, Nat.zero_add]
      exact not_lt.mp many) (by
      rw [List.length_nil, Nat.zero_add]
      exact room.le)
    have closed : rest ≠ [0] := by
      intro isNul
      unfold written at long
      rw [if_pos isNul] at long
      exact many long
    have full : (decoded items).length = 2 ^ 31 := by
      unfold written at long
      rw [if_neg closed] at long
      unfold decoded
      rw [List.length_map]
      omega
    rw [isDecoded]
    show closeString _ _ rest = _
    rw [closeString_closed (stops.resolve_left fun first => closed (inside'.of_nul first))]
    dsimp only
    rw [List.nil_append, store_full _ full]
    rfl

theorem Literal.closed {quote : UInt8} (literal : Literal quote p items rest) (inside : Inside p)
    (nonzero : quote ≠ 0) (stops : peek rest 0 = .ok quote)
    (counts : Nat) (few : counts ≤ counted items)
    (fits : Fits (line + BitVec.ofNat 32 counts) token) :
    Closed quote line (quote :: p) token (rest.drop 1) (line + BitVec.ofNat 32 counts) := by
  obtain ⟨inside', _, body, split, _, newlines⟩ := literal.reads inside
  obtain ⟨isRest, inside''⟩ := inside'.tail stops nonzero
  refine ⟨inside'', ⟨body, items, ?_, ?_, counts, le_trans few newlines, rfl⟩, fits⟩
  · rw [split, ← isRest]
  · rw [← isRest, ← split]
    exact literal

theorem stringToken_safe (inside : Inside p) (literal : Literal (byte '"') p items rest)
    (short : written items rest ≤ 2 ^ 31) :
    Safely (fun r => Closed (byte '"') line (byte '"' :: p) r.1 r.2.1 r.2.2)
      (stringToken line (byte '"' :: p)) := by
  obtain ⟨inside', stops, _⟩ := literal.reads inside
  have room := literal.room inside
  have small : items.length ≤ 2 ^ 31 := by
    unfold written at short
    omega
  have isDecoded := decode_ok p.length items { line } (by
    rw [List.length_nil, Nat.zero_add]
    exact small) (by
    rw [List.length_nil, Nat.zero_add]
    exact room.le)
  rw [stringToken_eq inside, literal.run (by decide), isDecoded]
  show Safely _ (closeString _ _ rest)
  rcases stops with isNul | isQuote
  · rw [closeString_open isNul]
    exact fun isOutside => nomatch isOutside
  have closed : rest ≠ [0] := by
    intro isNul
    rw [isNul] at isQuote
    cases isQuote
  have length : (decoded items).length = items.length := List.length_map ..
  unfold written at short
  rw [if_neg closed] at short
  rw [closeString_closed isQuote]
  dsimp only
  rw [List.nil_append, store_ok _ (by omega) (by omega)]
  exact literal.closed inside (by decide) isQuote (counted items) (Nat.le_refl _)
    ⟨rfl, fun isEof => nomatch isEof⟩

theorem pack_ok (items : List Item) (s : Packing) :
    ∃ s', items.foldlM (fun a item => putChar a item.1 item.2) s = .ok s' := by
  induction items generalizing s with
  | nil => exact ⟨s, rfl⟩
  | cons item items ih =>
    rw [List.foldlM_cons]
    exact ih _

theorem charToken_safe (inside : Inside p) (literal : Literal (byte '\'') p items rest) :
    Safely (fun r => Closed (byte '\'') line (byte '\'' :: p) r.1 r.2 line)
      (charToken line (byte '\'' :: p)) := by
  obtain ⟨inside', stops, _⟩ := literal.reads inside
  obtain ⟨s, isPacked⟩ := pack_ok items {}
  unfold charToken
  show Safely _ (literalBody _ _ _ p >>= _)
  rw [literal.run (by decide), isPacked]
  show Safely _ (peek rest 0 >>= _)
  rcases stops with isNul | isQuote
  · rw [isNul]
    exact fun isOutside => nomatch isOutside
  rw [isQuote]
  have closed : Closed (byte '\'') line (byte '\'' :: p)
      { kind := .chr, ival := s.v, len := s.n, line } (rest.drop 1)
      (line + BitVec.ofNat 32 0) :=
    literal.closed inside (by decide) isQuote 0 (Nat.zero_le _)
      ⟨(BitVec.add_zero line).symm, fun isEof => nomatch isEof⟩
  rw [BitVec.ofNat_eq_ofNat, BitVec.add_zero] at closed
  exact closed

end

end Aholyc.Lex
