import Mathlib.Logic.Relation
import Aholyc.Lex.Tokenize

/-!
# What a round reads

A round of the tokenizer passes a piece of the text. Here is, once for every reader, where
it stops, which newlines it passes and counts, and when it leaves the buffer.
-/

namespace Aholyc.Lex

open Aholyc.Lib

/-- The cursor is inside of the text: the NUL is in front of it, and no other. -/
inductive Inside : Cursor → Prop
  | nul : Inside [0]
  | more (c : UInt8) (p : Cursor) : c ≠ 0 → Inside p → Inside (c :: p)

/-- From `p` on to `p'` inside of the text, past no newline. -/
structure Within (p p' : Cursor) : Prop where
  inside : Inside p'
  piece : ∃ piece, p = piece ++ p' ∧ byte '\n' ∉ piece

/-- The computation does not leave the buffer, and what it yields is `good`. -/
abbrev Safely {α : Type} (good : α → Prop) : Lexing α → Prop := Meets (· ≠ Stop.outside) good

section

variable {line : BitVec 32} {p p' p'' : Cursor}

theorem Inside.ne_nil (inside : Inside p) : p ≠ [] := by
  cases inside with
  | nul => exact List.cons_ne_nil _ _
  | more c p nonzero inside => exact List.cons_ne_nil _ _

theorem Within.here (inside : Inside p) : Within p p := ⟨inside, [], rfl, List.not_mem_nil⟩

theorem Within.trans (first : Within p p') (second : Within p' p'') : Within p p'' := by
  obtain ⟨front, isFront, noNewline⟩ := first.piece
  obtain ⟨back, isBack, noNewline'⟩ := second.piece
  refine ⟨second.inside, front ++ back, ?_, ?_⟩
  · rw [isFront, isBack, List.append_assoc]
  · rw [List.mem_append, not_or]
    exact ⟨noNewline, noNewline'⟩

variable {c : UInt8}

theorem Within.cons (other : c ≠ byte '\n') (inside : Inside p) : Within (c :: p) p :=
  ⟨inside, [c], rfl, fun member => other (List.mem_singleton.mp member).symm⟩

/-- A byte at the cursor that is no NUL has the rest of the text behind it. -/
theorem Inside.tail (inside : Inside p) (first : peek p 0 = .ok c) (nonzero : c ≠ 0) :
    p = c :: p.drop 1 ∧ Inside (p.drop 1) := by
  cases inside with
  | nul =>
    cases first
    exact absurd rfl nonzero
  | more d p _ inside =>
    cases first
    exact ⟨rfl, inside⟩

theorem Inside.reads (inside : Inside p) : ∃ c, peek p 0 = .ok c := by
  cases inside with
  | nul => exact ⟨0, rfl⟩
  | more c p _ _ => exact ⟨c, rfl⟩

/-! ## The readers -/

theorem pass_within (test : UInt8 → Bool) (inside : Inside p) (stop : test 0 = false)
    (other : test (byte '\n') = false) :
    ∃ word rest, pass test p = .ok (word, rest) ∧ Within p rest := by
  induction inside with
  | nul =>
    refine ⟨[], [0], ?_, .here .nul⟩
    unfold pass
    rw [stop]
    exact rfl
  | more c p nonzero inside ih =>
    unfold pass
    split
    · next holds =>
      obtain ⟨word, rest, passed, within⟩ := ih
      rw [passed]
      refine ⟨c :: word, rest, rfl, ?_⟩
      apply (Within.cons _ inside).trans within
      intro isNewline
      rw [isNewline, other] at holds
      cases holds
    · exact ⟨[], c :: p, rfl, .here (.more c p nonzero inside)⟩

theorem startsWith_inside (inside : Inside p) {text : List UInt8} (noNul : 0 ∉ text) :
    ∃ starts, startsWith p text = .ok starts ∧ (starts = true → ∃ p', p = text ++ p' ∧ Inside p') := by
  induction text generalizing p with
  | nil => exact ⟨true, by cases p <;> rfl, fun _ => ⟨p, rfl, inside⟩⟩
  | cons d text ih =>
    rw [List.mem_cons, not_or] at noNul
    cases inside with
    | nul =>
      unfold startsWith
      rw [if_neg noNul.1]
      exact ⟨false, rfl, fun holds => absurd holds Bool.false_ne_true⟩
    | more c p nonzero inside =>
      unfold startsWith
      split
      · next same =>
        obtain ⟨starts, isStart, rest⟩ := ih inside noNul.2
        refine ⟨starts, isStart, ?_⟩
        intro holds
        obtain ⟨p', isRest, inside'⟩ := rest holds
        exact ⟨p', by rw [isRest, same, List.cons_append], inside'⟩
      · exact ⟨false, rfl, fun holds => absurd holds Bool.false_ne_true⟩

theorem peek_second (inside : Inside p) (first : peek p 0 = .ok c) (nonzero : c ≠ 0) :
    ∃ d, peek p 1 = .ok d ∧ peek (p.drop 1) 0 = .ok d := by
  obtain ⟨same, inside'⟩ := inside.tail first nonzero
  obtain ⟨d, second⟩ := inside'.reads
  refine ⟨d, ?_, second⟩
  rw [same]
  exact second

theorem Inside.within_tail (inside : Inside p) (first : peek p 0 = .ok c) (nonzero : c ≠ 0)
    (other : c ≠ byte '\n') : Within p (p.drop 1) := by
  obtain ⟨same, inside'⟩ := inside.tail first nonzero
  have within := Within.cons other inside'
  rw [← same] at within
  exact within

theorem pointDigit_inside (inside : Inside p) :
    ∃ pointed, pointDigit p = .ok pointed ∧ (pointed = true → peek p 0 = .ok (byte '.')) := by
  obtain ⟨c, first⟩ := inside.reads
  unfold pointDigit
  rw [first]
  by_cases isPoint : (c == byte '.') = true
  · have same := beq_iff_eq.mp isPoint
    obtain ⟨d, second, _⟩ := peek_second inside first (same ▸ by decide)
    refine ⟨isDigit d, ?_, fun _ => by rw [same]⟩
    show (if (c == byte '.') = true then _ else _) = _
    rw [if_pos isPoint, second]
    rfl
  · refine ⟨false, ?_, fun holds => absurd holds Bool.false_ne_true⟩
    show (if (c == byte '.') = true then _ else _) = _
    rw [if_neg isPoint]
    rfl

theorem fraction_within (inside : Inside p) :
    ∃ point rest, fraction p = .ok (point, rest) ∧ Within p rest := by
  obtain ⟨pointed, isPointed, first⟩ := pointDigit_inside inside
  unfold fraction
  rw [isPointed]
  cases pointed with
  | false => exact ⟨[], p, rfl, .here inside⟩
  | true =>
    have tail := inside.within_tail (first rfl) (by decide) (by decide)
    obtain ⟨digits, rest, passed, within⟩ := pass_within isDigit tail.inside rfl rfl
    refine ⟨byte '.' :: digits, rest, ?_, tail.trans within⟩
    show (pass isDigit (p.drop 1) >>= _) = _
    rw [passed]
    rfl

theorem exponent_within (inside : Inside p) :
    ∃ power rest, exponent p = .ok (power, rest) ∧ Within p rest := by
  obtain ⟨e, first⟩ := inside.reads
  unfold exponent
  rw [first]
  by_cases isE : (e == byte 'e' || e == byte 'E') = true
  · have other : e ≠ 0 ∧ e ≠ byte '\n' := by
      rw [Bool.or_eq_true, beq_iff_eq, beq_iff_eq] at isE
      rcases isE with same | same
      · exact same ▸ (by decide)
      · exact same ▸ (by decide)
    have tail := inside.within_tail first other.1 other.2
    obtain ⟨c, second, second'⟩ := peek_second inside first other.1
    have sign : Within (p.drop 1) (p.drop (1 + (if isSign c then [c] else []).length)) := by
      split
      · next signed =>
        have other' : c ≠ 0 ∧ c ≠ byte '\n' := by
          unfold isSign at signed
          rw [Bool.or_eq_true, beq_iff_eq, beq_iff_eq] at signed
          rcases signed with same | same
          · exact same ▸ (by decide)
          · exact same ▸ (by decide)
        have behind := tail.inside.within_tail second' other'.1 other'.2
        rw [List.drop_drop] at behind
        exact behind
      · exact .here tail.inside
    obtain ⟨d, third⟩ := sign.inside.reads
    show ∃ power rest, (if (e == byte 'e' || e == byte 'E') = true then _ else _) = _ ∧ _
    rw [if_pos isE, second]
    show ∃ power rest, (peek (p.drop (1 + (if isSign c then [c] else []).length)) 0 >>= _) = _ ∧ _
    rw [third]
    show ∃ power rest, (if isDigit d = true then _ else _) = _ ∧ _
    split
    · obtain ⟨digits, rest, passed, within⟩ := pass_within isDigit sign.inside rfl rfl
      rw [passed]
      exact ⟨_, rest, rfl, (tail.trans sign).trans within⟩
    · exact ⟨[], p, rfl, .here inside⟩
  · show ∃ power rest, (if (e == byte 'e' || e == byte 'E') = true then _ else _) = _ ∧ _
    rw [if_neg isE]
    exact ⟨[], p, rfl, .here inside⟩

structure Fits (line : BitVec 32) (token : Token) : Prop where
  line : token.line = line
  kind : token.kind ≠ .eof

theorem decimal_within (inside : Inside p) :
    ∃ token rest, decimal line p = .ok (token, rest) ∧ Within p rest ∧ Fits line token := by
  obtain ⟨whole, p₁, isWhole, within₁⟩ := pass_within isDigit inside rfl rfl
  obtain ⟨point, p₂, isPoint, within₂⟩ := fraction_within within₁.inside
  obtain ⟨power, p₃, isPower, within₃⟩ := exponent_within within₂.inside
  have within := (within₁.trans within₂).trans within₃
  unfold decimal
  rw [isWhole]
  show ∃ token rest, (fraction p₁ >>= _) = _ ∧ _
  rw [isPoint]
  show ∃ token rest, (exponent p₂ >>= _) = _ ∧ _
  rw [isPower]
  show ∃ token rest, (if (point.isEmpty && power.isEmpty) = true then _ else _) = _ ∧ _
  split
  · exact ⟨_, _, rfl, within, rfl, fun isEof => nomatch isEof⟩
  · exact ⟨_, _, rfl, within, rfl, fun isEof => nomatch isEof⟩

/-- A spelling at the cursor, with the text behind it. -/
theorem within_spelling (text : List UInt8) (inside : Inside p) (noNul : 0 ∉ text)
    (noNewline : byte '\n' ∉ text) :
    ∃ starts, startsWith p text = .ok starts ∧
      (starts = true → Within p (p.drop text.length)) := by
  obtain ⟨starts, isStart, behind⟩ := startsWith_inside inside noNul
  refine ⟨starts, isStart, ?_⟩
  intro holds
  obtain ⟨p', split, inside'⟩ := behind holds
  rw [split, List.drop_left]
  exact ⟨inside', text, rfl, noNewline⟩

theorem prefixed_within {base : Nat} {isBaseDigit : UInt8 → Bool} (front : Within p (p.drop 2))
    (stop : isBaseDigit 0 = false) (other : isBaseDigit (byte '\n') = false) :
    ∃ token rest, prefixed base isBaseDigit line p = .ok (token, rest) ∧ Within p rest ∧
      Fits line token := by
  obtain ⟨word, rest, passed, within⟩ :=
    pass_within (fun c => isBaseDigit c || c == byte '_') front.inside
      (by rw [stop]; rfl) (by rw [other]; rfl)
  unfold prefixed
  rw [passed]
  exact ⟨_, _, rfl, front.trans within, rfl, fun isEof => nomatch isEof⟩

theorem numberToken_within (line : BitVec 32) (inside : Inside p) :
    ∃ token rest, numberToken line p = .ok (token, rest) ∧ Within p rest ∧ Fits line token := by
  obtain ⟨hex, isHex, front⟩ :=
    within_spelling (bytes "0x") inside (by decide) (by decide)
  obtain ⟨hex', isHex', front'⟩ :=
    within_spelling (bytes "0X") inside (by decide) (by decide)
  obtain ⟨bin, isBin, front₂⟩ :=
    within_spelling (bytes "0b") inside (by decide) (by decide)
  obtain ⟨bin', isBin', front₂'⟩ :=
    within_spelling (bytes "0B") inside (by decide) (by decide)
  unfold numberToken
  rw [isHex, isHex', isBin, isBin']
  cases hex with
  | true => exact prefixed_within (front rfl) rfl rfl
  | false =>
    cases hex' with
    | true => exact prefixed_within (front' rfl) rfl rfl
    | false =>
      cases bin with
      | true => exact prefixed_within (front₂ rfl) rfl rfl
      | false =>
        cases bin' with
        | true => exact prefixed_within (front₂' rfl) rfl rfl
        | false => exact decimal_within inside

theorem wordKind_ne_eof (s : List UInt8) : wordKind s ≠ .eof := by
  unfold wordKind
  split
  · decide
  · split
    · decide
    · decide

def Endless (s : List UInt8) : Prop := BitVec.ofNat 32 s.length = -1

theorem eq_neg_one {x : BitVec 32} (negative : x.toInt < 0) (next : ¬(x + 1).toInt < 0) :
    x = -1 := by
  rw [BitVec.toInt_eq_toNat_cond] at negative next
  apply BitVec.eq_of_toNat_eq
  have bound := x.isLt
  rw [BitVec.toNat_add] at next
  show x.toNat = 2 ^ 32 - 1
  change ¬(if 2 * ((x.toNat + 1) % 2 ^ 32) < 2 ^ 32 then _ else _) < 0 at next
  split at negative
  · omega
  · split at next
    · omega
    · omega

theorem copyWord_safe {s : List UInt8} (ends : ¬Endless s) : copyWord s ≠ outside := by
  intro copied
  unfold copyWord at copied
  dsimp only at copied
  split at copied
  · cases copied
  · split at copied
    · next small negative => exact ends (eq_neg_one negative small)
    · cases copied

theorem copyWord_endless {s : List UInt8} (endless : Endless s) : copyWord s = outside := by
  unfold Endless at endless
  unfold copyWord
  rw [endless]
  rfl

theorem pass_eq (test : UInt8 → Bool) (inside : Inside p) (stop : test 0 = false) :
    pass test p = .ok (p.takeWhile test, p.dropWhile test) := by
  induction inside with
  | nul =>
    unfold pass
    rw [List.takeWhile_cons, List.dropWhile_cons, stop]
    rfl
  | more c p nonzero inside ih =>
    unfold pass
    rw [List.takeWhile_cons, List.dropWhile_cons, ih]
    split
    · rfl
    · rfl

theorem wordToken_endless (inside : Inside p) (endless : Endless (p.takeWhile identCont)) :
    wordToken line p = outside := by
  unfold wordToken
  rw [pass_eq identCont inside rfl]
  show (copyWord (p.takeWhile identCont) >>= _) = _
  rw [copyWord_endless endless]
  rfl

theorem wordToken_safe (inside : Inside p) (ends : ¬Endless (p.takeWhile identCont)) :
    Safely (fun r => Within p r.2 ∧ Fits line r.1) (wordToken line p) := by
  obtain ⟨word, rest, passed, within⟩ := pass_within identCont inside rfl rfl
  have isWord := pass_eq identCont inside rfl
  rw [passed] at isWord
  cases isWord
  unfold wordToken
  rw [passed]
  show Safely _ (copyWord (p.takeWhile identCont) >>= _)
  have copies : Safely (fun _ => True) (copyWord (p.takeWhile identCont)) := by
    have safe := copyWord_safe ends
    cases copied : copyWord (p.takeWhile identCont) with
    | ok str => trivial
    | error stop =>
      intro isOutside
      rw [copied, isOutside] at safe
      exact safe rfl
  apply copies.bind
  intro str _
  exact ⟨within, rfl, wordKind_ne_eof str⟩

theorem findPunct_inside (inside : Inside p) {puncts : List (List UInt8)}
    (noNul : ∀ punct ∈ puncts, 0 ∉ punct) (noNewline : ∀ punct ∈ puncts, byte '\n' ∉ punct) :
    ∃ found, findPunct p puncts = .ok found ∧
      ∀ punct, found = some punct → Within p (p.drop punct.length) := by
  induction puncts with
  | nil => exact ⟨none, rfl, fun punct isSome => nomatch isSome⟩
  | cons first puncts ih =>
    obtain ⟨starts, isStart, behind⟩ := within_spelling first inside (noNul first List.mem_cons_self)
      (noNewline first List.mem_cons_self)
    unfold findPunct
    rw [isStart]
    cases starts with
    | true =>
      refine ⟨some first, rfl, ?_⟩
      intro punct same
      cases same
      exact behind rfl
    | false =>
      exact ih (fun punct member => noNul punct (List.mem_cons_of_mem _ member))
        (fun punct member => noNewline punct (List.mem_cons_of_mem _ member))

theorem punctToken_safe (inside : Inside p) :
    Safely (fun r => Within p r.2 ∧ Fits line r.1) (punctToken line p) := by
  have noNul : ∀ punct ∈ puncts.map bytes, 0 ∉ punct := by decide
  have noNewline : ∀ punct ∈ puncts.map bytes, byte '\n' ∉ punct := by decide
  obtain ⟨found, isFound, behind⟩ := findPunct_inside inside noNul noNewline
  unfold punctToken
  rw [isFound]
  cases found with
  | some punct => exact ⟨behind punct rfl, rfl, fun isEof => nomatch isEof⟩
  | none =>
    obtain ⟨c, first⟩ := inside.reads
    show Safely _ (peek p 0 >>= _)
    rw [first]
    exact fun isOutside => nomatch isOutside

/-- The body of a block comment, with its newlines counted. -/
theorem blockComment_inside (inside : Inside p) (line : BitVec 32) :
    ∃ text rest, blockComment line p =
        .ok (text, rest, line + BitVec.ofNat 32 (text.count (byte '\n'))) ∧
      p = text ++ rest ∧ Inside rest ∧
        (peek rest 0 = .ok 0 ∨ ∃ c, peek rest 0 = .ok c ∧ c ≠ 0 ∧ Within rest (rest.drop 2)) := by
  induction inside generalizing line with
  | nul => exact ⟨[], [0], by simp [blockComment], rfl, .nul, .inl rfl⟩
  | more c p nonzero inside ih =>
    obtain ⟨starts, isStart, behind⟩ := within_spelling (bytes "*/")
      (Inside.more c p nonzero inside) (by decide) (by decide)
    unfold blockComment
    rw [if_neg nonzero, isStart]
    cases starts with
    | true =>
      refine ⟨[], c :: p, ?_, rfl, .more c p nonzero inside, .inr ⟨c, rfl, nonzero, behind rfl⟩⟩
      show Except.ok _ = _
      rw [List.count_nil, BitVec.add_zero]
    | false =>
      obtain ⟨text, rest, ended, split, inside', stops⟩ :=
        ih (if c = byte '\n' then line + 1 else line)
      refine ⟨c :: text, rest, ?_, by rw [split, List.cons_append], inside', stops⟩
      show (blockComment _ p >>= _) = _
      rw [ended]
      show Except.ok _ = _
      have counts : (if c = byte '\n' then line + 1 else line) +
          BitVec.ofNat 32 (text.count (byte '\n')) =
            line + BitVec.ofNat 32 ((c :: text).count (byte '\n')) := by
        by_cases isNewline : c = byte '\n'
        · rw [if_pos isNewline, isNewline, List.count_cons_self, BitVec.ofNat_add,
            BitVec.add_assoc, BitVec.add_comm 1]
          rfl
        · rw [if_neg isNewline, List.count_cons_of_ne isNewline]
      rw [counts]

end

end Aholyc.Lex
