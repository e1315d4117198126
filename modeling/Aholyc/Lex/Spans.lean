import Aholyc.Lex.Lines

/-!
# Every byte of a text

The tokenizer loses nothing: from the first token on the text is made of the bytes that the
tokens were read from, in order, and of blanks, newlines and comments between them.
-/

namespace Aholyc.Lex

open Aholyc.Lib

/-- What is passed between two tokens, from the first cursor to the second one. -/
inductive Gap : Cursor → Cursor → Prop
  | blank (c : UInt8) (p : Cursor) : c = byte '\n' ∨ isBlank c = true → Gap (c :: p) p
  | lineComment (text p : List UInt8) : (∀ c ∈ text, c ≠ 0 ∧ c ≠ byte '\n') →
      (∃ c, peek p 0 = .ok c ∧ (c = 0 ∨ c = byte '\n')) → Gap (bytes "//" ++ (text ++ p)) p
  | blockComment (text p : List UInt8) :
      (∀ front back, text = front ++ back → back ≠ [] → ¬bytes "*/" <+: back ++ (bytes "*/" ++ p)) →
      Gap (bytes "/*" ++ (text ++ (bytes "*/" ++ p))) p
  | openComment (text : List UInt8) : (∀ front back, text = front ++ back → ¬bytes "*/" <+: back) →
      Gap (bytes "/*" ++ (text ++ [0])) [0]

/-- The token, but for what the loop adds to it, is what `readToken` makes of the bytes from the
first cursor to the second one, which start no gap. -/
structure Spelled (p p' : Cursor) (token : Token) : Prop where
  reads : ∃ line line' read, readToken line p = .ok (read, p', line') ∧
    token = { read with hints := token.hints, atBol := token.atBol, hasSpace := token.hasSpace }
  shorter : p' <:+ p.drop 1
  noGap : ∀ p'', ¬Gap p p''

inductive Made : Cursor → List Placed → Prop
  | eof (token : Token) : token.kind = .eof → Made [0] [⟨token, [0]⟩]
  | gap (p p' : Cursor) (placed : List Placed) : Gap p p' → Made p' placed → Made p placed
  | token (p p' : Cursor) (token : Token) (placed : List Placed) : Spelled p p' token →
      Made p' placed → Made p (⟨token, p⟩ :: placed)

section

variable {p p' : Cursor} {text : List UInt8} {line line' : BitVec 32} {c : UInt8}

theorem pass_split {test : UInt8 → Bool} (passed : pass test p = .ok (text, p')) :
    p = text ++ p' ∧ (∀ c ∈ text, test c = true) ∧
      ∃ c, peek p' 0 = .ok c ∧ ¬test c = true := by
  induction p generalizing text with
  | nil => cases passed
  | cons c p ih =>
    unfold pass at passed
    split at passed
    next holds =>
      obtain ⟨⟨word, rest⟩, isRest, same⟩ := bind_ok_iff.mp passed
      cases same
      obtain ⟨split, all, stops⟩ := ih isRest
      exact ⟨by rw [List.cons_append, ← split], List.forall_mem_cons.mpr ⟨holds, all⟩, stops⟩
    next fails =>
      cases passed
      exact ⟨rfl, List.forall_mem_nil _, c, rfl, fails⟩

theorem startsWith_iff (inside : Inside p) (text : List UInt8) (noNul : 0 ∉ text) :
    startsWith p text = .ok true ↔ text <+: p := by
  induction text generalizing p with
  | nil => exact iff_of_true (by cases p <;> rfl) (List.nil_prefix)
  | cons d text ih =>
    rw [List.mem_cons, not_or] at noNul
    cases inside with
    | nul =>
      rw [List.cons_prefix_cons]
      unfold startsWith
      rw [if_neg noNul.1]
      exact iff_of_false (fun absent => by cases absent) fun both => noNul.1 both.1.symm
    | more c p nonzero inside =>
      rw [List.cons_prefix_cons]
      unfold startsWith
      split
      next same => rw [ih inside noNul.2, and_iff_right same.symm]
      next differ =>
        exact iff_of_false (fun absent => by cases absent) fun both => differ both.1.symm

theorem blockComment_split (inside : Inside p)
    (passed : blockComment line p = .ok (text, p', line')) :
    p = text ++ p' ∧ Inside p' ∧ (p' = [0] ∨ bytes "*/" <+: p') ∧
      ∀ front back, text = front ++ back → back ≠ [] → ¬bytes "*/" <+: back ++ p' := by
  induction inside generalizing line text with
  | nul =>
    cases passed
    refine ⟨rfl, .nul, .inl rfl, ?_⟩
    intro front back split some_
    exact absurd (List.append_eq_nil_iff.mp split.symm).2 some_
  | more c p nonzero inside ih =>
    unfold blockComment at passed
    rw [if_neg nonzero] at passed
    obtain ⟨starts, isStart, passed⟩ := bind_ok_iff.mp passed
    have isPrefix := startsWith_iff (.more c p nonzero inside) (bytes "*/") (by decide)
    split at passed
    next holds =>
      cases passed
      rw [holds] at isStart
      refine ⟨rfl, .more c p nonzero inside, .inr (isPrefix.mp isStart), ?_⟩
      intro front back split some_
      exact absurd (List.append_eq_nil_iff.mp split.symm).2 some_
    next fails =>
      obtain ⟨⟨text, rest, line'⟩, isRest, same⟩ := bind_ok_iff.mp passed
      cases same
      obtain ⟨split, inside', stops, none⟩ := ih isRest
      refine ⟨by rw [List.cons_append, ← split], inside', stops, ?_⟩
      intro front back isText some_
      cases front with
      | nil =>
        rw [List.nil_append] at isText
        rw [← isText, List.cons_append, ← split, ← isPrefix, isStart]
        intro isTrue
        exact fails (Except.ok.inj isTrue)
      | cons d front => exact none front back (List.cons.inj isText).2 some_

theorem no_gap (first : peek p 0 = .ok c) (noNewline : c ≠ byte '\n') (noBlank : ¬isBlank c = true)
    (noLine : ¬bytes "//" <+: p) (noBlock : ¬bytes "/*" <+: p) : ¬Gap p p' := by
  intro gap
  cases gap with
  | blank d p blank =>
    cases first
    exact blank.elim noNewline noBlank
  | lineComment text p => exact noLine (List.prefix_append _ _)
  | blockComment text p => exact noBlock (List.prefix_append _ _)
  | openComment text => exact noBlock (List.prefix_append _ _)

end

section

variable {cfg : Config} {l l' last : Lexer} {src : Cursor} {placed : List Placed}

theorem round_spans (inside : Inside l.p) (ended : round cfg l = .ok (some l')) :
    Gap l.p l'.p ∧ l'.tokens = l.tokens ∨
      ∃ token, Spelled l.p l'.p token ∧ l'.tokens = l.tokens ++ [⟨token, l.p⟩] := by
  have suffix := (round_suffix ended).2
  unfold round at ended
  obtain ⟨c, first, ended⟩ := bind_ok_iff.mp ended
  split at ended
  · cases ended
  next nonzero =>
  have isTail := (inside.tail first nonzero).1
  split at ended
  next isNewline =>
    cases ended
    left
    rw [isTail]
    exact ⟨.blank c _ (.inl isNewline), rfl⟩
  next noNewline =>
  split at ended
  next blank =>
    cases ended
    left
    rw [isTail]
    exact ⟨.blank c _ (.inr blank), rfl⟩
  next noBlank =>
  obtain ⟨isLine, lineStarts, ended⟩ := bind_ok_iff.mp ended
  have line_iff := startsWith_iff inside (bytes "//") (by decide)
  split at ended
  next holds =>
    rw [holds, line_iff] at lineStarts
    obtain ⟨p', split⟩ := lineStarts
    obtain ⟨⟨text, rest⟩, passed, ended⟩ := bind_ok_iff.mp ended
    obtain ⟨pending, _, ended⟩ := bind_ok_iff.mp ended
    cases ended
    rw [← split] at passed
    obtain ⟨isText, all, d, isStop, stops⟩ := pass_split passed
    left
    rw [← split]
    refine ⟨?_, rfl⟩
    change p' = text ++ rest at isText
    rw [isText]
    apply Gap.lineComment
    · intro c member
      have both := all c member
      rwa [Bool.and_eq_true, bne_iff_ne, bne_iff_ne] at both
    · refine ⟨d, isStop, ?_⟩
      rwa [Bool.and_eq_true, bne_iff_ne, bne_iff_ne, not_and_or, not_not, not_not] at stops
  next noLine =>
  obtain ⟨isBlock, blockStarts, ended⟩ := bind_ok_iff.mp ended
  have block_iff := startsWith_iff inside (bytes "/*") (by decide)
  split at ended
  next holds =>
    obtain ⟨_, isStart, behind⟩ := @startsWith_inside l.p inside (bytes "/*") (by decide)
    rw [isStart] at blockStarts
    obtain ⟨p', split, inside'⟩ := behind ((Except.ok.inj blockStarts).trans holds)
    obtain ⟨⟨text, rest, line⟩, passed, ended⟩ := bind_ok_iff.mp ended
    obtain ⟨pending, _, ended⟩ := bind_ok_iff.mp ended
    obtain ⟨d, isFirst, ended⟩ := bind_ok_iff.mp ended
    cases ended
    rw [split] at passed
    obtain ⟨isText, restInside, stops, none⟩ := blockComment_split inside' passed
    change peek rest 0 = _ at isFirst
    left
    refine ⟨?_, rfl⟩
    dsimp only
    rw [split, isText]
    rcases stops with atEnd | closed
    · rw [atEnd] at isFirst none ⊢
      cases isFirst
      rw [if_pos rfl]
      apply Gap.openComment
      intro front back isBack isPrefix
      by_cases empty : back = []
      · rw [empty] at isPrefix
        exact absurd isPrefix (by decide)
      · exact none front back isBack empty (isPrefix.trans (List.prefix_append _ _))
    · obtain ⟨rest', rfl⟩ := closed
      cases isFirst
      rw [if_neg (by decide)]
      exact .blockComment text rest' none
  next noBlock =>
  obtain ⟨⟨token, p, line⟩, isToken, ended⟩ := bind_ok_iff.mp ended
  cases ended
  refine .inr ⟨_, ⟨⟨l.line, line, token, isToken, rfl⟩, suffix, ?_⟩, rfl⟩
  intro p''
  apply no_gap first noNewline noBlank
  · rw [← line_iff, lineStarts]
    intro isTrue
    exact noLine (Except.ok.inj isTrue)
  · rw [← block_iff, blockStarts]
    intro isTrue
    exact noBlock (Except.ok.inj isTrue)

/-- The tokens that a run appends are those of the text that it passes. -/
theorem made_run (inside : Inside l.p) (run : Relation.ReflTransGen (Next cfg) l last)
    (ends : Made last.p placed) : ∃ more, last.tokens = l.tokens ++ more ∧ Made l.p (more ++ placed) := by
  induction run using Relation.ReflTransGen.head_induction_on with
  | refl => exact ⟨[], (List.append_nil _).symm, ends⟩
  | head next _ ih =>
    obtain ⟨more, tokens, made⟩ := ih (next.moved inside).inside
    rcases round_spans inside next with ⟨gap, same⟩ | ⟨token, spelled, appends⟩
    · exact ⟨more, by rw [tokens, same], .gap _ _ _ gap made⟩
    · refine ⟨_ :: more, ?_, .token _ _ token _ spelled made⟩
      rw [tokens, appends, List.append_assoc]
      rfl

/-- An accepted text is, behind a hashbang, made of the tokens and the gaps between them: each
token is what `readToken` reads where it stands, the next one starts behind it, and nothing but
blanks, newlines and comments is left out. -/
theorem tokenize_loses_nothing (cfg : Config) (src : Cursor) (placed : List Placed)
    (isText : Inside src) (ended : tokenizePlaced cfg src = .ok placed) :
    ∃ p, hashbang src = .ok p ∧ Made p placed := by
  obtain ⟨last, reaches, _, atEnd, isPlaced⟩ := placed_ends isText ended
  obtain ⟨p, begins, run⟩ := reaches
  obtain ⟨p', begins', within⟩ := hashbang_inside isText
  rw [begins] at begins'
  cases begins'
  have made : Made last.p [⟨{ kind := .eof, line := last.line, atBol := true }, last.p⟩] := by
    rw [atEnd]
    exact .eof _ rfl
  obtain ⟨more, tokens, made⟩ := made_run within.inside run made
  change last.tokens = [] ++ more at tokens
  rw [List.nil_append] at tokens
  exact ⟨p, begins, by rw [isPlaced, tokens]; exact made⟩

/-- A word between comments. -/
theorem tokenize_loses_nothing_word : ∃ p, hashbang (source "/*a*/ x//b") = .ok p ∧
    Made p [⟨{ kind := .id, str := bytes "x", len := 1, line := 1, atBol := true, hasSpace := true },
      source "x//b"⟩, ⟨{ kind := .eof, line := 1, atBol := true }, [0]⟩] :=
  tokenize_loses_nothing noHints (source "/*a*/ x//b") _ (inside_source (by decide)) (by decide +kernel)

end

end Aholyc.Lex
