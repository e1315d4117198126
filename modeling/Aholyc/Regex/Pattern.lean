import Aholyc.Regex.Compile
import Aholyc.Regex.Syntax

/-!
# Patterns (lib/regex/README.md)

The grammar of the patterns, from the text to a tree, and the meaning of a
tree. The library documents an escaped punctuation mark as that mark; the
compiler takes any other escaped code point as itself, too (`documentedEscapes`
says whether there is one). It does not tell an escaped `-` in a class from the
range operator, so the meaning has a parameter for it.
-/

namespace Aholyc.Regex

open Aholyc.Text

/-- A member of a class: a code point, escaped or not, or `\d`, `\w`, `\s`. -/
inductive ClassItem where
  | single (value : Nat) (escaped : Bool)
  | kind (kind : Nat)
  deriving DecidableEq, Repr

inductive Pattern where
  | empty
  | rune (rune : Nat)
  | any
  | charClass (items : List ClassItem) (negate : Bool)
  | bol
  | eol
  | seq (first second : Pattern)
  | alt (left right : Pattern)
  | star (body : Pattern)
  | plus (body : Pattern)
  | opt (body : Pattern)
  deriving DecidableEq, Repr

/-! ## Meaning -/

/-- Whether an item is the range operator, given that `-` is one when escaped. -/
def ClassItem.isOperator (escapedToo : Bool) : ClassItem → Bool
  | .single value escaped => value = '-'.toNat && (!escaped || escapedToo)
  | .kind _ => false

def rangeOf (first : Nat) : ClassItem → Option CRegexRange
  | .single last _ => if last < first then none else some ⟨first, last⟩
  | .kind _ => none

/-- The ranges of a class. An operator takes the members on both sides. -/
def classRanges (escapedToo : Bool) : List ClassItem → Option (List CRegexRange)
  | [] => some []
  | .kind kind :: rest => (classRanges escapedToo rest).map (kindRanges kind ++ ·)
  | [.single value _] => some [⟨value, value⟩]
  | [.single value _, last] => (classRanges escapedToo [last]).map (⟨value, value⟩ :: ·)
  | .single first _ :: middle :: last :: rest =>
      if middle.isOperator escapedToo then
        (rangeOf first last).bind fun range => (classRanges escapedToo rest).map (range :: ·)
      else (classRanges escapedToo (middle :: last :: rest)).map (⟨first, first⟩ :: ·)

/-- A member that is not in front of an operator stands for itself. -/
theorem classRanges_single {escapedToo escaped : Bool} {value : Nat} {rest : List ClassItem}
    (alone : ∀ middle last more, rest = middle :: last :: more →
      middle.isOperator escapedToo = false) :
    classRanges escapedToo (.single value escaped :: rest) =
      (classRanges escapedToo rest).map (⟨value, value⟩ :: ·) := by
  match rest with
  | [] => rfl
  | [last] => rfl
  | middle :: last :: more =>
    rw [classRanges, alone middle last more rfl]
    rfl

theorem classRanges_operator {escapedToo escaped : Bool} {first : Nat} {middle last : ClassItem}
    {rest : List ClassItem} (isOperator : middle.isOperator escapedToo = true) :
    classRanges escapedToo (.single first escaped :: middle :: last :: rest) =
      (rangeOf first last).bind fun range => (classRanges escapedToo rest).map (range :: ·) := by
  rw [classRanges, isOperator]
  rfl

/-- The first member of a class may as well be escaped. -/
theorem classRanges_head (escapedToo escaped escaped' : Bool) (value : Nat)
    (rest : List ClassItem) :
    classRanges escapedToo (.single value escaped :: rest) =
      classRanges escapedToo (.single value escaped' :: rest) := by
  match rest with
  | [] => rfl
  | [last] => rfl
  | middle :: last :: more => rfl

def Pattern.meaning (escapedToo : Bool) : Pattern → Option Expr
  | .empty => some .empty
  | .rune value => some (.rune value)
  | .any => some .any
  | .charClass items negate => (classRanges escapedToo items).map (.charClass · negate)
  | .bol => some .bol
  | .eol => some .eol
  | .seq first second => do
      let one ← first.meaning escapedToo
      let two ← second.meaning escapedToo
      return .seq one two
  | .alt left right => do
      let one ← left.meaning escapedToo
      let two ← right.meaning escapedToo
      return .alt one two
  | .star body => (body.meaning escapedToo).map .star
  | .plus body => (body.meaning escapedToo).map .plus
  | .opt body => (body.meaning escapedToo).map .opt

def escapedRange : List ClassItem → Bool
  | [] => false
  | .kind _ :: rest => escapedRange rest
  | [.single _ _] => false
  | [.single _ _, _] => false
  | .single _ _ :: middle :: last :: rest =>
      if middle.isOperator false then escapedRange rest
      else middle.isOperator true || escapedRange (middle :: last :: rest)

def Pattern.escapedRange : Pattern → Bool
  | .charClass items _ => Regex.escapedRange items
  | .seq first second => first.escapedRange || second.escapedRange
  | .alt left right => left.escapedRange || right.escapedRange
  | .star body => body.escapedRange
  | .plus body => body.escapedRange
  | .opt body => body.escapedRange
  | _ => false

theorem classRanges_same {items : List ClassItem} (plain : escapedRange items = false) :
    classRanges true items = classRanges false items := by
  induction items using escapedRange.induct with
  | case1 => rfl
  | case2 kind rest ih =>
    simp only [escapedRange] at plain
    simp only [classRanges, ih plain]
  | case3 value escaped => rfl
  | case4 value escaped last => cases last <;> rfl
  | case5 first escaped middle last rest isOperator ih =>
    have isOperator' : middle.isOperator true = true := by
      cases middle with
      | kind => cases isOperator
      | single value escaped =>
        rw [ClassItem.isOperator, Bool.and_eq_true] at isOperator
        rw [ClassItem.isOperator, isOperator.1, Bool.or_true, Bool.and_true]
    simp only [escapedRange, isOperator, if_true] at plain
    simp only [classRanges, isOperator, isOperator', if_true, ih plain]
  | case6 first escaped middle last rest notOperator ih =>
    simp only [escapedRange, notOperator, Bool.false_eq_true, if_false,
      Bool.or_eq_false_iff] at plain
    simp only [classRanges, notOperator, plain.1, if_false, ih plain.2, Bool.false_eq_true]

/-- Without an escaped `-` between members the two readings agree. -/
theorem meaning_same {pattern : Pattern} (plain : pattern.escapedRange = false) :
    pattern.meaning true = pattern.meaning false := by
  induction pattern with
  | empty => rfl
  | rune => rfl
  | any => rfl
  | bol => rfl
  | eol => rfl
  | charClass items negate => simp only [Pattern.meaning, classRanges_same plain]
  | seq first second ihFirst ihSecond =>
    simp only [Pattern.escapedRange, Bool.or_eq_false_iff] at plain
    simp only [Pattern.meaning, ihFirst plain.1, ihSecond plain.2]
  | alt left right ihLeft ihRight =>
    simp only [Pattern.escapedRange, Bool.or_eq_false_iff] at plain
    simp only [Pattern.meaning, ihLeft plain.1, ihRight plain.2]
  | star body ih => simp only [Pattern.meaning, ih plain]
  | plus body ih => simp only [Pattern.meaning, ih plain]
  | opt body ih => simp only [Pattern.meaning, ih plain]

/-! ## Grammar -/

/-- The text behind a backslash, with its value and its kind. -/
inductive Escapes : List UInt8 → Nat → Nat → Prop where
  | kind (ch : Char) (isKind : ch ∈ ['d', 'w', 's']) :
      Escapes (String.utf8EncodeChar ch) 0 ch.val.toNat
  | control (ch value : Char)
      (isControl : (ch, value) ∈ [('n', '\n'), ('r', '\r'), ('t', '\t'), ('f', '\x0c'),
        ('v', '\x0b')]) :
      Escapes (String.utf8EncodeChar ch) value.val.toNat 0
  | hex (first second : UInt8) (high low : Nat) (isHigh : regexHexDigit first = some high)
      (isLow : regexHexDigit second = some low) :
      Escapes [0x78, first, second] (high * 16 + low) 0
  | same (ch : Char) (other : ch ∉ ['d', 'w', 's', 'n', 'r', 't', 'f', 'v', 'x']) :
      Escapes (String.utf8EncodeChar ch) ch.val.toNat 0

/-- The letters and the ASCII punctuation marks that are documented behind a backslash. -/
def documentedEscape (ch : UInt8) : Bool :=
  ['d', 'w', 's', 'n', 'r', 't', 'f', 'v', 'x'].any (fun letter => letter.val.toUInt8 = ch) ||
    (0x21 ≤ ch && ch ≤ 0x2F) || (0x3A ≤ ch && ch ≤ 0x40) || (0x5B ≤ ch && ch ≤ 0x60) ||
    (0x7B ≤ ch && ch ≤ 0x7E)

def documentedEscapes : List UInt8 → Bool
  | 0x5C :: ch :: rest => documentedEscape ch && documentedEscapes rest
  | _ :: rest => documentedEscapes rest
  | [] => true

inductive SpellsItem : List UInt8 → ClassItem → Prop where
  | plain (ch : Char) (other : ch ∉ ['\\', ']']) :
      SpellsItem (String.utf8EncodeChar ch) (.single ch.val.toNat false)
  | escaped (text : List UInt8) (value : Nat) (escapes : Escapes text value 0) :
      SpellsItem (0x5C :: text) (.single value true)
  | kind (text : List UInt8) (value kind : Nat) (escapes : Escapes text value kind)
      (isKind : kind ≠ 0) : SpellsItem (0x5C :: text) (.kind kind)

inductive SpellsItems : List UInt8 → List ClassItem → Prop where
  | nil : SpellsItems [] []
  | cons (text rest : List UInt8) (item : ClassItem) (items : List ClassItem)
      (first : SpellsItem text item) (others : SpellsItems rest items) :
      SpellsItems (text ++ rest) (item :: items)

/-- The text of a class behind its bracket, with its members. -/
inductive SpellsClass : List UInt8 → List ClassItem → Bool → Prop where
  | plain (text : List UInt8) (items : List ClassItem) (spells : SpellsItems text items)
      (some_ : items ≠ []) (plain : text.head? ≠ some 0x5E) :
      SpellsClass (text ++ [0x5D]) items false
  | negated (text : List UInt8) (items : List ClassItem) (spells : SpellsItems text items)
      (some_ : items ≠ []) : SpellsClass (0x5E :: text ++ [0x5D]) items true

theorem Escapes.ne_nil {text : List UInt8} {value kind : Nat} (escapes : Escapes text value kind) :
    text ≠ [] := by
  cases escapes with
  | kind => exact String.utf8EncodeChar_ne_nil
  | control => exact String.utf8EncodeChar_ne_nil
  | hex => exact List.cons_ne_nil _ _
  | same => exact String.utf8EncodeChar_ne_nil

inductive Level where
  | atom | repeat | sequence | branch | alternative

/-- `Spells level text pattern`: the text is a phrase of the level. -/
inductive Spells : Level → List UInt8 → Pattern → Prop where
  | group (text : List UInt8) (pattern : Pattern) (inner : Spells .alternative text pattern) :
      Spells .atom (0x28 :: text ++ [0x29]) pattern
  | charClass (text : List UInt8) (items : List ClassItem) (spells : SpellsItems text items)
      (some_ : items ≠ []) (plain : text.head? ≠ some 0x5E) :
      Spells .atom (0x5B :: text ++ [0x5D]) (.charClass items false)
  | negated (text : List UInt8) (items : List ClassItem) (spells : SpellsItems text items)
      (some_ : items ≠ []) :
      Spells .atom (0x5B :: 0x5E :: text ++ [0x5D]) (.charClass items true)
  | any : Spells .atom [0x2E] .any
  | bol : Spells .atom [0x5E] .bol
  | eol : Spells .atom [0x24] .eol
  | kind (text : List UInt8) (value kind : Nat) (escapes : Escapes text value kind)
      (isKind : kind ≠ 0) : Spells .atom (0x5C :: text) (.charClass [.kind kind] false)
  | escaped (text : List UInt8) (value : Nat) (escapes : Escapes text value 0) :
      Spells .atom (0x5C :: text) (.rune value)
  | literal (ch : Char) (other : ch ∉ ['*', '+', '?', '(', ')', '[', '.', '^', '$', '\\', '|']) :
      Spells .atom (String.utf8EncodeChar ch) (.rune ch.val.toNat)
  | once (text : List UInt8) (pattern : Pattern) (atom : Spells .atom text pattern) :
      Spells .repeat text pattern
  | star (text : List UInt8) (pattern : Pattern) (atom : Spells .atom text pattern) :
      Spells .repeat (text ++ [0x2A]) (.star pattern)
  | plus (text : List UInt8) (pattern : Pattern) (atom : Spells .atom text pattern) :
      Spells .repeat (text ++ [0x2B]) (.plus pattern)
  | opt (text : List UInt8) (pattern : Pattern) (atom : Spells .atom text pattern) :
      Spells .repeat (text ++ [0x3F]) (.opt pattern)
  | one (text : List UInt8) (pattern : Pattern) (first : Spells .repeat text pattern) :
      Spells .sequence text pattern
  | more (text rest : List UInt8) (first second : Pattern) (front : Spells .sequence text first)
      (last : Spells .repeat rest second) : Spells .sequence (text ++ rest) (.seq first second)
  | empty : Spells .branch [] .empty
  | filled (text : List UInt8) (pattern : Pattern) (inner : Spells .sequence text pattern) :
      Spells .branch text pattern
  | single (text : List UInt8) (pattern : Pattern) (branch : Spells .branch text pattern) :
      Spells .alternative text pattern
  | alt (text rest : List UInt8) (left right : Pattern) (front : Spells .alternative text left)
      (last : Spells .branch rest right) :
      Spells .alternative (text ++ 0x7C :: rest) (.alt left right)

theorem SpellsClass.atom {text : List UInt8} {items : List ClassItem} {negate : Bool}
    (spells : SpellsClass text items negate) :
    Spells .atom (0x5B :: text) (.charClass items negate) := by
  cases spells with
  | plain text items spells some_ plain => exact Spells.charClass text items spells some_ plain
  | negated text items spells some_ => exact Spells.negated text items spells some_

end Aholyc.Regex
