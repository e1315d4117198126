import Aholyc.Regex.Matching

/-!
# The code points of a class

What the compiler makes of the text of a class, as a set of code points. It
contains what the text writes, unless an escaped `-` is taken for the operator
of a range.
-/

namespace Aholyc.Regex

open Aholyc.Lib.Hoare Aholyc.Text

/-! ## The text of a class -/

def ClassItem.bare : ClassItem → ClassItem
  | .single value escaped => .single value (escaped && value ≠ '-'.toNat)
  | .kind which => .kind which

theorem isOperator_bare (item : ClassItem) : item.bare.isOperator false = item.isOperator true := by
  cases item with
  | kind which => rfl
  | single value escaped =>
    by_cases isDash : value = '-'.toNat
    · simp [ClassItem.bare, ClassItem.isOperator, isDash]
    · simp only [ClassItem.bare, ClassItem.isOperator, decide_eq_false isDash, Bool.false_and]

theorem rangeOf_bare (first : Nat) (item : ClassItem) :
    rangeOf first item.bare = rangeOf first item := by
  cases item <;> rfl

/-- The compiler reads an escaped `-` like a bare one. -/
theorem classRanges_bare (items : List ClassItem) :
    classRanges true items = classRanges false (items.map ClassItem.bare) := by
  fun_induction classRanges true items with
  | case1 => rfl
  | case2 which rest ih => exact congrArg (Option.map _) ih
  | case3 value escaped => rfl
  | case4 value escaped last ih => exact congrArg (Option.map _) ih
  | case5 first escaped middle last rest isOperator ih =>
    have isOperator' : middle.bare.isOperator false = true := by
      rw [isOperator_bare, isOperator]
    rw [List.map_cons, List.map_cons, List.map_cons, ClassItem.bare,
      classRanges_operator isOperator', rangeOf_bare]
    simp only [ih]
  | case6 first escaped middle last rest notOperator ih =>
    rw [List.map_cons, ClassItem.bare, classRanges_single, ih]
    intro middle' last' more same
    obtain ⟨rfl, _⟩ := List.cons.inj same
    rw [isOperator_bare]
    exact Bool.eq_false_iff.mpr notOperator

variable {text one two : List UInt8} {negate : Bool} {c c' : CRegexCompiler}
  {ranges : List CRegexRange}

/-- The first byte of an item is a backslash just when the item is escaped. -/
theorem SpellsItem.slash {value : Nat} {escaped : Bool}
    (spells : SpellsItem text (.single value escaped)) :
    escaped = true ↔ text.head? = some 0x5C := by
  cases spells with
  | plain ch other =>
    refine ⟨fun isEscaped => (by cases isEscaped), fun isHead => ?_⟩
    obtain ⟨rest, eq⟩ := List.head?_eq_some_iff.mp isHead
    have isSlash : ch = '\\' := char_of_head eq rfl (by decide)
    exact absurd (by simp [isSlash]) other
  | escaped text value escapes => exact iff_of_true rfl rfl

theorem SpellsItem.unique {rest rest' : List UInt8} {item item' : ClassItem}
    (first : SpellsItem one item) (second : SpellsItem two item')
    (same : one ++ rest = two ++ rest') : one = two ∧ item = item' := by
  obtain ⟨result, c', ended, isItem, rfl⟩ :=
    (regexReadMember_gives (c := fromStart (one ++ rest)) first rfl).ok
  obtain ⟨result', c', ended', isItem', rfl⟩ :=
    (regexReadMember_gives (c := fromStart (one ++ rest)) second same).ok
  rw [ended] at ended'
  obtain ⟨rfl, sameState⟩ := Prod.mk.inj (Except.ok.inj ended')
  have sameLength : one.length = two.length :=
    Nat.add_left_cancel (congrArg CRegexCompiler.offset sameState)
  have sameText := (List.append_inj same sameLength).1
  subst sameText
  refine ⟨rfl, ?_⟩
  cases item with
  | kind kind =>
    cases item' with
    | kind kind' => rw [← isItem.1, ← isItem'.1]
    | single value' escaped' =>
      have isZero : result = (value', 0) := isItem'
      exact absurd (isItem.1.symm.trans (congrArg Prod.snd isZero)) isItem.2
  | single value escaped =>
    have isZero : result = (value, 0) := isItem
    cases item' with
    | kind kind' => exact absurd (isItem'.1.symm.trans (congrArg Prod.snd isZero)) isItem'.2
    | single value' escaped' =>
      have isZero' : result = (value', 0) := isItem'
      rw [isZero] at isZero'
      obtain ⟨rfl, _⟩ := Prod.mk.inj isZero'
      have slash := first.slash.trans second.slash.symm
      rw [Bool.eq_iff_iff.mpr slash]

variable {items : List ClassItem}

theorem SpellsItems.unique {items' : List ClassItem} (first : SpellsItems one items)
    (second : SpellsItems two items') (same : one = two) : items = items' := by
  induction first generalizing two items' with
  | nil =>
    cases second with
    | nil => rfl
    | cons text rest item items spells others =>
      obtain ⟨ch, more, rfl, _⟩ := spells.head
      cases same
  | cons text rest item items spells others ih =>
    cases second with
    | nil =>
      obtain ⟨ch, more, rfl, _⟩ := spells.head
      cases same
    | cons text' rest' item' items' spells' others' =>
      obtain ⟨rfl, rfl⟩ := spells.unique spells' same
      rw [ih others' (List.append_cancel_left same)]

theorem SpellsClass.unique {items' : List ClassItem} {negate' : Bool}
    (first : SpellsClass text items negate) (second : SpellsClass text items' negate') :
    items = items' ∧ negate = negate' := by
  have differs : ∀ {text other : List UInt8} {items : List ClassItem}, SpellsItems text items →
      items ≠ [] → text.head? ≠ some 0x5E → text ++ [0x5D] ≠ 0x5E :: other ++ [0x5D] := by
    intro text other items spells some_ plain same
    cases spells with
    | nil => exact some_ rfl
    | cons word rest item items spells others =>
      obtain ⟨ch, more, rfl, _⟩ := spells.head
      exact plain (congrArg some (List.cons.inj same).1)
  generalize isText : text = whole at second
  cases first with
  | plain text items spells some_ plain =>
    cases second with
    | plain text' items' spells' _ _ =>
      exact ⟨spells.unique spells' (List.append_cancel_right isText), rfl⟩
    | negated text' items' spells' _ => exact absurd isText (differs spells some_ plain)
  | negated text items spells _ =>
    cases second with
    | plain text' items' spells' some_ plain =>
      exact absurd isText.symm (differs spells' some_ plain)
    | negated text' items' spells' _ =>
      have same := (List.cons.inj (List.append_cancel_right isText)).2
      exact ⟨spells.unique spells' same, rfl⟩

/-! ## The set of a class -/

def classSet (program : CProgram) (index : Nat) (rune : Nat) : Prop :=
  ∃ instruction, Fetches program index instruction ∧ instruction.op = .charClass ∧
    regexInstructionMatches program instruction rune = true

def Writes (items : List ClassItem) (negate : Bool) (set : Nat → Prop) : Prop :=
  ∃ ranges, classRanges false items = some ranges ∧ ∀ rune, set rune ↔ inClass ranges negate rune

def WriteSame (items items' : List ClassItem) : Prop :=
  ∃ ranges ranges', classRanges false items = some ranges ∧
    classRanges false items' = some ranges' ∧ ∀ rune, inRanges ranges rune ↔ inRanges ranges' rune

/-- In every program that the compiler goes on to from `c'`, the class has the
code points that the items write. -/
def DenotesWritten (c c' : CRegexCompiler) (fragment : CRegexFragment) (items : List ClassItem)
    (negate : Bool) : Prop :=
  ∀ program target, Holds program c c' fragment.patches target →
    Writes items negate (classSet program fragment.start)

/-- What the class at the start of a fragment contains. -/
theorem classSet_iff {program : CProgram} {target : Nat} (added : c'.ranges = c.ranges ++ ranges)
    (emitted : c'.instructions = c.instructions ++
      [⟨.charClass, none, none, 0, c.ranges.length, ranges.length, negate⟩])
    (holds : Holds program c c' [(c.count, false)] target) (rune : Nat) :
    classSet program c.count rune ↔ inClass ranges negate rune := by
  have inside : c.count < c'.count := by
    rw [CRegexCompiler.count, CRegexCompiler.count, emitted, List.length_append]
    exact Nat.lt_succ_self _
  have fetched := holds.instructions c.count (Nat.le_refl _) inside
  rw [emitted, List.getElem?_concat_length, Option.map_some] at fetched
  have table : (program.ranges.drop c.ranges.length).take ranges.length = ranges := by
    obtain ⟨rest, eq⟩ := holds.ranges
    rw [← eq, added, List.append_assoc, List.drop_left, List.take_left]
  constructor
  · rintro ⟨instruction, fetches, op, reads⟩
    rw [Fetches, fetched] at fetches
    cases fetches
    rw [class_matches op] at reads
    simp only [patched] at reads
    rwa [table] at reads
  · intro inside
    refine ⟨_, fetched, rfl, ?_⟩
    rw [class_matches rfl]
    simp only [patched]
    rwa [table]

theorem holds_self (c c' : CRegexCompiler) (patches : Patches) (target : Nat) :
    Holds ⟨(patchedTo c' patches target).instructions, c'.ranges, none⟩ c c' patches target where
  instructions index _ _ := patchedTo_getElem c' patches target index
  ranges := List.prefix_refl _

theorem inClass_congr {ranges' : List CRegexRange} :
    (∀ rune, inClass ranges negate rune ↔ inClass ranges' negate rune) ↔
      ∀ rune, inRanges ranges rune ↔ inRanges ranges' rune := by
  cases negate with
  | false => rfl
  | true => exact forall_congr' fun rune => not_iff_not

theorem Moves.unique (first : Moves c c' one) (second : Moves c c' two) : one = two :=
  List.append_cancel_right (first.left.symm.trans second.left)

/-- An accepted class has the code points that its text writes just when the
text writes the same without the escapes of its `-`. -/
theorem denotesWritten_iff {fragment : CRegexFragment}
    (accepted : regexParseClass c = .ok (fragment, c')) (moves : Moves c c' text)
    (spells : SpellsClass text items negate) :
    DenotesWritten c c' fragment items negate ↔ WriteSame (items.map ClassItem.bare) items := by
  obtain ⟨text', items', negate', ranges, moves', spells', isRanges, rfl, added, emitted⟩ :=
    (regexParseClass_reads c).result accepted
  have sameText := moves.unique moves'
  subst sameText
  obtain ⟨rfl, rfl⟩ := spells.unique spells'
  have isBare := (classRanges_bare items).symm.trans isRanges
  constructor
  · intro denotes
    obtain ⟨written, isWritten, writes⟩ := denotes _ 0 (holds_self c c' [(c.count, false)] 0)
    refine ⟨ranges, written, isBare, isWritten, ?_⟩
    rw [← inClass_congr]
    intro rune
    rw [← writes rune]
    exact (classSet_iff added emitted (holds_self c c' _ 0) rune).symm
  · rintro ⟨ranges', written, isRanges', isWritten, same⟩
    rw [isBare] at isRanges'
    cases isRanges'
    intro program target holds
    refine ⟨written, isWritten, fun rune => ?_⟩
    exact (classSet_iff added emitted holds rune).trans (inClass_congr.mpr same rune)

/-- Without an escaped `-` in the place of an operator the escapes of the `-`
make no difference. -/
theorem writeSame_plain (isRanges : classRanges true items = some ranges)
    (plain : escapedRange items = false) : WriteSame (items.map ClassItem.bare) items := by
  have isBare := (classRanges_bare items).symm.trans isRanges
  rw [classRanges_same plain] at isRanges
  exact ⟨ranges, ranges, isBare, isRanges, fun _ => Iff.rfl⟩

/-- The classes that the compiler accepts have the code points that their text
writes if and only if the text writes the same when the escapes of its `-` are
dropped, as it does when no escaped `-` is in the place of an operator. -/
theorem regexParseClass_exact {c c' : CRegexCompiler} {fragment : CRegexFragment}
    (accepted : regexParseClass c = .ok (fragment, c')) :
    (∃ text items negate, Moves c c' text ∧ SpellsClass text items negate) ∧
      ∀ text items negate, Moves c c' text → SpellsClass text items negate →
        (DenotesWritten c c' fragment items negate ↔
          WriteSame (items.map ClassItem.bare) items) ∧
        (escapedRange items = false → WriteSame (items.map ClassItem.bare) items) := by
  obtain ⟨text, items, negate, ranges, moves, spells, isRanges, _⟩ :=
    (regexParseClass_reads c).result accepted
  refine ⟨⟨text, items, negate, moves, spells⟩, ?_⟩
  intro text' items' negate' moves' spells'
  have sameText := moves.unique moves'
  subst sameText
  obtain ⟨rfl, rfl⟩ := spells.unique spells'
  exact ⟨denotesWritten_iff accepted moves spells, writeSame_plain isRanges⟩

def behindBracket (pattern : List UInt8) : CRegexCompiler := { fromStart pattern with offset := 1 }

/-- `[a-c]` -/
theorem regexParseClass_exact_range : ∃ fragment c',
    regexParseClass (behindBracket [0x5B, 0x61, 0x2D, 0x63, 0x5D]) = .ok (fragment, c') ∧
      ∃ text items negate, Moves (behindBracket [0x5B, 0x61, 0x2D, 0x63, 0x5D]) c' text ∧
        SpellsClass text items negate :=
  ⟨_, _, rfl, (regexParseClass_exact rfl).1⟩

def escapedDash : List UInt8 := [0x5B, 0x61, 0x5C, 0x2D, 0x7A, 0x5D]

/-- `[a\-z]` has the code points between its `a` and its `z`. -/
theorem escaped_dash_spans : ∃ fragment c' items,
    regexParseClass (behindBracket escapedDash) = .ok (fragment, c') ∧
      Moves (behindBracket escapedDash) c' (escapedDash.drop 1) ∧
      SpellsClass (escapedDash.drop 1) items false ∧
      ¬DenotesWritten (behindBracket escapedDash) c' fragment items false := by
  have spells : SpellsItems [0x61, 0x5C, 0x2D, 0x7A]
      [.single 0x61 false, .single 0x2D true, .single 0x7A false] := by
    apply SpellsItems.cons [0x61] [0x5C, 0x2D, 0x7A] _ _ (SpellsItem.plain 'a' (by decide))
    apply SpellsItems.cons [0x5C, 0x2D] [0x7A]
    · exact SpellsItem.escaped [0x2D] 0x2D (Escapes.same '-' (by decide))
    · exact SpellsItems.cons [0x7A] [] _ _ (SpellsItem.plain 'z' (by decide)) SpellsItems.nil
  have isClass : SpellsClass (escapedDash.drop 1) _ false :=
    SpellsClass.plain _ _ spells (List.cons_ne_nil _ _) (by decide)
  have moves (c' : CRegexCompiler) (pattern : c'.pattern = escapedDash) (offset : c'.offset = 6) :
      Moves (behindBracket escapedDash) c' (escapedDash.drop 1) := by
    refine ⟨pattern, offset, ?_⟩
    rw [CRegexCompiler.left, CRegexCompiler.left, pattern, offset]
    rfl
  refine ⟨_, _, _, rfl, moves _ rfl rfl, isClass, ?_⟩
  rw [denotesWritten_iff rfl (moves _ rfl rfl) isClass]
  rintro ⟨ranges, ranges', isRanges, isRanges', same⟩
  cases isRanges
  cases isRanges'
  have between := (same 0x6D).mp ⟨_, List.mem_singleton_self _, by decide, by decide⟩
  simp [inRanges] at between

end Aholyc.Regex
