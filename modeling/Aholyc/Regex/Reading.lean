import Aholyc.Lib.Hoare
import Aholyc.Regex.Pattern

/-!
# What the compiler reads

A compilation ends. When it ends with a program, the text is a pattern of the
grammar and all its ranges are in order.
-/

namespace Aholyc.Regex

open Aholyc.Lib.Hoare Aholyc.Text

def Reports : Stop → Prop
  | .error error _ => error ≠ .ok
  | .running => False

@[simp] theorem reports_error (error : RegexError) (position : Nat) :
    Reports (.error error position) ↔ error ≠ .ok := Iff.rfl

def NotMemory : Stop → Prop
  | .error error _ => error ≠ .memory
  | .running => True

@[simp] theorem notMemory_error (error : RegexError) (position : Nat) :
    NotMemory (.error error position) ↔ error ≠ .memory := Iff.rfl

structure Moves (c c' : CRegexCompiler) (text : List UInt8) : Prop where
  pattern : c'.pattern = c.pattern
  offset : c'.offset = c.offset + text.length
  left : c.left = text ++ c'.left

variable {c c' mid : CRegexCompiler} {text rest : List UInt8} {item : ClassItem}

theorem Moves.stay (pattern : c'.pattern = c.pattern) (offset : c'.offset = c.offset) :
    Moves c c' [] where
  pattern := pattern
  offset := offset
  left := by rw [CRegexCompiler.left, CRegexCompiler.left, pattern, offset, List.nil_append]

theorem Moves.refl (c : CRegexCompiler) : Moves c c [] := Moves.stay rfl rfl

theorem Moves.trans {one two : List UInt8} (first : Moves c mid one) (second : Moves mid c' two) :
    Moves c c' (one ++ two) where
  pattern := second.pattern.trans first.pattern
  offset := by rw [second.offset, first.offset, List.length_append, Nat.add_assoc]
  left := by rw [first.left, second.left, List.append_assoc]

theorem Moves.still (first : Moves c mid text) (second : Moves mid c' []) : Moves c c' text := by
  rw [← List.append_nil text]
  exact first.trans second

theorem Moves.length_le (moves : Moves c c' text) :
    text.length + c'.left.length = c.left.length := by
  rw [moves.left, List.length_append]

theorem next_eq (c : CRegexCompiler) : c.next = c.left.head? := by
  rw [CRegexCompiler.next, CRegexCompiler.left, List.head?_drop]

theorem left_advance (eq : c.left = text ++ rest) :
    c.pattern.drop (c.offset + text.length) = rest := by
  rw [← List.drop_drop]
  have dropped := congrArg (List.drop text.length) eq
  rwa [List.drop_left] at dropped

theorem Moves.advance (eq : c.left = text ++ rest) :
    Moves c { c with offset := c.offset + text.length } text where
  pattern := rfl
  offset := rfl
  left := by rw [eq, CRegexCompiler.left, left_advance eq]

theorem Moves.one {ch : UInt8} (next : c.next = some ch) :
    Moves c { c with offset := c.offset + 1 } [ch] := by
  rw [next_eq] at next
  obtain ⟨rest, eq⟩ := List.head?_eq_some_iff.mp next
  exact Moves.advance (show c.left = [ch] ++ rest from eq)

/-! ## Functions that read nothing -/

def Stays {α : Type} (run : Compile α) : Prop :=
  ∀ c, Ends Reports (fun _ c' => Moves c c' []) run c

theorem regexEmit_stays (op : RegexOp) : Stays (regexEmit op) := by
  intro c
  simp only [regexEmit, ends_bind, ends_get, ends_ite, ends_set, ends_pure, regexCompileFail,
    ends_throw]
  exact ⟨fun _ => by simp, fun _ => Moves.stay rfl rfl⟩

theorem setInstruction_stays (index : Nat) (change : CRegexInstruction → CRegexInstruction) :
    Stays (setInstruction index change) :=
  fun _ => Moves.stay rfl rfl

theorem regexPatchTo_stays (patches : Patches) (target : Nat) :
    Stays (regexPatchTo patches target) :=
  fun _ => Moves.stay rfl rfl

theorem regexRangeAdd_adds (first last : Nat) (c : CRegexCompiler) :
    Ends Reports (fun index c' => index = c.ranges.length ∧
      c' = { c with ranges := c.ranges ++ [⟨first, last⟩] }) (regexRangeAdd first last) c := by
  simp only [regexRangeAdd, ends_bind, ends_get, ends_ite, ends_set, ends_pure, regexCompileFail,
    ends_throw]
  exact ⟨fun _ => by simp, fun _ => ⟨trivial, trivial⟩⟩

theorem regexFragmentOne_stays (start : Nat) (field : Bool) :
    Stays (regexFragmentOne start field) := by
  intro c
  simp only [regexFragmentOne, regexPatchNew, ends_bind, ends_get, ends_ite, ends_set, ends_pure,
    regexCompileFail, ends_throw]
  exact ⟨fun _ => by simp, fun _ => Moves.stay rfl rfl⟩

theorem Stays.bind {α β : Type} {x : Compile α} {f : α → Compile β} (first : Stays x)
    (rest : ∀ a, Stays (f a)) : Stays (x >>= f) := by
  intro c
  rw [ends_bind]
  apply (first c).mono
  intro a mid moves
  apply (rest a mid).mono
  intro b c' more
  exact moves.still more

theorem regexRangesAdd_adds (ranges : List CRegexRange) (c : CRegexCompiler) :
    Ends Reports (fun _ c' => c' = { c with ranges := c.ranges ++ ranges })
      (regexRangesAdd ranges) c := by
  induction ranges generalizing c with
  | nil => simp only [regexRangesAdd, ends_pure, List.append_nil]
  | cons range rest ih =>
    simp only [regexRangesAdd, ends_bind]
    apply (regexRangeAdd_adds range.first range.last c).mono
    rintro _ mid ⟨_, rfl⟩
    apply (ih _).mono
    rintro _ c' rfl
    simp only [List.append_assoc, List.singleton_append]

theorem regexRangesAdd_stays (ranges : List CRegexRange) : Stays (regexRangesAdd ranges) := by
  intro c
  apply (regexRangesAdd_adds ranges c).mono
  rintro _ c' rfl
  exact Moves.stay rfl rfl

theorem regexEmptyFragment_stays : Stays regexEmptyFragment :=
  (regexEmit_stays .jump).bind fun index => regexFragmentOne_stays index false

/-! ## Escapes and members of a class -/

/-- The computation ends, and its result is what `spells` says of the text read. -/
def Reads {α : Type} (spells : List UInt8 → α → Prop) (run : Compile α) (c : CRegexCompiler) :
    Prop :=
  Ends Reports (fun a c' => ∃ text, Moves c c' text ∧ spells text a) run c

theorem regexReadPatternRune_reads (c : CRegexCompiler) :
    Reads (fun text value => ∃ ch : Char, text = String.utf8EncodeChar ch ∧
      value = ch.val.toNat) regexReadPatternRune c := by
  simp only [Reads, regexReadPatternRune, ends_bind, ends_get]
  split
  next => simp [regexCompileFail, ends_throw]
  next consumed rune decoded =>
    simp only [advance, ends_bind, ends_modify, ends_pure]
    obtain ⟨ch, isRune, size, rest, isPrefix⟩ := utf8DecodeRune_sound decoded
    subst size
    exact ⟨_, Moves.advance isPrefix.symm, ch, rfl, isRune.symm⟩

theorem toNat_inj {a b : Char} (same : a.val.toNat = b.val.toNat) : a = b :=
  Char.ext (UInt32.toNat_inj.mp same)

theorem regexReadEscape_reads (c : CRegexCompiler) :
    Reads (fun text result => Escapes text result.1 result.2) regexReadEscape c := by
  simp only [Reads, regexReadEscape, ends_bind, ends_get, ends_ite, regexCompileFail, ends_throw]
  refine ⟨fun _ => by simp, fun _ => ?_⟩
  split
  next => simp [ends_throw]
  next consumed rune decoded =>
    obtain ⟨ch, rfl, size, rest, isPrefix⟩ := utf8DecodeRune_sound decoded
    subst size
    have moves := Moves.advance isPrefix.symm
    simp only [advance, ends_bind, ends_modify, ends_ite, ends_pure]
    have control : ∀ value : Char, (ch, value) ∈ [('n', '\n'), ('r', '\r'), ('t', '\t'),
        ('f', '\x0c'), ('v', '\x0b')] → ∃ text, Moves c { c with
          offset := c.offset + (String.utf8EncodeChar ch).length } text ∧
          Escapes text value.val.toNat 0 :=
      fun value isControl => ⟨_, moves, Escapes.control ch value isControl⟩
    refine ⟨fun isKind => ⟨_, moves, Escapes.kind ch ?_⟩, fun notKind =>
      ⟨fun isN => control '\n' ?_, fun notN => ⟨fun isR => control '\r' ?_, fun notR =>
      ⟨fun isT => control '\t' ?_, fun notT => ⟨fun isF => control '\x0c' ?_, fun notF =>
      ⟨fun isV => control '\x0b' ?_, fun notV => ⟨fun isX => ?_, fun notX =>
      ⟨_, moves, Escapes.same ch ?_⟩⟩⟩⟩⟩⟩⟩⟩
    · rcases isKind with isD | isW | isS
      · rw [toNat_inj isD]; decide
      · rw [toNat_inj isW]; decide
      · rw [toNat_inj isS]; decide
    · rw [toNat_inj isN]; decide
    · rw [toNat_inj isR]; decide
    · rw [toNat_inj isT]; decide
    · rw [toNat_inj isF]; decide
    · rw [toNat_inj isV]; decide
    · rw [ends_get]
      split
      next first second rest isLeft =>
        split
        next high low isHigh isLow =>
          have more := moves.trans (Moves.advance (show CRegexCompiler.left _ =
            [first, second] ++ rest from isLeft))
          have isText : String.utf8EncodeChar ch = [0x78] := by
            rw [toNat_inj isX]
            decide
          rw [ends_bind, ends_modify, ends_pure]
          refine ⟨_, more, ?_⟩
          rw [isText]
          exact Escapes.hex first second high low isHigh isLow
        next => simp [ends_throw]
      next => simp [ends_throw]
    · simp only [List.mem_cons, List.not_mem_nil, or_false]
      rintro (rfl | rfl | rfl | rfl | rfl | rfl | rfl | rfl | rfl)
      · exact notKind (Or.inl rfl)
      · exact notKind (Or.inr (Or.inl rfl))
      · exact notKind (Or.inr (Or.inr rfl))
      · exact notN rfl
      · exact notR rfl
      · exact notT rfl
      · exact notF rfl
      · exact notV rfl
      · exact notX rfl

theorem regexReadMember_reads (c : CRegexCompiler) (more : c.next ≠ some 0x5D) :
    Reads (fun text result => 0 < text.length ∧ ∃ escaped, SpellsItem text
      (if result.2 = 0 then .single result.1 escaped else .kind result.2))
      regexReadMember c := by
  simp only [Reads, regexReadMember, ends_bind, ends_get, ends_ite, advance, ends_modify]
  constructor
  · intro isEscape
    apply (regexReadEscape_reads _).mono
    rintro ⟨value, kind⟩ c' ⟨text, moves, escapes⟩
    refine ⟨0x5C :: text, (Moves.one isEscape).trans moves, Nat.succ_pos _, true, ?_⟩
    split
    next isZero =>
      simp only at isZero
      subst isZero
      exact SpellsItem.escaped text value escapes
    next isKind => exact SpellsItem.kind text value kind escapes isKind
  · intro notEscape
    apply (regexReadPatternRune_reads c).mono
    rintro value c' ⟨text, moves, ch, rfl, rfl⟩
    refine ⟨_, moves, List.length_pos_of_ne_nil String.utf8EncodeChar_ne_nil, false, ?_⟩
    apply SpellsItem.plain
    simp only [List.mem_cons, List.not_mem_nil, or_false]
    rintro (rfl | rfl)
    · rw [next_eq, moves.left] at notEscape
      exact notEscape rfl
    · rw [next_eq, moves.left] at more
      exact more rfl

def OnlyReads {α : Type} (run : Compile α) : Prop :=
  ∀ c, Ends NotMemory (fun _ c' => c' = { c with offset := c'.offset }) run c

theorem regexReadPatternRune_only : OnlyReads regexReadPatternRune := by
  intro c
  simp only [regexReadPatternRune, ends_bind, ends_get]
  split
  next => simp [regexCompileFail, ends_throw]
  next => simp only [advance, ends_bind, ends_modify, ends_pure]

theorem regexReadEscape_only : OnlyReads regexReadEscape := by
  intro c
  simp only [regexReadEscape, ends_bind, ends_get, ends_ite, regexCompileFail, ends_throw]
  refine ⟨fun _ => by simp, fun _ => ?_⟩
  split
  next => simp [ends_throw]
  next =>
    simp only [advance, ends_bind, ends_modify, ends_ite, ends_pure, ends_get, implies_true,
      true_and, and_true]
    intros
    split
    next =>
      split
      next => simp only [ends_bind, ends_modify, ends_pure]
      next => simp [ends_throw]
    next => simp [ends_throw]

theorem regexReadMember_only : OnlyReads regexReadMember := by
  intro c
  simp only [regexReadMember, ends_bind, ends_get, ends_ite, advance, ends_modify]
  constructor
  · intro _
    apply (regexReadEscape_only _).mono
    intro _ c' same
    rw [same]
  · intro _
    apply (regexReadPatternRune_only c).mono
    intro _ c' same
    rw [ends_pure]
    exact same

/-- The first byte of an ASCII character is the character. -/
theorem head_ascii {ch : Char} {byte : UInt8} (text : String.utf8EncodeChar ch = byte :: rest)
    (ascii : byte.toNat < 0x80) : ch.val.toNat = byte.toNat := by
  obtain ⟨first, others, eq, shape⟩ := encode_head ch
  rw [eq] at text
  obtain ⟨rfl, _⟩ := List.cons.inj text
  omega

theorem SpellsItem.head (spells : SpellsItem text item) :
    ∃ first rest, text = first :: rest ∧ first ≠ 0x5D := by
  cases spells with
  | plain ch other =>
    cases eq : String.utf8EncodeChar ch with
    | nil => exact absurd eq String.utf8EncodeChar_ne_nil
    | cons first rest =>
      refine ⟨first, rest, rfl, ?_⟩
      rintro rfl
      have same : ch = ']' := toNat_inj (head_ascii eq (by decide))
      exact other (by simp [same])
  | escaped text => exact ⟨0x5C, text, rfl, by decide⟩
  | kind text => exact ⟨0x5C, text, rfl, by decide⟩

theorem no_items {items : List ClassItem} (ends : ¬c.next.any (· ≠ 0x5D) = true)
    (moves : Moves c c' text) (spells : SpellsItems text items) : items = [] := by
  cases spells with
  | nil => rfl
  | cons front rest item items first others =>
    obtain ⟨byte, more, rfl, other⟩ := first.head
    rw [next_eq, moves.left] at ends
    simp [other] at ends

def pending : Option Nat → List ClassItem
  | none => []
  | some value => [.single value false]

def pendingRanges : Option Nat → List CRegexRange
  | none => []
  | some value => [⟨value, value⟩]

/-- A member that is no operator closes the pending one. -/
theorem classRanges_closed {previous : Option Nat} {items : List ClassItem}
    (alone : previous ≠ none → item.isOperator true = false ∨ items = []) :
    classRanges true (pending previous ++ item :: items) =
      (classRanges true (item :: items)).map (pendingRanges previous ++ ·) := by
  cases previous with
  | none => exact Option.map_id'.symm
  | some value =>
    apply classRanges_single
    intro middle last more same
    obtain ⟨rfl, rfl⟩ := List.cons.inj same
    exact (alone (Option.some_ne_none value)).resolve_right (List.cons_ne_nil _ _)

theorem modify_last {α : Type} (front : List α) (a : α) (change : α → α) :
    (front ++ [a]).modify front.length change = front ++ [change a] := by
  induction front with
  | nil => rfl
  | cons b front ih => simp [ih]

/-- What the loop of a class reads and adds, when `front` are the ranges before
the pending one. -/
def ClassReads (front : List CRegexRange) (previous : Option Nat) (any : Bool)
    (c : CRegexCompiler) (any' : Bool) (c' : CRegexCompiler) : Prop :=
  ∃ text items ranges, Moves c c' text ∧ SpellsItems text items ∧
    any' = (any || !items.isEmpty) ∧ ¬c'.next.any (· ≠ 0x5D) = true ∧
    classRanges true (pending previous ++ items) = some ranges ∧
    c' = { c with offset := c'.offset, ranges := front ++ ranges }

/-- The rest of the loop behind a member that is no operator. -/
theorem ClassReads.closed {front added : List CRegexRange} {previous next : Option Nat}
    {any any' : Bool} {after : CRegexCompiler}
    (reads : ClassReads (front ++ pendingRanges previous ++ added) next true after any' c')
    (moves : Moves c mid text) (stays : Moves mid after []) (spells : SpellsItem text item)
    (alone : previous ≠ none → item.isOperator true = false ∨ ¬mid.next.any (· ≠ 0x5D) = true)
    (same : after = { c with offset := after.offset, ranges := after.ranges })
    (joins : ∀ items ranges, classRanges true (pending next ++ items) = some ranges →
      classRanges true (item :: items) = some (added ++ ranges)) :
    ClassReads front previous any c any' c' := by
  obtain ⟨rest, items, ranges, onward, others, isAny, ends, isRanges, isAfter⟩ := reads
  refine ⟨text ++ rest, item :: items, pendingRanges previous ++ (added ++ ranges),
    (moves.still stays).trans onward, SpellsItems.cons text rest item items spells others,
    by simp [isAny], ends, ?_, ?_⟩
  · rw [classRanges_closed, joins items ranges isRanges, Option.map_some]
    intro isSome
    apply (alone isSome).imp_right
    intro ends
    exact no_items ends (stays.trans onward) others
  · rw [isAfter, same]
    simp only [List.append_assoc]

theorem classLoop_reads (fuel : Nat) (front : List CRegexRange) (previous : Option Nat)
    (any : Bool) (c : CRegexCompiler) (enough : c.left.length < fuel)
    (ranged : c.ranges = front ++ pendingRanges previous) :
    Ends Reports (ClassReads front previous any c)
      (classLoop fuel (previous.map fun value => (value, front.length)) any) c := by
  induction fuel generalizing front previous any c with
  | zero => omega
  | succ fuel ih =>
    simp only [classLoop, ends_bind, ends_get, ends_ite, ends_pure]
    refine ⟨fun more => ?_, fun ends => ?_⟩
    · apply ((regexReadMember_reads c (by rintro same; simp [same] at more)).and
        (regexReadMember_only c)).weaken (fun e fails => fails.1) |>.mono
      rintro ⟨value, kind⟩ mid ⟨⟨text, moves, size, escaped, spells⟩, only⟩
      have shorter := moves.length_le
      have rangedMid : mid.ranges = front ++ pendingRanges previous := by
        rw [only]
        exact ranged
      refine ⟨fun isKind => ?_, fun notKind => ?_⟩
      · rw [if_neg isKind] at spells
        apply (regexRangesAdd_adds (kindRanges kind) mid).mono
        rintro _ after rfl
        apply (ih (front ++ pendingRanges previous ++ kindRanges kind) none true _
          (by show mid.left.length < fuel; omega) (by simp [rangedMid, pendingRanges])).mono
        intro any' c' reads
        apply reads.closed moves (Moves.stay rfl rfl) spells (fun _ => Or.inl rfl)
        · rw [only]
        · intro items ranges isRanges
          exact congrArg (Option.map _) isRanges
      · rw [if_pos (by simpa using notKind)] at spells
        have adds : (previous ≠ none → (ClassItem.single value escaped).isOperator true = false ∨
            ¬mid.next.any (· ≠ 0x5D) = true) →
            Ends Reports (ClassReads front previous any c)
              (regexRangeAdd value value >>= fun added =>
                classLoop fuel (some (value, added)) true) mid := by
          intro alone
          rw [ends_bind]
          apply (regexRangeAdd_adds value value mid).mono
          rintro index after ⟨rfl, rfl⟩
          rw [rangedMid]
          apply (ih (front ++ pendingRanges previous) (some value) true _
            (by show mid.left.length < fuel; omega) rfl).mono
          intro any' c' reads
          rw [← List.append_nil (front ++ pendingRanges previous)] at reads
          apply reads.closed moves (Moves.stay rfl rfl) spells alone
          · rw [only]
          · intro items ranges isRanges
            rw [classRanges_head true escaped false]
            exact isRanges
        cases previous with
        | none => exact adds fun isSome => absurd rfl isSome
        | some first =>
          simp only [Option.map_some, ends_ite]
          refine ⟨fun isDash => ?_, fun notDash => ?_⟩
          · obtain ⟨isDash, goesOn⟩ := isDash
            rw [ends_bind]
            apply ((regexReadMember_reads mid (by rintro same; simp [same] at goesOn)).and
              (regexReadMember_only mid)).weaken (fun e fails => fails.1) |>.mono
            rintro ⟨last, lastKind⟩ after ⟨⟨word, onward, _, lastEscaped, spellsLast⟩, only'⟩
            have shorter' := onward.length_le
            simp only [ends_bind, ends_get, ends_ite, regexCompileFail, ends_throw, ends_set]
            refine ⟨fun _ => by simp, fun inOrder => ?_⟩
            rw [not_or, not_not, Nat.not_lt] at inOrder
            rw [if_pos (by simpa using inOrder.1)] at spellsLast
            have ranged' : after.ranges.modify front.length
                (fun range : CRegexRange => { range with last := last }) =
                  front ++ [⟨first, last⟩] := by
              rw [only']
              simp only [rangedMid, pendingRanges]
              rw [modify_last]
            rw [ranged']
            apply (ih (front ++ [⟨first, last⟩]) none true _
              (by show after.left.length < fuel; omega) (by simp [pendingRanges])).mono
            rintro any' c' ⟨rest, items, ranges, further, others, isAny, ends, isRanges, isAfter⟩
            have isOperator : (ClassItem.single value escaped).isOperator true = true := by
              simp only [ClassItem.isOperator, isDash, decide_true, Bool.or_true, Bool.and_true]
            refine ⟨text ++ (word ++ rest), .single value escaped :: .single last lastEscaped ::
              items, ⟨first, last⟩ :: ranges, moves.trans (onward.trans ?_),
              SpellsItems.cons text _ _ _ spells
                (SpellsItems.cons word rest _ items spellsLast others), by simp [isAny], ends,
              ?_, ?_⟩
            · exact ⟨further.pattern, further.offset, further.left⟩
            · rw [pending, List.singleton_append, classRanges_operator isOperator]
              simp only [rangeOf]
              rw [if_neg (by omega), Option.bind_some]
              exact congrArg (Option.map _) isRanges
            · rw [isAfter, only', only]
              simp only [List.append_assoc, List.singleton_append]
          · rw [not_and_or] at notDash
            apply adds
            intro _
            cases notDash with
            | inl other => exact Or.inl (by rw [ClassItem.isOperator, decide_eq_false other]; rfl)
            | inr ends => exact Or.inr ends
    · refine ⟨[], [], pendingRanges previous, Moves.refl c, SpellsItems.nil, by simp, ends,
        ?_, ?_⟩
      · cases previous <;> rfl
      · rw [← ranged]

/-! ## The levels of the grammar -/

/-- The computation ends behind a phrase of the level, with its ranges in order. -/
def Parses (level : Level) (run : Compile CRegexFragment) (c : CRegexCompiler) : Prop :=
  Ends Reports (fun _ c' => ∃ text pattern, Moves c c' text ∧
    Spells level text pattern ∧ (pattern.meaning true).isSome = true) run c

/-- A class that ends before the pattern ends with its bracket. -/
theorem class_closed (ends : ¬c.next.any (· ≠ 0x5D) = true) (inside : ¬c.offset ≥ c.pattern.length) :
    c.next = some 0x5D := by
  cases isNext : c.next with
  | none =>
    rw [CRegexCompiler.next, List.getElem?_eq_none_iff] at isNext
    exact absurd isNext inside
  | some ch =>
    rw [isNext] at ends
    simp only [Option.any_some, decide_eq_true_eq, not_not] at ends
    rw [ends]

/-- The instruction of a class is completed behind its members. -/
theorem regexClassBody_reads (index rangeStart : Nat) (negate : Bool) (c : CRegexCompiler) :
    Ends Reports (fun fragment c' => ∃ text items ranges, Moves c c' (text ++ [0x5D]) ∧
      SpellsItems text items ∧ items ≠ [] ∧ classRanges true items = some ranges ∧
      fragment = ⟨index, [(index, false)]⟩ ∧ c'.ranges = c.ranges ++ ranges ∧
      c'.instructions = c.instructions.modify index fun instruction => { instruction with
        rangeIndex := rangeStart
        rangeCount := (c.ranges ++ ranges).length - rangeStart
        negate := negate })
      (regexClassBody index rangeStart negate) c := by
  simp only [regexClassBody, ends_bind, ends_get, ends_ite, regexCompileFail, ends_throw]
  have enough : c.left.length < c.pattern.length + 1 := by
    rw [CRegexCompiler.left, List.length_drop]
    omega
  apply (classLoop_reads _ c.ranges none false c enough (List.append_nil _).symm).mono
  rintro any mid ⟨text, items, ranges, moves, spells, isAny, ends, isRanges, isMid⟩
  refine ⟨fun _ => by simp, fun goesOn => ?_⟩
  rw [not_or] at goesOn
  have closed := class_closed ends goesOn.1
  have some_ : items ≠ [] := by
    rintro rfl
    rw [isAny] at goesOn
    exact goesOn.2 rfl
  simp only [advance, setInstruction, ends_modify, regexFragmentOne, regexPatchNew, ends_bind,
    ends_get, ends_ite, ends_set, ends_pure, regexCompileFail, ends_throw]
  refine ⟨fun _ => by simp, fun _ => ?_⟩
  refine ⟨text, items, ranges, moves.trans ((Moves.one closed).still (Moves.stay rfl rfl)), spells,
    some_, isRanges, trivial, ?_, ?_⟩
  · rw [isMid]
  · rw [isMid]

theorem regexEmit_adds (op : RegexOp) (c : CRegexCompiler) :
    Ends Reports (fun index c' => index = c.count ∧
      c' = { c with instructions := c.instructions ++ [⟨op, none, none, 0, 0, 0, false⟩] })
      (regexEmit op) c := by
  simp only [regexEmit, ends_bind, ends_get, ends_ite, ends_set, ends_pure, regexCompileFail,
    ends_throw]
  exact ⟨fun _ => by simp, fun _ => ⟨trivial, trivial⟩⟩

/-- The instruction of a class, and the ranges it refers to. -/
theorem regexParseClass_reads (c : CRegexCompiler) :
    Ends Reports (fun fragment c' => ∃ text items negate ranges, Moves c c' text ∧
      SpellsClass text items negate ∧ classRanges true items = some ranges ∧
      fragment = ⟨c.count, [(c.count, false)]⟩ ∧ c'.ranges = c.ranges ++ ranges ∧
      c'.instructions = c.instructions ++
        [⟨.charClass, none, none, 0, c.ranges.length, ranges.length, negate⟩])
      regexParseClass c := by
  simp only [regexParseClass, ends_bind, ends_get, ends_ite, advance, ends_modify]
  apply (regexEmit_adds .charClass c).mono
  rintro index mid ⟨rfl, rfl⟩
  have emits : Moves c { c with instructions := c.instructions ++
      [⟨.charClass, none, none, 0, 0, 0, false⟩] } [] := Moves.stay rfl rfl
  refine ⟨fun isNegated => ?_, fun notNegated => ?_⟩
  · apply (regexClassBody_reads _ _ true _).mono
    rintro fragment c' ⟨text, items, ranges, moves, spells, some_, isRanges, rfl, added, emitted⟩
    have whole := emits.trans ((Moves.one isNegated).trans moves)
    refine ⟨_, items, true, ranges, whole, SpellsClass.negated text items spells some_, isRanges,
      rfl, added, ?_⟩
    rw [emitted, modify_last, List.length_append, Nat.add_sub_cancel_left]
  · apply (regexClassBody_reads _ _ false _).mono
    rintro fragment c' ⟨text, items, ranges, moves, spells, some_, isRanges, rfl, added, emitted⟩
    refine ⟨text ++ [0x5D], items, false, ranges, emits.trans moves,
      SpellsClass.plain text items spells some_ ?_, isRanges, rfl, added, ?_⟩
    · intro isHead
      obtain ⟨rest, rfl⟩ := List.head?_eq_some_iff.mp isHead
      rw [next_eq, moves.left] at notNegated
      exact notNegated rfl
    · rw [emitted, modify_last, List.length_append, Nat.add_sub_cancel_left]

theorem regexParseClass_parses (start c : CRegexCompiler) (opened : Moves start c [0x5B]) :
    Ends Reports (fun _ c' => ∃ text pattern, Moves start c' text ∧
      Spells .atom text pattern ∧ (pattern.meaning true).isSome = true) regexParseClass c := by
  apply (regexParseClass_reads c).mono
  rintro _ c' ⟨text, items, negate, ranges, moves, spells, isRanges, _⟩
  refine ⟨0x5B :: text, .charClass items negate, opened.trans moves, spells.atom, ?_⟩
  rw [Pattern.meaning, isRanges]
  rfl

theorem isRepeat_iff (ch : UInt8) : isRepeat ch = true ↔ ch = 0x2A ∨ ch = 0x2B ∨ ch = 0x3F := by
  simp [isRepeat]

/-- The character a byte below 0x80 starts is the byte. -/
theorem char_of_head {ch other : Char} {byte : UInt8}
    (text : String.utf8EncodeChar ch = byte :: rest) (same : other.val.toNat = byte.toNat)
    (ascii : byte.toNat < 0x80) : ch = other :=
  toNat_inj ((head_ascii text ascii).trans same.symm)

theorem emits_one {post : CRegexFragment → CRegexCompiler → Prop} (op : RegexOp)
    (c : CRegexCompiler) (holds : ∀ fragment c', Moves c c' [] → post fragment c') :
    Ends Reports (fun index c' =>
      Ends Reports post (regexFragmentOne index false) c') (regexEmit op) c := by
  apply (regexEmit_stays op c).mono
  intro index mid stays
  apply (regexFragmentOne_stays index false mid).mono
  intro fragment c' stays'
  exact holds fragment c' (stays.still stays')

theorem regexParseAtom_parses (alternative : Compile CRegexFragment) (limit : Nat)
    (groups : ∀ c, c.left.length < limit → Parses .alternative alternative c)
    (c : CRegexCompiler) (enough : c.left.length ≤ limit) (begins : regexAtomBegins c = true) :
    Parses .atom (regexParseAtom alternative) c := by
  obtain ⟨ch, isNext, notClose, notBar⟩ : ∃ ch, c.next = some ch ∧ ch ≠ 0x29 ∧ ch ≠ 0x7C := by
    simp only [regexAtomBegins, Option.any_eq_true, decide_eq_true_eq] at begins
    exact begins
  simp only [Parses, regexParseAtom, ends_bind, ends_get, isNext, ends_ite, regexCompileFail,
    ends_throw, advance, ends_modify]
  have first := Moves.one isNext
  have shorter := first.length_le
  refine ⟨fun _ => by simp, fun notRepeat => ⟨fun isGroup => ?_, fun notGroup =>
    ⟨fun isClass => ?_, fun notClass => ⟨fun isAny => ?_, fun notAny => ⟨fun isBol => ?_, fun notBol =>
    ⟨fun isEol => ?_, fun notEol => ⟨fun isEscape => ?_, fun notEscape => ?_⟩⟩⟩⟩⟩⟩⟩
  · subst isGroup
    apply (groups _ (by simp at shorter; omega)).mono
    rintro fragment mid ⟨text, pattern, moves, spells, isSome⟩
    refine ⟨fun _ => by simp, fun closed => ?_⟩
    rw [not_not] at closed
    exact ⟨0x28 :: text ++ [0x29], pattern, first.trans (moves.trans (Moves.one closed)),
      Spells.group text pattern spells, isSome⟩
  · subst isClass
    exact regexParseClass_parses c _ first
  · subst isAny
    apply emits_one
    intro _ c' stays
    exact ⟨_, .any, first.still stays, Spells.any, rfl⟩
  · subst isBol
    apply emits_one
    intro _ c' stays
    exact ⟨_, .bol, first.still stays, Spells.bol, rfl⟩
  · subst isEol
    apply emits_one
    intro _ c' stays
    exact ⟨_, .eol, first.still stays, Spells.eol, rfl⟩
  · subst isEscape
    apply (regexReadEscape_reads _).mono
    rintro ⟨value, kind⟩ mid ⟨text, moves, escapes⟩
    have inside := first.trans moves
    refine ⟨fun isKind => ?_, fun notKind => ?_⟩
    · apply (regexEmit_stays .charClass mid).mono
      intro index mid stays
      apply (regexRangesAdd_stays (kindRanges kind) mid).mono
      intro _ mid' stays'
      simp only [setInstruction, ends_modify]
      apply (regexFragmentOne_stays index false _).mono
      intro _ c' stays''
      have last : Moves mid' c' [] := ⟨stays''.pattern, stays''.offset, stays''.left⟩
      exact ⟨0x5C :: text, .charClass [.kind kind] false,
        ((inside.still stays).still stays').still last, Spells.kind text value kind escapes isKind,
        rfl⟩
    · rw [ne_eq, not_not] at notKind
      simp only at notKind
      subst notKind
      apply (regexEmit_stays .rune mid).mono
      intro index mid stays
      simp only [setInstruction, ends_modify]
      apply (regexFragmentOne_stays index false _).mono
      intro _ c' stays'
      have last : Moves mid c' [] := ⟨stays'.pattern, stays'.offset, stays'.left⟩
      exact ⟨0x5C :: text, .rune value, (inside.still stays).still last,
        Spells.escaped text value escapes, rfl⟩
  · rw [Nat.add_sub_cancel]
    apply (regexReadPatternRune_reads c).mono
    rintro value mid ⟨text, moves, letter, rfl, rfl⟩
    apply (regexEmit_stays .rune mid).mono
    intro index mid' stays
    simp only [setInstruction, ends_modify]
    apply (regexFragmentOne_stays index false _).mono
    intro _ c' stays'
    have last : Moves mid' c' [] := ⟨stays'.pattern, stays'.offset, stays'.left⟩
    refine ⟨_, .rune letter.val.toNat, (moves.still stays).still last,
      Spells.literal letter ?_, rfl⟩
    rw [next_eq, moves.left] at isNext
    rw [isRepeat_iff] at notRepeat
    simp only [List.mem_cons, List.not_mem_nil, or_false]
    rintro (rfl | rfl | rfl | rfl | rfl | rfl | rfl | rfl | rfl | rfl | rfl)
    · exact notRepeat (Or.inl (Option.some.inj isNext).symm)
    · exact notRepeat (Or.inr (Or.inl (Option.some.inj isNext).symm))
    · exact notRepeat (Or.inr (Or.inr (Option.some.inj isNext).symm))
    · exact notGroup (Option.some.inj isNext).symm
    · exact notClose (Option.some.inj isNext).symm
    · exact notClass (Option.some.inj isNext).symm
    · exact notAny (Option.some.inj isNext).symm
    · exact notBol (Option.some.inj isNext).symm
    · exact notEol (Option.some.inj isNext).symm
    · exact notEscape (Option.some.inj isNext).symm
    · exact notBar (Option.some.inj isNext).symm

theorem Spells.atom_pos {level : Level} {pattern : Pattern} (spells : Spells level text pattern)
    (isAtom : level = .atom) : 0 < text.length := by
  cases spells with
  | group => simp
  | charClass => simp
  | negated => simp
  | any => simp
  | bol => simp
  | eol => simp
  | kind => simp
  | escaped => simp
  | literal => exact List.length_pos_of_ne_nil String.utf8EncodeChar_ne_nil
  | once => cases isAtom
  | star => cases isAtom
  | plus => cases isAtom
  | opt => cases isAtom
  | one => cases isAtom
  | more => cases isAtom
  | empty => cases isAtom
  | filled => cases isAtom
  | single => cases isAtom
  | alt => cases isAtom

theorem regexRepeatFragment_stays (ch : UInt8) (split : Nat) (fragment : CRegexFragment) :
    Stays (regexRepeatFragment ch split fragment) := by
  apply (setInstruction_stays split _).bind
  intro _
  split
  · exact (regexPatchTo_stays _ _).bind fun _ => regexFragmentOne_stays _ _
  split
  · apply (regexPatchTo_stays _ _).bind
    intro _
    apply (regexFragmentOne_stays _ _).bind
    intro _ c
    exact Moves.refl c
  · apply (regexFragmentOne_stays _ _).bind
    intro _ c
    exact Moves.refl c

theorem regexParseRepeat_parses (alternative : Compile CRegexFragment) (limit : Nat)
    (groups : ∀ c, c.left.length < limit → Parses .alternative alternative c)
    (c : CRegexCompiler) (enough : c.left.length ≤ limit) (begins : regexAtomBegins c = true) :
    Parses .repeat (regexParseRepeat alternative) c := by
  simp only [Parses, regexParseRepeat, ends_bind, ends_get]
  apply (regexParseAtom_parses alternative limit groups c enough begins).mono
  rintro fragment mid ⟨text, pattern, moves, spells, isSome⟩
  split
  next => exact ⟨text, pattern, moves, Spells.once text pattern spells, isSome⟩
  next ch isNext =>
    obtain ⟨isNext, again⟩ := Option.filter_eq_some_iff.mp isNext
    simp only [ends_ite, advance, ends_bind, ends_modify, ends_get, ends_pure, regexCompileFail,
      ends_throw]
    apply (regexEmit_stays .split _).mono
    intro split after stays
    apply (regexRepeatFragment_stays ch split fragment after).mono
    intro repeated c' stays'
    refine ⟨fun _ => by simp, fun _ => ?_⟩
    have inside := moves.trans (((Moves.one isNext).still stays).still stays')
    rcases (isRepeat_iff ch).mp again with rfl | rfl | rfl
    · exact ⟨_, _, inside, Spells.star text pattern spells, by
        rw [Pattern.meaning, Option.isSome_map]; exact isSome⟩
    · exact ⟨_, _, inside, Spells.plus text pattern spells, by
        rw [Pattern.meaning, Option.isSome_map]; exact isSome⟩
    · exact ⟨_, _, inside, Spells.opt text pattern spells, by
        rw [Pattern.meaning, Option.isSome_map]; exact isSome⟩

theorem Spells.repeat_pos {pattern : Pattern} (spells : Spells .repeat text pattern) :
    0 < text.length := by
  cases spells with
  | once _ _ atom => exact atom.atom_pos rfl
  | star => simp
  | plus => simp
  | opt => simp

theorem meaning_seq {first second : Pattern} (one : (first.meaning true).isSome = true)
    (two : (second.meaning true).isSome = true) :
    ((Pattern.seq first second).meaning true).isSome = true := by
  obtain ⟨a, isOne⟩ := Option.isSome_iff_exists.mp one
  obtain ⟨b, isTwo⟩ := Option.isSome_iff_exists.mp two
  simp [Pattern.meaning, isOne, isTwo]

theorem meaning_alt {left right : Pattern} (one : (left.meaning true).isSome = true)
    (two : (right.meaning true).isSome = true) :
    ((Pattern.alt left right).meaning true).isSome = true := by
  obtain ⟨a, isOne⟩ := Option.isSome_iff_exists.mp one
  obtain ⟨b, isTwo⟩ := Option.isSome_iff_exists.mp two
  simp [Pattern.meaning, isOne, isTwo]

theorem sequenceLoop_parses (alternative : Compile CRegexFragment) (limit : Nat)
    (groups : ∀ c, c.left.length < limit → Parses .alternative alternative c)
    (fuel : Nat) (result : CRegexFragment) (start c : CRegexCompiler) (text : List UInt8)
    (pattern : Pattern) (moves : Moves start c text) (spells : Spells .sequence text pattern)
    (isSome : (pattern.meaning true).isSome = true) (enough : c.left.length ≤ limit)
    (fuelled : c.left.length < fuel) :
    Ends Reports (fun _ c' => ∃ text pattern, Moves start c' text ∧
      Spells .sequence text pattern ∧ (pattern.meaning true).isSome = true)
      (sequenceLoop alternative fuel result) c := by
  induction fuel generalizing result c text pattern with
  | zero => omega
  | succ fuel ih =>
    simp only [sequenceLoop, ends_bind, ends_get, ends_ite, ends_pure]
    refine ⟨fun begins => ?_, fun _ => ⟨text, pattern, moves, spells, isSome⟩⟩
    apply (regexParseRepeat_parses alternative limit groups c enough begins).mono
    rintro next mid ⟨rest, second, onward, last, isSome'⟩
    have shorter := onward.length_le
    have positive := last.repeat_pos
    simp only [regexPatchTo, ends_modify]
    have patched := (moves.trans onward).still (regexPatchTo_stays result.patches next.start mid)
    apply ih _ _ (text ++ rest) (.seq pattern second) patched
      (Spells.more text rest pattern second spells last) (meaning_seq isSome isSome')
    · show mid.left.length ≤ limit
      omega
    · show mid.left.length < fuel
      omega

theorem left_lt (c : CRegexCompiler) : c.left.length < c.pattern.length + 1 := by
  rw [CRegexCompiler.left, List.length_drop]
  omega

theorem regexParseSequence_parses (alternative : Compile CRegexFragment) (limit : Nat)
    (groups : ∀ c, c.left.length < limit → Parses .alternative alternative c)
    (c : CRegexCompiler) (enough : c.left.length ≤ limit) :
    Parses .branch (regexParseSequence alternative) c := by
  simp only [Parses, regexParseSequence, ends_bind, ends_get, ends_ite]
  refine ⟨fun begins => ?_, fun _ => ?_⟩
  · apply (regexParseRepeat_parses alternative limit groups c enough begins).mono
    rintro result mid ⟨text, pattern, moves, spells, isSome⟩
    have shorter := moves.length_le
    have fuelled := left_lt c
    apply (sequenceLoop_parses alternative limit groups (c.pattern.length + 1) result c mid text
      pattern moves (Spells.one text pattern spells) isSome (by omega) (by omega)).mono
    rintro _ c' ⟨text, pattern, moves, spells, isSome⟩
    exact ⟨text, pattern, moves, Spells.filled text pattern spells, isSome⟩
  · apply (regexEmptyFragment_stays c).mono
    intro _ c' stays
    exact ⟨[], .empty, stays, Spells.empty, rfl⟩

theorem alternativeLoop_parses (alternative : Compile CRegexFragment) (limit : Nat)
    (groups : ∀ c, c.left.length < limit → Parses .alternative alternative c)
    (fuel : Nat) (result : CRegexFragment) (start c : CRegexCompiler) (text : List UInt8)
    (pattern : Pattern) (moves : Moves start c text) (spells : Spells .alternative text pattern)
    (isSome : (pattern.meaning true).isSome = true) (enough : c.left.length ≤ limit)
    (fuelled : c.left.length < fuel) :
    Ends Reports (fun _ c' => ∃ text pattern, Moves start c' text ∧
      Spells .alternative text pattern ∧ (pattern.meaning true).isSome = true)
      (alternativeLoop alternative fuel result) c := by
  induction fuel generalizing result c text pattern with
  | zero => omega
  | succ fuel ih =>
    simp only [alternativeLoop, ends_bind, ends_get, ends_ite, ends_pure, advance, ends_modify]
    refine ⟨fun isBar => ?_, fun _ => ⟨text, pattern, moves, spells, isSome⟩⟩
    have bar := Moves.one isBar
    have shorter := bar.length_le
    rw [List.length_singleton] at shorter
    apply (regexParseSequence_parses alternative limit groups _ (by omega)).mono
    rintro right mid ⟨rest, second, onward, last, isSome'⟩
    have shorter' := onward.length_le
    apply (regexEmit_stays .split mid).mono
    intro split after stays
    simp only [setInstruction, ends_modify]
    have same := stays.length_le
    rw [List.length_nil, Nat.zero_add] at same
    have split' := (moves.trans ((bar.trans onward).still stays)).still
      (setInstruction_stays split (fun instruction => { instruction with
        x := some result.start
        y := some right.start }) after)
    apply ih _ _ _ _ split' (Spells.alt text rest pattern second spells last)
      (meaning_alt isSome isSome')
    · show after.left.length ≤ limit
      omega
    · show after.left.length < fuel
      omega

/-- A compilation ends, and it ends well only on patterns of the grammar. -/
theorem regexParseAlternative_parses (fuel : Nat) (c : CRegexCompiler)
    (enough : c.left.length < fuel) : Parses .alternative (regexParseAlternative fuel) c := by
  induction fuel generalizing c with
  | zero => omega
  | succ fuel ih =>
    simp only [Parses, regexParseAlternative, ends_bind, ends_get]
    apply (regexParseSequence_parses _ fuel ih c (by omega)).mono
    rintro result mid ⟨text, pattern, moves, spells, isSome⟩
    have shorter := moves.length_le
    have fuelled := left_lt c
    exact alternativeLoop_parses _ fuel ih (c.pattern.length + 1) result c mid text pattern
      moves (Spells.single text pattern spells) isSome (by omega) (by omega)

end Aholyc.Regex
