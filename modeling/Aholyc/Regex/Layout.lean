import Aholyc.Regex.Reading

/-!
# What the compiler emits

Every pattern of the grammar compiles, and its fragment is the layout of its
meaning in any program that has the instructions of the fragment and points the
open fields at what follows. The capacities of the compiler are large enough:
a pattern of `n` bytes needs at most `2 * n + 1` instructions.
-/

namespace Aholyc.Regex

open Aholyc.Lib.Hoare Aholyc.Text

/-! ## Room -/

/-- The buffers of the compiler are those `RegexCompileN` allocates, and what
is read so far has used only its share of them. -/
structure Fits (c : CRegexCompiler) (extra : Nat) : Prop where
  instructionCapacity : c.instructionCapacity = c.pattern.length * 2 + 2
  rangeCapacity : c.rangeCapacity = c.pattern.length * 2 + 1
  patchCapacity : c.patchCapacity = (c.pattern.length * 2 + 2) * 2
  offset : c.offset ≤ c.pattern.length
  count : c.count ≤ 2 * c.offset + extra
  ranges : c.ranges.length ≤ 2 * c.offset
  patchCount : c.patchCount ≤ c.count

/-- What a function of the compiler adds when it goes on over `text`. -/
structure Emits (c c' : CRegexCompiler) (text : List UInt8) (extra : Nat) : Prop where
  moves : Moves c c' text
  instructionCapacity : c'.instructionCapacity = c.instructionCapacity
  rangeCapacity : c'.rangeCapacity = c.rangeCapacity
  patchCapacity : c'.patchCapacity = c.patchCapacity
  instructions : c.instructions <+: c'.instructions
  ranges : c.ranges <+: c'.ranges
  count : c'.count ≤ c.count + 2 * text.length + extra
  rangeCount : c'.ranges.length ≤ c.ranges.length + 2 * text.length
  patchCount : c'.patchCount + c.count ≤ c.patchCount + c'.count

variable {c mid c' start : CRegexCompiler} {m n extra target index high : Nat}
  {text rest : List UInt8} {item : ClassItem} {ranges : List CRegexRange}
  {instruction : CRegexInstruction} {items : List ClassItem}

theorem Emits.trans {one two : List UInt8} (first : Emits c mid one m) (second : Emits mid c' two n) :
    Emits c c' (one ++ two) (m + n) where
  moves := first.moves.trans second.moves
  instructionCapacity := second.instructionCapacity.trans first.instructionCapacity
  rangeCapacity := second.rangeCapacity.trans first.rangeCapacity
  patchCapacity := second.patchCapacity.trans first.patchCapacity
  instructions := first.instructions.trans second.instructions
  ranges := first.ranges.trans second.ranges
  count := by
    have le := first.count
    have le' := second.count
    rw [List.length_append]
    omega
  rangeCount := by
    have le := first.rangeCount
    have le' := second.rangeCount
    rw [List.length_append]
    omega
  patchCount := by
    have le := first.patchCount
    have le' := second.patchCount
    omega

theorem Emits.mono (emits : Emits c c' text m) (le : m ≤ n) : Emits c c' text n :=
  { emits with count := Nat.le_trans emits.count (Nat.add_le_add_left le _) }

theorem Emits.count_le (emits : Emits c c' text extra) : c.count ≤ c'.count :=
  emits.instructions.length_le

theorem Fits.after (fits : Fits c m) (emits : Emits c c' text n) : Fits c' (m + n) where
  instructionCapacity := by
    rw [emits.instructionCapacity, fits.instructionCapacity, emits.moves.pattern]
  rangeCapacity := by rw [emits.rangeCapacity, fits.rangeCapacity, emits.moves.pattern]
  patchCapacity := by rw [emits.patchCapacity, fits.patchCapacity, emits.moves.pattern]
  offset := by
    have le := emits.moves.length_le
    have size : c.left.length = c.pattern.length - c.offset := by
      rw [CRegexCompiler.left, List.length_drop]
    have inside := fits.offset
    rw [emits.moves.pattern, emits.moves.offset]
    omega
  count := by
    have le := fits.count
    have le' := emits.count
    rw [emits.moves.offset]
    omega
  ranges := by
    have le := fits.ranges
    have le' := emits.rangeCount
    rw [emits.moves.offset]
    omega
  patchCount := by
    have le := fits.patchCount
    have le' := emits.patchCount
    omega

theorem Fits.room (fits : Fits c extra) (small : extra ≤ 1) : c.count < c.instructionCapacity := by
  have le := fits.count
  have inside := fits.offset
  rw [fits.instructionCapacity]
  omega

theorem Fits.relax {ch : UInt8} (fits : Fits c m) (emits : Emits c c' [ch] 0) (small : m ≤ 2)
    (same : c'.count = c.count) : Fits c' 0 :=
  { fits.after emits with
    count := by
      have le := fits.count
      rw [emits.moves.offset, List.length_singleton]
      omega }

abbrev Gives {α : Type} (post : α → CRegexCompiler → Prop) (run : Compile α)
    (c : CRegexCompiler) : Prop :=
  Ends (fun _ => False) post run c

/-! ## Reading -/

theorem Emits.advance (eq : c.left = text ++ rest) :
    Emits c { c with offset := c.offset + text.length } text 0 where
  moves := Moves.advance eq
  instructionCapacity := rfl
  rangeCapacity := rfl
  patchCapacity := rfl
  instructions := List.prefix_refl _
  ranges := List.prefix_refl _
  count := Nat.le_add_right _ _
  rangeCount := Nat.le_add_right _ _
  patchCount := Nat.le_refl _

theorem left_ne_nil (eq : c.left = text ++ rest) (some_ : text ≠ []) :
    c.offset < c.pattern.length := by
  by_contra past
  rw [CRegexCompiler.left, List.drop_eq_nil_iff.mpr (Nat.le_of_not_lt past)] at eq
  exact some_ (List.append_eq_nil_iff.mp eq.symm).1

theorem regexReadPatternRune_gives (ch : Char) (eq : c.left = String.utf8EncodeChar ch ++ rest) :
    Gives (fun value c' => value = ch.val.toNat ∧
      c' = { c with offset := c.offset + (String.utf8EncodeChar ch).length })
      regexReadPatternRune c := by
  simp only [Gives, regexReadPatternRune, ends_bind, ends_get, eq, utf8DecodeRune_complete, advance,
    ends_modify, ends_pure, and_self]

theorem regexReadEscape_gives {value kind : Nat} (escapes : Escapes text value kind)
    (eq : c.left = text ++ rest) :
    Gives (fun result c' => result = (value, kind) ∧
      c' = { c with offset := c.offset + text.length }) regexReadEscape c := by
  have inside := left_ne_nil eq escapes.ne_nil
  simp only [Gives, regexReadEscape, ends_bind, ends_get, ends_ite]
  refine ⟨fun past => absurd past (Nat.not_le_of_lt inside), fun _ => ?_⟩
  cases escapes with
  | kind ch isKind =>
    simp only [eq, utf8DecodeRune_complete, advance, ends_bind, ends_modify]
    simp only [List.mem_cons, List.not_mem_nil, or_false] at isKind
    rw [if_pos]
    · exact ⟨rfl, rfl⟩
    · rcases isKind with rfl | rfl | rfl
      · exact Or.inl rfl
      · exact Or.inr (Or.inl rfl)
      · exact Or.inr (Or.inr rfl)
  | control ch value isControl =>
    simp only [eq, utf8DecodeRune_complete, advance, ends_bind, ends_modify]
    simp only [List.mem_cons, Prod.mk.injEq, List.not_mem_nil, or_false] at isControl
    rcases isControl with ⟨rfl, rfl⟩ | ⟨rfl, rfl⟩ | ⟨rfl, rfl⟩ | ⟨rfl, rfl⟩ | ⟨rfl, rfl⟩
    · exact ⟨rfl, rfl⟩
    · exact ⟨rfl, rfl⟩
    · exact ⟨rfl, rfl⟩
    · exact ⟨rfl, rfl⟩
    · exact ⟨rfl, rfl⟩
  | hex first second high low isHigh isLow =>
    have isX : c.left = String.utf8EncodeChar 'x' ++ (first :: second :: rest) := eq
    have after := (Moves.advance isX).left
    rw [isX] at after
    simp only [isX, utf8DecodeRune_complete, advance, ends_bind, ends_modify]
    rw [if_neg (by decide), if_neg (by decide), if_neg (by decide), if_neg (by decide),
      if_neg (by decide), if_neg (by decide), if_pos (by decide), ends_bind, ends_get,
      ← List.append_cancel_left after]
    simp only [isHigh, isLow, ends_bind, ends_modify, ends_pure, true_and]
    rfl
  | same ch other =>
    simp only [eq, utf8DecodeRune_complete, advance, ends_bind, ends_modify]
    have differs : ∀ letter, letter ∈ ['d', 'w', 's', 'n', 'r', 't', 'f', 'v', 'x'] →
        ch.val.toNat ≠ letter.toNat := by
      intro letter inList same
      rw [toNat_inj same] at other
      exact other inList
    rw [if_neg, if_neg (differs 'n' (by simp)), if_neg (differs 'r' (by simp)),
      if_neg (differs 't' (by simp)), if_neg (differs 'f' (by simp)),
      if_neg (differs 'v' (by simp)), if_neg (differs 'x' (by simp))]
    · exact ⟨rfl, rfl⟩
    · rintro (isD | isW | isS)
      · exact differs 'd' (by simp) isD
      · exact differs 'w' (by simp) isW
      · exact differs 's' (by simp) isS

def itemResult : ClassItem → Nat × Nat → Prop
  | .single value _, result => result = (value, 0)
  | .kind kind, result => result.2 = kind ∧ kind ≠ 0

theorem regexReadMember_gives (spells : SpellsItem text item) (eq : c.left = text ++ rest) :
    Gives (fun result c' => itemResult item result ∧
      c' = { c with offset := c.offset + text.length }) regexReadMember c := by
  simp only [Gives, regexReadMember, ends_bind, ends_get, ends_ite, advance, ends_modify]
  cases spells with
  | plain ch other =>
    refine ⟨fun isEscape => ?_, fun _ => ?_⟩
    · rw [next_eq, eq] at isEscape
      cases text : String.utf8EncodeChar ch with
      | nil => exact absurd text String.utf8EncodeChar_ne_nil
      | cons first others =>
        rw [text] at isEscape
        have same := Option.some.inj isEscape
        subst same
        have isSlash : ch = '\\' := char_of_head text rfl (by decide)
        exact absurd (by simp [isSlash]) other
    · apply (regexReadPatternRune_gives ch eq).mono
      rintro value c' ⟨rfl, rfl⟩
      exact ⟨rfl, rfl⟩
  | escaped text value escapes =>
    have first : c.next = some 0x5C := by rw [next_eq, eq]; rfl
    refine ⟨fun _ => ?_, fun other => absurd first other⟩
    have left := (Moves.one first).left
    rw [eq] at left
    apply (regexReadEscape_gives escapes (List.append_cancel_left
      (show [0x5C] ++ _ = [0x5C] ++ (text ++ rest) from left.symm))).mono
    rintro result c' ⟨rfl, rfl⟩
    refine ⟨rfl, ?_⟩
    rw [List.length_cons, Nat.add_right_comm, Nat.add_assoc]
  | kind text value kind escapes isKind =>
    have first : c.next = some 0x5C := by rw [next_eq, eq]; rfl
    refine ⟨fun _ => ?_, fun other => absurd first other⟩
    have left := (Moves.one first).left
    rw [eq] at left
    apply (regexReadEscape_gives escapes (List.append_cancel_left
      (show [0x5C] ++ _ = [0x5C] ++ (text ++ rest) from left.symm))).mono
    rintro result c' ⟨rfl, rfl⟩
    refine ⟨⟨rfl, isKind⟩, ?_⟩
    rw [List.length_cons, Nat.add_right_comm, Nat.add_assoc]

/-! ## Classes -/

def passing (c : CRegexCompiler) (text : List UInt8) (ranges : List CRegexRange) : CRegexCompiler :=
  { c with
    offset := c.offset + text.length
    ranges := c.ranges ++ ranges }

theorem over_left (ranges : List CRegexRange) (eq : c.left = text ++ rest) :
    (passing c text ranges).left = rest :=
  left_advance eq

theorem over_over (c : CRegexCompiler) (one two : List UInt8) (first second : List CRegexRange) :
    passing (passing c one first) two second = passing c (one ++ two) (first ++ second) := by
  simp [passing, Nat.add_assoc]

theorem regexRangeAdd_gives (first last : Nat) (room : c.ranges.length < c.rangeCapacity) :
    Gives (fun index c' => index = c.ranges.length ∧ c' = passing c [] [⟨first, last⟩])
      (regexRangeAdd first last) c := by
  simp only [Gives, regexRangeAdd, ends_bind, ends_get, ends_ite, ends_set, ends_pure]
  exact ⟨fun full => absurd full (Nat.not_le_of_lt room), fun _ => ⟨trivial, rfl⟩⟩

theorem regexRangesAdd_gives (ranges : List CRegexRange)
    (room : c.ranges.length + ranges.length ≤ c.rangeCapacity) :
    Gives (fun _ c' => c' = passing c [] ranges) (regexRangesAdd ranges) c := by
  induction ranges generalizing c with
  | nil =>
    simp only [Gives, regexRangesAdd, ends_pure, passing, List.length_nil, List.append_nil,
      Nat.add_zero]
  | cons range rest ih =>
    rw [List.length_cons] at room
    simp only [Gives, regexRangesAdd, ends_bind]
    apply (regexRangeAdd_gives range.first range.last (by omega)).mono
    rintro _ mid ⟨rfl, rfl⟩
    apply (ih (by simp only [passing, List.length_append, List.length_singleton]; omega)).mono
    rintro _ c' rfl
    exact over_over c [] [] [range] rest

theorem kindRanges_length (kind : Nat) : (kindRanges kind).length ≤ 4 := by
  unfold kindRanges
  split
  · decide
  · split <;> decide

theorem SpellsItem.size (spells : SpellsItem text item) :
    0 < text.length ∧ ∀ kind, item = .kind kind → 2 ≤ text.length := by
  cases spells with
  | plain => exact ⟨List.length_pos_of_ne_nil String.utf8EncodeChar_ne_nil, by simp⟩
  | escaped => exact ⟨by simp, by simp⟩
  | kind text value kind escapes =>
    have positive := List.length_pos_of_ne_nil escapes.ne_nil
    refine ⟨by simp, fun _ _ => ?_⟩
    rw [List.length_cons]
    omega

theorem next_of_item (spells : SpellsItem text item) (eq : c.left = text ++ rest) :
    c.next.any (· ≠ 0x5D) = true := by
  obtain ⟨first, others, rfl, other⟩ := spells.head
  rw [next_eq, eq]
  simp [other]

theorem next_of_close (eq : c.left = 0x5D :: rest) : ¬c.next.any (· ≠ 0x5D) = true := by
  rw [next_eq, eq]
  simp

def Alone (items : List ClassItem) : Prop :=
  ∀ middle last more, items = middle :: last :: more → middle.isOperator true = false

theorem readMember_over (spells : SpellsItem text item) (eq : c.left = text ++ rest) :
    Gives (fun result c' => itemResult item result ∧ c' = passing c text []) regexReadMember c := by
  apply (regexReadMember_gives spells eq).mono
  rintro result c' ⟨isResult, rfl⟩
  exact ⟨isResult, by rw [passing, List.append_nil]⟩

/-- What the loop of a class gives for `items`, with `fuel` rounds. -/
def LoopGives (rest : List UInt8) (fuel : Nat) : Prop :=
  ∀ items previous any (c : CRegexCompiler) text ranges, SpellsItems text items →
    c.left = text ++ 0x5D :: rest → classRanges true items = some ranges →
    (previous ≠ none → Alone items) → items.length < fuel →
    c.ranges.length + 2 * text.length ≤ c.rangeCapacity →
    Gives (fun any' c' => any' = (any || !items.isEmpty) ∧ c' = passing c text ranges ∧
      ranges.length ≤ 2 * text.length) (classLoop fuel previous any) c

/-- The rounds behind the first member of a range: the operator and the last
member. -/
theorem operator_gives {fuel value : Nat} {others : List UInt8} {middle last : ClassItem}
    {more : List ClassItem} {range : CRegexRange} {tail : List CRegexRange}
    (again : ∀ less < fuel, LoopGives rest less) (eq : c.left = text ++ (others ++ 0x5D :: rest))
    (spells : SpellsItems others (middle :: last :: more))
    (isOperator : middle.isOperator true = true) (isRange : rangeOf value last = some range)
    (isTail : classRanges true more = some tail) (enough : more.length + 2 < fuel)
    (room : c.ranges.length + 2 * (text.length + others.length) ≤ c.rangeCapacity)
    (positive : 0 < text.length) :
    Gives (fun any' c' => any' = true ∧ c' = passing c (text ++ others) (range :: tail) ∧
      (range :: tail).length ≤ 2 * (text ++ others).length)
      (classLoop fuel (some (value, c.ranges.length)) true) (passing c text [⟨value, value⟩]) := by
  obtain ⟨fuel, rfl⟩ : ∃ less, fuel = less + 1 := Nat.exists_eq_succ_of_ne_zero (by omega)
  cases spells with
  | cons word others _ _ first spells =>
  cases spells with
  | cons word' others _ _ second spells =>
  rw [List.append_assoc, List.append_assoc] at eq
  have left := over_left [⟨value, value⟩] eq
  simp only [Gives, classLoop, ends_bind, ends_get, ends_ite, ends_pure]
  refine ⟨fun _ => ?_, fun ends => absurd (next_of_item first left) ends⟩
  apply (readMember_over first left).mono
  rintro ⟨dash, kind⟩ mid ⟨isResult, rfl⟩
  rw [over_over, List.append_nil]
  have left' : (passing c (text ++ word) [⟨value, value⟩]).left = word' ++ (others ++ 0x5D :: rest) :=
    over_left _ (by rw [eq, List.append_assoc])
  rw [List.length_append, List.length_append] at room
  cases middle with
  | kind kind' => cases isOperator
  | single dash' escaped =>
    cases isResult
    rw [ClassItem.isOperator, Bool.and_eq_true, decide_eq_true_eq] at isOperator
    refine ⟨fun nonzero => absurd rfl nonzero, fun _ => ⟨fun _ => ?_, fun other =>
      absurd ⟨isOperator.1, next_of_item second left'⟩ other⟩⟩
    apply (readMember_over second left').mono
    rintro ⟨stop, kind⟩ mid ⟨isResult, rfl⟩
    rw [over_over, List.append_nil]
    have left'' : ∀ added, (passing c (text ++ word ++ word') added).left = others ++ 0x5D :: rest :=
      fun added => over_left added (by rw [eq, List.append_assoc, List.append_assoc])
    cases last with
    | kind kind' => cases isRange
    | single stop' escaped' =>
      cases isResult
      rw [rangeOf] at isRange
      split at isRange
      next => cases isRange
      next inOrder =>
        cases isRange
        refine ⟨fun bad => ?_, fun _ => ?_⟩
        · cases bad with
          | inl nonzero => exact absurd rfl nonzero
          | inr before => exact absurd before inOrder
        have ranged : { passing c (text ++ word ++ word') [⟨value, value⟩] with
            ranges := List.modify (c.ranges ++ [⟨value, value⟩]) c.ranges.length
              (fun range : CRegexRange => { range with last := stop }) } =
            passing c (text ++ word ++ word') [⟨value, stop⟩] := by
          rw [modify_last]
          rfl
        have goesOn := again fuel (Nat.lt_succ_self fuel) more none true
          (passing c (text ++ word ++ word') [⟨value, stop⟩]) others tail spells (left'' _) isTail
          (fun isSome => absurd rfl isSome) (by omega) (by
            simp only [passing, List.length_append, List.length_singleton]
            have positive' := second.size.1
            omega)
        rw [← ranged] at goesOn
        apply goesOn.mono
        rintro any' c' ⟨isAny, rfl, few⟩
        refine ⟨by simp [isAny], ?_, ?_⟩
        · rw [ranged, over_over, List.append_assoc, List.append_assoc]
          rfl
        · simp only [List.length_cons, List.length_append]
          omega

theorem classLoop_gives (rest : List UInt8) (fuel : Nat) : LoopGives rest fuel := by
  induction fuel using Nat.strong_induction_on with
  | _ fuel ih =>
  intro items previous any c text ranges spells eq meaning alone enough room
  obtain ⟨fuel, rfl⟩ : ∃ less, fuel = less + 1 := Nat.exists_eq_succ_of_ne_zero (by omega)
  simp only [Gives, classLoop, ends_bind, ends_get, ends_ite, ends_pure]
  cases spells with
  | nil =>
    refine ⟨fun more => absurd more (next_of_close eq), fun _ => ?_⟩
    cases meaning
    simp [passing]
  | cons text others item items first spells =>
    rw [List.append_assoc] at eq
    refine ⟨fun _ => ?_, fun ends => absurd (next_of_item first eq) ends⟩
    apply (readMember_over first eq).mono
    rintro ⟨value, kind⟩ mid ⟨isResult, rfl⟩
    have left : ∀ added, (passing c text added).left = others ++ 0x5D :: rest :=
      fun added => over_left added eq
    obtain ⟨positive, double⟩ := first.size
    rw [List.length_append] at room
    rw [List.length_cons] at enough
    cases item with
    | kind kind' =>
      obtain ⟨isKind, nonzero⟩ := isResult
      simp only at isKind
      subst isKind
      refine ⟨fun _ => ?_, fun isZero => absurd nonzero isZero⟩
      obtain ⟨more, isMore, rfl⟩ := Option.map_eq_some_iff.mp meaning
      have size := kindRanges_length kind
      have two := double kind rfl
      apply (regexRangesAdd_gives (kindRanges kind) (by
        simp only [passing, List.append_nil]
        omega)).mono
      rintro _ after rfl
      rw [over_over, List.append_nil, List.nil_append]
      apply (ih fuel (Nat.lt_succ_self _) items none true _ others more spells (left _) isMore
        (fun isSome => absurd rfl isSome) (by omega) (by
          simp only [passing, List.length_append]
          omega)).mono
      rintro any' c' ⟨isAny, rfl, few⟩
      refine ⟨by simp [isAny], over_over _ _ _ _ _, ?_⟩
      rw [List.length_append, List.length_append]
      omega
    | single v escaped =>
      cases isResult
      refine ⟨fun nonzero => absurd rfl nonzero, fun _ => ?_⟩
      have adds : Gives (fun any' c' => any' = (any || !(ClassItem.single value escaped ::
          items).isEmpty) ∧ c' = passing c (text ++ others) ranges ∧
          ranges.length ≤ 2 * (text ++ others).length)
          (regexRangeAdd value value >>= fun added => classLoop fuel (some (value, added)) true)
          (passing c text []) := by
        rw [Gives, ends_bind]
        apply (regexRangeAdd_gives value value (by simp only [passing, List.append_nil]; omega)).mono
        rintro index after ⟨rfl, rfl⟩
        have isIndex : (passing c text []).ranges.length = c.ranges.length := by simp [passing]
        rw [over_over, List.append_nil, List.nil_append, isIndex]
        by_cases isAlone : Alone items
        · rw [classRanges_single isAlone] at meaning
          obtain ⟨more, isMore, rfl⟩ := Option.map_eq_some_iff.mp meaning
          apply (ih fuel (Nat.lt_succ_self _) items _ true _ others more spells (left _) isMore
            (fun _ => isAlone) (by omega) (by
              simp only [passing, List.length_append, List.length_singleton]
              omega)).mono
          rintro any' c' ⟨isAny, rfl, few⟩
          refine ⟨by simp [isAny], over_over _ _ _ _ _, ?_⟩
          rw [List.length_append, List.length_cons]
          omega
        · obtain ⟨middle, last, more, rfl, isOperator⟩ : ∃ middle last more,
              items = middle :: last :: more ∧ middle.isOperator true = true := by
            simpa [Alone] using isAlone
          rw [classRanges_operator isOperator] at meaning
          obtain ⟨range, isRange, isMore⟩ := Option.bind_eq_some_iff.mp meaning
          obtain ⟨tail, isTail, rfl⟩ := Option.map_eq_some_iff.mp isMore
          apply (operator_gives (fun less lt => ih less (by omega)) eq spells isOperator isRange
            isTail (by simpa using enough) room positive).mono
          rintro any' c' ⟨isAny, isOver, few⟩
          exact ⟨by simp [isAny], isOver, few⟩
      split
      next first' index =>
        rw [ends_ite]
        refine ⟨fun isDash => ?_, fun _ => adds⟩
        cases spells with
        | nil => exact absurd isDash.2 (next_of_close (left []))
        | cons word others' next items' firstNext spells' =>
          have notOperator := alone (by simp) _ _ _ rfl
          have isDash := isDash.1
          simp only at isDash
          rw [ClassItem.isOperator, decide_eq_true isDash, Bool.or_true] at notOperator
          cases notOperator
      next => exact adds

/-! ## Fragments -/

def patched (patches : Patches) (target index : Nat) (instruction : CRegexInstruction) :
    CRegexInstruction :=
  { instruction with
    x := if (index, false) ∈ patches then some target else instruction.x
    y := if (index, true) ∈ patches then some target else instruction.y }

theorem patched_none {patches : Patches} (none : ∀ field, (index, field) ∉ patches) :
    patched patches target index = id := by
  funext instruction
  rw [patched, if_neg (none false), if_neg (none true), id]

theorem patchTo_getElem (patches : Patches) (target : Nat) (instructions : List CRegexInstruction)
    (index : Nat) :
    (patches.foldl (fun instructions patch =>
      instructions.modify patch.1 (patchField target patch.2)) instructions)[index]? =
        instructions[index]?.map (patched patches target index) := by
  induction patches generalizing instructions with
  | nil => rw [List.foldl_nil, patched_none (by simp), Option.map_id, id]
  | cons patch rest ih =>
    obtain ⟨at_, field⟩ := patch
    rw [List.foldl_cons, ih, List.getElem?_modify, Option.map_eq_map, Option.map_map]
    congr
    funext instruction
    rw [Function.comp_apply]
    by_cases same : at_ = index
    · subst same
      rw [if_pos rfl]
      cases field with
      | false => simp [patched, patchField]
      | true => simp [patched, patchField]
    · rw [if_neg same]
      simp [patched, Ne.symm same]

/-- The program has the instructions emitted between `c` and `c'`, and the open
fields of `patches` point at `target`. -/
structure Holds (program : CProgram) (c c' : CRegexCompiler) (patches : Patches) (target : Nat) :
    Prop where
  instructions : ∀ index, c.count ≤ index → index < c'.count →
    program.instructions[index]? = (c'.instructions[index]?).map (patched patches target index)
  ranges : c'.ranges <+: program.ranges

/-- The fragment is the layout of `expr`, wherever its open fields point. -/
structure Built (c c' : CRegexCompiler) (fragment : CRegexFragment) (expr : Expr) : Prop where
  inside : ∀ patch ∈ fragment.patches, c.count ≤ patch.1 ∧ patch.1 < c'.count
  laid : ∀ program target, Holds program c c' fragment.patches target →
    Laid program expr fragment.start target

/-- The compiler has gone on over `text` and has built `expr`. -/
structure Compiles (c : CRegexCompiler) (text : List UInt8) (extra : Nat) (expr : Expr)
    (fragment : CRegexFragment) (c' : CRegexCompiler) : Prop where
  emits : Emits c c' text extra
  built : Built c c' fragment expr

/-! ### Single instructions -/

def emitted (c : CRegexCompiler) (text : List UInt8) (ranges : List CRegexRange)
    (instruction : CRegexInstruction) : CRegexCompiler :=
  { c with
    offset := c.offset + text.length
    instructions := c.instructions ++ [instruction]
    ranges := c.ranges ++ ranges
    patchCount := c.patchCount + 1 }

@[simp] theorem emitted_count (c : CRegexCompiler) (text : List UInt8)
    (ranges : List CRegexRange) (instruction : CRegexInstruction) :
    (emitted c text ranges instruction).count = c.count + 1 :=
  List.length_append

theorem emits_emitted (eq : c.left = text ++ rest) (few : ranges.length ≤ 2 * text.length)
    (size : 1 ≤ 2 * text.length + extra) :
    Emits c (emitted c text ranges instruction) text extra where
  moves := (Moves.advance eq).still (Moves.stay rfl rfl)
  instructionCapacity := rfl
  rangeCapacity := rfl
  patchCapacity := rfl
  instructions := List.prefix_append _ _
  ranges := List.prefix_append _ _
  count := by
    rw [emitted_count]
    omega
  rangeCount := by
    simp only [emitted, List.length_append]
    omega
  patchCount := by
    rw [emitted_count]
    show c.patchCount + 1 + c.count ≤ c.patchCount + (c.count + 1)
    omega

theorem built_emitted {expr : Expr}
    (meaning : ∀ program target, Fetches program c.count { instruction with x := some target } →
      c.ranges ++ ranges <+: program.ranges → Laid program expr c.count target) :
    Built c (emitted c text ranges instruction) ⟨c.count, [(c.count, false)]⟩ expr where
  inside := by
    intro patch inPatches
    rw [List.mem_singleton.mp inPatches, emitted_count]
    exact ⟨Nat.le_refl _, Nat.lt_succ_self _⟩
  laid := by
    intro program target holds
    apply meaning program target _ holds.ranges
    rw [Fetches, holds.instructions c.count (Nat.le_refl _) (by rw [emitted_count]; exact Nat.lt_succ_self _)]
    simp [emitted, patched]

theorem regexEmit_gives (op : RegexOp) (room : c.count < c.instructionCapacity) :
    Gives (fun index c' => index = c.count ∧
      c' = { c with instructions := c.instructions ++ [⟨op, none, none, 0, 0, 0, false⟩] })
      (regexEmit op) c := by
  simp only [Gives, regexEmit, ends_bind, ends_get, ends_ite, ends_set, ends_pure]
  exact ⟨fun full => absurd full (Nat.not_le_of_lt room), fun _ => ⟨trivial, trivial⟩⟩

theorem regexFragmentOne_gives (start : Nat) (field : Bool) (room : c.patchCount < c.patchCapacity) :
    Gives (fun fragment c' => fragment = ⟨start, [(start, field)]⟩ ∧
      c' = { c with patchCount := c.patchCount + 1 }) (regexFragmentOne start field) c := by
  simp only [Gives, regexFragmentOne, regexPatchNew, ends_bind, ends_get, ends_ite, ends_set,
    ends_pure]
  exact ⟨fun full => absurd full (Nat.not_le_of_lt room), fun _ => ⟨trivial, trivial⟩⟩

theorem Fits.patches (fits : Fits c extra) (small : extra ≤ 1) :
    c.patchCount < c.patchCapacity := by
  have le := fits.patchCount
  have room := fits.room small
  rw [fits.instructionCapacity] at room
  rw [fits.patchCapacity]
  omega

/-- An instruction with what is set behind its emission, and a fragment of it. -/
theorem emit_gives (fits : Fits c extra) (small : extra ≤ 1) (op : RegexOp) :
    Gives (fun fragment c' => fragment = ⟨c.count, [(c.count, false)]⟩ ∧
      c' = emitted c [] [] ⟨op, none, none, 0, 0, 0, false⟩)
      (regexEmit op >>= fun index => regexFragmentOne index false) c := by
  rw [Gives, ends_bind]
  apply (regexEmit_gives op (fits.room small)).mono
  rintro index mid ⟨rfl, rfl⟩
  refine Ends.mono (regexFragmentOne_gives _ _ (fits.patches small)) ?_
  rintro fragment c' ⟨rfl, rfl⟩
  exact ⟨rfl, by simp [emitted]⟩

theorem compiles_one {expr : Expr} (eq : c.left = text ++ rest)
    (few : ranges.length ≤ 2 * text.length) (size : 1 ≤ 2 * text.length + extra)
    (meaning : ∀ program target, Fetches program c.count { instruction with x := some target } →
      c.ranges ++ ranges <+: program.ranges → Laid program expr c.count target) :
    Compiles c text extra expr ⟨c.count, [(c.count, false)]⟩
      (emitted c text ranges instruction) where
  emits := emits_emitted eq few size
  built := built_emitted meaning

/-- A class is laid out by one instruction that refers to its ranges. -/
theorem laid_class {program : CProgram} {negate : Bool}
    (fetches : Fetches program c.count ⟨.charClass, some target, none, 0, c.ranges.length,
      ranges.length, negate⟩) (isPrefix : c.ranges ++ ranges <+: program.ranges) :
    Laid program (.charClass ranges negate) c.count target := by
  apply Laid.charClass ranges c.count target _ fetches rfl _ rfl
  obtain ⟨rest, eq⟩ := isPrefix
  rw [← eq, List.append_assoc, List.drop_left, List.take_left]

theorem SpellsItems.length_le (spells : SpellsItems text items) : items.length ≤ text.length := by
  induction spells with
  | nil => exact Nat.le_refl 0
  | cons text rest item items first _ ih =>
    have positive := first.size.1
    rw [List.length_cons, List.length_append]
    omega

/-- The class instruction is emitted in front of its members and is completed
behind them. -/
theorem regexClassBody_gives (start : CRegexCompiler) (negate : Bool)
    (spells : SpellsItems text items) (some_ : items ≠ []) (eq : c.left = text ++ 0x5D :: rest)
    (meaning : classRanges true items = some ranges) (opened : c = { start with
      offset := c.offset
      instructions := start.instructions ++ [⟨.charClass, none, none, 0, 0, 0, false⟩] })
    (fits : Fits start 0) (after : start.offset ≤ c.offset) :
    Gives (fun fragment c' => fragment = ⟨start.count, [(start.count, false)]⟩ ∧
      ranges.length ≤ 2 * text.length ∧ c' = { emitted start [] ranges
          ⟨.charClass, none, none, 0, start.ranges.length, ranges.length, negate⟩ with
        offset := c.offset + text.length + 1 })
      (regexClassBody start.count start.ranges.length negate) c := by
  have samePattern : c.pattern = start.pattern := by rw [opened]
  have sameRanges : c.ranges = start.ranges := by rw [opened]
  have sameCapacity : c.rangeCapacity = start.rangeCapacity := by rw [opened]
  have size : text.length + (rest.length + 1) = c.pattern.length - c.offset := by
    have sizes := congrArg List.length eq
    rw [CRegexCompiler.left, List.length_drop, List.length_append, List.length_cons] at sizes
    exact sizes.symm
  have few := spells.length_le
  have roomRanges := fits.ranges
  have capacity := fits.rangeCapacity
  rw [samePattern] at size
  simp only [Gives, regexClassBody, ends_bind, ends_get, ends_ite]
  apply (classLoop_gives rest (c.pattern.length + 1) items none false c text ranges spells eq
    meaning (fun isSome => absurd rfl isSome) (by rw [samePattern]; omega)
    (by rw [sameRanges, sameCapacity]; omega)).mono
  rintro any mid ⟨isAny, rfl, fewRanges⟩
  refine ⟨fun bad => ?_, fun _ => ?_⟩
  · cases bad with
    | inl past =>
      have inside : (passing c text ranges).offset < (passing c text ranges).pattern.length := by
        show c.offset + text.length < c.pattern.length
        rw [samePattern]
        omega
      omega
    | inr empty =>
      rw [isAny] at empty
      simp [some_] at empty
  · simp only [advance, setInstruction, ends_modify]
    refine Ends.mono (regexFragmentOne_gives _ _ ?_) ?_
    · rw [opened]
      exact fits.patches (Nat.zero_le 1)
    · rintro fragment c' ⟨rfl, rfl⟩
      refine ⟨rfl, fewRanges, ?_⟩
      rw [opened]
      simp only [passing, emitted, List.length_append, Nat.add_sub_cancel_left, modify_last]

theorem class_compiles {negate : Bool} (eq : start.left = text ++ rest)
    (few : ranges.length ≤ 2 * text.length) (some_ : text ≠ []) :
    Compiles start text 0 (.charClass ranges negate) ⟨start.count, [(start.count, false)]⟩
      (emitted start text ranges
        ⟨.charClass, none, none, 0, start.ranges.length, ranges.length, negate⟩) := by
  have positive := List.length_pos_of_ne_nil some_
  apply compiles_one eq few (by omega)
  intro program target fetches isPrefix
  exact laid_class fetches isPrefix

theorem regexParseClass_plain (spells : SpellsItems text items) (some_ : items ≠ [])
    (plain : text.head? ≠ some 0x5E) (meaning : classRanges true items = some ranges)
    (fits : Fits start 0) (eq : start.left = 0x5B :: text ++ [0x5D] ++ rest) :
    Gives (Compiles start (0x5B :: text ++ [0x5D]) 0 (.charClass ranges false)) regexParseClass
      { start with offset := start.offset + 1 } := by
  have left : ({ start with offset := start.offset + 1 } : CRegexCompiler).left =
      text ++ 0x5D :: rest := by
    rw [List.append_assoc, List.singleton_append, List.cons_append] at eq
    exact left_advance (show start.left = [0x5B] ++ (text ++ 0x5D :: rest) from eq)
  simp only [Gives, regexParseClass, ends_bind, ends_get, ends_ite]
  refine Ends.mono (regexEmit_gives .charClass (fits.room (Nat.zero_le 1))) ?_
  rintro index mid ⟨rfl, rfl⟩
  refine ⟨fun isNegated => ?_, fun _ => ?_⟩
  · have isNext : ({ start with offset := start.offset + 1 } : CRegexCompiler).next =
        some 0x5E := isNegated
    rw [next_eq, left] at isNext
    cases spells with
    | nil => exact absurd rfl some_
    | cons word others item items first _ =>
      obtain ⟨ch, more, rfl, _⟩ := first.head
      exact absurd isNext plain
  · refine Ends.mono (regexClassBody_gives start false spells some_ left meaning rfl fits
      (Nat.le_succ _)) ?_
    rintro fragment c' ⟨rfl, few, rfl⟩
    rw [show start.offset + 1 + text.length + 1 =
      start.offset + (0x5B :: text ++ [0x5D]).length by simp; omega]
    apply class_compiles eq _ (by simp)
    simp only [List.length_append, List.length_cons]
    omega

theorem regexParseClass_negated (spells : SpellsItems text items) (some_ : items ≠ [])
    (meaning : classRanges true items = some ranges) (fits : Fits start 0)
    (eq : start.left = 0x5B :: 0x5E :: text ++ [0x5D] ++ rest) :
    Gives (Compiles start (0x5B :: 0x5E :: text ++ [0x5D]) 0 (.charClass ranges true)) regexParseClass
      { start with offset := start.offset + 1 } := by
  have eq' := eq
  rw [List.append_assoc, List.singleton_append, List.cons_append, List.cons_append] at eq'
  have left : ({ start with offset := start.offset + 1 } : CRegexCompiler).left =
      0x5E :: (text ++ 0x5D :: rest) :=
    left_advance (show start.left = [0x5B] ++ (0x5E :: (text ++ 0x5D :: rest)) from eq')
  have left' : ({ start with offset := start.offset + 1 + 1 } : CRegexCompiler).left =
      text ++ 0x5D :: rest :=
    left_advance (show start.left = [0x5B, 0x5E] ++ (text ++ 0x5D :: rest) from eq')
  simp only [Gives, regexParseClass, ends_bind, ends_get, ends_ite, advance, ends_modify]
  refine Ends.mono (regexEmit_gives .charClass (fits.room (Nat.zero_le 1))) ?_
  rintro index mid ⟨rfl, rfl⟩
  refine ⟨fun _ => ?_, fun notNegated => ?_⟩
  · refine Ends.mono (regexClassBody_gives start true spells some_ left' meaning rfl fits
      (Nat.le_add_right start.offset 2)) ?_
    rintro fragment c' ⟨rfl, few, rfl⟩
    rw [show start.offset + 1 + 1 + text.length + 1 =
      start.offset + (0x5B :: 0x5E :: text ++ [0x5D]).length by simp; omega]
    apply class_compiles eq _ (by simp)
    simp only [List.length_append, List.length_cons]
    omega
  · have isNext : ({ start with offset := start.offset + 1 } : CRegexCompiler).next =
        some 0x5E := by
      rw [next_eq, left]
      rfl
    exact absurd isNext notNegated

/-! ### Larger fragments -/

theorem patched_congr {one two : Patches}
    (same : ∀ field, (index, field) ∈ one ↔ (index, field) ∈ two) :
    patched one target index = patched two target index := by
  funext instruction
  simp only [patched, same]

theorem prefix_getElem {α : Type} {front whole : List α} (isPrefix : front <+: whole)
    (inside : index < front.length) : whole[index]? = front[index]? := by
  obtain ⟨rest, rfl⟩ := isPrefix
  exact List.getElem?_append_left inside

theorem prefix_of_getElem {α : Type} {front whole : List α}
    (same : ∀ index < front.length, whole[index]? = front[index]?) : front <+: whole := by
  rw [List.prefix_iff_getElem?]
  intro index inside
  rw [same index inside, List.getElem?_eq_getElem inside]

/-- The compiler with the open fields of `patches` pointed at `target`. -/
def patchedTo (c : CRegexCompiler) (patches : Patches) (target : Nat) : CRegexCompiler :=
  { c with
    instructions := patches.foldl (fun instructions patch =>
      instructions.modify patch.1 (patchField target patch.2)) c.instructions }

theorem patchedTo_getElem (c : CRegexCompiler) (patches : Patches) (target index : Nat) :
    (patchedTo c patches target).instructions[index]? =
      c.instructions[index]?.map (patched patches target index) :=
  patchTo_getElem patches target c.instructions index

theorem patchedTo_count (c : CRegexCompiler) (patches : Patches) (target : Nat) :
    (patchedTo c patches target).count = c.count := by
  have size : ∀ instructions : List CRegexInstruction, (patches.foldl (fun instructions patch =>
      instructions.modify patch.1 (patchField target patch.2)) instructions).length =
        instructions.length := by
    induction patches with
    | nil => exact fun _ => rfl
    | cons patch rest ih =>
      intro instructions
      rw [List.foldl_cons, ih, List.length_modify]
  exact size c.instructions

def Within (low high : Nat) (patches : Patches) : Prop :=
  ∀ patch ∈ patches, low ≤ patch.1 ∧ patch.1 < high

theorem Within.outside {low : Nat} {patches : Patches} (within : Within low high patches)
    (outside : index < low ∨ high ≤ index) (field : Bool) : (index, field) ∉ patches := by
  intro inPatches
  have bounds := within _ inPatches
  simp only at bounds
  omega

theorem Within.widen {low low' high' : Nat} {patches : Patches} (within : Within low high patches)
    (below : low' ≤ low) (above : high ≤ high') : Within low' high' patches := by
  intro patch inPatches
  have bounds := within patch inPatches
  omega

theorem Emits.patchedTo {patches : Patches} (emits : Emits c c' text extra)
    (within : Within c.count high patches) (target : Nat) :
    Emits c (patchedTo c' patches target) text extra where
  moves := emits.moves.still (Moves.stay rfl rfl)
  instructionCapacity := emits.instructionCapacity
  rangeCapacity := emits.rangeCapacity
  patchCapacity := emits.patchCapacity
  instructions := by
    apply prefix_of_getElem
    intro index inside
    rw [patchedTo_getElem, patched_none (within.outside (Or.inl inside)), Option.map_id, id]
    exact prefix_getElem emits.instructions inside
  ranges := emits.ranges
  count := by
    rw [patchedTo_count]
    exact emits.count
  rangeCount := emits.rangeCount
  patchCount := by
    rw [patchedTo_count]
    exact emits.patchCount

/-- A program that holds a larger part holds a smaller one. -/
theorem Holds.part {program : CProgram} {low high : CRegexCompiler} {patches part : Patches}
    {goal : Nat} (holds : Holds program c c' patches target) (below : c.count ≤ low.count)
    (above : high.count ≤ c'.count) (same : ∀ index, low.count ≤ index → index < high.count →
      c'.instructions[index]?.map (patched patches target index) =
        high.instructions[index]?.map (patched part goal index))
    (ranges : high.ranges <+: c'.ranges) : Holds program low high part goal where
  instructions := by
    intro index le lt
    rw [holds.instructions index (Nat.le_trans below le) (Nat.lt_of_lt_of_le lt above),
      same index le lt]
  ranges := ranges.trans holds.ranges

theorem compiles_seq {one two : List UInt8} {first second : Expr} {left right : CRegexFragment}
    (before : Compiles c one m first left mid) (after : Compiles mid two n second right c') :
    Compiles c (one ++ two) (m + n) (.seq first second) ⟨left.start, right.patches⟩
      (patchedTo c' left.patches right.start) := by
  have leftWithin : Within c.count mid.count left.patches := before.built.inside
  have rightWithin : Within mid.count c'.count right.patches := after.built.inside
  have le := before.emits.count_le
  have le' := after.emits.count_le
  refine ⟨(before.emits.trans after.emits).patchedTo leftWithin right.start, ?_, ?_⟩
  · intro patch inPatches
    rw [patchedTo_count]
    exact rightWithin.widen le (Nat.le_refl _) patch inPatches
  intro program target holds
  have isLeft : Holds program c mid left.patches right.start := by
    apply holds.part (Nat.le_refl _) (by rw [patchedTo_count]; exact le') _ after.emits.ranges
    intro index _ lt
    rw [patched_none (rightWithin.outside (Or.inl lt)), Option.map_id, id, patchedTo_getElem,
      prefix_getElem after.emits.instructions lt]
  have isRight : Holds program mid c' right.patches target := by
    refine holds.part le (by rw [patchedTo_count]) ?_ (List.prefix_refl c'.ranges)
    intro index ge _
    rw [patchedTo_getElem, patched_none (leftWithin.outside (Or.inr ge)), Option.map_id, id]
  exact Laid.seq first second left.start right.start target
    (before.built.laid program right.start isLeft) (after.built.laid program target isRight)

/-- The compiler behind the operator `ch` of a repetition, with its split. -/
def splitAfter (c : CRegexCompiler) (start : Nat) : CRegexCompiler :=
  emitted c [] [] ⟨.split, some start, none, 0, 0, 0, false⟩

theorem splitAfter_getElem (c : CRegexCompiler) (start index : Nat) (lt : index < c.count) :
    (splitAfter c start).instructions[index]? = c.instructions[index]? :=
  List.getElem?_append_left lt

theorem splitAfter_last (c : CRegexCompiler) (start : Nat) :
    (splitAfter c start).instructions[c.count]? =
      some ⟨.split, some start, none, 0, 0, 0, false⟩ := by
  simp [splitAfter, emitted]

/-- A star: the body goes back to the split in front of it. -/
theorem built_star {body : Expr} {fragment : CRegexFragment} (built : Built c mid fragment body)
    (le : c.count ≤ mid.count) (ranges : c'.ranges = mid.ranges)
    (eq : c'.instructions = (patchedTo (splitAfter mid fragment.start) fragment.patches
      mid.count).instructions) :
    Built c c' ⟨mid.count, [(mid.count, true)]⟩ (.star body) ∧
      Built c c' ⟨fragment.start, [(mid.count, true)]⟩ (.plus body) := by
  have within : Within c.count mid.count fragment.patches := built.inside
  have count : c'.count = mid.count + 1 := by
    rw [CRegexCompiler.count, eq]
    rw [← CRegexCompiler.count, patchedTo_count, splitAfter, emitted_count]
  have inside : ∀ patch ∈ [(mid.count, true)], c.count ≤ patch.1 ∧ patch.1 < c'.count := by
    intro patch inPatches
    rw [List.mem_singleton.mp inPatches]
    simp only
    omega
  have body_ : ∀ program target, Holds program c c' [(mid.count, true)] target →
      Laid program body fragment.start mid.count := by
    intro program target holds
    apply built.laid program mid.count
    refine holds.part (Nat.le_refl _) (by omega) ?_ (by rw [ranges])
    intro index _ lt
    have none : ∀ field, (index, field) ∉ [(mid.count, true)] := by
      intro field inPatches
      cases List.mem_singleton.mp inPatches
      omega
    rw [eq, patchedTo_getElem, splitAfter_getElem mid fragment.start index lt, patched_none none,
      Option.map_id, id]
  have split : ∀ program target, Holds program c c' [(mid.count, true)] target →
      Fetches program mid.count ⟨.split, some fragment.start, some target, 0, 0, 0, false⟩ := by
    intro program target holds
    rw [Fetches, holds.instructions mid.count le (by omega), eq, patchedTo_getElem,
      splitAfter_last, patched_none (within.outside (Or.inr (Nat.le_refl _)))]
    simp [patched]
  constructor
  · refine ⟨inside, fun program target holds => ?_⟩
    exact Laid.star body mid.count fragment.start target _ (split program target holds) rfl rfl rfl
      (body_ program target holds)
  · refine ⟨inside, fun program target holds => ?_⟩
    exact Laid.plus body fragment.start mid.count target _ (split program target holds) rfl rfl rfl
      (body_ program target holds)

/-- An option: the body and the split are open at the same place. -/
theorem built_opt {body : Expr} {fragment : CRegexFragment} (built : Built c mid fragment body)
    (le : c.count ≤ mid.count) (ranges : c'.ranges = mid.ranges)
    (eq : c'.instructions = (splitAfter mid fragment.start).instructions) :
    Built c c' ⟨mid.count, fragment.patches ++ [(mid.count, true)]⟩ (.opt body) := by
  have within : Within c.count mid.count fragment.patches := built.inside
  have count : c'.count = mid.count + 1 := by
    rw [CRegexCompiler.count, eq]
    rw [← CRegexCompiler.count, splitAfter, emitted_count]
  refine ⟨?_, fun program target holds => ?_⟩
  · intro patch inPatches
    rw [List.mem_append, List.mem_singleton] at inPatches
    rcases inPatches with old | rfl
    · have bounds := within patch old
      omega
    · simp only
      omega
  · apply Laid.opt body mid.count fragment.start target
      ⟨.split, some fragment.start, some target, 0, 0, 0, false⟩ _ rfl rfl rfl
    · apply built.laid program target
      refine holds.part (Nat.le_refl _) (by omega) ?_ (by rw [ranges])
      intro index _ lt
      rw [eq, splitAfter_getElem mid fragment.start index lt]
      congr 1
      apply patched_congr
      intro field
      rw [List.mem_append, List.mem_singleton, Prod.mk.injEq, or_iff_left]
      omega
    · rw [Fetches, holds.instructions mid.count le (by omega), eq, splitAfter_last]
      have notX := within.outside (Or.inr (Nat.le_refl mid.count)) false
      simp [patched, notX]

theorem built_alt {low end_ : CRegexCompiler} {one two : Expr} {left right : CRegexFragment}
    (first : Built c mid left one) (second : Built low c' right two) (le : c.count ≤ mid.count)
    (same : low.instructions = mid.instructions) (isPrefix : low.instructions <+: c'.instructions)
    (leRanges : mid.ranges <+: c'.ranges) (ranges : end_.ranges = c'.ranges)
    (eq : end_.instructions = c'.instructions ++
      [⟨.split, some left.start, some right.start, 0, 0, 0, false⟩]) :
    Built c end_ ⟨c'.count, left.patches ++ right.patches⟩ (.alt one two) := by
  have leftWithin : Within c.count mid.count left.patches := first.inside
  have rightWithin : Within low.count c'.count right.patches := second.inside
  have sameCount : low.count = mid.count := by rw [CRegexCompiler.count, same]
  have le' : low.count ≤ c'.count := isPrefix.length_le
  have count : end_.count = c'.count + 1 := by
    rw [CRegexCompiler.count, eq, List.length_append, List.length_singleton]
  refine ⟨?_, fun program target holds => ?_⟩
  · intro patch inPatches
    cases List.mem_append.mp inPatches with
    | inl inLeft =>
      have bounds := leftWithin patch inLeft
      omega
    | inr inRight =>
      have bounds := rightWithin patch inRight
      omega
  · apply Laid.alt one two c'.count left.start right.start target
      ⟨.split, some left.start, some right.start, 0, 0, 0, false⟩ _ rfl rfl rfl
    · apply first.laid program target
      refine holds.part (Nat.le_refl _) (by omega) ?_ (by rw [ranges]; exact leRanges)
      intro index _ lt
      have inLow : index < low.count := by omega
      rw [eq, List.getElem?_append_left (Nat.lt_of_lt_of_le inLow le'),
        prefix_getElem isPrefix inLow, same]
      congr 1
      apply patched_congr
      intro field
      rw [List.mem_append, or_iff_left]
      exact rightWithin.outside (Or.inl (by omega)) field
    · apply second.laid program target
      refine holds.part (by omega) (by omega) ?_ (by rw [ranges])
      intro index ge lt
      rw [eq, List.getElem?_append_left lt]
      congr 1
      apply patched_congr
      intro field
      rw [List.mem_append, or_iff_right]
      exact leftWithin.outside (Or.inr (by omega)) field
    · rw [Fetches, holds.instructions c'.count (by omega) (by omega), eq,
        List.getElem?_append_right (Nat.le_refl _), Nat.sub_self]
      have none : ∀ field, (c'.count, field) ∉ left.patches ++ right.patches := by
        intro field inPatches
        cases List.mem_append.mp inPatches with
        | inl inLeft => exact leftWithin.outside (Or.inr (by omega)) field inLeft
        | inr inRight => exact rightWithin.outside (Or.inr (Nat.le_refl _)) field inRight
      rw [patched_none none]
      rfl

end Aholyc.Regex
