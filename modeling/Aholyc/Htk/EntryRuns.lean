import Aholyc.Htk.EntrySteps

/-!
# Runs of the text entry control (lib/htk/entry.hc)

Each key as an operation on code points, each event, and any run of events that are
steady.
-/

namespace Aholyc.Htk.Entry

open Aholyc.Lib
open Aholyc.Term (CTermEvent)
open Aholyc.Text

variable {text : List UInt8} {c : HtkCtl} {f : Field} {start stop : Nat}

/-! ## Typing -/

theorem plain_char {ch : Char} (large : 0x20 ≤ ch.val.toNat) : 0 ∉ String.utf8EncodeChar ch := by
  obtain ⟨first, rest, isWord, _, continues⟩ := encode_continues ch
  obtain ⟨first', rest', isWord', isFirst⟩ := encode_head ch
  rw [isWord, List.cons.injEq] at isWord'
  rw [isWord, List.mem_cons]
  rintro (zero | zero)
  · rw [← isWord'.1, ← zero] at isFirst
    have isZero : (0 : UInt8).toNat = 0 := rfl
    omega
  · have bounds := continues 0 zero
    have isZero : (0 : UInt8).toNat = 0 := rfl
    omega

variable {rune limit : Int} {i : Nat}

theorem typed_char (large : 0x20 ≤ rune) (small : rune < 0x110000) :
    (((Char.ofNat rune.toNat).val.toNat : Int) = rune ∧
      utf8EncodeRune rune (some 4) =
        ((String.utf8EncodeChar (Char.ofNat rune.toNat)).length,
          String.utf8EncodeChar (Char.ofNat rune.toNat))) ∨
    (((Char.ofNat rune.toNat).val.toNat : Int) ≠ rune ∧
      utf8EncodeRune rune (some 4) = (0, [])) := by
  by_cases surrogate : rune ≥ 0xD800 ∧ rune ≤ 0xDFFF
  · right
    constructor
    · have invalid : ¬ rune.toNat.isValidChar := by
        unfold Nat.isValidChar
        omega
      unfold Char.ofNat
      rw [dif_neg invalid]
      change ((0 : Nat) : Int) ≠ rune
      omega
    · unfold utf8EncodeRune
      exact if_pos (by omega)
  · left
    have scalar : IsScalar rune.toNat := by
      unfold IsScalar
      omega
    obtain ⟨ch, value⟩ := scalar.char
    have isChar : Char.ofNat rune.toNat = ch := by
      rw [← value]
      exact Char.ofNat_toNat ch
    have isRune : ((rune.toNat : Nat) : Int) = rune := Int.toNat_of_nonneg (by omega)
    have four := (encodeChar_length ch).2
    have fits : ((runeBytes rune.toNat).length : Int) ≤ 4 := by
      rw [← value, ← encodeChar_eq]
      omega
    have written := utf8EncodeRune_fits scalar fits
    rw [isRune, ← value, ← encodeChar_eq] at written
    rw [isChar, value, isRune]
    exact ⟨rfl, written⟩

theorem i32_fits {value : Nat} (fits : value < 2 ^ 31) : i32 value = .ok value := if_pos fits

theorem insert_spec (large : 0x20 ≤ rune) (small : rune < 0x110000) (unmarked : f.mark = none)
    (stored : (encode (f.insert c.readonly c.high rune).before).length < 2 ^ 31) :
    htkTextInsert true rune (c.showing f) =
      .ok (c.showing (f.insert c.readonly c.high rune)) := by
  unfold Field.insert at stored
  unfold htkTextInsert Field.insert
  dsimp only at stored ⊢
  by_cases readonly : c.readonly = true
  · rw [if_pos (show (c.showing f).readonly = true from readonly), if_pos (Or.inl readonly)]
  rw [if_neg (show ¬ (c.showing f).readonly = true from readonly)]
  rcases typed_char large small with ⟨isRune, written⟩ | ⟨other, written⟩
  · have positive := (encodeChar_length (Char.ofNat rune.toNat)).1
    rw [written, if_neg (by dsimp only; omega)]
    dsimp only
    by_cases full : c.high ≠ 0 ∧ (encode f.text).length +
        (String.utf8EncodeChar (Char.ofNat rune.toNat)).length > c.high
    · rw [if_pos (Or.inr (Or.inr full))]
      exact if_pos full
    have inside : ¬ (encode f.before).length > (encode f.text).length := by
      rw [Field.text, encode_append, List.length_append]
      omega
    have fits : ¬ (c.readonly = true ∨ ((Char.ofNat rune.toNat).val.toNat : Int) ≠ rune ∨
        c.high ≠ 0 ∧ (encode f.text).length +
          (String.utf8EncodeChar (Char.ofNat rune.toNat)).length > c.high) := by
      rintro (readonly' | other | full')
      · exact readonly readonly'
      · exact other isRune
      · exact full full'
    have isText : (encode f.text).take (encode f.before).length ++
        String.utf8EncodeChar (Char.ofNat rune.toNat) ++
          (encode f.text).drop (encode f.before).length =
        encode (f.before ++ [Char.ofNat rune.toNat] ++ f.after) := by
      rw [Field.text, encode_append, List.take_left, List.drop_left, encode_append,
        encode_append, encode_singleton]
    have isCursor : (encode f.before).length +
        (String.utf8EncodeChar (Char.ofNat rune.toNat)).length =
        (encode (f.before ++ [Char.ofNat rune.toNat])).length := by
      rw [encode_append, encode_singleton, List.length_append]
    rw [if_neg fits] at stored ⊢
    refine (if_neg full).trans ((if_neg (by decide)).trans ((if_neg inside).trans ?_))
    change (i32 ((encode f.before).length +
      (String.utf8EncodeChar (Char.ofNat rune.toNat)).length) >>= _) = _
    rw [isCursor, i32_fits stored]
    unfold HtkCtl.showing
    dsimp only [bind, Except.bind, pure, Except.pure]
    rw [isText, unmarked]
    rfl
  · rw [written, if_pos rfl, if_pos (Or.inr (Or.inl other))]

theorem typed_spec (large : 0x20 ≤ rune) (small : rune < 0x110000) (fit : f.Fit)
    (apart : f.Apart c.readonly f.selection)
    (stored : (encode ((f.delete c.readonly (f.before.length, f.before.length)).insert c.readonly
      c.high rune).before).length < 2 ^ 31) : typed true rune (c.showing f) =
      .ok (c.showing ((f.delete c.readonly (f.before.length, f.before.length)).insert c.readonly
        c.high rune)) := by
  unfold typed
  cases selected : f.selection with
  | some places =>
    rw [selected] at apart
    rw [Field.delete_selected selected] at stored ⊢
    rw [deleteSelection_some fit selected apart]
    exact insert_spec large small rfl stored
  | none =>
    rw [Field.delete_unselected selected, Field.cut_nothing] at stored ⊢
    rw [deleteSelection_none fit selected]
    exact insert_spec large small rfl stored

/-! ## Keys -/

theorem types_iff (e : CTermEvent) : Field.types e = true ↔
    BitVec.sle 0x20 e.key = true ∧ BitVec.slt e.key 0x110000 = true ∧ e.mods = 0 := by
  unfold Field.types
  rw [Bool.and_eq_true, Bool.and_eq_true, decide_eq_true_iff, and_assoc]

theorem types_bounds {e : CTermEvent} (isTyped : Field.types e = true) :
    0x20 ≤ e.key.toInt ∧ e.key.toInt < 0x110000 := by
  have bounds := (types_iff e).mp isTyped
  have low : (0x20 : Term.I64).toInt = 0x20 := by decide
  have high : (0x110000 : Term.I64).toInt = 0x110000 := by decide
  have first := BitVec.sle_iff_toInt_le.mp bounds.1
  have second := BitVec.slt_iff_toInt_lt.mp bounds.2.1
  omega

theorem moved_home (fit : f.Fit) (e : CTermEvent) :
    { htkTextMoveStart e (c.showing f) with cursor := 0 } = c.showing ((f.moveStart e).put 0) :=
  moved_spec fit e 0

theorem end_spec (fit : f.Fit) (e : CTermEvent)
    (stored : (encode ((f.moveStart e).put f.text.length).before).length < 2 ^ 31) :
    (do pure (true, { htkTextMoveStart e (c.showing f) with
          cursor := ← i32 (c.showing f).text.length }) : Except Fault (Bool × HtkCtl)) =
      .ok (true, c.showing ((f.moveStart e).put f.text.length)) := by
  have isEnd : offset f.text f.text.length = (c.showing f).text.length := offset_length f.text
  change offset f.text f.text.length < 2 ^ 31 at stored
  rw [isEnd] at stored
  rw [i32_fits stored, ← moved_spec fit e f.text.length, isEnd]
  rfl

theorem left_spec (fit : f.Fit) (e : CTermEvent) :
    (do let step ← htkTextStepBack (c.showing f).text (c.showing f).cursor
        pure (true,
          { htkTextMoveStart e (c.showing f) with cursor := (c.showing f).cursor - step }) :
      Except Fault (Bool × HtkCtl)) =
      .ok (true, c.showing ((f.moveStart e).put (f.before.length - 1))) := by
  have isStep : htkTextStepBack (c.showing f).text (c.showing f).cursor =
      .ok (offset f.text f.before.length - offset f.text (f.before.length - 1)) :=
    stepBack_field f
  have le : offset f.text (f.before.length - 1) ≤ offset f.text f.before.length :=
    encode_take_le (by omega) f.before_le
  have isCursor : (c.showing f).cursor = offset f.text f.before.length := (offset_before f).symm
  rw [isStep]
  dsimp only [bind, Except.bind, pure, Except.pure]
  rw [← moved_spec fit e (f.before.length - 1), isCursor, Nat.sub_sub_self le]

theorem right_spec (fit : f.Fit) (inside : f.after ≠ []) (e : CTermEvent)
    (stored : (encode ((f.moveStart e).put (f.before.length + 1)).before).length < 2 ^ 31) :
    (do let step ← htkTextStepAhead (c.showing f)
        pure (true, { htkTextMoveStart e (c.showing f) with
          cursor := ← i32 ((c.showing f).cursor + step) }) :
      Except Fault (Bool × HtkCtl)) =
      .ok (true, c.showing ((f.moveStart e).put (f.before.length + 1))) := by
  have positive := List.length_pos_of_ne_nil inside
  have le : offset f.text f.before.length ≤ offset f.text (f.before.length + 1) := by
    apply encode_take_le (Nat.le_add_right _ 1)
    rw [Field.text, List.length_append]
    omega
  have isCursor : (c.showing f).cursor = offset f.text f.before.length := (offset_before f).symm
  change offset f.text (f.before.length + 1) < 2 ^ 31 at stored
  rw [stepAhead_field inside]
  dsimp only [bind, Except.bind, pure, Except.pure]
  rw [isCursor, Nat.add_sub_cancel' le, i32_fits stored,
    ← moved_spec fit e (f.before.length + 1)]

/-- Each key does on the text what it does on code points. -/
theorem htkEntryKey_spec {e : CTermEvent} {granted : Bool} (fit : f.Fit)
    (right : e.key = Term.termKeyRight → f.after ≠ []) (apart : f.Apart c.readonly (f.removal e))
    (memory : Field.types e = true → granted = true)
    (stored : (encode (f.key c.readonly c.high e).before).length < 2 ^ 31) :
    ∃ handled, htkEntryKey granted e (c.showing f) =
      .ok (handled, c.showing (f.key c.readonly c.high e)) := by
  unfold Field.key at stored
  unfold htkEntryKey Field.key
  unfold Field.removal at apart
  dsimp only at apart stored ⊢
  by_cases isA : e.key = 0x61 ∧ hasMod e Term.termModCtrl = true
  · rw [if_pos isA, if_pos (Or.inl isA), moved_home fit]
    exact ⟨true, rfl⟩
  rw [if_neg isA]
  by_cases isE : e.key = 0x65 ∧ hasMod e Term.termModCtrl = true
  · have notHome : ¬ (e.key = 0x61 ∧ hasMod e Term.termModCtrl = true ∨
        e.key = Term.termKeyHome) := by
      rw [isE.1]
      rintro (other | other)
      · exact absurd other.1 (by decide)
      · exact absurd other (by decide)
    rw [if_neg notHome, if_pos (Or.inl isE)] at stored
    rw [if_pos isE, if_neg notHome, if_pos (Or.inl isE), end_spec fit e stored]
    exact ⟨true, rfl⟩
  rw [if_neg isE]
  by_cases isW : e.key = 0x77 ∧ hasMod e Term.termModCtrl = true
  · have erases : Field.erases e = true := by
      unfold Field.erases
      rw [isW.1, isW.2]
      rfl
    rw [if_pos erases] at apart
    rw [if_pos isW, deleteWord_spec fit apart, if_pos erases, isW.1, if_neg, if_neg]
    · exact ⟨true, rfl⟩
    · rintro (other | other)
      · exact absurd other.1 (by decide)
      · exact absurd other (by decide)
    · rintro (other | other)
      · exact absurd other.1 (by decide)
      · exact absurd other (by decide)
  have erases : ¬ Field.erases e = true := by
    intro erases
    unfold Field.erases at erases
    rw [Bool.and_eq_true, decide_eq_true_iff] at erases
    exact isW erases
  rw [if_neg isW, if_neg erases]
  rw [if_neg erases] at apart stored
  by_cases isHome : e.key = Term.termKeyHome
  · rw [if_pos (Or.inr isHome), isHome, if_neg (by decide), if_neg (by decide),
      if_pos rfl, moved_home fit]
    exact ⟨true, rfl⟩
  by_cases isEnd : e.key = Term.termKeyEnd
  · rw [if_neg (not_or.mpr ⟨isA, isHome⟩), if_pos (Or.inr isEnd)] at stored
    rw [if_neg (not_or.mpr ⟨isA, isHome⟩), if_pos (Or.inr isEnd), isEnd, if_neg (by decide),
      if_neg (by decide), if_neg (by decide), if_pos rfl, end_spec fit e stored]
    exact ⟨true, rfl⟩
  rw [if_neg (not_or.mpr ⟨isA, isHome⟩), if_neg (not_or.mpr ⟨isE, isEnd⟩)] at stored
  rw [if_neg (not_or.mpr ⟨isA, isHome⟩), if_neg (not_or.mpr ⟨isE, isEnd⟩), if_neg isHome,
    if_neg isEnd]
  by_cases isLeft : e.key = Term.termKeyLeft
  · rw [if_pos isLeft, if_pos isLeft, left_spec fit]
    exact ⟨true, rfl⟩
  rw [if_neg isLeft] at stored
  rw [if_neg isLeft, if_neg isLeft]
  by_cases isRight : e.key = Term.termKeyRight
  · rw [if_pos isRight] at stored
    rw [if_pos isRight, if_pos isRight, right_spec fit (right isRight) e stored]
    exact ⟨true, rfl⟩
  rw [if_neg isRight] at stored
  rw [if_neg isRight, if_neg isRight]
  by_cases isBackspace : e.key = Term.termKeyBackspace
  · rw [if_pos isBackspace] at apart
    rw [if_pos isBackspace, if_pos isBackspace, backspace_spec fit apart]
    exact ⟨true, rfl⟩
  rw [if_neg isBackspace] at apart stored
  rw [if_neg isBackspace, if_neg isBackspace]
  by_cases isDelete : e.key = Term.termKeyDelete
  · rw [if_pos isDelete] at apart
    rw [if_pos isDelete, if_pos isDelete, deleteKey_spec fit apart]
    exact ⟨true, rfl⟩
  rw [if_neg isDelete] at apart stored
  rw [if_neg isDelete, if_neg isDelete]
  by_cases isEnter : e.key = Term.termKeyEnter ∧ (c.showing f).submit = true
  · have notTyped : ¬ Field.types e = true := by
      rw [types_iff, isEnter.1]
      intro isTyped
      exact absurd isTyped.1 (by decide)
    rw [if_pos isEnter, if_neg notTyped]
    exact ⟨true, rfl⟩
  rw [if_neg isEnter]
  by_cases isTyped : Field.types e = true
  · have bounds := types_bounds isTyped
    rw [if_pos isTyped] at apart stored
    rw [if_pos ((types_iff e).mp isTyped), if_pos isTyped, memory isTyped,
      typed_spec bounds.1 bounds.2 fit apart stored]
    exact ⟨true, rfl⟩
  · rw [if_neg (fun conditions => isTyped ((types_iff e).mpr conditions)), if_neg isTyped]
    exact ⟨false, rfl⟩

/-! ## The limit -/

/-- A field that a control can show, with a text that is not too long. -/
structure Field.Within (limit : Int) (f f' : Field) : Prop where
  fit : f'.Fit
  length : 0 < limit → ((encode f'.text).length : Int) ≤ max ((encode f.text).length : Int) limit

theorem Field.Fit.within {f' : Field} (fit : f'.Fit)
    (shorter : (encode f'.text).length ≤ (encode f.text).length) : Field.Within limit f f' := by
  constructor
  · exact fit
  · intro _
    omega

theorem Field.Fit.put_within (fit : f.Fit) (e : CTermEvent) (place : Nat) :
    Field.Within limit f ((f.moveStart e).put place) := by
  apply Field.Fit.within ((fit.moveStart e).put place)
  rw [Field.put_text]
  exact Nat.le_refl _

theorem Field.cut_length (f : Field) (readonly : Bool) (le : start ≤ stop) :
    (encode (f.cut readonly start stop).text).length ≤ (encode f.text).length := by
  rw [Field.cut_text]
  split
  · exact Nat.le_refl _
  · have between := offset_between f.text le
    have split := length_offset f.text stop
    rw [encode_append, List.length_append]
    change offset f.text start + _ ≤ _
    omega

theorem Field.Fit.delete_within (fit : f.Fit) (readonly : Bool) (le : start ≤ stop) :
    Field.Within limit f (f.delete readonly (start, stop)) := by
  cases selected : f.selection with
  | some places =>
    obtain ⟨first, last⟩ := places
    have bounds := Field.selection_spec fit selected
    have le' : first ≤ last := Nat.le_of_lt bounds.1
    rw [Field.delete_selected selected]
    exact (fit.cut readonly le').within (f.cut_length readonly le')
  | none =>
    rw [Field.delete_unselected selected]
    exact (fit.cut readonly le).within (f.cut_length readonly le)

theorem Field.delete_unmarked (f : Field) (readonly : Bool) (places : Nat × Nat) :
    (f.delete readonly places).mark = none := by
  cases selected : f.selection with
  | some selection => rw [Field.delete_selected selected]; rfl
  | none => rw [Field.delete_unselected selected]; rfl

theorem Field.insert_within {f' : Field} {readonly : Bool} (large : 0x20 ≤ rune)
    (within : Field.Within limit f f') (unmarked : f'.mark = none) :
    Field.Within limit f (f'.insert readonly limit rune) := by
  unfold Field.insert
  dsimp only
  split
  · exact within
  next inserted =>
    rw [not_or, not_or, not_and_or, not_ne_iff, not_ne_iff] at inserted
    have isText : encode (f'.before ++ [Char.ofNat rune.toNat] ++ f'.after) =
        encode f'.before ++
          (String.utf8EncodeChar (Char.ofNat rune.toNat) ++ encode f'.after) := by
      rw [encode_append, encode_append, encode_singleton, List.append_assoc]
    have isBefore : encode f'.text = encode f'.before ++ encode f'.after := encode_append _ _
    constructor
    · constructor
      · have plain := within.fit.plain
        change 0 ∉ encode (f'.before ++ [Char.ofNat rune.toNat] ++ f'.after)
        rw [isBefore, List.mem_append, not_or] at plain
        rw [isText, List.mem_append, List.mem_append, not_or, not_or]
        exact ⟨plain.1, plain_char (by omega), plain.2⟩
      · intro mark isMark
        change f'.mark = some mark at isMark
        rw [unmarked] at isMark
        cases isMark
    · intro positive
      have size := congrArg List.length isText
      have size' := congrArg List.length isBefore
      rw [List.length_append, List.length_append] at size
      rw [List.length_append] at size'
      change ((encode (f'.before ++ [Char.ofNat rune.toNat] ++ f'.after)).length : Int) ≤ _
      rcases inserted.2.2 with zero | fits
      · omega
      · omega

theorem Field.key_within (fit : f.Fit) (readonly : Bool) (limit : Int) (e : CTermEvent) :
    Field.Within limit f (f.key readonly limit e) := by
  unfold Field.key
  dsimp only
  split
  · exact fit.put_within e 0
  split
  · exact fit.put_within e f.text.length
  split
  · exact fit.delete_within readonly f.wordPlace_spec.1
  split
  · exact fit.put_within e (f.before.length - 1)
  split
  · exact fit.put_within e (f.before.length + 1)
  split
  · split
    · exact fit.unmarked.within (Nat.le_refl _)
    · exact fit.delete_within readonly (Nat.sub_le _ 1)
  split
  · exact fit.delete_within readonly (Nat.le_add_right _ 1)
  split
  · next isTyped =>
      exact Field.insert_within (types_bounds isTyped).1
        (fit.delete_within readonly (Nat.le_refl _)) (f.delete_unmarked readonly _)
  · exact fit.within (Nat.le_refl _)

/-! ## The mouse and the screen -/

theorem cursorAt_spec {top : Nat} (fit : f.Fit) (isTop : c.top = offset f.text top) (x : Int)
    (stored : offset f.text (min (top + (x - c.x).toNat) f.text.length) < 2 ^ 31) :
    htkEntryCursorAt x (c.showing f) = .ok (c.showing
      (f.put (min (top + (x - c.x).toNat) f.text.length))) := by
  have split : f.text.take top ++ f.text.drop top = f.text := List.take_append_drop top f.text
  have plain := fit.plain
  rw [← split] at plain
  have reached := cursorLoop_spec plain (x - c.x).toNat
  rw [split] at reached
  have isPlace : f.text.take top ++ (f.text.drop top).take (x - c.x).toNat =
      f.text.take (min (top + (x - c.x).toNat) f.text.length) := by
    rw [← List.take_add, List.take_eq_take_min]
  unfold htkEntryCursorAt
  change (cursorLoop (encode f.text) (x - c.x).toNat c.top >>= _) = _
  rw [isTop]
  change (cursorLoop (encode f.text) (x - c.x).toNat (encode (f.text.take top)).length >>= _) = _
  rw [reached, isPlace]
  unfold offset at stored
  dsimp only [bind, Except.bind, pure, Except.pure]
  rw [i32_fits stored, ← showing_put]
  rfl

theorem showing_marked (c : HtkCtl) (f : Field) (place : Nat) :
    { c.showing (f.put place) with anchor := ((c.showing (f.put place)).cursor : Int) } =
      c.showing { f.put place with mark := some place } := by
  have isCursor : (c.showing (f.put place)).cursor = offset (f.put place).text place := by
    rw [Field.put_text]
    rfl
  rw [isCursor]
  rfl

theorem showing_released {place : Nat} (fit : f.Fit) (inside : place ≤ f.text.length) :
    (if (c.showing (f.put place)).anchor = (c.showing (f.put place)).cursor then
        { c.showing (f.put place) with anchor := -1 }
      else c.showing (f.put place)) =
      c.showing { f.put place with mark := if f.mark = some place then none else f.mark } := by
  have isCursor : (c.showing (f.put place)).cursor = offset f.text place := rfl
  have abs := (fit.put place).abs (c := c)
  cases isMark : f.mark with
  | none =>
    have isAnchor : (c.showing (f.put place)).anchor = -1 := abs.unmarked isMark
    rw [isAnchor, isCursor, if_neg (by omega), ite_self, ← isMark]
    rfl
  | some mark =>
    have isAnchor := abs.marked mark isMark
    rw [Field.put_text] at isAnchor
    have anchor : (c.showing (f.put place)).anchor = (offset f.text mark : Int) := isAnchor.2
    rw [anchor, isCursor]
    by_cases same : mark = place
    · rw [same, if_pos rfl, if_pos rfl]
      rfl
    · have other : ¬ (offset f.text mark : Int) = (offset f.text place : Int) := by
        intro same'
        exact same (encode_take_inj isAnchor.1 inside (by exact_mod_cast same'))
      have other' : ¬ some mark = some place := fun same' => same (Option.some.inj same')
      rw [if_neg other, if_neg other', ← isMark]
      rfl

/-- A code point that is cut off ends in front of the terminator. -/
theorem termRuneNext_inside (inside : i < text.length) :
    ∃ next, termRuneNext text i = .ok next ∧ i < next ∧ next ≤ text.length := by
  unfold termRuneNext decodeAt
  rw [if_pos (Nat.le_of_lt inside)]
  cases read : utf8DecodeRune (((text ++ [0]).drop i).take 4) with
  | none => exact ⟨i + 1, rfl, by omega, by omega⟩
  | some result =>
    obtain ⟨consumed, rune⟩ := result
    have positive := utf8DecodeRune_positive read
    obtain ⟨ch, _, size, isPrefix⟩ := utf8DecodeRune_sound read
    dsimp only [bind, Except.bind]
    rw [if_neg (by omega)]
    refine ⟨i + consumed, rfl, by omega, ?_⟩
    by_contra beyond
    -- the terminator is a later byte of the encoding
    have isByte : (String.utf8EncodeChar ch)[text.length - i]? = some 0 := by
      obtain ⟨more, isWhole⟩ := isPrefix.trans (List.take_prefix 4 _)
      have isLeft : (String.utf8EncodeChar ch ++ more)[text.length - i]? =
          (String.utf8EncodeChar ch)[text.length - i]? := List.getElem?_append_left (by omega)
      rw [← isLeft, isWhole, List.getElem?_drop,
        Nat.add_sub_cancel' (Nat.le_of_lt inside), List.getElem?_concat_length]
    obtain ⟨first, rest, isWord, _, continues⟩ := encode_continues ch
    rw [isWord, List.getElem?_cons, if_neg (by omega)] at isByte
    have bounds := continues 0 (List.mem_of_getElem? isByte)
    have isZero : (0 : UInt8).toNat = 0 := rfl
    omega

theorem byteAt_upTo (inside : i ≤ text.length) :
    ∃ byte, byteAt text i = .ok byte ∧ (byte ≠ 0 → i < text.length) := by
  by_cases atEnd : i = text.length
  · refine ⟨0, ?_, fun other => absurd rfl other⟩
    unfold byteAt
    rw [List.getElem?_eq_none (by omega)]
    exact if_pos atEnd
  · exact ⟨_, byteAt_inside (by omega), fun _ => by omega⟩

theorem drawLoop_inside (left x cursorAt : Nat) (inside : i ≤ c.text.length) :
    ∃ result, drawLoop c left i x cursorAt = .ok result := by
  induction left generalizing i x cursorAt with
  | zero =>
    obtain ⟨byte, isByte, _⟩ := byteAt_upTo inside
    rw [drawLoop, isByte]
    exact ⟨_, rfl⟩
  | succ left ih =>
    obtain ⟨byte, isByte, next⟩ := byteAt_upTo inside
    rw [drawLoop, isByte]
    dsimp only [bind, Except.bind]
    by_cases atEnd : byte = 0
    · rw [if_pos atEnd]
      exact ⟨_, rfl⟩
    · obtain ⟨i', isNext, _, inside'⟩ := termRuneNext_inside (next atEnd)
      rw [if_neg atEnd, isNext]
      exact ih _ _ inside'

theorem stepBack_le (f : Field) :
    offset f.text f.before.length - offset f.text (f.before.length - 1) ≤ 4 := by
  cases isBefore : f.before using List.reverseRecOn with
  | nil => exact Nat.sub_le_of_le_add (Nat.le_add_left _ 4)
  | append_singleton front ch =>
    have bounds := encodeChar_length ch
    rw [← isBefore, offset_before, isBefore, List.length_append,
      List.length_singleton, Nat.add_sub_cancel, f.offset_front isBefore, encode_append,
      encode_singleton, List.length_append]
    omega

/-- Drawing is safe for any scroll offset, and changes no other field. -/
theorem htkEntryDraw_spec (c : HtkCtl) (f : Field)
    (stored : (c.showing f).cursor + 4 < 2 ^ 31) : ∃ top, htkEntryDraw (c.showing f) =
    .ok { c.showing f with top := top } := by
  have isStep : htkTextStepBack (c.showing f).text (c.showing f).cursor =
      .ok (offset f.text f.before.length - offset f.text (f.before.length - 1)) :=
    stepBack_field f
  unfold htkEntryDraw
  dsimp only
  have behind : (if (c.showing f).cursor < (c.showing f).top then (c.showing f).cursor
      else (c.showing f).top) ≤ (c.showing f).cursor := by
    split <;> omega
  generalize (if (c.showing f).cursor < (c.showing f).top then (c.showing f).cursor
    else (c.showing f).top) = top at behind ⊢
  have inside : (if top > (c.showing f).text.length then 0 else top) ≤
      min (c.showing f).text.length (c.showing f).cursor := by
    split <;> omega
  generalize (if top > (c.showing f).text.length then 0 else top) = top at inside ⊢
  obtain ⟨result, isDrawn⟩ :=
    drawLoop_inside (c := c.showing f) (c.showing f).w.toNat 0 0 (by omega : top ≤ _)
  rw [isDrawn]
  dsimp only [bind, Except.bind]
  generalize (if (c.showing f).cursor ≥ result.1 then result.2.1 else result.2.2) = cursorAt
  split
  · have step := stepBack_le f
    rw [isStep]
    dsimp only
    rw [i32_fits (by omega)]
    exact ⟨_, rfl⟩
  · exact ⟨_, rfl⟩

/-! ## Runs -/

theorem entryStep_spec {event : Event} (valid : Valid c) (given : event.Given)
    (steady : Steady c event) :
    ∃ c', entryStep c event = .ok c' ∧ Edits c event c' ∧ Limited c event c' ∧ Valid c' := by
  obtain ⟨f, abs⟩ := valid_iff.mp valid
  have isShowing := abs.isShowing.1
  have fit := abs.isShowing.2
  have column_spec {x : Int} (column : SteadyColumn c x) :
      ∃ top ≤ f.text.length, c.top = offset f.text top ∧ htkEntryCursorAt x c = .ok (c.showing
        (f.put (min (top + (x - c.x).toNat) f.text.length))) := by
    obtain ⟨boundary, stored⟩ := column
    rw [abs.text, boundary_encode_iff] at boundary
    obtain ⟨top, inside, isTop⟩ := boundary
    have isReached := cursorAt_spec fit isTop x (stored f abs _ ⟨top, inside, isTop, rfl⟩)
    rw [← isShowing] at isReached
    exact ⟨top, inside, isTop, isReached⟩
  have marked {place : Nat} (inside : place ≤ f.text.length) :
      { f.put place with mark := some place }.Fit := by
    constructor
    · change 0 ∉ encode (f.put place).text
      rw [Field.put_text]
      exact fit.plain
    · intro mark isMark
      cases isMark
      change place ≤ (f.put place).text.length
      rwa [Field.put_text]
  cases event with
  | key e granted =>
    obtain ⟨right, apart, memory, stored⟩ := steady f abs
    have within := Field.key_within fit c.readonly c.high e
    obtain ⟨handled, isHandled⟩ := htkEntryKey_spec (c := c) fit right apart memory stored
    rw [← isShowing] at isHandled
    refine ⟨c.showing (f.key c.readonly c.high e), ?_, ?_, ?_, ?_⟩
    · rw [entryStep, isHandled]
      rfl
    · intro f' abs'
      rw [← abs.unique abs']
      exact within.fit.abs
    · intro positive
      have limited := within.length positive
      rwa [← abs.text] at limited
    · exact valid_iff.mpr ⟨_, within.fit.abs⟩
  | press x =>
    obtain ⟨top, inside, isTop, isReached⟩ := column_spec steady
    have inside' : min (top + (x - c.x).toNat) f.text.length ≤ f.text.length :=
      Nat.min_le_right _ _
    generalize isPlace : min (top + (x - c.x).toNat) f.text.length = place at isReached inside'
    have abs' := (marked inside').abs (c := c)
    have isPressed : entryStep c (.press x) =
        .ok (c.showing { f.put place with mark := some place }) := by
      rw [entryStep, isReached, ← showing_marked]
      rfl
    refine ⟨_, isPressed, ?_, trivial, valid_iff.mpr ⟨_, abs'⟩⟩
    intro f' other
    rw [← abs.unique other]
    exact ⟨place, ⟨top, inside, isTop, isPlace.symm⟩, abs'⟩
  | drag x =>
    obtain ⟨top, inside, isTop, isReached⟩ := column_spec steady
    have abs' := (fit.put (min (top + (x - c.x).toNat) f.text.length)).abs (c := c)
    refine ⟨_, isReached, ?_, trivial, valid_iff.mpr ⟨_, abs'⟩⟩
    intro f' other
    rw [← abs.unique other]
    exact ⟨_, ⟨top, inside, isTop, rfl⟩, abs'⟩
  | release x =>
    obtain ⟨top, inside, isTop, isReached⟩ := column_spec steady
    have inside' : min (top + (x - c.x).toNat) f.text.length ≤ f.text.length :=
      Nat.min_le_right _ _
    generalize isPlace : min (top + (x - c.x).toNat) f.text.length = place at isReached inside'
    have released : { f.put place with
        mark := if f.mark = some place then none else f.mark }.Fit := by
      constructor
      · change 0 ∉ encode (f.put place).text
        rw [Field.put_text]
        exact fit.plain
      · intro mark isMark
        change (if f.mark = some place then none else f.mark) = some mark at isMark
        split at isMark
        · cases isMark
        · exact (fit.put place).mark mark isMark
    have abs' := released.abs (c := c)
    have isReleased : entryStep c (.release x) = .ok (c.showing { f.put place with
        mark := if f.mark = some place then none else f.mark }) := by
      rw [entryStep, isReached, ← showing_released fit inside']
      rfl
    refine ⟨_, isReleased, ?_, trivial, valid_iff.mpr ⟨_, abs'⟩⟩
    intro f' other
    rw [← abs.unique other]
    exact ⟨place, ⟨top, inside, isTop, isPlace.symm⟩, abs'⟩
  | setText source granted =>
    cases source with
    | bytes text =>
      obtain ⟨memory, cursor, anchor⟩ := steady
      have isSet : entryStep c (.setText (.bytes text) granted) = .ok { c with text } := by
        rw [memory]
        rfl
      exact ⟨_, isSet, ⟨text, rfl, rfl⟩, trivial, given.1, given.2, cursor, anchor⟩
    | own place => exact absurd steady id
  | draw =>
    have stored : (c.showing f).cursor + 4 < 2 ^ 31 := by
      rw [← isShowing]
      exact steady
    obtain ⟨top, isDrawn⟩ := htkEntryDraw_spec c f stored
    rw [← isShowing] at isDrawn
    exact ⟨_, isDrawn, rfl, trivial, valid.text, valid.plain, valid.cursor, valid.anchor⟩

/-- In a run of steady events the control keeps its invariant, and each event is the operation on
code points. -/
theorem htkEntry_kept {events : List Event} (valid : Valid c) (given : ∀ e ∈ events, e.Given)
    (steady : AllSteady c events) : Kept c events := by
  induction events generalizing c with
  | nil => exact valid
  | cons event events ih =>
      rw [List.forall_mem_cons] at given
      obtain ⟨c', isStep, edits, limited, valid'⟩ := entryStep_spec valid given.1 steady.1
      exact ⟨valid, c', isStep, edits, limited, ih valid' given.2 (steady.2 c' isStep)⟩

def pressed (key : Term.I64) : Event :=
  .key { CTermEvent.empty with type := .key, key := key } true

theorem entryNew_valid {bytes : List UInt8} (isText : utf8.Text bytes) (plain : 0 ∉ bytes)
    {limit : Int} (isNew : htkEntryNew bytes limit = .ok c) : Valid c := by
  unfold htkEntryNew i32 at isNew
  split at isNew
  · cases isNew
    exact ⟨isText, plain, Pieces.boundary_length isText, Or.inl rfl⟩
  · cases isNew

def emptyEntry : HtkCtl where
  text := []
  cursor := 0
  anchor := -1
  top := 0
  high := 0
  readonly := false
  submit := false
  x := 0
  w := 0

/-- A letter is typed and removed. -/
theorem htkEntry_kept_typed : htkEntryNew [] 0 = .ok emptyEntry ∧
    Kept emptyEntry [pressed 0x61, pressed Term.termKeyBackspace] := by
  have isNew : htkEntryNew [] 0 = .ok emptyEntry := by decide
  refine ⟨isNew, ?_⟩
  have first : Abs emptyEntry ⟨[], [], none⟩ :=
    ⟨rfl, List.not_mem_nil, rfl, fun _ => rfl, fun mark isMark => by cases isMark⟩
  have second : Abs { emptyEntry with text := [0x61], cursor := 1 } ⟨['a'], [], none⟩ :=
    ⟨by decide, by decide, by decide, fun _ => rfl, fun mark isMark => by cases isMark⟩
  apply htkEntry_kept (entryNew_valid .nil List.not_mem_nil isNew)
  · intro event member
    rw [List.mem_cons, List.mem_singleton] at member
    rcases member with rfl | rfl
    · exact trivial
    · exact trivial
  · constructor
    · intro f abs
      rw [abs.unique first]
      refine ⟨?_, ?_, fun _ => rfl, by decide +kernel⟩
      · intro isRight
        exact absurd isRight (by decide)
      · intro start stop isSome
        have places : (⟨[], [], none⟩ : Field).removal
            { CTermEvent.empty with type := .key, key := 0x61 } = none := by
          decide +kernel
        rw [places] at isSome
        cases isSome
    · intro c' isStep
      have isTyped : entryStep emptyEntry (pressed 0x61) =
          .ok { emptyEntry with text := [0x61], cursor := 1 } := by
        decide +kernel
      rw [isTyped] at isStep
      cases isStep
      constructor
      · intro f abs
        rw [abs.unique second]
        refine ⟨?_, ?_, fun _ => rfl, by decide +kernel⟩
        · intro isRight
          exact absurd isRight (by decide)
        · intro start stop isSome
          have places : (⟨['a'], [], none⟩ : Field).removal
              { CTermEvent.empty with type := .key, key := Term.termKeyBackspace } =
                some (0, 1) := by
            decide +kernel
          rw [places] at isSome
          cases isSome
          exact Or.inr (Or.inr (Or.inr (by decide)))
      · intro c'' _
        exact trivial

/-- Right at the end of the text moves the cursor behind the terminator. -/
theorem htkEntry_right_at_end : ¬ ∀ c, Valid c → ∀ events : List Event,
    (∀ e ∈ events, e.Given) → Kept c events := by
  intro kept
  have isText : utf8.Text [0x61] := ascii_text (by decide)
  have isNew : htkEntryNew [0x61] 0 = .ok { emptyEntry with text := [0x61], cursor := 1 } := by
    decide
  have valid := entryNew_valid isText (by decide) isNew
  have given : ∀ e ∈ [pressed Term.termKeyRight], e.Given := by
    intro event member
    rw [List.mem_singleton] at member
    rw [member]
    exact trivial
  obtain ⟨_, c', isStep, _, _, valid'⟩ := kept _ valid _ given
  have isBeyond : entryStep { emptyEntry with text := [0x61], cursor := 1 }
      (pressed Term.termKeyRight) = .ok { emptyEntry with text := [0x61], cursor := 2 } := by
    decide +kernel
  rw [isBeyond] at isStep
  cases isStep
  exact absurd valid'.cursor.le (by decide)

end Aholyc.Htk.Entry
