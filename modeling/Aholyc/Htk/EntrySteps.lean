import Aholyc.Htk.Entry

/-!
# The text entry control on a field (lib/htk/entry.hc)

The control that shows a field is `showing`. The functions that move over the text, find
the selection and remove code points are given on such a control.
-/

namespace Aholyc.Htk.Entry

open Aholyc.Lib
open Aholyc.Term (CTermEvent)
open Aholyc.Text

/-! ## Steps over one code point -/

variable {text : List UInt8} {front back : List Char} {ch : Char}

theorem byteAt_inside {i : Nat} (inside : i < text.length) : byteAt text i = .ok text[i] := by
  unfold byteAt
  rw [List.getElem?_eq_getElem inside]

theorem stepBackLoop_spec {place : Nat} (inside : place < text.length) :
    stepBackLoop text place = .ok (utf8.backTo text place) := by
  induction place with
  | zero => rfl
  | succ place ih =>
    rw [stepBackLoop, Pieces.backTo, byteAt_inside inside, List.getElem?_eq_getElem inside,
      Option.any_some]
    change (if isTrailing text[place + 1] = true then _ else _) =
      Except.ok (if isTrailing text[place + 1] = true then _ else _)
    split
    · exact ih (by omega)
    · rfl

theorem stepBack_spec : htkTextStepBack (encode (front ++ ch :: back))
    (encode (front ++ [ch])).length = .ok (String.utf8EncodeChar ch).length := by
  have positive := (encodeChar_length ch).1
  have size : (encode (front ++ [ch])).length =
      (encode front).length + (String.utf8EncodeChar ch).length := by
    rw [encode_append, encode_singleton, List.length_append]
  have whole : encode (front ++ ch :: back) =
      encode front ++ (String.utf8EncodeChar ch ++ encode back) := by
    rw [encode_append, encode_cons]
  have place : (encode (front ++ [ch])).length - 1 =
      (encode front ++ String.utf8EncodeChar ch).length - 1 := by
    rw [size, List.length_append]
  have inside : (encode (front ++ [ch])).length - 1 < (encode (front ++ ch :: back)).length := by
    rw [whole, List.length_append, List.length_append]
    omega
  have some_ : ¬ (encode (front ++ [ch])).length = 0 := by omega
  unfold htkTextStepBack
  rw [if_neg some_, stepBackLoop_spec inside, whole, place, Pieces.backTo_piece (encode_text front)
    (encodeChar_piece ch) (encode_text back), size]
  change Except.ok _ = Except.ok _
  congr 1
  omega

theorem decodeAt_spec : decodeAt (encode (front ++ ch :: back)) (encode front).length =
    .ok (String.utf8EncodeChar ch).length := by
  have bounds := encodeChar_length ch
  have isRest : ((encode (front ++ ch :: back) ++ [0]).drop (encode front).length).take 4 =
      String.utf8EncodeChar ch ++
        (encode back ++ [0]).take (4 - (String.utf8EncodeChar ch).length) := by
    rw [encode_append, encode_cons, List.append_assoc, List.drop_left, List.append_assoc,
      List.take_append, List.take_of_length_le bounds.2]
  unfold decodeAt
  rw [if_pos (by rw [encode_append, List.length_append]; omega), isRest,
    utf8DecodeRune_complete]

theorem decodeAt_end : decodeAt text text.length = .ok 1 := by
  unfold decodeAt
  rw [if_pos (Nat.le_refl _), List.drop_left]
  rfl

theorem byteAt_start (plain : 0 ∉ encode (front ++ ch :: back)) :
    ∃ byte, byteAt (encode (front ++ ch :: back)) (encode front).length = .ok byte ∧ byte ≠ 0 ∧
      (byte ≤ 0x20 ↔ ch.val ≤ 0x20) := by
  have inside : (encode front).length < (encode (front ++ ch :: back)).length := by
    rw [encode_append, encode_cons, List.length_append, List.length_append]
    have positive := (encodeChar_length ch).1
    omega
  refine ⟨_, byteAt_inside inside, ?_, ?_⟩
  · intro zero
    exact plain (zero ▸ List.getElem_mem inside)
  obtain ⟨first, rest, isWord, small⟩ := encode_head ch
  have isByte : (encode (front ++ ch :: back))[(encode front).length] = first := by
    apply Option.some.inj
    rw [← List.getElem?_eq_getElem inside, encode_append, encode_cons, isWord,
      List.getElem?_append_right (Nat.le_refl _), Nat.sub_self]
    rfl
  rw [isByte, UInt8.le_iff_toNat_le, UInt32.le_iff_toNat_le]
  have blank : (0x20 : UInt8).toNat = 0x20 := rfl
  have blank' : (0x20 : UInt32).toNat = 0x20 := rfl
  omega

/-! ## The loops -/

/-- Back to the first code point from the right that passes the test. -/
theorem wordLoop_spec {stops : UInt8 → Bool} {passes : Char → Bool} (back : List Char)
    {fuel : Nat} (plain : 0 ∉ encode (front ++ back)) (enough : front.length ≤ fuel)
    (same : ∀ front' ch' back', front' ++ ch' :: back' = front ++ back → ∀ byte,
      byteAt (encode (front ++ back)) (encode front').length = .ok byte →
        stops byte = !passes ch') :
    wordLoop stops (encode (front ++ back)) fuel (encode front).length =
      .ok (encode (front.rdropWhile passes)).length := by
  induction front using List.reverseRecOn generalizing fuel back with
  | nil =>
    cases fuel with
    | zero => rfl
    | succ fuel => rfl
  | append_singleton front ch ih =>
    rw [List.length_append, List.length_singleton] at enough
    cases fuel with
    | zero => omega
    | succ fuel =>
      have whole : front ++ [ch] ++ back = front ++ ch :: back := by
        rw [List.append_assoc, List.singleton_append]
      rw [whole] at plain same ⊢
      have size : (encode (front ++ [ch])).length =
          (encode front).length + (String.utf8EncodeChar ch).length := by
        rw [encode_append, encode_singleton, List.length_append]
      have positive := (encodeChar_length ch).1
      have some_ : ¬ (encode (front ++ [ch])).length = 0 := by omega
      have start : (encode (front ++ [ch])).length - (String.utf8EncodeChar ch).length =
          (encode front).length := by omega
      obtain ⟨byte, isByte, _, _⟩ := byteAt_start plain
      have isStop := same front ch back rfl byte isByte
      rw [wordLoop, if_neg some_, stepBack_spec]
      dsimp only [bind, Except.bind]
      rw [start, isByte]
      dsimp only
      rw [isStop]
      by_cases passed : passes ch = true
      · rw [passed, if_neg (by decide), List.rdropWhile_concat_pos _ _ _ passed]
        exact ih (ch :: back) plain (by omega) same
      · rw [Bool.eq_false_iff.mpr passed, if_pos (by decide : (!false) = true),
          List.rdropWhile_concat_neg _ _ _ passed]
        rfl

theorem wordStart_spec (plain : 0 ∉ encode (front ++ back)) :
    wordStart (encode (front ++ back)) (encode front).length =
      .ok (encode ((front.rdropWhile (·.val ≤ 0x20)).rdropWhile (·.val > 0x20))).length := by
  have blank_iff {front' back' : List Char} {ch' : Char}
      (isSplit : front' ++ ch' :: back' = front ++ back) {byte : UInt8}
      (isByte : byteAt (encode (front ++ back)) (encode front').length = .ok byte) :
      byte ≤ 0x20 ↔ ch'.val ≤ 0x20 := by
    rw [← isSplit] at isByte plain
    obtain ⟨byte', isByte', _, same⟩ := byteAt_start plain
    rw [isByte] at isByte'
    cases isByte'
    exact same
  have first : wordLoop (· > 0x20) (encode (front ++ back)) (encode front).length
      (encode front).length = .ok (encode (front.rdropWhile (·.val ≤ 0x20))).length := by
    apply wordLoop_spec back plain (encode_length_le front)
    intro front' ch' back' isSplit byte isByte
    have same := blank_iff isSplit isByte
    rw [Bool.eq_iff_iff, decide_eq_true_iff, Bool.not_eq_true', decide_eq_false_iff_not, ← same]
    exact UInt8.not_le.symm
  obtain ⟨blanks, isFront⟩ := List.rdropWhile_prefix (fun ch : Char => decide (ch.val ≤ 0x20)) front
  unfold wordStart
  rw [first]
  dsimp only [bind, Except.bind]
  generalize front.rdropWhile (fun ch : Char => decide (ch.val ≤ 0x20)) = word at isFront ⊢
  have whole : front ++ back = word ++ (blanks ++ back) := by
    rw [← List.append_assoc, isFront]
  rw [whole] at plain blank_iff ⊢
  apply wordLoop_spec (blanks ++ back) plain (encode_length_le _)
  intro front' ch' back' isSplit byte isByte
  have same := blank_iff isSplit isByte
  rw [Bool.eq_iff_iff, decide_eq_true_iff, Bool.not_eq_true', decide_eq_false_iff_not, same]
  exact UInt32.not_lt.symm

/-! ## The mouse and the screen -/

theorem cursorLoop_spec (plain : 0 ∉ encode (front ++ back)) (want : Nat) :
    cursorLoop (encode (front ++ back)) want (encode front).length =
      .ok (encode (front ++ back.take want)).length := by
  induction want generalizing front back with
  | zero =>
    rw [List.take_zero, List.append_nil]
    rfl
  | succ want ih =>
    rw [cursorLoop]
    cases back with
    | nil =>
      rw [List.append_nil, List.take_nil, List.append_nil]
      unfold byteAt
      rw [List.getElem?_eq_none (Nat.le_refl _)]
      dsimp only
      rw [if_pos rfl]
      rfl
    | cons ch back =>
      obtain ⟨byte, isByte, some_, _⟩ := byteAt_start plain
      have positive := (encodeChar_length ch).1
      have next : (encode front).length + (String.utf8EncodeChar ch).length =
          (encode (front ++ [ch])).length := by
        rw [encode_append, encode_singleton, List.length_append]
      have whole : front ++ ch :: back = front ++ [ch] ++ back := by
        rw [List.append_assoc, List.singleton_append]
      have isNext : termRuneNext (encode (front ++ ch :: back)) (encode front).length =
          .ok (encode (front ++ [ch])).length := by
        unfold termRuneNext
        rw [decodeAt_spec]
        dsimp only [bind, Except.bind]
        rw [if_neg (by omega), next]
        rfl
      rw [isByte]
      dsimp only [bind, Except.bind]
      rw [if_neg some_, isNext]
      dsimp only
      rw [whole] at plain ⊢
      rw [ih plain, List.take_succ_cons, List.append_assoc, List.singleton_append]

/-! ## The control of a field -/

def offset (t : List Char) (place : Nat) : Nat := (encode (t.take place)).length

structure Field.Fit (f : Field) : Prop where
  plain : 0 ∉ encode f.text
  mark : ∀ mark, f.mark = some mark → mark ≤ f.text.length

def HtkCtl.showing (c : HtkCtl) (f : Field) : HtkCtl :=
  { c with
    text := encode f.text
    cursor := (encode f.before).length
    anchor := f.mark.elim (-1) (fun mark => (offset f.text mark : Int)) }

variable {c : HtkCtl} {f : Field} {t : List Char} {start stop : Nat}

theorem Abs.isShowing (abs : Abs c f) : c = c.showing f ∧ f.Fit := by
  have isText := abs.text
  have isCursor := abs.cursor
  have isAnchor : c.anchor = f.mark.elim (-1) (fun mark => (offset f.text mark : Int)) := by
    cases isMark : f.mark with
    | none => exact abs.unmarked isMark
    | some mark => exact (abs.marked mark isMark).2
  constructor
  · unfold HtkCtl.showing
    rw [← isText, ← isCursor, ← isAnchor]
  · constructor
    · rw [← isText]
      exact abs.plain
    · intro mark isMark
      exact (abs.marked mark isMark).1

theorem Field.Fit.abs (fit : f.Fit) : Abs (c.showing f) f := by
  constructor
  · rfl
  · exact fit.plain
  · rfl
  · intro unmarked
    change f.mark.elim (-1) _ = _
    rw [unmarked]
    rfl
  · intro mark isMark
    constructor
    · exact fit.mark mark isMark
    · change f.mark.elim (-1) _ = _
      rw [isMark]
      rfl

theorem Abs.unique {f' : Field} (abs : Abs c f) (abs' : Abs c f') : f = f' := by
  have isText : f.text = f'.text := encode_injective (abs.text.symm.trans abs'.text)
  have isBefore : f.before = f'.before :=
    encode_prefix_inj isText (abs.cursor.symm.trans abs'.cursor)
  have isAfter : f.after = f'.after := by
    unfold Field.text at isText
    rw [isBefore] at isText
    exact List.append_cancel_left isText
  have isMark : f.mark = f'.mark := by
    cases marked : f.mark with
    | none =>
      cases marked' : f'.mark with
      | none => rfl
      | some mark' =>
        have first := abs.unmarked marked
        have second := (abs'.marked mark' marked').2
        omega
    | some mark =>
      cases marked' : f'.mark with
      | none =>
        have first := (abs.marked mark marked).2
        have second := abs'.unmarked marked'
        omega
      | some mark' =>
        have first := abs.marked mark marked
        have second := abs'.marked mark' marked'
        rw [isText] at first
        congr 1
        apply encode_take_inj first.1 second.1
        omega
  cases f
  cases f'
  congr 1

theorem valid_iff : Valid c ↔ ∃ f, Abs c f := by
  constructor
  · intro valid
    obtain ⟨t, isText⟩ := text_encode valid.text
    have cursor := valid.cursor
    rw [← isText, boundary_encode_iff] at cursor
    obtain ⟨place, inside, isCursor⟩ := cursor
    have plain := valid.plain
    rcases valid.anchor with unmarked | ⟨anchor, isAnchor, boundary⟩
    · refine ⟨⟨t.take place, t.drop place, none⟩, ?_, plain, isCursor, fun _ => unmarked, ?_⟩
      · rw [← isText, Field.text, List.take_append_drop]
      · intro mark isMark
        cases isMark
    · rw [← isText, boundary_encode_iff] at boundary
      obtain ⟨mark, inside', isMark⟩ := boundary
      refine ⟨⟨t.take place, t.drop place, some mark⟩, ?_, plain, isCursor, ?_, ?_⟩
      · rw [← isText, Field.text, List.take_append_drop]
      · intro unmarked
        cases unmarked
      · intro mark' isMark'
        cases isMark'
        rw [Field.text, List.take_append_drop, isAnchor, isMark]
        exact ⟨inside', rfl⟩
  · rintro ⟨f, abs⟩
    have cursor : utf8.Boundary (encode f.text) c.cursor := by
      rw [boundary_encode_iff]
      refine ⟨f.before.length, ?_, ?_⟩
      · rw [Field.text, List.length_append]
        omega
      · rw [Field.text, List.take_left]
        exact abs.cursor
    refine ⟨?_, abs.plain, ?_, ?_⟩
    · rw [abs.text]
      exact encode_text f.text
    · rwa [abs.text]
    · cases isMark : f.mark with
      | none => exact Or.inl (abs.unmarked isMark)
      | some mark =>
        have isAnchor := abs.marked mark isMark
        refine Or.inr ⟨_, isAnchor.2, ?_⟩
        rw [abs.text, boundary_encode_iff]
        exact ⟨mark, isAnchor.1, rfl⟩

/-! ## Places in the text -/

theorem offset_length (t : List Char) : offset t t.length = (encode t).length := by
  unfold offset
  rw [List.take_length]

theorem offset_before (f : Field) : offset f.text f.before.length = (encode f.before).length := by
  unfold offset Field.text
  rw [List.take_left]

theorem encode_split (t : List Char) (place : Nat) :
    encode t = encode (t.take place) ++ encode (t.drop place) := by
  rw [← encode_append, List.take_append_drop]

theorem take_offset (t : List Char) (place : Nat) :
    (encode t).take (offset t place) = encode (t.take place) := by
  rw [encode_split t place]
  exact List.take_left

theorem drop_offset (t : List Char) (place : Nat) :
    (encode t).drop (offset t place) = encode (t.drop place) := by
  rw [encode_split t place]
  exact List.drop_left

theorem offset_between (t : List Char) (le : start ≤ stop) :
    offset t stop = offset t start + (encode ((t.take stop).drop start)).length := by
  have split := encode_split (t.take stop) start
  rw [List.take_take, Nat.min_eq_left le] at split
  unfold offset
  rw [split, List.length_append]

theorem length_offset (t : List Char) (place : Nat) :
    (encode t).length = offset t place + (encode (t.drop place)).length := by
  rw [encode_split t place, List.length_append]
  rfl

theorem Field.before_le (f : Field) : f.before.length ≤ f.text.length := by
  rw [Field.text, List.length_append]
  omega

theorem Field.take_before (f : Field) : f.text.take f.before.length = f.before := by
  rw [Field.text, List.take_left]

theorem Field.drop_before (f : Field) : f.text.drop f.before.length = f.after := by
  rw [Field.text, List.drop_left]

theorem Field.put_text (f : Field) (place : Nat) : (f.put place).text = f.text :=
  List.take_append_drop place f.text

theorem Field.Fit.put (fit : f.Fit) (place : Nat) : (f.put place).Fit := by
  constructor
  · rw [Field.put_text]
    exact fit.plain
  · rw [Field.put_text]
    exact fit.mark

theorem showing_put (place : Nat) :
    { c.showing f with cursor := offset f.text place } = c.showing (f.put place) := by
  unfold HtkCtl.showing
  rw [Field.put_text]
  rfl

/-! ## Selection and deletion -/

theorem offset_lt (less : start < stop) (inside : stop ≤ t.length) :
    offset t start < offset t stop :=
  encode_take_lt less inside

theorem Field.selection_spec {start stop : Nat} (fit : f.Fit)
    (selected : f.selection = some (start, stop)) :
    start < stop ∧ stop ≤ f.text.length ∧ (f.before.length = start ∨ f.before.length = stop) := by
  unfold Field.selection at selected
  have inside := f.before_le
  cases isMark : f.mark with
  | none =>
    rw [isMark] at selected
    cases selected
  | some mark =>
    have inside' := fit.mark mark isMark
    rw [isMark] at selected
    dsimp only at selected
    by_cases same : mark = f.before.length
    · rw [if_pos same] at selected
      cases selected
    · rw [if_neg same] at selected
      cases selected
      omega

theorem selected_spec (fit : f.Fit) : htkTextSelected (c.showing f) =
    f.selection.map (fun places => (offset f.text places.1, offset f.text places.2)) := by
  have inside := f.before_le
  have isCursor : (c.showing f).cursor = offset f.text f.before.length := (offset_before f).symm
  cases isMark : f.mark with
  | none =>
    have isAnchor : (c.showing f).anchor = -1 := fit.abs.unmarked isMark
    unfold htkTextSelected Field.selection
    rw [isAnchor, isMark]
    rfl
  | some mark =>
    have inside' := fit.mark mark isMark
    have isAnchor : (c.showing f).anchor = (offset f.text mark : Int) :=
      (fit.abs.marked mark isMark).2
    unfold htkTextSelected Field.selection
    rw [isAnchor, isCursor, isMark]
    dsimp only
    by_cases same : mark = f.before.length
    · rw [if_pos same, if_pos (Or.inr (by rw [same]))]
      rfl
    rw [if_neg same, Option.map_some]
    dsimp only
    by_cases below : mark < f.before.length
    · have less := offset_lt below inside
      rw [if_neg (by omega), if_neg (by omega), Int.toNat_natCast,
        Nat.min_eq_left (Nat.le_of_lt below), Nat.max_eq_right (Nat.le_of_lt below)]
    · have less : offset f.text f.before.length < offset f.text mark :=
        offset_lt (by omega) inside'
      have above : f.before.length ≤ mark := by omega
      rw [if_neg (by omega), if_pos (by omega), Int.toNat_natCast,
        Nat.min_eq_right above, Nat.max_eq_left above]

theorem HtkCtl.self {bytes : List UInt8} {place : Nat} (isText : c.text = bytes)
    (isCursor : c.cursor = place) : { c with text := bytes, cursor := place } = c := by
  rw [← isText, ← isCursor]

/-- Code points are removed, and the cursor is at the place. -/
theorem htkTextDelete_spec (isText : c.text = encode t) (le : start ≤ stop)
    (inside : stop ≤ t.length) (ends : c.cursor = offset t start ∨ c.cursor = offset t stop)
    (apart : c.readonly = true ∨ stop ≤ start ∨ t.length ≤ start ∨
      (encode (t.drop stop)).length < (encode ((t.take stop).drop start)).length) :
    htkTextDelete (offset t start) (offset t stop - offset t start) c =
      .ok (if c.readonly then c
        else { c with
          text := encode (t.take start ++ t.drop stop)
          cursor := offset t start }) := by
  unfold htkTextDelete
  by_cases readonly : c.readonly = true
  · rw [if_pos (Or.inl readonly), if_pos readonly]
  rw [if_neg readonly]
  by_cases same : start = stop
  · rw [same, or_self] at ends
    rw [same, List.take_append_drop, if_pos (by omega), HtkCtl.self isText ends]
  have less : offset t start < offset t stop := offset_lt (by omega) inside
  have total := length_offset t stop
  have middle := offset_between t le
  have longer : (encode (t.drop stop)).length < (encode ((t.take stop).drop start)).length := by
    rcases apart with readonly' | none | none | longer
    · exact absurd readonly' readonly
    · omega
    · omega
    · exact longer
  have join : offset t start + (offset t stop - offset t start) = offset t stop := by omega
  have some_ : ¬ (c.readonly = true ∨ offset t stop - offset t start < 1 ∨
      offset t start ≥ (encode t).length) := by
    rintro (readonly' | none | none)
    · exact readonly readonly'
    · omega
    · omega
  rw [isText, join, if_neg some_, if_neg (by omega), if_neg (by omega), take_offset,
    drop_offset, ← encode_append]
  congr 2
  rcases ends with atStart | atStop
  · rw [atStart, if_neg (Nat.lt_irrefl _)]
  · rw [atStop, if_pos less]

/-! ## What is removed -/

theorem Field.cut_text (readonly : Bool) : (f.cut readonly start stop).text =
    if readonly then f.text else f.text.take start ++ f.text.drop stop := by
  unfold Field.cut Field.text
  cases readonly with
  | false => rfl
  | true => exact List.take_append_drop start (f.before ++ f.after)

theorem plain_sublist {other : List Char} (sub : other.Sublist t) (plain : 0 ∉ encode t) :
    0 ∉ encode other := by
  unfold encode at plain ⊢
  rw [List.mem_flatMap] at plain ⊢
  rintro ⟨ch, member, zero⟩
  exact plain ⟨ch, sub.subset member, zero⟩

theorem Field.Fit.cut (fit : f.Fit) (readonly : Bool) (le : start ≤ stop) :
    (f.cut readonly start stop).Fit := by
  constructor
  · rw [Field.cut_text]
    split
    · exact fit.plain
    · apply plain_sublist _ fit.plain
      have split : f.text = f.text.take start ++ f.text.drop start :=
        (List.take_append_drop start f.text).symm
      conv => rhs; rw [split]
      exact List.Sublist.append_left (List.drop_sublist_drop_left f.text le) _
  · intro mark isMark
    cases isMark

theorem showing_cut (readonly : c.readonly = false) :
    { c.showing f with
      text := encode (f.text.take start ++ f.text.drop stop)
      cursor := offset f.text start
      anchor := -1 } = c.showing (f.cut c.readonly start stop) := by
  rw [readonly]
  rfl

theorem showing_cut_readonly (readonly : c.readonly = true) :
    { c.showing f with cursor := offset f.text start, anchor := -1 } =
      c.showing (f.cut c.readonly start stop) := by
  unfold HtkCtl.showing
  rw [Field.cut_text, readonly]
  rfl

/-- The selection is removed if there is one; the mark is gone. -/
theorem deleteSelection_spec (fit : f.Fit) (apart : f.Apart c.readonly f.selection) :
    htkTextDeleteSelection (c.showing f) =
      .ok (f.selection.isSome, c.showing (f.selection.elim { f with mark := none }
        (fun places => f.cut c.readonly places.1 places.2))) := by
  unfold htkTextDeleteSelection
  rw [selected_spec fit]
  cases selected : f.selection with
  | none => rfl
  | some places =>
    obtain ⟨start, stop⟩ := places
    have bounds := Field.selection_spec fit selected
    have ends : offset f.text stop = offset f.text start ∨
        offset f.text stop = offset f.text stop := Or.inr rfl
    have deleted := htkTextDelete_spec (c := { c.showing f with cursor := offset f.text stop })
      (t := f.text) rfl (Nat.le_of_lt bounds.1) bounds.2.1 ends (apart start stop selected)
    dsimp only [Option.map_some, Option.elim_some]
    rw [deleted]
    dsimp only [bind, Except.bind, pure, Except.pure]
    change Except.ok (true, _) = Except.ok (true, _)
    congr 2
    by_cases readonly : c.readonly = true
    · rw [if_pos (show (c.showing f).readonly = true from readonly)]
      exact showing_cut_readonly readonly
    · rw [if_neg (show ¬ (c.showing f).readonly = true from readonly)]
      exact showing_cut (Bool.eq_false_iff.mpr readonly)

/-! ## Movement -/

theorem Field.Fit.moveStart (fit : f.Fit) (e : CTermEvent) : (f.moveStart e).Fit := by
  constructor
  · exact fit.plain
  intro mark isMark
  have inside := f.before_le
  unfold Field.moveStart at isMark
  dsimp only at isMark
  split at isMark
  · cases isMark
    cases marked : f.mark with
    | none => exact inside
    | some mark => exact fit.mark mark marked
  · cases isMark

theorem moveStart_spec (fit : f.Fit) (e : CTermEvent) :
    htkTextMoveStart e (c.showing f) = c.showing (f.moveStart e) := by
  unfold htkTextMoveStart Field.moveStart
  by_cases shift : hasMod e Term.termModShift = true
  · rw [if_pos shift, if_pos shift]
    cases isMark : f.mark with
    | none =>
      have isAnchor : (c.showing f).anchor = -1 := fit.abs.unmarked isMark
      rw [isAnchor, if_pos (by decide)]
      unfold HtkCtl.showing
      dsimp only [Option.getD_none, Option.elim_some]
      rw [← offset_before]
      rfl
    | some mark =>
      have isAnchor : (c.showing f).anchor = (offset f.text mark : Int) :=
        (fit.abs.marked mark isMark).2
      rw [isAnchor, if_neg (by omega), Option.getD_some]
      congr 1
      cases f
      congr 1
  · rw [if_neg shift, if_neg shift]
    rfl

theorem moved_spec (fit : f.Fit) (e : CTermEvent) (place : Nat) :
    { htkTextMoveStart e (c.showing f) with cursor := offset f.text place } =
      c.showing ((f.moveStart e).put place) := by
  rw [moveStart_spec fit]
  exact showing_put (f := f.moveStart e) place

theorem Field.offset_front (isBefore : f.before = front ++ [ch]) :
    offset f.text front.length = (encode front).length := by
  unfold offset
  rw [Field.text, isBefore, List.append_assoc, List.take_left]

/-- The step to the left is to the code point in front of the cursor. -/
theorem stepBack_field (f : Field) : htkTextStepBack (encode f.text) (encode f.before).length =
    .ok (offset f.text f.before.length - offset f.text (f.before.length - 1)) := by
  cases isBefore : f.before using List.reverseRecOn with
  | nil =>
    rw [List.length_nil, Nat.zero_sub, Nat.sub_self]
    rfl
  | append_singleton front ch =>
    have isText : f.text = front ++ ch :: f.after := by
      rw [Field.text, isBefore, List.append_assoc, List.singleton_append]
    have isFront := f.offset_front isBefore
    have isPlace : offset f.text (front ++ [ch]).length =
        (encode front).length + (String.utf8EncodeChar ch).length := by
      rw [← isBefore, offset_before, isBefore, encode_append, encode_singleton,
        List.length_append]
    have isLast : (front ++ [ch]).length - 1 = front.length := by
      rw [List.length_append, List.length_singleton, Nat.add_sub_cancel]
    rw [isPlace, isLast, isFront, Nat.add_sub_cancel_left, isText, stepBack_spec]

theorem stepAhead_field (inside : f.after ≠ []) : htkTextStepAhead (c.showing f) =
    .ok (offset f.text (f.before.length + 1) - offset f.text f.before.length) := by
  cases isAfter : f.after with
  | nil => exact absurd isAfter inside
  | cons ch back =>
    have isText : f.text = f.before ++ ch :: back := by
      rw [Field.text, isAfter]
    have isNext : offset f.text (f.before.length + 1) =
        (encode f.before).length + (String.utf8EncodeChar ch).length := by
      unfold offset
      rw [isText, List.take_append, List.take_of_length_le (by omega), Nat.add_sub_cancel_left,
        List.take_one, List.head?_cons, encode_append, List.length_append, Option.toList_some,
        encode_singleton]
    have positive := (encodeChar_length ch).1
    unfold htkTextStepAhead
    change (decodeAt (encode f.text) (encode f.before).length >>= _) = _
    rw [isNext, offset_before, Nat.add_sub_cancel_left, isText, decodeAt_spec]
    dsimp only [bind, Except.bind]
    rw [if_neg (by omega)]
    rfl

theorem stepAhead_end (atEnd : f.after = []) : htkTextStepAhead (c.showing f) = .ok 1 := by
  have isText : encode f.before = encode f.text := by
    rw [Field.text, atEnd, List.append_nil]
  unfold htkTextStepAhead
  change (decodeAt (encode f.text) (encode f.before).length >>= _) = _
  rw [isText, decodeAt_end]
  rfl

/-! ## Removal by a key -/

theorem Field.cut_nothing (f : Field) (readonly : Bool) :
    f.cut readonly f.before.length f.before.length = { f with mark := none } := by
  unfold Field.cut
  rw [f.take_before, f.drop_before, ite_self]

theorem Field.delete_selected {places : Nat × Nat} (selected : f.selection = some places)
    (readonly : Bool) (others : Nat × Nat) :
    f.delete readonly others = f.cut readonly places.1 places.2 := by
  unfold Field.delete
  rw [selected]

theorem Field.delete_unselected (selected : f.selection = none) (readonly : Bool)
    (places : Nat × Nat) : f.delete readonly places = f.cut readonly places.1 places.2 := by
  unfold Field.delete
  rw [selected]

def Field.unmarked (f : Field) : Field := { f with mark := none }

theorem Field.Fit.unmarked (fit : f.Fit) : f.unmarked.Fit := by
  constructor
  · exact fit.plain
  · intro mark isMark
    cases isMark

/-- Without a selection, a key removes code points at the cursor. -/
theorem delete_places (le : start ≤ stop) (inside : stop ≤ f.text.length)
    (ends : f.before.length = start ∨ f.before.length = stop)
    (apart : f.Apart c.readonly (some (start, stop))) :
    htkTextDelete (offset f.text start) (offset f.text stop - offset f.text start)
      (c.showing f.unmarked) = .ok (if c.readonly then c.showing f.unmarked
        else c.showing (f.cut c.readonly start stop)) := by
  have isCursor : (c.showing f.unmarked).cursor = offset f.text f.before.length :=
    (offset_before f).symm
  have ends' : (c.showing f.unmarked).cursor = offset f.text start ∨
      (c.showing f.unmarked).cursor = offset f.text stop := by
    rw [isCursor]
    rcases ends with isStart | isStop
    · rw [isStart]
      exact Or.inl rfl
    · rw [isStop]
      exact Or.inr rfl
  rw [htkTextDelete_spec (c := c.showing f.unmarked) (t := f.text) rfl le inside ends'
    (apart start stop rfl)]
  congr 1
  by_cases readonly : c.readonly = true
  · rw [if_pos readonly, if_pos (show (c.showing f.unmarked).readonly = true from readonly)]
  · rw [if_neg readonly, if_neg (show ¬ (c.showing f.unmarked).readonly = true from readonly)]
    exact showing_cut (f := f.unmarked) (Bool.eq_false_iff.mpr readonly)

theorem deleteSelection_none (fit : f.Fit) (selected : f.selection = none) :
    htkTextDeleteSelection (c.showing f) = .ok (false, c.showing f.unmarked) := by
  rw [deleteSelection_spec fit (by rw [selected]; intro start stop isSome; cases isSome), selected]
  rfl

theorem deleteSelection_some {places : Nat × Nat} (fit : f.Fit)
    (selected : f.selection = some places) (apart : f.Apart c.readonly (some places)) :
    htkTextDeleteSelection (c.showing f) =
      .ok (true, c.showing (f.cut c.readonly places.1 places.2)) := by
  rw [deleteSelection_spec fit (by rw [selected]; exact apart), selected]
  rfl

theorem Field.wordPlace_spec (f : Field) : f.wordPlace ≤ f.before.length ∧
    offset f.text f.wordPlace =
      (encode ((f.before.rdropWhile (·.val ≤ 0x20)).rdropWhile (·.val > 0x20))).length := by
  have isFront := (List.rdropWhile_prefix (fun ch : Char => decide (ch.val > 0x20))
    (f.before.rdropWhile (·.val ≤ 0x20))).trans
      (List.rdropWhile_prefix (fun ch : Char => decide (ch.val ≤ 0x20)) f.before)
  unfold Field.wordPlace offset
  generalize (f.before.rdropWhile (·.val ≤ 0x20)).rdropWhile (·.val > 0x20) = word at isFront ⊢
  obtain ⟨rest, isBefore⟩ := isFront
  constructor
  · rw [← isBefore, List.length_append]
    omega
  · rw [Field.text, ← isBefore, List.append_assoc, List.take_left]

theorem deleteWord_spec (fit : f.Fit)
    (apart : f.Apart c.readonly (some (f.selection.getD (f.wordPlace, f.before.length)))) :
    deleteWord (c.showing f) =
      .ok (c.showing (f.delete c.readonly (f.wordPlace, f.before.length))) := by
  unfold deleteWord
  cases selected : f.selection with
  | some places =>
    rw [selected] at apart
    rw [deleteSelection_some fit selected apart, Field.delete_selected selected]
    rfl
  | none =>
    rw [selected] at apart
    have word := f.wordPlace_spec
    have isStart : wordStart (c.showing f.unmarked).text (c.showing f.unmarked).cursor =
        .ok (offset f.text f.wordPlace) := by
      rw [word.2]
      exact wordStart_spec fit.plain
    have isCursor : (c.showing f.unmarked).cursor = offset f.text f.before.length :=
      (offset_before f).symm
    rw [deleteSelection_none fit selected, Field.delete_unselected selected]
    dsimp only [bind, Except.bind]
    rw [if_neg (by decide), isStart, isCursor]
    dsimp only
    rw [delete_places word.1 f.before_le (Or.inr rfl) apart]
    dsimp only [pure, Except.pure]
    congr 1
    by_cases readonly : c.readonly = true
    · rw [if_pos readonly]
      exact showing_cut_readonly (f := f) readonly
    · rw [if_neg readonly]
      rfl

theorem backspace_spec (fit : f.Fit)
    (apart : f.Apart c.readonly
      (some (f.selection.getD (f.before.length - 1, f.before.length)))) :
    backspace (c.showing f) = .ok (c.showing
      (if c.readonly ∧ f.selection = none then f.unmarked
      else f.delete c.readonly (f.before.length - 1, f.before.length))) := by
  unfold backspace
  cases selected : f.selection with
  | some places =>
    rw [selected] at apart
    rw [deleteSelection_some fit selected apart, Field.delete_selected selected, if_neg (by simp)]
    rfl
  | none =>
    rw [selected] at apart
    have isStep : htkTextStepBack (c.showing f.unmarked).text (c.showing f.unmarked).cursor =
        .ok (offset f.text f.before.length - offset f.text (f.before.length - 1)) :=
      stepBack_field f
    have le : offset f.text (f.before.length - 1) ≤ offset f.text f.before.length :=
      encode_take_le (by omega) f.before_le
    have isPlace : (c.showing f.unmarked).cursor -
        (offset f.text f.before.length - offset f.text (f.before.length - 1)) =
        offset f.text (f.before.length - 1) := by
      have isCursor : (c.showing f.unmarked).cursor = offset f.text f.before.length :=
        (offset_before f).symm
      omega
    rw [deleteSelection_none fit selected, Field.delete_unselected selected]
    dsimp only [bind, Except.bind]
    rw [if_neg (by decide), isStep]
    dsimp only
    rw [isPlace, delete_places (by omega) f.before_le (Or.inr rfl) apart]
    congr 1
    by_cases readonly : c.readonly = true
    · rw [if_pos readonly, if_pos ⟨readonly, rfl⟩]
    · rw [if_neg readonly, if_neg (fun both => readonly both.1)]

theorem deleteKey_spec (fit : f.Fit)
    (apart : f.Apart c.readonly
      (some (f.selection.getD (f.before.length, f.before.length + 1)))) :
    deleteKey (c.showing f) = .ok (c.showing
      (f.delete c.readonly (f.before.length, f.before.length + 1))) := by
  unfold deleteKey
  cases selected : f.selection with
  | some places =>
    rw [selected] at apart
    rw [deleteSelection_some fit selected apart, Field.delete_selected selected]
    rfl
  | none =>
    rw [selected] at apart
    have isCursor : (c.showing f.unmarked).cursor = offset f.text f.before.length :=
      (offset_before f).symm
    rw [deleteSelection_none fit selected, Field.delete_unselected selected]
    dsimp only [bind, Except.bind]
    rw [if_neg (by decide)]
    by_cases atEnd : f.after = []
    · have isLength : f.before.length = f.text.length := by
        rw [Field.text, atEnd, List.append_nil]
      have nothing : f.cut c.readonly f.before.length (f.before.length + 1) = f.unmarked := by
        unfold Field.cut
        rw [f.take_before, f.drop_before, List.drop_eq_nil_of_le (by omega), atEnd, ite_self,
          ← atEnd]
        rfl
      rw [stepAhead_end (f := f.unmarked) atEnd]
      dsimp only
      unfold htkTextDelete
      rw [if_pos, nothing]
      right; right
      rw [isCursor, isLength, offset_length]
      exact Nat.le_refl _
    · have inside : f.before.length + 1 ≤ f.text.length := by
        have positive := List.length_pos_of_ne_nil atEnd
        rw [Field.text, List.length_append]
        omega
      rw [stepAhead_field (f := f.unmarked) atEnd]
      dsimp only
      rw [isCursor]
      have deleted := delete_places (c := c) (f := f) (Nat.le_add_right f.before.length 1) inside
        (Or.inl rfl) apart
      refine Eq.trans deleted ?_
      congr 1
      by_cases readonly : c.readonly = true
      · rw [if_pos readonly]
        congr 1
        unfold Field.cut
        rw [if_pos readonly, f.take_before, f.drop_before]
        rfl
      · rw [if_neg readonly]

end Aholyc.Htk.Entry
