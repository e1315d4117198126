import Mathlib
import Aholyc.Http.Server

/-!
# Header fields and framing

What a header block says, without the functions of the library: its lines, the fields in
them, the elements of a list and a decimal number. The functions of lib/http/http.hc read
just that, and nothing outside of the block.
-/

namespace Aholyc.Http

open Aholyc.Lib

/-! ## What a block says -/

def crlf : List UInt8 := [13, 10]

/-- Each line of the block is ended by CR LF, and has none in it. -/
def IsLines (block : List UInt8) (lines : List (List UInt8)) : Prop :=
  block = (lines.map (· ++ crlf)).flatten ∧ ∀ line ∈ lines, ¬crlf <:+: line

/-- The bytes are the same but for the case of their ASCII letters. -/
def SameText (one two : List UInt8) : Prop :=
  one.map (fun byte => (Char.ofNat byte.toNat).toLower) =
    two.map fun byte => (Char.ofNat byte.toNat).toLower

instance (one two : List UInt8) : Decidable (SameText one two) :=
  inferInstanceAs (Decidable (_ = _))

def spaceOrTab (byte : UInt8) : Bool := byte = 32 || byte = 9

def trimmed (text : List UInt8) : List UInt8 := (text.dropWhile spaceOrTab).rdropWhile spaceOrTab

/-- What stands behind the colon of a line whose name this is. -/
def namedValue (name line : List UInt8) : Option (List UInt8) :=
  if 58 ∈ line ∧ SameText (line.takeWhile (· ≠ 58)) name then
    some (trimmed ((line.dropWhile (· ≠ 58)).drop 1))
  else none

/-- The first field with the name, behind the start line and up to an empty line. -/
def headerValue (lines : List (List UInt8)) (name : String) : Option (List UInt8) :=
  (lines.tail.takeWhile (· ≠ [])).findSome? (namedValue (literal name))

/-- One of the elements between the commas of the list is the token. -/
def HasElement (list token : List UInt8) : Prop :=
  ∃ front element back, list = front ++ element ++ back ∧ 44 ∉ element ∧
    (front = [] ∨ front.getLast? = some 44) ∧ (back = [] ∨ back.head? = some 44) ∧
    SameText (trimmed element) token

/-- The text is this number in decimal digits, and no larger than a message may be. -/
def IsDecimal (text : List UInt8) (number : Nat) : Prop :=
  text ≠ [] ∧ (∀ digit ∈ text, 48 ≤ digit ∧ digit ≤ 57) ∧
    number = Nat.ofDigits 10 (text.reverse.map fun digit => digit.toNat - 48) ∧
    number ≤ httpMaxMessage

/-- How the end of the body is found: in chunks if the list in `Transfer-Encoding` has `chunked`,
else by `Content-Length`, without which there is no body. Values end at a NUL. -/
def Framing (block : List UInt8) (chunked : Bool) (contentLength : Nat) : Prop :=
  ∃ lines, IsLines block lines ∧
    (chunked = true ↔ ∃ list ∈ headerValue lines "Transfer-Encoding",
      HasElement (cString list) (literal "chunked")) ∧
    if chunked = true then contentLength = 0
    else match headerValue lines "Content-Length" with
      | none => contentLength = 0
      | some text => IsDecimal (cString text) contentLength

/-! ## Letters and blanks -/

theorem lower_eq (byte : UInt8) :
    (Char.ofNat byte.toNat).toLower = Char.ofNat (httpAsciiLower byte).toNat := by
  revert byte
  apply Text.byte_cases
  decide +kernel

theorem ofNat_byte (byte : UInt8) : (Char.ofNat byte.toNat).toNat = byte.toNat := by
  revert byte
  apply Text.byte_cases
  decide +kernel

theorem sameText_iff {one two : List UInt8} :
    SameText one two ↔ one.map httpAsciiLower = two.map httpAsciiLower := by
  have injective : Function.Injective fun byte : UInt8 => Char.ofNat byte.toNat := by
    intro byte byte' same
    have codes := congrArg Char.toNat same
    dsimp only at codes
    rw [ofNat_byte, ofNat_byte] at codes
    exact UInt8.toNat_inj.mp codes
  have lowered (text : List UInt8) : text.map (fun byte => (Char.ofNat byte.toNat).toLower) =
      (text.map httpAsciiLower).map fun byte => Char.ofNat byte.toNat := by
    rw [List.map_map]
    exact List.map_congr_left fun byte _ => lower_eq byte
  unfold SameText
  rw [lowered, lowered]
  exact (List.map_injective_iff.mpr injective).eq_iff

theorem isBlank_eq (byte : UInt8) : isBlank byte = spaceOrTab byte := by
  unfold isBlank spaceOrTab
  rw [Bool.eq_iff_iff]
  simp only [Bool.or_eq_true, beq_iff_eq, decide_eq_true_eq]
  rfl

theorem isBlank_funext : isBlank = spaceOrTab := funext isBlank_eq

theorem notColon : (fun byte : UInt8 => byte != ':'.toUInt8) = fun byte => decide (byte ≠ 58) := by
  funext byte
  have colon : ':'.toUInt8 = 58 := rfl
  rw [colon, Bool.eq_iff_iff]
  simp

variable {word name rest : List UInt8}

theorem equalBytes_eq (name rest : List UInt8) (word : List UInt8)
    (length : word.length = name.length) :
    equalBytes (word ++ rest) name = .ok (decide (SameText word name)) := by
  induction name generalizing word with
  | nil =>
    rw [List.length_nil, List.length_eq_zero_iff] at length
    rw [length]
    unfold equalBytes
    rfl
  | cons expected name ih =>
    cases word with
    | nil => cases length
    | cons byte word =>
      have rest := ih word (Nat.succ.inj length)
      rw [List.cons_append, equalBytes, rest]
      simp only [sameText_iff, List.map_cons, List.cons.injEq]
      by_cases same : httpAsciiLower byte = httpAsciiLower expected
      · rw [if_neg (fun differs => differs same)]
        simp [same]
      · rw [if_pos same]
        simp [same]

theorem httpBytesEqualInsensitive_eq (word rest name : List UInt8) :
    httpBytesEqualInsensitive (word ++ rest) word.length name =
      .ok (decide (SameText word name)) := by
  unfold httpBytesEqualInsensitive
  by_cases length : word.length = name.length
  · rw [if_neg (fun differs => differs length), equalBytes_eq name rest word length]
  · rw [if_pos length, decide_eq_false]
    intro same
    apply length
    have lengths := congrArg List.length same
    rwa [List.length_map, List.length_map] at lengths

/-- The trailing loop leaves what `rdropWhile` does. -/
theorem countBack_eq (test : UInt8 → Bool) (front text back : List UInt8) :
    countBack test (front ++ text ++ back) front.length text.length =
      .ok (text.rdropWhile test).length := by
  induction text using List.reverseRecOn generalizing back with
  | nil => rfl
  | append_singleton text last ih =>
    have isLast : byteAt (front ++ (text ++ [last]) ++ back) (front.length + text.length) =
        .ok last := by
      rw [← List.length_append, ← List.append_assoc, List.append_assoc]
      exact byteAt_append _ _ _
    rw [List.length_append, List.length_singleton, countBack, isLast, Checked.ok_bind,
      List.rdropWhile_concat]
    split
    · rw [← List.append_assoc, List.append_assoc]
      exact ih ([last] ++ back)
    · rw [List.length_append, List.length_singleton]

/-! ## Lines -/

theorem lineLength_line (front line rest : List UInt8) (plain : ¬crlf <:+: line) :
    lineLength (front ++ (line ++ (crlf ++ rest)) ++ [0])
      (front ++ (line ++ (crlf ++ rest))).length front.length = .ok line.length := by
  induction line generalizing front with
  | nil =>
    have cr : byteAt (front ++ ([] ++ (crlf ++ rest)) ++ [0]) front.length = .ok 13 := by
      rw [List.nil_append, List.append_assoc, List.append_assoc]
      exact byteAt_append front 13 _
    have lf : byteAt (front ++ ([] ++ (crlf ++ rest)) ++ [0]) (front.length + 1) = .ok 10 := by
      have split : front ++ ([] ++ (crlf ++ rest)) ++ [0] = (front ++ [13]) ++ 10 :: (rest ++ [0]) := by
        simp [crlf]
      have length : (front ++ [(13 : UInt8)]).length = front.length + 1 := by simp
      rw [split, ← length]
      exact byteAt_append _ _ _
    unfold lineLength
    rw [if_pos (by simp [crlf]), cr, lf]
    rfl
  | cons byte line ih =>
    have isByte : byteAt (front ++ (byte :: line ++ (crlf ++ rest)) ++ [0]) front.length = .ok byte := by
      rw [List.cons_append, List.append_assoc, List.cons_append]
      exact byteAt_append front byte _
    have next : ∃ byte', (line ++ (crlf ++ rest)).head? = some byte' ∧
        (byte = 13 → byte' ≠ 10) := by
      cases line with
      | nil => exact ⟨13, rfl, fun _ => by decide⟩
      | cons byte' line =>
        refine ⟨byte', rfl, ?_⟩
        rintro rfl rfl
        exact plain ⟨[], line, rfl⟩
    obtain ⟨byte', isNext, noBreak⟩ := next
    obtain ⟨tail, isTail⟩ : ∃ tail, line ++ (crlf ++ rest) = byte' :: tail := by
      cases text : line ++ (crlf ++ rest) with
      | nil =>
        rw [text] at isNext
        cases isNext
      | cons first tail =>
        rw [text] at isNext
        cases isNext
        exact ⟨tail, rfl⟩
    have isByte' : byteAt (front ++ (byte :: line ++ (crlf ++ rest)) ++ [0]) (front.length + 1) =
        .ok byte' := by
      have split : front ++ (byte :: line ++ (crlf ++ rest)) ++ [0] =
          (front ++ [byte]) ++ byte' :: (tail ++ [0]) := by
        rw [List.cons_append, isTail]
        simp
      have length : (front ++ [byte]).length = front.length + 1 := by simp
      rw [split, ← length]
      exact byteAt_append _ _ _
    have later := ih (front ++ [byte]) fun inside => plain (List.infix_cons inside)
    have same : front ++ [byte] ++ (line ++ (crlf ++ rest)) =
        front ++ (byte :: line ++ (crlf ++ rest)) := by simp
    have length : (front ++ [byte]).length = front.length + 1 := by simp
    rw [same, length] at later
    unfold lineLength
    rw [if_pos (by simp [crlf]), isByte, isByte']
    simp only [Except.map_ok, andAlso_eq, Checked.ok_bind, later]
    rw [if_neg]
    · rfl
    · simp only [Bool.and_eq_true, beq_iff_eq]
      rintro ⟨isCr, isLf⟩
      exact noBreak isCr isLf

theorem mem_iff_takeWhile (byte : UInt8) (line : List UInt8) :
    byte ∈ line ↔ (line.takeWhile (· ≠ byte)).length < line.length := by
  induction line with
  | nil => simp
  | cons first line ih =>
    by_cases same : first = byte
    · simp [same]
    · rw [List.takeWhile_cons_of_pos (by simpa using same), List.length_cons, List.length_cons,
        Nat.add_lt_add_iff_right, ← ih, List.mem_cons, or_iff_right (Ne.symm same)]

theorem colon_split {line : List UInt8} (hasColon : 58 ∈ line) : ∃ value,
    line = line.takeWhile (· ≠ 58) ++ 58 :: value ∧ (line.dropWhile (· ≠ 58)).drop 1 = value := by
  induction line with
  | nil => cases hasColon
  | cons first line ih =>
    by_cases same : first = 58
    · exact ⟨line, by simp [same]⟩
    · obtain ⟨value, isLine, isValue⟩ := ih ((List.mem_cons.mp hasColon).resolve_left (Ne.symm same))
      refine ⟨value, ?_, ?_⟩
      · rw [List.takeWhile_cons_of_pos (by simpa using same), List.cons_append, ← isLine]
      · rw [List.dropWhile_cons_of_pos (by simpa using same)]
        exact isValue

/-- The value of a line that has the name, cut out of the block. -/
theorem namedValue_slice (front more a value : List UInt8) :
    ∃ blanks kept, countWhile isBlank (front ++ (a ++ 58 :: value) ++ more)
        (front.length + (a ++ 58 :: value).length) (front.length + a.length + 1) = .ok blanks ∧
      countBack isBlank (front ++ (a ++ 58 :: value) ++ more) (front.length + a.length + 1 + blanks)
        (front.length + (a ++ 58 :: value).length - (front.length + a.length + 1 + blanks)) =
          .ok kept ∧
      httpSlice (some (front ++ (a ++ 58 :: value) ++ more)) (front.length + a.length + 1 + blanks)
        (front.length + a.length + 1 + blanks + kept) = .ok (some (trimmed value ++ [0])) := by
  have split := List.takeWhile_append_dropWhile (p := spaceOrTab) (l := value)
  generalize isBlanks : value.takeWhile spaceOrTab = before at split
  generalize isText : value.dropWhile spaceOrTab = text at split
  have isTrimmed : trimmed value = text.rdropWhile spaceOrTab := by rw [trimmed, isText]
  have whole : front ++ (a ++ 58 :: value) ++ more =
      (front ++ a ++ 58 :: before) ++ text ++ more := by
    rw [← split]
    simp
  have frontLength : (front ++ a ++ 58 :: before).length =
      front.length + a.length + 1 + before.length := by
    simp
    omega
  have finish : front.length + (a ++ 58 :: value).length =
      front.length + a.length + 1 + before.length + text.length := by
    rw [← split]
    simp
    omega
  refine ⟨before.length, (text.rdropWhile spaceOrTab).length, ?_, ?_, ?_⟩
  · rw [countWhile_eq isBlank (by simp)]
    have taken : (front ++ (a ++ 58 :: value) ++ more).take (front.length + (a ++ 58 :: value).length) =
        (front ++ a ++ [58]) ++ value := by
      rw [← List.length_append, List.take_left]
      simp
    have length : front.length + a.length + 1 = (front ++ a ++ [(58 : UInt8)]).length := by
      simp
      omega
    rw [taken, length, List.drop_left, isBlank_funext, isBlanks]
  · rw [whole, finish, Nat.add_sub_cancel_left, ← frontLength, isBlank_funext]
    exact countBack_eq spaceOrTab _ text more
  · have le := List.rdropWhile_prefix spaceOrTab (l := text) |>.length_le
    rw [whole, httpSlice_eq _ (Nat.le_add_right _ _) (by
      rw [List.length_append, List.length_append, frontLength]
      omega), Nat.add_sub_cancel_left, ← frontLength,
      List.append_assoc (front ++ a ++ 58 :: before) text more, List.drop_left, isTrimmed]
    have taken : (text ++ more).take (text.rdropWhile spaceOrTab).length =
        text.rdropWhile spaceOrTab := by
      rw [List.take_append_of_le_length le]
      exact (List.prefix_iff_eq_take.mp (List.rdropWhile_prefix spaceOrTab text)).symm
    rw [taken]

/-- The lines from a place on, behind which a NUL stands. -/
theorem headerLines_eq (name : List UInt8) (front : List UInt8) (lines : List (List UInt8))
    (plain : ∀ line ∈ lines, ¬crlf <:+: line) :
    headerLines (front ++ (lines.map (· ++ crlf)).flatten ++ [0])
      (front ++ (lines.map (· ++ crlf)).flatten).length name front.length =
        .ok (((lines.takeWhile (· ≠ [])).findSome? (namedValue name)).map (· ++ [0])) := by
  induction lines generalizing front with
  | nil =>
    unfold headerLines
    rw [if_neg (by simp)]
    rfl
  | cons line lines ih =>
    have later := ih (front ++ (line ++ crlf)) fun line member =>
      plain line (List.mem_cons_of_mem _ member)
    have noBreak := plain line List.mem_cons_self
    rw [List.map_cons, List.flatten_cons]
    generalize (lines.map (· ++ crlf)).flatten = rest at later ⊢
    have isBlock : front ++ (line ++ crlf ++ rest) = front ++ (line ++ (crlf ++ rest)) := by
      rw [List.append_assoc line]
    have isLength := lineLength_line front line rest noBreak
    rw [← isBlock] at isLength
    have inside : front.length < (front ++ (line ++ crlf ++ rest)).length := by
      simp [crlf]
    rw [headerLines, if_pos inside, isLength, Checked.ok_bind]
    dsimp only
    by_cases empty : line = []
    · rw [if_pos (by rw [empty]; rfl), List.takeWhile_cons_of_neg (by simp [empty])]
      rfl
    have notEmpty : 0 < line.length := List.length_pos_iff.mpr empty
    rw [if_neg (by omega), List.takeWhile_cons_of_pos (by simpa using empty)]
    have next : front.length + line.length + 2 = (front ++ (line ++ crlf)).length := by
      simp [crlf]
      omega
    have behind : front ++ (line ++ crlf ++ rest) = front ++ (line ++ crlf) ++ rest := by
      simp
    have whole : front ++ (line ++ crlf ++ rest) ++ [0] = front ++ line ++ (crlf ++ rest ++ [0]) := by
      simp
    have colon : countWhile (· != ':'.toUInt8) (front ++ (line ++ crlf ++ rest) ++ [0])
        (front.length + line.length) front.length = .ok (line.takeWhile (· ≠ 58)).length := by
      rw [countWhile_eq _ (by simp), whole, ← List.length_append, List.take_left, List.drop_left,
        notColon]
    have later' : headerLines (front ++ (line ++ crlf ++ rest) ++ [0])
        (front ++ (line ++ crlf ++ rest)).length name (front.length + line.length + 2) =
          .ok (((lines.takeWhile (· ≠ [])).findSome? (namedValue name)).map (· ++ [0])) := by
      rw [next, behind]
      exact later
    rw [colon, Checked.ok_bind, List.findSome?_cons]
    by_cases hasColon : 58 ∈ line
    · obtain ⟨value, isLine, isValue⟩ := colon_split hasColon
      have isField : namedValue name line =
          if SameText (line.takeWhile (· ≠ 58)) name then some (trimmed value) else none := by
        rw [← isValue]
        by_cases same : SameText (line.takeWhile (· ≠ 58)) name
        · rw [if_pos same]
          exact if_pos ⟨hasColon, same⟩
        · rw [if_neg same]
          exact if_neg fun both => same both.2
      rw [isField]
      generalize line.takeWhile (· ≠ 58) = a at isLine ⊢
      have start : (front ++ (line ++ crlf ++ rest) ++ [0]).drop front.length =
          a ++ (58 :: value ++ (crlf ++ rest ++ [0])) := by
        rw [whole, List.append_assoc front, List.drop_left, isLine]
        simp
      have shorter : front.length + a.length < front.length + line.length := by
        rw [isLine]
        simp
      rw [start, Nat.add_sub_cancel_left, httpBytesEqualInsensitive_eq, decide_eq_true shorter,
        andAlso_eq, Checked.ok_bind, Bool.true_and]
      by_cases same : SameText a name
      · obtain ⟨blanks, kept, areBlanks, isKept, isSlice⟩ :=
          namedValue_slice front (crlf ++ rest ++ [0]) a value
        rw [← isLine, ← whole] at areBlanks isKept isSlice
        rw [if_pos (decide_eq_true same), areBlanks, Checked.ok_bind, isKept, Checked.ok_bind,
          isSlice, if_pos same]
        rfl
      · rw [if_neg (by simpa using same), if_neg same]
        exact later'
    · have allWord : ¬(line.takeWhile (· ≠ 58)).length < line.length := by
        rw [← mem_iff_takeWhile]
        exact hasColon
      have notNamed : namedValue name line = none := if_neg fun both => hasColon both.1
      rw [notNamed, decide_eq_false (by omega)]
      exact later'

/-- `HttpHeaderFind` finds the first field with the name. -/
theorem httpHeaderFind_eq {block : List UInt8} {lines : List (List UInt8)}
    (isLines : IsLines block lines) (name : String) :
    httpHeaderFind (some (block ++ [0])) block.length (literal name) =
      .ok ((headerValue lines name).map (· ++ [0])) := by
  obtain ⟨rfl, plain⟩ := isLines
  unfold httpHeaderFind headerValue
  dsimp only
  cases lines with
  | nil =>
    unfold lineLength
    rw [if_neg (by simp), Checked.ok_bind]
    unfold headerLines
    rw [if_neg (by simp)]
    rfl
  | cons line lines =>
    have isLength := lineLength_line [] line (lines.map (· ++ crlf)).flatten
      (plain line List.mem_cons_self)
    have others := headerLines_eq (literal name) (line ++ crlf) lines fun line member =>
      plain line (List.mem_cons_of_mem _ member)
    have isBlock : [] ++ (line ++ (crlf ++ (lines.map (· ++ crlf)).flatten)) =
        ((line :: lines).map (· ++ crlf)).flatten := by simp
    have isBlock' : line ++ crlf ++ (lines.map (· ++ crlf)).flatten =
        ((line :: lines).map (· ++ crlf)).flatten := by simp
    have next : (line ++ crlf).length = line.length + 2 := by simp [crlf]
    rw [isBlock, List.length_nil] at isLength
    rw [isBlock', next] at others
    rw [isLength, Checked.ok_bind, others]
    rfl

/-- Every text in front of a CR LF is made of lines. -/
theorem lines_exist (text : List UInt8) :
    ∃ line lines, IsLines (text ++ crlf) (line :: lines) := by
  induction text with
  | nil => exact ⟨[], [], rfl, by decide⟩
  | cons byte text ih =>
    obtain ⟨line, lines, isText, plain⟩ := ih
    rw [List.map_cons, List.flatten_cons] at isText
    by_cases breaks : byte = 13 ∧ text.head? = some 10
    · obtain ⟨rfl, isLf⟩ := breaks
      obtain ⟨rest, rfl⟩ := List.head?_eq_some_iff.mp isLf
      cases line with
      | nil => cases isText
      | cons first line =>
        rw [List.cons_append, List.cons_append, List.cons_append, List.cons.injEq] at isText
        have shorter : ¬crlf <:+: line := fun inside =>
          plain (first :: line) List.mem_cons_self (List.infix_cons inside)
        refine ⟨[], line :: lines, ?_, ?_⟩
        · rw [List.cons_append, List.cons_append, isText.2]
          rfl
        · intro line' member
          rcases List.mem_cons.mp member with rfl | member
          · decide
          · rcases List.mem_cons.mp member with rfl | member
            · exact shorter
            · exact plain line' (List.mem_cons_of_mem _ member)
    · refine ⟨byte :: line, lines, ?_, ?_⟩
      · rw [List.cons_append, isText]
        rfl
      · intro line' member
        rcases List.mem_cons.mp member with rfl | member
        · intro inside
          rcases List.infix_cons_iff.mp inside with atStart | inside
          · cases line with
            | nil =>
              obtain ⟨rest, isPrefix⟩ := atStart
              cases isPrefix
            | cons first line =>
              have both := List.cons_prefix_cons.mp atStart
              have isLf := (List.cons_prefix_cons.mp both.2).1
              apply breaks
              refine ⟨both.1.symm, ?_⟩
              cases text with
              | nil =>
                rw [List.nil_append, ← isLf] at isText
                cases isText
              | cons first' text =>
                rw [List.cons_append, List.cons_append, List.cons_append, List.cons.injEq] at isText
                rw [isText.1, ← isLf]
                rfl
          · exact plain line List.mem_cons_self inside
        · exact plain line' (List.mem_cons_of_mem _ member)

/-! ## Lists -/

variable {list token : List UInt8}

theorem trimmed_blank {byte : UInt8} (blank : spaceOrTab byte = true) (text : List UInt8) :
    trimmed (byte :: text) = trimmed text := by
  unfold trimmed
  rw [List.dropWhile_cons_of_pos blank]

theorem hasElement_nil (notEmpty : token ≠ []) : ¬HasElement [] token := by
  rintro ⟨front, element, back, isList, _, _, _, same⟩
  have none : element = [] := by
    have empty := isList.symm
    rw [List.append_eq_nil_iff, List.append_eq_nil_iff] at empty
    exact empty.1.2
  rw [none] at same
  exact notEmpty (List.map_eq_nil_iff.mp same.symm)

theorem getLast_cons {front : List UInt8} {byte : UInt8}
    (behind : front = [] ∨ front.getLast? = some 44) (comma : front = [] → byte = 44) :
    (byte :: front).getLast? = some 44 := by
  cases front with
  | nil => rw [comma rfl]; rfl
  | cons first front =>
    rw [List.getLast?_cons_cons]
    exact behind.resolve_left (List.cons_ne_nil _ _)

theorem getLast_tail {front : List UInt8} {byte : UInt8}
    (behind : (byte :: front) = [] ∨ (byte :: front).getLast? = some 44) :
    (front = [] ∧ byte = 44) ∨ front.getLast? = some 44 := by
  have isLast := behind.resolve_left (List.cons_ne_nil _ _)
  cases front with
  | nil => exact .inl ⟨rfl, Option.some.inj isLast⟩
  | cons first front =>
    rw [List.getLast?_cons_cons] at isLast
    exact .inr isLast

theorem element_some {element : List UInt8} (notEmpty : token ≠ [])
    (same : SameText (trimmed element) token) : element ≠ [] := by
  rintro rfl
  exact notEmpty (List.map_eq_nil_iff.mp same.symm)

/-- A blank or a comma in front of a list does not matter. -/
theorem hasElement_cons {byte : UInt8} (skipped : spaceOrTab byte = true ∨ byte = 44)
    (notEmpty : token ≠ []) : HasElement (byte :: list) token ↔ HasElement list token := by
  constructor
  · rintro ⟨front, element, back, isList, noComma, isFront, isBack, same⟩
    cases front with
    | cons first front =>
      rw [List.cons_append, List.cons_append, List.cons.injEq] at isList
      refine ⟨front, element, back, isList.2, noComma, ?_, isBack, same⟩
      exact (getLast_tail isFront).imp And.left id
    | nil =>
      cases element with
      | nil => exact absurd rfl (element_some notEmpty same)
      | cons first element =>
        rw [List.nil_append, List.cons_append, List.cons.injEq] at isList
        rw [List.mem_cons, not_or] at noComma
        have blank : spaceOrTab first = true := by
          rw [← isList.1]
          exact skipped.resolve_right fun isComma => noComma.1 (by rw [← isList.1, isComma])
        rw [trimmed_blank blank] at same
        exact ⟨[], element, back, isList.2, noComma.2, .inl rfl, isBack, same⟩
  · rintro ⟨front, element, back, isList, noComma, isFront, isBack, same⟩
    by_cases isComma : byte = 44
    · refine ⟨byte :: front, element, back, ?_, noComma, .inr ?_, isBack, same⟩
      · rw [isList]
        rfl
      · exact getLast_cons isFront fun _ => isComma
    · have blank := skipped.resolve_right isComma
      cases front with
      | nil =>
        refine ⟨[], byte :: element, back, ?_, ?_, .inl rfl, isBack, ?_⟩
        · rw [isList]
          rfl
        · rw [List.mem_cons, not_or]
          exact ⟨Ne.symm isComma, noComma⟩
        · rw [trimmed_blank blank]
          exact same
      | cons first front =>
        refine ⟨byte :: first :: front, element, back, ?_, noComma, .inr ?_, isBack, same⟩
        · rw [isList]
          rfl
        · exact getLast_cons isFront fun none => by cases none

theorem hasElement_skip {before : List UInt8}
    (skipped : ∀ byte ∈ before, spaceOrTab byte = true ∨ byte = 44) (notEmpty : token ≠ []) :
    HasElement (before ++ list) token ↔ HasElement list token := by
  induction before with
  | nil => exact Iff.rfl
  | cons byte before ih =>
    rw [List.cons_append, hasElement_cons (skipped byte List.mem_cons_self) notEmpty]
    exact ih fun byte member => skipped byte (List.mem_cons_of_mem _ member)

theorem takeWhile_element {element back : List UInt8} (noComma : 44 ∉ element)
    (isBack : back = [] ∨ back.head? = some 44) :
    (element ++ back).takeWhile (· ≠ 44) = element := by
  rw [List.takeWhile_append_of_pos]
  · cases back with
    | nil => simp
    | cons first back =>
      have isComma := isBack.resolve_left (List.cons_ne_nil _ _)
      cases isComma
      simp
  · intro byte member
    rw [decide_eq_true_eq]
    rintro rfl
    exact noComma member

/-- The first element, or one of the others. -/
theorem hasElement_append {element back : List UInt8} (noComma : 44 ∉ element)
    (isBack : back = [] ∨ back.head? = some 44) (notEmpty : token ≠ []) :
    HasElement (element ++ back) token ↔ SameText (trimmed element) token ∨
      HasElement back token := by
  constructor
  · rintro ⟨front, element', back', isList, noComma', isFront, isBack', same⟩
    cases front with
    | nil =>
      left
      have first := takeWhile_element noComma isBack
      rw [isList, List.nil_append, takeWhile_element noComma' isBack'] at first
      rw [← first]
      exact same
    | cons first front =>
      right
      have isLast := isFront.resolve_left (List.cons_ne_nil _ _)
      -- the comma at the end of the front is not in the first element
      rw [List.append_assoc, List.append_eq_append_iff] at isList
      obtain ⟨middle, isFront', isBack''⟩ | ⟨middle, isElement, _⟩ := isList
      · refine ⟨middle, element', back', ?_, noComma', ?_, isBack', same⟩
        · rw [isBack'', List.append_assoc]
        · cases middle with
          | nil => exact .inl rfl
          | cons byte middle =>
            rw [isFront', List.getLast?_append] at isLast
            rw [List.getLast?_eq_some_getLast (List.cons_ne_nil byte middle), Option.some_or]
              at isLast
            rw [List.getLast?_eq_some_getLast (List.cons_ne_nil byte middle)]
            exact .inr isLast
      · have member : (44 : UInt8) ∈ first :: front := List.mem_of_getLast? isLast
        exact absurd (isElement ▸ List.mem_append_left _ member) noComma
  · rintro (same | ⟨front, element', back', isList, noComma', isFront, isBack', same⟩)
    · exact ⟨[], element, back, rfl, noComma, .inl rfl, isBack, same⟩
    · refine ⟨element ++ front, element', back', ?_, noComma', ?_, isBack', same⟩
      · rw [isList]
        simp
      · cases front with
        | nil =>
          rw [List.nil_append] at isList
          cases element' with
          | nil => exact absurd rfl (element_some notEmpty same)
          | cons byte element' =>
            rw [List.mem_cons, not_or] at noComma'
            rcases isBack with none | isComma
            · rw [none] at isList
              cases isList
            · rw [isList, List.cons_append, List.head?_cons, Option.some.injEq] at isComma
              exact absurd isComma.symm noComma'.1
        | cons byte front =>
          right
          rw [List.getLast?_append, isFront.resolve_left (List.cons_ne_nil _ _)]
          rfl

theorem countBack_text (front element more : List UInt8) :
    countBack isBlank (front ++ (element ++ more)) front.length element.length =
      .ok (element.rdropWhile spaceOrTab).length := by
  rw [isBlank_funext, ← List.append_assoc]
  exact countBack_eq spaceOrTab front element more

theorem trimmed_first {element : List UInt8}
    (noBlank : ∀ byte ∈ element.head?, spaceOrTab byte = false) :
    trimmed element = element.rdropWhile spaceOrTab := by
  unfold trimmed
  cases element with
  | nil => rfl
  | cons byte element =>
    rw [List.dropWhile_cons_of_neg (by simpa using noBlank byte rfl)]

theorem head_dropWhile (test : UInt8 → Bool) (text : List UInt8) :
    ∀ byte ∈ (text.dropWhile test).head?, test byte = false := by
  intro byte isHead
  have notTest := List.head?_dropWhile_not test text
  rw [isHead] at notTest
  simpa using notTest

theorem notComma : (fun byte : UInt8 => byte != ','.toUInt8) = fun byte => decide (byte ≠ 44) := by
  funext byte
  have comma : ','.toUInt8 = 44 := rfl
  rw [comma, Bool.eq_iff_iff]
  simp

theorem rdropWhile_cut (text : List UInt8) : ∃ after,
    text = text.rdropWhile spaceOrTab ++ after ∧ ∀ byte ∈ after, spaceOrTab byte = true := by
  refine ⟨(text.reverse.takeWhile spaceOrTab).reverse, ?_, ?_⟩
  · unfold List.rdropWhile
    rw [← List.reverse_append, List.takeWhile_append_dropWhile, List.reverse_reverse]
  · intro byte member
    rw [List.mem_reverse] at member
    exact List.mem_takeWhile_imp member

/-- Behind the blanks of an element the list goes on as behind its comma. -/
theorem hasElement_behind {after back : List UInt8}
    (blanks : ∀ byte ∈ after, spaceOrTab byte = true) (isBack : back = [] ∨ back.head? = some 44)
    (notEmpty : token ≠ []) : HasElement ((after ++ back).drop 1) token ↔ HasElement back token := by
  cases after with
  | cons byte after =>
    rw [List.cons_append, List.drop_one, List.tail_cons]
    exact hasElement_skip (fun byte member => .inl (blanks byte (List.mem_cons_of_mem _ member)))
      notEmpty
  | nil =>
    rw [List.nil_append]
    cases back with
    | nil => exact Iff.rfl
    | cons byte back =>
      have isComma := isBack.resolve_left (List.cons_ne_nil _ _)
      rw [List.head?_cons, Option.some.injEq] at isComma
      rw [isComma]
      exact (hasElement_cons (.inr rfl) notEmpty).symm

theorem valueTokens_eq (list more : List UInt8) (notEmpty : token ≠ []) (start : Nat) :
    ∃ has, valueTokens (list ++ more) list.length token start = .ok has ∧
      (has = true ↔ HasElement (list.drop start) token) := by
  induction left : list.length - start using Nat.strong_induction_on generalizing start with
  | _ left ih =>
    by_cases before : start < list.length
    swap
    · unfold valueTokens
      rw [if_neg before, List.drop_eq_nil_of_le (by omega)]
      exact ⟨false, rfl, by simp [hasElement_nil notEmpty]⟩
    -- what is skipped, the element, and what stands behind it
    let skipped (byte : UInt8) : Bool := isBlank byte || byte == ','.toUInt8
    have isText : list.drop start = _ := List.takeWhile_append_dropWhile (p := skipped).symm
    have areSkipped : ∀ byte ∈ (list.drop start).takeWhile skipped,
        spaceOrTab byte = true ∨ byte = 44 := by
      intro byte member
      have isSkipped := List.mem_takeWhile_imp member
      rw [Bool.or_eq_true, isBlank_eq, beq_iff_eq] at isSkipped
      exact isSkipped
    have atElement := head_dropWhile skipped (list.drop start)
    have areBlanks : countWhile (fun byte => isBlank byte || byte == ','.toUInt8) (list ++ more)
        list.length start = .ok ((list.drop start).takeWhile skipped).length := by
      rw [countWhile_eq _ (by simp), List.take_left]
    generalize (list.drop start).takeWhile skipped = blanks at isText areSkipped areBlanks
    generalize (list.drop start).dropWhile skipped = rest at isText atElement
    have isRest : rest = _ := (List.takeWhile_append_dropWhile (p := (· ≠ (44 : UInt8)))).symm
    have noComma : 44 ∉ rest.takeWhile (· ≠ 44) := by
      intro member
      have isPlain := List.mem_takeWhile_imp member
      simp at isPlain
    have isBack : rest.dropWhile (· ≠ 44) = [] ∨ (rest.dropWhile (· ≠ 44)).head? = some 44 := by
      have atComma := head_dropWhile (· ≠ 44) rest
      cases back : rest.dropWhile (· ≠ 44) with
      | nil => exact .inl rfl
      | cons byte back' =>
        rw [back] at atComma
        have isComma := atComma byte rfl
        rw [decide_eq_false_iff_not, not_not] at isComma
        rw [isComma]
        exact .inr rfl
    have fromElement : list.drop (start + blanks.length) = rest := by
      rw [← List.drop_drop, isText, List.drop_left]
    have inside : start + blanks.length ≤ list.length := by
      have lengths := congrArg List.length isText
      rw [List.length_drop, List.length_append] at lengths
      omega
    have isSize : countWhile (· != ','.toUInt8) (list ++ more) list.length (start + blanks.length) =
        .ok (rest.takeWhile (· ≠ 44)).length := by
      rw [countWhile_eq _ (by simp), List.take_left, fromElement, notComma]
    have firstByte : ∀ byte ∈ (rest.takeWhile (· ≠ 44)).head?, spaceOrTab byte = false := by
      intro byte isFirst
      rw [List.head?_takeWhile] at isFirst
      have notSkipped := atElement byte (Option.mem_filter_iff.mp isFirst).1
      rw [Bool.or_eq_false_iff, isBlank_eq] at notSkipped
      exact notSkipped.1
    generalize rest.takeWhile (· ≠ 44) = element at isRest noComma isSize firstByte
    generalize rest.dropWhile (· ≠ 44) = back at isRest isBack
    have front : list ++ more = list.take (start + blanks.length) ++ (element ++ (back ++ more)) := by
      rw [← List.append_assoc element, ← isRest, ← fromElement, ← List.append_assoc,
        List.take_append_drop]
    have frontLength : (list.take (start + blanks.length)).length = start + blanks.length := by
      rw [List.length_take]
      omega
    have isKept := countBack_text (list.take (start + blanks.length)) element (back ++ more)
    rw [← front, frontLength] at isKept
    obtain ⟨after, isElement, areAfter⟩ := rdropWhile_cut element
    have isTrimmed := trimmed_first firstByte
    generalize element.rdropWhile spaceOrTab = kept at isKept isElement isTrimmed
    have compared : httpBytesEqualInsensitive ((list ++ more).drop (start + blanks.length))
        (start + blanks.length + kept.length - (start + blanks.length)) token =
          .ok (decide (SameText kept token)) := by
      rw [front, List.drop_left' frontLength, Nat.add_sub_cancel_left, isElement, List.append_assoc]
      exact httpBytesEqualInsensitive_eq kept _ token
    have behind : list.drop (start + blanks.length + kept.length + 1) = (after ++ back).drop 1 := by
      rw [← List.drop_drop, ← List.drop_drop, fromElement, isRest, isElement, List.append_assoc,
        List.drop_left]
    have elements : HasElement (list.drop start) token ↔
        SameText kept token ∨ HasElement ((after ++ back).drop 1) token := by
      rw [isText, hasElement_skip areSkipped notEmpty, isRest,
        hasElement_append noComma isBack notEmpty, isTrimmed,
        hasElement_behind areAfter isBack notEmpty]
    unfold valueTokens
    rw [if_pos before, areBlanks, Checked.ok_bind]
    dsimp only
    rw [isSize, Checked.ok_bind, isKept, Checked.ok_bind, compared, Checked.ok_bind, elements]
    by_cases same : SameText kept token
    · rw [if_pos (decide_eq_true same)]
      exact ⟨true, rfl, fun _ => .inl same, fun _ => rfl⟩
    · rw [if_neg (by simpa using same), or_iff_right same, ← behind]
      exact ih _ (by omega) _ rfl

/-- `HttpValueHasToken` finds the token among the elements of a list. -/
theorem httpValueHasToken_eq (value : Option (List UInt8)) {token : List UInt8}
    (notEmpty : token ≠ []) :
    ∃ has, httpValueHasToken (value.map (· ++ [0])) token = .ok has ∧
      (has = true ↔ ∃ list ∈ value, HasElement (cString list) token) := by
  cases value with
  | none => exact ⟨false, rfl, by simp⟩
  | some list =>
    obtain ⟨more, isList⟩ : ∃ more, list = cString list ++ more :=
      ⟨_, (List.takeWhile_append_dropWhile (p := (!isNul ·))).symm⟩
    obtain ⟨has, isHas, iff⟩ := valueTokens_eq (cString list) (more ++ [0]) notEmpty 0
    refine ⟨has, ?_, by simpa using iff⟩
    unfold httpValueHasToken
    dsimp only [Option.map_some]
    rw [strLen_eq, Checked.ok_bind]
    rw [← List.append_assoc, ← isList] at isHas
    exact isHas

/-! ## Numbers -/

theorem decimal_value (digits : List UInt8) (result : Nat) :
    digits.foldl (fun result digit => result * 10 + (digit.toNat - 48)) result =
      result * 10 ^ digits.length +
        Nat.ofDigits 10 (digits.reverse.map fun digit => digit.toNat - 48) := by
  induction digits generalizing result with
  | nil => simp
  | cons digit digits ih =>
    rw [List.foldl_cons, ih, List.reverse_cons, List.map_append, Nat.ofDigits_append,
      List.length_map, List.length_reverse, List.length_cons]
    simp only [List.map_cons, List.map_nil, Nat.ofDigits_singleton]
    ring

theorem foldl_le (digits : List UInt8) (result : Nat) :
    result ≤ digits.foldl (fun result digit => result * 10 + (digit.toNat - 48)) result := by
  rw [decimal_value]
  exact Nat.le_add_right_of_le (Nat.le_mul_of_pos_right result (Nat.pow_pos (by decide)))

theorem decimalDigits_eq (text more : List UInt8) (noNul : ∀ byte ∈ text, byte ≠ 0) (result : Nat)
    (small : result ≤ httpMaxMessage) :
    decimalDigits result (text ++ 0 :: more) = .ok (
      if (∀ digit ∈ text, 48 ≤ digit ∧ digit ≤ 57) ∧
          text.foldl (fun result digit => result * 10 + (digit.toNat - 48)) result ≤ httpMaxMessage
      then some (text.foldl (fun result digit => result * 10 + (digit.toNat - 48)) result)
      else none) := by
  induction text generalizing result with
  | nil =>
    rw [List.nil_append, decimalDigits, if_pos rfl, if_pos ⟨by simp, small⟩]
    rfl
  | cons byte text ih =>
    have notNul := noNul byte List.mem_cons_self
    have others := fun byte member => noNul byte (List.mem_cons_of_mem _ member)
    rw [List.cons_append, decimalDigits, if_neg notNul]
    have zero : '0'.toUInt8 = 48 := rfl
    have nine : '9'.toUInt8 = 57 := rfl
    by_cases digit : 48 ≤ byte ∧ byte ≤ 57
    · have difference : (byte - '0'.toUInt8).toNat = byte.toNat - 48 := by
        rw [zero, UInt8.toNat_sub_of_le _ _ digit.1]
        rfl
      have notOutside : ¬(byte < '0'.toUInt8 ∨ byte > '9'.toUInt8) := by
        rw [zero, nine, not_or]
        exact ⟨UInt8.not_lt.mpr digit.1, UInt8.not_lt.mpr digit.2⟩
      rw [if_neg notOutside]
      dsimp only
      rw [difference, List.foldl_cons]
      by_cases large : result * 10 + (byte.toNat - 48) > httpMaxMessage
      · have le := foldl_le text (result * 10 + (byte.toNat - 48))
        rw [if_pos large, if_neg fun both => by omega]
      · rw [if_neg large, ih others _ (by omega)]
        simp only [List.forall_mem_cons, digit, true_and, and_true]
    · have outside : byte < '0'.toUInt8 ∨ byte > '9'.toUInt8 := by
        rw [zero, nine]
        by_contra inside
        rw [not_or] at inside
        exact digit ⟨UInt8.not_lt.mp inside.1, UInt8.not_lt.mp inside.2⟩
      rw [if_pos outside, if_neg fun both => digit (both.1 byte List.mem_cons_self)]

/-- A block starts with its C string, and a NUL stands behind that. -/
theorem cString_block (text : List UInt8) : ∃ more, text ++ [0] = cString text ++ 0 :: more ∧
    ∀ byte ∈ cString text, byte ≠ 0 := by
  unfold cString
  induction text with
  | nil => exact ⟨[], rfl, by simp⟩
  | cons byte text ih =>
    by_cases zero : byte = 0
    · rw [zero]
      exact ⟨text ++ [0], rfl, by simp [isNul_zero]⟩
    · obtain ⟨more, isText, noNul⟩ := ih
      refine ⟨more, ?_, ?_⟩
      · rw [List.takeWhile_cons_of_pos (by simp [isNul, zero]), List.cons_append, isText,
          List.cons_append]
      · rw [List.takeWhile_cons_of_pos (by simp [isNul, zero]), List.forall_mem_cons]
        exact ⟨zero, noNul⟩

/-- `HttpParseDecimal` reads a number in decimal digits. -/
theorem httpParseDecimal_eq (text : List UInt8) :
    ∃ value, httpParseDecimal (some (text ++ [0])) = .ok value ∧
      ∀ number, value = some number ↔ IsDecimal (cString text) number := by
  obtain ⟨first, isFirst, isHead⟩ := firstByte text
  obtain ⟨more, isText, noNul⟩ := cString_block text
  unfold httpParseDecimal
  dsimp only
  rw [isFirst, Checked.ok_bind]
  by_cases zero : first = 0
  · rw [if_pos zero, List.head?_eq_none_iff] at isHead
    rw [zero, if_pos isNul_zero, isHead]
    refine ⟨none, rfl, fun number => ⟨?_, fun isDecimal => absurd rfl isDecimal.1⟩⟩
    intro none
    cases none
  · rw [if_neg zero] at isHead
    have notEmpty : cString text ≠ [] := by
      intro empty
      rw [empty] at isHead
      cases isHead
    rw [if_neg (by simp [isNul, zero]), isText,
      decimalDigits_eq (cString text) more noNul 0 (Nat.zero_le _), decimal_value, Nat.zero_mul,
      Nat.zero_add]
    refine ⟨_, rfl, fun number => ?_⟩
    unfold IsDecimal
    split
    next fits =>
      rw [Option.some.injEq]
      constructor
      · rintro rfl
        exact ⟨notEmpty, fits.1, rfl, fits.2⟩
      · exact fun isDecimal => isDecimal.2.2.1.symm
    next large =>
      constructor
      · intro none
        cases none
      · rintro ⟨_, digits, rfl, small⟩
        exact absurd ⟨digits, small⟩ large

end Aholyc.Http
