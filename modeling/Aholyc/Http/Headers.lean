import Mathlib.Data.List.TakeWhile
import Mathlib.Tactic.Common
import Aholyc.Http.Coding
import Aholyc.Lib.Blocks

/-!
# Header blocks

The functions of lib/http/http.hc over the header block of a message. A block holds the
bytes its pointer leads to, `none` is `NULL`, and every read is checked against the end of
the block: a C string ends at its first NUL, and a block without one is read past its end.
-/

namespace Aholyc.Http

open Aholyc.Lib

abbrev Pointer := Option (List UInt8)

def literal (text : String) : List UInt8 := text.toList.map Char.toUInt8

def isNul (byte : UInt8) : Bool := byte == 0

def cString (block : List UInt8) : List UInt8 := block.takeWhile (!isNul ·)

def strLen (text : List UInt8) : Checked Nat := lengthBefore isNul text

def httpStartsWithInsensitive : (text start : List UInt8) → Checked Bool
  | _, [] => .ok true
  | [], _ :: _ => .error .outside
  | byte :: text, expected :: start =>
    if byte = 0 ∨ httpAsciiLower byte ≠ httpAsciiLower expected then .ok false
    else httpStartsWithInsensitive text start

def equalBytes : (left right : List UInt8) → Checked Bool
  | _, [] => .ok true
  | [], _ :: _ => .error .outside
  | byte :: left, expected :: right =>
    if httpAsciiLower byte ≠ httpAsciiLower expected then .ok false else equalBytes left right

def httpBytesEqualInsensitive (left : List UInt8) (leftSize : Nat) (right : List UInt8) :
    Checked Bool :=
  if leftSize ≠ right.length then .ok false else equalBytes left right

def httpSlice (text : Pointer) (start finish : Nat) : Checked Pointer :=
  match text with
  | none => .ok none
  | some text =>
    if finish < start then .ok none
    else if finish > start ∧ finish > text.length then .error .outside
    else .ok (some ((text.drop start).take (finish - start) ++ [0]))

def isMethodByte (byte : UInt8) : Bool :=
  'A'.toUInt8 ≤ byte && byte ≤ 'Z'.toUInt8 || byte == '-'.toUInt8

def isTargetByte (byte : UInt8) : Bool := !(byte ≤ 32 || byte == 127)

def httpMethodIsSafe (method : Pointer) : Checked Bool :=
  match method with
  | none => .ok false
  | some method => do
    if isNul (← byteAt method 0) then
      .ok false
    else
      allBefore isNul isMethodByte method

def httpTargetIsSafe (target : Pointer) : Checked Bool :=
  match target with
  | none => .ok false
  | some target => do
    if (← byteAt target 0) ≠ '/'.toUInt8 then
      .ok false
    else
      allBefore isNul isTargetByte target

def isHeaderEnd (data : List UInt8) (i : Nat) : Checked Bool :=
  andAlso ((· == '\r'.toUInt8) <$> byteAt data i)
    (andAlso ((· == '\n'.toUInt8) <$> byteAt data (i + 1))
      (andAlso ((· == '\r'.toUInt8) <$> byteAt data (i + 2))
        ((· == '\n'.toUInt8) <$> byteAt data (i + 3))))

/-- `none` for the source's -1; `i` is where the loop stands. -/
def httpFindHeaderEnd (data : List UInt8) (size : Nat) (i : Nat) : Checked (Option Nat) :=
  if i + 3 < size then do
    if ← isHeaderEnd data i then .ok (some (i + 4)) else httpFindHeaderEnd data size (i + 1)
  else
    .ok none
termination_by size - i

/-- The bytes from `i` to the next line end, or to the last byte of the block. -/
def lineLength (headers : List UInt8) (headersLength i : Nat) : Checked Nat :=
  if i + 1 < headersLength then do
    let isEnd ← andAlso ((· == '\r'.toUInt8) <$> byteAt headers i)
      ((· == '\n'.toUInt8) <$> byteAt headers (i + 1))
    if isEnd then .ok 0 else return (← lineLength headers headersLength (i + 1)) + 1
  else
    .ok 0
termination_by headersLength - i

def isBlank (byte : UInt8) : Bool := byte == ' '.toUInt8 || byte == '\t'.toUInt8

/-- `while (position < headers_length)`. -/
def headerLines (headers : List UInt8) (headersLength : Nat) (name : List UInt8)
    (position : Nat) : Checked Pointer :=
  if position < headersLength then do
    let size ← lineLength headers headersLength position
    let lineFinish := position + size
    if lineFinish = position then
      .ok none
    else
      let colon := position +
        (← countWhile (· != ':'.toUInt8) headers lineFinish position)
      let named ← andAlso (.ok (colon < lineFinish))
        (httpBytesEqualInsensitive (headers.drop position) (colon - position) name)
      if named then
        let valueStart := colon + 1 + (← countWhile isBlank headers lineFinish (colon + 1))
        let valueFinish := valueStart +
          (← countBack isBlank headers valueStart (lineFinish - valueStart))
        httpSlice (some headers) valueStart valueFinish
      else
        headerLines headers headersLength name (lineFinish + 2)
  else
    .ok none
termination_by headersLength - position

def httpHeaderFind (headers : Pointer) (headersLength : Nat) (name : List UInt8) :
    Checked Pointer :=
  match headers with
  | none => .ok none
  | some headers => do
    let statusLine ← lineLength headers headersLength 0
    headerLines headers headersLength name (statusLine + 2)

def valueTokens (value : List UInt8) (length : Nat) (token : List UInt8) (start : Nat) :
    Checked Bool :=
  if start < length then do
    let start := start +
      (← countWhile (fun byte => isBlank byte || byte == ','.toUInt8) value length start)
    let size ← countWhile (· != ','.toUInt8) value length start
    let finish := start + (← countBack isBlank value start size)
    if ← httpBytesEqualInsensitive (value.drop start) (finish - start) token then
      .ok true
    else
      valueTokens value length token (finish + 1)
  else
    .ok false
termination_by length - start

def httpValueHasToken (value : Pointer) (token : List UInt8) : Checked Bool :=
  match value with
  | none => .ok false
  | some value => do valueTokens value (← strLen value) token 0

def decimalDigits (result : Nat) : List UInt8 → Checked (Option Nat)
  | [] => .error .outside
  | byte :: text =>
    if byte = 0 then .ok (some result)
    else if byte < '0'.toUInt8 ∨ byte > '9'.toUInt8 then .ok none
    else
      let result := result * 10 + (byte - '0'.toUInt8).toNat
      if result > httpMaxMessage then .ok none else decimalDigits result text

def httpParseDecimal (text : Pointer) : Checked (Option Nat) :=
  match text with
  | none => .ok none
  | some text => do
    if isNul (← byteAt text 0) then .ok none else decimalDigits 0 text

/-! ## C strings -/

theorem isNul_zero : isNul 0 = true := rfl

theorem httpAsciiLower_zero : httpAsciiLower 0 = 0 := by decide

variable {finish i : Nat} {data : List UInt8}

theorem httpSlice_eq (text : List UInt8) {start : Nat} (order : start ≤ finish)
    (inside : finish ≤ text.length) :
    httpSlice (some text) start finish =
      .ok (some ((text.drop start).take (finish - start) ++ [0])) := by
  unfold httpSlice
  dsimp only
  rw [if_neg (by omega), if_neg (by omega)]

theorem httpStartsWithInsensitive_eq (text : List UInt8) {start : List UInt8}
    (plain : 0 ∉ start.map httpAsciiLower) :
    httpStartsWithInsensitive (text ++ [0]) start =
      .ok ((text.take start.length).map httpAsciiLower == start.map httpAsciiLower) := by
  induction start generalizing text with
  | nil => simp [httpStartsWithInsensitive]
  | cons expected start ih =>
    rw [List.map_cons, List.mem_cons, not_or] at plain
    obtain ⟨nonzero, plain⟩ := plain
    cases text with
    | nil => simp [httpStartsWithInsensitive]
    | cons byte text =>
      rw [List.cons_append, httpStartsWithInsensitive, List.length_cons, List.take_succ_cons,
        List.map_cons, List.map_cons]
      by_cases same : httpAsciiLower byte = httpAsciiLower expected
      · have notNul : byte ≠ 0 := by
          intro isNul
          rw [isNul, httpAsciiLower_zero] at same
          exact nonzero same
        rw [if_neg (by simp [notNul, same]), ih text plain, same]
        simp
      · rw [if_pos (.inr same)]
        simp [same]

theorem firstByte (bytes : List UInt8) : ∃ byte, byteAt (bytes ++ [0]) 0 = .ok byte ∧
    (cString bytes).head? = if byte = 0 then none else some byte := by
  cases bytes with
  | nil => exact ⟨0, rfl, rfl⟩
  | cons byte bytes =>
    refine ⟨byte, rfl, ?_⟩
    unfold cString
    rw [List.takeWhile_cons]
    by_cases zero : byte = 0
    · rw [zero]
      rfl
    · simp [isNul, zero]

theorem httpMethodIsSafe_eq (method : List UInt8) :
    httpMethodIsSafe (some (method ++ [0])) =
      .ok (decide (cString method ≠ []) && (cString method).all isMethodByte) := by
  obtain ⟨byte, isByte, first⟩ := firstByte method
  have all : allBefore isNul isMethodByte (method ++ [0]) =
      .ok ((cString method).all isMethodByte) := allBefore_eq method isNul_zero []
  unfold httpMethodIsSafe
  dsimp only
  rw [isByte, Checked.ok_bind]
  by_cases zero : byte = 0
  · rw [if_pos zero, List.head?_eq_none_iff] at first
    rw [first, zero]
    rfl
  · have nonempty : cString method ≠ [] := by
      intro empty
      rw [empty, if_neg zero] at first
      cases first
    rw [if_neg (by simpa [isNul] using zero), decide_eq_true nonempty, Bool.true_and]
    exact all

theorem httpTargetIsSafe_eq (target : List UInt8) :
    httpTargetIsSafe (some (target ++ [0])) =
      .ok (decide ((cString target).head? = some '/'.toUInt8) &&
        (cString target).all isTargetByte) := by
  obtain ⟨byte, isByte, first⟩ := firstByte target
  have all : allBefore isNul isTargetByte (target ++ [0]) =
      .ok ((cString target).all isTargetByte) := allBefore_eq target isNul_zero []
  unfold httpTargetIsSafe
  dsimp only
  rw [isByte, Checked.ok_bind, first]
  by_cases slash : byte = '/'.toUInt8
  · rw [slash, if_neg (by decide), if_neg (by decide), decide_eq_true rfl, Bool.true_and]
    exact all
  · rw [if_pos slash]
    by_cases zero : byte = 0
    · rw [if_pos zero]
      rfl
    · simp [zero, slash]

theorem strLen_eq (text : List UInt8) : strLen (text ++ [0]) = .ok (cString text).length :=
  lengthBefore_eq text isNul_zero []

/-! ## Lines -/

def headerEnd : List UInt8 := literal "\r\n\r\n"

def EndsAt (data : List UInt8) (position : Nat) : Prop := headerEnd <+: data.drop position

theorem endsAt_iff (inside : i + 3 < data.length) :
    EndsAt data i ↔ data[i] = '\r'.toUInt8 ∧ data[i + 1] = '\n'.toUInt8 ∧
      data[i + 2] = '\r'.toUInt8 ∧ data[i + 3] = '\n'.toUInt8 := by
  have first : i < data.length := by omega
  have second : i + 1 < data.length := by omega
  have third : i + 2 < data.length := by omega
  have bytes : headerEnd = ['\r'.toUInt8, '\n'.toUInt8, '\r'.toUInt8, '\n'.toUInt8] := rfl
  unfold EndsAt
  rw [List.drop_eq_getElem_cons first, List.drop_eq_getElem_cons second,
    List.drop_eq_getElem_cons third, List.drop_eq_getElem_cons inside, bytes]
  simp only [List.cons_prefix_cons, List.nil_prefix, and_true, eq_comm]

theorem EndsAt.inside (ends : EndsAt data i) : i + 3 < data.length := by
  have le := ends.length_le
  have four : headerEnd.length = 4 := rfl
  rw [List.length_drop, four] at le
  omega

theorem EndsAt.append (ends : EndsAt data i) (more : List UInt8) : EndsAt (data ++ more) i := by
  have inside := ends.inside
  unfold EndsAt
  rw [List.drop_append_of_le_length (by omega)]
  exact ends.trans (List.prefix_append _ _)

theorem EndsAt.of_append {more : List UInt8} (ends : EndsAt (data ++ more) i)
    (inside : i + 3 < data.length) : EndsAt data i := by
  unfold EndsAt at ends
  rw [List.drop_append_of_le_length (by omega)] at ends
  apply List.prefix_of_prefix_length_le ends (List.prefix_append _ _)
  rw [List.length_drop]
  have four : headerEnd.length = 4 := rfl
  omega

def HeaderEnd (data : List UInt8) (finish : Nat) : Prop :=
  ∃ i, finish = i + 4 ∧ EndsAt data i ∧ ∀ j < i, ¬EndsAt data j

instance (data : List UInt8) (position : Nat) : Decidable (EndsAt data position) :=
  inferInstanceAs (Decidable (headerEnd <+: data.drop position))

theorem isHeaderEnd_eq (inside : i + 3 < data.length) :
    isHeaderEnd data i = .ok (decide (EndsAt data i)) := by
  unfold isHeaderEnd
  rw [byteAt_eq (by omega), byteAt_eq (by omega), byteAt_eq (by omega), byteAt_eq inside]
  simp only [Except.map_ok, andAlso_eq, Except.ok.injEq]
  rw [Bool.eq_iff_iff, decide_eq_true_iff, endsAt_iff inside]
  simp only [Bool.and_eq_true, beq_iff_eq]

theorem httpFindHeaderEnd_from (data : List UInt8) (i : Nat) :
    ∃ found, httpFindHeaderEnd data data.length i = .ok found ∧
      (found = none → ∀ j, i ≤ j → ¬EndsAt data j) ∧
      ∀ finish, found = some finish → ∃ j, finish = j + 4 ∧ i ≤ j ∧ EndsAt data j ∧
        ∀ k, i ≤ k → k < j → ¬EndsAt data k := by
  induction steps : data.length - i generalizing i with
  | zero =>
    unfold httpFindHeaderEnd
    rw [if_neg (by omega)]
    refine ⟨none, rfl, ?_, ?_⟩
    · intro _ j le ends
      have inside := ends.inside
      omega
    · intro finish absent
      cases absent
  | succ steps ih =>
    unfold httpFindHeaderEnd
    by_cases inside : i + 3 < data.length
    · have test := isHeaderEnd_eq inside
      rw [if_pos inside, test, Checked.ok_bind]
      by_cases ends : EndsAt data i
      · rw [if_pos (decide_eq_true ends)]
        refine ⟨some (i + 4), rfl, ?_, ?_⟩
        · intro absent
          cases absent
        · intro finish found
          cases found
          refine ⟨i, rfl, Nat.le_refl _, ends, ?_⟩
          intro k le lt
          omega
      · rw [if_neg (by simpa using ends)]
        obtain ⟨found, isFound, absent, present⟩ := ih (i + 1) (by omega)
        refine ⟨found, isFound, ?_, ?_⟩
        · intro none j le
          by_cases here : j = i
          · rw [here]
            exact ends
          · exact absent none j (by omega)
        · intro finish some
          obtain ⟨j, isFinish, le, endsThere, first⟩ := present finish some
          refine ⟨j, isFinish, by omega, endsThere, ?_⟩
          intro k le lt
          by_cases here : k = i
          · rw [here]
            exact ends
          · exact first k (by omega) lt
    · rw [if_neg inside]
      refine ⟨none, rfl, ?_, ?_⟩
      · intro _ j le ends
        have inside' := ends.inside
        omega
      · intro finish absent
        cases absent

theorem httpFindHeaderEnd_eq (data : List UInt8) :
    ∃ found, httpFindHeaderEnd data data.length 0 = .ok found ∧
      ∀ finish, found = some finish ↔ HeaderEnd data finish := by
  obtain ⟨found, isFound, absent, present⟩ := httpFindHeaderEnd_from data 0
  refine ⟨found, isFound, ?_⟩
  intro finish
  constructor
  · intro some
    obtain ⟨i, isFinish, _, ends, first⟩ := present finish some
    exact ⟨i, isFinish, ends, fun j before => first j (Nat.zero_le _) before⟩
  intro headerEnd
  obtain ⟨i, isFinish, ends, first⟩ := headerEnd
  cases found with
  | none => exact absurd ends (absent rfl i (Nat.zero_le _))
  | some finish' =>
    obtain ⟨j, isFinish', _, ends', first'⟩ := present finish' rfl
    have noLess := first' i (Nat.zero_le _)
    have noMore := first j
    have same : j = i := by
      rcases Nat.lt_trichotomy i j with less | same | more
      · exact absurd ends (noLess less)
      · exact same.symm
      · exact absurd ends' (noMore more)
    rw [isFinish, isFinish', same]

theorem HeaderEnd.append (headerEnd : HeaderEnd data finish) (more : List UInt8) :
    HeaderEnd (data ++ more) finish := by
  obtain ⟨i, isFinish, ends, first⟩ := headerEnd
  refine ⟨i, isFinish, ends.append more, ?_⟩
  intro j before endsThere
  have inside := ends.inside
  exact first j before (endsThere.of_append (by omega))

theorem HeaderEnd.bounds (headerEnd : HeaderEnd data finish) :
    4 ≤ finish ∧ finish ≤ data.length := by
  obtain ⟨i, isFinish, ends, _⟩ := headerEnd
  have inside := ends.inside
  omega

end Aholyc.Http
