import Mathlib.Data.List.TakeWhile
import Mathlib.Tactic.Common
import Aholyc.Http.Headers
import Aholyc.Http.RoundTrip

/-!
# The reads of the chunk decoder

`HttpDecodeChunked` by positions in the encoded bytes, every read checked against their end:
it yields what the decoder over suffixes yields, and that is settled once it has read the
size line of zero.
-/

namespace Aholyc.Http

open Aholyc.Lib

/-- The size, whether there was a digit, and how many were read. -/
def chunkDigits (encoded : List UInt8) (encodedSize position chunkSize : Nat)
    (haveDigit : Bool) : Checked (Option (Nat × Bool × Nat)) :=
  if position < encodedSize then do
    let byte ← byteAt encoded position
    if byte ≠ '\r'.toUInt8 ∧ byte ≠ ';'.toUInt8 then
      match httpHexValue byte with
      | none => .ok none
      | some digit =>
        if chunkSize <<< 4 ||| digit > httpMaxMessage then
          .ok none
        else
          return (← chunkDigits encoded encodedSize (position + 1) (chunkSize <<< 4 ||| digit)
            true).map fun (size, have_, digits) => (size, have_, digits + 1)
    else
      .ok (some (chunkSize, haveDigit, 0))
  else
    .ok (some (chunkSize, haveDigit, 0))
termination_by encodedSize - position

def lineEndsAt (encoded : List UInt8) (position : Nat) : Checked Bool :=
  andAlso ((· == '\r'.toUInt8) <$> byteAt encoded position)
    ((· == '\n'.toUInt8) <$> byteAt encoded (position + 1))

def decodeChunks (encoded : List UInt8) (encodedSize position : Nat) (decoded : List UInt8) :
    Checked (Option (List UInt8)) :=
  if position < encodedSize then do
    match ← chunkDigits encoded encodedSize position 0 false with
    | none => .ok none
    | some (chunkSize, haveDigit, digits) =>
      if ¬haveDigit then
        .ok none
      else
        let lineEnd := position + digits +
          (← countWhile (· ≠ '\r'.toUInt8) encoded encodedSize (position + digits))
        let isLine ← andAlso (.ok (lineEnd + 1 < encodedSize)) (lineEndsAt encoded lineEnd)
        if ¬isLine then
          .ok none
        else if chunkSize = 0 then
          .ok (some decoded)
        else
          let data := lineEnd + 2
          let isWhole ← andAlso (.ok (data + chunkSize + 2 ≤ encodedSize))
            (lineEndsAt encoded (data + chunkSize))
          if ¬isWhole ∨ decoded.length > httpMaxMessage - chunkSize then
            .ok none
          else
            decodeChunks encoded encodedSize (data + chunkSize + 2)
              (decoded ++ (encoded.drop data).take chunkSize)
  else
    .ok none
termination_by encodedSize - position

def decodeChunked (encoded : List UInt8) (encodedSize : Nat) :
    Checked (Option (List UInt8 × Nat)) := do
  match ← decodeChunks encoded encodedSize 0 [] with
  | none => .ok none
  | some decoded => .ok (some (decoded ++ [0], decoded.length))

/-! ## The positions and the suffixes -/

theorem chunkDigits_eq (encoded : List UInt8) (position size : Nat) (haveDigit : Bool) :
    ∃ found, chunkDigits encoded encoded.length position size haveDigit = .ok found ∧
      sizeDigits size haveDigit (encoded.drop position) =
        found.map fun read => (read.1, read.2.1, encoded.drop (position + read.2.2)) := by
  induction steps : encoded.length - position generalizing position size haveDigit with
  | zero =>
    have past : encoded.drop position = [] := List.drop_eq_nil_of_le (by omega)
    unfold chunkDigits
    rw [if_neg (by omega), past]
    exact ⟨_, rfl, by rw [Option.map_some, Nat.add_zero, past]; rfl⟩
  | succ steps ih =>
    have inside : position < encoded.length := by omega
    have here := List.drop_eq_getElem_cons inside
    unfold chunkDigits
    rw [if_pos inside, byteAt_eq inside, Checked.ok_bind]
    by_cases plain : encoded[position] ≠ '\r'.toUInt8 ∧ encoded[position] ≠ ';'.toUInt8
    · rw [if_pos plain, here, sizeDigits, if_pos plain]
      cases isDigit : httpHexValue encoded[position] with
      | none => exact ⟨none, rfl, rfl⟩
      | some digit =>
        dsimp only
        by_cases large : size <<< 4 ||| digit > httpMaxMessage
        · rw [if_pos large, if_pos large]
          exact ⟨none, rfl, rfl⟩
        · obtain ⟨found, isFound, same⟩ := ih (position + 1) (size <<< 4 ||| digit) true (by omega)
          rw [if_neg large, if_neg large, isFound, Checked.ok_bind, same]
          refine ⟨_, rfl, ?_⟩
          rw [Option.map_map]
          apply Option.map_congr
          intro read _
          simp only [Function.comp_apply, Nat.add_assoc, Nat.add_comm 1]
    · rw [if_neg plain]
      refine ⟨_, rfl, ?_⟩
      rw [here, sizeDigits, if_neg plain]
      simp only [Option.map_some, Nat.add_zero, here]

variable {encoded : List UInt8}

/-- The test for a line end, at a position with two bytes left. -/
theorem lineEndsAt_eq {position : Nat} (inside : position + 1 < encoded.length) :
    lineEndsAt encoded position =
      .ok (encoded[position] == '\r'.toUInt8 && encoded[position + 1] == '\n'.toUInt8) := by
  unfold lineEndsAt
  rw [byteAt_eq (by omega), byteAt_eq inside]
  exact andAlso_eq _ _

theorem lineEndsAt_within (encoded : List UInt8) (position : Nat) (bound : Bool)
    (safe : bound = true → position + 1 < encoded.length) :
    ∃ isLine, andAlso (.ok bound) (lineEndsAt encoded position) = .ok isLine ∧
      (isLine = true ↔ bound = true ∧ encoded[position]? = some '\r'.toUInt8 ∧
        encoded[position + 1]? = some '\n'.toUInt8) := by
  cases bound with
  | false =>
    refine ⟨false, rfl, ?_⟩
    simp
  | true =>
    have inside := safe rfl
    rw [lineEndsAt_eq inside, andAlso_eq]
    refine ⟨_, rfl, ?_⟩
    rw [List.getElem?_eq_getElem inside, List.getElem?_eq_getElem (by omega)]
    simp

theorem dropWhile_drop (test : UInt8 → Bool) (encoded : List UInt8) (position : Nat) :
    (encoded.drop position).dropWhile test =
      encoded.drop (position + ((encoded.drop position).takeWhile test).length) := by
  have left : ((encoded.drop position).takeWhile test ++ (encoded.drop position).dropWhile test).drop
      ((encoded.drop position).takeWhile test).length = (encoded.drop position).dropWhile test :=
    List.drop_left
  rw [List.takeWhile_append_dropWhile, List.drop_drop] at left
  exact left.symm

theorem takeWhile_stops (test : UInt8 → Bool) (encoded : List UInt8) (position : Nat) :
    ∀ byte, encoded[position + ((encoded.drop position).takeWhile test).length]? = some byte →
      test byte = false := by
  intro byte isByte
  rw [← List.head?_drop, ← dropWhile_drop] at isByte
  have stops := List.head?_dropWhile_not test (encoded.drop position)
  rw [isByte] at stops
  simpa using stops

theorem chunkLoop_done {rest decoded : List UInt8} (nonempty : rest ≠ [])
    (done : chunkRound rest decoded = .done) : chunkLoop rest decoded = some decoded := by
  unfold chunkLoop
  rw [if_neg nonempty, done]

theorem chunkLoop_next {rest decoded rest' decoded' : List UInt8} (nonempty : rest ≠ [])
    (next : chunkRound rest decoded = .next rest' decoded') :
    chunkLoop rest decoded = chunkLoop rest' decoded' := by
  conv_lhs => unfold chunkLoop
  rw [if_neg nonempty, next]

/-- The round over what is left at a position, after its digits. -/
theorem chunkRound_at {position size digits : Nat} {haveDigit : Bool} {lineEnd : Nat}
    (decoded : List UInt8) (read : sizeDigits 0 false (encoded.drop position) =
      some (size, haveDigit, encoded.drop (position + digits)))
    (isEnd : lineEnd = position + digits +
      ((encoded.drop (position + digits)).takeWhile (· ≠ '\r'.toUInt8)).length) :
    chunkRound (encoded.drop position) decoded =
      if ¬haveDigit then .failed
      else if ¬(lineEnd + 1 < encoded.length ∧ encoded[lineEnd]? = some '\r'.toUInt8 ∧
          encoded[lineEnd + 1]? = some '\n'.toUInt8) then .failed
      else if size = 0 then .done
      else if ¬(lineEnd + 2 + size + 2 ≤ encoded.length ∧
          encoded[lineEnd + 2 + size]? = some '\r'.toUInt8 ∧
          encoded[lineEnd + 2 + size + 1]? = some '\n'.toUInt8) ∨
          decoded.length > httpMaxMessage - size then .failed
      else .next (encoded.drop (lineEnd + 2 + size + 2))
        (decoded ++ (encoded.drop (lineEnd + 2)).take size) := by
  unfold chunkRound
  rw [read]
  dsimp only
  by_cases noDigit : ¬haveDigit = true
  · rw [if_pos noDigit, if_pos noDigit]
  rw [if_neg noDigit, if_neg noDigit, dropWhile_drop, ← isEnd]
  by_cases enough : lineEnd + 1 < encoded.length
  · have isCr := takeWhile_stops (· ≠ '\r'.toUInt8) encoded (position + digits)
    rw [← isEnd] at isCr
    have line : encoded.drop lineEnd =
        encoded[lineEnd] :: encoded[lineEnd + 1] :: encoded.drop (lineEnd + 2) := by
      rw [List.drop_eq_getElem_cons (by omega), List.drop_eq_getElem_cons enough]
    rw [List.getElem?_eq_getElem (by omega)] at isCr
    have cr : encoded[lineEnd] = '\r'.toUInt8 := by
      have stopped := isCr _ rfl
      simpa using stopped
    rw [line, List.getElem?_eq_getElem (by omega), List.getElem?_eq_getElem enough]
    simp only [enough, cr, true_and, Option.some.injEq, List.length_drop, ne_eq,
      List.getD_eq_getElem?_getD, List.getElem?_drop, List.drop_drop, ← Nat.add_assoc]
    have refused : (size + 2 > encoded.length - (lineEnd + 2) ∨
        ¬encoded[lineEnd + 2 + size]?.getD 0 = '\r'.toUInt8 ∨
        ¬encoded[lineEnd + 2 + size + 1]?.getD 0 = '\n'.toUInt8 ∨
        decoded.length > httpMaxMessage - size) ↔
        (¬(lineEnd + 2 + size + 2 ≤ encoded.length ∧
          encoded[lineEnd + 2 + size]? = some '\r'.toUInt8 ∧
          encoded[lineEnd + 2 + size + 1]? = some '\n'.toUInt8) ∨
        decoded.length > httpMaxMessage - size) := by
      by_cases full : lineEnd + 2 + size + 2 ≤ encoded.length
      · have fits : ¬size + 2 > encoded.length - (lineEnd + 2) := by omega
        rw [List.getElem?_eq_getElem (by omega), List.getElem?_eq_getElem (by omega)]
        simp only [fits, full, false_or, true_and, Option.getD_some, Option.some.injEq,
          Decidable.not_and_iff_not_or_not, or_assoc]
      · have beyond : size + 2 > encoded.length - (lineEnd + 2) := by omega
        simp only [beyond, full, true_or, false_and, not_false_eq_true]
    simp only [refused]
  · have short : encoded.drop lineEnd = [] ∨ ∃ byte, encoded.drop lineEnd = [byte] := by
      by_cases none : encoded.length ≤ lineEnd
      · exact .inl (List.drop_eq_nil_of_le none)
      · have one : (encoded.drop lineEnd).length = 1 := by
          rw [List.length_drop]
          omega
        exact .inr (List.length_eq_one_iff.mp one)
    rw [if_pos (fun within => enough within.1)]
    cases short with
    | inl none => rw [none]
    | inr one =>
      obtain ⟨byte, isByte⟩ := one
      rw [isByte]

theorem decodeChunks_eq (encoded : List UInt8) (position : Nat) (decoded : List UInt8) :
    decodeChunks encoded encoded.length position decoded =
      .ok (chunkLoop (encoded.drop position) decoded) := by
  induction left : encoded.length - position using Nat.strong_induction_on
    generalizing position decoded with
  | _ left ih =>
    unfold decodeChunks
    by_cases inside : position < encoded.length
    · rw [if_pos inside]
      obtain ⟨found, isFound, digits⟩ := chunkDigits_eq encoded position 0 false
      have nonempty : encoded.drop position ≠ [] := by
        intro empty
        have short := List.drop_eq_nil_iff.mp empty
        omega
      rw [isFound, Checked.ok_bind]
      cases found with
      | none =>
        have failed : chunkRound (encoded.drop position) decoded = .failed := by
          unfold chunkRound
          rw [digits]
          rfl
        rw [chunkLoop_failed failed]
      | some read =>
        obtain ⟨chunkSize, haveDigit, count⟩ := read
        dsimp only [Option.map_some] at digits ⊢
        have counted := countWhile_eq (· ≠ '\r'.toUInt8) (Nat.le_refl encoded.length)
          (position + count)
        rw [List.take_length] at counted
        obtain ⟨lineEnd, isEnd⟩ : ∃ lineEnd, lineEnd = position + count +
          ((encoded.drop (position + count)).takeWhile (· ≠ '\r'.toUInt8)).length := ⟨_, rfl⟩
        have round := chunkRound_at decoded digits isEnd
        by_cases noDigit : ¬haveDigit = true
        · rw [if_pos noDigit] at round ⊢
          rw [chunkLoop_failed round]
        rw [if_neg noDigit] at round ⊢
        obtain ⟨isLine, readLine, line⟩ :=
          lineEndsAt_within encoded lineEnd (decide (lineEnd + 1 < encoded.length))
            of_decide_eq_true
        rw [counted, Checked.ok_bind, ← isEnd, readLine, Checked.ok_bind]
        rw [decide_eq_true_iff] at line
        simp only [← line] at round
        by_cases noLine : ¬isLine = true
        · rw [if_pos noLine] at round ⊢
          rw [chunkLoop_failed round]
        rw [if_neg noLine] at round ⊢
        by_cases zero : chunkSize = 0
        · rw [if_pos zero] at round ⊢
          rw [chunkLoop_done nonempty round]
        rw [if_neg zero] at round ⊢
        obtain ⟨isWhole, readWhole, whole⟩ :=
          lineEndsAt_within encoded (lineEnd + 2 + chunkSize)
            (decide (lineEnd + 2 + chunkSize + 2 ≤ encoded.length)) (by
              intro bound
              have bound := of_decide_eq_true bound
              omega)
        rw [readWhole, Checked.ok_bind]
        rw [decide_eq_true_iff] at whole
        simp only [← whole] at round
        by_cases refused : ¬isWhole = true ∨ decoded.length > httpMaxMessage - chunkSize
        · rw [if_pos refused] at round ⊢
          rw [chunkLoop_failed round]
        rw [if_neg refused] at round ⊢
        rw [chunkLoop_next nonempty round, ih _ (by omega) _ _ rfl]
    · rw [if_neg inside, List.drop_eq_nil_of_le (by omega)]
      unfold chunkLoop
      rw [if_pos rfl]

/-- The decoder reads nothing outside of the bytes it is given. -/
theorem decodeChunked_eq (encoded : List UInt8) :
    decodeChunked encoded encoded.length = .ok (httpDecodeChunked encoded) := by
  unfold decodeChunked httpDecodeChunked
  rw [decodeChunks_eq, Checked.ok_bind, List.drop_zero]
  cases chunkLoop encoded [] with
  | none => rfl
  | some decoded => rfl

/-- What the decoder has accepted it accepts with whatever follows. -/
theorem httpDecodeChunked_append {body : List UInt8 × Nat}
    (accepted : httpDecodeChunked encoded = some body) (more : List UInt8) :
    httpDecodeChunked (encoded ++ more) = some body := by
  obtain ⟨result, loop, isBody⟩ := Option.bind_eq_some_iff.mp accepted
  obtain ⟨chunks, last, rest, zero, isInput, isResult, bound⟩ :=
    chunkLoop_some loop (Nat.zero_le _)
  rw [List.nil_append] at isResult
  rw [isInput, List.append_assoc, List.append_assoc, decodeChunked_chunks chunks last zero,
    if_pos (by rw [← isResult]; exact bound), ← isResult]
  exact isBody

end Aholyc.Http
