import Mathlib.Data.List.TakeWhile
import Mathlib.Tactic.Common
import Aholyc.Http.Coding
import Aholyc.Text.Utf8

/-!
# Decoding undoes encoding

Percent and form coding round trip on every byte string the encoder accepts. A
chunked body is a list of `Chunk`s and a last line with size zero; the decoder
accepts exactly these, up to the limit on a message, and yields the chunks' bytes.
-/

namespace Aholyc.Http

open Aholyc.Text

/-! ## Percent and form coding -/

/-- The two digits of a byte are read back as its halves, which make it up. -/
theorem hexDigits_value (byte : UInt8) :
    httpHexValue (httpHexDigit (byte >>> 4)) = some (byte.toNat / 16) ∧
      httpHexValue (httpHexDigit (byte &&& 15)) = some (byte.toNat % 16) ∧
      UInt8.ofNat ((byte.toNat / 16) <<< 4 ||| byte.toNat % 16) = byte := by
  revert byte
  apply byte_cases
  decide +kernel

/-- The bytes that stand for themselves are no signs of the coding. -/
theorem unreserved_plain (byte : UInt8) : httpUrlByteIsUnreserved byte = true →
    byte ≠ '%'.toUInt8 ∧ byte ≠ '+'.toUInt8 := by
  intro unreserved
  constructor <;> rintro rfl <;> exact absurd unreserved (by decide)

theorem encodeByte_nonzero (form : Bool) (byte : UInt8) :
    (encodeByte form byte).all (fun code => code != 0) = true := by
  obtain ⟨high, low, -⟩ := hexDigits_value byte
  have hex {code n} (read : httpHexValue code = some n) : code ≠ 0 := by
    rintro rfl
    cases read
  unfold encodeByte
  split
  next plain =>
    have notNul : byte ≠ 0 := by
      rintro rfl
      cases plain
    simp [notNul]
  split
  · rfl
  · simp [hex high, hex low, show '%'.toUInt8 ≠ 0 by decide]

theorem decodeBytes_encodeByte (form : Bool) (byte : UInt8) (rest : List UInt8) :
    decodeBytes form (encodeByte form byte ++ rest) =
      (decodeBytes form rest).map (List.cons byte) := by
  obtain ⟨high, low, join⟩ := hexDigits_value byte
  unfold encodeByte
  split
  next unreserved =>
    obtain ⟨notPercent, notPlus⟩ := unreserved_plain byte unreserved
    rw [List.singleton_append]
    conv_lhs => unfold decodeBytes
    rw [if_neg notPercent, if_neg (fun plus => notPlus plus.2)]
    cases decodeBytes form rest with
    | none => rfl
    | some decoded => rfl
  split
  next space =>
    obtain ⟨isForm, isSpace⟩ := space
    rw [List.singleton_append]
    conv_lhs => unfold decodeBytes
    rw [if_neg (by decide), if_pos ⟨isForm, rfl⟩, isSpace]
    cases decodeBytes form rest with
    | none => rfl
    | some decoded => rfl
  · simp only [List.cons_append, List.nil_append]
    conv_lhs => unfold decodeBytes
    rw [if_pos rfl]
    simp only [high, low, Option.bind_eq_bind, Option.bind_some, join]
    cases decodeBytes form rest with
    | none => rfl
    | some decoded => rfl

theorem decodeBytes_encode (form : Bool) (bytes : List UInt8) :
    decodeBytes form (bytes.flatMap (encodeByte form)) = some bytes := by
  induction bytes with
  | nil => rfl
  | cons byte bytes ih =>
    rw [List.flatMap_cons, decodeBytes_encodeByte, ih, Option.map_some]

/-- The length that `StrLen` finds in an encoded block. -/
theorem sized_encode (form : Bool) (bytes : List UInt8) :
    sized (bytes.flatMap (encodeByte form) ++ [0]) (-1) = bytes.flatMap (encodeByte form) := by
  have nonzero : ∀ byte ∈ bytes.flatMap (encodeByte form), byte ≠ 0 := by
    intro byte member
    obtain ⟨source, _, coded⟩ := List.mem_flatMap.mp member
    have nonzero := List.all_eq_true.mp (encodeByte_nonzero form source) byte coded
    exact bne_iff_ne.mp nonzero
  unfold sized
  rw [if_pos (by decide), List.takeWhile_append_of_pos]
  · rw [List.takeWhile_cons_of_neg (by decide), List.append_nil]
  · intro byte member
    exact decide_eq_true (nonzero byte member)

theorem sized_given (bytes rest : List UInt8) : sized (bytes ++ rest) bytes.length = bytes := by
  unfold sized
  rw [if_neg (by omega), Int.toNat_natCast, List.take_left]

theorem sized_whole (bytes : List UInt8) : sized bytes bytes.length = bytes := by
  have given := sized_given bytes []
  rwa [List.append_nil] at given

/-- Decoding what was encoded, with the size left out or given. -/
theorem urlDecode_urlEncode {bytes : List UInt8} (form : Bool)
    (small : bytes.length ≤ (httpMaxMessage - 1) / 3) :
    ∃ encoded, httpUrlEncodeMode (some bytes) bytes.length form = some (encoded ++ [0]) ∧
      httpUrlDecodeMode (some (encoded ++ [0])) (-1) form = some (bytes ++ [0], bytes.length) ∧
      httpUrlDecodeMode (some (encoded ++ [0])) encoded.length form =
        some (bytes ++ [0], bytes.length) := by
  refine ⟨bytes.flatMap (encodeByte form), ?_, ?_, ?_⟩
  · simp only [httpUrlEncodeMode, sized_whole]
    rw [if_neg (by omega)]
  · simp only [httpUrlDecodeMode, Option.bind_eq_bind, Option.bind_some, sized_encode,
      decodeBytes_encode]
  · simp only [httpUrlDecodeMode, Option.bind_eq_bind, Option.bind_some, sized_given,
      decodeBytes_encode]

/-- The encoder refuses what is longer than the limit allows. -/
theorem urlEncode_long {bytes : List UInt8} (form : Bool)
    (long : (httpMaxMessage - 1) / 3 < bytes.length) :
    httpUrlEncodeMode (some bytes) bytes.length form = none := by
  simp only [httpUrlEncodeMode, sized_whole]
  rw [if_pos (by omega)]

/-! ## The size line of a chunk -/

/-- The place of the byte among the hexadecimal digits. -/
def hexDigit (byte : UInt8) : Option Nat :=
  "0123456789abcdef".toList.idxOf? (Char.ofNat byte.toNat).toLower

def hexNumber (size : Nat) : List UInt8 → Option Nat
  | [] => some size
  | byte :: digits => (hexDigit byte).bind fun digit => hexNumber (size * 16 + digit) digits

theorem httpHexValue_eq (byte : UInt8) : httpHexValue byte = hexDigit byte := by
  revert byte
  apply Text.byte_cases
  decide +kernel

/-- A chunk extension: nothing, or what follows a semicolon up to the end of the line. -/
def IsExtension (extension : List UInt8) : Prop :=
  extension = [] ∨ extension.head? = some ';'.toUInt8 ∧ '\r'.toUInt8 ∉ extension

/-- The digits of a size and an extension, as they stand before the line's end. -/
structure SizeLine where
  digits : List UInt8
  extension : List UInt8
  size : Nat
  some_digit : digits ≠ []
  number : hexNumber 0 digits = some size
  isExtension : IsExtension extension

def SizeLine.text (line : SizeLine) : List UInt8 :=
  line.digits ++ (line.extension ++ ['\r'.toUInt8, '\n'.toUInt8])

theorem httpHexValue_plain {byte : UInt8} {digit : Nat} (isDigit : httpHexValue byte = some digit) :
    digit < 16 ∧ byte ≠ '\r'.toUInt8 ∧ byte ≠ ';'.toUInt8 := by
  have all : (httpHexValue byte).all (fun digit => digit < 16) = true ∧
      (httpHexValue byte = none ∨ byte ≠ '\r'.toUInt8 ∧ byte ≠ ';'.toUInt8) := by
    clear isDigit
    revert byte
    apply byte_cases
    decide +kernel
  rw [isDigit] at all
  obtain ⟨low, plain⟩ := all
  cases plain with
  | inl absent => cases absent
  | inr plain => exact ⟨of_decide_eq_true low, plain⟩

variable {size value : Nat} {digits rest input decoded : List UInt8}

theorem shift_digit {digit : Nat} (low : digit < 16) :
    size <<< 4 ||| digit = size * 16 + digit := by
  rw [← Nat.shiftLeft_add_eq_or_of_lt (i := 4) (by omega), Nat.shiftLeft_eq]

theorem hexNumber_le (number : hexNumber size digits = some value) : size ≤ value := by
  induction digits generalizing size with
  | nil =>
    cases number
    exact Nat.le_refl _
  | cons byte digits ih =>
    obtain ⟨digit, _, rest⟩ := Option.bind_eq_some_iff.mp number
    have le := ih rest
    omega

/-- Digits of a number within the limit are read up to their end. -/
theorem sizeDigits_number (haveDigit : Bool) (number : hexNumber size digits = some value)
    (fits : value ≤ httpMaxMessage)
    (ends : ∀ byte, rest.head? = some byte → byte = '\r'.toUInt8 ∨ byte = ';'.toUInt8) :
    sizeDigits size haveDigit (digits ++ rest) = some (value, haveDigit || digits ≠ [], rest) := by
  induction digits generalizing size haveDigit with
  | nil =>
    cases number
    rw [List.nil_append]
    cases rest with
    | nil => simp [sizeDigits]
    | cons byte rest =>
      have isEnd := ends byte rfl
      unfold sizeDigits
      rw [if_neg (by
        intro plain
        cases isEnd with
        | inl same => exact plain.1 same
        | inr same => exact plain.2 same)]
      simp
  | cons byte digits ih =>
    obtain ⟨digit, isDigit, more⟩ := Option.bind_eq_some_iff.mp number
    rw [← httpHexValue_eq] at isDigit
    obtain ⟨low, notCr, notSemi⟩ := httpHexValue_plain isDigit
    have le := hexNumber_le more
    rw [List.cons_append]
    unfold sizeDigits
    rw [if_pos ⟨notCr, notSemi⟩]
    simp only [isDigit, shift_digit low]
    rw [if_neg (by omega), ih true more]
    simp

/-- Digits of a number beyond the limit end the decoding. -/
theorem sizeDigits_overflow {haveDigit : Bool} (number : hexNumber size digits = some value)
    (small : size ≤ httpMaxMessage) (large : httpMaxMessage < value) :
    sizeDigits size haveDigit (digits ++ rest) = none := by
  induction digits generalizing size haveDigit with
  | nil =>
    cases number
    omega
  | cons byte digits ih =>
    obtain ⟨digit, isDigit, more⟩ := Option.bind_eq_some_iff.mp number
    rw [← httpHexValue_eq] at isDigit
    obtain ⟨low, notCr, notSemi⟩ := httpHexValue_plain isDigit
    rw [List.cons_append]
    unfold sizeDigits
    rw [if_pos ⟨notCr, notSemi⟩]
    simp only [isDigit, shift_digit low]
    split
    · rfl
    · exact ih more (by omega)

theorem sizeDigits_some {haveDigit haveDigit' : Bool} (small : size ≤ httpMaxMessage)
    (read : sizeDigits size haveDigit input = some (value, haveDigit', rest)) :
    ∃ digits, input = digits ++ rest ∧ hexNumber size digits = some value ∧
      haveDigit' = (haveDigit || digits ≠ []) ∧ value ≤ httpMaxMessage ∧
      ∀ byte, rest.head? = some byte → byte = '\r'.toUInt8 ∨ byte = ';'.toUInt8 := by
  induction input generalizing size haveDigit with
  | nil =>
    cases read
    exact ⟨[], rfl, rfl, by simp, small, by simp⟩
  | cons byte input ih =>
    unfold sizeDigits at read
    split at read
    · split at read
      · cases read
      next digit isDigit =>
        obtain ⟨low, _, _⟩ := httpHexValue_plain isDigit
        rw [shift_digit low] at read
        split at read
        · cases read
        · obtain ⟨digits, isInput, number, digit', fits, ends⟩ := ih (by omega) read
          refine ⟨byte :: digits, by rw [isInput, List.cons_append], ?_, ?_, fits, ends⟩
          · simp only [hexNumber, ← httpHexValue_eq, isDigit, Option.bind_some]
            exact number
          · simpa using digit'
    next isEnd =>
      cases read
      refine ⟨[], rfl, rfl, by simp, small, ?_⟩
      intro first isFirst
      cases isFirst
      by_cases isCr : byte = '\r'.toUInt8
      · exact .inl isCr
      · by_cases isSemi : byte = ';'.toUInt8
        · exact .inr isSemi
        · exact absurd ⟨isCr, isSemi⟩ isEnd

/-! ## Rounds -/

theorem SizeLine.ends (line : SizeLine) (rest : List UInt8) :
    ∀ byte, (line.extension ++ ('\r'.toUInt8 :: rest)).head? = some byte →
      byte = '\r'.toUInt8 ∨ byte = ';'.toUInt8 := by
  intro byte first
  cases line.isExtension with
  | inl none =>
    rw [none] at first
    cases first
    exact .inl rfl
  | inr some =>
    rw [List.head?_append, some.1] at first
    cases first
    exact .inr rfl

theorem SizeLine.skip (line : SizeLine) (rest : List UInt8) :
    (line.extension ++ ('\r'.toUInt8 :: rest)).dropWhile (· ≠ '\r'.toUInt8) =
      '\r'.toUInt8 :: rest := by
  have noCr : ∀ byte ∈ line.extension, decide (byte ≠ '\r'.toUInt8) = true := by
    intro byte member
    apply decide_eq_true
    intro isCr
    cases line.isExtension with
    | inl none =>
      rw [none] at member
      cases member
    | inr some =>
      rw [isCr] at member
      exact some.2 member
  rw [List.dropWhile_append_of_pos noCr, List.dropWhile_cons_of_neg (by decide)]

theorem SizeLine.text_append (line : SizeLine) (rest : List UInt8) :
    line.text ++ rest =
      line.digits ++ (line.extension ++ ('\r'.toUInt8 :: '\n'.toUInt8 :: rest)) := by
  simp only [SizeLine.text, List.append_assoc, List.cons_append, List.nil_append]

/-- The round over a size line that is within the limit. -/
theorem chunkRound_line (line : SizeLine) (rest decoded : List UInt8)
    (fits : line.size ≤ httpMaxMessage) :
    chunkRound (line.text ++ rest) decoded =
      if line.size = 0 then .done
      else if line.size + 2 > rest.length ∨ rest.getD line.size 0 ≠ '\r'.toUInt8 ∨
          rest.getD (line.size + 1) 0 ≠ '\n'.toUInt8 ∨
          decoded.length > httpMaxMessage - line.size then .failed
      else .next (rest.drop (line.size + 2)) (decoded ++ rest.take line.size) := by
  have digits := sizeDigits_number false line.number fits
    (line.ends ('\n'.toUInt8 :: rest))
  have haveDigit : (false || decide (line.digits ≠ [])) = true := by
    rw [Bool.false_or]
    exact decide_eq_true line.some_digit
  rw [haveDigit] at digits
  unfold chunkRound
  rw [line.text_append, digits]
  dsimp only
  rw [if_neg (by decide), line.skip]
  dsimp only
  rw [if_neg (by decide)]

/-- The digits of a size beyond the limit end the decoding, whatever follows. -/
theorem chunkRound_overflow (number : hexNumber 0 digits = some size)
    (large : httpMaxMessage < size) (rest decoded : List UInt8) :
    chunkRound (digits ++ rest) decoded = .failed := by
  unfold chunkRound
  rw [sizeDigits_overflow number (Nat.zero_le _) large]

/-- A size line that announces more than there is ends the decoding. -/
theorem chunkRound_beyond (line : SizeLine) (rest decoded : List UInt8) (some : line.size ≠ 0)
    (beyond : rest.length < line.size + 2) :
    chunkRound (line.text ++ rest) decoded = .failed := by
  by_cases fits : line.size ≤ httpMaxMessage
  · rw [chunkRound_line line rest decoded fits, if_neg some, if_pos (.inl beyond)]
  · rw [SizeLine.text, List.append_assoc]
    exact chunkRound_overflow line.number (by omega) _ _

theorem isExtension_takeWhile {left : List UInt8}
    (ends : ∀ byte, left.head? = some byte → byte = '\r'.toUInt8 ∨ byte = ';'.toUInt8) :
    IsExtension (left.takeWhile (· ≠ '\r'.toUInt8)) := by
  have noCr : '\r'.toUInt8 ∉ left.takeWhile (· ≠ '\r'.toUInt8) := by
    intro member
    have passes := List.mem_takeWhile_imp member
    exact absurd passes (by decide)
  cases left with
  | nil => exact .inl rfl
  | cons byte left =>
    cases ends byte rfl with
    | inl isCr =>
      rw [isCr, List.takeWhile_cons_of_neg (by decide)]
      exact .inl rfl
    | inr isSemi =>
      rw [isSemi, List.takeWhile_cons_of_pos (by decide)] at noCr ⊢
      exact .inr ⟨rfl, noCr⟩

theorem chunkRound_reads (goesOn : chunkRound input decoded ≠ .failed) :
    ∃ (line : SizeLine) (rest : List UInt8), input = line.text ++ rest ∧
      line.size ≤ httpMaxMessage := by
  unfold chunkRound at goesOn
  split at goesOn
  · exact absurd rfl goesOn
  next size haveDigit left read =>
    obtain ⟨digits, isInput, number, someDigit, fits, ends⟩ :=
      sizeDigits_some (Nat.zero_le _) read
    split at goesOn
    · exact absurd rfl goesOn
    next isSome =>
      split at goesOn
      next cr lf rest isLine =>
        split at goesOn
        · exact absurd rfl goesOn
        next isLf =>
          have isLeft : left = left.takeWhile (· ≠ '\r'.toUInt8) ++ cr :: lf :: rest := by
            rw [← isLine]
            exact (List.takeWhile_append_dropWhile ..).symm
          have isCr : cr = '\r'.toUInt8 := by
            have stops := List.head?_dropWhile_not (· ≠ '\r'.toUInt8) left
            rw [isLine] at stops
            simpa using stops
          have extension := isExtension_takeWhile ends
          refine ⟨⟨digits, left.takeWhile (· ≠ '\r'.toUInt8), size, ?_, number, extension⟩, rest,
            ?_, fits⟩
          · intro empty
            rw [empty] at someDigit
            exact isSome (by rw [someDigit]; decide)
          · rw [isInput, SizeLine.text_append]
            have isLf : lf = '\n'.toUInt8 := Decidable.not_not.mp isLf
            rw [isCr, isLf] at isLeft
            rw [← isLeft]
      · exact absurd rfl goesOn

/-! ## Chunks -/

structure Chunk extends SizeLine where
  data : List UInt8
  full : size = data.length
  nonempty : data ≠ []

def Chunk.encoded (chunk : Chunk) : List UInt8 :=
  chunk.text ++ (chunk.data ++ ['\r'.toUInt8, '\n'.toUInt8])

def contents (chunks : List Chunk) : List UInt8 := chunks.flatMap Chunk.data

def encodedChunks (chunks : List Chunk) : List UInt8 := chunks.flatMap Chunk.encoded

theorem Chunk.encoded_append (chunk : Chunk) (rest : List UInt8) :
    chunk.encoded ++ rest =
      chunk.text ++ (chunk.data ++ ('\r'.toUInt8 :: '\n'.toUInt8 :: rest)) := by
  simp only [Chunk.encoded, List.append_assoc, List.cons_append, List.nil_append]

/-- The round over a chunk takes its data over when the limit allows it. -/
theorem chunkRound_chunk (chunk : Chunk) (rest decoded : List UInt8) :
    chunkRound (chunk.encoded ++ rest) decoded =
      if decoded.length + chunk.data.length ≤ httpMaxMessage then
        .next rest (decoded ++ chunk.data)
      else .failed := by
  have full := chunk.full
  have size : chunk.size ≠ 0 := by
    rw [full]
    exact fun empty => chunk.nonempty (List.length_eq_zero_iff.mp empty)
  rw [chunk.encoded_append]
  by_cases fits : chunk.size ≤ httpMaxMessage
  · have cr : (chunk.data ++ ('\r'.toUInt8 :: '\n'.toUInt8 :: rest)).getD chunk.size 0 =
        '\r'.toUInt8 := by
      rw [full, List.getD_eq_getElem?_getD, List.getElem?_append_right (Nat.le_refl _),
        Nat.sub_self]
      rfl
    have lf : (chunk.data ++ ('\r'.toUInt8 :: '\n'.toUInt8 :: rest)).getD (chunk.size + 1) 0 =
        '\n'.toUInt8 := by
      rw [full, List.getD_eq_getElem?_getD, List.getElem?_append_right (by omega),
        Nat.add_sub_cancel_left]
      rfl
    have data : (chunk.data ++ ('\r'.toUInt8 :: '\n'.toUInt8 :: rest)).take chunk.size =
        chunk.data := by
      rw [full, List.take_left]
    have left : (chunk.data ++ ('\r'.toUInt8 :: '\n'.toUInt8 :: rest)).drop (chunk.size + 2) =
        rest := by
      rw [full, ← List.drop_drop, List.drop_left]
      rfl
    have length : (chunk.data ++ ('\r'.toUInt8 :: '\n'.toUInt8 :: rest)).length =
        chunk.size + 2 + rest.length := by
      rw [full, List.length_append, List.length_cons, List.length_cons]
      omega
    rw [chunkRound_line _ _ _ fits, if_neg size, cr, lf, data, left, length]
    by_cases room : decoded.length + chunk.data.length ≤ httpMaxMessage
    · rw [if_neg, if_pos room]
      intro refused
      rcases refused with beyond | noCr | noLf | full
      · omega
      · exact noCr rfl
      · exact noLf rfl
      · omega
    · rw [if_pos, if_neg room]
      exact .inr (.inr (.inr (by omega)))
  · rw [if_neg (by omega), SizeLine.text, List.append_assoc]
    exact chunkRound_overflow chunk.number (by omega) _ _

theorem chunkRound_next {decoded' : List UInt8}
    (goesOn : chunkRound input decoded = .next rest decoded') :
    ∃ chunk : Chunk, input = chunk.encoded ++ rest ∧ decoded' = decoded ++ chunk.data ∧
      decoded'.length ≤ httpMaxMessage := by
  have reads : chunkRound input decoded ≠ .failed := by
    rw [goesOn]
    intro same
    cases same
  obtain ⟨line, left, rfl, fits⟩ := chunkRound_reads reads
  rw [chunkRound_line line left decoded fits] at goesOn
  split at goesOn
  · cases goesOn
  next some =>
    split at goesOn
    · cases goesOn
    next accepted =>
      cases goesOn
      simp only [not_or, Decidable.not_not] at accepted
      obtain ⟨enough, cr, lf, room⟩ := accepted
      have length : (left.take line.size).length = line.size := by
        rw [List.length_take]
        omega
      refine ⟨⟨line, left.take line.size, length.symm, ?_⟩, ?_, rfl, ?_⟩
      · intro empty
        rw [empty] at length
        exact some length.symm
      · rw [Chunk.encoded_append]
        congr 1
        have first : line.size < left.length := by omega
        have second : line.size + 1 < left.length := by omega
        have crAt : left[line.size] = '\r'.toUInt8 := by
          rw [List.getD_eq_getElem?_getD, List.getElem?_eq_getElem (by omega)] at cr
          exact cr
        have lfAt : left[line.size + 1] = '\n'.toUInt8 := by
          rw [List.getD_eq_getElem?_getD, List.getElem?_eq_getElem (by omega)] at lf
          exact lf
        rw [← crAt, ← lfAt, List.getElem_cons_drop, List.getElem_cons_drop,
          List.take_append_drop]
      · rw [List.length_append, length]
        omega

/-- A round that is the last has read a size line of zero. -/
theorem chunkRound_done (done : chunkRound input decoded = .done) :
    ∃ (last : SizeLine) (rest : List UInt8), last.size = 0 ∧ input = last.text ++ rest := by
  have reads : chunkRound input decoded ≠ .failed := by
    rw [done]
    intro same
    cases same
  obtain ⟨line, left, rfl, fits⟩ := chunkRound_reads reads
  rw [chunkRound_line line left decoded fits] at done
  split at done
  next zero => exact ⟨line, left, zero, rfl⟩
  · split at done
    · cases done
    · cases done

/-! ## The loop -/

theorem chunkLoop_failed (failed : chunkRound rest decoded = .failed) :
    chunkLoop rest decoded = none := by
  unfold chunkLoop
  split
  · rfl
  · rw [failed]

/-- The rounds over chunks, as far as the limit allows. -/
theorem chunkLoop_chunks (chunks : List Chunk) (rest decoded : List UInt8)
    (small : decoded.length ≤ httpMaxMessage) :
    chunkLoop (encodedChunks chunks ++ rest) decoded =
      if (decoded ++ contents chunks).length ≤ httpMaxMessage then
        chunkLoop rest (decoded ++ contents chunks)
      else none := by
  induction chunks generalizing decoded with
  | nil =>
    rw [contents, List.flatMap_nil, List.append_nil, if_pos small]
    rfl
  | cons chunk chunks ih =>
    have input : encodedChunks (chunk :: chunks) ++ rest =
        chunk.encoded ++ (encodedChunks chunks ++ rest) := by
      rw [encodedChunks, List.flatMap_cons, List.append_assoc]
      rfl
    have all : decoded ++ contents (chunk :: chunks) =
        decoded ++ chunk.data ++ contents chunks := by
      rw [contents, List.flatMap_cons, List.append_assoc]
      rfl
    have round := chunkRound_chunk chunk (encodedChunks chunks ++ rest) decoded
    have data := chunk.nonempty
    rw [input, all]
    split at round
    next room =>
      rw [← ih (decoded ++ chunk.data) (by rw [List.length_append]; exact room)]
      conv_lhs => unfold chunkLoop
      rw [if_neg (by simp [Chunk.encoded]), round]
    next full =>
      rw [chunkLoop_failed round, if_neg]
      simp only [List.length_append] at full ⊢
      omega

theorem chunkLoop_last (last : SizeLine) (zero : last.size = 0) (rest decoded : List UInt8) :
    chunkLoop (last.text ++ rest) decoded = some decoded := by
  have round := chunkRound_line last rest decoded (by omega)
  rw [if_pos zero] at round
  unfold chunkLoop
  rw [if_neg (by simp [SizeLine.text]), round]

/-- What the loop accepts is a list of chunks and a last line. -/
theorem chunkLoop_some {result : List UInt8} (accepted : chunkLoop input decoded = some result)
    (small : decoded.length ≤ httpMaxMessage) :
    ∃ (chunks : List Chunk) (last : SizeLine) (rest : List UInt8), last.size = 0 ∧
      input = encodedChunks chunks ++ (last.text ++ rest) ∧ result = decoded ++ contents chunks ∧
      result.length ≤ httpMaxMessage := by
  fun_induction chunkLoop input decoded with
  | case1 => cases accepted
  | case2 => cases accepted
  | case3 input decoded _ done =>
    cases accepted
    obtain ⟨last, rest, zero, isInput⟩ := chunkRound_done done
    exact ⟨[], last, rest, zero, isInput, (List.append_nil _).symm, small⟩
  | case4 input decoded _ rest decoded' goesOn ih =>
    obtain ⟨chunk, isInput, isDecoded, fits⟩ := chunkRound_next goesOn
    obtain ⟨chunks, last, after, zero, isRest, isResult, bound⟩ := ih accepted fits
    refine ⟨chunk :: chunks, last, after, zero, ?_, ?_, bound⟩
    · rw [isInput, isRest, encodedChunks, encodedChunks, List.flatMap_cons, List.append_assoc]
    · rw [isResult, isDecoded, contents, contents, List.flatMap_cons, List.append_assoc]

/-- The states of the loop over the chunks of `encoded`. -/
inductive Reaches (encoded : List UInt8) : List UInt8 → List UInt8 → Prop
  | start : Reaches encoded encoded []
  | round {rest decoded rest' decoded' : List UInt8} (reaches : Reaches encoded rest decoded)
      (goesOn : chunkRound rest decoded = .next rest' decoded') : Reaches encoded rest' decoded'

theorem Reaches.written_le {encoded : List UInt8} (reaches : Reaches encoded rest decoded) :
    rest.length + decoded.length ≤ encoded.length := by
  induction reaches with
  | start => exact Nat.le_refl _
  | round _ goesOn ih =>
    obtain ⟨chunk, isInput, isDecoded, _⟩ := chunkRound_next goesOn
    rw [isInput, Chunk.encoded_append] at ih
    rw [isDecoded]
    simp only [List.length_append, List.length_cons] at ih ⊢
    omega

theorem decodeChunked_chunks (chunks : List Chunk) (last : SizeLine) (zero : last.size = 0)
    (rest : List UInt8) :
    httpDecodeChunked (encodedChunks chunks ++ (last.text ++ rest)) =
      if (contents chunks).length ≤ httpMaxMessage then
        some (contents chunks ++ [0], (contents chunks).length)
      else none := by
  have loop := chunkLoop_chunks chunks (last.text ++ rest) [] (Nat.zero_le _)
  rw [List.nil_append, chunkLoop_last last zero] at loop
  simp only [httpDecodeChunked, loop]
  split
  · rfl
  · rfl

/-- A chunk whose size line cannot be honoured ends the decoding. -/
theorem decodeChunked_rejects (chunks : List Chunk)
    (failed : ∀ decoded, chunkRound rest decoded = .failed) :
    httpDecodeChunked (encodedChunks chunks ++ rest) = none := by
  have loop := chunkLoop_chunks chunks rest [] (Nat.zero_le _)
  rw [chunkLoop_failed (failed _)] at loop
  simp only [httpDecodeChunked, loop]
  split
  · rfl
  · rfl

/-- The coding functions, with the limit on a message: what is longer is refused. -/
theorem http_coding :
    (∀ (bytes : List UInt8) (form : Bool),
      if bytes.length ≤ (httpMaxMessage - 1) / 3 then
        ∃ encoded, httpUrlEncodeMode (some bytes) bytes.length form = some (encoded ++ [0]) ∧
          httpUrlDecodeMode (some (encoded ++ [0])) (-1) form =
            some (bytes ++ [0], bytes.length) ∧
          httpUrlDecodeMode (some (encoded ++ [0])) encoded.length form =
            some (bytes ++ [0], bytes.length)
      else httpUrlEncodeMode (some bytes) bytes.length form = none) ∧
    (∀ (chunks : List Chunk) (last : SizeLine) (rest : List UInt8), last.size = 0 →
      httpDecodeChunked (encodedChunks chunks ++ (last.text ++ rest)) =
        if (contents chunks).length ≤ httpMaxMessage then
          some (contents chunks ++ [0], (contents chunks).length)
        else none) ∧
    (∀ encoded rest decoded, Reaches encoded rest decoded →
      rest.length + decoded.length ≤ encoded.length) ∧
    (∀ (encoded decoded : List UInt8) (size : Nat),
      httpDecodeChunked encoded = some (decoded, size) →
        ∃ (chunks : List Chunk) (last : SizeLine) (rest : List UInt8), last.size = 0 ∧
          encoded = encodedChunks chunks ++ (last.text ++ rest) ∧
          decoded = contents chunks ++ [0] ∧ size = (contents chunks).length ∧
          size ≤ httpMaxMessage) ∧
    (∀ (chunks : List Chunk) (digits rest : List UInt8) (size : Nat),
      hexNumber 0 digits = some size → httpMaxMessage < size →
        httpDecodeChunked (encodedChunks chunks ++ (digits ++ rest)) = none) ∧
    (∀ (chunks : List Chunk) (line : SizeLine) (rest : List UInt8), line.size ≠ 0 →
      rest.length < line.size + 2 →
        httpDecodeChunked (encodedChunks chunks ++ (line.text ++ rest)) = none) := by
  refine ⟨?_, ?_, ?_, ?_, ?_, ?_⟩
  · intro bytes form
    split
    next small => exact urlDecode_urlEncode form small
    next long => exact urlEncode_long form (by omega)
  · intro chunks last rest zero
    exact decodeChunked_chunks chunks last zero rest
  · intro encoded rest decoded reaches
    exact reaches.written_le
  · intro encoded decoded size accepted
    obtain ⟨result, loop, ended⟩ := Option.bind_eq_some_iff.mp accepted
    cases ended
    obtain ⟨chunks, last, rest, zero, isInput, isResult, bound⟩ :=
      chunkLoop_some loop (Nat.zero_le _)
    rw [List.nil_append] at isResult
    exact ⟨chunks, last, rest, zero, isInput, by rw [isResult], by rw [isResult], bound⟩
  · intro chunks digits rest size number large
    exact decodeChunked_rejects chunks (chunkRound_overflow number large rest)
  · intro chunks line rest some beyond
    exact decodeChunked_rejects chunks fun decoded => chunkRound_beyond line rest decoded some beyond

def lastLine : SizeLine where
  digits := ['0'.toUInt8]
  extension := []
  size := 0
  some_digit := by decide
  number := by decide
  isExtension := .inl rfl

/-- Byte strings and chunks beyond the limit are refused. -/
theorem http_coding_limited :
    (¬∀ (bytes : List UInt8) (form : Bool), ∃ block,
      httpUrlEncodeMode (some bytes) bytes.length form = some block ∧
        httpUrlDecodeMode (some block) (-1) form = some (bytes ++ [0], bytes.length)) ∧
    ¬∀ (chunks : List Chunk) (last : SizeLine) (rest : List UInt8), last.size = 0 →
      httpDecodeChunked (encodedChunks chunks ++ (last.text ++ rest)) =
        some (contents chunks ++ [0], (contents chunks).length) := by
  constructor
  · intro always
    obtain ⟨bytes, length⟩ : ∃ bytes : List UInt8, bytes.length = 89478486 :=
      ⟨List.replicate _ 0, List.length_replicate⟩
    obtain ⟨block, encoded, _⟩ := always bytes false
    rw [urlEncode_long false (by rw [length]; decide)] at encoded
    cases encoded
  · intro always
    obtain ⟨bytes, length⟩ : ∃ bytes : List UInt8, bytes.length = 268435457 :=
      ⟨List.replicate _ 0, List.length_replicate⟩
    have some : bytes ≠ [] := by
      intro empty
      rw [empty] at length
      cases length
    have decodes := always [⟨⟨"10000001".toList.map Char.toUInt8, [], bytes.length, by decide,
      by rw [length]; decide, .inl rfl⟩, bytes, rfl, some⟩] lastLine [] rfl
    rw [decodeChunked_chunks _ _ rfl, if_neg] at decodes
    · cases decodes
    · rw [contents, List.flatMap_cons, List.flatMap_nil, List.append_nil, length]
      decide

end Aholyc.Http
