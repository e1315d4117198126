import Aholyc.Json.Grammar

/-!
# The tokens of the decoder

Each token scanner recognises its language. A number is the only token that
has to see the byte behind it, and white space the only one whose end depends
on the end of the text.
-/

namespace Aholyc.Json

open Aholyc.Lib.Scanner Aholyc.Text CJsonDecoder
open Computability

@[simp] theorem cursor_left : cursor.left = CJsonDecoder.left := rfl

@[simp] theorem cursor_skip : cursor.skip = CJsonDecoder.skip := rfl

@[simp] theorem fail_ends (decoder : CJsonDecoder) (error : JsonDecodeError) :
    jsonDecodeFail decoder error ≠ .running := by
  unfold jsonDecodeFail
  split
  · intro same
    cases same
  · intro same
    cases same

@[simp] theorem fail_not_found (decoder after : CJsonDecoder) (error : JsonDecodeError) :
    jsonDecodeFail decoder error ≠ .found after := by
  unfold jsonDecodeFail
  split
  · intro same
    cases same
  · intro same
    cases same

variable {decoder after : CJsonDecoder} {ch : UInt8} {rest word : List UInt8} {value : Nat}
  {next : Nat → CJsonDecoder → Scan} {comments : Bool}

theorem left_skip_one (eq : decoder.left = ch :: rest) : (skip 1 decoder).left = rest := by
  rw [← cursor_left, ← cursor_skip, cursor.left_skip, cursor_left, eq]
  rfl

/-! ## Numbers -/

theorem digits_scans : Scans cursor scanDigits digits (Stops isDigit) where
  ends := by
    intro decoder
    unfold scanDigits
    split
    · intro same
      cases same
    · exact fail_ends decoder _
  sound := by
    intro decoder after ended
    unfold scanDigits at ended
    split at ended
    next present =>
      cases ended
      refine ⟨decoder.left.takeWhile isDigit, ?_, List.takeWhile_prefix isDigit, rfl⟩
      cases text : decoder.left with
      | nil => simp [nextIs, text] at present
      | cons ch rest =>
        have digit : isDigit ch = true := by simpa [nextIs, text] using present
        rw [List.takeWhile_cons_of_pos digit]
        exact cons_mem_mul digit (takeWhile_mem isDigit rest)
    next => exact absurd ended (fail_not_found decoder after _)
  complete := by
    intro decoder word rest inLang eq stop
    obtain ⟨ch, more, rfl, digit, all⟩ := mem_mul_cons inLang
    have present : nextIs isDigit decoder = true := by
      simp only [cursor_left] at eq
      simp [nextIs, eq, digit]
    have every : ∀ b ∈ ch :: more, isDigit b = true := List.forall_mem_cons.mpr ⟨digit, all⟩
    simp only [scanDigits, present, if_true, skipWhile, eq, takeWhile_append_stop every stop]

theorem integer_scans : Scans cursor scanInteger integer (Stops isDigit) where
  ends := by
    intro decoder
    unfold scanInteger
    repeat' split
    all_goals first | exact fail_ends _ _ | (intro same; cases same)
  sound := by
    intro decoder after ended
    unfold scanInteger at ended
    split at ended
    next => exact absurd ended (fail_not_found _ _ _)
    next ch rest text =>
      split at ended
      next zero =>
        split at ended
        next => exact absurd ended (fail_not_found _ _ _)
        next =>
          cases ended
          refine ⟨bytes "0", Or.inl rfl, ⟨rest, ?_⟩, rfl⟩
          rw [cursor_left, text, zero]
          rfl
      next =>
        split at ended
        next nonzero =>
          cases ended
          have digit : isDigit ch = true := by
            simp only [isDigit, within, Bool.and_eq_true, decide_eq_true_eq] at nonzero ⊢
            exact ⟨UInt8.le_trans (by decide) nonzero.1, nonzero.2⟩
          refine ⟨decoder.left.takeWhile isDigit, Or.inr ?_, List.takeWhile_prefix isDigit, rfl⟩
          rw [text, List.takeWhile_cons_of_pos digit]
          exact cons_mem_mul nonzero (takeWhile_mem isDigit rest)
        next => exact absurd ended (fail_not_found _ _ _)
  complete := by
    intro decoder word rest inLang eq stop
    simp only [cursor_left] at eq
    cases inLang with
    | inl zero =>
      have wordEq : word = bytes "0" := zero
      subst wordEq
      have text : decoder.left = byte '0' :: rest := eq
      have tail := left_skip_one text
      have none : nextIs isDigit (skip 1 decoder) = false := by
        rw [nextIs, tail]
        cases rest with
        | nil => rfl
        | cons a rest => exact (stops_cons _ a rest).mp stop
      simp only [scanInteger, text, if_true, none, Bool.false_eq_true, if_false]
      rfl
    | inr nonzero =>
      obtain ⟨ch, more, rfl, first, all⟩ := mem_mul_cons nonzero
      have text : decoder.left = ch :: (more ++ rest) := eq
      have notZero : ch ≠ byte '0' := by
        intro same
        rw [same] at first
        exact absurd first (by decide)
      have digit : isDigit ch = true := by
        simp only [isDigit, within, Bool.and_eq_true, decide_eq_true_eq] at first ⊢
        exact ⟨UInt8.le_trans (by decide) first.1, first.2⟩
      have every : ∀ b ∈ ch :: more, isDigit b = true := List.forall_mem_cons.mpr ⟨digit, all⟩
      have taken : decoder.left.takeWhile isDigit = ch :: more := by
        rw [eq]
        exact takeWhile_append_stop every stop
      simp only [scanInteger, text, if_neg notZero, first, if_true]
      simp only [skipWhile, cursor_left, taken]

theorem sign_scans (p : UInt8 → Bool) :
    Scans cursor (fun decoder => .found (scanSign p decoder)) (optional (oneOf p)) (Stops p) := by
  have guarded := (found_scans.guarded p : Scans cursor _ _ _)
  rw [mul_one] at guarded
  have same : (fun decoder : CJsonDecoder => (.found (scanSign p decoder) : Scan)) =
      fun decoder => if (cursor.left decoder).head?.any p then .found (cursor.skip 1 decoder)
        else .found decoder := by
    funext decoder
    exact apply_ite Outcome.found _ _ _
  rw [same]
  exact guarded.mono fun rest stop => ⟨trivial, stop⟩

def numberByte (ch : UInt8) : Bool :=
  isDigit ch || ch = byte '.' || ch = byte 'e' || ch = byte 'E'

theorem stops_of_imp {p q : UInt8 → Bool} (imp : ∀ ch, p ch = true → q ch = true)
    (stop : Stops q rest) : Stops p rest := by
  intro ch head
  have off := stop ch head
  cases value : p ch with
  | false => rfl
  | true => rw [imp ch value] at off; cases off

theorem fraction_scans :
    Scans cursor scanFraction (optional (oneOf (· = byte '.') * digits))
      (Stops fun ch => isDigit ch || ch = byte '.') := by
  have guarded := digits_scans.guarded (· = byte '.')
  apply guarded.mono
  intro rest stop
  constructor
  · exact stops_of_imp (fun ch digit => by simp [digit]) stop
  · exact stops_of_imp (fun ch point => by simp [of_decide_eq_true point]) stop

theorem exponent_scans :
    Scans cursor scanExponent
      (optional (oneOf (fun ch => ch = byte 'e' || ch = byte 'E') *
        optional (oneOf fun ch => ch = byte '+' || ch = byte '-') * digits))
      (Stops fun ch => isDigit ch || ch = byte 'e' || ch = byte 'E') := by
  have signed := (sign_scans fun ch => ch = byte '+' || ch = byte '-').andThen digits_scans (by
    intro word inLang rest _
    obtain ⟨ch, more, rfl, digit, _⟩ := mem_mul_cons inLang
    simp only [List.cons_append, stops_cons]
    cases plus : decide (ch = byte '+') || decide (ch = byte '-') with
    | false => rfl
    | true =>
      rw [Bool.or_eq_true, decide_eq_true_eq, decide_eq_true_eq] at plus
      cases plus with
      | inl same => rw [same] at digit; exact absurd digit (by decide)
      | inr same => rw [same] at digit; exact absurd digit (by decide))
  have guarded := signed.guarded fun ch => ch = byte 'e' || ch = byte 'E'
  rw [← mul_assoc] at guarded
  apply guarded.mono
  intro rest stop
  constructor
  · exact stops_of_imp (fun ch digit => by simp [digit]) stop
  · apply stops_of_imp _ stop
    intro ch mark
    rw [Bool.or_assoc, Bool.or_eq_true]
    exact Or.inr mark

/-- Every word of `lang` starts with a byte that satisfies `p`, or is empty. -/
theorem optional_joins {p q : UInt8 → Bool} {lang : Language UInt8}
    (other : ∀ ch, p ch = true → q ch = false) (word : List UInt8)
    (inLang : word ∈ optional (oneOf p * lang)) (rest : List UInt8) (stop : Stops q rest) :
    Stops q (word ++ rest) := by
  cases inLang with
  | inl empty =>
    rw [(Language.mem_one word).mp empty]
    exact stop
  | inr guarded =>
    obtain ⟨ch, more, rfl, first, _⟩ := mem_mul_cons guarded
    exact (stops_cons q ch _).mpr (other ch first)

theorem integer_starts (inLang : word ∈ integer) :
    ∃ ch rest, word = ch :: rest ∧ isDigit ch = true := by
  cases inLang with
  | inl zero =>
    have same : word = bytes "0" := zero
    exact ⟨byte '0', [], same, by decide⟩
  | inr nonzero =>
    obtain ⟨ch, more, rfl, first, _⟩ := mem_mul_cons nonzero
    refine ⟨ch, more, rfl, ?_⟩
    simp only [isDigit, within, Bool.and_eq_true, decide_eq_true_eq] at first ⊢
    exact ⟨UInt8.le_trans (by decide) first.1, first.2⟩

theorem number_starts (inLang : word ∈ number) :
    ∃ ch rest, word = ch :: rest ∧ (ch = byte '-' ∨ isDigit ch = true) := by
  obtain ⟨_, ⟨_, ⟨sign, inSign, int, inInt, rfl⟩, _, _, rfl⟩, _, _, rfl⟩ := inLang
  obtain ⟨ch, rest, rfl, digit⟩ := integer_starts inInt
  cases inSign with
  | inl empty =>
    rw [(Language.mem_one sign).mp empty]
    exact ⟨ch, _, rfl, Or.inr digit⟩
  | inr minus =>
    obtain ⟨first, isMinus, rfl⟩ := minus
    exact ⟨first, _, rfl, Or.inl (of_decide_eq_true isMinus)⟩

theorem number_scans : Scans cursor jsonDecodeScanNumber number (Stops numberByte) := by
  have signed := (sign_scans (· = byte '-')).andThen integer_scans (by
    intro word inLang rest _
    obtain ⟨ch, more, rfl, digit⟩ := integer_starts inLang
    simp only [List.cons_append, stops_cons, decide_eq_false_iff_not]
    intro same
    rw [same] at digit
    exact absurd digit (by decide))
  have fraction := signed.andThen fraction_scans (by
    intro word inLang rest stop
    apply optional_joins _ word inLang rest
    · exact stops_of_imp (fun ch digit => by simp [digit]) stop
    · intro ch point
      rw [of_decide_eq_true point]
      decide)
  have ending : Scans cursor scanExponent _ (Stops numberByte) := exponent_scans.mono
    fun rest stop => stops_of_imp (fun ch mark => by
      rw [numberByte, Bool.or_assoc, Bool.or_eq_true]
      rw [Bool.or_assoc, Bool.or_eq_true] at mark
      cases mark with
      | inl digit => exact Or.inl (by rw [digit]; rfl)
      | inr letter => exact Or.inr letter) stop
  have scans := fraction.andThen ending (by
    intro word inLang rest stop
    rw [mul_assoc] at inLang
    apply optional_joins _ word inLang rest
    · exact stops_of_imp (fun ch digit => by
        rw [numberByte, Bool.or_assoc, Bool.or_eq_true]
        exact Or.inl digit) stop
    · intro ch mark
      rw [Bool.or_eq_true, decide_eq_true_eq, decide_eq_true_eq] at mark
      cases mark with
      | inl same => rw [same]; decide
      | inr same => rw [same]; decide)
  -- The last test of the source never fails: a number has at least one digit.
  have moves : ∀ (decoder : CJsonDecoder) word, word ∈ number →
      (skip word.length decoder).offset ≠ decoder.offset := by
    intro decoder word inLang
    obtain ⟨ch, rest, rfl, _⟩ := number_starts inLang
    simp [skip]
  refine ⟨?_, ?_, ?_⟩
  · intro decoder
    apply Outcome.andThen_ends (scans.ends decoder)
    intro mid _
    split
    · exact fail_ends mid _
    · intro same
      cases same
  · intro decoder after ended
    obtain ⟨mid, scanned, checked⟩ := Outcome.andThen_found ended
    split at checked
    · exact absurd checked (fail_not_found mid after _)
    · cases checked
      exact scans.sound decoder after scanned
  · intro decoder word rest inLang eq stop
    have scanned := scans.complete decoder word rest inLang eq stop
    unfold jsonDecodeScanNumber
    rw [Outcome.found_andThen] at scanned
    rw [scanned, Outcome.found_andThen]
    exact if_neg (moves decoder word inLang)

/-! ## Strings -/

theorem jsonDecodeHex_lt {digit : Nat} (read : jsonDecodeHex ch = some digit) : digit < 16 := by
  unfold jsonDecodeHex at read
  simp only [isDigit, within, Bool.and_eq_true, decide_eq_true_eq, UInt8.le_iff_toNat_le] at read
  have nine : (byte '9').toNat = (byte '0').toNat + 9 := rfl
  have upper : (byte 'F').toNat = (byte 'A').toNat + 5 := rfl
  have lower : (byte 'f').toNat = (byte 'a').toNat + 5 := rfl
  split at read
  · cases read
    omega
  · split at read
    · cases read
      omega
    · split at read
      · cases read
        omega
      · cases read

theorem hexStep_some (value digit : Nat) (read : jsonDecodeHex ch = some digit) :
    hexStep (some value) ch = some (value <<< 4 ||| digit) := by
  have small : digit < 2 ^ 4 := jsonDecodeHex_lt read
  rw [← Nat.shiftLeft_add_eq_or_of_lt small, Nat.shiftLeft_eq]
  simp [hexStep, read]

theorem hexStep_none (word : List UInt8) : word.foldl hexStep none = none := by
  induction word with
  | nil => rfl
  | cons ch word ih => exact ih

theorem hexDigits_sound {count result : Nat}
    (read : hexDigits count value decoder = (after, some result)) :
    ∃ word, word.length = count ∧ word.foldl hexStep (some value) = some result ∧
      cursor.Reads decoder word after := by
  induction count generalizing value decoder with
  | zero =>
    cases read
    exact ⟨[], rfl, rfl, Cursor.Reads.nil after⟩
  | succ count ih =>
    simp only [hexDigits] at read
    split at read
    next => cases read
    next ch rest text =>
      split at read
      next => cases read
      next digit isHex =>
        obtain ⟨word, size, folded, reads⟩ := ih read
        have head : cursor.Reads decoder [ch] (skip 1 decoder) := ⟨⟨rest, text.symm⟩, rfl⟩
        refine ⟨[ch] ++ word, by simp [size], ?_, head.append reads⟩
        rw [List.singleton_append, List.foldl_cons, hexStep_some value digit isHex]
        exact folded

theorem hexDigits_complete {result : Nat} (folded : word.foldl hexStep (some value) = some result)
    (eq : decoder.left = word ++ rest) :
    hexDigits word.length value decoder = (skip word.length decoder, some result) := by
  induction word generalizing value decoder with
  | nil =>
    cases folded
    rfl
  | cons ch word ih =>
    cases isHex : jsonDecodeHex ch with
    | none =>
      have stuck : hexStep (some value) ch = none := by simp [hexStep, isHex]
      rw [List.foldl_cons, stuck, hexStep_none] at folded
      cases folded
    | some digit =>
      rw [List.foldl_cons, hexStep_some value digit isHex] at folded
      have tail : (skip 1 decoder).left = word ++ rest := left_skip_one eq
      simp only [List.length_cons, hexDigits, eq, List.cons_append, isHex, ih folded tail]
      simp [skip, Nat.add_comm, Nat.add_left_comm]

theorem scanHex4_ends (ends : ∀ v after, next v after ≠ .running) (decoder : CJsonDecoder) :
    jsonDecodeScanHex4 decoder next ≠ .running := by
  unfold jsonDecodeScanHex4
  split
  · exact fail_ends decoder _
  · split
    · exact fail_ends _ _
    · exact ends _ _

theorem scanHex4_sound (ended : jsonDecodeScanHex4 decoder next = .found after) :
    ∃ hex value mid, hex.length = 4 ∧ hexValue hex = some value ∧ cursor.Reads decoder hex mid ∧
      next value mid = .found after := by
  unfold jsonDecodeScanHex4 at ended
  split at ended
  · exact absurd ended (fail_not_found _ _ _)
  · split at ended
    · exact absurd ended (fail_not_found _ _ _)
    next mid value read =>
      obtain ⟨hex, size, folded, reads⟩ := hexDigits_sound read
      exact ⟨hex, value, mid, size, folded, reads, ended⟩

theorem scanHex4_complete {hex : List UInt8} (size : hex.length = 4)
    (folded : hexValue hex = some value) (eq : decoder.left = hex ++ rest) :
    jsonDecodeScanHex4 decoder next = next value (skip 4 decoder) := by
  have enough : ¬decoder.left.length < 4 := by
    rw [eq, List.length_append, size]
    omega
  have read : hexDigits hex.length 0 decoder = _ := hexDigits_complete folded eq
  rw [size] at read
  simp only [jsonDecodeScanHex4, if_neg enough, read]

theorem lowSurrogate_sound (ended : scanLowSurrogate decoder = .found after) :
    ∃ word ∈ unicode isLow, cursor.Reads decoder word after := by
  unfold scanLowSurrogate at ended
  split at ended
  next present =>
    have head : cursor.Reads decoder (bytes "\\u") (skip 2 decoder) :=
      ⟨List.prefix_iff_eq_take.mpr present.symm, rfl⟩
    obtain ⟨hex, value, mid, size, folded, reads, checked⟩ := scanHex4_sound ended
    split at checked
    · exact absurd checked (fail_not_found _ _ _)
    next range =>
      cases checked
      simp only [Bool.or_eq_true, decide_eq_true_eq, not_or, not_lt, gt_iff_lt] at range
      exact ⟨_, ⟨hex, value, rfl, size, folded, range⟩, head.append reads⟩
  next => exact absurd ended (fail_not_found _ _ _)

theorem lowSurrogate_complete (inLang : word ∈ unicode isLow) (eq : decoder.left = word ++ rest) :
    scanLowSurrogate decoder = .found (skip word.length decoder) := by
  obtain ⟨hex, value, rfl, size, folded, range⟩ := inLang
  rw [List.append_assoc] at eq
  have present : decoder.left.take 2 = [byte '\\', byte 'u'] := by
    rw [eq]
    rfl
  have tail : (skip 2 decoder).left = hex ++ rest := cursor.left_of_skip eq
  have inside : ¬(value < 0xDC00 || value > 0xDFFF) = true := by
    simp only [Bool.or_eq_true, decide_eq_true_eq, not_or, not_lt, gt_iff_lt]
    exact range
  simp only [scanLowSurrogate, present, if_true, scanHex4_complete size folded tail, if_neg inside]
  rw [List.length_append, size]
  rfl

theorem escape_ends (decoder : CJsonDecoder) : scanEscape decoder ≠ .running := by
  unfold scanEscape
  split
  · exact fail_ends _ _
  split
  · intro same
    cases same
  split
  · exact fail_ends _ _
  apply scanHex4_ends
  intro high after
  split
  · unfold scanLowSurrogate
    split
    · apply scanHex4_ends
      intro low end_
      split
      · exact fail_ends _ _
      · intro same
        cases same
    · exact fail_ends _ _
  · split
    · exact fail_ends _ _
    · intro same
      cases same

theorem escape_sound {start : CJsonDecoder} (backslash : cursor.Reads start (bytes "\\") decoder)
    (ended : scanEscape decoder = .found after) :
    ∃ word ∈ escape, cursor.Reads start word after := by
  unfold scanEscape at ended
  split at ended
  next => exact absurd ended (fail_not_found _ _ _)
  next ch rest text =>
    have head : cursor.Reads decoder [ch] (skip 1 decoder) := ⟨⟨rest, text.symm⟩, rfl⟩
    split at ended
    next simple =>
      cases ended
      refine ⟨_, Or.inl (Or.inl ?_), backslash.append head⟩
      exact Language.append_mem_mul rfl ⟨ch, simple, rfl⟩
    next =>
      split at ended
      next => exact absurd ended (fail_not_found _ _ _)
      next isU =>
        rw [not_not.mp isU] at head
        have prefix_ := backslash.append head
        obtain ⟨hex, value, mid, size, folded, reads, checked⟩ := scanHex4_sound ended
        split at checked
        next high =>
          obtain ⟨low, inLow, readsLow⟩ := lowSurrogate_sound checked
          rw [Bool.and_eq_true, decide_eq_true_eq, decide_eq_true_eq] at high
          refine ⟨_, Or.inr ?_, (prefix_.append reads).append readsLow⟩
          exact Language.append_mem_mul ⟨hex, value, rfl, size, folded, high⟩ inLow
        next notHigh =>
          split at checked
          next => exact absurd checked (fail_not_found _ _ _)
          next notLow =>
            cases checked
            rw [Bool.and_eq_true, decide_eq_true_eq, decide_eq_true_eq] at notHigh notLow
            exact ⟨_, Or.inl (Or.inr ⟨hex, value, rfl, size, folded, notHigh, notLow⟩),
              prefix_.append reads⟩

theorem escape_complete {start : CJsonDecoder} (inLang : word ∈ escape)
    (eq : start.left = word ++ rest) :
    (∃ more, word = byte '\\' :: more) ∧
      scanEscape (skip 1 start) = .found (skip word.length start) := by
  cases inLang with
  | inl short =>
    cases short with
    | inl simple =>
      obtain ⟨_, isBackslash, _, ⟨ch, isSimple, rfl⟩, rfl⟩ := Language.mem_mul.mp simple
      have backslash : _ = bytes "\\" := isBackslash
      subst backslash
      have text : start.left = byte '\\' :: ch :: rest := eq
      have tail := left_skip_one text
      exact ⟨⟨[ch], rfl⟩, by simp only [scanEscape, tail, isSimple, if_true]; rfl⟩
    | inr plain =>
      obtain ⟨hex, value, rfl, size, folded, notHigh, notLow⟩ := plain
      have text : start.left = byte '\\' :: byte 'u' :: (hex ++ rest) := eq
      have tail := left_skip_one text
      have afterU := left_skip_one tail
      refine ⟨⟨byte 'u' :: hex, rfl⟩, ?_⟩
      have high : ¬(value ≥ 0xD800 && value ≤ 0xDBFF) = true := by
        rw [Bool.and_eq_true, decide_eq_true_eq, decide_eq_true_eq]
        exact notHigh
      have low : ¬(value ≥ 0xDC00 && value ≤ 0xDFFF) = true := by
        rw [Bool.and_eq_true, decide_eq_true_eq, decide_eq_true_eq]
        exact notLow
      simp only [scanEscape, tail, show isSimpleEscape (byte 'u') = false from by decide,
        ne_eq, not_true, if_false, Bool.false_eq_true,
        scanHex4_complete size folded afterU, if_neg high, if_neg low]
      rw [List.length_append, size]
      rfl
  | inr pair =>
    obtain ⟨_, ⟨hex, value, rfl, size, folded, high⟩, lowWord, inLow, rfl⟩ :=
      Language.mem_mul.mp pair
    rw [List.append_assoc, List.append_assoc] at eq
    have text : start.left = byte '\\' :: byte 'u' :: (hex ++ (lowWord ++ rest)) := eq
    have tail := left_skip_one text
    have afterU := left_skip_one tail
    have afterHex : (skip 4 (skip 1 (skip 1 start))).left = lowWord ++ rest := by
      rw [← size]
      exact cursor.left_of_skip afterU
    refine ⟨⟨byte 'u' :: (hex ++ lowWord), rfl⟩, ?_⟩
    have isHigh : (value ≥ 0xD800 && value ≤ 0xDBFF) = true := by
      rw [Bool.and_eq_true, decide_eq_true_eq, decide_eq_true_eq]
      exact high
    simp only [scanEscape, tail, show isSimpleEscape (byte 'u') = false from by decide,
      ne_eq, not_true, if_false, Bool.false_eq_true,
      scanHex4_complete size folded afterU, if_pos isHigh, lowSurrogate_complete inLow afterHex]
    rw [List.length_append, List.length_append, size]
    simp [skip, bytes, Nat.add_assoc]

theorem escape_nonempty (inLang : word ∈ escape) : word ≠ [] := by
  cases inLang with
  | inl short =>
    cases short with
    | inl simple =>
      obtain ⟨_, isBackslash, _, ⟨ch, _, rfl⟩, rfl⟩ := Language.mem_mul.mp simple
      simp
    | inr plain =>
      obtain ⟨hex, value, rfl, _⟩ := plain
      simp [bytes]
  | inr pair =>
    obtain ⟨_, ⟨hex, value, rfl, _⟩, lowWord, _, rfl⟩ := Language.mem_mul.mp pair
    simp [bytes]

theorem ascii_val {ch : Char} {first : UInt8} (other : Char) (ascii : other.val.toNat < 0x80)
    (value : first.toNat = ch.val.toNat ∨ 0x80 ≤ first.toNat ∧ 0x80 ≤ ch.val.toNat) :
    first = byte other ↔ ch = other := by
  have otherByte : (byte other).toNat = other.val.toNat := by
    simp only [byte, Char.toUInt8, UInt32.toNat_toUInt8]
    omega
  rw [← UInt8.toNat_inj, otherByte, Char.ext_iff, ← UInt32.toNat_inj]
  omega

theorem character_rounds :
    Rounds cursor scanStringRound character fun text => text = [] ∨ text.head? = some (byte '"') where
  nonempty := by
    intro word inLang
    cases inLang with
    | inl plain =>
      obtain ⟨ch, _, _, _, rfl⟩ := plain
      exact String.utf8EncodeChar_ne_nil
    | inr escaped => exact escape_nonempty escaped
  ends := by
    intro decoder
    unfold scanStringRound
    split
    · intro same
      cases same
    split
    · intro same
      cases same
    split
    · intro same
      exact fail_ends _ _ (Option.some.inj same)
    split
    · split
      · intro same
        cases same
      · intro same
        exact fail_ends _ _ (Option.some.inj same)
    · intro same
      exact escape_ends _ (Option.some.inj same)
  sound := by
    intro decoder after ended
    unfold scanStringRound at ended
    split at ended
    next => cases ended
    next first rest text =>
      split at ended
      next => cases ended
      next notQuote =>
        split at ended
        next => exact absurd (Option.some.inj ended) (fail_not_found _ _ _)
        next printable =>
          split at ended
          next notBackslash =>
            split at ended
            next count rune read =>
              cases ended
              obtain ⟨ch, value, size, isPrefix⟩ := utf8DecodeRune_sound read
              obtain ⟨head, more, encoded, relation⟩ := encode_head ch
              have sameHead : head = first := by
                rw [encoded, text] at isPrefix
                exact (List.cons_prefix_cons.mp isPrefix).1
              subst sameHead
              refine ⟨_, Or.inl ⟨ch, ?_, ?_, ?_, rfl⟩, isPrefix, by rw [size]; rfl⟩
              · simp only [UInt8.lt_iff_toNat_lt, UInt8.reduceToNat] at printable
                omega
              · exact mt (ascii_val '"' (by decide) relation).mpr notQuote
              · exact mt (ascii_val '\\' (by decide) relation).mpr notBackslash
            next => exact absurd (Option.some.inj ended) (fail_not_found _ _ _)
          next isBackslash =>
            have backslash : cursor.Reads decoder (bytes "\\") (skip 1 decoder) :=
              ⟨⟨rest, by rw [cursor_left, text, not_not.mp isBackslash]; rfl⟩, rfl⟩
            obtain ⟨word, inLang, reads⟩ := escape_sound backslash (Option.some.inj ended)
            exact ⟨word, Or.inr inLang, reads⟩
  complete := by
    intro decoder word rest inLang eq
    cases inLang with
    | inl plain =>
      obtain ⟨ch, printable, notQuote, notBackslash, rfl⟩ := plain
      obtain ⟨head, more, encoded, relation⟩ := encode_head ch
      have text : decoder.left = head :: (more ++ rest) := by
        rw [← cursor_left, eq, encoded, List.cons_append]
      have large : ¬head < 0x20 := by
        simp only [UInt8.lt_iff_toNat_lt, UInt8.reduceToNat]
        omega
      have read := utf8DecodeRune_complete ch rest
      rw [encoded, List.cons_append] at read
      unfold scanStringRound
      simp only [text, mt (ascii_val '"' (by decide) relation).mp notQuote,
        mt (ascii_val '\\' (by decide) relation).mp notBackslash, large, if_false, if_true,
        ne_eq, not_false_eq_true, read, encoded, cursor_skip]
    | inr escaped =>
      obtain ⟨⟨more, rfl⟩, ended⟩ := escape_complete escaped eq
      have text : decoder.left = byte '\\' :: (more ++ rest) := eq
      unfold scanStringRound
      simp only [text, show byte '\\' ≠ byte '"' from by decide, if_false,
        show ¬(byte '\\' < 0x20) from by decide, ne_eq, not_true, ended]
      rfl
  leaves := by
    intro decoder stop
    unfold scanStringRound
    split
    next => rfl
    next first rest text =>
      have quote : first = byte '"' := by
        rw [cursor_left, text] at stop
        simpa using stop
      rw [if_pos quote]

theorem round_leaves_at_quote (left : scanStringRound decoder = none)
    (text : decoder.left = ch :: rest) : ch = byte '"' := by
  apply Classical.byContradiction
  intro other
  unfold scanStringRound at left
  simp only [text, if_neg other] at left
  repeat' split at left
  all_goals cases left

theorem string_scans : Scans cursor jsonDecodeScanString string fun _ => True where
  ends := by
    intro decoder
    unfold jsonDecodeScanString
    split
    · apply Outcome.andThen_ends
      · exact (repeatScan_scans character_rounds).ends (skip 1 decoder)
      · intro mid _
        unfold closeString
        split
        · exact fail_ends _ _
        · intro same
          cases same
    · exact fail_ends _ _
  sound := by
    intro decoder after ended
    unfold jsonDecodeScanString at ended
    split at ended
    next opened =>
      obtain ⟨mid, body, closed⟩ := Outcome.andThen_found ended
      obtain ⟨⟨word, inStar, reads⟩, stopped⟩ := repeatScan_sound character_rounds _ _ _ body
      unfold closeString at closed
      split at closed
      next => exact absurd closed (fail_not_found _ _ _)
      next ch rest text =>
        cases closed
        have head : cursor.Reads decoder (bytes "\"") (skip 1 decoder) := by
          obtain ⟨tail, whole⟩ := List.head?_eq_some_iff.mp opened
          exact ⟨⟨tail, whole.symm⟩, rfl⟩
        have quote := round_leaves_at_quote stopped text
        have tail : cursor.Reads mid (bytes "\"") (skip 1 mid) :=
          ⟨⟨rest, by rw [cursor_left, text, quote]; rfl⟩, rfl⟩
        refine ⟨_, ?_, (head.append reads).append tail⟩
        exact Language.append_mem_mul (Language.append_mem_mul rfl inStar) rfl
    next => exact absurd ended (fail_not_found _ _ _)
  complete := by
    intro decoder word rest inLang eq _
    obtain ⟨_, ⟨opening, opened, body, inStar, rfl⟩, closing, closed, rfl⟩ := inLang
    have openQuote : opening = bytes "\"" := opened
    have closeQuote : closing = bytes "\"" := closed
    subst openQuote closeQuote
    have text : decoder.left = byte '"' :: (body ++ (byte '"' :: rest)) := by
      rw [← cursor_left, eq]
      simp [bytes]
    have tail := left_skip_one text
    have scanned := (repeatScan_scans character_rounds).complete (skip 1 decoder) body
      (byte '"' :: rest) inStar tail (Or.inr rfl)
    have atEnd : (skip body.length (skip 1 decoder)).left = byte '"' :: rest :=
      cursor.left_of_skip tail
    unfold jsonDecodeScanString
    rw [cursor_left] at scanned
    rw [if_pos (by rw [text]; rfl), scanned, Outcome.found_andThen, cursor_skip]
    simp only [closeString, atEnd]
    rw [← cursor_skip, cursor.skip_skip, cursor.skip_skip]
    congr 2
    simp [bytes]
    omega

/-! ## White space -/

theorem blockLength_sound {text : List UInt8} {count : Nat} (found : blockLength text = some count) :
    ∃ body rest, text = body ++ bytes "*/" ++ rest ∧ body.length = count ∧
      ¬bytes "*/" <:+: body ++ bytes "*" := by
  fun_induction blockLength text generalizing count with
  | case1 first second rest stop =>
    cases found
    refine ⟨[], rest, ?_, rfl, by decide⟩
    rw [stop.1, stop.2]
    rfl
  | case2 first second rest more ih =>
    obtain ⟨less, inner, rfl⟩ := Option.map_eq_some_iff.mp found
    obtain ⟨body, tail, eq, size, clean⟩ := ih inner
    refine ⟨first :: body, tail, by rw [eq]; rfl, by simp [size], ?_⟩
    rw [List.cons_append, List.infix_cons_iff, not_or]
    refine ⟨?_, clean⟩
    intro starts
    obtain ⟨star, starts⟩ := List.cons_prefix_cons.mp starts
    cases body with
    | nil => exact absurd starts (by decide)
    | cons slash body =>
      obtain ⟨isSlash, _⟩ := List.cons_prefix_cons.mp starts
      exact more ⟨star.symm, (List.cons.inj eq).1.trans isSlash.symm⟩
  | case3 => cases found

theorem blockLength_complete {body : List UInt8} (clean : ¬bytes "*/" <:+: body ++ bytes "*")
    (rest : List UInt8) : blockLength (body ++ bytes "*/" ++ rest) = some body.length := by
  induction body with
  | nil => rfl
  | cons first body ih =>
    rw [List.cons_append, List.infix_cons_iff, not_or] at clean
    have inner := ih clean.2
    cases body with
    | nil =>
      have differ : ¬(first = byte '*' ∧ byte '*' = byte '/') := fun both =>
        absurd both.2 (by decide)
      show blockLength (first :: byte '*' :: byte '/' :: rest) = some 1
      rw [blockLength, if_neg differ]
      rfl
    | cons second body =>
      have differ : ¬(first = byte '*' ∧ second = byte '/') := by
        intro both
        apply clean.1
        rw [both.1, both.2]
        exact ⟨body ++ bytes "*", rfl⟩
      simp only [List.cons_append] at inner ⊢
      rw [blockLength, if_neg differ, inner]
      rfl

theorem skipSpaceRound_cases {out : Scan} (taken : skipSpaceRound comments decoder = some out) :
    (∃ ch rest, decoder.left = ch :: rest ∧ jsonDecodeIsSpace ch = true ∧
      out = .found (skip 1 decoder)) ∨
    (comments = true ∧ ∃ body rest, decoder.left = bytes "//" ++ body ++ rest ∧
      body ∈ wordsOf (fun ch => !isLineEnd ch) ∧ Stops (fun ch => !isLineEnd ch) rest ∧
      out = .found (skip (bytes "//" ++ body).length decoder)) ∨
    (comments = true ∧ ∃ word ∈ blockComment, ∃ rest, decoder.left = word ++ rest ∧
      out = .found (skip word.length decoder)) ∨
    ∃ after error, out = jsonDecodeFail after error := by
  unfold skipSpaceRound at taken
  split at taken
  next => cases taken
  next first rest text =>
    split at taken
    next isSpace =>
      exact Or.inl ⟨first, rest, text, isSpace, (Option.some.inj taken).symm⟩
    next =>
      split at taken
      next line =>
        simp only [Bool.and_eq_true, decide_eq_true_eq] at line
        obtain ⟨⟨on, slash⟩, second⟩ := line
        obtain ⟨tail, rfl⟩ := List.head?_eq_some_iff.mp second
        have whole : decoder.left = bytes "//" ++ tail := by
          rw [text, slash]
          rfl
        have after : (skip 2 decoder).left = tail := cursor.left_of_skip whole
        refine Or.inr (Or.inl ⟨on, tail.takeWhile (fun ch => !isLineEnd ch),
          tail.dropWhile (fun ch => !isLineEnd ch), ?_, takeWhile_mem _ _, ?_, ?_⟩)
        · rw [whole, List.append_assoc, List.takeWhile_append_dropWhile]
        · exact stops_dropWhile _ tail
        · rw [← Option.some.inj taken, skipWhile, cursor_left, after, ← cursor_skip,
            cursor.skip_skip, List.length_append]
          rfl
      next =>
        split at taken
        next block =>
          simp only [Bool.and_eq_true, decide_eq_true_eq] at block
          obtain ⟨⟨on, slash⟩, second⟩ := block
          obtain ⟨tail, rfl⟩ := List.head?_eq_some_iff.mp second
          split at taken
          next count closed =>
            obtain ⟨body, after, eq, size, clean⟩ := blockLength_sound closed
            refine Or.inr (Or.inr (Or.inl ⟨on, _, ⟨body, clean, rfl⟩, after, ?_, ?_⟩))
            · have behind : tail = body ++ bytes "*/" ++ after := eq
              rw [text, slash, behind]
              simp [bytes]
            · rw [← Option.some.inj taken, ← cursor_skip, cursor.skip_skip, cursor.skip_skip,
                List.length_append, List.length_append, size]
              rfl
          next => exact Or.inr (Or.inr (Or.inr ⟨_, _, (Option.some.inj taken).symm⟩))
        next => cases taken

theorem skipSpaceRound_shrinks (decoder after : CJsonDecoder)
    (taken : skipSpaceRound comments decoder = some (.found after)) :
    (cursor.left after).length < (cursor.left decoder).length := by
  rcases skipSpaceRound_cases taken with
    ⟨ch, rest, text, _, eq⟩ | ⟨_, body, rest, text, _, _, eq⟩ | ⟨_, word, block, rest, text, eq⟩ |
      ⟨failed, error, eq⟩
  · cases eq
    rw [cursor_left, left_skip_one text, text]
    simp
  · cases eq
    rw [← cursor_skip, cursor.left_of_skip text, cursor_left, text]
    simp [bytes]
    omega
  · cases eq
    obtain ⟨body, _, rfl⟩ := block
    rw [← cursor_skip, cursor.left_of_skip text, cursor_left, text]
    simp [bytes]
    omega
  · exact absurd eq.symm (fail_not_found _ _ _)

theorem skipSpaceRound_ends (decoder : CJsonDecoder) :
    skipSpaceRound comments decoder ≠ some .running := by
  intro taken
  rcases skipSpaceRound_cases taken with
    ⟨_, _, _, _, eq⟩ | ⟨_, _, _, _, _, _, eq⟩ | ⟨_, _, _, _, _, eq⟩ | ⟨failed, error, eq⟩
  · cases eq
  · cases eq
  · cases eq
  · exact fail_ends _ _ eq.symm

theorem skipSpace_ends (decoder : CJsonDecoder) : jsonDecodeSkipSpace decoder ≠ .running :=
  repeatScan_ends skipSpaceRound_ends skipSpaceRound_shrinks _ decoder (Nat.lt_succ_self _)

theorem mem_space_cons {more : List UInt8} (first : word ∈ blank comments)
    (rest : more ∈ space comments) : word ++ more ∈ space comments :=
  append_mem_kstar first rest

theorem mem_trailing_cons {more : List UInt8} (first : word ∈ blank comments)
    (rest : more ∈ trailing comments) : word ++ more ∈ trailing comments := by
  obtain ⟨gap, isSpace, last, isLast, rfl⟩ := Language.mem_mul.mp rest
  rw [← List.append_assoc]
  exact Language.append_mem_mul (mem_space_cons first isSpace) isLast

theorem space_trailing (inSpace : word ∈ space comments) : word ∈ trailing comments := by
  rw [← List.append_nil word]
  apply Language.append_mem_mul inSpace
  split
  · exact Or.inl Language.nil_mem_one
  · exact Language.nil_mem_one

/-- From one state to the other white space is skipped; only at the end of the
text it can be a line comment without its end. -/
def Skipped (comments : Bool) (decoder after : CJsonDecoder) : Prop :=
  ∃ word, cursor.Reads decoder word after ∧
    (word ∈ space comments ∨ after.left = [] ∧ word ∈ trailing comments)

theorem Skipped.cons {mid : CJsonDecoder} (first : word ∈ blank comments)
    (reads : cursor.Reads decoder word mid) (rest : Skipped comments mid after) :
    Skipped comments decoder after := by
  obtain ⟨more, readsMore, inSpace | ⟨atEnd, inTrailing⟩⟩ := rest
  · exact ⟨word ++ more, reads.append readsMore, Or.inl (mem_space_cons first inSpace)⟩
  · exact ⟨word ++ more, reads.append readsMore, Or.inr ⟨atEnd, mem_trailing_cons first inTrailing⟩⟩

theorem isSpace_of_isLineEnd (isEnd : isLineEnd ch = true) : jsonDecodeIsSpace ch = true := by
  simp only [isLineEnd, Bool.or_eq_true, decide_eq_true_eq] at isEnd
  cases isEnd with
  | inl same => rw [same]; decide
  | inr same => rw [same]; decide

theorem skipSpaceRound_space (text : decoder.left = ch :: rest)
    (isSpace : jsonDecodeIsSpace ch = true) :
    skipSpaceRound comments decoder = some (.found (skip 1 decoder)) := by
  simp only [skipSpaceRound, text, isSpace, if_true]

theorem skipSpaceRound_end (text : decoder.left = []) : skipSpaceRound comments decoder = none := by
  simp only [skipSpaceRound, text]

theorem spaceLoop_sound (fuel : Nat) (decoder after : CJsonDecoder)
    (ended : repeatScan (skipSpaceRound comments) fuel decoder = .found after) :
    Skipped comments decoder after := by
  induction fuel using Nat.strong_induction_on generalizing decoder with
  | _ fuel ih =>
    cases fuel with
    | zero => cases ended
    | succ fuel =>
      simp only [repeatScan] at ended
      split at ended
      next =>
        cases ended
        exact ⟨[], Cursor.Reads.nil after, Or.inl (Language.nil_mem_kstar _)⟩
      next out taken =>
        obtain ⟨mid, outEq, more⟩ := Outcome.andThen_found ended
        have skipped := ih fuel (Nat.lt_succ_self fuel) mid more
        rcases skipSpaceRound_cases taken with
          ⟨ch, rest, text, isSpace, eq⟩ | ⟨on, body, rest, text, isBody, stop, eq⟩ |
            ⟨on, word, block, rest, text, eq⟩ | ⟨failed, error, eq⟩
        · cases eq.symm.trans outEq
          exact skipped.cons (Or.inl ⟨ch, isSpace, rfl⟩) ⟨⟨rest, text.symm⟩, rfl⟩
        · cases eq.symm.trans outEq
          have reads : cursor.Reads decoder (bytes "//" ++ body) _ := Cursor.Reads.of_left text
          have isLine : bytes "//" ++ body ∈ lineComment := Language.append_mem_mul rfl isBody
          have left : (skip (bytes "//" ++ body).length decoder).left = rest :=
            cursor.left_of_skip text
          cases rest with
          | nil =>
            -- the comment reaches the end of the text, so nothing more is skipped
            cases fuel with
            | zero => cases more
            | succ fuel =>
              rw [repeatScan_leaves (skipSpaceRound_end left)] at more
              cases more
              refine ⟨_, reads, Or.inr ⟨left, ?_⟩⟩
              rw [← List.nil_append (bytes "//" ++ body)]
              apply Language.append_mem_mul (Language.nil_mem_kstar _)
              rw [on]
              exact Or.inr isLine
          | cons ch rest =>
            -- the byte that ends the comment is skipped in the next round
            cases fuel with
            | zero => cases more
            | succ fuel =>
              have isEnd : isLineEnd ch = true := by
                have off := (stops_cons _ ch rest).mp stop
                simpa using off
              rw [repeatScan_goes
                (skipSpaceRound_space left (isSpace_of_isLineEnd isEnd))] at more
              have rest := ih fuel (by omega) _ more
              have last : cursor.Reads _ [ch] _ := Cursor.Reads.of_left left
              apply rest.cons _ (reads.append last)
              rw [blank, on]
              exact Or.inr (Or.inl (Language.append_mem_mul isLine ⟨ch, isEnd, rfl⟩))
        · cases eq.symm.trans outEq
          apply skipped.cons _ ⟨⟨rest, text.symm⟩, rfl⟩
          rw [blank, on]
          exact Or.inr (Or.inr block)
        · rw [eq] at outEq
          exact absurd outEq (fail_not_found _ _ _)

theorem skipSpace_sound (ended : jsonDecodeSkipSpace decoder = .found after) :
    Skipped decoder.allowComments decoder after :=
  spaceLoop_sound _ decoder after ended

theorem skipSpaceRound_line {body : List UInt8} (text : decoder.left = bytes "//" ++ body ++ rest)
    (isBody : ∀ ch ∈ body, (!isLineEnd ch) = true) (stop : Stops (fun ch => !isLineEnd ch) rest) :
    skipSpaceRound true decoder = some (.found (skip (bytes "//" ++ body).length decoder)) := by
  rw [List.append_assoc] at text
  have after : (skip 2 decoder).left = body ++ rest := cursor.left_of_skip text
  have slashes : decoder.left = byte '/' :: byte '/' :: (body ++ rest) := text
  simp only [skipSpaceRound, slashes, show jsonDecodeIsSpace (byte '/') = false from by decide,
    Bool.false_eq_true, if_false, List.head?_cons, decide_true, Bool.and_self, if_true, skipWhile,
    cursor_left, after, takeWhile_append_stop isBody stop]
  rw [← cursor_skip, cursor.skip_skip, List.length_append]
  rfl

theorem skipSpaceRound_block (block : word ∈ blockComment) (text : decoder.left = word ++ rest) :
    skipSpaceRound true decoder = some (.found (skip word.length decoder)) := by
  obtain ⟨body, clean, rfl⟩ := block
  have stars : decoder.left = byte '/' :: byte '*' :: (body ++ bytes "*/" ++ rest) := by
    rw [text]
    simp [bytes]
  have notLine : ¬some (byte '*') = some (byte '/') := by decide
  simp only [skipSpaceRound, stars, show jsonDecodeIsSpace (byte '/') = false from by decide,
    Bool.false_eq_true, if_false, List.head?_cons, notLine, decide_true, decide_false,
    Bool.and_self, Bool.and_false, if_true, List.drop_succ_cons, List.drop_zero,
    blockLength_complete clean rest]
  rw [← cursor_skip, cursor.skip_skip, cursor.skip_skip, List.length_append, List.length_append]
  rfl

def spaceByte (ch : UInt8) : Bool := jsonDecodeIsSpace ch || ch = byte '/'

theorem skipSpaceRound_quiet (stop : Stops spaceByte decoder.left) :
    skipSpaceRound comments decoder = none := by
  unfold skipSpaceRound
  split
  next => rfl
  next ch rest text =>
    rw [text, stops_cons] at stop
    simp only [spaceByte, Bool.or_eq_false_iff, decide_eq_false_iff_not] at stop
    simp [stop.1, stop.2]

theorem spaceLoop_blank (isBlank : word ∈ blank comments) (text : decoder.left = word ++ rest)
    (fuel : Nat) (enough : word.length ≤ fuel) :
    ∃ less, fuel ≤ less + word.length ∧ repeatScan (skipSpaceRound comments) fuel decoder =
      repeatScan (skipSpaceRound comments) less (skip word.length decoder) := by
  cases isBlank with
  | inl single =>
    obtain ⟨ch, isSpace, rfl⟩ := single
    obtain ⟨less, rfl⟩ : ∃ less, fuel = less + 1 := ⟨fuel - 1, by
      rw [List.length_singleton] at enough
      omega⟩
    refine ⟨less, Nat.le_refl _, ?_⟩
    rw [repeatScan_goes (skipSpaceRound_space text isSpace)]
    rfl
  | inr comment =>
    cases comments with
    | false => exact absurd comment (Language.notMem_zero word)
    | true =>
      cases comment with
      | inl line =>
        obtain ⟨_, ⟨slashes, isSlashes, body, isBody, rfl⟩, _, ⟨ch, isEnd, rfl⟩, rfl⟩ := line
        have slashesEq : slashes = bytes "//" := isSlashes
        subst slashesEq
        -- one round reads the comment and a second one the byte that ends it
        obtain ⟨less, rfl⟩ : ∃ less, fuel = less + 2 := ⟨fuel - 2, by
          simp only [List.length_append, List.length_singleton] at enough
          have two : (bytes "//").length = 2 := rfl
          omega⟩
        have text : decoder.left = bytes "//" ++ body ++ ([ch] ++ rest) := by
          rw [text, List.append_assoc]
        have stop : Stops (fun ch => !isLineEnd ch) ([ch] ++ rest) := by
          rw [List.singleton_append, stops_cons, isEnd]
          rfl
        have left : (skip (bytes "//" ++ body).length decoder).left = [ch] ++ rest :=
          cursor.left_of_skip text
        refine ⟨less, ?_, ?_⟩
        · simp only [List.length_append, List.length_singleton]
          have two : (bytes "//").length = 2 := rfl
          omega
        · rw [repeatScan_goes (skipSpaceRound_line text isBody stop),
            repeatScan_goes (skipSpaceRound_space left (isSpace_of_isLineEnd isEnd)),
            ← cursor_skip, cursor.skip_skip]
          congr 2
          simp [Nat.add_assoc]
      | inr block =>
        have nonempty : 0 < word.length := by
          obtain ⟨body, _, rfl⟩ := block
          simp [bytes]
        obtain ⟨less, rfl⟩ : ∃ less, fuel = less + 1 := ⟨fuel - 1, by omega⟩
        refine ⟨less, by omega, ?_⟩
        rw [repeatScan_goes (skipSpaceRound_block block text)]

theorem spaceLoop_space (words : List (List UInt8)) (all : ∀ word ∈ words, word ∈ blank comments)
    (text : decoder.left = words.flatten ++ rest) (fuel : Nat)
    (enough : words.flatten.length ≤ fuel) :
    ∃ less, fuel ≤ less + words.flatten.length ∧
      repeatScan (skipSpaceRound comments) fuel decoder =
        repeatScan (skipSpaceRound comments) less (skip words.flatten.length decoder) := by
  induction words generalizing decoder fuel with
  | nil => exact ⟨fuel, Nat.le_refl _, rfl⟩
  | cons word words ih =>
    simp only [List.flatten_cons, List.length_append, List.append_assoc] at text enough ⊢
    obtain ⟨middle, bound, first⟩ := spaceLoop_blank (all word (by simp)) text fuel (by omega)
    obtain ⟨less, bound', others⟩ := ih (fun w inWords => all w (by simp [inWords]))
      (cursor.left_of_skip text) middle (by omega)
    refine ⟨less, by omega, ?_⟩
    simp only [cursor_skip] at others
    rw [first, others, ← cursor_skip, cursor.skip_skip]

theorem skipSpace_complete {gap : List UInt8} (isSpace : gap ∈ space decoder.allowComments)
    (text : decoder.left = gap ++ rest) (stop : Stops spaceByte rest) :
    jsonDecodeSkipSpace decoder = .found (skip gap.length decoder) := by
  obtain ⟨words, rfl, all⟩ := Language.mem_kstar.mp isSpace
  have size : words.flatten.length ≤ decoder.left.length := by
    rw [text, List.length_append]
    omega
  obtain ⟨less, bound, ended⟩ := spaceLoop_space words all text (decoder.left.length + 1) (by omega)
  obtain ⟨less, rfl⟩ : ∃ fewer, less = fewer + 1 := ⟨less - 1, by omega⟩
  have left : (skip words.flatten.length decoder).left = rest := cursor.left_of_skip text
  rw [jsonDecodeSkipSpace, ended,
    repeatScan_leaves (skipSpaceRound_quiet (by rw [left]; exact stop))]

theorem skipSpace_trailing {gap : List UInt8} (isTrailing : gap ∈ trailing decoder.allowComments)
    (text : decoder.left = gap) :
    jsonDecodeSkipSpace decoder = .found (skip gap.length decoder) := by
  obtain ⟨first, isSpace, last, isLast, rfl⟩ := Language.mem_mul.mp isTrailing
  have nothing : last = [] → jsonDecodeSkipSpace decoder =
      .found (skip (first ++ last).length decoder) := by
    intro empty
    subst empty
    rw [List.append_nil]
    exact skipSpace_complete isSpace text (stops_nil _)
  split at isLast
  next on =>
    cases isLast with
    | inl empty => exact nothing empty
    | inr line =>
      obtain ⟨slashes, isSlashes, body, isBody, rfl⟩ := line
      have slashesEq : slashes = bytes "//" := isSlashes
      subst slashesEq
      obtain ⟨words, rfl, all⟩ := Language.mem_kstar.mp isSpace
      have size : (bytes "//").length = 2 := rfl
      have total : words.flatten.length + 2 ≤ decoder.left.length := by
        rw [text]
        simp only [List.length_append]
        omega
      obtain ⟨less, bound, ended⟩ :=
        spaceLoop_space words all text (decoder.left.length + 1) (by omega)
      obtain ⟨less, rfl⟩ : ∃ fewer, less = fewer + 2 := ⟨less - 2, by omega⟩
      have left : (skip words.flatten.length decoder).left = bytes "//" ++ body ++ [] := by
        rw [List.append_nil]
        exact cursor.left_of_skip text
      have atEnd : (skip (bytes "//" ++ body).length
          (skip words.flatten.length decoder)).left = [] := cursor.left_of_skip left
      rw [on] at ended
      rw [jsonDecodeSkipSpace, on, ended,
        repeatScan_goes (skipSpaceRound_line left isBody (stops_nil _)),
        repeatScan_leaves (skipSpaceRound_end atEnd), ← cursor_skip, cursor.skip_skip]
      congr 2
      simp
  next => exact nothing isLast

end Aholyc.Json
