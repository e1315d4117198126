import Aholyc.Json.Encode
import Aholyc.Json.Value

/-!
# Texts of the scalar values

A quoted text is a string of the grammar, and the decoder copies the text back
out of it. The digits of an integer are a number.
-/

namespace Aholyc.Json

open Aholyc.Lib.Scanner Aholyc.Text
open Computability

/-! ## Strings -/

def escapeByte (ch : UInt8) : List UInt8 :=
  if ch = byte '"' ∨ ch = byte '\\' then [byte '\\', ch]
  else if ch = 8 then bytes "\\b"
  else if ch = 12 then bytes "\\f"
  else if ch = 10 then bytes "\\n"
  else if ch = 13 then bytes "\\r"
  else if ch = 9 then bytes "\\t"
  else if ch < 0x20 then
    bytes "\\u00" ++ [(bytes "0123456789abcdef").getD (ch >>> 4).toNat 0,
      (bytes "0123456789abcdef").getD (ch &&& 15).toNat 0]
  else [ch]

def quote (text : List UInt8) : List UInt8 := bytes "\"" ++ text.flatMap escapeByte ++ bytes "\""

def isPlain (ch : UInt8) : Bool := 0x20 ≤ ch && ch ≠ byte '"' && ch ≠ byte '\\'

variable {ch : UInt8} {text : List UInt8} {fuel n : Nat}

theorem escapeByte_plain (plain : isPlain ch = true) : escapeByte ch = [ch] := by
  simp only [isPlain, ne_eq, Bool.and_eq_true, decide_eq_true_eq, decide_not, Bool.not_eq_eq_eq_not,
    Bool.not_true, decide_eq_false_iff_not, UInt8.le_iff_toNat_le, UInt8.reduceToNat] at plain
  obtain ⟨⟨low, noQuote⟩, noBackslash⟩ := plain
  have others : ∀ n : UInt8, n.toNat < 32 → ch ≠ n := by
    rintro n small rfl
    omega
  unfold escapeByte
  rw [if_neg (by simp [noQuote, noBackslash]), if_neg (others 8 (by decide)),
    if_neg (others 12 (by decide)), if_neg (others 10 (by decide)), if_neg (others 13 (by decide)),
    if_neg (others 9 (by decide)), if_neg]
  intro less
  rw [UInt8.lt_iff_toNat_lt] at less
  have bound : (0x20 : UInt8).toNat = 32 := rfl
  omega

/-- What the encoder writes for any other byte: a simple escape, or the byte's value. -/
theorem escapeByte_cases (ch : UInt8) :
    isPlain ch = true ∨
      (isSimpleEscape ((escapeByte ch).getD 1 0) = true ∧
        escapeByte ch = [byte '\\', (escapeByte ch).getD 1 0] ∧
        escapedByte ((escapeByte ch).getD 1 0) = ch) ∨
      (escapeByte ch = bytes "\\u00" ++ [(escapeByte ch).getD 4 0, (escapeByte ch).getD 5 0] ∧
        hexValue [byte '0', byte '0', (escapeByte ch).getD 4 0, (escapeByte ch).getD 5 0] =
          some ch.toNat ∧ ch.toNat < 0x20) := by
  revert ch
  apply byte_cases
  decide +kernel

theorem escapeByte_escape (special : ¬isPlain ch = true) : escapeByte ch ∈ escape := by
  rcases escapeByte_cases ch with plain | ⟨simple, text, _⟩ | ⟨text, value, small⟩
  · exact absurd plain special
  · rw [text]
    refine Or.inl (Or.inl ?_)
    exact Language.append_mem_mul (a := bytes "\\") rfl ⟨_, simple, rfl⟩
  · rw [text]
    refine Or.inl (Or.inr ⟨_, _, rfl, rfl, value, ?_⟩)
    unfold isHigh isLow
    omega

theorem flatMap_plain (plain : ∀ ch ∈ text, isPlain ch = true) :
    text.flatMap escapeByte = text := by
  induction text with
  | nil => rfl
  | cons ch text ih =>
    rw [List.flatMap_cons, escapeByte_plain (plain ch List.mem_cons_self),
      ih fun other inText => plain other (List.mem_cons_of_mem ch inText)]
    rfl

theorem isPlain_iff : isPlain ch = true ↔ 0x20 ≤ ch.toNat ∧ ch ≠ byte '"' ∧ ch ≠ byte '\\' := by
  have space : (0x20 : UInt8).toNat = 0x20 := rfl
  simp only [isPlain, ne_eq, decide_not, Bool.and_eq_true, decide_eq_true_eq, Bool.not_eq_eq_eq_not,
    Bool.not_true, decide_eq_false_iff_not, UInt8.le_iff_toNat_le, space, and_assoc]

/-- Whatever stands for a character is a character of the grammar. -/
theorem char_escapes (ch : Char) : (String.utf8EncodeChar ch).flatMap escapeByte ∈ character := by
  obtain ⟨first, rest, text, value⟩ := encode_head ch
  obtain ⟨_, _, text', _, continues⟩ := encode_continues ch
  have same := text'.symm.trans text
  cases same
  have isQuote := ascii_val '"' (by decide) value
  have isBackslash := ascii_val '\\' (by decide) value
  by_cases plain : isPlain first = true
  · have all : ∀ byte ∈ String.utf8EncodeChar ch, isPlain byte = true := by
      intro other inText
      rw [text, List.mem_cons] at inText
      cases inText with
      | inl same => rw [same]; exact plain
      | inr inRest =>
        have bounds := continues other inRest
        rw [isPlain_iff]
        have quoteValue : (byte '"').toNat = 34 := rfl
        have backslashValue : (byte '\\').toNat = 92 := rfl
        refine ⟨by omega, ?_, ?_⟩
        · rintro rfl
          omega
        · rintro rfl
          omega
    rw [flatMap_plain all]
    rw [isPlain_iff, ne_eq, ne_eq, isQuote, isBackslash] at plain
    exact Or.inl ⟨ch, by omega, plain.2.1, plain.2.2, rfl⟩
  · have ascii : first.toNat = ch.val.toNat ∧ ch.val.toNat ≤ 0x7F := by
      rw [isPlain_iff, ne_eq, ne_eq, isQuote, isBackslash] at plain
      by_cases isQuote : ch = '"'
      · subst isQuote
        have small : ('"' : Char).val.toNat = 34 := rfl
        omega
      · by_cases isBackslash : ch = '\\'
        · subst isBackslash
          have small : ('\\' : Char).val.toNat = 92 := rfl
          omega
        · have low : ¬0x20 ≤ first.toNat := fun low => plain ⟨low, isQuote, isBackslash⟩
          omega
    have units := encode_toNat ch
    rw [text, codeUnits, if_pos ascii.2, List.map_cons, List.cons.injEq, List.map_eq_nil_iff] at units
    rw [text, units.2, List.flatMap_singleton]
    exact Or.inr (escapeByte_escape plain)

theorem utf8ValidLoop_sound {data : List UInt8} (valid : utf8ValidLoop fuel data = true) :
    ∃ text, data = encode text := by
  induction fuel generalizing data with
  | zero =>
    cases data with
    | nil => exact ⟨[], rfl⟩
    | cons => cases valid
  | succ fuel ih =>
    cases data with
    | nil => exact ⟨[], rfl⟩
    | cons first rest =>
      unfold utf8ValidLoop at valid
      split at valid
      next consumed rune read =>
        obtain ⟨ch, _, size, more, text⟩ := utf8DecodeRune_sound read
        rw [← text, ← size, List.drop_left] at valid
        obtain ⟨chars, rfl⟩ := ih valid
        exact ⟨ch :: chars, text.symm⟩
      next => cases valid

theorem utf8ValidLoop_complete (text : List Char) (enough : text.length ≤ fuel) :
    utf8ValidLoop fuel (encode text) = true := by
  induction text generalizing fuel with
  | nil => cases fuel <;> rfl
  | cons ch text ih =>
    cases fuel with
    | zero => cases enough
    | succ fuel =>
      have read := utf8DecodeRune_encode ch text
      have behind : (encode (ch :: text)).drop (String.utf8EncodeChar ch).length = encode text := by
        rw [encode_cons, List.drop_left]
      obtain ⟨first, rest, isCons⟩ : ∃ first rest, encode (ch :: text) = first :: rest := by
        obtain ⟨first, rest, units, _⟩ := encode_head ch
        exact ⟨first, rest ++ encode text, by rw [encode_cons, units, List.cons_append]⟩
      rw [isCons] at read behind ⊢
      unfold utf8ValidLoop
      rw [read]
      dsimp only
      rw [behind]
      exact ih (Nat.le_of_succ_le_succ enough)

theorem utf8Valid_encode (text : List Char) : utf8Valid (encode text) = true :=
  utf8ValidLoop_complete text (encode_length_le text)

theorem quote_mem (valid : utf8Valid text = true) : quote text ∈ Json.string := by
  obtain ⟨chars, rfl⟩ := utf8ValidLoop_sound valid
  have characters : (encode chars).flatMap escapeByte ∈ character∗ := by
    clear valid
    induction chars with
    | nil => exact Language.nil_mem_kstar _
    | cons ch chars ih =>
      rw [encode_cons, List.flatMap_append]
      exact append_mem_kstar (char_escapes ch) ih
  exact Language.append_mem_mul (Language.append_mem_mul rfl characters) rfl

/-! ## Copying a string back -/

theorem jsonValueHex4_cons (a b c d : UInt8) (rest : List UInt8) :
    jsonValueHex4 (a :: b :: c :: d :: rest) =
      match hexValue [a, b, c, d] with
      | some value => (value : Int)
      | none => -1 := by
  rw [jsonValueHex4, if_neg]
  · rfl
  · simp only [List.length_cons]
    omega

theorem stringRound_escapeByte (ch : UInt8) (rest : List UInt8) :
    ∃ first more, escapeByte ch = first :: more ∧ stringRound first (more ++ rest) = ([ch], rest) := by
  rcases escapeByte_cases ch with plain | ⟨simple, text, value⟩ | ⟨text, value, small⟩
  · refine ⟨ch, [], escapeByte_plain plain, ?_⟩
    simp only [stringRound, ne_eq, (isPlain_iff.mp plain).2.2, not_false_eq_true, if_true,
      List.nil_append]
  · refine ⟨_, _, text, ?_⟩
    have noUnicode : (escapeByte ch).getD 1 0 ≠ byte 'u' := by
      intro isU
      rw [isU] at simple
      cases simple
    simp only [stringRound, ne_eq, not_true_eq_false, if_false, List.cons_append, List.nil_append,
      noUnicode, value]
  · refine ⟨_, _, text, ?_⟩
    have unfolded : stringRound (byte '\\')
        ([byte 'u', byte '0', byte '0', (escapeByte ch).getD 4 0, (escapeByte ch).getD 5 0] ++ rest) =
        (utf8EncodeRune ch.toNat, rest) := by
      simp only [stringRound, ne_eq, not_true_eq_false, if_false, List.cons_append, List.nil_append,
        if_true, jsonValueHex4_cons, value]
      rw [if_neg (by omega)]
      rfl
    refine unfolded.trans ?_
    have rune : utf8EncodeRune ch.toNat = [ch] := by
      rw [utf8EncodeRune, if_neg (by omega)]
      simp only [Int.toNat_natCast]
      rw [if_pos (by omega), UInt8.ofNat_toNat]
    rw [rune]

theorem copyString_flatMap (enough : text.length < fuel) :
    copyString fuel (text.flatMap escapeByte ++ bytes "\"") = text := by
  induction text generalizing fuel with
  | nil =>
    cases fuel with
    | zero => cases enough
    | succ fuel => rfl
  | cons ch text ih =>
    cases fuel with
    | zero => cases enough
    | succ fuel =>
      obtain ⟨first, more, written, round⟩ :=
        stringRound_escapeByte ch (text.flatMap escapeByte ++ bytes "\"")
      have goesOn : more ++ (text.flatMap escapeByte ++ bytes "\"") ≠ [] := by simp [bytes]
      rw [List.flatMap_cons, written, List.append_assoc, List.cons_append, copyString,
        if_neg goesOn, round, ih (Nat.lt_of_succ_lt_succ enough)]
      rfl

theorem length_le_flatMap (text : List UInt8) : text.length ≤ (text.flatMap escapeByte).length := by
  induction text with
  | nil => exact Nat.le_refl 0
  | cons ch text ih =>
    obtain ⟨first, more, written, _⟩ := stringRound_escapeByte ch []
    rw [List.flatMap_cons, written, List.length_append, List.length_cons, List.length_cons]
    omega

/-- The decoder copies out of a quoted text what was quoted. -/
theorem jsonValueString_quote (text : List UInt8) : jsonValueString (quote text) = text := by
  have enough := length_le_flatMap text
  apply copyString_flatMap
  simp only [quote, List.length_append]
  have quotes : (bytes "\"").length = 1 := rfl
  omega

/-! ## Integers -/

theorem isDigit_leading (leads : within (byte '1') (byte '9') ch = true) : isDigit ch = true := by
  revert ch
  apply byte_cases
  decide +kernel

theorem digitChar_byte (small : n < 10) :
    byte (Nat.digitChar n) = 48 + UInt8.ofNat n ∧ isDigit (byte (Nat.digitChar n)) = true ∧
      (0 < n → within (byte '1') (byte '9') (byte (Nat.digitChar n)) = true) := by
  revert n
  decide

/-- The digits of a number that is not zero start with one that is not. -/
theorem toDigits_leads (positive : 0 < n) :
    (Nat.toDigits 10 n).map byte ∈ oneOf (within (byte '1') (byte '9')) * wordsOf isDigit := by
  induction n using Nat.strongRecOn with
  | ind n ih =>
    by_cases small : n < 10
    · rw [Nat.toDigits_of_lt_base small]
      exact cons_mem_mul ((digitChar_byte small).2.2 positive) (List.forall_mem_nil _)
    have less : n / 10 < n := by omega
    obtain ⟨lead, isLead, others, areDigits, text⟩ := Language.mem_mul.mp (ih _ less (by omega))
    rw [Nat.toDigits_of_base_le (by omega) (by omega), List.map_append, ← text, List.append_assoc]
    apply Language.append_mem_mul isLead
    intro ch inText
    rw [List.mem_append, List.map_singleton, List.mem_singleton] at inText
    cases inText with
    | inl inOthers => exact areDigits ch inOthers
    | inr isLast =>
      rw [isLast]
      exact (digitChar_byte (Nat.mod_lt n (by omega))).2.1

theorem toDigits_mem (n : Nat) : (Nat.toDigits 10 n).map byte ∈ integer := by
  cases n with
  | zero => exact Or.inl rfl
  | succ n => exact Or.inr (toDigits_leads (Nat.succ_pos n))

/-- The digits the encoder works out from behind are those of the number. -/
theorem lowDigits_reverse (positive : 0 < n) (enough : n < 10 ^ fuel) :
    (lowDigits fuel n).reverse = (Nat.toDigits 10 n).map byte := by
  induction fuel generalizing n with
  | zero => omega
  | succ fuel ih =>
    rw [lowDigits, if_neg (by omega), List.reverse_cons, ← (digitChar_byte (n := n % 10) (by omega)).1]
    by_cases small : n < 10
    · have none : n / 10 = 0 := by omega
      have noMore : lowDigits fuel 0 = [] := by cases fuel <;> rfl
      rw [none, noMore, Nat.toDigits_of_lt_base small, Nat.mod_eq_of_lt small]
      rfl
    · rw [ih (by omega) (by rw [Nat.pow_succ] at enough; omega),
        Nat.toDigits_of_base_le (b := 10) (by omega) (by omega : 10 ≤ n), List.map_append]
      rfl

theorem natural_reverse (bound : n < 10 ^ 25) :
    ((48 + UInt8.ofNat (n % 10)) :: lowDigits 24 (n / 10)).reverse = (Nat.toDigits 10 n).map byte := by
  by_cases positive : 0 < n
  · have whole : lowDigits 25 n = (48 + UInt8.ofNat (n % 10)) :: lowDigits 24 (n / 10) :=
      if_neg (by omega)
    rw [← lowDigits_reverse positive bound, whole]
  · have zero : n = 0 := by omega
    subst zero
    rfl

theorem toString_bytes (value : Int) :
    bytes (toString value) =
      (if value < 0 then [byte '-'] else []) ++ (Nat.toDigits 10 value.natAbs).map byte := by
  cases value with
  | ofNat n =>
    have text : toString (Int.ofNat n) = n.repr := rfl
    rw [text, bytes, Nat.toList_repr]
    rfl
  | negSucc n =>
    have text : toString (Int.negSucc n) = "-" ++ (n + 1).repr := rfl
    rw [text, bytes, String.toList_append, List.map_append, Nat.toList_repr,
      if_pos (Int.negSucc_lt_zero n)]
    rfl

theorem decimal_toString {value : Int} (bound : value.natAbs < 10 ^ 25) :
    decimal value = bytes (toString value) := by
  rw [toString_bytes, decimal, natural_reverse bound]

theorem toString_mem (value : Int) : bytes (toString value) ∈ number := by
  have none (lang : Language UInt8) : [] ∈ optional lang := Or.inl rfl
  have sign : (if value < 0 then [byte '-'] else []) ∈ optional (oneOf (· = byte '-')) := by
    split
    · exact Or.inr ⟨byte '-', rfl, rfl⟩
    · exact none _
  have signed := Language.append_mem_mul sign (toDigits_mem value.natAbs)
  rw [← toString_bytes] at signed
  rw [← List.append_nil (bytes (toString value)), ← List.append_nil (bytes (toString value) ++ [])]
  apply Language.append_mem_mul _ (none _)
  exact Language.append_mem_mul signed (none _)

end Aholyc.Json
