import Aholyc.Json.Accepts

/-!
# What a JSON text means

A `Value` is what a text stands for: its strings are unescaped, its numbers are
kept as they are written. `Means` reads it off the grammar, part by part; every
derivation means something, and what means something has a derivation.
-/

namespace Aholyc.Json

open Aholyc.Lib.Scanner Aholyc.Text
open Computability

/-! ## Strings of a decoded value -/

def utf8EncodeRune (rune : Int) : List UInt8 :=
  if rune < 0 ∨ rune > 0x10FFFF ∨ rune ≥ 0xD800 ∧ rune ≤ 0xDFFF then []
  else
    let rune := rune.toNat
    if rune ≤ 0x7F then [UInt8.ofNat rune]
    else if rune ≤ 0x7FF then
      [UInt8.ofNat (0xC0 ||| rune >>> 6), UInt8.ofNat (0x80 ||| (rune &&& 0x3F))]
    else if rune ≤ 0xFFFF then
      [UInt8.ofNat (0xE0 ||| rune >>> 12), UInt8.ofNat (0x80 ||| (rune >>> 6 &&& 0x3F)),
        UInt8.ofNat (0x80 ||| (rune &&& 0x3F))]
    else
      [UInt8.ofNat (0xF0 ||| rune >>> 18), UInt8.ofNat (0x80 ||| (rune >>> 12 &&& 0x3F)),
        UInt8.ofNat (0x80 ||| (rune >>> 6 &&& 0x3F)), UInt8.ofNat (0x80 ||| (rune &&& 0x3F))]

/-- `JsonValueHex4` at the start of what is left of the value; -1 when there are
no four digits. -/
def jsonValueHex4 (left : List UInt8) : Int :=
  if left.length < 4 then -1
  else
    match hexValue (left.take 4) with
    | some value => value
    | none => -1

def escapedByte (ch : UInt8) : UInt8 :=
  if ch = byte 'b' then 8
  else if ch = byte 'f' then 12
  else if ch = byte 'n' then 10
  else if ch = byte 'r' then 13
  else if ch = byte 't' then 9
  else ch

/-- One round of the loop of `JsonValueCopyString`: the bytes it writes, and what
it leaves of the value. -/
def stringRound (ch : UInt8) (rest : List UInt8) : List UInt8 × List UInt8 :=
  if ch ≠ byte '\\' then ([ch], rest)
  else
    match rest with
    | [] => ([], [])
    | ch :: rest =>
        if ch = byte 'u' then
          let codepoint := jsonValueHex4 rest
          if 0xD800 ≤ codepoint ∧ codepoint ≤ 0xDBFF then
            let low := jsonValueHex4 (rest.drop 6)
            (utf8EncodeRune (0x10000 + (codepoint - 0xD800) * 1024 + low - 0xDC00), rest.drop 10)
          else (utf8EncodeRune codepoint, rest.drop 4)
        else ([escapedByte ch], rest)

/-- The loop of `JsonValueCopyString`, which stops before the last byte, the closing
quote; each round takes at least one byte, so the length bounds the rounds. -/
def copyString : Nat → List UInt8 → List UInt8
  | 0, _ => []
  | _ + 1, [] => []
  | fuel + 1, ch :: rest =>
      if rest = [] then []
      else (stringRound ch rest).1 ++ copyString fuel (stringRound ch rest).2

def jsonValueString (word : List UInt8) : List UInt8 := copyString word.length (word.drop 1)

/-! ## Values -/

inductive Value where
  | null
  | bool (b : Bool)
  | number (word : List UInt8)
  | string (contents : List UInt8)
  | container (kind : Kind) (items : List (List UInt8 × Value))

/-- The items that a part stands for: one without a name for a value, one with its
name for a member, and all of them for what stands between two brackets. -/
inductive Means (comments : Bool) : Part → Nat → List UInt8 → List (List UInt8 × Value) → Prop where
  | null (nesting : Nat) : Means comments .value nesting (bytes "null") [([], .null)]
  | true (nesting : Nat) : Means comments .value nesting (bytes "true") [([], .bool .true)]
  | false (nesting : Nat) : Means comments .value nesting (bytes "false") [([], .bool .false)]
  | number (nesting : Nat) (word : List UInt8) (isNumber : word ∈ Json.number) :
      Means comments .value nesting word [([], .number word)]
  | string (nesting : Nat) (word : List UInt8) (isString : word ∈ Json.string) :
      Means comments .value nesting word [([], .string (jsonValueString word))]
  | empty (kind : Kind) (nesting : Nat) (gap : List UInt8) (isSpace : gap ∈ space comments) :
      Means comments .value (nesting + 1) ([kind.opening] ++ gap ++ [kind.closing])
        [([], .container kind [])]
  | container (kind : Kind) (nesting : Nat) (gap body : List UInt8)
      (items : List (List UInt8 × Value)) (isSpace : gap ∈ space comments)
      (body_means : Means comments (.items kind) nesting body items) :
      Means comments .value (nesting + 1) ([kind.opening] ++ gap ++ body ++ [kind.closing])
        [([], .container kind items)]
  | member (nesting : Nat) (name before after word : List UInt8) (value : Value)
      (isName : name ∈ Json.string) (isSpace₁ : before ∈ space comments)
      (isSpace₂ : after ∈ space comments)
      (value_means : Means comments .value nesting word [([], value)]) :
      Means comments .member nesting (name ++ before ++ bytes ":" ++ after ++ word)
        [(jsonValueString name, value)]
  | last (kind : Kind) (nesting : Nat) (word gap : List UInt8) (item : List UInt8 × Value)
      (item_means : Means comments kind.item nesting word [item]) (isSpace : gap ∈ space comments) :
      Means comments (.items kind) nesting (word ++ gap) [item]
  | more (kind : Kind) (nesting : Nat) (word before after body : List UInt8)
      (item : List UInt8 × Value) (others : List (List UInt8 × Value))
      (item_means : Means comments kind.item nesting word [item])
      (isSpace₁ : before ∈ space comments) (isSpace₂ : after ∈ space comments)
      (rest_means : Means comments (.items kind) nesting body others) :
      Means comments (.items kind) nesting (word ++ before ++ bytes "," ++ after ++ body)
        (item :: others)

/-- What means something has a derivation, wherever it starts. -/
theorem Means.derives {comments : Bool} {part : Part} {nesting : Nat} {word : List UInt8}
    {items : List (List UInt8 × Value)} (means : Means comments part nesting word items) :
    ∀ start, ∃ values, Derives comments part nesting start word values := by
  induction means with
  | null nesting =>
    intro start
    exact ⟨_, .literal nesting start _ .null (by decide)⟩
  | true nesting =>
    intro start
    exact ⟨_, .literal nesting start _ .bool (by decide)⟩
  | false nesting =>
    intro start
    exact ⟨_, .literal nesting start _ .bool (by decide)⟩
  | number nesting word isNumber =>
    intro start
    exact ⟨_, .number nesting start word isNumber⟩
  | string nesting word isString =>
    intro start
    exact ⟨_, .string nesting start word isString⟩
  | empty kind nesting gap isSpace =>
    intro start
    exact ⟨_, .empty kind nesting start gap isSpace⟩
  | container kind nesting gap body items isSpace _ ih =>
    intro start
    obtain ⟨values, derives⟩ := ih (start + ([kind.opening] ++ gap).length)
    exact ⟨_, .container kind nesting start gap body values isSpace derives⟩
  | member nesting name before after word value isName isSpace₁ isSpace₂ _ ih =>
    intro start
    obtain ⟨values, derives⟩ := ih (start + (name ++ before ++ bytes ":" ++ after).length)
    exact ⟨_, .member nesting start name before after word values isName isSpace₁ isSpace₂ derives⟩
  | last kind nesting word gap item _ isSpace ih =>
    intro start
    obtain ⟨values, derives⟩ := ih start
    exact ⟨_, .last kind nesting start word gap values derives isSpace⟩
  | more kind nesting word before after body item others _ isSpace₁ isSpace₂ _ ih ihRest =>
    intro start
    obtain ⟨values, derives⟩ := ih start
    obtain ⟨others', rest⟩ := ihRest (start + (word ++ before ++ bytes "," ++ after).length)
    exact ⟨_, .more kind nesting start word before after body values others' derives isSpace₁
      isSpace₂ rest⟩

def Value.type : Value → JsonType
  | null => .null
  | bool _ => .bool
  | number _ => .number
  | string _ => .string
  | container kind _ => kind.type

theorem Means.derives_value {comments : Bool} {nesting : Nat} {word : List UInt8} {value : Value}
    (means : Means comments .value nesting word [([], value)]) (start : Nat) :
    ∃ values, Derives comments .value nesting start word values ∧
      values.getLast? = some (span comments start word value.type) := by
  cases means with
  | null => exact ⟨_, .literal nesting start _ .null (by decide), rfl⟩
  | true => exact ⟨_, .literal nesting start _ .bool (by decide), rfl⟩
  | false => exact ⟨_, .literal nesting start _ .bool (by decide), rfl⟩
  | number _ _ isNumber => exact ⟨_, .number nesting start word isNumber, rfl⟩
  | string _ _ isString => exact ⟨_, .string nesting start word isString, rfl⟩
  | empty kind nesting gap isSpace => exact ⟨_, .empty kind nesting start gap isSpace, rfl⟩
  | container kind nesting gap body items isSpace body_means =>
    obtain ⟨values, derives⟩ := body_means.derives (start + ([kind.opening] ++ gap).length)
    exact ⟨_, .container kind nesting start gap body values isSpace derives, List.getLast?_concat⟩

def Fragment (comments : Bool) (nesting : Nat) (text : List UInt8) (value : Value) : Prop :=
  ∃ before word after, text = before ++ word ++ after ∧ before ∈ space comments ∧
    after ∈ space comments ∧ Means comments .value nesting word [([], value)]

theorem Means.fragment {comments : Bool} {nesting : Nat} {word : List UInt8} {value : Value}
    (means : Means comments .value nesting word [([], value)]) :
    Fragment comments nesting word value := by
  have none : ([] : List UInt8) ∈ space comments := Language.nil_mem_kstar _
  exact ⟨[], word, [], (List.append_nil word).symm, none, none, means⟩

theorem decodes_fragment {fuel : Nat} {decoder : CJsonDecoder} {before word behind : List UInt8}
    {value : Value} (isSpace : before ∈ space decoder.allowComments)
    (isSpace' : behind ∈ space decoder.allowComments)
    (means : Means decoder.allowComments .value (depthLimit decoder.maxDepth) word [([], value)])
    (enough : 2 * (before ++ word ++ behind).length < fuel) :
    ∃ after, jsonDecode fuel { decoder with data := some (before ++ word ++ behind) } =
        .found after ∧
      after.values.getLast? = some ⟨before.length, word.length, value.type,
        decoder.allowComments⟩ := by
  obtain ⟨values, derives, last⟩ := means.derives_value before.length
  have isJson : IsJson decoder.allowComments (depthLimit decoder.maxDepth)
      (before ++ word ++ behind) values :=
    ⟨before, word, behind, rfl, isSpace, derives, space_trailing isSpace'⟩
  obtain ⟨after, ended, same⟩ := jsonDecode_complete enough isJson
  exact ⟨after, ended, by rw [same, last]; rfl⟩

/-- A text that means a value decodes to the span of the whole text. -/
theorem Means.decodes {fuel : Nat} {decoder : CJsonDecoder} {text : List UInt8} {value : Value}
    (means : Means decoder.allowComments .value (depthLimit decoder.maxDepth) text [([], value)])
    (enough : 2 * text.length < fuel) :
    ∃ after, jsonDecode fuel { decoder with data := some text } = .found after ∧
      after.values.getLast? = some ⟨0, text.length, value.type, decoder.allowComments⟩ := by
  have none : ([] : List UInt8) ∈ space decoder.allowComments := Language.nil_mem_kstar _
  have size : 2 * ([] ++ text ++ []).length < fuel := by
    rw [List.append_nil]
    exact enough
  have found := decodes_fragment none none means size
  rwa [List.append_nil] at found

theorem Means.mono {comments : Bool} {part : Part} {nesting : Nat} {word : List UInt8}
    {items : List (List UInt8 × Value)} (means : Means comments part nesting word items)
    {nesting' : Nat} (le : nesting ≤ nesting') : Means comments part nesting' word items := by
  induction means generalizing nesting' with
  | null => exact .null _
  | true => exact .true _
  | false => exact .false _
  | number _ word isNumber => exact .number _ word isNumber
  | string _ word isString => exact .string _ word isString
  | empty kind nesting gap isSpace =>
    obtain ⟨lower, rfl⟩ : ∃ lower, nesting' = lower + 1 := ⟨nesting' - 1, by omega⟩
    exact .empty kind lower gap isSpace
  | container kind nesting gap body items isSpace _ ih =>
    obtain ⟨lower, rfl⟩ : ∃ lower, nesting' = lower + 1 := ⟨nesting' - 1, by omega⟩
    exact .container kind lower gap body items isSpace (ih (by omega))
  | member _ name before after word value isName isSpace₁ isSpace₂ _ ih =>
    exact .member _ name before after word value isName isSpace₁ isSpace₂ (ih le)
  | last kind _ word gap item _ isSpace ih => exact .last kind _ word gap item (ih le) isSpace
  | more kind _ word before after body item others _ isSpace₁ isSpace₂ _ ih ihRest =>
    exact .more kind _ word before after body item others (ih le) isSpace₁ isSpace₂ (ihRest le)

/-- One more item behind the others, with white space around it. -/
theorem Means.snoc_spaced {comments : Bool} {kind : Kind} {nesting : Nat}
    {body before word after : List UInt8} {items : List (List UInt8 × Value)}
    {item : List UInt8 × Value} (means : Means comments (.items kind) nesting body items)
    (item_means : Means comments kind.item nesting word [item])
    (isSpace : before ∈ space comments) (isSpace' : after ∈ space comments) :
    Means comments (.items kind) nesting (body ++ bytes "," ++ before ++ (word ++ after))
      (items ++ [item]) := by
  have ends := Means.last kind nesting word after item item_means isSpace'
  generalize isPart : Part.items kind = part at means
  induction means with
  | null => cases isPart
  | true => cases isPart
  | false => cases isPart
  | number => cases isPart
  | string => cases isPart
  | empty => cases isPart
  | container => cases isPart
  | member => cases isPart
  | last kind' nesting first gap item' first_means isFirst =>
    cases isPart
    exact Means.more kind nesting first gap before (word ++ after) item' [item] first_means isFirst
      isSpace ends
  | more kind' nesting first gap gap' body item' others first_means isFirst isFirst' _ _ ihRest =>
    cases isPart
    have both := Means.more kind nesting first gap gap' _ item' _ first_means isFirst isFirst'
      (ihRest item_means ends rfl)
    simp only [List.append_assoc, List.cons_append] at both ⊢
    exact both

theorem Means.snoc {comments : Bool} {kind : Kind} {nesting : Nat} {body word : List UInt8}
    {items : List (List UInt8 × Value)} {item : List UInt8 × Value}
    (means : Means comments (.items kind) nesting body items)
    (item_means : Means comments kind.item nesting word [item]) :
    Means comments (.items kind) nesting (body ++ bytes "," ++ word) (items ++ [item]) := by
  have none : ([] : List UInt8) ∈ space comments := Language.nil_mem_kstar _
  have spaced := means.snoc_spaced item_means none none
  rwa [List.append_nil, List.append_nil] at spaced

end Aholyc.Json
