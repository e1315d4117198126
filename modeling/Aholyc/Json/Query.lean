import Aholyc.Json.Value

/-!
# Queries over decoded values (lib/json/query.hc)

A query scans the text of a value with a decoder of its own, item by item. On the text
of a container each query finds what the items of the container say, as long as no
item it scans nests deeper than the default limit.
-/

namespace Aholyc.Json

open Aholyc.Lib.Scanner Aholyc.Text CJsonDecoder
open Computability

/-- A `CJsonValue` with the bytes that its pointer and its length span. -/
structure JsonView where
  data : List UInt8
  type : JsonType
  allowComments : Bool
  deriving DecidableEq

def CJsonValue.view (text : List UInt8) (value : CJsonValue) : JsonView :=
  ⟨slice text value.data value.length, value.type, value.allowComments⟩

/-- The root of a text without white space around it is the text. -/
theorem view_root (text : List UInt8) (type : JsonType) (comments : Bool) :
    CJsonValue.view text ⟨0, text.length, type, comments⟩ = ⟨text, type, comments⟩ := by
  simp only [CJsonValue.view, slice, List.drop_zero, List.take_length]

def answered : Scan → Option CJsonDecoder
  | .found decoder => some decoder
  | .failed _ => none
  | .running => none

theorem answered_found {scan : Scan} {decoder : CJsonDecoder}
    (isFound : answered scan = some decoder) : scan = .found decoder := by
  cases scan with
  | found after =>
    injection isFound with same
    rw [same]
  | failed after => cases isFound
  | running => cases isFound

/-- `JsonDecodeScanValue (&decoder, 0, &value)`. -/
def scanView (decoder : CJsonDecoder) : Option (JsonView × CJsonDecoder) := do
  let after ← answered (jsonDecodeScanValue (2 * decoder.left.length + 1) 0 decoder)
  let value ← after.values.getLast?
  some (value.view (decoder.data.getD []), after)

/-! ## The items of a container -/

def itemsDecoder (container : JsonView) : CJsonDecoder :=
  { jsonDecoderInit (some container.data) with
    allowComments := container.allowComments, offset := 1 }

/-- The first item; `some none` when there is none. -/
def firstItem (kind : Kind) (container : JsonView) : Option (Option CJsonDecoder) := do
  let decoder ← answered (jsonDecodeSkipSpace (itemsDecoder container))
  match decoder.left with
  | [] => none
  | ch :: _ => some (if ch = kind.closing then none else some decoder)

def scanPair (kind : Kind) (decoder : CJsonDecoder) :
    Option (List UInt8 × JsonView × CJsonDecoder) :=
  match kind with
  | .array => do
    let (value, after) ← scanView decoder
    some ([], value, after)
  | .object => do
    let named ← answered (jsonDecodeScanString decoder)
    let colon ← answered (jsonDecodeSkipSpace named)
    let (value, after) ← scanView (skip 1 colon)
    some (decoder.left.take (named.offset - decoder.offset), value, after)

/-- The next item behind one; `some none` at the closing bracket. -/
def nextItem (kind : Kind) (decoder : CJsonDecoder) : Option (Option CJsonDecoder) := do
  let decoder ← answered (jsonDecodeSkipSpace decoder)
  match decoder.left with
  | [] => none
  | ch :: _ =>
    if ch = kind.closing then
      some none
    else
      match kind with
      | .array => some (some (skip 1 decoder))
      | .object => (answered (jsonDecodeSkipSpace (skip 1 decoder))).map some

/-- `for (;;)` up to the item that is asked for. -/
def findItem (kind : Kind) (isIt : Nat → List UInt8 → Bool) :
    Nat → Nat → CJsonDecoder → Option JsonView
  | 0, _, _ => none
  | fuel + 1, current, decoder => do
    let (name, value, after) ← scanPair kind decoder
    if isIt current name then
      some value
    else
      match ← nextItem kind after with
      | none => none
      | some decoder => findItem kind isIt fuel (current + 1) decoder

def countItems (kind : Kind) : Nat → Nat → CJsonDecoder → Option Nat
  | 0, _, _ => none
  | fuel + 1, count, decoder => do
    let (_, _, after) ← scanPair kind decoder
    match ← nextItem kind after with
    | none => some (count + 1)
    | some decoder => countItems kind fuel (count + 1) decoder

def itemGet (kind : Kind) (isIt : Nat → List UInt8 → Bool) (container : JsonView) :
    Option JsonView := do
  match ← firstItem kind container with
  | none => none
  | some decoder => findItem kind isIt (container.data.length + 1) 0 decoder

def itemCount (kind : Kind) (container : JsonView) : Option Nat :=
  if container.type ≠ kind.type then
    none
  else do
    match ← firstItem kind container with
    | none => some 0
    | some decoder => countItems kind (container.data.length + 1) 0 decoder

def jsonArrayGet (array : JsonView) (index : Int) : Option JsonView :=
  if array.type ≠ .array ∨ index < 0 then none
  else itemGet .array (fun current _ => (current : Int) = index) array

def jsonArrayLength (array : JsonView) : Option Nat := itemCount .array array

/-- The loop of `JsonValueStringEqualsN`, as that of `JsonValueCopyString`. -/
def equalsString : Nat → List UInt8 → List UInt8 → Bool
  | 0, _, text => text = []
  | _ + 1, [], text => text = []
  | fuel + 1, ch :: rest, text =>
    if rest = [] then text = []
    else if (stringRound ch rest).1 <+: text then
      equalsString fuel (stringRound ch rest).2 (text.drop (stringRound ch rest).1.length)
    else false

def jsonValueStringEqualsN (word text : List UInt8) : Bool :=
  equalsString word.length (word.drop 1) text

def jsonObjectGetN (object : JsonView) (key : List UInt8) : Option JsonView :=
  if object.type ≠ .object then none
  else itemGet .object (fun _ name => jsonValueStringEqualsN name key) object

def jsonObjectLength (object : JsonView) : Option Nat := itemCount .object object

/-! ## Paths -/

def isNameEnd (ch : UInt8) : Bool := ch = byte '.' || ch = byte '['

def int64Max : Nat := 9223372036854775807

def pathIndex (index : Nat) : List UInt8 → Option (Nat × List UInt8)
  | [] => some (index, [])
  | ch :: rest =>
    if isDigit ch then
      let digit := ch.toNat - (byte '0').toNat
      if index > (int64Max - digit) / 10 then none else pathIndex (index * 10 + digit) rest
    else
      some (index, ch :: rest)

/-- What a path goes through: values with the members and the elements that calls find in them. -/
structure Tree (α : Type) where
  member : α → List UInt8 → Option α
  element : α → Nat → Option α

section

variable {α : Type} (tree : Tree α)

def pathMember (current : α) (path : List UInt8) : Option (α × List UInt8) :=
  let name := path.takeWhile (!isNameEnd ·)
  if name = [] then none
  else (tree.member current name).map (·, path.dropWhile (!isNameEnd ·))

def pathBracket (current : α) (path : List UInt8) : Option (α × List UInt8) :=
  match path.dropWhile jsonDecodeIsSpace with
  | [] => none
  | quote :: rest =>
    if quote = byte '"' ∨ quote = byte '\'' then
      let name := rest.takeWhile (· ≠ quote)
      if byte '\\' ∈ name then none
      else
        match rest.dropWhile (· ≠ quote) with
        | [] => none
        | _ :: rest => (tree.member current name).map (·, rest)
    else if ¬isDigit quote then
      none
    else do
      let (index, rest) ← pathIndex 0 (quote :: rest)
      (tree.element current index).map (·, rest)

def pathClose (path : List UInt8) : Option (List UInt8) :=
  match path.dropWhile jsonDecodeIsSpace with
  | [] => none
  | ch :: rest =>
    if ch ≠ byte ']' then none
    else if rest.head?.any (!isNameEnd ·) then none
    else some rest

/-- One round of `while (i < path_length)`. -/
def pathStep (current : α) (ch : UInt8) (path : List UInt8) : Option (α × List UInt8) :=
  if ch = byte '.' then
    pathMember tree current path
  else if ch = byte '[' then do
    let (next, rest) ← pathBracket tree current path
    (pathClose rest).map (next, ·)
  else
    pathMember tree current (ch :: path)

def pathLoop : Nat → α → List UInt8 → Option α
  | _, current, [] => some current
  | 0, _, _ :: _ => none
  | fuel + 1, current, ch :: path => do
    let (next, rest) ← pathStep tree current ch path
    pathLoop fuel next rest

def pathGetN (root : α) (path : List UInt8) : Option α :=
  pathLoop tree path.length root (if path.head? = some (byte '$') then path.drop 1 else path)

end

def scannedTree : Tree JsonView := ⟨jsonObjectGetN, fun array index => jsonArrayGet array index⟩

def jsonPathGetN (root : JsonView) (path : List UInt8) : Option JsonView :=
  pathGetN scannedTree root path

/-! ## The items of a text -/

/-- A part means one item, unless it is what stands between brackets. -/
def Single : Part → List (List UInt8 × Value) → Prop
  | .value, items => ∃ value, items = [([], value)]
  | .member, items => ∃ item, items = [item]
  | .items _, _ => True

variable {comments : Bool} {start : Nat} {values : List CJsonValue} {text : List UInt8}

theorem Derives.means {part : Part} {nesting : Nat} {word : List UInt8}
    (derives : Derives comments part nesting start word values) :
    ∃ items, Means comments part nesting word items ∧ Single part items := by
  induction derives with
  | literal nesting start word type isLiteral =>
    simp only [literals, List.mem_cons, Prod.mk.injEq, List.not_mem_nil, or_false] at isLiteral
    rcases isLiteral with ⟨rfl, _⟩ | ⟨rfl, _⟩ | ⟨rfl, _⟩
    · exact ⟨_, .null nesting, _, rfl⟩
    · exact ⟨_, .true nesting, _, rfl⟩
    · exact ⟨_, .false nesting, _, rfl⟩
  | number nesting start word isNumber => exact ⟨_, .number nesting word isNumber, _, rfl⟩
  | string nesting start word isString => exact ⟨_, .string nesting word isString, _, rfl⟩
  | empty kind nesting start gap isSpace => exact ⟨_, .empty kind nesting gap isSpace, _, rfl⟩
  | container kind nesting start gap body values isSpace _ ih =>
    obtain ⟨items, means, _⟩ := ih
    exact ⟨_, .container kind nesting gap body items isSpace means, _, rfl⟩
  | member nesting start name before after word values isName isSpace₁ isSpace₂ _ ih =>
    obtain ⟨_, means, value, rfl⟩ := ih
    exact ⟨_, .member nesting name before after word value isName isSpace₁ isSpace₂ means, _, rfl⟩
  | last kind nesting start word gap values _ isSpace ih =>
    obtain ⟨items, means, single⟩ := ih
    obtain ⟨item, rfl⟩ : ∃ item, items = [item] := by
      cases kind with
      | array =>
        obtain ⟨value, isValue⟩ := single
        exact ⟨_, isValue⟩
      | object => exact single
    exact ⟨_, .last kind nesting word gap item means isSpace, trivial⟩
  | more kind nesting start word before after body values others _ isSpace₁ isSpace₂ _ ih ihRest =>
    obtain ⟨items, means, single⟩ := ih
    obtain ⟨others', rest, _⟩ := ihRest
    obtain ⟨item, rfl⟩ : ∃ item, items = [item] := by
      cases kind with
      | array =>
        obtain ⟨value, isValue⟩ := single
        exact ⟨_, isValue⟩
      | object => exact single
    exact ⟨_, .more kind nesting word before after body item others' means isSpace₁ isSpace₂ rest,
      trivial⟩

/-- What a derivation of a value means has the type of its last span. -/
theorem Derives.means_value {nesting : Nat} {word : List UInt8}
    (derives : Derives comments .value nesting start word values) :
    ∃ value, Means comments .value nesting word [([], value)] ∧
      values.getLast? = some (span comments start word value.type) := by
  cases derives with
  | literal _ _ _ type isLiteral =>
    simp only [literals, List.mem_cons, Prod.mk.injEq, List.not_mem_nil, or_false] at isLiteral
    rcases isLiteral with ⟨rfl, rfl⟩ | ⟨rfl, rfl⟩ | ⟨rfl, rfl⟩
    · exact ⟨_, .null nesting, rfl⟩
    · exact ⟨_, .true nesting, rfl⟩
    · exact ⟨_, .false nesting, rfl⟩
  | number _ _ _ isNumber => exact ⟨_, .number nesting word isNumber, rfl⟩
  | string _ _ _ isString => exact ⟨_, .string nesting word isString, rfl⟩
  | empty kind nesting _ gap isSpace => exact ⟨_, .empty kind nesting gap isSpace, rfl⟩
  | container kind nesting _ gap body values isSpace items =>
    obtain ⟨pairs, means, _⟩ := items.means
    exact ⟨_, .container kind nesting gap body pairs isSpace means, List.getLast?_concat⟩

/-- An item as it stands in the text: its name in quotes (nothing in an array), the text of its
value, and what that means. -/
structure Item where
  name : List UInt8
  word : List UInt8
  value : Value

def Item.pair (item : Item) : List UInt8 × Value := (jsonValueString item.name, item.value)

def Item.view (comments : Bool) (item : Item) : JsonView :=
  ⟨item.word, item.value.type, comments⟩

def IsItem (comments : Bool) (kind : Kind) (text : List UInt8) (item : Item) : Prop :=
  match kind with
  | .array => item.name = [] ∧ text = item.word
  | .object => item.name ∈ string ∧ ∃ before ∈ space comments, ∃ after ∈ space comments,
      text = item.name ++ before ++ bytes ":" ++ after ++ item.word

inductive Lists (comments : Bool) (kind : Kind) (nesting : Nat) :
    List UInt8 → List Item → Prop where
  | last (text gap : List UInt8) (item : Item) (isItem : IsItem comments kind text item)
      (means : Means comments .value nesting item.word [([], item.value)])
      (isSpace : gap ∈ space comments) : Lists comments kind nesting (text ++ gap) [item]
  | more (text before after body : List UInt8) (item : Item) (others : List Item)
      (isItem : IsItem comments kind text item)
      (means : Means comments .value nesting item.word [([], item.value)])
      (isSpace₁ : before ∈ space comments) (isSpace₂ : after ∈ space comments)
      (rest : Lists comments kind nesting body others) :
      Lists comments kind nesting (text ++ before ++ bytes "," ++ after ++ body) (item :: others)

theorem means_item {kind : Kind} {nesting : Nat} {pair : List UInt8 × Value}
    (means : Means comments kind.item nesting text [pair]) :
    ∃ item : Item, item.pair = pair ∧ IsItem comments kind text item ∧
      Means comments .value nesting item.word [([], item.value)] := by
  obtain ⟨name, value⟩ := pair
  cases kind with
  | array =>
    have isValue : name = [] := by
      cases means <;> rfl
    rw [isValue] at means ⊢
    exact ⟨⟨[], text, value⟩, rfl, ⟨rfl, rfl⟩, means⟩
  | object =>
    cases means with
    | member _ token before after word _ isName isSpace₁ isSpace₂ value_means =>
      exact ⟨⟨token, word, value⟩, rfl, ⟨isName, before, isSpace₁, after, isSpace₂, rfl⟩,
        value_means⟩

theorem Means.lists {kind : Kind} {nesting : Nat} {body : List UInt8}
    {pairs : List (List UInt8 × Value)} (means : Means comments (.items kind) nesting body pairs) :
    ∃ items, Lists comments kind nesting body items ∧ items.map Item.pair = pairs := by
  generalize isPart : Part.items kind = part at means
  induction means with
  | null => cases isPart
  | true => cases isPart
  | false => cases isPart
  | number => cases isPart
  | string => cases isPart
  | empty => cases isPart
  | container => cases isPart
  | member => cases isPart
  | last kind' nesting text gap pair pair_means isSpace =>
    cases isPart
    obtain ⟨item, rfl, isItem, item_means⟩ := means_item pair_means
    exact ⟨[item], .last text gap item isItem item_means isSpace, rfl⟩
  | more kind' nesting text before after body pair others pair_means isSpace₁ isSpace₂ _ _ ihRest =>
    cases isPart
    obtain ⟨item, rfl, isItem, item_means⟩ := means_item pair_means
    obtain ⟨items, lists, rfl⟩ := ihRest rfl
    exact ⟨item :: items, .more text before after body item items isItem item_means isSpace₁
      isSpace₂ lists, rfl⟩

/-! ## Scanning an item -/

/-- A decoder over the text of a container, with what it has left. -/
structure On (container : JsonView) (decoder : CJsonDecoder) (rest : List UInt8) : Prop where
  data : decoder.data = some container.data
  comments : decoder.allowComments = container.allowComments
  depth : decoder.maxDepth = jsonDefaultMaxDepth
  left : decoder.left = rest

variable {item : Item}

section

variable {container : JsonView} {decoder : CJsonDecoder} {word gap rest : List UInt8}

theorem On.skip (on : On container decoder (word ++ rest)) :
    On container (skip word.length decoder) rest :=
  ⟨on.data, on.comments, on.depth, cursor.left_of_skip on.left⟩

theorem On.skip_one {ch : UInt8} (on : On container decoder (ch :: rest)) :
    On container (CJsonDecoder.skip 1 decoder) rest :=
  ⟨on.data, on.comments, on.depth, left_skip_one on.left⟩

theorem On.keep (on : On container decoder rest) (values : List CJsonValue) :
    On container (keep values decoder) rest :=
  ⟨on.data, on.comments, on.depth, on.left⟩

theorem On.default_room (on : On container decoder rest) : room decoder 0 = 128 := by
  unfold room
  rw [on.depth]
  rfl

theorem On.skipSpace (on : On container decoder (gap ++ rest))
    (isSpace : gap ∈ space container.allowComments) (stop : Stops spaceByte rest) :
    ∃ after, answered (jsonDecodeSkipSpace decoder) = some after ∧ On container after rest := by
  rw [← on.comments] at isSpace
  refine ⟨_, ?_, on.skip⟩
  rw [skipSpace_complete isSpace on.left stop]
  rfl

/-- The span of a word that stands behind some white space is a view of it. -/
theorem On.view (on : On container decoder (gap ++ word ++ rest)) (type : JsonType) :
    (span container.allowComments (decoder.offset + gap.length) word type).view
      (decoder.data.getD []) = ⟨word, type, container.allowComments⟩ := by
  have text := on.left
  unfold CJsonDecoder.left at text
  unfold CJsonValue.view span slice
  dsimp only
  rw [← List.drop_drop, text, List.append_assoc, List.drop_left, List.take_left]

/-- A value that nests no deeper than the default limit is scanned. -/
theorem On.scanView {value : Value} (on : On container decoder (gap ++ word ++ rest))
    (isSpace : gap ∈ space container.allowComments)
    (means : Means container.allowComments .value 128 word [([], value)])
    (stop : Stops numberByte rest) :
    ∃ after, scanView decoder = some (⟨word, value.type, container.allowComments⟩, after) ∧
      On container after rest := by
  obtain ⟨values, derives, last⟩ := means.derives_value (decoder.offset + gap.length)
  have size : 2 * word.length < 2 * decoder.left.length + 1 := by
    rw [on.left]
    simp only [List.length_append]
    omega
  have scanned := scan_complete derives (2 * decoder.left.length + 1) 0 decoder gap rest isSpace
    ⟨on.comments, on.default_room.ge, on.left⟩ rfl stop size
  have past : On container (CJsonDecoder.skip (gap ++ word).length decoder) rest := on.skip
  refine ⟨_, ?_, past.keep values⟩
  unfold Json.scanView
  rw [scanned]
  have isLast : (Json.keep values (CJsonDecoder.skip (gap ++ word).length decoder)).values.getLast? =
      some (span container.allowComments (decoder.offset + gap.length) word value.type) := by
    show (decoder.values ++ values).getLast? = _
    rw [List.getLast?_append, last]
    rfl
  have isView := on.view value.type
  simp only [answered, Option.bind_eq_bind, Option.bind_some, isLast]
  rw [← isView]

/-! ### Values that nest too deep -/

theorem space_unique {first second one two : List UInt8} (isSpace : first ∈ space comments)
    (isSpace' : second ∈ space comments) (stop : Stops spaceByte one) (stop' : Stops spaceByte two)
    (same : first ++ one = second ++ two) : first = second := by
  let decoder : CJsonDecoder :=
    { jsonDecoderInit (some (first ++ one)) with allowComments := comments }
  have text : decoder.left = first ++ one := rfl
  have skipped : jsonDecodeSkipSpace decoder = _ := skipSpace_complete isSpace text stop
  have skipped' : jsonDecodeSkipSpace decoder = _ :=
    skipSpace_complete isSpace' (text.trans same) stop'
  rw [skipped] at skipped'
  injection skipped' with skipped'
  have length : 0 + first.length = 0 + second.length := congrArg CJsonDecoder.offset skipped'
  have front := congrArg (List.take first.length) same
  rw [List.take_left, show first.length = second.length by omega, List.take_left] at front
  exact front

theorem opening_starts {kind : Kind} {nesting : Nat}
    (derives : Derives comments .value nesting start word values)
    (opened : word.head? = some kind.opening) :
    ∀ fuel depth decoder rest, Before comments nesting depth decoder word rest →
      start = decoder.offset → 2 * word.length ≤ fuel →
      jsonDecodeScanValue (fuel + 1) depth decoder =
        .found (keep values (CJsonDecoder.skip word.length decoder)) := by
  intro fuel depth decoder rest before place enough
  cases derives with
  | literal _ _ _ type isLiteral =>
    simp only [literals, List.mem_cons, Prod.mk.injEq, List.not_mem_nil, or_false] at isLiteral
    exfalso
    rcases isLiteral with ⟨rfl, _⟩ | ⟨rfl, _⟩ | ⟨rfl, _⟩
    · cases kind <;> exact absurd opened (by decide)
    · cases kind <;> exact absurd opened (by decide)
    · cases kind <;> exact absurd opened (by decide)
  | number _ _ _ isNumber =>
    obtain ⟨ch, tail, rfl, first⟩ := number_starts isNumber
    cases opened
    exfalso
    cases kind <;> exact absurd first (by decide)
  | string _ _ _ isString =>
    obtain ⟨tail, rfl⟩ := string_starts isString
    injection opened with same
    exfalso
    cases kind <;> exact absurd same (by decide)
  | empty kind nesting _ gap isSpace => exact emptyValue_complete isSpace before place
  | container kind nesting _ gap body values isSpace items =>
    exact containerValue_complete isSpace items (scan_complete items) before place enough

/-- A value whose brackets nest deeper than any scalar's starts with one. -/
theorem deep_opened {nesting : Nat} {value : Value}
    (means : Means comments .value nesting word [([], value)])
    (deep : ¬∃ value, Means comments .value 128 word [([], value)]) :
    ∃ kind : Kind, word.head? = some kind.opening := by
  cases means with
  | null => exact absurd ⟨_, .null 128⟩ deep
  | true => exact absurd ⟨_, .true 128⟩ deep
  | false => exact absurd ⟨_, .false 128⟩ deep
  | number _ _ isNumber => exact absurd ⟨_, .number 128 word isNumber⟩ deep
  | string _ _ isString => exact absurd ⟨_, .string 128 word isString⟩ deep
  | empty kind _ gap isSpace => exact ⟨kind, rfl⟩
  | container kind _ gap body items isSpace _ => exact ⟨kind, rfl⟩

/-- A value that nests deeper than the default limit is refused. -/
theorem On.scanView_deep {value : Value} {nesting : Nat}
    (on : On container decoder (gap ++ word ++ rest))
    (isSpace : gap ∈ space container.allowComments)
    (means : Means container.allowComments .value nesting word [([], value)])
    (deep : ¬∃ value, Means container.allowComments .value 128 word [([], value)]) :
    Json.scanView decoder = none := by
  unfold Json.scanView
  cases scanned : jsonDecodeScanValue (2 * decoder.left.length + 1) 0 decoder with
  | failed after => rfl
  | running => rfl
  | found after =>
    exfalso
    have finds := (scan_sound _).1 0 decoder after scanned
    rw [on.comments, on.default_room] at finds
    obtain ⟨gap', word', values', isSpace', reports, derives'⟩ := finds
    obtain ⟨values, derives⟩ := means.derives (decoder.offset + gap.length)
    have split : gap ++ (word ++ rest) = gap' ++ (word' ++ after.left) := by
      rw [← List.append_assoc, ← List.append_assoc, ← reports.left, on.left]
    have sameGap := space_unique isSpace isSpace' (derives_stops derives rest)
      (derives_stops derives' after.left) split
    rw [← sameGap] at derives' split
    have same := List.append_cancel_left split
    obtain ⟨kind, opened⟩ := deep_opened means deep
    have opened' : word'.head? = some kind.opening := by
      obtain ⟨ch, tail, rfl, _⟩ := derives_starts derives'
      obtain ⟨ch', tail', rfl, _⟩ := derives_starts derives
      rw [List.cons_append, List.cons_append] at same
      injection same with first _
      rw [← first]
      exact opened
    let roomy : CJsonDecoder := { CJsonDecoder.skip gap.length decoder with maxDepth := nesting + 128 }
    have text : roomy.left = word ++ rest := by
      have left := on.left
      rw [List.append_assoc] at left
      exact cursor.left_of_skip left
    have place : decoder.offset + gap.length = roomy.offset := rfl
    have deepRoom : room roomy 0 = nesting + 128 := by
      have limit : roomy.maxDepth = nesting + 128 := rfl
      unfold room
      omega
    have one := opening_starts derives opened (2 * (word.length + word'.length)) 0 roomy rest
      ⟨on.comments, by omega, text⟩ place (by omega)
    have other := opening_starts derives' opened' (2 * (word.length + word'.length)) 0 roomy
      after.left ⟨on.comments, by omega, text.trans same⟩ place (by omega)
    rw [one] at other
    injection other with ends
    have lengths : roomy.offset + word.length = roomy.offset + word'.length :=
      congrArg CJsonDecoder.offset ends
    have sameWord := congrArg (List.take word.length) same
    rw [List.take_left, show word.length = word'.length by omega, List.take_left] at sameWord
    rw [← sameWord] at derives'
    obtain ⟨_, means', value', rfl⟩ := derives'.means
    exact deep ⟨value', means'⟩

/-- The value scanned has the type of the value meant. -/
theorem means_type {nesting nesting' : Nat} {value value' : Value}
    (means : Means comments .value nesting word [([], value)])
    (means' : Means comments .value nesting' word [([], value')]) : value.type = value'.type := by
  obtain ⟨values, derives, last⟩ := means.derives_value 0
  obtain ⟨values', derives', last'⟩ := means'.derives_value 0
  let decoder : CJsonDecoder :=
    { jsonDecoderInit (some word) with
      allowComments := comments, maxDepth := nesting + nesting' }
  have text : decoder.left = [] ++ word ++ [] := (List.append_nil word).symm
  have roomy : room decoder 0 = nesting + nesting' := by
    have limit : decoder.maxDepth = nesting + nesting' := rfl
    unfold room
    omega
  have none : ([] : List UInt8) ∈ space comments := Language.nil_mem_kstar _
  have one := scan_complete derives (2 * word.length + 1) 0 decoder [] [] none
    ⟨rfl, by omega, text⟩ rfl (stops_nil _) (by omega)
  have other := scan_complete derives' (2 * word.length + 1) 0 decoder [] [] none
    ⟨rfl, by omega, text⟩ rfl (stops_nil _) (by omega)
  rw [one] at other
  injection other with ends
  have same : [] ++ values = [] ++ values' := congrArg CJsonDecoder.values ends
  rw [List.nil_append, List.nil_append] at same
  rw [same, last'] at last
  injection last with spans
  exact (congrArg CJsonValue.type spans).symm

def Shallow (comments : Bool) (item : Item) : Prop :=
  ∃ value, Means comments .value 128 item.word [([], value)]

def Front (comments : Bool) (kind : Kind) (gap : List UInt8) : Prop :=
  gap ∈ space comments ∧ (kind = .object → gap = [])

theorem On.scanPair {kind : Kind} (on : On container decoder (gap ++ text ++ rest))
    (front : Front container.allowComments kind gap)
    (isItem : IsItem container.allowComments kind text item) {nesting : Nat}
    (means : Means container.allowComments .value nesting item.word [([], item.value)])
    (stop : Stops numberByte rest) :
    (Shallow container.allowComments item → ∃ after,
      scanPair kind decoder = some (item.name, item.view container.allowComments, after) ∧
        On container after rest) ∧
    (¬Shallow container.allowComments item → scanPair kind decoder = none) := by
  cases kind with
  | array =>
    obtain ⟨noName, rfl⟩ := isItem
    constructor
    · intro shallow
      obtain ⟨value, shallow⟩ := shallow
      obtain ⟨after, scanned, ends⟩ := on.scanView front.1 shallow stop
      refine ⟨after, ?_, ends⟩
      unfold Json.scanPair
      simp only [scanned, Option.bind_eq_bind, Option.bind_some, noName, Item.view,
        means_type means shallow]
    · intro deep
      unfold Json.scanPair
      simp only [on.scanView_deep front.1 means deep, Option.bind_eq_bind, Option.bind_none]
  | object =>
    obtain ⟨isName, before, isSpace, after, isSpace', rfl⟩ := isItem
    rw [front.2 rfl, List.nil_append] at on
    have text : decoder.left =
        item.name ++ (before ++ (bytes ":" ++ (after ++ item.word ++ rest))) := by
      rw [on.left]
      simp
    have named := string_scans.complete decoder item.name _ isName text trivial
    have onName := On.skip ⟨on.data, on.comments, on.depth, text⟩
    obtain ⟨colon, skipped, onColon⟩ := onName.skipSpace isSpace ((stops_cons _ _ _).mpr (by decide))
    have onValue : On container (CJsonDecoder.skip 1 colon) (after ++ item.word ++ rest) :=
      onColon.skip_one
    have token : decoder.left.take
        ((CJsonDecoder.skip item.name.length decoder).offset - decoder.offset) = item.name := by
      rw [skip_offset, Nat.add_sub_cancel_left, text, List.take_left]
    have isNamed : answered (jsonDecodeScanString decoder) =
        some (CJsonDecoder.skip item.name.length decoder) := by
      rw [named]
      rfl
    constructor
    · intro shallow
      obtain ⟨value, shallow⟩ := shallow
      obtain ⟨last, scanned, ends⟩ := onValue.scanView isSpace' shallow stop
      refine ⟨last, ?_, ends⟩
      unfold Json.scanPair
      simp only [isNamed, skipped, scanned, Option.bind_eq_bind, Option.bind_some, token, Item.view,
        means_type means shallow]
    · intro deep
      unfold Json.scanPair
      simp only [isNamed, skipped, onValue.scanView_deep isSpace' means deep, Option.bind_eq_bind,
        Option.bind_some, Option.bind_none]

theorem On.nextItem_closing {kind : Kind} (on : On container decoder (gap ++ kind.closing :: rest))
    (isSpace : gap ∈ space container.allowComments) : nextItem kind decoder = some none := by
  obtain ⟨after, skipped, onEnd⟩ := on.skipSpace isSpace
    ((stops_cons _ _ _).mpr (closing_not_space kind))
  unfold nextItem
  simp only [skipped, Option.bind_eq_bind, Option.bind_some, onEnd.left, if_true]

theorem On.nextItem_comma (kind : Kind) {before after : List UInt8}
    (on : On container decoder (before ++ bytes "," ++ after ++ rest))
    (isSpace : before ∈ space container.allowComments)
    (isSpace' : after ∈ space container.allowComments) (stop : Stops spaceByte rest) :
    ∃ next gap, nextItem kind decoder = some (some next) ∧
      Front container.allowComments kind gap ∧ On container next (gap ++ rest) := by
  rw [List.append_assoc, List.append_assoc] at on
  obtain ⟨comma, skipped, onComma⟩ := on.skipSpace isSpace ((stops_cons _ _ _).mpr (by decide))
  have onNext : On container (CJsonDecoder.skip 1 comma) (after ++ rest) := onComma.skip_one
  have left : comma.left = byte ',' :: (after ++ rest) := onComma.left
  cases kind with
  | array =>
    refine ⟨_, after, ?_, ⟨isSpace', ?_⟩, onNext⟩
    · have notClosing : byte ',' ≠ Kind.array.closing := by decide
      unfold nextItem
      simp only [skipped, Option.bind_eq_bind, Option.bind_some, left, if_neg notClosing]
    · intro isObject
      cases isObject
  | object =>
    obtain ⟨next, skippedMore, onMore⟩ := onNext.skipSpace isSpace' stop
    refine ⟨next, [], ?_, ⟨Language.nil_mem_kstar _, fun _ => rfl⟩, onMore⟩
    have notClosing : byte ',' ≠ Kind.object.closing := by decide
    unfold nextItem
    simp only [skipped, Option.bind_eq_bind, Option.bind_some, left, if_neg notClosing, skippedMore,
      Option.map_some]

end

/-! ## The loops -/

theorem item_starts {kind : Kind} {nesting : Nat} (isItem : IsItem comments kind text item)
    (means : Means comments .value nesting item.word [([], item.value)]) :
    ∃ ch rest, text = ch :: rest ∧ valueByte ch = true := by
  cases kind with
  | array =>
    obtain ⟨_, rfl⟩ := isItem
    obtain ⟨values, derives⟩ := means.derives 0
    exact derives_starts derives
  | object =>
    obtain ⟨isName, before, _, after, _, rfl⟩ := isItem
    obtain ⟨rest, isString⟩ := string_starts isName
    rw [isString]
    exact ⟨_, _, rfl, by decide⟩

theorem Lists.starts {kind : Kind} {nesting : Nat} {body : List UInt8} {items : List Item}
    (lists : Lists comments kind nesting body items) :
    ∃ ch rest, body = ch :: rest ∧ valueByte ch = true := by
  cases lists with
  | last text gap item isItem means isSpace =>
    obtain ⟨ch, rest, rfl, first⟩ := item_starts isItem means
    exact ⟨ch, _, rfl, first⟩
  | more text before after body item others isItem means isSpace₁ isSpace₂ _ =>
    obtain ⟨ch, rest, rfl, first⟩ := item_starts isItem means
    exact ⟨ch, _, rfl, first⟩

theorem Lists.length_le {kind : Kind} {nesting : Nat} {body : List UInt8} {items : List Item}
    (lists : Lists comments kind nesting body items) : items.length ≤ body.length := by
  induction lists with
  | last text gap item isItem means isSpace =>
    obtain ⟨ch, rest, rfl, _⟩ := item_starts isItem means
    simp only [List.length_append, List.length_cons, List.length_nil]
    omega
  | more text before after body item others isItem means isSpace₁ isSpace₂ _ ih =>
    obtain ⟨ch, rest, rfl, _⟩ := item_starts isItem means
    simp only [List.length_append, List.length_cons]
    omega

def pick (isIt : Nat → List UInt8 → Bool) : Nat → List Item → Option Item
  | _, [] => none
  | current, item :: items =>
    if isIt current item.name then some item else pick isIt (current + 1) items

open Classical in
noncomputable def reached (comments : Bool) (items : List Item) : List Item :=
  items.takeWhile fun item => Shallow comments item

open Classical in
theorem reached_cons {items : List Item} (shallow : Shallow comments item) :
    reached comments (item :: items) = item :: reached comments items := by
  unfold reached
  exact List.takeWhile_cons_of_pos (decide_eq_true shallow)

open Classical in
theorem reached_deep {items : List Item} (deep : ¬Shallow comments item) :
    reached comments (item :: items) = [] := by
  unfold reached
  exact List.takeWhile_cons_of_neg (by simpa using deep)

theorem reached_all {items : List Item} (shallow : ∀ item ∈ items, Shallow comments item) :
    reached comments items = items := by
  induction items with
  | nil => rfl
  | cons item items ih =>
    rw [reached_cons (shallow item (List.mem_cons_self ..)),
      ih fun item member => shallow item (List.mem_cons_of_mem _ member)]

section

variable {container : JsonView} {kind : Kind} {nesting : Nat} {body gap rest : List UInt8}
  {items : List Item}

theorem closing_stops_number (kind : Kind) (rest : List UInt8) :
    Stops numberByte (kind.closing :: rest) := (stops_cons _ _ _).mpr (closing_not_number kind)

theorem On.first {decoder : CJsonDecoder} {behind : List UInt8}
    (on : On container decoder (gap ++ (text ++ behind ++ rest))) :
    On container decoder (gap ++ text ++ (behind ++ rest)) := by
  simpa only [List.append_assoc] using on

/-- What stops the scan of an item in front of a comma, and that of the space behind it. -/
theorem On.comma {decoder : CJsonDecoder} {before after : List UInt8} {others : List Item}
    (on : On container decoder
      (gap ++ (text ++ before ++ bytes "," ++ after ++ body ++ kind.closing :: rest)))
    (isSpace : before ∈ space container.allowComments)
    (lists : Lists container.allowComments kind nesting body others) :
    On container decoder
      (gap ++ text ++ (before ++ bytes "," ++ after ++ (body ++ kind.closing :: rest))) ∧
    Stops numberByte (before ++ bytes "," ++ after ++ (body ++ kind.closing :: rest)) ∧
    Stops spaceByte (body ++ kind.closing :: rest) := by
  refine ⟨?_, ?_, ?_⟩
  · simpa only [List.append_assoc] using on
  · rw [List.append_assoc, List.append_assoc]
    exact space_stops isSpace ((stops_cons _ _ _).mpr (by decide)) fun ch => space_not_number
  · obtain ⟨ch, tail, rfl, first⟩ := lists.starts
    exact (stops_cons _ _ _).mpr (value_not_space first)

/-- The loop up to an item finds it among those that are reached. -/
theorem findItem_eq (isIt : Nat → List UInt8 → Bool)
    (lists : Lists container.allowComments kind nesting body items) (fuel current : Nat)
    {decoder : CJsonDecoder} (enough : items.length ≤ fuel)
    (on : On container decoder (gap ++ (body ++ kind.closing :: rest)))
    (front : Front container.allowComments kind gap) :
    findItem kind isIt fuel current decoder =
      (pick isIt current (reached container.allowComments items)).map
        (Item.view container.allowComments) := by
  induction lists generalizing fuel current decoder gap with
  | last text behind item isItem means isSpace =>
    obtain ⟨fuel, rfl⟩ : ∃ less, fuel = less + 1 := ⟨fuel - 1, by
      simp only [List.length_cons] at enough
      omega⟩
    have onItem := on.first
    have stop := space_stops isSpace (closing_stops_number kind rest) fun ch => space_not_number
    obtain ⟨scans, refuses⟩ := onItem.scanPair front isItem means stop
    unfold findItem
    by_cases shallow : Shallow container.allowComments item
    · obtain ⟨after, scanned, onAfter⟩ := scans shallow
      rw [scanned, reached_cons shallow]
      simp only [Option.bind_eq_bind, Option.bind_some, pick,
        onAfter.nextItem_closing isSpace]
      split
      · rfl
      · rfl
    · rw [refuses shallow, reached_deep shallow]
      rfl
  | more text before after body item others isItem means isSpace₁ isSpace₂ others_list ih =>
    obtain ⟨fuel, rfl⟩ : ∃ less, fuel = less + 1 := ⟨fuel - 1, by
      simp only [List.length_cons] at enough
      omega⟩
    obtain ⟨onItem, stop, stopNext⟩ := on.comma isSpace₁ others_list
    obtain ⟨scans, refuses⟩ := onItem.scanPair front isItem means stop
    unfold findItem
    by_cases shallow : Shallow container.allowComments item
    · obtain ⟨last, scanned, onAfter⟩ := scans shallow
      obtain ⟨next, gap', isNext, front', onNext⟩ :=
        onAfter.nextItem_comma kind isSpace₁ isSpace₂ stopNext
      have less : others.length ≤ fuel := by
        simp only [List.length_cons] at enough
        omega
      have found := ih fuel (current + 1) less onNext front'
      rw [scanned, reached_cons shallow]
      simp only [Option.bind_eq_bind, Option.bind_some, pick, isNext, found]
      split
      · rfl
      · rfl
    · rw [refuses shallow, reached_deep shallow]
      rfl

/-- The loop over all items counts them when none nests too deep, and fails otherwise. -/
theorem countItems_eq (lists : Lists container.allowComments kind nesting body items)
    (fuel count : Nat) {decoder : CJsonDecoder} (enough : items.length ≤ fuel)
    (on : On container decoder (gap ++ (body ++ kind.closing :: rest)))
    (front : Front container.allowComments kind gap) :
    ((∀ item ∈ items, Shallow container.allowComments item) →
      countItems kind fuel count decoder = some (count + items.length)) ∧
    ((∃ item ∈ items, ¬Shallow container.allowComments item) →
      countItems kind fuel count decoder = none) := by
  induction lists generalizing fuel count decoder gap with
  | last text behind item isItem means isSpace =>
    obtain ⟨fuel, rfl⟩ : ∃ less, fuel = less + 1 := ⟨fuel - 1, by
      simp only [List.length_cons] at enough
      omega⟩
    have onItem := on.first
    have stop := space_stops isSpace (closing_stops_number kind rest) fun ch => space_not_number
    obtain ⟨scans, refuses⟩ := onItem.scanPair front isItem means stop
    unfold countItems
    simp only [List.mem_singleton, forall_eq, exists_eq_left]
    constructor
    · intro shallow
      obtain ⟨after, scanned, onAfter⟩ := scans shallow
      simp only [scanned, Option.bind_eq_bind, Option.bind_some, onAfter.nextItem_closing isSpace,
        List.length_singleton]
    · intro deep
      rw [refuses deep]
      rfl
  | more text before after body item others isItem means isSpace₁ isSpace₂ others_list ih =>
    obtain ⟨fuel, rfl⟩ : ∃ less, fuel = less + 1 := ⟨fuel - 1, by
      simp only [List.length_cons] at enough
      omega⟩
    have less : others.length ≤ fuel := by
      simp only [List.length_cons] at enough
      omega
    obtain ⟨onItem, stop, stopNext⟩ := on.comma isSpace₁ others_list
    obtain ⟨scans, refuses⟩ := onItem.scanPair front isItem means stop
    unfold countItems
    by_cases shallow : Shallow container.allowComments item
    · obtain ⟨last, scanned, onAfter⟩ := scans shallow
      obtain ⟨next, gap', isNext, front', onNext⟩ :=
        onAfter.nextItem_comma kind isSpace₁ isSpace₂ stopNext
      obtain ⟨counts, fails⟩ := ih fuel (count + 1) less onNext front'
      simp only [scanned, Option.bind_eq_bind, Option.bind_some, isNext]
      constructor
      · intro all
        rw [counts fun item member => all item (List.mem_cons_of_mem _ member),
          List.length_cons, Nat.add_assoc, Nat.add_comm 1]
      · intro some_deep
        obtain ⟨deepest, member, deep⟩ := some_deep
        apply fails
        rcases List.mem_cons.mp member with same | member
        · rw [same] at deep
          exact absurd shallow deep
        · exact ⟨deepest, member, deep⟩
    · rw [refuses shallow]
      constructor
      · intro all
        exact absurd (all item (List.mem_cons_self ..)) shallow
      · intro _
        rfl

end

/-! ## Queries over a container -/

inductive Holds (comments : Bool) (kind : Kind) (nesting : Nat) : List UInt8 → List Item → Prop where
  | empty (gap : List UInt8) (isSpace : gap ∈ space comments) :
      Holds comments kind nesting ([kind.opening] ++ gap ++ [kind.closing]) []
  | items (gap body : List UInt8) (items : List Item) (isSpace : gap ∈ space comments)
      (lists : Lists comments kind nesting body items) :
      Holds comments kind nesting ([kind.opening] ++ gap ++ body ++ [kind.closing]) items

section

variable {container : JsonView} {kind : Kind} {nesting : Nat} {items : List Item}

theorem itemsDecoder_on {rest : List UInt8} (data : container.data = kind.opening :: rest) :
    On container (itemsDecoder container) rest := by
  refine ⟨rfl, rfl, rfl, ?_⟩
  show container.data.drop 1 = rest
  rw [data, List.drop_one, List.tail_cons]

theorem firstItem_eq (holds : Holds container.allowComments kind nesting container.data items) :
    (items = [] ∧ firstItem kind container = some none) ∨
    ∃ decoder body, firstItem kind container = some (some decoder) ∧
      Lists container.allowComments kind nesting body items ∧
      items.length ≤ container.data.length ∧
      On container decoder ([] ++ (body ++ kind.closing :: [])) := by
  generalize isData : container.data = data at holds
  cases holds with
  | empty gap isSpace =>
    left
    have on : On container (itemsDecoder container) (gap ++ kind.closing :: []) :=
      itemsDecoder_on isData
    obtain ⟨after, skipped, onEnd⟩ := on.skipSpace isSpace
      ((stops_cons _ _ _).mpr (closing_not_space kind))
    unfold firstItem
    simp only [skipped, Option.bind_eq_bind, Option.bind_some, onEnd.left, if_true, and_self]
  | items gap body _ isSpace lists =>
    right
    rw [List.append_assoc, List.append_assoc] at isData
    have on : On container (itemsDecoder container) (gap ++ (body ++ kind.closing :: [])) :=
      itemsDecoder_on isData
    obtain ⟨ch, tail, starts, first⟩ := lists.starts
    have stop : Stops spaceByte (body ++ kind.closing :: []) := by
      rw [starts]
      exact (stops_cons _ _ _).mpr (value_not_space first)
    obtain ⟨after, skipped, onFirst⟩ := on.skipSpace isSpace stop
    refine ⟨after, body, ?_, lists, ?_, onFirst⟩
    · have left := onFirst.left
      rw [starts] at left
      have notClosing : ch ≠ kind.closing := by
        intro same
        rw [same] at first
        cases kind <;> exact absurd first (by decide)
      unfold firstItem
      simp only [skipped, Option.bind_eq_bind, Option.bind_some, left, List.cons_append,
        if_neg notClosing]
    · have short := lists.length_le
      simp only [List.length_append, List.length_cons]
      omega

theorem front_nil (comments : Bool) (kind : Kind) : Front comments kind [] :=
  ⟨Language.nil_mem_kstar _, fun _ => rfl⟩

theorem itemGet_eq (holds : Holds container.allowComments kind nesting container.data items)
    (isIt : Nat → List UInt8 → Bool) :
    itemGet kind isIt container = (pick isIt 0 (reached container.allowComments items)).map
      (Item.view container.allowComments) := by
  unfold itemGet
  rcases firstItem_eq holds with empty | some_items
  · obtain ⟨rfl, first⟩ := empty
    rw [first]
    rfl
  · obtain ⟨decoder, body, first, lists, short, on⟩ := some_items
    rw [first]
    exact findItem_eq isIt lists _ _ (by omega) on (front_nil _ _)

theorem itemCount_eq (holds : Holds container.allowComments kind nesting container.data items)
    (isKind : container.type = kind.type) :
    ((∀ item ∈ items, Shallow container.allowComments item) →
      itemCount kind container = some items.length) ∧
    ((∃ item ∈ items, ¬Shallow container.allowComments item) →
      itemCount kind container = none) := by
  have typed : ¬container.type ≠ kind.type := not_not.mpr isKind
  unfold itemCount
  rw [if_neg typed]
  rcases firstItem_eq holds with empty | some_items
  · obtain ⟨rfl, first⟩ := empty
    rw [first]
    constructor
    · intro _
      rfl
    · intro deep
      obtain ⟨item, member, _⟩ := deep
      cases member
  · obtain ⟨decoder, body, first, lists, short, on⟩ := some_items
    rw [first]
    obtain ⟨counts, fails⟩ := countItems_eq lists (container.data.length + 1) 0
      (by omega) on (front_nil _ _)
    rw [Nat.zero_add] at counts
    exact ⟨counts, fails⟩

end

/-! ### The item that is asked for -/

theorem pick_index (index : Nat) (current : Nat) (items : List Item) (le : current ≤ index) :
    pick (fun current _ => (current : Int) = (index : Int)) current items =
      items[index - current]? := by
  induction items generalizing current with
  | nil => rfl
  | cons item items ih =>
    unfold pick
    by_cases same : current = index
    · rw [same, Nat.sub_self, if_pos (decide_eq_true rfl)]
      rfl
    · have differs : ¬(current : Int) = (index : Int) := by omega
      rw [if_neg (by simpa using differs), ih (current + 1) (by omega),
        show index - current = index - (current + 1) + 1 by omega, List.getElem?_cons_succ]

theorem pick_find (isName : List UInt8 → Bool) (current : Nat) (items : List Item) :
    pick (fun _ name => isName name) current items = items.find? fun item => isName item.name := by
  induction items generalizing current with
  | nil => rfl
  | cons item items ih =>
    unfold pick
    rw [List.find?_cons, ih]
    cases isName item.name <;> rfl

theorem equalsString_eq (fuel : Nat) (rest text : List UInt8) :
    equalsString fuel rest text = decide (copyString fuel rest = text) := by
  induction fuel generalizing rest text with
  | zero =>
    unfold equalsString copyString
    exact decide_eq_decide.mpr eq_comm
  | succ fuel ih =>
    cases rest with
    | nil =>
      unfold equalsString copyString
      exact decide_eq_decide.mpr eq_comm
    | cons ch rest =>
      unfold equalsString copyString
      split
      · exact decide_eq_decide.mpr eq_comm
      split
      · next starts =>
        obtain ⟨tail, rfl⟩ := starts
        rw [ih, List.drop_left]
        apply decide_eq_decide.mpr
        rw [List.append_cancel_left_eq]
      · next differs =>
        symm
        apply decide_eq_false
        intro same
        exact differs ⟨_, same⟩

theorem jsonValueStringEqualsN_eq (word text : List UInt8) :
    jsonValueStringEqualsN word text = decide (jsonValueString word = text) :=
  equalsString_eq _ _ _

/-! ## Queries over what a text means -/

def Value.items (kind : Kind) : Value → Option (List (List UInt8 × Value))
  | .container kind' items => if kind' = kind then some items else none
  | .null | .bool _ | .number _ | .string _ => none

theorem Value.items_container {kind' kind : Kind} (same : kind' = kind)
    (items : List (List UInt8 × Value)) : (container kind' items).items kind = some items :=
  if_pos same

theorem Value.items_other {kind' kind : Kind} (differs : kind' ≠ kind)
    (items : List (List UInt8 × Value)) : (container kind' items).items kind = none :=
  if_neg differs

def Value.length (kind : Kind) (value : Value) : Option Nat := (value.items kind).map List.length

def Value.element (value : Value) (index : Int) : Option Value := do
  let items ← value.items .array
  if index < 0 then none else items[index.toNat]?.map Prod.snd

def Value.member (value : Value) (name : List UInt8) : Option Value := do
  let items ← value.items .object
  (items.find? fun item => item.1 = name).map Prod.snd

def valueTree : Tree Value := ⟨Value.member, fun value index => value.element index⟩

def Value.path (value : Value) (path : List UInt8) : Option Value := pathGetN valueTree value path

def Spells (nesting : Nat) (view : JsonView) (value : Value) : Prop :=
  view.type = value.type ∧ Means view.allowComments .value nesting view.data [([], value)]

/-- The queries on the view find what the value holds. -/
structure Agrees (view : JsonView) (value : Value) : Prop where
  arrayLength : jsonArrayLength view = value.length .array
  objectLength : jsonObjectLength view = value.length .object
  element : ∀ index, Option.Rel (fun view value => ∃ nesting, Spells nesting view value)
    (jsonArrayGet view index) (value.element index)
  member : ∀ name, Option.Rel (fun view value => ∃ nesting, Spells nesting view value)
    (jsonObjectGetN view name) (value.member name)
  path : ∀ path, Option.Rel (fun view value => ∃ nesting, Spells nesting view value)
    (jsonPathGetN view path) (value.path path)

theorem Lists.means {kind : Kind} {nesting : Nat} {body : List UInt8} {items : List Item}
    (lists : Lists comments kind nesting body items) :
    ∀ item ∈ items, Means comments .value nesting item.word [([], item.value)] := by
  induction lists with
  | last text gap item isItem means isSpace =>
    intro other member
    rw [List.mem_singleton.mp member]
    exact means
  | more text before after body item others isItem means isSpace₁ isSpace₂ _ ih =>
    intro other member
    rcases List.mem_cons.mp member with same | member
    · rw [same]
      exact means
    · exact ih other member

section

variable {view : JsonView} {value : Value} {nesting : Nat}

/-- A view is a container of a kind, or the value has no items of that kind. -/
theorem Spells.items (spells : Spells nesting view value) (kind : Kind) :
    (view.type ≠ kind.type ∧ value.items kind = none) ∨
    ∃ inner items, nesting = inner + 1 ∧ view.type = kind.type ∧
      Holds view.allowComments kind inner view.data items ∧
      (∀ item ∈ items, Means view.allowComments .value inner item.word [([], item.value)]) ∧
      value.items kind = some (items.map Item.pair) := by
  obtain ⟨type, means⟩ := spells
  generalize isData : view.data = data at means
  have otherKind : ∀ kind' : Kind, kind' ≠ kind → kind'.type ≠ kind.type := by
    intro kind' differs
    cases kind <;> cases kind' <;> first | exact absurd rfl differs | decide
  cases means with
  | null =>
    left
    exact ⟨by rw [type]; cases kind <;> decide, rfl⟩
  | true =>
    left
    exact ⟨by rw [type]; cases kind <;> decide, rfl⟩
  | false =>
    left
    exact ⟨by rw [type]; cases kind <;> decide, rfl⟩
  | number =>
    left
    exact ⟨by rw [type]; cases kind <;> exact JsonType.noConfusion, rfl⟩
  | string =>
    left
    exact ⟨by rw [type]; cases kind <;> exact JsonType.noConfusion, rfl⟩
  | empty kind' inner gap isSpace =>
    by_cases same : kind' = kind
    · right
      rw [same] at type ⊢
      refine ⟨inner, [], rfl, type, .empty gap isSpace, ?_, Value.items_container rfl _⟩
      intro item member
      cases member
    · left
      exact ⟨by rw [type]; exact otherKind kind' same, Value.items_other same _⟩
  | container kind' inner gap body pairs isSpace body_means =>
    by_cases same : kind' = kind
    · right
      rw [same] at type body_means ⊢
      obtain ⟨items, lists, rfl⟩ := body_means.lists
      exact ⟨inner, items, rfl, type, .items gap body items isSpace lists, lists.means,
        Value.items_container rfl _⟩
    · left
      exact ⟨by rw [type]; exact otherKind kind' same, Value.items_other same _⟩

end

def Nests (comments : Bool) (nesting : Nat) (word : List UInt8) : Prop :=
  ∃ value, Means comments .value nesting word [([], value)]

/-- Items that all nest within the default limit stand in brackets that nest one level deeper. -/
theorem Lists.shallow {kind : Kind} {nesting : Nat} {body : List UInt8} {items : List Item}
    (lists : Lists comments kind nesting body items)
    (shallow : ∀ item ∈ items, Shallow comments item) :
    ∃ pairs, Means comments (.items kind) 128 body pairs := by
  have again : ∀ text item, IsItem comments kind text item → Shallow comments item →
      ∃ pair, Means comments kind.item 128 text [pair] := by
    intro text item isItem within
    obtain ⟨value, means⟩ := within
    cases kind with
    | array =>
      obtain ⟨_, rfl⟩ := isItem
      exact ⟨_, means⟩
    | object =>
      obtain ⟨isName, before, isSpace, after, isSpace', rfl⟩ := isItem
      exact ⟨_, .member 128 item.name before after item.word value isName isSpace isSpace' means⟩
  induction lists with
  | last text gap item isItem means isSpace =>
    obtain ⟨pair, one⟩ := again text item isItem (shallow item (List.mem_cons_self ..))
    exact ⟨_, .last kind 128 text gap pair one isSpace⟩
  | more text before after body item others isItem means isSpace₁ isSpace₂ _ ih =>
    obtain ⟨pair, one⟩ := again text item isItem (shallow item (List.mem_cons_self ..))
    obtain ⟨pairs, rest⟩ := ih fun item member => shallow item (List.mem_cons_of_mem _ member)
    exact ⟨_, .more kind 128 text before after body pair pairs one isSpace₁ isSpace₂ rest⟩

section

variable {view : JsonView} {value : Value} {nesting : Nat}

/-- The items of brackets that nest at most 129 deep are within the default limit. -/
theorem Spells.shallow (spells : Spells nesting view value)
    (nests : Nests view.allowComments 129 view.data) {kind : Kind} {inner : Nat}
    {items : List Item} (isKind : view.type = kind.type)
    (holds : Holds view.allowComments kind inner view.data items) :
    ∀ item ∈ items, Shallow view.allowComments item := by
  obtain ⟨value', means⟩ := nests
  have again : Spells 129 view value' := ⟨spells.1.trans (means_type spells.2 means), means⟩
  rcases again.items kind with other | same
  · exact absurd isKind other.1
  obtain ⟨inner', items', within, _, holds', means', _⟩ := same
  have counted : itemCount kind view = some items'.length := by
    apply (itemCount_eq holds' isKind).1
    intro item member
    exact ⟨item.value, (means' item member).mono (by omega)⟩
  intro item member
  by_contra deep
  have failed := (itemCount_eq holds isKind).2 ⟨item, member, deep⟩
  rw [counted] at failed
  cases failed

def Within (view : JsonView) (value : Value) : Prop :=
  (∃ nesting, Spells nesting view value) ∧ Nests view.allowComments 129 view.data

theorem Within.items (within : Within view value) (kind : Kind) :
    (view.type ≠ kind.type ∧ value.items kind = none) ∨
    ∃ inner items, view.type = kind.type ∧
      Holds view.allowComments kind inner view.data items ∧
      (∀ item ∈ items, Shallow view.allowComments item) ∧
      (∀ item ∈ items, Within (item.view view.allowComments) item.value) ∧
      value.items kind = some (items.map Item.pair) := by
  obtain ⟨⟨nesting, spells⟩, nests⟩ := within
  rcases spells.items kind with other | same
  · exact .inl other
  · right
    obtain ⟨inner, items, _, isKind, holds, means, isItems⟩ := same
    have shallow := spells.shallow nests isKind holds
    refine ⟨inner, items, isKind, holds, shallow, ?_, isItems⟩
    intro item member
    obtain ⟨value', means'⟩ := shallow item member
    exact ⟨⟨inner, rfl, means item member⟩, value', means'.mono (by omega)⟩

theorem Within.itemCount (within : Within view value) (kind : Kind) :
    itemCount kind view = value.length kind := by
  unfold Value.length
  rcases within.items kind with other | same
  · obtain ⟨differs, isItems⟩ := other
    rw [isItems]
    unfold Json.itemCount
    exact if_pos differs
  · obtain ⟨inner, items, isKind, holds, shallow, _, isItems⟩ := same
    rw [(itemCount_eq holds isKind).1 shallow, isItems, Option.map_some, List.length_map]

theorem Within.itemGet {inner : Nat} {kind : Kind} {items : List Item}
    (holds : Holds view.allowComments kind inner view.data items)
    (shallow : ∀ item ∈ items, Shallow view.allowComments item)
    (isIt : Nat → List UInt8 → Bool) :
    itemGet kind isIt view = (pick isIt 0 items).map (Item.view view.allowComments) := by
  rw [itemGet_eq holds, reached_all shallow]

theorem Within.jsonArrayGet (within : Within view value) (index : Int) :
    Option.Rel Within (jsonArrayGet view index) (value.element index) := by
  unfold Json.jsonArrayGet Value.element
  rcases within.items .array with other | same
  · obtain ⟨differs, isItems⟩ := other
    rw [isItems, if_pos (.inl differs)]
    exact .none
  obtain ⟨inner, items, isKind, holds, shallow, inside, isItems⟩ := same
  rw [isItems]
  simp only [Option.bind_eq_bind, Option.bind_some]
  by_cases negative : index < 0
  · rw [if_pos (.inr negative), if_pos negative]
    exact .none
  obtain ⟨position, rfl⟩ := Int.eq_ofNat_of_zero_le (not_lt.mp negative)
  have asked : ¬(view.type ≠ .array ∨ (position : Int) < 0) := by
    rintro (differs | low)
    · exact differs isKind
    · exact negative low
  rw [if_neg asked, if_neg negative, Within.itemGet holds shallow,
    pick_index position 0 items (Nat.zero_le _), Nat.sub_zero, Int.toNat_natCast,
    List.getElem?_map]
  cases found : items[position]? with
  | none => exact .none
  | some item => exact .some (inside item (List.mem_of_getElem? found))

theorem Within.jsonObjectGetN (within : Within view value) (name : List UInt8) :
    Option.Rel Within (jsonObjectGetN view name) (value.member name) := by
  unfold Json.jsonObjectGetN Value.member
  rcases within.items .object with other | same
  · obtain ⟨differs, isItems⟩ := other
    have notObject : view.type ≠ .object := differs
    rw [isItems, if_pos notObject]
    exact .none
  · obtain ⟨inner, items, isKind, holds, shallow, inside, isItems⟩ := same
    have isObject : view.type = .object := isKind
    rw [isItems, if_neg (not_not.mpr isObject), Within.itemGet holds shallow, pick_find]
    simp only [Option.bind_eq_bind, Option.bind_some, List.find?_map, jsonValueStringEqualsN_eq]
    have isName : (fun item : List UInt8 × Value => decide (item.1 = name)) ∘ Item.pair =
        fun item => decide (jsonValueString item.name = name) := rfl
    rw [isName]
    cases found : items.find? fun item => decide (jsonValueString item.name = name) with
    | none => exact .none
    | some item => exact .some (inside item (List.mem_of_find?_eq_some found))

end

/-! ### Paths through related trees -/

section

variable {α β : Type} {related : α → β → Prop} {tree : Tree α} {tree' : Tree β}

/-- Members and elements of related values are related. -/
structure Tree.Follows (related : α → β → Prop) (tree : Tree α) (tree' : Tree β) : Prop where
  member : ∀ a b, related a b → ∀ name, Option.Rel related (tree.member a name) (tree'.member b name)
  element : ∀ a b, related a b → ∀ index,
    Option.Rel related (tree.element a index) (tree'.element b index)

def Stepped (related : α → β → Prop) (a : α × List UInt8) (b : β × List UInt8) : Prop :=
  related a.1 b.1 ∧ a.2 = b.2

theorem stepped_map {a : Option α} {b : Option β} (found : Option.Rel related a b)
    (rest : List UInt8) :
    Option.Rel (Stepped related) (a.map (·, rest)) (b.map (·, rest)) := by
  cases found with
  | none => exact .none
  | some found => exact .some ⟨found, rfl⟩

theorem rel_bind {γ δ : Type} {later : γ → δ → Prop} {a : Option α} {b : Option β}
    {f : α → Option γ} {g : β → Option δ} (found : Option.Rel related a b)
    (next : ∀ x y, related x y → Option.Rel later (f x) (g y)) :
    Option.Rel later (a.bind f) (b.bind g) := by
  cases found with
  | none => exact .none
  | some found => exact next _ _ found

variable {b : β}

theorem Tree.Follows.pathMember (follows : tree.Follows related tree') {a : α} (same : related a b)
    (path : List UInt8) :
    Option.Rel (Stepped related) (pathMember tree a path) (pathMember tree' b path) := by
  unfold Json.pathMember
  dsimp only
  split
  · exact .none
  · exact stepped_map (follows.member a b same _) _

theorem Tree.Follows.pathBracket (follows : tree.Follows related tree') {a : α} (same : related a b)
    (path : List UInt8) :
    Option.Rel (Stepped related) (pathBracket tree a path) (pathBracket tree' b path) := by
  unfold Json.pathBracket
  split
  · exact .none
  next quote rest _ =>
  dsimp only
  split
  · split
    · exact .none
    · cases rest.dropWhile (· ≠ quote) with
      | nil => exact .none
      | cons _ rest => exact stepped_map (follows.member a b same _) _
  · split
    · exact .none
    · cases pathIndex 0 (quote :: rest) with
      | none => exact .none
      | some read => exact stepped_map (follows.element a b same _) _

theorem Tree.Follows.pathStep (follows : tree.Follows related tree') {a : α} (same : related a b)
    (ch : UInt8) (path : List UInt8) :
    Option.Rel (Stepped related) (pathStep tree a ch path) (pathStep tree' b ch path) := by
  unfold Json.pathStep
  split
  · exact follows.pathMember same path
  split
  · apply rel_bind (follows.pathBracket same path)
    intro first second stepped
    obtain ⟨next, sameRest⟩ := stepped
    dsimp only
    rw [sameRest]
    cases pathClose second.2 with
    | none => exact .none
    | some rest => exact .some ⟨next, rfl⟩
  · exact follows.pathMember same _

theorem Tree.Follows.pathLoop (follows : tree.Follows related tree') (fuel : Nat) {a : α}
    (same : related a b) (path : List UInt8) :
    Option.Rel related (pathLoop tree fuel a path) (pathLoop tree' fuel b path) := by
  induction fuel generalizing a b path with
  | zero =>
    cases path with
    | nil => exact .some same
    | cons ch path => exact .none
  | succ fuel ih =>
    cases path with
    | nil => exact .some same
    | cons ch path =>
      unfold Json.pathLoop
      apply rel_bind (follows.pathStep same ch path)
      intro first second stepped
      obtain ⟨next, sameRest⟩ := stepped
      dsimp only
      rw [sameRest]
      exact ih next second.2

end

theorem scannedTree_follows : scannedTree.Follows Within valueTree where
  member _ _ within name := within.jsonObjectGetN name
  element _ _ within index := within.jsonArrayGet index

theorem Within.rel {a : Option JsonView} {b : Option Value} (found : Option.Rel Within a b) :
    Option.Rel (fun view value => ∃ nesting, Spells nesting view value) a b := by
  cases found with
  | none => exact .none
  | some found => exact .some found.1

theorem Within.agrees {view : JsonView} {value : Value} (within : Within view value) :
    Agrees view value where
  arrayLength := within.itemCount .array
  objectLength := within.itemCount .object
  element index := Within.rel (within.jsonArrayGet index)
  member name := Within.rel (within.jsonObjectGetN name)
  path _ := Within.rel (scannedTree_follows.pathLoop _ within _)

/-- A container whose items the queries can count nests at most 129 deep. -/
theorem Spells.nests {view : JsonView} {value : Value} {nesting : Nat}
    (spells : Spells nesting view value) (agrees : Agrees view value) :
    Nests view.allowComments 129 view.data := by
  have counted : ∀ kind : Kind, itemCount kind view = value.length kind := by
    intro kind
    cases kind with
    | array => exact agrees.arrayLength
    | object => exact agrees.objectLength
  have shallow : ∀ (kind : Kind) (inner : Nat) (items : List Item), view.type = kind.type →
      Holds view.allowComments kind inner view.data items → value.items kind ≠ none →
      ∀ item ∈ items, Shallow view.allowComments item := by
    intro kind inner items isKind holds isItems item member
    by_contra deep
    have failed := (itemCount_eq holds isKind).2 ⟨item, member, deep⟩
    rw [counted kind] at failed
    unfold Value.length at failed
    exact isItems (Option.map_eq_none_iff.mp failed)
  obtain ⟨type, means⟩ := spells
  generalize isData : view.data = data at means shallow ⊢
  cases means with
  | null => exact ⟨_, .null 129⟩
  | true => exact ⟨_, .true 129⟩
  | false => exact ⟨_, .false 129⟩
  | number _ _ isNumber => exact ⟨_, .number 129 _ isNumber⟩
  | string _ _ isString => exact ⟨_, .string 129 _ isString⟩
  | empty kind _ gap isSpace => exact ⟨_, .empty kind 128 gap isSpace⟩
  | container kind inner gap body pairs isSpace body_means =>
    obtain ⟨items, lists, _⟩ := body_means.lists
    have isItems : (Value.container kind pairs).items kind ≠ none := by
      rw [Value.items_container rfl]
      exact Option.some_ne_none _
    obtain ⟨pairs', means'⟩ := lists.shallow
      (shallow kind inner items type (.items gap body items isSpace lists) isItems)
    exact ⟨_, .container kind 128 gap body pairs' isSpace means'⟩

/-- An array of no items in as many arrays as this, without white space. -/
def nestedArrays (depth : Nat) : List UInt8 :=
  List.replicate depth (byte '[') ++ List.replicate depth (byte ']')

end Aholyc.Json
