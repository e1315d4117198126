import Aholyc.Json.Encoded
import Aholyc.Json.Query

/-!
# The growing JSON builder (lib/json/pj.hc)

The builder keeps two flags and the brackets that are still to be written. What a sequence of
calls describes is a tree; the sequence writes its text, with a comma in front where one is due.
-/

namespace Aholyc.Json

open Aholyc.Lib.Scanner Aholyc.Text
open Computability

variable {F : Type}

/-! ## The builder -/

def pjMaxDepth : Nat := 128

/-- `text` is what the `CStrBuf` holds; `braces` are the brackets up to `level`, the last one
first. -/
structure CPj where
  text : List UInt8
  isFirst : Bool
  isKey : Bool
  braces : List UInt8
  inBraces : braces.length ≤ pjMaxDepth
  deriving DecidableEq

namespace CPj

def level (pj : CPj) : Nat := pj.braces.length

def put (bytes : List UInt8) (pj : CPj) : CPj := { pj with text := pj.text ++ bytes }

end CPj

open CPj

def pjNew : CPj := ⟨[], true, false, [], Nat.zero_le _⟩

def pjReset (pj : CPj) : CPj :=
  { pj with text := [], isFirst := true, isKey := false, braces := [], inBraces := Nat.zero_le _ }

def cString (text : List UInt8) : List UInt8 := text.takeWhile (· ≠ 0)

def pjRaw (text : List UInt8) (pj : CPj) : CPj := pj.put (cString text)

def pjComma (pj : CPj) : CPj :=
  let pj := if !pj.isKey && !pj.isFirst then pj.put (bytes ",") else pj
  { pj with isFirst := false, isKey := false }

def pjBegin (kind : Kind) (pj : CPj) : CPj :=
  let pj := pjComma pj
  if room : pj.level < pjMaxDepth then
    { pj with
      text := pj.text ++ [kind.opening], braces := kind.closing :: pj.braces, isFirst := true
      inBraces := room }
  else pj

def pjO : CPj → CPj := pjBegin .object

def pjA : CPj → CPj := pjBegin .array

def pjEnd (pj : CPj) : CPj :=
  match pj with
  | ⟨text, _, _, close :: braces, inBraces⟩ =>
      ⟨text ++ [close], false, false, braces, Nat.le_of_succ_le inBraces⟩
  | ⟨text, isFirst, _, [], inBraces⟩ => ⟨text, isFirst, false, [], inBraces⟩

def jsonEncodeString (text : Option (List UInt8)) (encoder : CJsonEncoder) : Bool × CJsonEncoder :=
  match text with
  | none => fail .invalidArgument encoder
  | some text => jsonEncodeStringN (Text.ofString text) encoder

def encodeText (text : Option (List UInt8)) (buffer : Option (List UInt8)) : Int × CJsonEncoder :=
  jsonEncoderFinish (jsonEncodeString text (jsonEncoderInit buffer)).2

def pjS (text : Option (List UInt8)) (pj : CPj) : CPj :=
  let pj := pjComma pj
  let length := (encodeText text none).1
  if 0 < length then
    let written := (encodeText text (some (List.replicate (length.toNat + 1) 0))).2
    pj.put ((written.data.getD []).take length.toNat)
  else pjRaw (bytes "\"\"") pj

def pjJ (json : Option (List UInt8)) (pj : CPj) : CPj :=
  match json with
  | none => pj
  | some json => if cString json = [] then pj else pjRaw json (pjComma pj)

def pjN (number : Int64) (pj : CPj) : CPj := (pjComma pj).put (bytes (toString number.toInt))

/-- `format` is `%.17g`, into `text[64]`. -/
def pjD (format : F → List UInt8) (number : F) (pj : CPj) : CPj :=
  let (length, encoder) := jsonEncoderFinish
    (jsonEncodeF64 (format number) (jsonEncoderInit (some (List.replicate 64 0)))).2
  if length < 0 then pjS (some (bytes "NaN")) pj else pjJ encoder.data pj

def pjB (value : Bool) (pj : CPj) : CPj :=
  if value then pjJ (some (bytes "true")) pj else pjJ (some (bytes "false")) pj

def pjNull (pj : CPj) : CPj := pjJ (some (bytes "null")) pj

def pjK (key : Option (List UInt8)) (pj : CPj) : CPj :=
  let pj := (pjS key { pj with isKey := false }).put (bytes ":")
  { pj with isFirst := false, isKey := true }

/-! ### Keyed values -/

def keyed (value : CPj → CPj) (key : Option (List UInt8)) (pj : CPj) : CPj := value (pjK key pj)

def pjKs (key value : Option (List UInt8)) : CPj → CPj := keyed (pjS value) key

def pjKn (key : Option (List UInt8)) (number : Int64) : CPj → CPj := keyed (pjN number) key

def pjKd (format : F → List UInt8) (key : Option (List UInt8)) (number : F) : CPj → CPj :=
  keyed (pjD format number) key

def pjKb (key : Option (List UInt8)) (value : Bool) : CPj → CPj := keyed (pjB value) key

def pjKnull : Option (List UInt8) → CPj → CPj := keyed pjNull

def pjKj (key json : Option (List UInt8)) : CPj → CPj := keyed (pjJ json) key

def pjKo : Option (List UInt8) → CPj → CPj := keyed pjO

def pjKa : Option (List UInt8) → CPj → CPj := keyed pjA

/-! ## Sequences of calls -/

inductive PjValue (F : Type) where
  | start (kind : Kind)
  | string (text : Option (List UInt8))
  | json (json : Option (List UInt8))
  | i64 (number : Int64)
  | f64 (number : F)
  | bool (value : Bool)
  | null

inductive PjCall (F : Type) where
  | value (value : PjValue F)
  | finish
  | key (key : Option (List UInt8))
  | keyed (key : Option (List UInt8)) (value : PjValue F)

def pjValue (format : F → List UInt8) : PjValue F → CPj → CPj
  | .start .object => pjO
  | .start .array => pjA
  | .string text => pjS text
  | .json json => pjJ json
  | .i64 number => pjN number
  | .f64 number => pjD format number
  | .bool value => pjB value
  | .null => pjNull

def pjKeyed (format : F → List UInt8) (key : Option (List UInt8)) : PjValue F → CPj → CPj
  | .start .object => pjKo key
  | .start .array => pjKa key
  | .string value => pjKs key value
  | .json json => pjKj key json
  | .i64 number => pjKn key number
  | .f64 number => pjKd format key number
  | .bool value => pjKb key value
  | .null => pjKnull key

def pjCall (format : F → List UInt8) : PjCall F → CPj → CPj
  | .value value => pjValue format value
  | .finish => pjEnd
  | .key key => pjK key
  | .keyed key value => pjKeyed format key value

def pjCalls (format : F → List UInt8) (calls : List (PjCall F)) (pj : CPj) : CPj :=
  calls.foldl (fun pj call => pjCall format call pj) pj

def PjCall.parts : PjCall F → List (PjCall F)
  | .keyed name put => [.key name, .value put]
  | call => [call]

theorem pjCalls_append (format : F → List UInt8) (calls more : List (PjCall F)) (pj : CPj) :
    pjCalls format (calls ++ more) pj = pjCalls format more (pjCalls format calls pj) :=
  List.foldl_append

theorem pjCalls_parts (format : F → List UInt8) (calls : List (PjCall F)) (pj : CPj) :
    pjCalls format (calls.flatMap PjCall.parts) pj = pjCalls format calls pj := by
  induction calls generalizing pj with
  | nil => rfl
  | cons call calls ih =>
    have one : pjCalls format call.parts pj = pjCall format call pj := by
      cases call with
      | value value => rfl
      | finish => rfl
      | key key => rfl
      | keyed key value =>
        cases value with
        | start kind => cases kind <;> rfl
        | _ => rfl
    rw [List.flatMap_cons, pjCalls_append, one, ih]
    rfl

/-! ## What the calls describe -/

/-- The contents of a string: none for `NULL` and for what is no UTF-8. -/
def content (text : Option (List UInt8)) : List UInt8 := ((text.map cString).filter utf8Valid).getD []

/-- No number, or too long for `text[64]`. -/
def unwritten (number : List UInt8) : Bool := noNumber number || 64 ≤ number.length

def PjValue.scalar (format : F → List UInt8) : PjValue F → Option Value
  | .string text => some (.string (content text))
  | .i64 number => some (.number (bytes (toString number.toInt)))
  | .f64 number =>
      some (if unwritten (format number) then .string (bytes "NaN") else .number (format number))
  | .bool value => some (.bool value)
  | .null => some .null
  | .start _ => none
  | .json _ => none

/-- The calls describe the items: at most `depth` of their brackets are open at once, and those of
their text nest at most `nesting` deep. -/
inductive Builds (comments : Bool) (format : F → List UInt8) :
    Part → Nat → Nat → List (PjCall F) → List (List UInt8 × Value) → Prop where
  | scalar (depth nesting : Nat) (call : PjValue F) (value : Value)
      (isScalar : call.scalar format = some value) :
      Builds comments format .value depth nesting [.value call] [([], value)]
  | json (depth nesting : Nat) (json : List UInt8) (value : Value)
      (isValue : Fragment comments nesting (cString json) value) :
      Builds comments format .value depth nesting [.value (.json (some json))] [([], value)]
  | container (kind : Kind) (depth nesting : Nat) (calls : List (PjCall F))
      (items : List (List UInt8 × Value))
      (builds : Builds comments format (.items kind) depth nesting calls items) :
      Builds comments format .value (depth + 1) (nesting + 1)
        (.value (.start kind) :: calls ++ [.finish]) [([], .container kind items)]
  | none (kind : Kind) (depth nesting : Nat) :
      Builds comments format (.items kind) depth nesting [] []
  | element (depth nesting : Nat) (calls more : List (PjCall F))
      (items : List (List UInt8 × Value)) (value : Value)
      (builds : Builds comments format (.items .array) depth nesting calls items)
      (last : Builds comments format .value depth nesting more [([], value)]) :
      Builds comments format (.items .array) depth nesting (calls ++ more) (items ++ [([], value)])
  | member (depth nesting : Nat) (calls more : List (PjCall F))
      (items : List (List UInt8 × Value)) (key : Option (List UInt8)) (value : Value)
      (builds : Builds comments format (.items .object) depth nesting calls items)
      (last : Builds comments format .value depth nesting more [([], value)]) :
      Builds comments format (.items .object) depth nesting (calls ++ .key key :: more)
        (items ++ [(content key, value)])

/-! ## Scalars -/

theorem encodeText_some (text : List UInt8) (buffer : Option (List UInt8)) :
    encodeText (some text) buffer =
      finished (fun _ : Unit => []) [.string (Text.ofString text)] buffer := rfl

theorem ofString_bytes (text : List UInt8) : (Text.ofString text).bytes = some (cString text) := by
  have notNegative : ¬((cString text).length : Int) < 0 := by omega
  have taken : (cString text).take ((cString text).length : Int).toNat = cString text := by
    rw [Int.toNat_natCast, List.take_length]
  exact (if_neg notNegative).trans (congrArg some taken)

theorem finish_refused (encoder : CJsonEncoder) {error : JsonEncodeError} (notOk : error ≠ .ok)
    (notSpace : error ≠ .noSpace) : (jsonEncoderFinish (fail error encoder).2).1 = -1 :=
  finish_fatal (setError_fails encoder notOk notSpace).2

/-- What can not be encoded is put out as the empty string. -/
theorem pjS_refused {text : Option (List UInt8)} (refused : (encodeText text none).1 = -1)
    (empty : content text = []) (pj : CPj) : pjS text pj = (pjComma pj).put (quote (content text)) := by
  unfold pjS
  dsimp only
  rw [refused, if_neg (by decide), empty]
  rfl

/-- A text that is encoded in two passes, the first for its length. -/
theorem pjS_eq (text : Option (List UInt8)) (pj : CPj) :
    pjS text pj = (pjComma pj).put (quote (content text)) := by
  cases text with
  | none =>
    have refused : (encodeText none none).1 = -1 := by decide
    exact pjS_refused refused rfl pj
  | some text =>
    have isBytes := ofString_bytes text
    by_cases valid : utf8Valid (cString text) = true
    · have contents : content (some text) = cString text := by
        unfold content
        rw [Option.map_some, Option.filter_some, if_pos valid]
        rfl
      have scalar : (Call.string (Text.ofString text)).scalar (fun _ : Unit => []) =
          some (quote (cString text), .string (cString text)) := by
        simp only [Call.scalar, isBytes, if_pos valid]
      have passes := finished_closed (outline_scalar scalar)
      have sizing : (encodeText (some text) none).1 = (quote (cString text)).length := by
        rw [encodeText_some, (passes none).1]
        exact if_pos fun data isData => absurd isData (Option.not_mem_none data)
      have positive : 0 < (quote (cString text)).length := by
        simp [quote, bytes]
      have room : (quote (cString text)).length <
          (List.replicate ((quote (cString text)).length + 1) (0 : UInt8)).length := by
        rw [List.length_replicate]
        exact Nat.lt_succ_self _
      obtain ⟨rest, isData, _⟩ := (passes (some (List.replicate _ 0))).2 _ rfl room
      unfold pjS
      dsimp only
      rw [sizing, if_pos (Int.natCast_pos.mpr positive), Int.toNat_natCast, contents,
        encodeText_some, isData, Option.getD_some, List.take_left]
    · have contents : content (some text) = [] := by
        unfold content
        rw [Option.map_some, Option.filter_some, if_neg valid]
        rfl
      have isFail (encoder : CJsonEncoder) :
          jsonEncodeString (some text) encoder = fail .invalidUtf8 encoder := by
        unfold jsonEncodeString jsonEncodeStringN
        dsimp only
        rw [isBytes]
        exact if_pos valid
      have refused : (encodeText (some text) none).1 = -1 := by
        unfold encodeText
        rw [isFail]
        exact finish_refused _ (by decide) (by decide)
      exact pjS_refused refused contents pj

theorem pjJ_eq {json : List UInt8} (some' : cString json ≠ []) (pj : CPj) :
    pjJ (some json) pj = (pjComma pj).put (cString json) := if_neg some'

variable {word text : List UInt8} {value : Value} {items : List (List UInt8 × Value)} {depth : Nat}

theorem number_noNul (isNumber : word ∈ number) : ∀ ch ∈ word, decide (ch ≠ 0) = true := by
  have digit (ch : UInt8) (isDigit : isDigit ch = true) : decide (ch ≠ 0) = true := by
    revert ch
    apply byte_cases
    decide +kernel
  have leading (ch : UInt8) (leads : within (byte '1') (byte '9') ch = true) :
      decide (ch ≠ 0) = true := digit ch (isDigit_leading leads)
  have is (mark : Char) (notNul : byte mark ≠ 0) (ch : UInt8) (isMark : decide (ch = byte mark) = true) :
      decide (ch ≠ 0) = true := by
    rw [of_decide_eq_true isMark]
    exact decide_eq_true notNul
  have either (one two : Char) (notNul : byte one ≠ 0) (notNul' : byte two ≠ 0) (ch : UInt8)
      (isMark : (decide (ch = byte one) || decide (ch = byte two)) = true) :
      decide (ch ≠ 0) = true := by
    cases Bool.or_eq_true_iff.mp isMark with
    | inl isOne => exact is one notNul ch isOne
    | inr isTwo => exact is two notNul' ch isTwo
  have digits : AllOf (fun ch => decide (ch ≠ 0)) Json.digits :=
    (AllOf.oneOf digit).mul (AllOf.wordsOf digit)
  have whole : AllOf (fun ch => decide (ch ≠ 0)) integer := by
    intro word isInteger
    cases isInteger with
    | inl zero =>
      have isZero : word = bytes "0" := zero
      subst isZero
      exact fun ch inWord => List.mem_singleton.mp inWord ▸ rfl
    | inr other => exact (AllOf.oneOf leading).mul (AllOf.wordsOf digit) word other
  have minus := (AllOf.oneOf (is '-' (by decide))).optional
  have fraction := ((AllOf.oneOf (is '.' (by decide))).mul digits).optional
  have letter := AllOf.oneOf (either 'e' 'E' (by decide) (by decide))
  have sign := (AllOf.oneOf (either '+' '-' (by decide) (by decide))).optional
  have exponent := ((letter.mul sign).mul digits).optional
  exact ((minus.mul whole).mul fraction).mul exponent word isNumber

theorem number_some (isNumber : word ∈ number) : word ≠ [] := by
  obtain ⟨ch, rest, rfl, _⟩ := number_starts isNumber
  exact List.cons_ne_nil ch rest

theorem cString_number (isNumber : word ∈ number) (rest : List UInt8) :
    cString (word ++ 0 :: rest) = word := by
  unfold cString
  rw [List.takeWhile_append_of_pos (number_noNul isNumber)]
  exact List.append_nil word

/-- `PjD` appends the number, or the string that stands for none. -/
theorem pjD_eq {format : F → List UInt8} (numbers : GivesNumbers format) (number : F) (pj : CPj) :
    (unwritten (format number) = true →
      pjD format number pj = (pjComma pj).put (quote (bytes "NaN"))) ∧
    (unwritten (format number) = false → format number ∈ Json.number ∧
      pjD format number pj = (pjComma pj).put (format number)) := by
  have nan : content (some (bytes "NaN")) = bytes "NaN" := by decide
  have instead (length : Int) (encoder : CJsonEncoder) (failed : length = -1)
      (result : jsonEncoderFinish (jsonEncodeF64 (format number)
        (jsonEncoderInit (some (List.replicate 64 0)))).2 = (length, encoder)) :
      pjD format number pj = (pjComma pj).put (quote (bytes "NaN")) := by
    unfold pjD
    rw [result]
    dsimp only
    rw [failed, if_pos (by decide), pjS_eq, nan]
  cases isNo : noNumber (format number) with
  | true =>
    have refused : jsonEncodeF64 (format number) (jsonEncoderInit (some (List.replicate 64 0))) =
        fail .invalidNumber (jsonEncoderInit (some (List.replicate 64 0))) := if_pos isNo
    have failed : (jsonEncoderFinish (fail .invalidNumber
        (jsonEncoderInit (some (List.replicate 64 0)))).2).1 = -1 :=
      finish_refused _ (by decide) (by decide)
    rw [← refused] at failed
    constructor
    · intro _
      exact instead _ _ failed rfl
    · intro written
      rw [unwritten, isNo] at written
      cases written
  | false =>
    have isNumber : format number ∈ Json.number :=
      (numbers number).resolve_left (by rw [isNo]; decide)
    have scalar : (Call.f64 number).scalar format =
        some (format number, .number (format number)) := by
      simp only [Call.scalar, isNo]
      rfl
    obtain ⟨length, written⟩ := finished_closed (outline_scalar scalar)
      (some (List.replicate 64 0))
    have same : finished format [.f64 number] (some (List.replicate 64 0)) =
        jsonEncoderFinish (jsonEncodeF64 (format number)
          (jsonEncoderInit (some (List.replicate 64 0)))).2 := rfl
    rw [same] at length written
    have size : (List.replicate 64 (0 : UInt8)).length = 64 := rfl
    simp only [Option.mem_def, Option.some.injEq, forall_eq', size] at length written
    constructor
    · intro isUnwritten
      have long : ¬(format number).length < 64 := by
        rw [unwritten, isNo, Bool.false_or, decide_eq_true_eq] at isUnwritten
        omega
      rw [if_neg long] at length
      exact instead _ _ length rfl
    · intro isWritten
      have short : (format number).length < 64 := by
        rw [unwritten, isNo, Bool.false_or, decide_eq_false_iff_not] at isWritten
        omega
      rw [if_pos short] at length
      obtain ⟨rest, isData, _⟩ := written short
      have whole := cString_number isNumber rest
      refine ⟨isNumber, ?_⟩
      unfold pjD
      dsimp only
      rw [length, if_neg (by omega), isData, pjJ_eq (by rw [whole]; exact number_some isNumber),
        whole]

theorem content_valid (text : Option (List UInt8)) : utf8Valid (content text) = true := by
  unfold content
  cases kept : (text.map cString).filter utf8Valid with
  | none => rfl
  | some contents => exact (Option.filter_eq_some_iff.mp kept).2

theorem quote_means (comments : Bool) (nesting : Nat) {contents : List UInt8}
    (valid : utf8Valid contents = true) :
    Means comments .value nesting (quote contents) [([], .string contents)] := by
  have means : Means comments .value nesting (quote contents)
      [([], .string (jsonValueString (quote contents)))] := .string _ _ (quote_mem valid)
  rwa [jsonValueString_quote] at means

/-- A scalar writes a text that means its value, behind the comma. -/
theorem scalar_writes {format : F → List UInt8} (numbers : GivesNumbers format) (comments : Bool)
    (nesting : Nat) {call : PjValue F} (isScalar : call.scalar format = some value) :
    ∃ word, Means comments .value nesting word [([], value)] ∧
      ∀ pj, pjValue format call pj = (pjComma pj).put word := by
  cases call with
  | start kind => cases isScalar
  | json json => cases isScalar
  | string text =>
    cases isScalar
    exact ⟨_, quote_means comments nesting (content_valid text), pjS_eq text⟩
  | i64 number =>
    cases isScalar
    exact ⟨_, .number _ _ (toString_mem number.toInt), fun pj => rfl⟩
  | f64 number =>
    cases isScalar
    cases isUnwritten : unwritten (format number) with
    | true =>
      rw [if_pos rfl]
      have nan : utf8Valid (bytes "NaN") = true := by decide
      exact ⟨_, quote_means comments nesting nan, fun pj => (pjD_eq numbers number pj).1 isUnwritten⟩
    | false =>
      rw [if_neg (by decide)]
      have isNumber := ((pjD_eq numbers number pjNew).2 isUnwritten).1
      exact ⟨_, .number _ _ isNumber, fun pj => ((pjD_eq numbers number pj).2 isUnwritten).2⟩
  | bool value =>
    cases isScalar
    cases value with
    | true => exact ⟨_, .true nesting, fun pj => rfl⟩
    | false => exact ⟨_, .false nesting, fun pj => rfl⟩
  | null =>
    cases isScalar
    exact ⟨_, .null nesting, fun pj => rfl⟩

/-! ## What a sequence writes -/

structure Adds (pj : CPj) (text : List UInt8) (isFirst : Bool) (after : CPj) : Prop where
  text : after.text = pj.text ++ text
  isFirst : after.isFirst = isFirst
  isKey : after.isKey = false
  braces : after.braces = pj.braces

def due (pj : CPj) : List UInt8 := if !pj.isKey && !pj.isFirst then bytes "," else []

theorem pjComma_adds (pj : CPj) : Adds pj (due pj) false (pjComma pj) := by
  unfold pjComma due
  dsimp only
  split
  · exact ⟨rfl, rfl, rfl, rfl⟩
  · exact ⟨(List.append_nil _).symm, rfl, rfl, rfl⟩

variable {pj : CPj}

theorem Adds.put {after : CPj} {isFirst : Bool} (adds : Adds pj text isFirst after)
    (more : List UInt8) : Adds pj (text ++ more) isFirst (after.put more) := by
  refine ⟨?_, adds.isFirst, adds.isKey, adds.braces⟩
  show after.text ++ more = pj.text ++ (text ++ more)
  rw [adds.text, List.append_assoc]

theorem Adds.trans {mid after : CPj} {more : List UInt8} {isFirst isFirst' : Bool}
    (adds : Adds pj text isFirst mid) (next : Adds mid more isFirst' after) :
    Adds pj (text ++ more) isFirst' after where
  text := by rw [next.text, adds.text, List.append_assoc]
  isFirst := next.isFirst
  isKey := next.isKey
  braces := next.braces.trans adds.braces

def Sofar (comments : Bool) (kind : Kind) (nesting : Nat) (text : List UInt8)
    (items : List (List UInt8 × Value)) : Prop :=
  ∃ lead body, text = lead ++ body ∧ lead ∈ space comments ∧
    (items = [] ∧ body = [] ∧ lead = [] ∨
      items ≠ [] ∧ Means comments (.items kind) nesting body items)

variable {comments : Bool} {kind : Kind} {nesting : Nat}

/-- One more item, with a comma unless it is the first. -/
theorem Sofar.snoc {before after : List UInt8} {item : List UInt8 × Value}
    (sofar : Sofar comments kind nesting text items) (isSpace : before ∈ space comments)
    (isSpace' : after ∈ space comments) (means : Means comments kind.item nesting word [item]) :
    Sofar comments kind nesting
      (text ++ ((if items.isEmpty then [] else bytes ",") ++ (before ++ word ++ after)))
      (items ++ [item]) := by
  have some : items ++ [item] ≠ [] := by simp
  obtain ⟨lead, body, rfl, isLead, none | more⟩ := sofar
  · obtain ⟨rfl, rfl, rfl⟩ := none
    refine ⟨before, word ++ after, ?_, isSpace, Or.inr ⟨some, ?_⟩⟩
    · simp only [List.isEmpty_nil, if_true, List.nil_append, List.append_assoc]
    · exact .last kind nesting word after item means isSpace'
  · obtain ⟨notEmpty, body_means⟩ := more
    have notIsEmpty : items.isEmpty = false := by simpa using notEmpty
    refine ⟨lead, body ++ bytes "," ++ before ++ (word ++ after), ?_, isLead, Or.inr ⟨some, ?_⟩⟩
    · rw [notIsEmpty, if_neg (by decide)]
      simp only [List.append_assoc]
    · exact body_means.snoc_spaced means isSpace isSpace'

theorem Sofar.container (sofar : Sofar comments kind nesting text items) :
    Means comments .value (nesting + 1) ([kind.opening] ++ text ++ [kind.closing])
      [([], .container kind items)] := by
  obtain ⟨lead, body, rfl, isLead, none | more⟩ := sofar
  · obtain ⟨rfl, rfl, rfl⟩ := none
    exact .empty kind nesting [] isLead
  · have whole := Means.container kind nesting lead body items isLead more.2
    rwa [List.append_assoc [kind.opening] lead body] at whole

theorem pjBegin_eq (kind : Kind) (pj : CPj) (room : pj.level < pjMaxDepth) :
    (pjBegin kind pj).text = pj.text ++ (due pj ++ [kind.opening]) ∧
      (pjBegin kind pj).isFirst = true ∧ (pjBegin kind pj).isKey = false ∧
      (pjBegin kind pj).braces = kind.closing :: pj.braces := by
  obtain ⟨text, _, isKey, braces⟩ := pjComma_adds pj
  have same : (pjComma pj).level < pjMaxDepth := by
    unfold level
    rw [braces]
    exact room
  have opened : pjBegin kind pj =
      { pjComma pj with
        text := (pjComma pj).text ++ [kind.opening], braces := kind.closing :: (pjComma pj).braces
        isFirst := true, inBraces := same } := dif_pos same
  rw [opened]
  refine ⟨?_, rfl, isKey, congrArg (kind.closing :: ·) braces⟩
  show (pjComma pj).text ++ [kind.opening] = _
  rw [text, List.append_assoc]

theorem pjEnd_eq (pj : CPj) {close : UInt8} {braces : List UInt8}
    (isOpen : pj.braces = close :: braces) :
    (pjEnd pj).text = pj.text ++ [close] ∧ (pjEnd pj).isFirst = false ∧
      (pjEnd pj).isKey = false ∧ (pjEnd pj).braces = braces := by
  obtain ⟨text, isFirst, isKey, braces', inBraces⟩ := pj
  have same : braces' = close :: braces := isOpen
  subst same
  exact ⟨rfl, rfl, rfl, rfl⟩

theorem pjK_adds (key : Option (List UInt8)) (noKey : pj.isKey = false) :
    (pjK key pj).text = pj.text ++ (due pj ++ quote (content key) ++ bytes ":") ∧
      (pjK key pj).isKey = true ∧ (pjK key pj).braces = pj.braces := by
  have same : { pj with isKey := false } = pj := by
    cases pj
    cases noKey
    rfl
  unfold pjK
  rw [same, pjS_eq]
  have adds := ((pjComma_adds pj).put (quote (content key))).put (bytes ":")
  exact ⟨adds.text, rfl, adds.braces⟩

def PartWrites (comments : Bool) (format : F → List UInt8) (part : Part) (depth nesting : Nat)
    (calls : List (PjCall F)) (items : List (List UInt8 × Value)) : Prop :=
  match part with
  | .value => ∀ value, items = [([], value)] → ∀ pj : CPj, pj.level + depth ≤ pjMaxDepth →
      ∃ word, Fragment comments nesting word value ∧
        Adds pj (due pj ++ word) false (pjCalls format calls pj)
  | .items kind => ∀ pj : CPj, pj.level + depth ≤ pjMaxDepth → pj.isFirst = true →
      pj.isKey = false → ∃ text, Sofar comments kind nesting text items ∧
        Adds pj text items.isEmpty (pjCalls format calls pj)
  | .member => True

variable {format : F → List UInt8}

theorem due_open (noKey : pj.isKey = false) : due pj = if pj.isFirst then [] else bytes "," := by
  unfold due
  rw [noKey]
  cases pj.isFirst <;> rfl

variable {calls : List (PjCall F)}

theorem PartWrites.container
    (writes : PartWrites comments format (.items kind) depth nesting calls items) :
    PartWrites comments format .value (depth + 1) (nesting + 1)
      (.value (.start kind) :: calls ++ [.finish]) [([], .container kind items)] := by
  intro value isValue pj room
  cases isValue
  obtain ⟨text, isFirst, isKey, braces⟩ := pjBegin_eq kind pj (by omega)
  have inside : (pjBegin kind pj).level + depth ≤ pjMaxDepth := by
    unfold level at room ⊢
    rw [braces, List.length_cons]
    omega
  obtain ⟨body, sofar, adds⟩ := writes (pjBegin kind pj) inside isFirst isKey
  obtain ⟨text', isFirst', isKey', braces'⟩ := pjEnd_eq _ (adds.braces.trans braces)
  have first : pjCall format (.value (.start kind)) pj = pjBegin kind pj := by cases kind <;> rfl
  have whole : pjCalls format (.value (.start kind) :: calls ++ [.finish]) pj =
      pjEnd (pjCalls format calls (pjBegin kind pj)) := by
    rw [pjCalls_append, ← first]
    rfl
  refine ⟨_, sofar.container.fragment, ?_⟩
  rw [whole]
  refine ⟨?_, isFirst', isKey', braces'⟩
  rw [text', adds.text, text]
  simp only [List.append_assoc]

theorem PartWrites.element {more : List (PjCall F)}
    (writes : PartWrites comments format (.items .array) depth nesting calls items)
    (last : PartWrites comments format .value depth nesting more [([], value)]) :
    PartWrites comments format (.items .array) depth nesting (calls ++ more)
      (items ++ [([], value)]) := by
  intro pj room isFirst isKey
  obtain ⟨text, sofar, adds⟩ := writes pj room isFirst isKey
  have same : (pjCalls format calls pj).level + depth ≤ pjMaxDepth := by
    unfold level at room ⊢
    rw [adds.braces]
    exact room
  obtain ⟨_, ⟨before, word, after, rfl, isSpace, isSpace', means⟩, next⟩ :=
    last value rfl (pjCalls format calls pj) same
  rw [due_open adds.isKey, adds.isFirst] at next
  refine ⟨_, sofar.snoc isSpace isSpace' means, ?_⟩
  have some : (items ++ [(([] : List UInt8), value)]).isEmpty = false := by simp
  rw [pjCalls_append, some]
  exact adds.trans next

theorem PartWrites.member {more : List (PjCall F)} {key : Option (List UInt8)}
    (writes : PartWrites comments format (.items .object) depth nesting calls items)
    (last : PartWrites comments format .value depth nesting more [([], value)]) :
    PartWrites comments format (.items .object) depth nesting (calls ++ .key key :: more)
      (items ++ [(content key, value)]) := by
  intro pj room isFirst isKey
  obtain ⟨text, sofar, adds⟩ := writes pj room isFirst isKey
  obtain ⟨keyText, waits, braces⟩ := pjK_adds key adds.isKey
  have same : (pjK key (pjCalls format calls pj)).level + depth ≤ pjMaxDepth := by
    unfold level at room ⊢
    rw [braces, adds.braces]
    exact room
  obtain ⟨_, ⟨before, word, after, rfl, isSpace, isSpace', means⟩, next⟩ :=
    last value rfl (pjK key (pjCalls format calls pj)) same
  have none : ([] : List UInt8) ∈ space comments := Language.nil_mem_kstar _
  have member := Means.member nesting (quote (content key)) [] before word value
    (quote_mem (content_valid key)) none isSpace means
  rw [jsonValueString_quote] at member
  have noComma : due (pjK key (pjCalls format calls pj)) = [] := by
    unfold due
    rw [waits]
    rfl
  refine ⟨_, sofar.snoc none isSpace' member, ?_⟩
  have some : (items ++ [(content key, value)]).isEmpty = false := by simp
  rw [pjCalls_append, some]
  refine ⟨?_, next.isFirst, next.isKey, next.braces.trans (braces.trans adds.braces)⟩
  have behind : (pjCalls format (.key key :: more) (pjCalls format calls pj)).text = _ := next.text
  rw [behind, keyText, adds.text, noComma, due_open adds.isKey, adds.isFirst]
  simp only [List.append_assoc, List.nil_append]

theorem builds_writes (numbers : GivesNumbers format) {part : Part}
    (builds : Builds comments format part depth nesting calls items) :
    PartWrites comments format part depth nesting calls items := by
  induction builds with
  | scalar depth nesting call value isScalar =>
    intro value' isValue pj _
    cases isValue
    obtain ⟨word, means, writes⟩ := scalar_writes numbers comments nesting isScalar
    refine ⟨word, means.fragment, ?_⟩
    have one : pjCalls format [.value call] pj = pjValue format call pj := rfl
    rw [one, writes pj]
    exact (pjComma_adds pj).put word
  | json depth nesting json value isValue =>
    intro value' same pj _
    cases same
    have notEmpty : cString json ≠ [] := by
      obtain ⟨before, word, after, isText, _, _, means⟩ := isValue
      obtain ⟨_, derives⟩ := means.derives 0
      obtain ⟨ch, rest, rfl, _⟩ := derives_starts derives
      rw [isText]
      simp
    refine ⟨_, isValue, ?_⟩
    have one : pjCalls format [.value (.json (some json))] pj = pjJ (some json) pj := rfl
    rw [one, pjJ_eq notEmpty]
    exact (pjComma_adds pj).put _
  | container kind depth nesting calls items _ ih => exact ih.container
  | none kind depth nesting =>
    intro pj _ isFirst isKey
    have nothing : ([] : List UInt8) ∈ space comments := Language.nil_mem_kstar _
    exact ⟨[], ⟨[], [], rfl, nothing, Or.inl ⟨rfl, rfl, rfl⟩⟩, (List.append_nil _).symm, isFirst, isKey,
      rfl⟩
  | element depth nesting calls more items value _ _ ih ihLast => exact ih.element ihLast
  | member depth nesting calls more items key value _ _ ih ihLast => exact ih.member ihLast

/-- A sequence of calls on a new builder that describes a tree, with no more brackets open at once
than `braces` has room for, builds a text of the tree, which decodes to it. -/
theorem pjCalls_builds (format : F → List UInt8) (numbers : GivesNumbers format)
    (decoder : CJsonDecoder) (calls : List (PjCall F)) (tree : Value)
    (builds : Builds decoder.allowComments format .value pjMaxDepth (depthLimit decoder.maxDepth)
      (calls.flatMap PjCall.parts) [([], tree)])
    (pj : CPj) (isNew : pj = pjNew ∨ ∃ used, pj = pjReset used) (extra : Nat) :
    ∃ before word behind after, (pjCalls format calls pj).text = before ++ word ++ behind ∧
      before ∈ space decoder.allowComments ∧ behind ∈ space decoder.allowComments ∧
      Means decoder.allowComments .value (depthLimit decoder.maxDepth) word [([], tree)] ∧
      jsonDecode (2 * (pjCalls format calls pj).text.length + 1 + extra)
        { decoder with data := some (pjCalls format calls pj).text } = .found after ∧
      after.values.getLast? = some ⟨before.length, word.length, tree.type,
        decoder.allowComments⟩ := by
  have isEmpty : pj = pjNew := by
    cases isNew with
    | inl new => exact new
    | inr reset =>
      obtain ⟨used, rfl⟩ := reset
      rfl
  subst isEmpty
  obtain ⟨text, ⟨before, word, behind, rfl, isSpace, isSpace', means⟩, adds⟩ :=
    builds_writes numbers builds tree rfl pjNew (Nat.le_of_eq (Nat.zero_add _))
  rw [pjCalls_parts] at adds
  have written : (pjCalls format calls pjNew).text = before ++ word ++ behind := adds.text
  obtain ⟨after, ended, last⟩ := decodes_fragment isSpace isSpace' means
    (Nat.lt_add_right extra (Nat.lt_succ_self _))
  rw [written]
  exact ⟨before, word, behind, after, rfl, isSpace, isSpace', means, ended, last⟩

/-- A number under a key. -/
theorem pjCalls_builds_member :
    ∃ before word behind after, (pjCalls (fun _ : Unit => bytes "0.5")
        [.value (.start .object), .keyed (some (bytes "k")) (.f64 ()), .finish] pjNew).text =
          before ++ word ++ behind ∧
      before ∈ space false ∧ behind ∈ space false ∧
      Means false .value 128 word
        [([], .container .object [(bytes "k", .number (bytes "0.5"))])] ∧
      jsonDecode (2 * (pjCalls (fun _ : Unit => bytes "0.5")
          [.value (.start .object), .keyed (some (bytes "k")) (.f64 ()), .finish]
          pjNew).text.length + 1 + 0)
        { jsonDecoderInit none with data := some (pjCalls (fun _ : Unit => bytes "0.5")
          [.value (.start .object), .keyed (some (bytes "k")) (.f64 ()), .finish] pjNew).text } =
        .found after ∧
      after.values.getLast? = some ⟨before.length, word.length, .object, false⟩ := by
  have number : Builds false (fun _ : Unit => bytes "0.5") .value 127 127 [.value (.f64 ())]
      [([], .number (bytes "0.5"))] := .scalar 127 127 (.f64 ()) _ rfl
  have items : Builds false (fun _ : Unit => bytes "0.5") (.items .object) 127 127
      ([] ++ [.key (some (bytes "k")), .value (.f64 ())]) ([] ++ [(bytes "k", .number (bytes "0.5"))]) :=
    .member 127 127 [] _ [] (some (bytes "k")) _ (.none .object 127 127) number
  exact pjCalls_builds (fun _ : Unit => bytes "0.5") half_givesNumbers (jsonDecoderInit none)
    [.value (.start .object), .keyed (some (bytes "k")) (.f64 ()), .finish]
    (.container .object [(bytes "k", .number (bytes "0.5"))]) (.container .object 127 127 _ _ items)
    pjNew (Or.inl rfl) 0

/-- Arrays in arrays, around one with a number and an empty array. -/
def nestedCalls : Nat → List (PjCall Unit) × Value
  | 0 =>
      ([.value (.start .array), .value (.i64 1), .value (.start .array), .finish, .finish],
        .container .array [([], .number (bytes "1")), ([], .container .array [])])
  | depth + 1 =>
      (.value (.start .array) :: (nestedCalls depth).1 ++ [.finish],
        .container .array [([], (nestedCalls depth).2)])

theorem nestedCalls_builds (format : Unit → List UInt8) (depth : Nat) :
    Builds false format .value (depth + 2) (depth + 2) (nestedCalls depth).1
      [([], (nestedCalls depth).2)] := by
  induction depth with
  | zero =>
    have one : Builds false format .value 1 1 [.value (.i64 1)] [([], .number (bytes "1"))] :=
      .scalar 1 1 (.i64 1) _ rfl
    have inner : Builds false format .value 1 1 ([.value (.start .array)] ++ [.finish])
        [([], .container .array [])] := .container .array 0 0 [] [] (.none .array 0 0)
    exact .container .array 1 1 _ _ (.element 1 1 _ _ _ _ (.element 1 1 [] _ [] _ (.none .array 1 1)
      one) inner)
  | succ depth ih =>
    exact .container .array _ _ _ _ (.element _ _ [] _ [] _ (.none .array _ _) ih)

theorem nestedCalls_parts (depth : Nat) :
    (nestedCalls depth).1.flatMap PjCall.parts = (nestedCalls depth).1 := by
  induction depth with
  | zero => rfl
  | succ depth ih =>
    show (PjCall.value (.start .array) :: (nestedCalls depth).1 ++ [PjCall.finish]).flatMap PjCall.parts = _
    rw [List.flatMap_append, List.flatMap_cons, ih]
    rfl

/-- One array more than `braces` has room for: the comma in front of it is written, but no
bracket, and the text does not decode. -/
theorem deep_calls_lost :
    ¬∀ (depth : Nat) (calls : List (PjCall Unit)) (tree : Value),
      Builds false (fun _ => bytes "0") .value depth depth (calls.flatMap PjCall.parts)
        [([], tree)] →
      ∃ after, jsonDecode (2 * (pjCalls (fun _ => bytes "0") calls pjNew).text.length + 1)
        { jsonDecoderInit none with
          data := some (pjCalls (fun _ => bytes "0") calls pjNew).text, maxDepth := depth } =
        .found after := by
  intro decodes
  have builds := nestedCalls_builds (fun _ => bytes "0") 127
  rw [← nestedCalls_parts] at builds
  obtain ⟨after, ended⟩ := decodes 129 (nestedCalls 127).1 (nestedCalls 127).2 builds
  have refused : answered (jsonDecode
      (2 * (pjCalls (fun _ => bytes "0") (nestedCalls 127).1 pjNew).text.length + 1)
      { jsonDecoderInit none with
        data := some (pjCalls (fun _ => bytes "0") (nestedCalls 127).1 pjNew).text
        maxDepth := (129 : Nat) }) = none := by
    decide +kernel
  rw [ended] at refused
  cases refused

end Aholyc.Json
