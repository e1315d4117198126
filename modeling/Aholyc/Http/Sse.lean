import Mathlib.Data.List.Infix
import Aholyc.Http.Headers
import Aholyc.Lib.TextLines

/-!
# Server-sent events (lib/http/sse.hc)

`SseNext` reads the lines of a buffer up to the blank line that dispatches an event.
Against that stand the events of a list of lines: whatever the text is, and after
any number of calls, what has been returned and what is still to come are the
events of its lines.
-/

namespace Aholyc.Http

open Aholyc.Lib

def i64Max : Nat := 9223372036854775807

structure CSse where
  text : List UInt8
  offset : Nat
  event : Pointer
  id : Pointer
  data : Pointer
  deriving DecidableEq, Repr

/-- The variables of `SseNext`; `data` is the content of its buffer. -/
structure SseScan where
  offset : Nat
  event : Pointer
  id : Pointer
  data : List UInt8
  haveData : Bool
  deriving DecidableEq, Repr

/-! ## The source -/

/-- The buffer has its bytes from `text` on; a length of -1 is for a C string. -/
def sseInit (text : Pointer) (length : Int) : CSse :=
  ⟨match text with
    | none => []
    | some bytes => if length < 0 then cString bytes else bytes.take length.toNat,
    0, none, none, none⟩

/-- Appending to the string buffer, which is refused where the length would not fit. -/
def putBounded (data more : List UInt8) : List UInt8 :=
  if (more.length : Int) > (i64Max : Int) - data.length - 1 then data else data ++ more

def sseFieldValue (line : List UInt8) (start finish : Nat) : List UInt8 :=
  let start := if start < finish ∧ (line)[start]? = some ' '.toUInt8 then start + 1 else start
  (line.take finish).drop start ++ [0]

/-- `while (colon < finish && line[colon] != ':') colon++;` -/
def colonFrom (line : List UInt8) (finish : Nat) : Nat :=
  ((line.take finish).takeWhile (· ≠ ':'.toUInt8)).length

/-- The value of a field with its colon there, or at the end of the line. -/
def sseValue (line : List UInt8) (colon finish : Nat) : List UInt8 :=
  if colon < finish then sseFieldValue line (colon + 1) finish else [0]

/-- A data line is appended behind a line end, but for the first one. -/
def sseData (scan : SseScan) (value : List UInt8) : SseScan :=
  let data := if scan.haveData then putBounded scan.data ['\n'.toUInt8] else scan.data
  { scan with data := putBounded data (cString value), haveData := true }

def sseField (line : List UInt8) (finish : Nat) (scan : SseScan) : SseScan :=
  let colon := colonFrom line finish
  let value := sseValue line colon finish
  if colon = 4 ∧ line.take 4 = literal "data" then sseData scan value
  else if colon = 5 ∧ line.take 5 = literal "event" then { scan with event := some value }
  else if colon = 2 ∧ line.take 2 = literal "id" then { scan with id := some value }
  else scan

def lineFinish (text : List UInt8) (offset : Nat) : Nat :=
  ((text.drop offset).takeWhile
    fun byte => byte ≠ '\n'.toUInt8 ∧ byte ≠ '\r'.toUInt8).length

def lineNext (text : List UInt8) (offset finish : Nat) : Nat :=
  let line := text.drop offset
  let start := offset + finish
  let start := if start < text.length ∧ (line)[finish]? = some '\r'.toUInt8 ∧
    start + 1 < text.length ∧ (line)[finish + 1]? = some '\n'.toUInt8 then start + 1 else start
  start + 1

def sseLine (text : List UInt8) (scan : SseScan) : SseScan × Bool :=
  let line := text.drop scan.offset
  let finish := lineFinish text scan.offset
  let next := { scan with offset := lineNext text scan.offset finish }
  if finish = 0 then
    if scan.haveData then (next, true) else ({ next with event := none }, false)
  else if (line)[0]? ≠ some ':'.toUInt8 then (sseField line finish next, false)
  else (next, false)

theorem sseField_offset (line : List UInt8) (finish : Nat) (scan : SseScan) :
    (sseField line finish scan).offset = scan.offset := by
  unfold sseField
  dsimp only
  split
  · rfl
  · split
    · rfl
    · split <;> rfl

theorem lineNext_grows (text : List UInt8) (offset finish : Nat) :
    offset + finish < lineNext text offset finish := by
  unfold lineNext
  dsimp only
  split <;> omega

theorem sseLine_offset (text : List UInt8) (scan : SseScan) :
    (sseLine text scan).1.offset = lineNext text scan.offset (lineFinish text scan.offset) := by
  unfold sseLine
  dsimp only
  split
  · split <;> rfl
  · split
    · exact sseField_offset _ _ _
    · rfl

def sseLoop (text : List UInt8) (scan : SseScan) : SseScan :=
  if scan.offset < text.length then
    if (sseLine text scan).2 then (sseLine text scan).1 else sseLoop text (sseLine text scan).1
  else scan
termination_by text.length - scan.offset
decreasing_by
  have grows := lineNext_grows text scan.offset (lineFinish text scan.offset)
  rw [sseLine_offset]
  omega

def sseNext (sse : CSse) : Bool × CSse :=
  let scan := sseLoop sse.text ⟨sse.offset, none, none, [], false⟩
  if ¬ scan.haveData then (false, ⟨sse.text, scan.offset, none, none, none⟩)
  else
    (true, ⟨sse.text, scan.offset, some (scan.event.getD (literal "message" ++ [0])), scan.id,
      some (scan.data ++ [0])⟩)

/-! ## The events of lines -/

structure SseEvent where
  event : List UInt8
  id : Option (List UInt8)
  data : List UInt8
  deriving DecidableEq, Repr

/-- The fields of an event that has not been dispatched. -/
structure Pending where
  event : Option (List UInt8)
  id : Option (List UInt8)
  data : List (List UInt8)

def Pending.empty : Pending := ⟨none, none, []⟩

def Pending.dispatched (pending : Pending) : SseEvent :=
  ⟨pending.event.getD (literal "message"), pending.id,
    [TextLines.lf].intercalate pending.data⟩

def fieldName (line : List UInt8) : List UInt8 := line.takeWhile (· ≠ ':'.toUInt8)

/-- What is behind the colon, without the space that may follow it. -/
def fieldValue (line : List UInt8) : List UInt8 :=
  let rest := (line.dropWhile (· ≠ ':'.toUInt8)).tail
  if rest.head? = some ' '.toUInt8 then rest.tail else rest

/-- A line that is not blank; `cut` says what a value keeps of its bytes. -/
def Pending.line (cut : List UInt8 → List UInt8) (pending : Pending) (line : List UInt8) :
    Pending :=
  if line.head? = some ':'.toUInt8 then pending
  else if fieldName line = literal "data" then
    { pending with data := pending.data ++ [cut (fieldValue line)] }
  else if fieldName line = literal "event" then
    { pending with event := some (cut (fieldValue line)) }
  else if fieldName line = literal "id" then { pending with id := some (cut (fieldValue line)) }
  else pending

/-- A blank line dispatches the event, if it has data, and so does the end. -/
def lineEvents (cut : List UInt8 → List UInt8) (pending : Pending) :
    List (List UInt8) → List SseEvent
  | [] => if pending.data = [] then [] else [pending.dispatched]
  | line :: rest =>
    if line = [] then
      if pending.data = [] then lineEvents cut { pending with event := none } rest
      else pending.dispatched :: lineEvents cut .empty rest
    else lineEvents cut (pending.line cut line) rest

def textEvents (cut : List UInt8 → List UInt8) (text : List UInt8) : List SseEvent :=
  lineEvents cut .empty (TextLines.lines text)

def CSse.read (sse : CSse) : SseEvent :=
  ⟨cString (sse.event.getD []), sse.id.map cString, cString (sse.data.getD [])⟩

/-- The events of the first calls, up to one that returns FALSE, and the state
after them. -/
def sseCalls : Nat → CSse → List SseEvent × CSse
  | 0, sse => ([], sse)
  | n + 1, sse =>
    if (sseNext sse).1 then
      let later := sseCalls n (sseNext sse).2
      ((sseNext sse).2.read :: later.1, later.2)
    else ([], (sseNext sse).2)

/-! ## One line -/

section

variable {text bytes : List UInt8} {scan : SseScan} {pending : Pending}

theorem cString_terminated (bytes : List UInt8) : cString (bytes ++ [0]) = cString bytes := by
  unfold cString
  induction bytes with
  | nil => rfl
  | cons byte rest ih =>
    rw [List.cons_append, List.takeWhile_cons, List.takeWhile_cons, ih]

theorem cString_length (bytes : List UInt8) : (cString bytes).length ≤ bytes.length :=
  (List.takeWhile_prefix _).length_le

theorem cString_notNul : 0 ∉ cString bytes := by
  intro member
  have kept := List.mem_takeWhile_imp member
  cases kept

theorem cString_of_notNul (notNul : 0 ∉ bytes) : cString bytes = bytes := by
  unfold cString
  rw [List.takeWhile_eq_self_iff]
  intro byte member
  unfold isNul
  rw [Bool.not_eq_true', beq_eq_false_iff_ne]
  exact fun isZero => notNul (isZero ▸ member)

theorem lineFinish_eq (text : List UInt8) (offset : Nat) :
    lineFinish text offset = (TextLines.firstLine (text.drop offset)).length := by
  unfold lineFinish TextLines.firstLine
  congr 2
  funext byte
  unfold TextLines.isEnd
  rw [← decide_not]
  exact decide_eq_decide.mpr not_or.symm

theorem drop_lineNext (text : List UInt8) (offset : Nat) :
    text.drop (lineNext text offset (lineFinish text offset)) =
      TextLines.behind (text.drop offset) := by
  rw [lineFinish_eq]
  unfold TextLines.behind
  dsimp only
  rw [← TextLines.drop_firstLine]
  generalize (TextLines.firstLine (text.drop offset)).length = finish
  have isRest : (text.drop offset).drop finish = text.drop (offset + finish) := List.drop_drop
  have isByte (k : Nat) :
      (text.drop offset)[finish + k]? = (text.drop (offset + finish))[k]? := by
    rw [List.getElem?_drop, List.getElem?_drop, Nat.add_assoc]
  have isByte' := isByte 0
  rw [Nat.add_zero] at isByte'
  unfold lineNext
  dsimp only
  rw [isRest, isByte, isByte']
  cases isCase : text.drop (offset + finish) with
  | nil =>
    have long : text.length ≤ offset + finish := List.drop_eq_nil_iff.mp isCase
    rw [if_neg (fun all => by omega)]
    exact List.drop_eq_nil_iff.mpr (by omega)
  | cons byte rest =>
    have isLength := congrArg List.length isCase
    rw [List.length_drop, List.length_cons] at isLength
    have behindOne : text.drop (offset + finish + 1) = rest := by
      rw [← List.drop_drop, isCase, List.drop_one, List.tail_cons]
    dsimp only [TextLines.endLength]
    rw [List.getElem?_cons_zero, List.getElem?_cons_succ, ← List.head?_eq_getElem?]
    by_cases both : byte = TextLines.cr ∧ rest.head? = some TextLines.lf
    · have notNil : 0 < rest.length := by
        cases rest with
        | nil => cases both.2
        | cons next rest => exact Nat.succ_pos _
      have all : offset + finish < text.length ∧ some byte = some '\r'.toUInt8 ∧
          offset + finish + 1 < text.length ∧ rest.head? = some '\n'.toUInt8 :=
        ⟨by omega, by rw [both.1]; rfl, by omega, both.2⟩
      rw [if_pos both, if_pos all, ← List.drop_drop, behindOne]
      rfl
    · rw [if_neg both, if_neg (fun all => both ⟨Option.some.inj all.2.1, all.2.2.2⟩),
        behindOne]
      rfl

variable {offset : Nat}

theorem lineFinish_zero :
    lineFinish text offset = 0 ↔ TextLines.firstLine (text.drop offset) = [] := by
  rw [lineFinish_eq, List.length_eq_zero_iff]

/-! ## Fields -/

theorem fieldName_le (line : List UInt8) : (fieldName line).length ≤ line.length :=
  (List.takeWhile_prefix _).length_le

theorem fieldName_eq (line : List UInt8) : fieldName line = line.take (fieldName line).length :=
  List.prefix_iff_eq_take.mp (List.takeWhile_prefix _)

theorem drop_fieldName (line : List UInt8) :
    line.dropWhile (· ≠ ':'.toUInt8) = line.drop (fieldName line).length := by
  have parts : fieldName line ++ line.dropWhile (· ≠ ':'.toUInt8) = line :=
    List.takeWhile_append_dropWhile
  calc line.dropWhile (· ≠ ':'.toUInt8)
      = (fieldName line ++ line.dropWhile (· ≠ ':'.toUInt8)).drop (fieldName line).length :=
        List.drop_left.symm
    _ = line.drop (fieldName line).length := by rw [parts]

/-- The comparison of the name in the line with a name. -/
theorem isName_iff (rest name : List UInt8) (finish : Nat) :
    (colonFrom rest finish = name.length ∧ rest.take name.length = name) ↔
      fieldName (rest.take finish) = name := by
  have isColon : colonFrom rest finish = (fieldName (rest.take finish)).length := rfl
  have le := fieldName_le (rest.take finish)
  have isTake := fieldName_eq (rest.take finish)
  rw [List.length_take] at le
  rw [List.take_take, Nat.min_eq_left (by omega)] at isTake
  rw [isColon]
  constructor
  · intro both
    rw [isTake, both.1]
    exact both.2
  · intro same
    rw [same] at isTake ⊢
    exact ⟨rfl, isTake.symm⟩

theorem sseValue_eq (rest : List UInt8) {finish : Nat} (inside : finish ≤ rest.length) :
    sseValue rest (colonFrom rest finish) finish = fieldValue (rest.take finish) ++ [0] := by
  have isColon : colonFrom rest finish = (fieldName (rest.take finish)).length := rfl
  have isLength : (rest.take finish).length = finish := by
    rw [List.length_take]
    omega
  have le := fieldName_le (rest.take finish)
  rw [isLength] at le
  unfold fieldValue sseValue
  dsimp only
  rw [drop_fieldName, isColon]
  generalize (fieldName (rest.take finish)).length = colon at le
  rw [List.tail_drop]
  by_cases less : colon < finish
  · rw [if_pos less]
    unfold sseFieldValue
    dsimp only
    have isHead : ((rest.take finish).drop (colon + 1)).head? =
        if colon + 1 < finish then rest[colon + 1]? else none := by
      rw [List.head?_eq_getElem?, List.getElem?_drop, Nat.add_zero, List.getElem?_take]
    rw [isHead]
    by_cases more : colon + 1 < finish
    · rw [if_pos more]
      by_cases isSpace : rest[colon + 1]? = some ' '.toUInt8
      · rw [if_pos ⟨more, isSpace⟩, if_pos isSpace, List.tail_drop]
      · rw [if_neg (fun both => isSpace both.2), if_neg isSpace]
    · rw [if_neg more, if_neg (fun both => more both.1), if_neg (by intro no; cases no)]
  · have past : (rest.take finish).drop (colon + 1) = [] := List.drop_eq_nil_iff.mpr (by omega)
    rw [if_neg less, past]
    rfl

theorem fieldValue_length (line : List UInt8) (name : (fieldName line).length ≤ line.length) :
    (fieldName line).length + (fieldValue line).length ≤ line.length := by
  unfold fieldValue
  dsimp only
  rw [drop_fieldName, List.tail_drop]
  split
  · rw [List.tail_drop, List.length_drop]
    omega
  · rw [List.length_drop]
    omega

/-! ## The scan and the events -/

/-- The variables hold what the lines so far have given. -/
structure Agrees (scan : SseScan) (pending : Pending) : Prop where
  event : scan.event.map cString = pending.event
  id : scan.id.map cString = pending.id
  data : scan.data = [TextLines.lf].intercalate pending.data
  haveData : scan.haveData = true ↔ pending.data ≠ []
  notNul : 0 ∉ scan.data
  room : scan.data.length ≤ scan.offset

theorem putBounded_eq {more : List UInt8}
    (fits : bytes.length + more.length + 1 ≤ i64Max) : putBounded bytes more = bytes ++ more := by
  unfold putBounded
  rw [if_neg (by omega)]

theorem intercalate_concat {separator line : List UInt8} {l : List (List UInt8)}
    (notNil : l ≠ []) :
    separator.intercalate (l ++ [line]) = separator.intercalate l ++ separator ++ line := by
  induction l with
  | nil => exact absurd rfl notNil
  | cons first rest ih =>
    cases rest with
    | nil => simp [List.intercalate]
    | cons second rest =>
      have later := ih (List.cons_ne_nil _ _)
      simp only [List.intercalate, List.cons_append, List.intersperse_cons_cons,
        List.flatten_cons, List.append_assoc] at later ⊢
      rw [later]

/-- A data line adds its value, and a line end in front of it if it is not the first. -/
theorem Agrees.data_line (agrees : Agrees scan pending) {value : List UInt8}
    (fits : scan.offset + value.length + 4 ≤ i64Max)
    (grows : scan.offset + value.length + 4 < offset) :
    Agrees (sseData { scan with offset := offset } (value ++ [0]))
      { pending with data := pending.data ++ [cString value] } := by
  have room := agrees.room
  have short := cString_length value
  have isData : (sseData { scan with offset := offset } (value ++ [0])).data =
      [TextLines.lf].intercalate (pending.data ++ [cString value]) := by
    unfold sseData
    dsimp only
    rw [cString_terminated]
    by_cases first : pending.data = []
    · have notData : ¬ scan.haveData = true := fun have' => agrees.haveData.mp have' first
      have isEmpty := agrees.data
      rw [first] at isEmpty ⊢
      rw [if_neg notData, isEmpty, putBounded_eq (by
        rw [show ([TextLines.lf].intercalate ([] : List (List UInt8))).length = 0 from rfl]
        omega)]
      simp [List.intercalate]
    · have one : scan.data.length + [TextLines.lf].length + 1 ≤ i64Max := by
        rw [List.length_singleton]
        omega
      have two : (scan.data ++ [TextLines.lf]).length + (cString value).length + 1 ≤ i64Max := by
        rw [List.length_append, List.length_singleton]
        omega
      rw [if_pos (agrees.haveData.mpr first), intercalate_concat first, ← agrees.data]
      exact (congrArg (putBounded · _) (putBounded_eq one)).trans (putBounded_eq two)
  constructor
  · exact agrees.event
  · exact agrees.id
  · exact isData
  · exact ⟨fun _ => by simp, fun _ => rfl⟩
  · rw [isData]
    by_cases first : pending.data = []
    · rw [first]
      simpa [List.intercalate] using cString_notNul
    rw [intercalate_concat first, ← agrees.data, List.mem_append, List.mem_append]
    intro member
    cases member with
    | inl front =>
      cases front with
      | inl old => exact agrees.notNul old
      | inr new => cases List.mem_singleton.mp new
    | inr new => exact cString_notNul new
  · rw [isData]
    by_cases first : pending.data = []
    · rw [first]
      have isLength : ([TextLines.lf].intercalate ([] ++ [cString value])).length =
          (cString value).length := by simp [List.intercalate]
      rw [isLength]
      change (cString value).length ≤ offset
      omega
    · rw [intercalate_concat first, ← agrees.data, List.length_append, List.length_append,
        List.length_singleton]
      change scan.data.length + 1 + (cString value).length ≤ offset
      omega

theorem Agrees.field (agrees : Agrees scan pending) {rest : List UInt8} {finish : Nat}
    (notComment : (rest.take finish).head? ≠ some ':'.toUInt8) (inside : finish ≤ rest.length)
    (fits : scan.offset + finish ≤ i64Max) (grows : scan.offset + finish < offset) :
    Agrees (sseField rest finish { scan with offset := offset })
      (pending.line cString (rest.take finish)) := by
  have isData : (colonFrom rest finish = 4 ∧ rest.take 4 = literal "data") ↔
      fieldName (rest.take finish) = literal "data" := isName_iff rest (literal "data") finish
  have isEvent : (colonFrom rest finish = 5 ∧ rest.take 5 = literal "event") ↔
      fieldName (rest.take finish) = literal "event" := isName_iff rest (literal "event") finish
  have isId : (colonFrom rest finish = 2 ∧ rest.take 2 = literal "id") ↔
      fieldName (rest.take finish) = literal "id" := isName_iff rest (literal "id") finish
  have isLength : (rest.take finish).length = finish := by
    rw [List.length_take]
    omega
  have short := fieldValue_length (rest.take finish) (fieldName_le _)
  have room := Nat.le_trans agrees.room (show scan.offset ≤ offset by omega)
  unfold sseField Pending.line
  dsimp only
  rw [if_neg notComment, sseValue_eq rest inside]
  by_cases data : fieldName (rest.take finish) = literal "data"
  · rw [if_pos data, if_pos (isData.mpr data)]
    rw [data, isLength, show (literal "data").length = 4 from rfl] at short
    exact agrees.data_line (by omega) (by omega)
  rw [if_neg data, if_neg (fun both => data (isData.mp both))]
  by_cases event : fieldName (rest.take finish) = literal "event"
  · rw [if_pos event, if_pos (isEvent.mpr event)]
    refine ⟨?_, agrees.id, agrees.data, agrees.haveData, agrees.notNul, ?_⟩
    · exact congrArg some (cString_terminated _)
    · exact room
  · rw [if_neg event, if_neg (fun both => event (isEvent.mp both))]
    by_cases id : fieldName (rest.take finish) = literal "id"
    · rw [if_pos id, if_pos (isId.mpr id)]
      refine ⟨agrees.event, ?_, agrees.data, agrees.haveData, agrees.notNul, ?_⟩
      · exact congrArg some (cString_terminated _)
      · exact room
    · rw [if_neg id, if_neg (fun both => id (isId.mp both))]
      exact ⟨agrees.event, agrees.id, agrees.data, agrees.haveData, agrees.notNul, room⟩

theorem Agrees.line (agrees : Agrees scan pending) (fits : text.length ≤ i64Max)
    (less : scan.offset < text.length)
    (notBlank : TextLines.firstLine (text.drop scan.offset) ≠ []) :
    (sseLine text scan).2 = false ∧ Agrees (sseLine text scan).1
      (pending.line cString (TextLines.firstLine (text.drop scan.offset))) := by
  have grows := lineNext_grows text scan.offset (lineFinish text scan.offset)
  have notZero : lineFinish text scan.offset ≠ 0 := fun zero => notBlank (lineFinish_zero.mp zero)
  have isTake : (text.drop scan.offset).take (lineFinish text scan.offset) =
      TextLines.firstLine (text.drop scan.offset) := by
    rw [lineFinish_eq]
    exact TextLines.take_firstLine _
  have inside : lineFinish text scan.offset ≤ (text.drop scan.offset).length := by
    rw [lineFinish_eq]
    exact (List.takeWhile_prefix _).length_le
  have isHead : (text.drop scan.offset)[0]? =
      (TextLines.firstLine (text.drop scan.offset)).head? := by
    rw [← isTake, List.head?_eq_getElem?, List.getElem?_take_of_lt (by omega)]
  rw [List.length_drop] at inside
  unfold sseLine
  dsimp only
  rw [if_neg notZero, isHead]
  by_cases comment : (TextLines.firstLine (text.drop scan.offset)).head? = some ':'.toUInt8
  · rw [if_neg (fun no => no comment)]
    refine ⟨rfl, ?_⟩
    unfold Pending.line
    rw [if_pos comment]
    exact ⟨agrees.event, agrees.id, agrees.data, agrees.haveData, agrees.notNul,
      Nat.le_trans agrees.room (by dsimp only; omega)⟩
  · rw [if_pos comment]
    refine ⟨rfl, ?_⟩
    rw [← isTake] at comment ⊢
    exact agrees.field comment (by rw [List.length_drop]; omega) (by omega) grows

theorem Agrees.blank (agrees : Agrees scan pending)
    (isBlank : TextLines.firstLine (text.drop scan.offset) = []) :
    (sseLine text scan).2 = scan.haveData ∧ Agrees (sseLine text scan).1
      (if pending.data = [] then { pending with event := none } else pending) := by
  have grows := lineNext_grows text scan.offset (lineFinish text scan.offset)
  have room := Nat.le_trans agrees.room
    (show scan.offset ≤ lineNext text scan.offset (lineFinish text scan.offset) by omega)
  unfold sseLine
  dsimp only
  rw [if_pos (lineFinish_zero.mpr isBlank)]
  by_cases first : pending.data = []
  · have notData : ¬ scan.haveData = true := fun have' => agrees.haveData.mp have' first
    rw [if_neg notData, if_pos first]
    exact ⟨(Bool.not_eq_true _ ▸ notData).symm, rfl, agrees.id, agrees.data, agrees.haveData,
      agrees.notNul, room⟩
  · rw [if_pos (agrees.haveData.mpr first), if_neg first]
    exact ⟨(agrees.haveData.mpr first).symm, agrees.event, agrees.id, agrees.data,
      agrees.haveData, agrees.notNul, room⟩

theorem lines_drop (less : offset < text.length) :
    TextLines.lines (text.drop offset) = TextLines.firstLine (text.drop offset) ::
      TextLines.lines (text.drop (lineNext text offset (lineFinish text offset))) := by
  have notNil : text.drop offset ≠ [] := by
    intro isNil
    have long := List.drop_eq_nil_iff.mp isNil
    omega
  rw [drop_lineNext]
  exact TextLines.lines_eq notNil

/-! ## Calls -/

/-- An offset in the text or, where its last line has no end, one behind it. -/
def Inside (text : List UInt8) (offset : Nat) : Prop :=
  offset ≤ text.length ∨ offset = text.length + 1 ∧ ¬ text.getLast?.any TextLines.isEnd

theorem lineNext_inside (less : offset < text.length) :
    Inside text (lineNext text offset (lineFinish text offset)) := by
  have inside : lineFinish text offset ≤ text.length - offset := by
    rw [lineFinish_eq, ← List.length_drop]
    exact (List.takeWhile_prefix _).length_le
  unfold Inside
  by_cases atEnd : offset + lineFinish text offset < text.length
  · left
    unfold lineNext
    dsimp only
    split <;> omega
  · right
    constructor
    · unfold lineNext
      dsimp only
      rw [if_neg (fun all => atEnd all.1)]
      omega
    · have isAll : TextLines.firstLine (text.drop offset) = text.drop offset := by
        have isTake := TextLines.take_firstLine (text.drop offset)
        rw [← lineFinish_eq, List.take_of_length_le (by rw [List.length_drop]; omega)] at isTake
        exact isTake.symm
      have isLast : text.getLast? = (text.drop offset).getLast? := by
        rw [List.getLast?_drop, if_neg (by omega)]
      rw [isLast, ← isAll]
      cases isByte : (TextLines.firstLine (text.drop offset)).getLast? with
      | none => decide
      | some byte =>
        have member := List.mem_of_getLast? isByte
        have kept := List.mem_takeWhile_imp member
        rw [Option.any_some]
        intro isEnd
        rw [isEnd] at kept
        cases kept

theorem sseLoop_spec (fits : text.length ≤ i64Max) (agrees : Agrees scan pending) :
    ∃ pending', Agrees (sseLoop text scan) pending' ∧
      lineEvents cString pending (TextLines.lines (text.drop scan.offset)) =
        (if pending'.data = [] then [] else
          pending'.dispatched :: textEvents cString (text.drop (sseLoop text scan).offset)) ∧
      (pending'.data = [] → text.length ≤ (sseLoop text scan).offset) ∧
      (scan.offset < text.length → scan.offset < (sseLoop text scan).offset ∧
        Inside text (sseLoop text scan).offset) ∧
      (text.length ≤ scan.offset → (sseLoop text scan).offset = scan.offset) := by
  induction scan using sseLoop.induct text generalizing pending with
  | case1 scan less breaks =>
    have isLast : sseLoop text scan = (sseLine text scan).1 := by
      rw [sseLoop, if_pos less, if_pos breaks]
    have grows := lineNext_grows text scan.offset (lineFinish text scan.offset)
    have isOffset := sseLine_offset text scan
    have isLines := lines_drop less
    by_cases isBlank : TextLines.firstLine (text.drop scan.offset) = []
    · obtain ⟨isFound, agrees'⟩ := agrees.blank isBlank
      have data : pending.data ≠ [] := agrees.haveData.mp (isFound.symm.trans breaks)
      rw [if_neg data] at agrees'
      rw [isLast, isOffset]
      refine ⟨pending, agrees', ?_, fun isNil => absurd isNil data,
        fun _ => ⟨by omega, lineNext_inside less⟩, fun past => by omega⟩
      rw [isLines, isBlank, lineEvents, if_pos rfl, if_neg data, if_neg data]
      rfl
    · have goes := (agrees.line fits less isBlank).1
      rw [breaks] at goes
      cases goes
  | case2 scan less goes ih =>
    have isNext : sseLoop text scan = sseLoop text (sseLine text scan).1 := by
      rw [sseLoop, if_pos less, if_neg goes]
    have grows := lineNext_grows text scan.offset (lineFinish text scan.offset)
    have isOffset := sseLine_offset text scan
    have isLines := lines_drop less
    have inside := lineNext_inside less
    have rest : ∃ next, Agrees (sseLine text scan).1 next ∧
        lineEvents cString pending (TextLines.lines (text.drop scan.offset)) =
          lineEvents cString next (TextLines.lines (text.drop (sseLine text scan).1.offset)) := by
      rw [isLines, isOffset]
      by_cases isBlank : TextLines.firstLine (text.drop scan.offset) = []
      · obtain ⟨isFound, agrees'⟩ := agrees.blank isBlank
        have noData : pending.data = [] := by
          by_contra data
          exact goes (isFound.trans (agrees.haveData.mpr data))
        refine ⟨_, agrees', ?_⟩
        rw [isBlank, lineEvents, if_pos rfl, if_pos noData, if_pos noData]
      · refine ⟨_, (agrees.line fits less isBlank).2, ?_⟩
        rw [lineEvents, if_neg isBlank]
    obtain ⟨next, agrees', isEvents⟩ := rest
    obtain ⟨pending', last, later, atEnd, further, stays⟩ := ih agrees'
    rw [isNext, isEvents]
    refine ⟨pending', last, later, atEnd, fun _ => ?_, fun past => by omega⟩
    by_cases more : (sseLine text scan).1.offset < text.length
    · exact ⟨by have := further more; omega, (further more).2⟩
    · rw [stays (by omega), isOffset]
      exact ⟨by omega, inside⟩
  | case3 scan past =>
    have isEnd : text.drop scan.offset = [] := List.drop_eq_nil_iff.mpr (by omega)
    have stays : sseLoop text scan = scan := by
      rw [sseLoop, if_neg past]
    rw [stays, isEnd, TextLines.lines_nil]
    refine ⟨pending, agrees, ?_, fun _ => by omega, fun less => absurd less past, fun _ => rfl⟩
    rfl

variable {sse : CSse}

theorem Agrees.read (agrees : Agrees scan pending)
    (event : sse.event = some (scan.event.getD (literal "message" ++ [0]))) (id : sse.id = scan.id)
    (data : sse.data = some (scan.data ++ [0])) : sse.read = pending.dispatched := by
  have message : cString (literal "message" ++ [0]) = literal "message" := by decide
  unfold CSse.read Pending.dispatched
  rw [event, id, data, Option.getD_some, Option.getD_some, cString_terminated,
    cString_of_notNul agrees.notNul, ← agrees.event, ← agrees.id, ← agrees.data]
  cases scan.event with
  | none => rw [Option.getD_none, message]; rfl
  | some value => rfl

theorem agrees_new (offset : Nat) : Agrees ⟨offset, none, none, [], false⟩ .empty where
  event := rfl
  id := rfl
  data := rfl
  haveData := ⟨fun no => absurd no Bool.false_ne_true, fun no => absurd rfl no⟩
  notNul := List.not_mem_nil
  room := Nat.zero_le _

/-- One call: the next event of the lines that are left, or none if there is none. -/
theorem sseNext_spec (fits : sse.text.length ≤ i64Max) :
    (sseNext sse).2.text = sse.text ∧
      ((sseNext sse).1 = true →
        textEvents cString (sse.text.drop sse.offset) = (sseNext sse).2.read ::
            textEvents cString (sse.text.drop (sseNext sse).2.offset) ∧
          sse.offset < (sseNext sse).2.offset) ∧
      ((sseNext sse).1 = false →
        textEvents cString (sse.text.drop sse.offset) = [] ∧
          sse.text.length ≤ (sseNext sse).2.offset) ∧
      (Inside sse.text sse.offset → Inside sse.text (sseNext sse).2.offset) := by
  obtain ⟨pending, agrees, isEvents, atEnd, further, stays⟩ :=
    sseLoop_spec fits (agrees_new sse.offset)
  have isOffset : (sseNext sse).2.offset =
      (sseLoop sse.text ⟨sse.offset, none, none, [], false⟩).offset := by
    unfold sseNext
    dsimp only
    split <;> rfl
  have isFound : (sseNext sse).1 =
      (sseLoop sse.text ⟨sse.offset, none, none, [], false⟩).haveData := by
    unfold sseNext
    dsimp only
    split
    next no => exact (Bool.not_eq_true _ ▸ no).symm
    next yes => exact (not_not.mp yes).symm
  have sameText : (sseNext sse).2.text = sse.text := by
    unfold sseNext
    dsimp only
    split <;> rfl
  rw [isOffset, isFound]
  dsimp only at isEvents further stays
  refine ⟨sameText, ?_, ?_, ?_⟩
  · intro found
    have data := agrees.haveData.mp found
    have isRead : (sseNext sse).2.read = pending.dispatched := by
      have isNext : (sseNext sse).2 = _ := congrArg Prod.snd (if_neg (fun no => no found))
      rw [isNext]
      exact agrees.read rfl rfl rfl
    rw [if_neg data] at isEvents
    rw [isRead]
    refine ⟨isEvents, ?_⟩
    by_cases less : sse.offset < sse.text.length
    · exact (further less).1
    · have isNil : sse.text.drop sse.offset = [] := List.drop_eq_nil_iff.mpr (by omega)
      rw [isNil] at isEvents
      cases isEvents
  · intro notFound
    have noData : pending.data = [] := by
      by_contra data
      rw [agrees.haveData.mpr data] at notFound
      cases notFound
    rw [if_pos noData] at isEvents
    exact ⟨isEvents, atEnd noData⟩
  · intro inside
    by_cases less : sse.offset < sse.text.length
    · exact (further less).2
    · rw [stays (by omega)]
      exact inside

/-- After some calls: what they have returned and what is left are the events of the text. -/
theorem sseCalls_spec (n : Nat) (fits : sse.text.length ≤ i64Max)
    (inside : Inside sse.text sse.offset) :
    (sseCalls n sse).2.text = sse.text ∧
      (sseCalls n sse).1 ++ textEvents cString (sse.text.drop (sseCalls n sse).2.offset) =
        textEvents cString (sse.text.drop sse.offset) ∧
      Inside sse.text (sseCalls n sse).2.offset ∧
      (sse.text.length < sse.offset + n →
        textEvents cString (sse.text.drop (sseCalls n sse).2.offset) = []) := by
  have nothing {offset : Nat} (past : sse.text.length ≤ offset) :
      textEvents cString (sse.text.drop offset) = [] := by
    rw [List.drop_eq_nil_iff.mpr past]
    rfl
  induction n generalizing sse with
  | zero =>
    rw [sseCalls]
    exact ⟨rfl, List.nil_append _, inside, fun past => nothing (Nat.le_of_lt past)⟩
  | succ n ih =>
    obtain ⟨sameText, found, notFound, inside'⟩ := sseNext_spec fits
    rw [sseCalls]
    cases isFound : (sseNext sse).1 with
    | true =>
      obtain ⟨isEvents, grows⟩ := found isFound
      have nothing' {offset : Nat} (past : (sseNext sse).2.text.length ≤ offset) :
          textEvents cString ((sseNext sse).2.text.drop offset) = [] := by
        rw [List.drop_eq_nil_iff.mpr past]
        rfl
      obtain ⟨text, events, last, atEnd⟩ := @ih (sseNext sse).2
        (sameText ▸ fits) (sameText ▸ inside' inside) nothing'
      rw [sameText] at text events last atEnd
      rw [if_pos rfl]
      refine ⟨text, ?_, last, fun past => atEnd (by omega)⟩
      rw [isEvents, ← events]
      rfl
    | false =>
      obtain ⟨isEvents, past⟩ := notFound isFound
      rw [if_neg Bool.false_ne_true, isEvents, nothing past]
      exact ⟨sameText, rfl, inside' inside, fun _ => rfl⟩

/-- What calls have returned and what is left of the text. -/
structure CSse.Delivers (sse : CSse) (n : Nat) : Prop where
  events : (sseCalls n sse).1 ++ textEvents cString (sse.text.drop (sseCalls n sse).2.offset) =
    textEvents cString sse.text
  all : sse.text.length < n → (sseCalls n sse).1 = textEvents cString sse.text
  inside : Inside sse.text (sseCalls n sse).2.offset
  progress : (sseNext (sseCalls n sse).2).1 = true →
    (sseCalls n sse).2.offset < (sseNext (sseCalls n sse).2).2.offset
  ended : (sseNext (sseCalls n sse).2).1 = false →
    textEvents cString (sse.text.drop (sseCalls n sse).2.offset) = [] ∧
      sse.text.length ≤ (sseNext (sseCalls n sse).2).2.offset

/-- After any number of calls on any text, the events that have been returned and those of what
is left are the events of its lines, with each value up to its first NUL. Each call that
returns an event moves the offset on, which passes the end at most by one, and that only if the
last line has no line end. -/
theorem sseNext_reads_lines (text : Pointer) (length : Int)
    (fits : (sseInit text length).text.length ≤ i64Max) (n : Nat) :
    (sseInit text length).Delivers n := by
  obtain ⟨sameText, events, inside, atEnd⟩ :=
    sseCalls_spec n fits (Or.inl (Nat.zero_le _))
  have start : (sseInit text length).text.drop (sseInit text length).offset =
      (sseInit text length).text := List.drop_zero
  rw [start] at events
  obtain ⟨_, found, notFound, _⟩ := sseNext_spec (sameText ▸ fits)
  rw [sameText] at notFound
  constructor
  · exact events
  · intro enough
    rw [← events, atEnd (by omega), List.append_nil]
  · exact inside
  · exact fun isFound => (found isFound).2
  · exact notFound

theorem sseNext_reads_lines_crlf :
    (sseInit (some (literal "data: a\r\nid:7\r\n\r\nevent")) (-1)).Delivers 2 :=
  sseNext_reads_lines _ _ (by decide) 2

end

/-- The offset is 8 behind a last line of 7 bytes, and a value ends at a NUL in it. -/
theorem offset_passes_end :
    ¬ (∀ (text : Pointer) (length : Int) (n : Nat),
        (sseInit text length).text.length ≤ i64Max →
          (sseCalls n (sseInit text length)).2.offset ≤ (sseInit text length).text.length) ∧
      ¬ ∀ (text : Pointer) (length : Int),
        (sseInit text length).text.length ≤ i64Max →
          (sseCalls ((sseInit text length).text.length + 1) (sseInit text length)).1 =
            textEvents id (sseInit text length).text := by
  constructor
  · intro always
    have inside := always (some (literal "data: x")) 7 1 (by decide)
    have past : ¬ (sseCalls 1 (sseInit (some (literal "data: x")) 7)).2.offset ≤
        (sseInit (some (literal "data: x")) 7).text.length := by decide +kernel
    exact past inside
  · intro always
    have same := always (some (literal "data: a\x00b\n\n")) 11 (by decide)
    have differ : (sseCalls 12 (sseInit (some (literal "data: a\x00b\n\n")) 11)).1 ≠
        textEvents id (sseInit (some (literal "data: a\x00b\n\n")) 11).text := by
      decide +kernel
    exact differ same

end Aholyc.Http
