import Aholyc.Json.Quote

/-!
# What a sequence of calls describes

A value is described by its own call, or by the calls of its items between a start
and an end. `Outline` follows a sequence call by call, with the text that belongs
to it; it is lost at the first call that does not fit.
-/

namespace Aholyc.Json

open Aholyc.Lib.Scanner Aholyc.Text

variable {F : Type}

/-- The text and the value of a call that describes a value alone. -/
def Call.scalar (format : F → List UInt8) : Call F → Option (List UInt8 × Value)
  | .string text =>
      match text.bytes with
      | some contents =>
          if utf8Valid contents then some (quote contents, .string contents) else none
      | none => none
  | .i64 value => some (bytes (toString value.toInt), .number (bytes (toString value.toInt)))
  | .f64 value =>
      if noNumber (format value) then none else some (format value, .number (format value))
  | .bool value => some (if value then bytes "true" else bytes "false", .bool value)
  | .null => some (bytes "null", .null)
  | _ => none

def Text.name (text : Text) : Option (List UInt8) := text.bytes.filter utf8Valid

mutual

inductive Describes (format : F → List UInt8) : List (Call F) → Value → Prop where
  | scalar (call : Call F) (word : List UInt8) (value : Value)
      (isScalar : call.scalar format = some (word, value)) : Describes format [call] value
  | container (kind : Kind) (calls : List (Call F)) (items : List (List UInt8 × Value))
      (described : DescribesItems format kind calls items) :
      Describes format (.start kind :: calls ++ [.finish kind]) (.container kind items)

inductive DescribesItems (format : F → List UInt8) :
    Kind → List (Call F) → List (List UInt8 × Value) → Prop where
  | nil (kind : Kind) : DescribesItems format kind [] []
  | element (calls more : List (Call F)) (items : List (List UInt8 × Value)) (value : Value)
      (described : DescribesItems format .array calls items)
      (last : Describes format more value) :
      DescribesItems format .array (calls ++ more) (items ++ [([], value)])
  | member (calls more : List (Call F)) (items : List (List UInt8 × Value)) (text : Text)
      (name : List UInt8) (value : Value) (described : DescribesItems format .object calls items)
      (isName : text.name = some name) (last : Describes format more value) :
      DescribesItems format .object (calls ++ .key text :: more) (items ++ [(name, value)])

end

/-- A container that is open: its calls so far and their text, behind its own start;
the items that are complete; and, where a value has to come next or is open itself, the
name it will have. -/
structure Frame (F : Type) where
  kind : Kind
  calls : List (Call F)
  body : List UInt8
  items : List (List UInt8 × Value)
  slot : Option (List UInt8)

namespace Frame

def new (kind : Kind) : Frame F := ⟨kind, [], [], [], none⟩

def lead (frame : Frame F) : List UInt8 := if frame.items.isEmpty then [] else bytes ","

def before (frame : Frame F) : Option (Frame F) :=
  match frame.kind with
  | .array => some { frame with body := frame.body ++ frame.lead, slot := some [] }
  | .object => if frame.slot.isSome then some frame else none

def after (calls : List (Call F)) (word : List UInt8) (value : Value) (frame : Frame F) : Frame F where
  kind := frame.kind
  calls := frame.calls ++ calls
  body := frame.body ++ word
  items := frame.items ++ [(frame.slot.getD [], value)]
  slot := none

def key (text : Text) (frame : Frame F) : Option (Frame F) :=
  match text.name with
  | none => none
  | some name =>
      if frame.kind = .object ∧ frame.slot = none then
        some { frame with
          calls := frame.calls ++ [.key text]
          body := frame.body ++ frame.lead ++ quote name ++ bytes ":"
          slot := some name }
      else none

end Frame

/-- The containers that are open, the innermost first, or the value with its text. -/
inductive Outline (F : Type) where
  | opened (frames : List (Frame F))
  | closed (calls : List (Call F)) (word : List UInt8) (value : Value)

namespace Outline

def put (calls : List (Call F)) (word : List UInt8) (value : Value) : List (Frame F) → Outline F
  | [] => .closed calls word value
  | top :: outer => .opened (top.after calls word value :: outer)

def before : List (Frame F) → Option (List (Frame F))
  | [] => some []
  | top :: outer => top.before.map (· :: outer)

def scalar (format : F → List UInt8) (call : Call F) (frames : List (Frame F)) :
    Option (Outline F) :=
  match call.scalar format with
  | none => none
  | some (word, value) => (before frames).map (put [call] word value)

def step (format : F → List UInt8) (call : Call F) : Outline F → Option (Outline F)
  | .closed .. => none
  | .opened frames =>
      match call with
      | .start kind =>
          if frames.length < jsonEncoderMaxDepth then
            (before frames).map fun frames => .opened (Frame.new kind :: frames)
          else none
      | .finish kind =>
          match frames with
          | [] => none
          | top :: outer =>
              if top.kind = kind ∧ top.slot = none then
                some (put (.start kind :: top.calls ++ [.finish kind])
                  ([kind.opening] ++ top.body ++ [kind.closing]) (.container kind top.items) outer)
              else none
      | .key text =>
          match frames with
          | [] => none
          | top :: outer => (top.key text).map fun top => .opened (top :: outer)
      | call => scalar format call frames

def whole : List (Frame F) → List UInt8
  | [] => []
  | top :: outer => whole outer ++ [top.kind.opening] ++ top.body

end Outline

def outline (format : F → List UInt8) (calls : List (Call F)) : Option (Outline F) :=
  calls.foldlM (fun outline call => outline.step format call) (.opened [])

variable {call : Call F} {word : List UInt8} {value : Value}

theorem outline_scalar {format : F → List UInt8}
    (isScalar : call.scalar format = some (word, value)) :
    outline format [call] = some (.closed [call] word value) := by
  have only : Outline.scalar format call [] = some (.closed [call] word value) := by
    rw [Outline.scalar, isScalar]
    rfl
  unfold outline
  rw [List.foldlM_cons]
  cases call with
  | start kind => cases isScalar
  | finish kind => cases isScalar
  | key text => cases isScalar
  | string text => exact congrArg (Option.bind · _) only
  | i64 value => exact congrArg (Option.bind · _) only
  | f64 value => exact congrArg (Option.bind · _) only
  | bool value => exact congrArg (Option.bind · _) only
  | null => exact congrArg (Option.bind · _) only

def Call.startsValue : Call F → Bool
  | .key _ => false
  | .finish _ => false
  | _ => true

inductive Misuse (format : F → List UInt8) : Outline F → Call F → Prop where
  | behindRoot (calls : List (Call F)) (word : List UInt8) (value : Value) (call : Call F) :
      Misuse format (.closed calls word value) call
  | tooDeep (frames : List (Frame F)) (kind : Kind) (deep : jsonEncoderMaxDepth ≤ frames.length) :
      Misuse format (.opened frames) (.start kind)
  | noKey (top : Frame F) (outer : List (Frame F)) (call : Call F) (isObject : top.kind = .object)
      (free : top.slot = none) (starts : call.startsValue = true) :
      Misuse format (.opened (top :: outer)) call
  | keyOutside (frames : List (Frame F)) (text : Text)
      (outside : ∀ top ∈ frames.head?, top.kind ≠ .object) :
      Misuse format (.opened frames) (.key text)
  | keyTwice (top : Frame F) (outer : List (Frame F)) (text : Text) (waits : top.slot.isSome) :
      Misuse format (.opened (top :: outer)) (.key text)
  | mismatched (frames : List (Frame F)) (kind : Kind)
      (other : ∀ top ∈ frames.head?, top.kind ≠ kind) :
      Misuse format (.opened frames) (.finish kind)
  | unfinished (top : Frame F) (outer : List (Frame F)) (kind : Kind) (waits : top.slot.isSome) :
      Misuse format (.opened (top :: outer)) (.finish kind)
  | badKey (frames : List (Frame F)) (text : Text) (bad : text.name = none) :
      Misuse format (.opened frames) (.key text)
  | badString (frames : List (Frame F)) (text : Text) (bad : text.name = none) :
      Misuse format (.opened frames) (.string text)
  | badNumber (frames : List (Frame F)) (value : F) (bad : noNumber (format value) = true) :
      Misuse format (.opened frames) (.f64 value)

variable {sofar : Outline F}

theorem Misuse.lost {format : F → List UInt8} (misuse : Misuse format sofar call) :
    sofar.step format call = none := by
  cases misuse with
  | behindRoot => rfl
  | tooDeep frames kind deep =>
    simp only [Outline.step]
    rw [if_neg (by omega)]
  | noKey top outer call isObject free starts =>
    have noPlace : Outline.before (top :: outer) = none := by
      simp [Outline.before, Frame.before, isObject, free]
    have noScalar : Outline.scalar format call (top :: outer) = none := by
      unfold Outline.scalar
      split
      next => rfl
      next => rw [noPlace]; rfl
    cases call with
    | start kind => simp only [Outline.step, noPlace, Option.map_none, ite_self]
    | finish kind => cases starts
    | key text => cases starts
    | string text => exact noScalar
    | i64 value => exact noScalar
    | f64 value => exact noScalar
    | bool value => exact noScalar
    | null => exact noScalar
  | keyOutside frames text outside =>
    cases frames with
    | nil => rfl
    | cons top outer =>
      have notObject := outside top rfl
      have noKey : top.key text = none := by
        unfold Frame.key
        split
        next => rfl
        next => exact if_neg fun both => notObject both.1
      simp only [Outline.step, noKey, Option.map_none]
  | keyTwice top outer text waits =>
    have notFree : top.slot ≠ none := Option.isSome_iff_ne_none.mp waits
    have noKey : top.key text = none := by
      unfold Frame.key
      split
      next => rfl
      next => exact if_neg fun both => notFree both.2
    simp only [Outline.step, noKey, Option.map_none]
  | mismatched frames kind other =>
    cases frames with
    | nil => rfl
    | cons top outer =>
      have notKind := other top rfl
      simp [Outline.step, notKind]
  | unfinished top outer kind waits =>
    have notFree : top.slot ≠ none := Option.isSome_iff_ne_none.mp waits
    simp [Outline.step, notFree]
  | badKey frames text bad =>
    cases frames with
    | nil => rfl
    | cons top outer => simp [Outline.step, Frame.key, bad]
  | badString frames text bad =>
    have noScalar : (Call.string text).scalar format = none := by
      unfold Text.name at bad
      cases isBytes : text.bytes with
      | none => simp only [Call.scalar, isBytes]
      | some contents =>
        rw [isBytes, Option.filter_some] at bad
        split at bad
        next => cases bad
        next invalid => simp only [Call.scalar, isBytes, if_neg invalid]
    simp only [Outline.step, Outline.scalar, noScalar]
  | badNumber frames value bad =>
    simp [Outline.step, Outline.scalar, Call.scalar, bad]

/-! ## An outline is what the calls describe -/

section

variable {format : F → List UInt8}

def GivesNumbers (format : F → List UInt8) : Prop :=
  ∀ value, noNumber (format value) = true ∨ format value ∈ number

/-- A frame with room for `nesting` brackets more: its items are complete, or they are
once a value comes. -/
def Frame.Good (format : F → List UInt8) (nesting : Nat) (frame : Frame F) : Prop :=
  match frame.slot with
  | none =>
      DescribesItems format frame.kind frame.calls frame.items ∧
        if frame.items.isEmpty then frame.body = []
        else Means false (.items frame.kind) nesting frame.body frame.items
  | some name =>
      (∀ calls value, Describes format calls value →
        DescribesItems format frame.kind (frame.calls ++ calls) (frame.items ++ [(name, value)])) ∧
      ∀ word value, Means false .value nesting word [([], value)] →
        Means false (.items frame.kind) nesting (frame.body ++ word) (frame.items ++ [(name, value)])

def Outline.Around (format : F → List UInt8) : List (Frame F) → Prop
  | [] => True
  | frame :: outer =>
      frame.slot.isSome ∧ frame.Good format (62 - outer.length) ∧ Outline.Around format outer

def Outline.Good (format : F → List UInt8) : Outline F → Prop
  | .opened [] => True
  | .opened (top :: outer) =>
      (top.kind = .array → top.slot = none) ∧ top.Good format (62 - outer.length) ∧
        Outline.Around format outer ∧ outer.length < jsonEncoderMaxDepth
  | .closed calls word value =>
      Describes format calls value ∧ Means false .value jsonEncoderMaxDepth word [([], value)]

theorem scalar_means (numbers : GivesNumbers format)
    (isScalar : call.scalar format = some (word, value)) (nesting : Nat) :
    Means false .value nesting word [([], value)] := by
  unfold Call.scalar at isScalar
  split at isScalar
  next text =>
    split at isScalar
    next contents _ =>
      split at isScalar
      next valid =>
        cases isScalar
        have means : Means false .value nesting (quote contents)
            [([], .string (jsonValueString (quote contents)))] :=
          .string nesting (quote contents) (quote_mem valid)
        rwa [jsonValueString_quote] at means
      next => cases isScalar
    next => cases isScalar
  next value =>
    cases isScalar
    exact .number nesting _ (toString_mem value.toInt)
  next number =>
    split at isScalar
    next => cases isScalar
    next notNone =>
      cases isScalar
      exact .number nesting _ ((numbers number).resolve_left notNone)
  next truth =>
    cases isScalar
    cases truth with
    | true => exact .true nesting
    | false => exact .false nesting
  next =>
    cases isScalar
    exact .null nesting
  next => cases isScalar

theorem Frame.new_good (kind : Kind) (nesting : Nat) : (Frame.new kind).Good format nesting :=
  ⟨.nil kind, rfl⟩

variable {frame : Frame F} {nesting : Nat}

theorem Frame.lead_means {item : List UInt8 × Value}
    (sofar : if frame.items.isEmpty then frame.body = []
      else Means false (.items frame.kind) nesting frame.body frame.items)
    (item_means : Means false frame.kind.item nesting word [item]) :
    Means false (.items frame.kind) nesting (frame.body ++ frame.lead ++ word)
      (frame.items ++ [item]) := by
  unfold Frame.lead
  by_cases isEmpty : frame.items.isEmpty = true
  · rw [if_pos isEmpty] at sofar ⊢
    have only := Means.last frame.kind nesting word [] item item_means
      (Language.nil_mem_kstar _)
    rw [List.isEmpty_iff] at isEmpty
    rw [sofar, isEmpty]
    rwa [List.append_nil] at only
  · rw [if_neg isEmpty] at sofar ⊢
    exact sofar.snoc item_means

theorem Frame.before_good {started : Frame F} (array : frame.kind = .array → frame.slot = none)
    (good : frame.Good format nesting) (starts : frame.before = some started) :
    started.slot.isSome ∧ started.Good format nesting := by
  unfold Frame.before at starts
  split at starts
  next isArray =>
    cases starts
    unfold Frame.Good at good
    rw [array isArray] at good
    obtain ⟨described, sofar⟩ := good
    refine ⟨rfl, ?_, ?_⟩
    · intro calls value last
      rw [isArray] at described
      show DescribesItems format frame.kind _ _
      rw [isArray]
      exact .element _ _ _ _ described last
    · intro word value means
      apply Frame.lead_means sofar
      rw [isArray]
      exact means
  next =>
    split at starts
    next waits =>
      cases starts
      exact ⟨waits, good⟩
    next => cases starts

theorem Frame.key_good {named : Frame F} {text : Text} (good : frame.Good format nesting)
    (isNamed : frame.key text = some named) : named.kind = .object ∧ named.Good format nesting := by
  unfold Frame.key at isNamed
  split at isNamed
  next => cases isNamed
  next name isName =>
    split at isNamed
    next free =>
      cases isNamed
      obtain ⟨isObject, noSlot⟩ := free
      unfold Frame.Good at good
      rw [noSlot] at good
      obtain ⟨described, sofar⟩ := good
      have valid : utf8Valid name = true := (Option.filter_eq_some_iff.mp isName).2
      refine ⟨isObject, ?_, ?_⟩
      · intro calls value last
        rw [isObject] at described
        show DescribesItems format frame.kind _ _
        rw [isObject, List.append_assoc]
        exact .member _ _ _ _ _ _ described isName last
      · intro word value means
        have none : ([] : List UInt8) ∈ space false := Language.nil_mem_kstar _
        have member := Means.member nesting (quote name) [] [] word value (quote_mem valid) none none
          means
        rw [jsonValueString_quote] at member
        have item : Means false frame.kind.item nesting
            (quote name ++ [] ++ bytes ":" ++ [] ++ word) [(name, value)] := by
          rw [isObject]
          exact member
        have all := Frame.lead_means sofar item
        simp only [List.append_nil, List.append_assoc] at all ⊢
        exact all
    next => cases isNamed

theorem Frame.after_good {calls : List (Call F)} (waits : frame.slot.isSome)
    (good : frame.Good format nesting) (described : Describes format calls value)
    (means : Means false .value nesting word [([], value)]) :
    (frame.after calls word value).Good format nesting := by
  obtain ⟨name, slot⟩ := Option.isSome_iff_exists.mp waits
  unfold Frame.Good at good
  rw [slot] at good
  unfold Frame.after Frame.Good
  rw [slot]
  refine ⟨good.1 calls value described, ?_⟩
  rw [if_neg (by simp)]
  exact good.2 word value means

namespace Outline

variable {frames : List (Frame F)}

theorem put_good {calls : List (Call F)} (around : Around format frames)
    (deep : frames.length ≤ jsonEncoderMaxDepth) (described : Describes format calls value)
    (means : Means false .value (jsonEncoderMaxDepth - frames.length) word [([], value)]) :
    (put calls word value frames).Good format := by
  cases frames with
  | nil => exact ⟨described, means⟩
  | cons top outer =>
    obtain ⟨waits, good, around⟩ := around
    refine ⟨fun _ => rfl, Frame.after_good waits good described ?_, around, deep⟩
    have room : jsonEncoderMaxDepth - (top :: outer).length = 62 - outer.length := by
      rw [List.length_cons, jsonEncoderMaxDepth]
      omega
    rwa [room] at means

variable {started : List (Frame F)}

theorem before_length (starts : before frames = some started) : started.length = frames.length := by
  cases frames with
  | nil =>
    cases starts
    rfl
  | cons top outer =>
    obtain ⟨top', _, rfl⟩ := Option.map_eq_some_iff.mp starts
    rfl

theorem before_good (good : (opened frames).Good format) (starts : before frames = some started) :
    Around format started := by
  cases frames with
  | nil =>
    cases starts
    trivial
  | cons top outer =>
    obtain ⟨array, good, around, _⟩ := good
    obtain ⟨top', topStarts, rfl⟩ := Option.map_eq_some_iff.mp starts
    obtain ⟨waits, good⟩ := Frame.before_good array good topStarts
    exact ⟨waits, good, around⟩

theorem container_good {top : Frame F} (good : top.Good format nesting) (complete : top.slot = none) :
    Describes format (.start top.kind :: top.calls ++ [.finish top.kind])
        (.container top.kind top.items) ∧
      Means false .value (nesting + 1) ([top.kind.opening] ++ top.body ++ [top.kind.closing])
        [([], .container top.kind top.items)] := by
  unfold Frame.Good at good
  rw [complete] at good
  obtain ⟨described, sofar⟩ := good
  refine ⟨.container top.kind top.calls top.items described, ?_⟩
  have none : ([] : List UInt8) ∈ space false := Language.nil_mem_kstar _
  by_cases isEmpty : top.items.isEmpty = true
  · rw [if_pos isEmpty] at sofar
    rw [List.isEmpty_iff] at isEmpty
    rw [sofar, isEmpty]
    exact .empty top.kind nesting [] none
  · rw [if_neg isEmpty] at sofar
    have means := Means.container top.kind nesting [] top.body top.items none sofar
    rwa [List.append_nil] at means

theorem deep (good : (opened frames).Good format) : frames.length ≤ jsonEncoderMaxDepth := by
  cases frames with
  | nil => exact Nat.zero_le _
  | cons top outer => exact good.2.2.2

variable {next : Outline F}

theorem scalar_good (numbers : GivesNumbers format) (call : Call F)
    (good : (opened frames).Good format) (fits : scalar format call frames = some next) :
    next.Good format := by
  unfold scalar at fits
  split at fits
  next => cases fits
  next word value isScalar =>
    obtain ⟨started, starts, rfl⟩ := Option.map_eq_some_iff.mp fits
    have around := before_good good starts
    have room := deep good
    rw [← before_length starts] at room
    exact put_good around room (.scalar call word value isScalar) (scalar_means numbers isScalar _)

theorem step_good (numbers : GivesNumbers format) (good : sofar.Good format)
    (fits : sofar.step format call = some next) : next.Good format := by
  cases sofar with
  | closed => cases fits
  | opened frames =>
    cases call with
    | start kind =>
      simp only [step] at fits
      split at fits
      next room =>
        obtain ⟨started, starts, rfl⟩ := Option.map_eq_some_iff.mp fits
        have around := before_good good starts
        rw [← before_length starts] at room
        exact ⟨fun _ => rfl, Frame.new_good kind _, around, room⟩
      next => cases fits
    | finish kind =>
      cases frames with
      | nil => cases fits
      | cons top outer =>
        simp only [step] at fits
        split at fits
        next complete =>
          cases fits
          obtain ⟨rfl, complete⟩ := complete
          obtain ⟨_, good, around, room⟩ := good
          obtain ⟨described, means⟩ := container_good good complete
          apply put_good around (Nat.le_of_lt room) described
          have bound : jsonEncoderMaxDepth = 63 := rfl
          exact means.mono (by omega)
        next => cases fits
    | key text =>
      cases frames with
      | nil => cases fits
      | cons top outer =>
        obtain ⟨named, isNamed, rfl⟩ := Option.map_eq_some_iff.mp fits
        obtain ⟨_, good, around, room⟩ := good
        obtain ⟨isObject, good⟩ := Frame.key_good good isNamed
        refine ⟨fun isArray => ?_, good, around, room⟩
        rw [isObject] at isArray
        cases isArray
    | string text => exact scalar_good numbers (.string text) good fits
    | i64 value => exact scalar_good numbers (.i64 value) good fits
    | f64 value => exact scalar_good numbers (.f64 value) good fits
    | bool value => exact scalar_good numbers (.bool value) good fits
    | null => exact scalar_good numbers .null good fits

def wholeCalls : List (Frame F) → List (Call F)
  | [] => []
  | top :: outer => wholeCalls outer ++ .start top.kind :: top.calls

def calls : Outline F → List (Call F)
  | opened frames => wholeCalls frames
  | closed calls _ _ => calls

theorem put_calls (calls : List (Call F)) (word : List UInt8) (value : Value)
    (frames : List (Frame F)) :
    (put calls word value frames).calls = wholeCalls frames ++ calls := by
  cases frames with
  | nil => rfl
  | cons top outer => simp [put, Outline.calls, wholeCalls, Frame.after]

theorem before_calls (starts : before frames = some started) :
    wholeCalls started = wholeCalls frames := by
  cases frames with
  | nil =>
    cases starts
    rfl
  | cons top outer =>
    obtain ⟨top', topStarts, rfl⟩ := Option.map_eq_some_iff.mp starts
    unfold Frame.before at topStarts
    split at topStarts
    next =>
      cases topStarts
      rfl
    next =>
      split at topStarts
      next =>
        cases topStarts
        rfl
      next => cases topStarts

variable (format) in
theorem scalar_calls (call : Call F) (fits : scalar format call frames = some next) :
    next.calls = wholeCalls frames ++ [call] := by
  unfold scalar at fits
  split at fits
  next => cases fits
  next word value isScalar =>
    obtain ⟨started, starts, rfl⟩ := Option.map_eq_some_iff.mp fits
    rw [put_calls, before_calls starts]

theorem step_calls (fits : sofar.step format call = some next) :
    next.calls = sofar.calls ++ [call] := by
  cases sofar with
  | closed => cases fits
  | opened frames =>
    cases call with
    | start kind =>
      simp only [step] at fits
      split at fits
      next =>
        obtain ⟨started, starts, rfl⟩ := Option.map_eq_some_iff.mp fits
        simp only [Outline.calls, wholeCalls, before_calls starts, Frame.new]
      next => cases fits
    | finish kind =>
      cases frames with
      | nil => cases fits
      | cons top outer =>
        simp only [step] at fits
        split at fits
        next complete =>
          cases fits
          obtain ⟨rfl, _⟩ := complete
          rw [put_calls]
          simp only [Outline.calls, wholeCalls, List.append_assoc, List.cons_append]
        next => cases fits
    | key text =>
      cases frames with
      | nil => cases fits
      | cons top outer =>
        obtain ⟨named, isNamed, rfl⟩ := Option.map_eq_some_iff.mp fits
        unfold Frame.key at isNamed
        split at isNamed
        next => cases isNamed
        next =>
          split at isNamed
          next =>
            cases isNamed
            simp only [Outline.calls, wholeCalls, List.append_assoc, List.cons_append]
          next => cases isNamed
    | string text => exact scalar_calls format (.string text) fits
    | i64 value => exact scalar_calls format (.i64 value) fits
    | f64 value => exact scalar_calls format (.f64 value) fits
    | bool value => exact scalar_calls format (.bool value) fits
    | null => exact scalar_calls format .null fits

end Outline

theorem outline_snoc (calls : List (Call F)) (call : Call F) :
    outline format (calls ++ [call]) =
      (outline format calls).bind fun sofar => sofar.step format call := by
  simp only [outline, List.foldlM_append, List.foldlM_cons, List.foldlM_nil]
  exact Option.bind_congr fun sofar _ => Option.bind_fun_some _

theorem outline_good (numbers : GivesNumbers format) (calls : List (Call F)) (result : Outline F)
    (fits : outline format calls = some result) : result.Good format ∧ result.calls = calls := by
  induction calls using List.reverseRecOn generalizing result with
  | nil =>
    cases fits
    exact ⟨trivial, rfl⟩
  | append_singleton calls call ih =>
    rw [outline_snoc] at fits
    obtain ⟨sofar, before, last⟩ := Option.bind_eq_some_iff.mp fits
    obtain ⟨good, same⟩ := ih sofar before
    rw [← same]
    exact ⟨Outline.step_good numbers good last, Outline.step_calls last⟩

end

end Aholyc.Json
