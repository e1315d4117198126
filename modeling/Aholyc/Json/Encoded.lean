import Aholyc.Json.Outline

/-!
# What the encoder writes

Call by call the encoder keeps up with the outline of the calls: its three words of
bits are the containers that are open, and the buffer holds the outline's text as
far as there is room. Where the outline ends, the encoder has reported an error, and
it stays with it.
-/

namespace Aholyc.Json

open Aholyc.Lib.Scanner Aholyc.Text

variable {put : CJsonEncoder → CJsonEncoder}

namespace CJsonEncoder

/-! ## Writing -/

def stack (encoder : CJsonEncoder) : Nat × BitVec 64 × BitVec 64 × BitVec 64 × Bool :=
  (encoder.depth, encoder.objectBits, encoder.commaBits, encoder.valueBits, encoder.rootWritten)

/-- `text` was written into a buffer of `room` bytes, or counted. -/
structure Buffered (room : Option Nat) (text : List UInt8) (encoder : CJsonEncoder) : Prop where
  length : encoder.length = text.length
  counted : room = none → encoder.data = none ∧ encoder.error = .ok
  stored : ∀ capacity, room = some capacity → encoder.capacity = capacity ∧
    encoder.error = (if text.length < capacity then .ok else .noSpace) ∧
      ∃ data, encoder.data = some data ∧ data.length = capacity ∧
        (text.length < capacity → data.take text.length = text)

/-- A function that writes `text` and does nothing else. -/
structure Writes (put : CJsonEncoder → CJsonEncoder) (text : List UInt8) : Prop where
  stack : ∀ encoder, (put encoder).stack = encoder.stack
  fatal : ∀ encoder, (put encoder).fatal = encoder.fatal
  outside : ∀ encoder, (put encoder).outside = encoder.outside
  buffered : ∀ room sofar encoder, Buffered room sofar encoder →
    Buffered room (sofar ++ text) (put encoder)

theorem Writes.then {first second : CJsonEncoder → CJsonEncoder} {one two : List UInt8}
    (writes₁ : Writes first one) (writes₂ : Writes second two) :
    Writes (fun encoder => second (first encoder)) (one ++ two) where
  stack encoder := (writes₂.stack _).trans (writes₁.stack encoder)
  fatal encoder := (writes₂.fatal _).trans (writes₁.fatal encoder)
  outside encoder := (writes₂.outside _).trans (writes₁.outside encoder)
  buffered room sofar encoder buffered := by
    rw [← List.append_assoc]
    exact writes₂.buffered room _ _ (writes₁.buffered room sofar encoder buffered)

variable {text : List UInt8} {level : Nat}

theorem Writes.fields (writes : Writes put text) (encoder : CJsonEncoder) :
    (put encoder).depth = encoder.depth ∧ (put encoder).objectBits = encoder.objectBits ∧
      (put encoder).commaBits = encoder.commaBits ∧ (put encoder).valueBits = encoder.valueBits ∧
      (put encoder).rootWritten = encoder.rootWritten := by
  have same := writes.stack encoder
  simp only [CJsonEncoder.stack, Prod.mk.injEq] at same
  exact same

theorem overflow_count (encoder : CJsonEncoder) (bytes : Nat) :
    encoder.overflow.count bytes = { encoder with
      error := if encoder.error = .ok then .noSpace else encoder.error
      length := encoder.length + bytes } := by
  unfold overflow
  split
  next => rfl
  next => rfl

theorem write_inside {start : Nat} {encoder : CJsonEncoder} {data : List UInt8}
    (isData : encoder.data = some data) (inside : start + text.length ≤ encoder.capacity) :
    encoder.write start text = { encoder with
      data := some (data.take start ++ text ++ data.drop (start + text.length)) } := by
  simp only [write, isData, if_pos inside]

theorem putBytes_none (text : List UInt8) {encoder : CJsonEncoder} (isNone : encoder.data = none) :
    putBytes text encoder = encoder.count text.length := by
  simp [putBytes, isNone]

theorem putBytes_nil (encoder : CJsonEncoder) : putBytes [] encoder = encoder := by
  unfold putBytes
  split
  next => simp [count]
  next => simp [count]

theorem putBytes_fits {data : List UInt8} {encoder : CJsonEncoder}
    (isData : encoder.data = some data) (room : encoder.length + text.length < encoder.capacity) :
    putBytes text encoder = { encoder with
      data := some (data.take encoder.length ++ text ++
        data.drop (encoder.length + text.length))
      length := encoder.length + text.length } := by
  cases text with
  | nil =>
    rw [putBytes_nil, List.append_nil, List.length_nil, Nat.add_zero, List.take_append_drop,
      ← isData]
  | cons first rest =>
    rw [List.length_cons] at room
    simp only [putBytes, isData, Option.isSome_some, if_true]
    rw [if_pos (by omega : 0 < encoder.capacity ∧ encoder.length < encoder.capacity - 1)]
    have positive : 0 < (first :: rest).length := Nat.succ_pos _
    have available : min (first :: rest).length (encoder.capacity - 1 - encoder.length) =
        (first :: rest).length := by
      rw [List.length_cons]
      omega
    rw [available, if_neg (Nat.lt_irrefl _), List.take_length, if_pos positive,
      write_inside isData (by rw [List.length_cons]; omega)]
    rfl

theorem putBytes_cut {data : List UInt8} {encoder : CJsonEncoder}
    (isData : encoder.data = some data) (noRoom : ¬encoder.length + text.length < encoder.capacity)
    (some : text ≠ []) :
    ∃ copied, putBytes text encoder = { encoder with
        data := Option.some copied
        error := if encoder.error = .ok then .noSpace else encoder.error
        length := encoder.length + text.length } ∧
      (data.length = encoder.capacity → copied.length = encoder.capacity) := by
  have positive := List.length_pos_of_ne_nil some
  simp only [putBytes, isData, Option.isSome_some, if_true]
  generalize isCopy : min text.length (if 0 < encoder.capacity ∧
    encoder.length < encoder.capacity - 1 then encoder.capacity - 1 - encoder.length else 0) = copy
  have short : copy < text.length := by
    rw [← isCopy]
    split
    next => omega
    next => omega
  have bound : 0 < copy → encoder.length + copy ≤ encoder.capacity := by
    rw [← isCopy]
    split
    next => omega
    next => omega
  rw [if_pos short]
  split
  next copies =>
    have inside : encoder.length + (text.take copy).length ≤ encoder.capacity := by
      rw [List.length_take]
      have bound := bound copies
      omega
    rw [write_inside isData inside, overflow_count]
    refine ⟨_, rfl, ?_⟩
    intro full
    simp only [List.length_append, List.length_take, List.length_drop] at inside ⊢
    omega
  next =>
    refine ⟨data, ?_, fun full => full⟩
    rw [overflow_count, ← isData]

theorem putByte_eq (byte : UInt8) (encoder : CJsonEncoder) :
    putByte byte encoder = putBytes [byte] encoder := by
  cases isData : encoder.data with
  | none => simp [putByte, putBytes, isData]
  | some data =>
    simp only [putByte, putBytes, isData, Option.isSome_some, if_true, List.length_singleton]
    by_cases room : 0 < encoder.capacity ∧ encoder.length < encoder.capacity - 1
    · have one : min 1 (encoder.capacity - 1 - encoder.length) = 1 := by omega
      rw [if_pos room, if_pos room, one]
      rfl
    · rw [if_neg room, if_neg room]
      rfl

theorem putBytes_cases (text : List UInt8) (encoder : CJsonEncoder) :
    ∃ data error, putBytes text encoder =
        { encoder with data := data, error := error, length := encoder.length + text.length } ∧
      (error = encoder.error ∨ encoder.error = .ok ∧ error = .noSpace) := by
  cases isData : encoder.data with
  | none => exact ⟨none, encoder.error, by rw [putBytes_none text isData, ← isData]; rfl, Or.inl rfl⟩
  | some data =>
    by_cases room : encoder.length + text.length < encoder.capacity
    · exact ⟨_, _, putBytes_fits isData room, Or.inl rfl⟩
    by_cases isNil : text = []
    · subst isNil
      exact ⟨encoder.data, encoder.error, putBytes_nil encoder, Or.inl rfl⟩
    · obtain ⟨copied, isCut, full⟩ := putBytes_cut isData room isNil
      refine ⟨_, _, isCut, ?_⟩
      split
      next ok => exact Or.inr ⟨ok, rfl⟩
      next => exact Or.inl rfl

theorem putBytes_writes (text : List UInt8) : Writes (putBytes text) text where
  stack encoder := by
    obtain ⟨data, error, same, _⟩ := putBytes_cases text encoder
    rw [same]
    rfl
  fatal encoder := by
    obtain ⟨data, error, same, kept | ⟨ok, noSpace⟩⟩ := putBytes_cases text encoder
    · rw [same, kept]
      rfl
    · simp [same, fatal, ok, noSpace]
  outside encoder := by
    obtain ⟨data, error, same, _⟩ := putBytes_cases text encoder
    rw [same]
  buffered room sofar encoder buffered := by
    have length := buffered.length
    refine ⟨?_, ?_, ?_⟩
    · obtain ⟨data, error, same, _⟩ := putBytes_cases text encoder
      rw [same, List.length_append, ← length]
    · intro isNone
      obtain ⟨noData, ok⟩ := buffered.counted isNone
      rw [putBytes_none text noData]
      exact ⟨noData, ok⟩
    · intro capacity isSome
      obtain ⟨rfl, error, data, isData, full, kept⟩ := buffered.stored capacity isSome
      rw [List.length_append, ← length]
      by_cases fits : encoder.length + text.length < encoder.capacity
      · have before : sofar.length < encoder.capacity := by omega
        rw [putBytes_fits isData fits, if_pos fits]
        rw [if_pos before] at error
        refine ⟨rfl, error, _, rfl, ?_, ?_⟩
        · simp only [List.length_append, List.length_take, List.length_drop]
          omega
        · intro _
          rw [length, kept before]
          exact List.take_left' (by rw [List.length_append])
      · by_cases isNil : text = []
        · subst isNil
          rw [putBytes_nil, List.append_nil, List.length_nil, Nat.add_zero, length]
          exact ⟨rfl, error, data, isData, full, kept⟩
        obtain ⟨copied, isCut, full'⟩ := putBytes_cut isData fits isNil
        rw [isCut, if_neg fits]
        refine ⟨rfl, ?_, copied, rfl, full' full, fun less => absurd less fits⟩
        show (if encoder.error = .ok then _ else encoder.error) = _
        rw [error]
        split
        next => rfl
        next => rfl

theorem putByte_writes (byte : UInt8) : Writes (putByte byte) [byte] := by
  have same : putByte byte = putBytes [byte] := funext (putByte_eq byte)
  rw [same]
  exact putBytes_writes [byte]

/-- The loop writes a run of bytes that stand for themselves when it comes to one that
does not, and at the end. -/
theorem quoteLoop_writes (text run : List UInt8) :
    Writes (quoteLoop run text) (run ++ text.flatMap escapeByte) := by
  induction text generalizing run with
  | nil =>
    rw [List.flatMap_nil, List.append_nil]
    exact putBytes_writes run
  | cons ch text ih =>
    have special {put : CJsonEncoder → CJsonEncoder} {word : List UInt8} (writes : Writes put word)
        (isWord : escapeByte ch = word) :
        Writes (fun encoder => quoteLoop [] text (put (putBytes run encoder)))
          (run ++ (ch :: text).flatMap escapeByte) := by
      rw [List.flatMap_cons, isWord, ← List.append_assoc]
      exact ((putBytes_writes run).then writes).then (ih [])
    have whole : quoteLoop run (ch :: text) = fun encoder => quoteLoop run (ch :: text) encoder := rfl
    rw [whole]
    by_cases quoted : ch = byte '"' ∨ ch = byte '\\'
    · simp only [quoteLoop, if_pos quoted]
      exact special ((putByte_writes _).then (putByte_writes ch)) (if_pos quoted)
    by_cases isB : ch = 8
    · simp only [quoteLoop, if_neg quoted, if_pos isB]
      exact special (putBytes_writes _) (by simp only [escapeByte, if_neg quoted, if_pos isB])
    by_cases isF : ch = 12
    · simp only [quoteLoop, if_neg quoted, if_neg isB, if_pos isF]
      exact special (putBytes_writes _) (by simp only [escapeByte, if_neg quoted, if_neg isB, if_pos isF])
    by_cases isN : ch = 10
    · simp only [quoteLoop, if_neg quoted, if_neg isB, if_neg isF, if_pos isN]
      exact special (putBytes_writes _) (by simp only [escapeByte, if_neg quoted, if_neg isB, if_neg isF, if_pos isN])
    by_cases isR : ch = 13
    · simp only [quoteLoop, if_neg quoted, if_neg isB, if_neg isF, if_neg isN, if_pos isR]
      exact special (putBytes_writes _) (by simp only [escapeByte, if_neg quoted, if_neg isB, if_neg isF, if_neg isN, if_pos isR])
    by_cases isT : ch = 9
    · simp only [quoteLoop, if_neg quoted, if_neg isB, if_neg isF, if_neg isN, if_neg isR, if_pos isT]
      exact special (putBytes_writes _) (by simp only [escapeByte, if_neg quoted, if_neg isB, if_neg isF, if_neg isN, if_neg isR, if_pos isT])
    by_cases control : ch < 0x20
    · simp only [quoteLoop, if_neg quoted, if_neg isB, if_neg isF, if_neg isN, if_neg isR, if_neg isT, if_pos control]
      exact special (((putBytes_writes _).then (putByte_writes _)).then (putByte_writes _))
        (by simp only [escapeByte, if_neg quoted, if_neg isB, if_neg isF, if_neg isN, if_neg isR, if_neg isT, if_pos control]; rfl)
    simp only [quoteLoop, if_neg quoted, if_neg isB, if_neg isF, if_neg isN, if_neg isR, if_neg isT, if_neg control]
    have plain : escapeByte ch = [ch] := by
      simp only [escapeByte, if_neg quoted, if_neg isB, if_neg isF, if_neg isN, if_neg isR, if_neg isT, if_neg control]
    rw [List.flatMap_cons, plain, ← List.append_assoc]
    exact ih (run ++ [ch])

theorem quoteUnchecked_writes (text : List UInt8) : Writes (quoteUnchecked text) (quote text) := by
  have inner := (putByte_writes (byte '"')).then (quoteLoop_writes text [])
  exact inner.then (putByte_writes (byte '"'))

theorem comma_writes (comma : Bool) :
    Writes (fun encoder => if comma then putByte (byte ',') encoder else encoder)
      (if comma then bytes "," else []) := by
  cases comma with
  | true => exact putByte_writes (byte ',')
  | false =>
    refine ⟨fun _ => rfl, fun _ => rfl, fun _ => rfl, ?_⟩
    intro room sofar encoder buffered
    rw [if_neg Bool.false_ne_true, List.append_nil]
    exact buffered

theorem Buffered.notFatal {room : Option Nat} {encoder : CJsonEncoder}
    (buffered : Buffered room text encoder) : encoder.fatal = false := by
  cases room with
  | none =>
    have ok := (buffered.counted rfl).2
    simp [fatal, ok]
  | some capacity =>
    have error := (buffered.stored capacity rfl).2.1
    unfold fatal
    rw [error]
    split
    next => rfl
    next => rfl

/-! ## The bits of a level -/

theorem getLsbD_bit (deep : level < 64) (other : Nat) :
    (1#64 <<< level).getLsbD other = decide (other = level) := by
  rw [BitVec.getLsbD_shiftLeft]
  by_cases same : other = level
  · subst same
    simp [deep]
  · by_cases less : other < level
    · simp [less, same]
    · have positive : other - level ≠ 0 := by omega
      simp [positive, same]

theorem has_bit (deep : level < 64) (bits : BitVec 64) :
    has bits (1#64 <<< level) = bits.getLsbD level := by
  cases bit : bits.getLsbD level with
  | true =>
    have set : bits &&& 1#64 <<< level ≠ 0#64 := by
      intro none
      have zero := congrArg (BitVec.getLsbD · level) none
      simp only [BitVec.getLsbD_and, bit, getLsbD_bit deep, BitVec.getLsbD_zero] at zero
      simp at zero
    simp [has, set]
  | false =>
    have clear : bits &&& 1#64 <<< level = 0#64 := by
      apply BitVec.eq_of_getLsbD_eq
      intro other inside
      rw [BitVec.getLsbD_and, getLsbD_bit deep, BitVec.getLsbD_zero]
      by_cases same : other = level
      · rw [same, bit]
        rfl
      · simp [same]
    simp [has, clear]

theorem getLsbD_set (deep : level < 64) (bits : BitVec 64) (other : Nat) :
    (bits ||| 1#64 <<< level).getLsbD other = (bits.getLsbD other || decide (other = level)) := by
  rw [BitVec.getLsbD_or, getLsbD_bit deep]

theorem getLsbD_clear (deep : level < 64) (bits : BitVec 64) (other : Nat) :
    (bits &&& ~~~(1#64 <<< level)).getLsbD other = (bits.getLsbD other && !decide (other = level)) := by
  rw [BitVec.getLsbD_and, BitVec.getLsbD_not, getLsbD_bit deep]
  cases bit : bits.getLsbD other with
  | false => rfl
  | true =>
    have inside : other < 64 := BitVec.lt_of_getLsbD bit
    simp [inside]

end CJsonEncoder

open CJsonEncoder

/-! ## Keeping up with the outline -/

section

variable {F : Type} {format : F → List UInt8} {room : Option Nat}

def Level (encoder : CJsonEncoder) (level : Nat) (object comma value : Bool) : Prop :=
  encoder.objectBits.getLsbD level = object ∧ encoder.commaBits.getLsbD level = comma ∧
    encoder.valueBits.getLsbD level = value

def Around (encoder : CJsonEncoder) : List (Frame F) → Prop
  | [] => True
  | frame :: outer =>
      Level encoder outer.length (frame.kind = .object) true false ∧ Around encoder outer

def Levels (encoder : CJsonEncoder) : List (Frame F) → Prop
  | [] => True
  | top :: outer =>
      Level encoder outer.length (top.kind = .object) (!top.items.isEmpty) top.slot.isSome ∧
        (top.kind = .array → top.slot = none) ∧ Around encoder outer

def KeepsUp (room : Option Nat) (encoder : CJsonEncoder) : Outline F → Prop
  | .opened frames =>
      encoder.depth = frames.length ∧ frames.length ≤ jsonEncoderMaxDepth ∧
        encoder.rootWritten = !frames.isEmpty ∧ Levels encoder frames ∧
          Buffered room (Outline.whole frames) encoder
  | .closed _ word _ =>
      encoder.depth = 0 ∧ encoder.rootWritten = true ∧ Buffered room word encoder

def Fails (result : Bool × CJsonEncoder) : Prop := result.1 = false ∧ result.2.fatal = true

theorem setError_fails {error : JsonEncodeError} (encoder : CJsonEncoder) (notOk : error ≠ .ok)
    (notSpace : error ≠ .noSpace) : Fails (false, encoder.setError error) := by
  refine ⟨rfl, ?_⟩
  unfold setError
  split
  next => simp [fatal, notOk, notSpace]
  next stays =>
    rw [not_or] at stays
    simp [fatal, stays.1, stays.2]

variable {frames : List (Frame F)} {calls : List (Call F)} {word : List UInt8} {value : Value}

theorem Around.same {encoder other : CJsonEncoder} (around : Around encoder frames)
    (same : ∀ level < frames.length, other.objectBits.getLsbD level = encoder.objectBits.getLsbD level ∧
      other.commaBits.getLsbD level = encoder.commaBits.getLsbD level ∧
      other.valueBits.getLsbD level = encoder.valueBits.getLsbD level) : Around other frames := by
  induction frames with
  | nil => trivial
  | cons frame outer ih =>
    obtain ⟨⟨object, comma, value⟩, around⟩ := around
    obtain ⟨object', comma', value'⟩ := same outer.length (Nat.lt_succ_self _)
    refine ⟨⟨object'.trans object, comma'.trans comma, value'.trans value⟩, ih around ?_⟩
    intro level less
    exact same level (Nat.lt_succ_of_lt less)

/-- A value starts: the comma before it is written, its place is taken. -/
theorem beforeValue_keeps {encoder : CJsonEncoder} (keeps : KeepsUp room encoder (.opened frames)) :
    (Outline.before frames = none → Fails encoder.beforeValue) ∧
    ∀ started, Outline.before frames = some started →
      ∃ next, encoder.beforeValue = (true, next) ∧ next.depth = frames.length ∧
        next.rootWritten = true ∧ Around next started ∧ Buffered room (Outline.whole started) next := by
  obtain ⟨depth, deep, root, levels, buffered⟩ := keeps
  have notFatal := buffered.notFatal
  have bound : jsonEncoderMaxDepth = 63 := rfl
  cases frames with
  | nil =>
    refine ⟨fun lost => absurd lost (Option.some_ne_none _), ?_⟩
    intro started starts
    cases starts
    refine ⟨{ encoder with rootWritten := true }, ?_, depth, rfl, trivial, buffered.length,
      buffered.counted, buffered.stored⟩
    unfold beforeValue
    rw [notFatal, depth, root]
    rfl
  | cons top outer =>
    obtain ⟨⟨object, comma, value⟩, array, around⟩ := levels
    rw [List.length_cons] at depth deep
    have level : outer.length < 64 := by omega
    have bit : encoder.levelBit = 1#64 <<< outer.length := by rw [levelBit, depth]; rfl
    have notRoot : ¬encoder.depth = 0 := by omega
    unfold beforeValue
    rw [notFatal, if_neg Bool.false_ne_true, if_neg notRoot, bit]
    simp only [has_bit level, object, comma, value]
    cases isKind : top.kind with
    | array =>
      have starts : Outline.before (top :: outer) =
          some ({ top with body := top.body ++ top.lead, slot := some [] } :: outer) := by
        simp [Outline.before, Frame.before, isKind]
      have writes := comma_writes (!top.items.isEmpty)
      obtain ⟨depth', object', comma', value', root'⟩ := writes.fields encoder
      have buffered' := writes.buffered room _ encoder buffered
      have text : Outline.whole (top :: outer) ++ (if !top.items.isEmpty then bytes "," else []) =
          Outline.whole ({ top with body := top.body ++ top.lead, slot := some [] } :: outer) := by
        rw [Outline.whole, Outline.whole, List.append_assoc, Frame.lead]
        cases top.items.isEmpty with
        | true => rfl
        | false => rfl
      rw [text] at buffered'
      refine ⟨fun lost => absurd (starts.symm.trans lost) (Option.some_ne_none _), ?_⟩
      intro started isStarted
      rw [starts] at isStarted
      cases isStarted
      have notFatal' := buffered'.notFatal
      generalize (if (!top.items.isEmpty) = true then putByte (byte ',') encoder else encoder) = next at *
      refine ⟨{ next with commaBits := next.commaBits ||| 1#64 <<< outer.length }, ?_, ?_, ?_, ?_, ?_⟩
      · simp only [reduceCtorEq, decide_false, Bool.false_eq_true, if_false, Prod.mk.injEq, and_true,
          Bool.not_eq_true']
        exact notFatal'
      · exact depth'.trans depth
      · rw [root', root]
        rfl
      · refine ⟨⟨?_, ?_, ?_⟩, around.same ?_⟩
        · rw [object', object]
        · rw [getLsbD_set level, decide_eq_true rfl, Bool.or_true]
        · rw [value', value, array isKind]
          rfl
        · intro other less
          rw [object', value', getLsbD_set level, comma', decide_eq_false (by omega), Bool.or_false]
          exact ⟨rfl, rfl, rfl⟩
      · exact ⟨buffered'.length, buffered'.counted, buffered'.stored⟩
    | object =>
      cases isSlot : top.slot with
      | none =>
        have lost : Outline.before (top :: outer) = none := by
          simp [Outline.before, Frame.before, isKind, isSlot]
        refine ⟨fun _ => ?_, fun started starts =>
          absurd (lost.symm.trans starts) (Option.some_ne_none started).symm⟩
        exact setError_fails encoder (by decide) (by decide)
      | some name =>
        have starts : Outline.before (top :: outer) = some (top :: outer) := by
          simp [Outline.before, Frame.before, isKind, isSlot]
        refine ⟨fun lost => absurd (starts.symm.trans lost) (Option.some_ne_none _), ?_⟩
        intro started isStarted
        rw [starts] at isStarted
        cases isStarted
        refine ⟨{ encoder with
          valueBits := encoder.valueBits &&& ~~~(1#64 <<< outer.length)
          commaBits := encoder.commaBits ||| 1#64 <<< outer.length }, ?_, depth, ?_, ?_, ?_⟩
        · simp only [decide_true, if_true, Option.isSome_some, not_true_eq_false, if_false,
            Prod.mk.injEq, and_true, Bool.not_eq_true']
          exact notFatal
        · rw [root]
          rfl
        · refine ⟨⟨?_, ?_, ?_⟩, around.same ?_⟩
          · rw [object]
          · rw [getLsbD_set level, decide_eq_true rfl, Bool.or_true]
          · rw [getLsbD_clear level, decide_eq_true rfl]
            exact Bool.and_false _
          · intro other less
            rw [getLsbD_set level, getLsbD_clear level, decide_eq_false (by omega), Bool.or_false]
            exact ⟨rfl, rfl, Bool.and_true _⟩
        · exact ⟨buffered.length, buffered.counted, buffered.stored⟩

theorem put_keeps {next : CJsonEncoder} (depth : next.depth = frames.length)
    (deep : frames.length ≤ jsonEncoderMaxDepth) (root : next.rootWritten = true)
    (around : Around next frames) (buffered : Buffered room (Outline.whole frames ++ word) next) :
    KeepsUp room next (Outline.put calls word value frames) := by
  cases frames with
  | nil => exact ⟨depth, root, buffered⟩
  | cons top outer =>
    obtain ⟨⟨object, comma, value⟩, around⟩ := around
    refine ⟨depth, deep, root, ⟨⟨object, ?_, value⟩, fun _ => rfl, around⟩, ?_⟩
    · rw [comma]
      simp [Frame.after]
    · rw [Outline.whole, List.append_assoc] at buffered
      exact buffered

/-- The encoder after a call, where the outline goes on, or has failed where it is lost. -/
def StepKeeps (room : Option Nat) (result : Bool × CJsonEncoder) : Option (Outline F) → Prop
  | none => Fails result
  | some next => KeepsUp room result.2 next

theorem encodeValue_fails {encoder : CJsonEncoder} (fails : Fails encoder.beforeValue) :
    Fails (encodeValue put encoder) := by
  unfold encodeValue
  obtain ⟨isFalse, isFatal⟩ := fails
  cases before : encoder.beforeValue with
  | mk goesOn next =>
    rw [before] at isFalse isFatal
    simp only at isFalse
    rw [isFalse]
    exact ⟨rfl, isFatal⟩

theorem closed_fails {encoder : CJsonEncoder} (depth : encoder.depth = 0)
    (root : encoder.rootWritten = true) (notFatal : encoder.fatal = false) :
    Fails encoder.beforeValue := by
  unfold beforeValue
  rw [notFatal, if_neg Bool.false_ne_true, if_pos depth, if_pos root]
  exact setError_fails encoder (by decide) (by decide)

theorem scalar_keeps {encoder : CJsonEncoder} (keeps : KeepsUp room encoder (.opened frames))
    {call : Call F} (isScalar : call.scalar format = some (word, value)) (writes : Writes put word) :
    StepKeeps room (encodeValue put encoder) (Outline.scalar format call frames) := by
  obtain ⟨lost, goesOn⟩ := beforeValue_keeps keeps
  obtain ⟨_, deep, _⟩ := keeps
  unfold Outline.scalar
  rw [isScalar]
  cases starts : Outline.before frames with
  | none => exact encodeValue_fails (lost starts)
  | some started =>
    obtain ⟨next, before, depth, root, around, buffered⟩ := goesOn started starts
    have same := Outline.before_length starts
    obtain ⟨depth', object', comma', value', root'⟩ := writes.fields next
    show KeepsUp room (encodeValue put encoder).2 _
    rw [encodeValue, before]
    show KeepsUp room (put next) _
    apply put_keeps
    · exact (depth'.trans depth).trans same.symm
    · rwa [same]
    · exact root'.trans root
    · apply around.same
      intro level _
      rw [object', comma', value']
      exact ⟨rfl, rfl, rfl⟩
    · exact writes.buffered room _ next buffered

theorem start_keeps {encoder : CJsonEncoder} (kind : Kind)
    (keeps : KeepsUp room encoder (.opened frames)) :
    StepKeeps room (jsonEncodeStart kind encoder)
      (Outline.step format (.start kind) (.opened frames)) := by
  obtain ⟨lost, goesOn⟩ := beforeValue_keeps keeps
  have depth := keeps.1
  have bound : jsonEncoderMaxDepth = 63 := rfl
  unfold jsonEncodeStart Outline.step
  simp only [depth]
  by_cases deep : frames.length < jsonEncoderMaxDepth
  · rw [if_pos deep, if_neg (by omega)]
    cases starts : Outline.before frames with
    | none =>
      obtain ⟨isFalse, isFatal⟩ := lost starts
      cases before : encoder.beforeValue with
      | mk answer next =>
        rw [before] at isFalse isFatal
        simp only at isFalse
        rw [isFalse]
        exact ⟨rfl, isFatal⟩
    | some started =>
      obtain ⟨next, before, depth, root, around, buffered⟩ := goesOn started starts
      have same := Outline.before_length starts
      have writes := putByte_writes kind.opening
      obtain ⟨depth', object', comma', value', root'⟩ := writes.fields next
      have buffered' := writes.buffered room _ next buffered
      rw [before]
      have level : started.length < 64 := by omega
      have bit : ({ putByte kind.opening next with
          depth := (putByte kind.opening next).depth + 1 } : CJsonEncoder).levelBit =
          1#64 <<< started.length := by
        rw [levelBit, depth', depth, same]
        rfl
      simp only [Option.map_some, StepKeeps, answer, bit]
      refine ⟨?_, ?_, ?_, ⟨⟨?_, ?_, ?_⟩, fun _ => rfl, around.same ?_⟩, ?_⟩
      · rw [depth', depth, ← same]
        rfl
      · rw [List.length_cons, same]
        exact deep
      · rw [root', root]
        rfl
      · cases kind with
        | object => rw [getLsbD_set level, decide_eq_true rfl, Bool.or_true]; rfl
        | array => rw [getLsbD_clear level, decide_eq_true rfl]; exact Bool.and_false _
      · rw [getLsbD_clear level, decide_eq_true rfl]
        exact Bool.and_false _
      · rw [getLsbD_clear level, decide_eq_true rfl]
        exact Bool.and_false _
      · intro other less
        have apart : decide (other = started.length) = false := decide_eq_false (by omega)
        rw [getLsbD_clear level, getLsbD_clear level, apart, object', comma', value']
        refine ⟨?_, Bool.and_true _, Bool.and_true _⟩
        cases kind with
        | object => rw [getLsbD_set level, apart, Bool.or_false]
        | array => rw [getLsbD_clear level, apart]; exact Bool.and_true _
      · have text : Outline.whole started ++ [kind.opening] =
            Outline.whole (Frame.new kind :: started) := by
          rw [Outline.whole, Frame.new, List.append_nil]
        rw [text] at buffered'
        exact ⟨buffered'.length, buffered'.counted, buffered'.stored⟩
  · rw [if_neg deep, if_pos (by omega)]
    exact setError_fails encoder (by decide) (by decide)

/-- The end of a container, once the checks are passed. -/
theorem end_keeps {encoder next : CJsonEncoder} {top : Frame F} {outer : List (Frame F)}
    {kind : Kind} (isKind : top.kind = kind)
    (keeps : KeepsUp room encoder (.opened (top :: outer)))
    (depth : next.depth = encoder.depth - 1) (root : next.rootWritten = encoder.rootWritten)
    (below : ∀ level < outer.length,
      next.objectBits.getLsbD level = encoder.objectBits.getLsbD level ∧
      next.commaBits.getLsbD level = encoder.commaBits.getLsbD level ∧
      next.valueBits.getLsbD level = encoder.valueBits.getLsbD level)
    (buffered : Buffered room (Outline.whole (top :: outer) ++ [kind.closing]) next) :
    KeepsUp room next (Outline.put (.start kind :: top.calls ++ [.finish kind])
      ([kind.opening] ++ top.body ++ [kind.closing]) (.container kind top.items) outer) := by
  obtain ⟨depth', deep, root', ⟨_, _, around⟩, _⟩ := keeps
  rw [List.length_cons] at depth' deep
  apply put_keeps
  · omega
  · omega
  · exact root.trans root'
  · exact around.same below
  · rw [Outline.whole, isKind] at buffered
    simp only [List.append_assoc] at buffered ⊢
    exact buffered

theorem finish_keeps {encoder : CJsonEncoder} (kind : Kind)
    (keeps : KeepsUp room encoder (.opened frames)) :
    StepKeeps room (encodeCall format (.finish kind) encoder)
      (Outline.step format (.finish kind) (.opened frames)) := by
  have bound : jsonEncoderMaxDepth = 63 := rfl
  have keeps' := keeps
  obtain ⟨depth, deep, _, levels, buffered⟩ := keeps
  cases frames with
  | nil =>
    cases kind with
    | object =>
      simp only [encodeCall, jsonEncodeObjectEnd, if_pos (show encoder.depth = 0 from depth)]
      exact setError_fails encoder (by decide) (by decide)
    | array =>
      simp only [encodeCall, jsonEncodeArrayEnd, if_pos (show encoder.depth = 0 from depth)]
      exact setError_fails encoder (by decide) (by decide)
  | cons top outer =>
    obtain ⟨⟨object, comma, value⟩, array, around⟩ := levels
    rw [List.length_cons] at depth deep
    have level : outer.length < 64 := by omega
    have bit : encoder.levelBit = 1#64 <<< outer.length := by rw [levelBit, depth]; rfl
    have notRoot : ¬encoder.depth = 0 := by omega
    have apart (other : Nat) (less : other < outer.length) : decide (other = outer.length) = false :=
      decide_eq_false (by omega)
    cases kind with
    | object =>
      have writes := putByte_writes (byte '\x7d')
      obtain ⟨depth', object', comma', value', root'⟩ := writes.fields encoder
      have buffered' := writes.buffered room _ encoder buffered
      simp only [encodeCall, jsonEncodeObjectEnd, if_neg notRoot, bit, has_bit level, object, value,
        Outline.step]
      by_cases complete : top.kind = .object ∧ top.slot = none
      · rw [if_pos complete, if_neg (by simp [complete])]
        apply end_keeps complete.1 keeps'
        · exact congrArg (· - 1) depth'
        · exact root'
        · intro other less
          simp only [answer, getLsbD_clear level, apart other less, object', comma', value',
            Bool.not_false, Bool.and_true, and_self]
        · exact ⟨buffered'.length, buffered'.counted, buffered'.stored⟩
      · rw [if_neg complete, if_pos]
        · exact setError_fails encoder (by decide) (by decide)
        · by_contra both
          simp only [decide_eq_true_eq, not_or, not_not, Bool.not_eq_true, Option.isSome_eq_false_iff,
            Option.isNone_iff_eq_none] at both
          exact complete both
    | array =>
      have writes := putByte_writes (byte ']')
      obtain ⟨depth', object', comma', value', root'⟩ := writes.fields encoder
      have buffered' := writes.buffered room _ encoder buffered
      simp only [encodeCall, jsonEncodeArrayEnd, if_neg notRoot, bit, has_bit level, object,
        Outline.step]
      by_cases isArray : top.kind = .array
      · have complete : top.kind = .array ∧ top.slot = none := ⟨isArray, array isArray⟩
        rw [if_pos complete, if_neg (by simp [isArray])]
        apply end_keeps isArray keeps'
        · exact congrArg (· - 1) depth'
        · exact root'
        · intro other less
          simp only [answer, getLsbD_clear level, apart other less, object', comma', value',
            Bool.not_false, Bool.and_true, and_self]
        · exact ⟨buffered'.length, buffered'.counted, buffered'.stored⟩
      · have broken : ¬(top.kind = .array ∧ top.slot = none) := fun complete => isArray complete.1
        rw [if_neg broken, if_pos]
        · exact setError_fails encoder (by decide) (by decide)
        · cases isKind : top.kind with
          | object => rfl
          | array => exact absurd isKind isArray

theorem key_keeps {encoder : CJsonEncoder} (text : Text)
    (keeps : KeepsUp room encoder (.opened frames)) :
    StepKeeps room (jsonEncodeKeyN text encoder)
      (Outline.step format (.key text) (.opened frames)) := by
  obtain ⟨depth, deep, root, levels, buffered⟩ := keeps
  have notFatal := buffered.notFatal
  unfold jsonEncodeKeyN
  cases isBytes : text.bytes with
  | none =>
    have noName : text.name = none := by rw [Text.name, isBytes]; rfl
    have lost : Outline.step format (.key text) (.opened frames) = none := by
      cases frames with
      | nil => rfl
      | cons top outer => simp [Outline.step, Frame.key, noName]
    rw [lost]
    exact setError_fails encoder (by decide) (by decide)
  | some key =>
    simp only [notFatal, Bool.false_eq_true, if_false]
    by_cases valid : utf8Valid key = true
    · have isName : text.name = some key := by rw [Text.name, isBytes, Option.filter_some, if_pos valid]
      rw [if_neg (not_not.mpr valid)]
      cases frames with
      | nil =>
        rw [if_pos (show encoder.depth = 0 from depth)]
        exact setError_fails encoder (by decide) (by decide)
      | cons top outer =>
        obtain ⟨⟨object, comma, value⟩, array, around⟩ := levels
        have bound : jsonEncoderMaxDepth = 63 := rfl
        have depth' : encoder.depth = outer.length + 1 := depth
        rw [List.length_cons] at deep
        have level : outer.length < 64 := by omega
        have bit : encoder.levelBit = 1#64 <<< outer.length := by rw [levelBit, depth']; rfl
        simp only [bit, has_bit level, object, comma, value, Outline.step]
        rw [if_neg (by omega)]
        by_cases free : top.kind = .object ∧ top.slot = none
        · have writes := ((comma_writes (!top.items.isEmpty)).then (quoteUnchecked_writes key)).then
            (putByte_writes (byte ':'))
          have named : top.key text = some { top with
              calls := top.calls ++ [.key text]
              body := top.body ++ top.lead ++ quote key ++ bytes ":"
              slot := some key } := by
            simp only [Frame.key, isName, if_pos free]
          rw [if_neg (by simp [free]), named]
          have wholeText : Outline.whole (top :: outer) ++
              ((if !top.items.isEmpty then bytes "," else []) ++ quote key ++ [byte ':']) =
              Outline.whole ({ top with
                calls := top.calls ++ [.key text]
                body := top.body ++ top.lead ++ quote key ++ bytes ":"
                slot := some key } :: outer) := by
            simp only [Outline.whole, Frame.lead, List.append_assoc]
            cases top.items.isEmpty with
            | true => rfl
            | false => rfl
          obtain ⟨depth'', object', comma', value', root'⟩ := writes.fields encoder
          have buffered' := writes.buffered room _ encoder buffered
          rw [wholeText] at buffered'
          refine ⟨depth''.trans depth, deep, root'.trans root, ⟨⟨?_, ?_, ?_⟩, ?_, around.same ?_⟩,
            ⟨buffered'.length, buffered'.counted, buffered'.stored⟩⟩
          · simp only [answer, object', object]
          · simp only [answer, comma', comma]
          · simp only [answer, getLsbD_set level, decide_true, Bool.or_true, Option.isSome_some]
          · intro isArray
            rw [show top.kind = .array from isArray] at free
            cases free.1
          · intro other less
            have apart : decide (other = outer.length) = false := decide_eq_false (by omega)
            simp only [answer, getLsbD_set level, apart, object', comma', value', Bool.or_false,
              and_self]
        · have lost : top.key text = none := by simp only [Frame.key, isName, if_neg free]
          rw [lost, if_pos]
          · exact setError_fails encoder (by decide) (by decide)
          · by_contra both
            simp only [decide_eq_true_eq, not_or, not_not, Bool.not_eq_true,
              Option.isSome_eq_false_iff, Option.isNone_iff_eq_none] at both
            exact free both
    · have noName : text.name = none := by
        rw [Text.name, isBytes, Option.filter_some, if_neg valid]
      have lost : Outline.step format (.key text) (.opened frames) = none := by
        cases frames with
        | nil => rfl
        | cons top outer => simp [Outline.step, Frame.key, noName]
      rw [lost, if_pos valid]
      exact setError_fails encoder (by decide) (by decide)

/-- Where no value can start, no call is left that would succeed. -/
theorem encodeCall_fails {encoder : CJsonEncoder} (call : Call F) (before : Fails encoder.beforeValue)
    (done : encoder.fatal = true ∨ encoder.depth = 0) : Fails (encodeCall format call encoder) := by
  have answers (next : CJsonEncoder) (isFatal : next.fatal = true) : Fails (answer next) := by
    refine ⟨?_, isFatal⟩
    have notOk : next.error ≠ .ok := by
      intro ok
      simp [fatal, ok] at isFatal
    simp [answer, notOk]
  have ending (put : CJsonEncoder → CJsonEncoder) (word : List UInt8) (writes : Writes put word)
      (notRoot : ¬encoder.depth = 0) : (put encoder).fatal = true :=
    (writes.fatal encoder).trans (done.resolve_right notRoot)
  cases call with
  | start kind =>
    have start : Fails (jsonEncodeStart kind encoder) := by
      unfold jsonEncodeStart
      split
      next => exact setError_fails encoder (by decide) (by decide)
      next =>
        obtain ⟨isFalse, isFatal⟩ := before
        cases result : encoder.beforeValue with
        | mk goesOn next =>
          rw [result] at isFalse isFatal
          simp only at isFalse
          rw [isFalse]
          exact ⟨rfl, isFatal⟩
    cases kind with
    | object => exact start
    | array => exact start
  | finish kind =>
    cases kind with
    | object =>
      simp only [encodeCall, jsonEncodeObjectEnd]
      split
      next => exact setError_fails encoder (by decide) (by decide)
      next notRoot =>
        split
        next => exact setError_fails encoder (by decide) (by decide)
        next => exact answers _ (ending _ _ (putByte_writes _) notRoot)
    | array =>
      simp only [encodeCall, jsonEncodeArrayEnd]
      split
      next => exact setError_fails encoder (by decide) (by decide)
      next notRoot =>
        split
        next => exact setError_fails encoder (by decide) (by decide)
        next => exact answers _ (ending _ _ (putByte_writes _) notRoot)
  | key text =>
    simp only [encodeCall, jsonEncodeKeyN]
    split
    next => exact setError_fails encoder (by decide) (by decide)
    next =>
      split
      next isFatal => exact ⟨rfl, isFatal⟩
      next notFatal =>
        split
        next => exact setError_fails encoder (by decide) (by decide)
        next =>
          rw [if_pos (done.resolve_left notFatal)]
          exact setError_fails encoder (by decide) (by decide)
  | string text =>
    simp only [encodeCall, jsonEncodeStringN]
    split
    next => exact setError_fails encoder (by decide) (by decide)
    next =>
      split
      next => exact setError_fails encoder (by decide) (by decide)
      next => exact encodeValue_fails before
  | i64 value => exact encodeValue_fails before
  | f64 value =>
    simp only [encodeCall, jsonEncodeF64]
    split
    next => exact setError_fails encoder (by decide) (by decide)
    next => exact encodeValue_fails before
  | bool value => exact encodeValue_fails before
  | null => exact encodeValue_fails before

theorem fatal_fails {encoder : CJsonEncoder} (call : Call F) (isFatal : encoder.fatal = true) :
    Fails (encodeCall format call encoder) := by
  refine encodeCall_fails call ?_ (Or.inl isFatal)
  rw [beforeValue, if_pos isFatal]
  exact ⟨rfl, isFatal⟩

variable (format) in
theorem encodeCall_keeps {encoder : CJsonEncoder} {sofar : Outline F} (call : Call F)
    (keeps : KeepsUp room encoder sofar) :
    StepKeeps room (encodeCall format call encoder) (sofar.step format call) := by
  cases sofar with
  | closed calls word value =>
    obtain ⟨depth, root, buffered⟩ := keeps
    exact encodeCall_fails call (closed_fails depth root buffered.notFatal) (Or.inr depth)
  | opened frames =>
    cases call with
    | start kind =>
      cases kind with
      | object => exact start_keeps .object keeps
      | array => exact start_keeps .array keeps
    | finish kind => exact finish_keeps kind keeps
    | key text => exact key_keeps text keeps
    | string text =>
      show StepKeeps room (jsonEncodeStringN text encoder) (Outline.scalar format (.string text) frames)
      unfold jsonEncodeStringN
      cases isBytes : text.bytes with
      | none =>
        have lost : Outline.scalar format (.string text) frames = none := by
          simp [Outline.scalar, Call.scalar, isBytes]
        rw [lost]
        exact setError_fails encoder (by decide) (by decide)
      | some contents =>
        by_cases valid : utf8Valid contents = true
        · have isScalar : (Call.string text).scalar format =
              some (quote contents, .string contents) := by
            simp [Call.scalar, isBytes, valid]
          simp only [valid, not_true_eq_false, if_false]
          exact scalar_keeps keeps isScalar (quoteUnchecked_writes contents)
        · have lost : Outline.scalar format (.string text) frames = none := by
            simp [Outline.scalar, Call.scalar, isBytes, valid]
          rw [lost]
          simp only [valid]
          exact setError_fails encoder (by decide) (by decide)
    | i64 value =>
      have text : (if value = Int64.minValue then bytes "-9223372036854775808"
          else decimal value.toInt) = bytes (toString value.toInt) := by
        split
        next isMin =>
          rw [isMin]
          decide +kernel
        next =>
          apply decimal_toString
          have high := Int64.toInt_lt value
          have low := Int64.le_toInt value
          omega
      have isScalar : (Call.i64 value).scalar format =
          some (bytes (toString value.toInt), .number (bytes (toString value.toInt))) := rfl
      show StepKeeps room (jsonEncodeI64 value encoder) (Outline.scalar format (.i64 value) frames)
      rw [jsonEncodeI64, text]
      exact scalar_keeps keeps isScalar (putBytes_writes _)
    | f64 value =>
      show StepKeeps room (jsonEncodeF64 (format value) encoder)
        (Outline.scalar format (.f64 value) frames)
      unfold jsonEncodeF64
      by_cases isNone : noNumber (format value) = true
      · have lost : Outline.scalar format (.f64 value) frames = none := by
          simp [Outline.scalar, Call.scalar, isNone]
        rw [lost, if_pos isNone]
        exact setError_fails encoder (by decide) (by decide)
      · have isScalar : (Call.f64 value).scalar format =
            some (format value, .number (format value)) := by
          simp [Call.scalar, isNone]
        rw [if_neg isNone]
        exact scalar_keeps keeps isScalar (putBytes_writes _)
    | bool value =>
      have isScalar : (Call.bool value).scalar format =
          some (if value then bytes "true" else bytes "false", .bool value) := rfl
      exact scalar_keeps keeps isScalar (putBytes_writes _)
    | null =>
      have isScalar : (Call.null : Call F).scalar format = some (bytes "null", .null) := rfl
      exact scalar_keeps keeps isScalar (putBytes_writes _)

/-! ## Whole sequences -/

variable (format) in
theorem encodeCalls_snoc (calls : List (Call F)) (call : Call F) (encoder : CJsonEncoder) :
    encodeCalls format (calls ++ [call]) encoder =
      (encodeCall format call (encodeCalls format calls encoder)).2 := by
  rw [encodeCalls, List.foldl_append]
  rfl

theorem init_keeps (buffer : Option (List UInt8)) :
    KeepsUp (buffer.map List.length) (jsonEncoderInit buffer) (.opened [] : Outline F) := by
  refine ⟨rfl, Nat.zero_le _, rfl, trivial, rfl, ?_, ?_⟩
  · intro isNone
    rw [Option.map_eq_none_iff] at isNone
    rw [isNone]
    exact ⟨rfl, rfl⟩
  · intro capacity isSome
    obtain ⟨data, rfl, rfl⟩ := Option.map_eq_some_iff.mp isSome
    cases data with
    | nil => exact ⟨rfl, rfl, [], rfl, rfl, fun _ => rfl⟩
    | cons first rest => exact ⟨rfl, rfl, 0 :: rest, rfl, rfl, fun _ => rfl⟩

/-- The encoder behind a sequence: at its outline, or beyond its end with an error. -/
def RunKeeps (room : Option Nat) (encoder : CJsonEncoder) : Option (Outline F) → Prop
  | none => encoder.fatal = true
  | some result => KeepsUp room encoder result

variable (format) in
theorem encodeCalls_keeps (calls : List (Call F)) (buffer : Option (List UInt8)) :
    RunKeeps (buffer.map List.length) (encodeCalls format calls (jsonEncoderInit buffer))
      (outline format calls) := by
  induction calls using List.reverseRecOn with
  | nil => exact init_keeps buffer
  | append_singleton calls call ih =>
    rw [encodeCalls_snoc, outline_snoc]
    cases sofar : outline format calls with
    | none =>
      rw [sofar] at ih
      exact (fatal_fails call ih).2
    | some before =>
      rw [sofar] at ih
      have keeps := encodeCall_keeps format call ih
      rw [Option.bind_some]
      cases next : before.step format call with
      | none =>
        rw [next] at keeps
        exact keeps.2
      | some after =>
        rw [next] at keeps
        exact keeps

/-! ## Inside the buffer -/

theorem setError_outside (error : JsonEncodeError) (encoder : CJsonEncoder) :
    (encoder.setError error).outside = encoder.outside := by
  unfold setError
  split
  next => rfl
  next => rfl

theorem beforeValue_outside (encoder : CJsonEncoder) :
    encoder.beforeValue.2.outside = encoder.outside := by
  unfold beforeValue
  split
  next => rfl
  next =>
    split
    next =>
      split
      next => exact setError_outside _ _
      next => rfl
    next =>
      dsimp only
      split
      next =>
        split
        next => exact setError_outside _ _
        next => rfl
      next => exact (comma_writes _).outside encoder

theorem encodeValue_outside (writes : Writes put word) (encoder : CJsonEncoder) :
    (encodeValue put encoder).2.outside = encoder.outside := by
  have before := beforeValue_outside encoder
  unfold encodeValue
  split
  next next isNext =>
    rw [isNext] at before
    exact before
  next next isNext =>
    rw [isNext] at before
    exact (writes.outside next).trans before

/-- No call writes outside the buffer, whatever the state. -/
theorem encodeCall_outside (call : Call F) (encoder : CJsonEncoder) :
    (encodeCall format call encoder).2.outside = encoder.outside := by
  cases call with
  | start kind =>
    have start : (jsonEncodeStart kind encoder).2.outside = encoder.outside := by
      have before := beforeValue_outside encoder
      unfold jsonEncodeStart
      split
      next => exact setError_outside _ _
      next =>
        split
        next next isNext =>
          rw [isNext] at before
          exact before
        next next isNext =>
          rw [isNext] at before
          exact ((putByte_writes kind.opening).outside next).trans before
    cases kind with
    | object => exact start
    | array => exact start
  | finish kind =>
    cases kind with
    | object =>
      simp only [encodeCall, jsonEncodeObjectEnd]
      split
      next => exact setError_outside _ _
      next =>
        split
        next => exact setError_outside _ _
        next => exact (putByte_writes _).outside encoder
    | array =>
      simp only [encodeCall, jsonEncodeArrayEnd]
      split
      next => exact setError_outside _ _
      next =>
        split
        next => exact setError_outside _ _
        next => exact (putByte_writes _).outside encoder
  | key text =>
    simp only [encodeCall, jsonEncodeKeyN]
    split
    next => exact setError_outside _ _
    next key _ =>
      split
      next => rfl
      next =>
        split
        next => exact setError_outside _ _
        next =>
          split
          next => exact setError_outside _ _
          next =>
            split
            next => exact setError_outside _ _
            next =>
              exact (((comma_writes _).then (quoteUnchecked_writes key)).then
                (putByte_writes _)).outside encoder
  | string text =>
    simp only [encodeCall, jsonEncodeStringN]
    split
    next => exact setError_outside _ _
    next contents _ =>
      split
      next => exact setError_outside _ _
      next => exact encodeValue_outside (quoteUnchecked_writes contents) encoder
  | i64 value => exact encodeValue_outside (putBytes_writes _) encoder
  | f64 value =>
    simp only [encodeCall, jsonEncodeF64]
    split
    next => exact setError_outside _ _
    next => exact encodeValue_outside (putBytes_writes _) encoder
  | bool value => exact encodeValue_outside (putBytes_writes _) encoder
  | null => exact encodeValue_outside (putBytes_writes _) encoder

theorem encodeCalls_outside (calls : List (Call F)) (encoder : CJsonEncoder) :
    (encodeCalls format calls encoder).outside = encoder.outside := by
  induction calls using List.reverseRecOn with
  | nil => rfl
  | append_singleton calls call ih =>
    rw [encodeCalls_snoc, encodeCall_outside]
    exact ih

theorem encodeCalls_fatal (calls : List (Call F)) {encoder : CJsonEncoder}
    (isFatal : encoder.fatal = true) : (encodeCalls format calls encoder).fatal = true := by
  induction calls using List.reverseRecOn with
  | nil => exact isFatal
  | append_singleton calls call ih =>
    rw [encodeCalls_snoc]
    exact (fatal_fails call ih).2

/-! ## The end of a sequence -/

/-- What the checks of `JsonEncoderFinish` make of the encoder. -/
theorem finish_cases (encoder : CJsonEncoder) :
    ∃ data, jsonEncoderFinish encoder =
      let checked := if encoder.depth ≠ 0 ∨ ¬encoder.rootWritten then
        encoder.setError .invalidState else encoder
      (if checked.error = .ok then (encoder.length : Int) else -1, { checked with data := data }) := by
  have kept : ∃ error, (if encoder.depth ≠ 0 ∨ ¬encoder.rootWritten then
      encoder.setError .invalidState else encoder) = { encoder with error := error } := by
    unfold setError
    split
    next =>
      split
      next => exact ⟨_, rfl⟩
      next => exact ⟨encoder.error, rfl⟩
    next => exact ⟨encoder.error, rfl⟩
  obtain ⟨error, isChecked⟩ := kept
  unfold jsonEncoderFinish
  rw [isChecked]
  by_cases terminates : encoder.data.isSome ∧ 0 < encoder.capacity
  · obtain ⟨data, isData⟩ := Option.isSome_iff_exists.mp terminates.1
    have inside : (if encoder.length ≥ encoder.capacity then encoder.capacity - 1
        else encoder.length) + [(0 : UInt8)].length ≤ encoder.capacity := by
      rw [List.length_singleton]
      split
      next => omega
      next => omega
    simp only [if_pos terminates]
    rw [@write_inside _ _ { encoder with error := error } _ isData inside]
    exact ⟨_, rfl⟩
  · refine ⟨encoder.data, ?_⟩
    simp only [if_neg terminates]

theorem finish_outside (encoder : CJsonEncoder) :
    (jsonEncoderFinish encoder).2.outside = encoder.outside := by
  obtain ⟨data, same⟩ := finish_cases encoder
  rw [same]
  dsimp only
  split
  next => exact setError_outside _ _
  next => rfl

theorem finish_fatal {encoder : CJsonEncoder} (isFatal : encoder.fatal = true) :
    (jsonEncoderFinish encoder).1 = -1 := by
  obtain ⟨data, same⟩ := finish_cases encoder
  have notOk : encoder.error ≠ .ok := by
    intro ok
    simp [fatal, ok] at isFatal
  have notSpace : encoder.error ≠ .noSpace := by
    intro noSpace
    simp [fatal, noSpace] at isFatal
  have stays : encoder.setError .invalidState = encoder :=
    if_neg (not_or.mpr ⟨notOk, notSpace⟩)
  rw [same, stays, ite_self]
  exact if_neg notOk

theorem finish_opened {encoder : CJsonEncoder} (keeps : KeepsUp room encoder (.opened frames)) :
    (jsonEncoderFinish encoder).1 = -1 := by
  obtain ⟨data, same⟩ := finish_cases encoder
  obtain ⟨depth, _, root, _, _⟩ := keeps
  have open' : encoder.depth ≠ 0 ∨ ¬encoder.rootWritten = true := by
    cases frames with
    | nil => exact Or.inr (by simp [root])
    | cons top outer =>
      rw [List.length_cons] at depth
      exact Or.inl (by omega)
  have failed : (encoder.setError .invalidState).fatal = true :=
    (setError_fails encoder (by decide) (by decide)).2
  have notOk : (encoder.setError .invalidState).error ≠ .ok := by
    intro ok
    simp [fatal, ok] at failed
  rw [same, if_pos open']
  exact if_neg notOk

/-- An encoder at the end of a value has its length, where it had room for it and the
NUL. -/
theorem finish_closed {encoder : CJsonEncoder}
    (keeps : KeepsUp room encoder (.closed calls word value)) :
    (jsonEncoderFinish encoder).1 =
        (if ∀ capacity ∈ room, word.length < capacity then (word.length : Int) else -1) ∧
      ∀ capacity ∈ room, word.length < capacity → ∃ rest,
        (jsonEncoderFinish encoder).2.data = some (word ++ 0 :: rest) ∧
          (word ++ 0 :: rest).length = capacity := by
  obtain ⟨depth, root, buffered⟩ := keeps
  have complete : ¬(encoder.depth ≠ 0 ∨ ¬encoder.rootWritten = true) := by simp [depth, root]
  have length := buffered.length
  constructor
  · obtain ⟨data, same⟩ := finish_cases encoder
    rw [same, if_neg complete]
    dsimp only
    cases room with
    | none =>
      rw [(buffered.counted rfl).2, length]
      simp
    | some capacity =>
      rw [(buffered.stored capacity rfl).2.1, length]
      by_cases fits : word.length < capacity
      · simp [fits]
      · simp [fits]
  · intro capacity isRoom fits
    obtain ⟨rfl, error, data, isData, full, kept⟩ := buffered.stored capacity isRoom
    have terminates : encoder.data.isSome ∧ 0 < encoder.capacity := ⟨by simp [isData], by omega⟩
    refine ⟨data.drop (word.length + 1), ?_, ?_⟩
    · unfold jsonEncoderFinish
      simp only [if_neg complete, if_pos terminates]
      rw [if_neg (by omega), write_inside isData (by rw [List.length_singleton]; omega), length,
        kept fits, List.append_assoc]
      rfl
    · simp only [List.length_append, List.length_cons, List.length_drop]
      omega

def finished (format : F → List UInt8) (calls : List (Call F)) (buffer : Option (List UInt8)) :
    Int × CJsonEncoder :=
  jsonEncoderFinish (encodeCalls format calls (jsonEncoderInit buffer))

/-- The end of a sequence whose outline is complete: its length where there is room for it. -/
theorem finished_closed {calls' : List (Call F)}
    (isOutline : outline format calls = some (.closed calls' word value))
    (buffer : Option (List UInt8)) :
    (finished format calls buffer).1 =
        (if ∀ data ∈ buffer, word.length < data.length then (word.length : Int) else -1) ∧
      ∀ data ∈ buffer, word.length < data.length → ∃ rest,
        (finished format calls buffer).2.data = some (word ++ 0 :: rest) ∧
          (word ++ 0 :: rest).length = data.length := by
  have keeps := encodeCalls_keeps format calls buffer
  rw [isOutline] at keeps
  have closed : KeepsUp (buffer.map List.length)
      (encodeCalls format calls (jsonEncoderInit buffer)) (.closed calls' word value) := keeps
  obtain ⟨length, written⟩ := finish_closed closed
  cases buffer with
  | none => exact ⟨length, fun data isData => absurd isData (Option.not_mem_none data)⟩
  | some data =>
    simp only [Option.map_some, Option.mem_def, Option.some.injEq, forall_eq'] at length written ⊢
    exact ⟨length, written⟩

/-- The length of a sequence: it describes one value, and there is room for its text. -/
theorem finished_cases (numbers : GivesNumbers format) (calls : List (Call F)) :
    (∀ buffer, (finished format calls buffer).1 = -1) ∨
    ∃ text value, Describes format calls value ∧
      Means false .value jsonEncoderMaxDepth text [([], value)] ∧
      ∀ buffer, (finished format calls buffer).1 =
          (if ∀ data ∈ buffer, text.length < data.length then (text.length : Int) else -1) ∧
        ∀ data ∈ buffer, text.length < data.length → ∃ rest,
          (finished format calls buffer).2.data = some (text ++ 0 :: rest) ∧
            (text ++ 0 :: rest).length = data.length := by
  have keeps (buffer : Option (List UInt8)) := encodeCalls_keeps format calls buffer
  cases isOutline : outline format calls with
  | none =>
    left
    intro buffer
    have keeps := keeps buffer
    rw [isOutline] at keeps
    exact finish_fatal keeps
  | some result =>
    obtain ⟨good, same⟩ := outline_good numbers calls result isOutline
    cases result with
    | opened frames =>
      left
      intro buffer
      have keeps := keeps buffer
      rw [isOutline] at keeps
      exact finish_opened keeps
    | closed calls' text value =>
      right
      obtain ⟨described, means⟩ := good
      have isCalls : calls' = calls := same
      rw [isCalls] at described
      exact ⟨text, value, described, means, finished_closed isOutline⟩

/-- What the encoder finishes with is a JSON text: of the value its calls describe, as long
as it says, in the buffer if there is one, and decoded to that value. -/
theorem jsonEncoder_finishes (format : F → List UInt8) (numbers : GivesNumbers format)
    (calls : List (Call F)) (buffer : Option (List UInt8)) :
    (0 ≤ (finished format calls buffer).1 → ∃ text value, Describes format calls value ∧
      Means false .value jsonEncoderMaxDepth text [([], value)] ∧
      (finished format calls buffer).1 = text.length ∧
      (finished format calls none).1 = text.length ∧
      (∀ data ∈ buffer, ∃ rest, (finished format calls buffer).2.data = some (text ++ 0 :: rest) ∧
        (text ++ 0 :: rest).length = data.length) ∧
      (∀ data : List UInt8, text.length < data.length →
        (finished format calls (some data)).1 = text.length) ∧
      ∃ after, jsonDecode (2 * text.length + 1) (jsonDecoderInit (some text)) = .found after ∧
        after.values.getLast? = some ⟨0, text.length, value.type, false⟩) ∧
    (∀ before call after sofar, calls = before ++ call :: after →
      outline format before = some sofar → Misuse format sofar call →
        (encodeCall format call (encodeCalls format before (jsonEncoderInit buffer))).1 = false ∧
        (∀ between later rest, after = between ++ later :: rest →
          (encodeCall format later
            (encodeCalls format (before ++ call :: between) (jsonEncoderInit buffer))).1 = false) ∧
        (finished format calls buffer).1 = -1) ∧
    (encodeCalls format calls (jsonEncoderInit buffer)).outside = false ∧
      (finished format calls buffer).2.outside = false := by
  have inside : (encodeCalls format calls (jsonEncoderInit buffer)).outside = false :=
    encodeCalls_outside calls (jsonEncoderInit buffer)
  refine ⟨?_, ?_, inside, (finish_outside _).trans inside⟩
  · intro finishes
    rcases finished_cases numbers calls with fails | ⟨text, value, described, means, results⟩
    · rw [fails buffer] at finishes
      omega
    · obtain ⟨length, written⟩ := results buffer
      have fits : ∀ data ∈ buffer, text.length < data.length := by
        by_contra noRoom
        rw [if_neg noRoom] at length
        omega
      rw [if_pos fits] at length
      have decodes : ∃ after, jsonDecode (2 * text.length + 1) (jsonDecoderInit (some text)) =
          .found after ∧ after.values.getLast? = some ⟨0, text.length, value.type, false⟩ := by
        have shallow : jsonEncoderMaxDepth ≤ depthLimit (jsonDecoderInit none).maxDepth := by decide
        exact @Means.decodes _ (jsonDecoderInit none) text value (means.mono shallow) (Nat.lt_succ_self _)
      refine ⟨text, value, described, means, length, ?_, ?_, ?_, decodes⟩
      · rw [(results none).1]
        exact if_pos fun data isData => absurd isData (Option.not_mem_none data)
      · intro data isData
        exact written data isData (fits data isData)
      · intro data room
        rw [(results (some data)).1]
        apply if_pos
        intro other isData
        cases isData
        exact room
  · rintro before call after sofar rfl isSofar misuse
    have keeps := encodeCalls_keeps format before buffer
    rw [isSofar] at keeps
    have failed := encodeCall_keeps format call keeps
    rw [misuse.lost] at failed
    have split (between : List (Call F)) :
        (encodeCalls format (before ++ call :: between) (jsonEncoderInit buffer)).fatal = true := by
      have parts : before ++ call :: between = (before ++ [call]) ++ between := by
        rw [List.append_assoc, List.singleton_append]
      rw [parts, encodeCalls, List.foldl_append]
      apply encodeCalls_fatal between
      have last := encodeCalls_snoc format before call (jsonEncoderInit buffer)
      rw [encodeCalls] at last
      rw [last]
      exact failed.2
    refine ⟨failed.1, ?_, finish_fatal (split after)⟩
    rintro between later rest rfl
    exact (fatal_fails later (split between)).1

theorem half_givesNumbers : GivesNumbers (fun _ : Unit => bytes "0.5") := by
  intro value
  have none (lang : Language UInt8) : [] ∈ optional lang := Or.inl rfl
  have five : bytes "5" ∈ digits := cons_mem_mul (by decide) (List.forall_mem_nil _)
  have fraction : bytes ".5" ∈ optional (oneOf (· = byte '.') * digits) :=
    Or.inr (cons_mem_mul (by decide) five)
  have zero : bytes "0" ∈ integer := Or.inl rfl
  right
  rw [← List.append_nil (bytes "0.5")]
  apply Language.append_mem_mul _ (none _)
  exact Language.append_mem_mul (Language.append_mem_mul (none _) zero) fraction

/-- A number in an array, with a buffer that has just enough room. -/
theorem jsonEncoder_finishes_array :
    GivesNumbers (fun _ : Unit => bytes "0.5") ∧
      ∃ text value, Describes (fun _ : Unit => bytes "0.5")
          [.start .array, .f64 (), .finish .array] value ∧
        (finished (fun _ : Unit => bytes "0.5") [.start .array, .f64 (), .finish .array]
          (some [1, 2, 3, 4, 5, 6])).1 = (text : List UInt8).length := by
  refine ⟨half_givesNumbers, ?_⟩
  have finishes : 0 ≤ (finished (fun _ : Unit => bytes "0.5")
      [.start .array, .f64 (), .finish .array] (some [1, 2, 3, 4, 5, 6])).1 := by decide +kernel
  obtain ⟨text, value, described, _, length, _⟩ :=
    (jsonEncoder_finishes (fun _ : Unit => bytes "0.5") half_givesNumbers
      [.start .array, .f64 (), .finish .array] (some [1, 2, 3, 4, 5, 6])).1 finishes
  exact ⟨text, value, described, length⟩

end

end Aholyc.Json
