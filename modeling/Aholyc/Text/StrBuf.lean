import Aholyc.Lib.Memory
import Aholyc.Log.Format

/-!
# Growable strings (lib/text/strbuf.hc, runtime/rt.c)

A `CStrBuf` holds its bytes in its own 64 bytes or in a block. What is appended
may lie in the buffer itself, which moves when it grows.
-/

namespace Aholyc.StrBuf

open Aholyc.Lib
open Aholyc.Lib.Memory (Outcome)

structure CStrs where
  a : Nat
  b : Nat
  deriving DecidableEq, Repr

structure CStrBuf where
  a : Nat
  b : Nat
  capacity : Nat
  inlineData : Nat
  deriving DecidableEq, Repr

def i64Max : Nat := 9223372036854775807

def strBufInlineCapacity : Nat := 64

/-! ## The source -/

def strsValid (a b : Nat) : Bool := a = 0 ∧ b = 0 ∨ a ≠ 0 ∧ b ≥ a

def strsLen (a b : Nat) : Nat := if a = 0 ∨ b ≤ a then 0 else b - a

def strsInitN (data : Nat) (length : Int) : Bool × CStrs :=
  if length < 0 ∨ data = 0 ∧ length ≠ 0 then (false, ⟨0, 0⟩)
  else (true, ⟨data, data + length.toNat⟩)

def strLen (memory : Memory) (string : Nat) (limit : Nat) : Option Nat :=
  match limit with
  | 0 => none
  | limit + 1 =>
    (memory.bytes string).bind fun byte =>
      if byte = 0 then some 0 else (strLen memory (string + 1) limit).map (· + 1)

def strBufInit (memory : Memory) (inlineData : Nat) : Option (Memory × CStrBuf) :=
  (memory.write inlineData [0]).map fun memory =>
    (memory, ⟨inlineData, inlineData, strBufInlineCapacity, inlineData⟩)

def newCapacity (capacity needed : Nat) : Nat :=
  if capacity ≤ i64Max / 2 ∧ capacity * 2 > needed then capacity * 2 else needed

def strBufReserve (allocator : Memory.Allocator) (memory : Memory) (buffer : CStrBuf)
    (additional : Int) : Option (Outcome Bool × Memory × CStrBuf) :=
  if ¬ strsValid buffer.a buffer.b ∨ additional < 0 then some (.returned false, memory, buffer)
  else
    let length := strsLen buffer.a buffer.b
    if buffer.a = 0 ∨ buffer.capacity ≤ length ∨ additional > (i64Max : Int) - length - 1 then
      some (.returned false, memory, buffer)
    else
      let needed := length + additional.toNat + 1
      if needed ≤ buffer.capacity then some (.returned true, memory, buffer)
      else
        let capacity := newCapacity buffer.capacity needed
        match memory.mAlloc allocator capacity with
        | none => some (.thrown, memory, buffer)
        | some (data, memory) =>
          (memory.memCpy data buffer.a (length + 1)).bind fun memory =>
            (if buffer.a ≠ buffer.inlineData then memory.free buffer.a else some memory).map
              fun memory => (.returned true, memory,
                { buffer with a := data, b := data + length, capacity := capacity })

def putReserved (memory : Memory) (buffer : CStrBuf) (source length : Nat) :
    Option (Outcome Bool × Memory × CStrBuf) :=
  (memory.memCpy buffer.b source length).bind fun memory =>
    (memory.write (buffer.b + length) [0]).map fun memory =>
      (.returned true, memory, { buffer with b := buffer.b + length })

def strBufPutStrs (allocator : Memory.Allocator) (memory : Memory) (buffer : CStrBuf)
    (text : CStrs) : Option (Outcome Bool × Memory × CStrBuf) :=
  if ¬ strsValid buffer.a buffer.b ∨ ¬ strsValid text.a text.b ∨ buffer.a = 0 then
    some (.returned false, memory, buffer)
  else
    let length := strsLen text.a text.b
    if length = 0 then some (.returned true, memory, buffer)
    else
      let bufferLength := strsLen buffer.a buffer.b
      let sourceOffset := if text.a ≥ buffer.a ∧ text.a - buffer.a ≤ bufferLength ∧
          length ≤ bufferLength - (text.a - buffer.a) then some (text.a - buffer.a) else none
      (strBufReserve allocator memory buffer length).bind fun reserved =>
        match reserved with
        | (.thrown, memory, buffer) => some (.thrown, memory, buffer)
        | (.returned false, memory, buffer) => some (.returned false, memory, buffer)
        | (.returned true, memory, buffer) =>
          let sourceData := (sourceOffset.map (buffer.a + ·)).getD text.a
          putReserved memory buffer sourceData length

def strBufPutN (allocator : Memory.Allocator) (memory : Memory) (buffer : CStrBuf) (text : Nat)
    (length : Int) : Option (Outcome Bool × Memory × CStrBuf) :=
  let (valid, slice) := strsInitN text length
  if ¬ valid then some (.returned false, memory, buffer)
  else strBufPutStrs allocator memory buffer slice

def strBufPutS (allocator : Memory.Allocator) (memory : Memory) (buffer : CStrBuf) (text : Nat) :
    Option (Outcome Bool × Memory × CStrBuf) :=
  if text = 0 then some (.returned false, memory, buffer)
  else
    (strLen memory text i64Max).bind fun length =>
      strBufPutN allocator memory buffer text length

def strBufPutC (allocator : Memory.Allocator) (memory : Memory) (buffer : CStrBuf)
    (character : UInt64) : Option (Outcome Bool × Memory × CStrBuf) :=
  (strBufReserve allocator memory buffer 1).bind fun reserved =>
    match reserved with
    | (.thrown, memory, buffer) => some (.thrown, memory, buffer)
    | (.returned false, memory, buffer) => some (.returned false, memory, buffer)
    | (.returned true, memory, buffer) =>
      (memory.write buffer.b [character.toUInt8]).bind fun memory =>
        (memory.write (buffer.b + 1) [0]).map fun memory =>
          (.returned true, memory, { buffer with b := buffer.b + 1 })

/-- What `hc_format` writes, up to the first NUL, where `StrNew` stops. -/
def printed (libc : Log.Libc) (format : List UInt8) (args : List Int) : List UInt8 :=
  (Log.hcFormat libc format args).takeWhile (· ≠ 0)

/-- `StrPrintJoin` with no string to join. `block` is the place of the new string, or nothing
where there is no memory for it. -/
def strPrintJoin (libc : Log.Libc) (memory : Memory) (block : Option Nat) (format : List UInt8)
    (args : List Int) : Option (Nat × Memory) :=
  block.map fun text => (text, memory.allocate text (printed libc format args ++ [0]))

def strBufPrintf (libc : Log.Libc) (allocator : Memory.Allocator) (memory : Memory)
    (buffer : CStrBuf) (format : Nat) (args : List Int) (block : Option Nat) :
    Option (Outcome Bool × Memory × CStrBuf) :=
  if format = 0 then some (.returned false, memory, buffer)
  else
    (strLen memory format i64Max).bind fun length =>
      (memory.read format length).bind fun bytes =>
        match strPrintJoin libc memory block bytes args with
        | none => some (.thrown, memory, buffer)
        | some (text, memory) =>
          (strBufPutS allocator memory buffer text).bind fun put =>
            match put with
            | (.thrown, memory, buffer) => some (.thrown, memory, buffer)
            | (.returned result, memory, buffer) =>
              (memory.free text).map fun memory => (.returned result, memory, buffer)

def strBufClear (memory : Memory) (buffer : CStrBuf) : Option (Memory × CStrBuf) :=
  if ¬ strsValid buffer.a buffer.b ∨ buffer.a = 0 ∨ buffer.capacity < 1 then
    some (memory, buffer)
  else (memory.write buffer.a [0]).map fun memory => (memory, { buffer with b := buffer.a })

def strBufFini (memory : Memory) (buffer : CStrBuf) : Option (Memory × CStrBuf) :=
  (if buffer.a ≠ 0 ∧ buffer.a ≠ buffer.inlineData then memory.free buffer.a
    else some memory).bind fun memory => strBufInit memory buffer.inlineData

/-- `none` is NULL; else the address and the length. -/
def strBufTake (allocator : Memory.Allocator) (memory : Memory) (buffer : CStrBuf) :
    Option (Outcome (Option (Nat × Nat)) × Memory × CStrBuf) :=
  if ¬ strsValid buffer.a buffer.b ∨ buffer.a = 0 then some (.returned none, memory, buffer)
  else
    let size := strsLen buffer.a buffer.b
    if buffer.capacity ≤ size then some (.returned none, memory, buffer)
    else if buffer.a = buffer.inlineData then
      match memory.mAlloc allocator (size + 1) with
      | none => some (.thrown, memory, buffer)
      | some (data, memory) =>
        (memory.memCpy data buffer.a (size + 1)).bind fun memory =>
          (strBufInit memory buffer.inlineData).map fun fresh =>
            (.returned (some (data, size)), fresh.1, fresh.2)
    else
      (strBufInit memory buffer.inlineData).map fun fresh =>
        (.returned (some (buffer.a, size)), fresh.1, fresh.2)

/-- Where a `CStrs *result` points: a `CStrBuf` is a `CStrs` too. -/
inductive Result where
  | null
  | buffer
  | other
  deriving DecidableEq, Repr

def Result.store (result : Result) (slice : CStrs) (buffer : CStrBuf) : CStrBuf :=
  if result = .buffer then { buffer with a := slice.a, b := slice.b } else buffer

/-- With the answer, what is stored in `*result`. -/
def strBufTakeStrs (allocator : Memory.Allocator) (memory : Memory) (buffer : CStrBuf)
    (result : Result) : Option (Outcome (Bool × Option CStrs) × Memory × CStrBuf) :=
  if result = .null then some (.returned (false, none), memory, buffer)
  else
    (strBufTake allocator memory buffer).map fun taken =>
      match taken with
      | (.thrown, memory, buffer) => (.thrown, memory, buffer)
      | (.returned none, memory, buffer) =>
        (.returned (false, some ⟨0, 0⟩), memory, result.store ⟨0, 0⟩ buffer)
      | (.returned (some (data, length)), memory, buffer) =>
        let slice := (strsInitN data length).2
        (.returned (true, some slice), memory, result.store slice buffer)

/-! ## Buffers with their content -/

/-- The buffer's own bytes, which are no part of a block. -/
structure OwnData (memory : Memory) (inlineData : Nat) : Prop where
  notNull : inlineData ≠ 0
  readable : memory.Readable inlineData strBufInlineCapacity
  apart : ∀ block n, memory.blocks block = some n →
    Memory.Apart inlineData strBufInlineCapacity block n

structure IsBuf (memory : Memory) (buffer : CStrBuf) (content : List UInt8) : Prop where
  ownData : OwnData memory buffer.inlineData
  storage : buffer.a = buffer.inlineData ∧ buffer.capacity = strBufInlineCapacity ∨
    memory.blocks buffer.a = some buffer.capacity
  fits : buffer.capacity ≤ i64Max
  isEnd : buffer.b = buffer.a + content.length
  room : content.length < buffer.capacity
  holds : memory.Holds buffer.a (content ++ [0])

variable {memory after : Memory} {buffer buffer' : CStrBuf} {content : List UInt8}

variable {inlineData block n start text : Nat}

theorem OwnData.ne (ownData : OwnData memory inlineData) (valid : memory.Valid)
    (isBlock : memory.blocks block = some n) : block ≠ inlineData := by
  have apart := ownData.apart block n isBlock
  have positive := (valid.positive isBlock).2
  unfold Memory.Apart strBufInlineCapacity at apart
  omega

theorem OwnData.release (ownData : OwnData memory inlineData)
    (isBlock : memory.blocks block = some n) : OwnData (memory.release block n) inlineData where
  notNull := ownData.notNull
  readable := ownData.readable.agree (Memory.agree_release (ownData.apart block n isBlock).symm)
  apart := by
    intro other k isOther
    by_cases same : other = block
    · rw [same, show (memory.release block n).blocks block = none from
        Function.update_self _ _ _] at isOther
      cases isOther
    · rw [Memory.release_other same] at isOther
      exact ownData.apart other k isOther

namespace IsBuf

theorem notNull (isBuf : IsBuf memory buffer content) (valid : memory.Valid) : buffer.a ≠ 0 := by
  cases isBuf.storage with
  | inl own =>
    rw [own.1]
    exact isBuf.ownData.notNull
  | inr isBlock => exact (valid.positive isBlock).1

theorem isValid (isBuf : IsBuf memory buffer content) (valid : memory.Valid) :
    strsValid buffer.a buffer.b = true := by
  have isEnd := isBuf.isEnd
  unfold strsValid
  exact decide_eq_true (Or.inr ⟨isBuf.notNull valid, by omega⟩)

theorem length (isBuf : IsBuf memory buffer content) (valid : memory.Valid) :
    strsLen buffer.a buffer.b = content.length := by
  have isEnd := isBuf.isEnd
  have notNull := isBuf.notNull valid
  unfold strsLen
  by_cases empty : content.length = 0
  · rw [if_pos (Or.inr (by omega)), empty]
  · rw [if_neg (by omega)]
    omega

theorem readable (isBuf : IsBuf memory buffer content) (valid : memory.Valid) :
    memory.Readable buffer.a buffer.capacity := by
  cases isBuf.storage with
  | inl own =>
    rw [own.1, own.2]
    exact isBuf.ownData.readable
  | inr isBlock => exact valid.readable isBlock

theorem appended (isBuf : IsBuf memory buffer content) {bytes : List UInt8}
    (room : content.length + bytes.length < buffer.capacity) :
    IsBuf (memory.put buffer.b (bytes ++ [0])) { buffer with b := buffer.b + bytes.length }
      (content ++ bytes) where
  ownData := ⟨isBuf.ownData.notNull, isBuf.ownData.readable.put _ _, isBuf.ownData.apart⟩
  storage := isBuf.storage
  fits := isBuf.fits
  isEnd := by
    rw [isBuf.isEnd, List.length_append, Nat.add_assoc]
  room := by
    rw [List.length_append]
    exact room
  holds := by
    have holds := isBuf.holds
    rw [Memory.holds_append] at holds
    rw [List.append_assoc, Memory.holds_append, ← isBuf.isEnd]
    refine ⟨holds.1.agree (Memory.agree_put ?_), Memory.holds_put _ _ _⟩
    right
    right
    right
    exact Nat.le_of_eq isBuf.isEnd.symm

theorem release (isBuf : IsBuf memory buffer content) (valid : memory.Valid)
    (isBlock : memory.blocks block = some n) (other : block ≠ buffer.a) :
    IsBuf (memory.release block n) buffer content where
  ownData := isBuf.ownData.release isBlock
  storage := by
    apply isBuf.storage.imp_right
    intro isStorage
    rw [Memory.release_other other.symm]
    exact isStorage
  fits := isBuf.fits
  isEnd := isBuf.isEnd
  room := isBuf.room
  holds := by
    apply isBuf.holds.agree
    have room := isBuf.room
    have apart : Memory.Apart block n buffer.a buffer.capacity := by
      cases isBuf.storage with
      | inl own =>
        rw [own.1, own.2]
        exact (isBuf.ownData.apart block n isBlock).symm
      | inr isStorage => exact valid.apart isBlock isStorage other
    apply Memory.agree_release
    rw [List.length_append, List.length_singleton]
    exact (apart.symm.part (Nat.le_refl _) (by omega)).symm

end IsBuf

theorem OwnData.allocate {bytes : List UInt8} (ownData : OwnData memory inlineData)
    (unused : memory.Unused start bytes.length) :
    OwnData (memory.allocate start bytes) inlineData where
  notNull := ownData.notNull
  readable := ownData.readable.agree (Memory.agree_allocate unused ownData.readable)
  apart := by
    intro block n isBlock
    by_cases isNew : block = start
    · rw [isNew, Memory.allocate_self, Option.some.injEq] at isBlock
      rw [isNew, ← isBlock]
      exact (unused.apart ownData.readable).symm
    · rw [Memory.allocate_other isNew] at isBlock
      exact ownData.apart block n isBlock

theorem block_ne_new (valid : memory.Valid) {size : Nat} (unused : memory.Unused start size)
    (positive : 0 < size) (isBlock : memory.blocks block = some n) : block ≠ start := by
  intro same
  have apart := unused.apart (valid.readable isBlock)
  have positive' := (valid.positive isBlock).2
  unfold Memory.Apart at apart
  omega

theorem IsBuf.allocate {bytes : List UInt8} (isBuf : IsBuf memory buffer content)
    (valid : memory.Valid) (unused : memory.Unused start bytes.length) (some' : 0 < bytes.length) :
    IsBuf (memory.allocate start bytes) buffer content where
  ownData := isBuf.ownData.allocate unused
  storage := by
    apply isBuf.storage.imp_right
    intro isStorage
    rw [Memory.allocate_other (block_ne_new valid unused some' isStorage)]
    exact isStorage
  fits := isBuf.fits
  isEnd := isBuf.isEnd
  room := isBuf.room
  holds := by
    apply isBuf.holds.agree
    apply Memory.agree_allocate unused
    have room := isBuf.room
    apply (isBuf.readable valid).part (Nat.le_refl _)
    rw [List.length_append, List.length_singleton]
    omega

theorem strBufInit_spec (valid : memory.Valid) (ownData : OwnData memory inlineData) :
    strBufInit memory inlineData = some (memory.put inlineData [0],
        ⟨inlineData, inlineData, strBufInlineCapacity, inlineData⟩) ∧
      IsBuf (memory.put inlineData [0])
        ⟨inlineData, inlineData, strBufInlineCapacity, inlineData⟩ [] ∧
      (memory.put inlineData [0]).Valid := by
  have first : memory.Readable inlineData [(0 : UInt8)].length :=
    ownData.readable.part (Nat.le_refl _) (by
      unfold strBufInlineCapacity
      rw [List.length_singleton]
      omega)
  refine ⟨?_, ?_, valid.put _ _⟩
  · unfold strBufInit
    rw [first.write, Option.map_some]
  · exact ⟨⟨ownData.notNull, ownData.readable.put _ _, ownData.apart⟩, Or.inl ⟨rfl, rfl⟩,
      show strBufInlineCapacity ≤ i64Max by decide, rfl, show 0 < strBufInlineCapacity by decide,
      Memory.holds_put _ _ _⟩

/-! ## Growing -/

theorem newCapacity_bounds {capacity needed : Nat} (fits : needed ≤ i64Max) :
    needed ≤ newCapacity capacity needed ∧ newCapacity capacity needed ≤ i64Max := by
  unfold newCapacity
  split
  · omega
  · exact ⟨Nat.le_refl _, fits⟩

def Grows (allocator : Memory.Allocator) (buffer : CStrBuf) (needed : Nat) : Prop :=
  needed ≤ i64Max ∧ (allocator (newCapacity buffer.capacity needed)).isSome

instance (allocator : Memory.Allocator) (buffer : CStrBuf) (needed : Nat) :
    Decidable (Grows allocator buffer needed) := by
  unfold Grows
  infer_instance

structure Moved (memory : Memory) (buffer : CStrBuf) (after : Memory) (buffer' : CStrBuf) :
    Prop where
  agree : ∀ start n, memory.Readable start n →
    buffer.a = buffer.inlineData ∨ Memory.Apart start n buffer.a buffer.capacity →
    memory.Agree after start n
  apart : ∀ start n, memory.Readable start n →
    Memory.Apart start n buffer'.a buffer'.capacity

def KeepsBlocks (memory : Memory) (buffer : CStrBuf) (after : Memory) (buffer' : CStrBuf) : Prop :=
  ∀ block n, block ≠ buffer.a → memory.blocks block = some n →
    after.blocks block = some n ∧ block ≠ buffer'.a

theorem KeepsBlocks.refl (memory : Memory) (buffer : CStrBuf) :
    KeepsBlocks memory buffer memory buffer :=
  fun _ _ other isBlock => ⟨isBlock, other⟩

/-- What growing does: the old block is given back, if it is one. -/
theorem grow_spec (valid : memory.Valid) (isBuf : IsBuf memory buffer content) {data : Nat}
    {bytes : List UInt8} (unused : memory.Unused data bytes.length)
    (room : content.length < bytes.length) (fits : bytes.length ≤ i64Max) :
    ∃ after, ((memory.allocate data bytes).memCpy data buffer.a (content.length + 1)).bind
          (fun memory => if buffer.a ≠ buffer.inlineData then memory.free buffer.a
            else some memory) = some after ∧
      IsBuf after ⟨data, data + content.length, bytes.length, buffer.inlineData⟩ content ∧
      after.Valid ∧
      Moved memory buffer after ⟨data, data + content.length, bytes.length, buffer.inlineData⟩ ∧
      KeepsBlocks memory buffer after
        ⟨data, data + content.length, bytes.length, buffer.inlineData⟩ := by
  have some' : 0 < bytes.length := by omega
  have old := isBuf.room
  have isBuf' := isBuf.allocate valid unused some'
  have valid' := valid.allocate unused some'
  have isLength : (content ++ [0]).length = content.length + 1 := by
    rw [List.length_append, List.length_singleton]
  have copied := @Memory.memCpy_some (memory.allocate data bytes) data buffer.a (content ++ [0])
    isBuf'.holds ((Memory.readable_allocate memory data bytes).part (Nat.le_refl _) (by omega))
    (((unused.apart (isBuf.readable valid)).part (Nat.le_refl _) (by omega)).symm.part
      (Nat.le_refl _) (by omega)).symm
  rw [isLength] at copied
  rw [copied, Option.bind_some]
  generalize isMiddle : (memory.allocate data bytes).put data (content ++ [0]) = middle
  have blocks : middle.blocks = (memory.allocate data bytes).blocks := by
    rw [← isMiddle]
    rfl
  have isData : middle.blocks data = some bytes.length := by
    rw [blocks, Memory.allocate_self]
  have isOther {block n : Nat} (isBlock : memory.blocks block = some n) :
      middle.blocks block = some n ∧ block ≠ data := by
    have differs := block_ne_new valid unused some' isBlock
    rw [blocks, Memory.allocate_other differs]
    exact ⟨isBlock, differs⟩
  have validMiddle : middle.Valid := by
    rw [← isMiddle]
    exact valid'.put _ _
  have agree {start n : Nat} (readable : memory.Readable start n) :
      memory.Agree middle start n ∧ Memory.Apart start n data bytes.length := by
    have apart := unused.apart readable
    rw [← isMiddle]
    refine ⟨(Memory.agree_allocate unused readable).trans (Memory.agree_put ?_), apart.symm⟩
    exact apart.part (Nat.le_refl _) (by omega)
  have isNew : IsBuf middle ⟨data, data + content.length, bytes.length, buffer.inlineData⟩
      content := by
    refine ⟨?_, Or.inr isData, fits, rfl, room, ?_⟩
    · rw [← isMiddle]
      exact ⟨isBuf'.ownData.notNull, isBuf'.ownData.readable.put _ _, isBuf'.ownData.apart⟩
    · rw [← isMiddle]
      exact Memory.holds_put _ _ _
  by_cases isInline : buffer.a = buffer.inlineData
  · rw [if_neg (not_not.mpr isInline)]
    exact ⟨middle, rfl, isNew, validMiddle,
      ⟨fun _ _ readable _ => (agree readable).1, fun _ _ readable => (agree readable).2⟩,
      fun _ _ _ isBlock => isOther isBlock⟩
  · have isBlock := isBuf.storage.resolve_left fun own => isInline own.1
    obtain ⟨isOld, notData⟩ := isOther isBlock
    rw [if_pos isInline, validMiddle.free isOld]
    refine ⟨_, rfl, isNew.release validMiddle isOld notData, validMiddle.release isOld, ⟨?_, ?_⟩,
      ?_⟩
    · intro start n readable away
      exact (agree readable).1.trans (Memory.agree_release (away.resolve_left isInline).symm)
    · exact fun _ _ readable => (agree readable).2
    · intro block n other isOwn
      rw [Memory.release_other other]
      exact isOther isOwn

/-- What `StrBufReserve` does: there is room, in the old storage or in a new one,
or nothing changes. -/
theorem strBufReserve_spec {allocator : Memory.Allocator} (lawful : allocator.Lawful memory)
    (valid : memory.Valid) (isBuf : IsBuf memory buffer content) (additional : Nat) :
    ∃ outcome after buffer', strBufReserve allocator memory buffer additional =
        some (outcome, after, buffer') ∧
      (outcome = .returned true ∧ content.length + additional < buffer'.capacity ∧
          IsBuf after buffer' content ∧ after.Valid ∧ KeepsBlocks memory buffer after buffer' ∧
          (content.length + additional < buffer.capacity ∧ after = memory ∧ buffer' = buffer ∨
            buffer.capacity ≤ content.length + additional ∧
              Grows allocator buffer (content.length + additional + 1) ∧
              Moved memory buffer after buffer') ∨
        outcome ≠ .returned true ∧ buffer.capacity ≤ content.length + additional ∧
          ¬ Grows allocator buffer (content.length + additional + 1) ∧ after = memory ∧
          buffer' = buffer) := by
  have room := isBuf.room
  have capacityFits := isBuf.fits
  unfold strBufReserve
  rw [if_neg (by
    rw [isBuf.isValid valid]
    simp)]
  dsimp only
  rw [isBuf.length valid, Int.toNat_natCast]
  by_cases overflows : buffer.a = 0 ∨ buffer.capacity ≤ content.length ∨
      (additional : Int) > (i64Max : Int) - content.length - 1
  · have notNull := isBuf.notNull valid
    rw [if_pos overflows]
    refine ⟨_, _, _, rfl, Or.inr ⟨by simp, by omega, ?_, rfl, rfl⟩⟩
    intro grows
    have fits := grows.1
    omega
  · rw [if_neg overflows]
    by_cases enough : content.length + additional + 1 ≤ buffer.capacity
    · rw [if_pos enough]
      exact ⟨_, _, _, rfl, Or.inl ⟨rfl, enough, isBuf, valid, KeepsBlocks.refl _ _,
        Or.inl ⟨enough, rfl, rfl⟩⟩⟩
    have needed : content.length + additional + 1 ≤ i64Max := by omega
    have bounds := @newCapacity_bounds buffer.capacity _ needed
    rw [if_neg enough]
    unfold Grows
    generalize newCapacity buffer.capacity (content.length + additional + 1) = capacity at bounds
    unfold Memory.mAlloc
    cases answer : allocator capacity with
    | none =>
      refine ⟨_, _, _, rfl, Or.inr ⟨by simp, by omega, ?_, rfl, rfl⟩⟩
      exact fun grows => absurd grows.2 Bool.false_ne_true
    | some block =>
      obtain ⟨data, fill⟩ := block
      have unused : memory.Unused data capacity := lawful capacity _ answer
      have isFill : ((List.range capacity).map fill).length = capacity := by
        rw [List.length_map, List.length_range]
      rw [Option.map_some]
      dsimp only
      generalize (List.range capacity).map fill = bytes at isFill
      rw [← isFill] at unused bounds
      obtain ⟨after, grown, isNew, valid', moved, keeps⟩ :=
        grow_spec valid isBuf unused (by omega) bounds.2
      rw [isFill] at isNew moved keeps bounds
      obtain ⟨middle, copied, freed⟩ := Option.bind_eq_some_iff.mp grown
      rw [copied, Option.bind_some, freed, Option.map_some]
      exact ⟨_, _, _, rfl, Or.inl ⟨rfl, bounds.1, isNew, valid', keeps,
        Or.inr ⟨by omega, ⟨needed, rfl⟩, moved⟩⟩⟩

/-! ## Appending -/

/-- The bytes that are appended lie in the content, or else neither where they
go nor in a block that is given back for a new one. -/
def Puttable (allocator : Memory.Allocator) (buffer : CStrBuf) (source n : Nat) : Prop :=
  buffer.a ≤ source ∧ source + n ≤ buffer.b ∨
    if buffer.b - buffer.a + n < buffer.capacity then Memory.Apart source n buffer.b n
    else
      Grows allocator buffer (buffer.b - buffer.a + n + 1) →
        buffer.a = buffer.inlineData ∨ Memory.Apart source n buffer.a buffer.capacity

instance (allocator : Memory.Allocator) (buffer : CStrBuf) (source n : Nat) :
    Decidable (Puttable allocator buffer source n) := by
  unfold Puttable Memory.Apart
  infer_instance

/-- The outcome of a call that appends bytes, or leaves the buffer as it is if
it has to grow and cannot. -/
def Appends (allocator : Memory.Allocator) (memory : Memory) (buffer : CStrBuf)
    (content bytes : List UInt8) (call : Option (Outcome Bool × Memory × CStrBuf)) : Prop :=
  ∃ outcome after buffer', call = some (outcome, after, buffer') ∧ after.Valid ∧
    KeepsBlocks memory buffer after buffer' ∧
    (outcome = .returned true ∧ IsBuf after buffer' (content ++ bytes) ∨
      outcome ≠ .returned true ∧ buffer.capacity ≤ content.length + bytes.length ∧
        ¬ Grows allocator buffer (content.length + bytes.length + 1) ∧ after = memory ∧
        buffer' = buffer)

variable {allocator : Memory.Allocator} (lawful : allocator.Lawful memory) (valid : memory.Valid)
  (isBuf : IsBuf memory buffer content) {bytes : List UInt8}

theorem Appends.unchanged (valid : memory.Valid) {outcome : Outcome Bool}
    (notTrue : outcome ≠ .returned true) (full : buffer.capacity ≤ content.length + bytes.length)
    (refused : ¬ Grows allocator buffer (content.length + bytes.length + 1)) :
    Appends allocator memory buffer content bytes (some (outcome, memory, buffer)) :=
  ⟨_, _, _, rfl, valid, KeepsBlocks.refl _ _, Or.inr ⟨notTrue, full, refused, rfl, rfl⟩⟩

theorem putReserved_spec (valid : memory.Valid) (isBuf : IsBuf memory buffer content)
    (room : content.length + bytes.length < buffer.capacity) {source : Nat}
    (holds : memory.Holds source bytes)
    (apart : Memory.Apart source bytes.length buffer.b bytes.length) :
    putReserved memory buffer source bytes.length = some (.returned true,
      memory.put buffer.b (bytes ++ [0]), { buffer with b := buffer.b + bytes.length }) := by
  have isEnd := isBuf.isEnd
  have readable := isBuf.readable valid
  have copied := Memory.memCpy_some holds (readable.part (by omega) (by omega)) apart.symm
  have last : (memory.put buffer.b bytes).Readable (buffer.b + bytes.length)
      [(0 : UInt8)].length := by
    apply (readable.put buffer.b bytes).part (by omega)
    rw [List.length_singleton]
    omega
  unfold putReserved
  rw [copied, Option.bind_some, last.write, Option.map_some, Memory.put_append]

include lawful valid isBuf

theorem strBufPutStrs_appends {text : CStrs} (isText : strsValid text.a text.b = true)
    (isBytes : memory.read text.a (strsLen text.a text.b) = some bytes)
    (puttable : Puttable allocator buffer text.a bytes.length) :
    Appends allocator memory buffer content bytes
      (strBufPutStrs allocator memory buffer text) := by
  obtain ⟨isLength, holds⟩ := Memory.read_eq_some.mp isBytes
  have isEnd := isBuf.isEnd
  unfold strBufPutStrs
  rw [if_neg (by
    rw [isBuf.isValid valid, isText]
    simp [isBuf.notNull valid])]
  dsimp only
  rw [← isLength, isBuf.length valid]
  by_cases empty : bytes.length = 0
  · have nothing := List.length_eq_zero_iff.mp empty
    rw [if_pos empty, nothing]
    refine ⟨_, _, _, rfl, valid, KeepsBlocks.refl _ _, Or.inl ⟨rfl, ?_⟩⟩
    rw [List.append_nil]
    exact isBuf
  · rw [if_neg empty]
    obtain ⟨outcome, middle, buffer', reserved, both⟩ :=
      strBufReserve_spec lawful valid isBuf bytes.length
    rw [reserved, Option.bind_some]
    cases both with
    | inr failed =>
      obtain ⟨notTrue, full, refused, sameMemory, sameBuffer⟩ := failed
      rw [sameMemory, sameBuffer]
      cases outcome with
      | thrown => exact Appends.unchanged valid notTrue full refused
      | returned flag =>
        cases flag with
        | true => exact absurd rfl notTrue
        | false => exact Appends.unchanged valid notTrue full refused
    | inl grew =>
      obtain ⟨isTrue, room, isBuf', valid', keeps, how⟩ := grew
      have isEnd' := isBuf'.isEnd
      rw [isTrue]
      dsimp only
      -- Where the bytes are after the storage may have moved.
      have source : ∃ source, ((if text.a ≥ buffer.a ∧ text.a - buffer.a ≤ content.length ∧
              bytes.length ≤ content.length - (text.a - buffer.a) then some (text.a - buffer.a)
            else none).map (buffer'.a + ·)).getD text.a = source ∧
          middle.Holds source bytes ∧
          Memory.Apart source bytes.length buffer'.b bytes.length := by
        by_cases inside : text.a ≥ buffer.a ∧ text.a - buffer.a ≤ content.length ∧
            bytes.length ≤ content.length - (text.a - buffer.a)
        · rw [if_pos inside, Option.map_some, Option.getD_some]
          refine ⟨_, rfl, ?_, Or.inr (Or.inr (Or.inl (by omega)))⟩
          have isPart := isBuf.holds.part (text.a - buffer.a) bytes.length (by
            rw [List.length_append]
            omega)
          have isPart' := isBuf'.holds.part (text.a - buffer.a) bytes.length (by
            rw [List.length_append]
            omega)
          rw [show buffer.a + (text.a - buffer.a) = text.a by omega] at isPart
          have same := holds.unique isPart (by
            rw [List.length_take, List.length_drop, List.length_append]
            omega)
          rwa [← same] at isPart'
        · rw [if_neg inside, Option.map_none, Option.getD_none]
          refine ⟨_, rfl, ?_⟩
          have outside : ¬ (buffer.a ≤ text.a ∧ text.a + bytes.length ≤ buffer.b) := by
            omega
          have away := puttable.resolve_left outside
          have isReadable := holds.readable
          cases how with
          | inl still =>
            obtain ⟨enough, sameMemory, sameBuffer⟩ := still
            rw [if_pos (by omega)] at away
            rw [sameMemory, sameBuffer]
            exact ⟨holds, away⟩
          | inr moved =>
            obtain ⟨full, grows, moved⟩ := moved
            rw [if_neg (by omega), show buffer.b - buffer.a = content.length by omega] at away
            have apart := moved.apart _ _ isReadable
            exact ⟨holds.agree (moved.agree _ _ isReadable (away grows)),
              (apart.symm.part (by omega) (by omega)).symm⟩
      obtain ⟨source, isSource, holds', apart⟩ := source
      rw [isSource, putReserved_spec valid' isBuf' room holds' apart]
      exact ⟨_, _, _, rfl, valid'.put _ _, keeps, Or.inl ⟨rfl, isBuf'.appended room⟩⟩

theorem strBufPutN_appends {length : Int} (isText : 0 ≤ length ∧ (text = 0 → length = 0))
    (isBytes : memory.read text length.toNat = some bytes)
    (puttable : Puttable allocator buffer text bytes.length) :
    Appends allocator memory buffer content bytes
      (strBufPutN allocator memory buffer text length) := by
  have isSlice : strsInitN text length = (true, ⟨text, text + length.toNat⟩) := by
    apply if_neg
    omega
  unfold strBufPutN
  rw [isSlice]
  dsimp only
  rw [if_neg (by simp)]
  apply strBufPutStrs_appends lawful valid isBuf
  · unfold strsValid
    apply decide_eq_true
    dsimp only
    omega
  · have isLength : strsLen text (text + length.toNat) = length.toNat := by
      unfold strsLen
      split <;> omega
    rw [isLength]
    exact isBytes
  · exact puttable

theorem strBufPutC_appends (character : UInt64) :
    Appends allocator memory buffer content [character.toUInt8]
      (strBufPutC allocator memory buffer character) := by
  obtain ⟨outcome, middle, buffer', reserved, both⟩ :=
    strBufReserve_spec lawful valid isBuf 1
  unfold strBufPutC
  rw [show ((1 : Nat) : Int) = 1 from rfl] at reserved
  rw [reserved, Option.bind_some]
  cases both with
  | inr failed =>
    obtain ⟨notTrue, full, refused, sameMemory, sameBuffer⟩ := failed
    rw [sameMemory, sameBuffer]
    cases outcome with
    | thrown => exact Appends.unchanged valid notTrue full refused
    | returned flag =>
      cases flag with
      | true => exact absurd rfl notTrue
      | false => exact Appends.unchanged valid notTrue full refused
  | inl grew =>
    obtain ⟨isTrue, room, isBuf', valid', keeps, _⟩ := grew
    have isEnd' := isBuf'.isEnd
    have readable := isBuf'.readable valid'
    have first : middle.Readable buffer'.b [character.toUInt8].length := by
      apply readable.part (by omega)
      rw [List.length_singleton]
      omega
    have second : (middle.put buffer'.b [character.toUInt8]).Readable (buffer'.b + 1)
        [(0 : UInt8)].length := by
      apply (readable.put _ _).part (by omega)
      rw [List.length_singleton]
      omega
    have merged := Memory.put_append middle buffer'.b [character.toUInt8] [0]
    rw [List.length_singleton] at merged
    rw [isTrue]
    dsimp only
    rw [first.write, Option.bind_some, second.write, Option.map_some, merged]
    exact ⟨_, _, _, rfl, valid'.put _ _, keeps, Or.inl ⟨rfl, isBuf'.appended room⟩⟩

omit lawful valid isBuf in
theorem strLen_some {string : Nat} {limit : Nat} (notNul : 0 ∉ bytes)
    (holds : memory.Holds string (bytes ++ [0])) (less : bytes.length < limit) :
    strLen memory string limit = some bytes.length := by
  induction bytes generalizing string limit with
  | nil =>
    cases limit with
    | zero => cases less
    | succ limit =>
      have isNul := holds 0 (by simp)
      rw [Nat.add_zero] at isNul
      unfold strLen
      rw [isNul]
      rfl
  | cons byte rest ih =>
    cases limit with
    | zero => cases less
    | succ limit =>
      have isByte := holds 0 (by simp)
      rw [Nat.add_zero, List.cons_append, List.getElem?_cons_zero] at isByte
      have later : memory.Holds (string + 1) (rest ++ [0]) := by
        rw [List.cons_append, ← List.singleton_append, Memory.holds_append] at holds
        exact holds.2
      have isLength := ih (fun isIn => notNul (List.mem_cons_of_mem _ isIn)) later
        (Nat.lt_of_succ_lt_succ less)
      have notZero : byte ≠ 0 := fun same => notNul (same ▸ List.mem_cons_self)
      unfold strLen
      rw [isByte, Option.bind_some, if_neg notZero, isLength]
      rfl

theorem strBufPutS_appends (notNull : text ≠ 0) (notNul : 0 ∉ bytes)
    (holds : memory.Holds text (bytes ++ [0])) (less : bytes.length < i64Max)
    (puttable : Puttable allocator buffer text bytes.length) :
    Appends allocator memory buffer content bytes (strBufPutS allocator memory buffer text) := by
  unfold strBufPutS
  rw [if_neg notNull, strLen_some notNul holds less, Option.bind_some]
  apply strBufPutN_appends lawful valid isBuf ⟨by omega, fun isNull => absurd isNull notNull⟩ _
    puttable
  rw [Int.toNat_natCast]
  rw [Memory.holds_append] at holds
  exact holds.1.read

omit lawful valid isBuf in
theorem printed_notNul (libc : Log.Libc) (format : List UInt8) (args : List Int) :
    0 ∉ printed libc format args := by
  intro isIn
  have notNul := List.mem_takeWhile_imp isIn
  simp at notNul

omit lawful valid isBuf in
/-- The formatted text is appended from its block, which is given back. -/
theorem strBufPrintf_appends {libc : Log.Libc} {string : List UInt8} {args : List Int}
    (valid : memory.Valid) (isBuf : IsBuf memory buffer content) {format : Nat}
    (notNull : format ≠ 0) (isFormat : 0 ∉ string ∧ string.length < i64Max ∧
      memory.Holds format (string ++ [0])) (isPrinted : printed libc string args = bytes)
    (less : bytes.length < i64Max) (unused : memory.Unused text (bytes.length + 1))
    (lawful : allocator.Lawful (memory.allocate text (bytes ++ [0]))) :
    ∃ outcome after buffer', strBufPrintf libc allocator memory buffer format args (some text) =
        some (outcome, after, buffer') ∧ after.Valid ∧
      (outcome = .returned true ∧ IsBuf after buffer' (content ++ bytes) ∨
        outcome ≠ .returned true ∧ buffer.capacity ≤ content.length + bytes.length ∧
          ¬ Grows allocator buffer (content.length + bytes.length + 1) ∧
          IsBuf after buffer content ∧ buffer' = buffer) := by
  have isLength : (bytes ++ [0]).length = bytes.length + 1 := by
    rw [List.length_append, List.length_singleton]
  rw [← isLength] at unused
  have some' : 0 < (bytes ++ [0]).length := by omega
  have notNul : 0 ∉ bytes := isPrinted ▸ printed_notNul libc string args
  have isRead : memory.read format string.length = some string := by
    rw [Memory.holds_append] at isFormat
    exact isFormat.2.2.1.read
  have isJoin : strPrintJoin libc memory (some text) string args =
      some (text, memory.allocate text (bytes ++ [0])) := by
    rw [← isPrinted]
    rfl
  have valid' := valid.allocate unused some'
  have isBuf' := isBuf.allocate valid unused some'
  have isText : (memory.allocate text (bytes ++ [0])).blocks text = some (bytes ++ [0]).length :=
    Memory.allocate_self
  have away := unused.apart (isBuf.readable valid)
  have isEnd := isBuf.isEnd
  have notBuffer : text ≠ buffer.a := by
    intro same
    have room := isBuf.room
    unfold Memory.Apart at away
    omega
  have holds : (memory.allocate text (bytes ++ [0])).Holds text (bytes ++ [0]) :=
    Memory.holds_put _ _ _
  generalize isJoined : memory.allocate text (bytes ++ [0]) = joined at *
  have puttable : Puttable allocator buffer text bytes.length := by
    right
    have apart := away.part (Nat.le_refl _) (show text + bytes.length ≤ _ by omega)
    split
    · exact (apart.symm.part (by omega) (by omega)).symm
    · exact fun _ => Or.inr apart
  obtain ⟨outcome, after, buffer', put, valid'', keeps, both⟩ :=
    strBufPutS_appends lawful valid' isBuf' unused.1 notNul holds less puttable
  obtain ⟨isText', notBuffer'⟩ := keeps text _ notBuffer isText
  unfold strBufPrintf
  rw [if_neg notNull, strLen_some isFormat.1 isFormat.2.2 isFormat.2.1, Option.bind_some, isRead,
    Option.bind_some, isJoin]
  dsimp only
  rw [put, Option.bind_some]
  cases both with
  | inl appended =>
    obtain ⟨isTrue, isNew⟩ := appended
    rw [isTrue]
    dsimp only
    rw [valid''.free isText', Option.map_some]
    exact ⟨_, _, _, rfl, valid''.release isText',
      Or.inl ⟨rfl, isNew.release valid'' isText' notBuffer'⟩⟩
  | inr failed =>
    obtain ⟨notTrue, full, refused, sameMemory, sameBuffer⟩ := failed
    rw [sameMemory, sameBuffer]
    cases outcome with
    | thrown => exact ⟨_, _, _, rfl, valid', Or.inr ⟨by simp, full, refused, isBuf', rfl⟩⟩
    | returned flag =>
      dsimp only
      rw [valid'.free isText, Option.map_some]
      exact ⟨_, _, _, rfl, valid'.release isText, Or.inr ⟨notTrue, full, refused,
        isBuf'.release valid' isText notBuffer, rfl⟩⟩

/-! ## Clearing and taking -/

omit lawful in
theorem strBufClear_spec : ∃ after buffer', strBufClear memory buffer = some (after, buffer') ∧
    after.Valid ∧ IsBuf after buffer' [] := by
  have room := isBuf.room
  have first : memory.Readable buffer.a [(0 : UInt8)].length := by
    apply (isBuf.readable valid).part (Nat.le_refl _)
    rw [List.length_singleton]
    omega
  have refused : ¬ (¬ strsValid buffer.a buffer.b ∨ buffer.a = 0 ∨ buffer.capacity < 1) := by
    rw [isBuf.isValid valid]
    have notNull := isBuf.notNull valid
    simp only [not_true_eq_false, false_or, not_or]
    omega
  unfold strBufClear
  rw [if_neg refused, first.write, Option.map_some]
  exact ⟨_, _, rfl, valid.put _ _, ⟨isBuf.ownData.notNull, isBuf.ownData.readable.put _ _,
    isBuf.ownData.apart⟩, isBuf.storage, isBuf.fits, rfl, Nat.zero_lt_of_lt room,
    Memory.holds_put _ _ _⟩

omit lawful in
theorem strBufFini_spec : ∃ after buffer', strBufFini memory buffer = some (after, buffer') ∧
    after.Valid ∧ IsBuf after buffer' [] := by
  unfold strBufFini
  by_cases isInline : buffer.a = buffer.inlineData
  · rw [if_neg (by simp [isInline]), Option.bind_some]
    obtain ⟨init, isEmpty, valid'⟩ := strBufInit_spec valid isBuf.ownData
    exact ⟨_, _, init, valid', isEmpty⟩
  · have isBlock := isBuf.storage.resolve_left fun own => isInline own.1
    obtain ⟨init, isEmpty, valid'⟩ :=
      strBufInit_spec (valid.release isBlock) (isBuf.ownData.release isBlock)
    rw [if_pos ⟨isBuf.notNull valid, isInline⟩, valid.free isBlock, Option.bind_some]
    exact ⟨_, _, init, valid', isEmpty⟩

/-- A block that holds a C string and no longer belongs to the buffer. -/
def Given (memory : Memory) (data : Nat) (content : List UInt8) : Prop :=
  (∃ n, memory.blocks data = some n ∧ content.length < n) ∧ memory.Holds data (content ++ [0])

theorem strBufTake_spec : ∃ outcome after buffer', strBufTake allocator memory buffer =
      some (outcome, after, buffer') ∧ after.Valid ∧
    ((∃ data, outcome = .returned (some (data, content.length)) ∧ data ≠ 0 ∧
        Given after data content ∧ data ≠ buffer'.a ∧ IsBuf after buffer' []) ∨
      outcome = .thrown ∧ allocator (content.length + 1) = none ∧ after = memory ∧
        buffer' = buffer) := by
  have room := isBuf.room
  have isLength : (content ++ [0]).length = content.length + 1 := by
    rw [List.length_append, List.length_singleton]
  -- The block is still there after the own bytes have been initialized.
  have given {between : Memory} {data n : Nat} (valid : between.Valid)
      (ownData : OwnData between buffer.inlineData) (isBlock : between.blocks data = some n)
      (more : content.length < n) (holds : between.Holds data (content ++ [0])) :
      ∃ after, strBufInit between buffer.inlineData = some (after,
          ⟨buffer.inlineData, buffer.inlineData, strBufInlineCapacity, buffer.inlineData⟩) ∧
        after.Valid ∧ data ≠ 0 ∧ Given after data content ∧ data ≠ buffer.inlineData ∧
        IsBuf after ⟨buffer.inlineData, buffer.inlineData, strBufInlineCapacity,
          buffer.inlineData⟩ [] := by
    obtain ⟨init, isEmpty, valid'⟩ := strBufInit_spec valid ownData
    refine ⟨_, init, valid', (valid.positive isBlock).1, ⟨⟨n, isBlock, more⟩, ?_⟩,
      ownData.ne valid isBlock, isEmpty⟩
    apply holds.agree
    apply Memory.agree_put
    have apart := ownData.apart data n isBlock
    apply Memory.Apart.part _ (Nat.le_refl _) (show buffer.inlineData + _ ≤
      buffer.inlineData + strBufInlineCapacity from _)
    · exact (apart.symm.part (Nat.le_refl _) (by omega)).symm
    · rw [List.length_singleton]
      unfold strBufInlineCapacity
      omega
  unfold strBufTake
  rw [if_neg (by
    rw [isBuf.isValid valid]
    simp [isBuf.notNull valid])]
  dsimp only
  rw [isBuf.length valid, if_neg (by omega)]
  by_cases isInline : buffer.a = buffer.inlineData
  · rw [if_pos isInline]
    unfold Memory.mAlloc
    cases answer : allocator (content.length + 1) with
    | none => exact ⟨_, _, _, rfl, valid, Or.inr ⟨rfl, rfl, rfl, rfl⟩⟩
    | some block =>
      obtain ⟨data, fill⟩ := block
      have unused : memory.Unused data (content.length + 1) := lawful _ _ answer
      have isFill : ((List.range (content.length + 1)).map fill).length =
          content.length + 1 := by
        rw [List.length_map, List.length_range]
      rw [Option.map_some]
      dsimp only
      generalize (List.range (content.length + 1)).map fill = bytes at isFill
      rw [← isFill] at unused
      have some' : 0 < bytes.length := by omega
      have isBuf' := isBuf.allocate valid unused some'
      have apart := unused.apart (isBuf.readable valid)
      have copied := @Memory.memCpy_some (memory.allocate data bytes) data buffer.a
        (content ++ [0]) isBuf'.holds (by
          rw [isLength, ← isFill]
          exact Memory.readable_allocate memory data bytes)
        (by
          rw [isLength, ← isFill]
          exact (apart.symm.part (Nat.le_refl _) (by omega)).symm)
      rw [isLength] at copied
      obtain ⟨after, init, valid', notNull, isGiven, differs, isEmpty⟩ :=
        given ((valid.allocate unused some').put data (content ++ [0]))
          ⟨isBuf'.ownData.notNull, isBuf'.ownData.readable.put _ _, isBuf'.ownData.apart⟩
          Memory.allocate_self (by omega) (Memory.holds_put _ _ _)
      rw [copied, Option.bind_some, init, Option.map_some]
      exact ⟨_, _, _, rfl, valid', Or.inl ⟨data, rfl, notNull, isGiven, differs, isEmpty⟩⟩
  · have isBlock := isBuf.storage.resolve_left fun own => isInline own.1
    obtain ⟨after, init, valid', notNull, isGiven, differs, isEmpty⟩ :=
      given valid isBuf.ownData isBlock room isBuf.holds
    rw [if_neg isInline, init, Option.map_some]
    exact ⟨_, _, _, rfl, valid', Or.inl ⟨buffer.a, rfl, notNull, isGiven, differs, isEmpty⟩⟩

end Aholyc.StrBuf
