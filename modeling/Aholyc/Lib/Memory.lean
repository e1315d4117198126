import Mathlib.Data.List.Basic
import Mathlib.Logic.Function.Basic
import Mathlib.Tactic.Common

/-!
# Memory with blocks

Bytes at addresses, some of them in blocks that an allocator has handed out.
What is read, written or given back outside of that has no result, so that a
computation with a result has used no memory after it was freed.
-/

namespace Aholyc.Lib

structure Memory where
  bytes : Nat → Option UInt8
  /-- The size of the block that starts at an address. -/
  blocks : Nat → Option Nat

namespace Memory

def read (memory : Memory) (start : Nat) : Nat → Option (List UInt8)
  | 0 => some []
  | n + 1 =>
    (memory.bytes start).bind fun byte => (memory.read (start + 1) n).map (byte :: ·)

def put (memory : Memory) (start : Nat) (bytes : List UInt8) : Memory where
  bytes := fun place =>
    if start ≤ place ∧ place < start + bytes.length then bytes[place - start]?
    else memory.bytes place
  blocks := memory.blocks

def write (memory : Memory) (start : Nat) (bytes : List UInt8) : Option Memory :=
  if (memory.read start bytes.length).isSome then some (memory.put start bytes) else none

def memCpy (memory : Memory) (target source n : Nat) : Option Memory :=
  if n = 0 ∨ target + n ≤ source ∨ source + n ≤ target then
    (memory.read source n).bind (memory.write target)
  else none

/-- What an allocator answers to a size: the address of the new block and what
lies in it, or nothing. -/
abbrev Allocator := Nat → Option (Nat × (Nat → UInt8))

def allocate (memory : Memory) (start : Nat) (bytes : List UInt8) : Memory where
  bytes := (memory.put start bytes).bytes
  blocks := Function.update memory.blocks start (some bytes.length)

/-- `MAlloc`; `none` is the exception that it throws. -/
def mAlloc (memory : Memory) (allocator : Allocator) (size : Nat) : Option (Nat × Memory) :=
  (allocator size).map fun answer =>
    (answer.1, memory.allocate answer.1 ((List.range size).map answer.2))

def release (memory : Memory) (start n : Nat) : Memory where
  bytes := fun place =>
    if start ≤ place ∧ place < start + n then none else memory.bytes place
  blocks := Function.update memory.blocks start none

def free (memory : Memory) (start : Nat) : Option Memory :=
  if start = 0 then some memory else (memory.blocks start).map (memory.release start)

/-- What a call does: it returns, or `MAlloc` throws in it. -/
inductive Outcome (α : Type) where
  | returned (value : α)
  | thrown
  deriving DecidableEq, Repr

/-! ## Areas -/

def Holds (memory : Memory) (start : Nat) (bytes : List UInt8) : Prop :=
  ∀ i < bytes.length, memory.bytes (start + i) = bytes[i]?

def Readable (memory : Memory) (start n : Nat) : Prop :=
  ∀ i < n, ∃ byte, memory.bytes (start + i) = some byte

def Apart (start n start' n' : Nat) : Prop :=
  n = 0 ∨ n' = 0 ∨ start + n ≤ start' ∨ start' + n' ≤ start

def Agree (memory after : Memory) (start n : Nat) : Prop :=
  ∀ i < n, after.bytes (start + i) = memory.bytes (start + i)

variable {memory after : Memory} {start n start' n' : Nat} {bytes bytes' : List UInt8}

theorem Apart.symm (apart : Apart start n start' n') : Apart start' n' start n := by
  unfold Apart at apart ⊢
  omega

theorem Apart.part {part k : Nat} (apart : Apart start n start' n') (low : start ≤ part)
    (high : part + k ≤ start + n) : Apart part k start' n' := by
  unfold Apart at apart ⊢
  omega

theorem Agree.part {part k : Nat} (agree : Agree memory after start n) (low : start ≤ part)
    (high : part + k ≤ start + n) : Agree memory after part k := by
  intro i less
  have same := agree (part - start + i) (by omega)
  rwa [show start + (part - start + i) = part + i by omega] at same

theorem Agree.trans {last : Memory} (first : Agree memory after start n)
    (second : Agree after last start n) : Agree memory last start n :=
  fun i less => (second i less).trans (first i less)

theorem Agree.refl (memory : Memory) (start n : Nat) : Agree memory memory start n :=
  fun _ _ => rfl

theorem Holds.agree (holds : Holds memory start bytes)
    (agree : Agree memory after start bytes.length) : Holds after start bytes :=
  fun i less => (agree i less).trans (holds i less)

theorem Readable.agree (readable : Readable memory start n) (agree : Agree memory after start n) :
    Readable after start n := by
  intro i less
  rw [agree i less]
  exact readable i less

theorem Readable.part {part k : Nat} (readable : Readable memory start n) (low : start ≤ part)
    (high : part + k ≤ start + n) : Readable memory part k := by
  intro i less
  have isByte := readable (part - start + i) (by omega)
  rwa [show start + (part - start + i) = part + i by omega] at isByte

theorem Holds.readable (holds : Holds memory start bytes) :
    Readable memory start bytes.length :=
  fun i less => ⟨bytes[i], (holds i less).trans (List.getElem?_eq_getElem less)⟩

theorem Holds.part (holds : Holds memory start bytes) (k l : Nat) (inside : k + l ≤ bytes.length) :
    Holds memory (start + k) ((bytes.drop k).take l) := by
  intro i less
  rw [List.length_take, List.length_drop] at less
  rw [Nat.add_assoc, holds (k + i) (by omega), List.getElem?_take_of_lt (by omega),
    List.getElem?_drop]

theorem Holds.append (first : Holds memory start bytes)
    (second : Holds memory (start + bytes.length) bytes') :
    Holds memory start (bytes ++ bytes') := by
  intro i less
  rw [List.length_append] at less
  by_cases inFirst : i < bytes.length
  · rw [List.getElem?_append_left inFirst]
    exact first i inFirst
  · have isNext := second (i - bytes.length) (by omega)
    rw [show start + bytes.length + (i - bytes.length) = start + i by omega] at isNext
    rw [isNext, List.getElem?_append_right (by omega)]

theorem Holds.unique (one : Holds memory start bytes) (two : Holds memory start bytes')
    (same : bytes.length = bytes'.length) : bytes = bytes' := by
  apply List.ext_getElem? fun i => ?_
  by_cases less : i < bytes.length
  · exact (one i less).symm.trans (two i (by omega))
  · rw [List.getElem?_eq_none (by omega), List.getElem?_eq_none (by omega)]

theorem holds_append {front back : List UInt8} :
    memory.Holds start (front ++ back) ↔
      memory.Holds start front ∧ memory.Holds (start + front.length) back := by
  constructor
  · intro holds
    have first := holds.part 0 front.length (by rw [List.length_append]; omega)
    have second := holds.part front.length back.length (Nat.le_of_eq List.length_append.symm)
    rw [List.drop_zero, List.take_left] at first
    rw [List.drop_left, List.take_length] at second
    exact ⟨first, second⟩
  · intro both
    exact both.1.append both.2

/-! ## Reading and writing -/

theorem read_eq_some : memory.read start n = some bytes ↔
    bytes.length = n ∧ memory.Holds start bytes := by
  induction n generalizing start bytes with
  | zero =>
    rw [read, Option.some.injEq]
    constructor
    · rintro rfl
      exact ⟨rfl, fun i less => absurd less (Nat.not_lt_zero i)⟩
    · intro both
      exact (List.length_eq_zero_iff.mp both.1).symm
  | succ n ih =>
    simp only [read, Option.bind_eq_some_iff, Option.map_eq_some_iff]
    constructor
    · rintro ⟨byte, isByte, rest, isRest, rfl⟩
      obtain ⟨isLength, holds⟩ := ih.mp isRest
      refine ⟨by rw [List.length_cons, isLength], ?_⟩
      intro i less
      cases i with
      | zero => rw [Nat.add_zero, isByte, List.getElem?_cons_zero]
      | succ i =>
        rw [List.length_cons] at less
        have isNext := holds i (by omega)
        rw [List.getElem?_cons_succ, ← isNext, Nat.add_assoc, Nat.add_comm 1 i]
    · rintro ⟨isLength, holds⟩
      cases bytes with
      | nil => cases isLength
      | cons byte rest =>
        rw [List.length_cons] at isLength
        refine ⟨byte, ?_, rest, ih.mpr ⟨by omega, ?_⟩, rfl⟩
        · have isFirst := holds 0 (by rw [List.length_cons]; omega)
          rwa [Nat.add_zero, List.getElem?_cons_zero] at isFirst
        · intro i less
          have isNext := holds (i + 1) (by rw [List.length_cons]; omega)
          rwa [List.getElem?_cons_succ, Nat.add_comm i 1, ← Nat.add_assoc] at isNext

theorem Holds.read (holds : Holds memory start bytes) :
    memory.read start bytes.length = some bytes :=
  read_eq_some.mpr ⟨rfl, holds⟩

theorem Readable.read (readable : Readable memory start n) :
    ∃ bytes, memory.read start n = some bytes ∧ bytes.length = n ∧ memory.Holds start bytes := by
  induction n generalizing start with
  | zero => exact ⟨[], rfl, rfl, fun i less => absurd less (Nat.not_lt_zero i)⟩
  | succ n ih =>
    obtain ⟨byte, isByte⟩ := readable 0 (Nat.succ_pos n)
    obtain ⟨rest, isRest, _⟩ := ih (readable.part (Nat.le_succ start) (by omega))
    have whole : memory.read start (n + 1) = some (byte :: rest) := by
      rw [Nat.add_zero] at isByte
      rw [Memory.read, isByte, Option.bind_some, isRest, Option.map_some]
    exact ⟨byte :: rest, whole, read_eq_some.mp whole⟩

theorem Readable.write (readable : Readable memory start bytes.length) :
    memory.write start bytes = some (memory.put start bytes) := by
  obtain ⟨old, isOld, _⟩ := readable.read
  unfold Memory.write
  rw [isOld]
  rfl

theorem put_inside {i : Nat} (less : i < bytes.length) :
    (memory.put start bytes).bytes (start + i) = bytes[i]? := by
  unfold put
  dsimp only
  rw [if_pos (by omega), Nat.add_sub_cancel_left]

theorem put_outside {place : Nat} (outside : place < start ∨ start + bytes.length ≤ place) :
    (memory.put start bytes).bytes place = memory.bytes place := by
  unfold put
  exact if_neg (by omega)

theorem holds_put (memory : Memory) (start : Nat) (bytes : List UInt8) :
    Holds (memory.put start bytes) start bytes :=
  fun _ less => put_inside less

theorem agree_put (apart : Apart start bytes.length start' n') :
    Agree memory (memory.put start bytes) start' n' := by
  intro i less
  unfold Apart at apart
  apply put_outside
  omega

theorem put_append (memory : Memory) (start : Nat) (bytes bytes' : List UInt8) :
    (memory.put start bytes).put (start + bytes.length) bytes' =
      memory.put start (bytes ++ bytes') := by
  unfold Memory.put
  simp only [Memory.mk.injEq, and_true]
  funext place
  simp only [List.length_append]
  by_cases inFirst : start ≤ place ∧ place < start + bytes.length
  · rw [if_neg (by omega), if_pos inFirst, if_pos (by omega),
      List.getElem?_append_left (by omega)]
  · by_cases inSecond : start + bytes.length ≤ place ∧
        place < start + bytes.length + bytes'.length
    · rw [if_pos inSecond, if_pos (by omega), List.getElem?_append_right (by omega),
        Nat.sub_sub]
    · rw [if_neg inSecond, if_neg inFirst, if_neg (by omega)]

theorem Readable.put (readable : Readable memory start' n') (start : Nat) (bytes : List UInt8) :
    Readable (memory.put start bytes) start' n' := by
  intro i less
  by_cases inside : start ≤ start' + i ∧ start' + i < start + bytes.length
  · have isByte := @put_inside memory start bytes (start' + i - start) (by omega)
    rw [show start + (start' + i - start) = start' + i by omega,
      List.getElem?_eq_getElem (by omega)] at isByte
    exact ⟨_, isByte⟩
  · rw [put_outside (by omega)]
    exact readable i less

/-- The bytes are moved to an area that does not overlap theirs. -/
theorem memCpy_some (holds : Holds memory start' bytes)
    (room : Readable memory start bytes.length)
    (apart : Apart start bytes.length start' bytes.length) :
    memory.memCpy start start' bytes.length = some (memory.put start bytes) := by
  unfold Apart at apart
  unfold memCpy
  rw [if_pos (by omega), holds.read, Option.bind_some, room.write]

/-! ## Blocks -/

def Unused (memory : Memory) (start n : Nat) : Prop :=
  start ≠ 0 ∧ ∀ i < n, memory.bytes (start + i) = none

def Allocator.Lawful (allocator : Allocator) (memory : Memory) : Prop :=
  ∀ size answer, allocator size = some answer → memory.Unused answer.1 size

structure Valid (memory : Memory) : Prop where
  positive : ∀ {start n}, memory.blocks start = some n → start ≠ 0 ∧ 0 < n
  readable : ∀ {start n}, memory.blocks start = some n → memory.Readable start n
  apart : ∀ {start n start' n'}, memory.blocks start = some n → memory.blocks start' = some n' →
    start ≠ start' → Apart start n start' n'

theorem valid_empty : Valid ⟨fun _ => none, fun _ => none⟩ where
  positive := fun isBlock => by cases isBlock
  readable := fun isBlock => by cases isBlock
  apart := fun isBlock => by cases isBlock

/-- What can be read is apart from what is not in use. -/
theorem Unused.apart (unused : Unused memory start n) (readable : Readable memory start' n') :
    Apart start n start' n' := by
  unfold Apart
  by_contra overlaps
  by_cases before : start ≤ start'
  · have isNone := unused.2 (start' - start) (by omega)
    obtain ⟨byte, isByte⟩ := readable 0 (by omega)
    rw [show start + (start' - start) = start' + 0 by omega, isByte] at isNone
    cases isNone
  · have isNone := unused.2 0 (by omega)
    obtain ⟨byte, isByte⟩ := readable (start - start') (by omega)
    rw [show start + 0 = start' + (start - start') by omega, isByte] at isNone
    cases isNone

theorem Valid.put (valid : Valid memory) (start : Nat) (bytes : List UInt8) :
    Valid (memory.put start bytes) where
  positive := valid.positive
  apart := valid.apart
  readable := fun isBlock => (valid.readable isBlock).put start bytes

theorem agree_allocate (unused : Unused memory start bytes.length)
    (readable : Readable memory start' n') :
    Agree memory (memory.allocate start bytes) start' n' :=
  agree_put (unused.apart readable)

theorem allocate_self : (memory.allocate start bytes).blocks start = some bytes.length :=
  Function.update_self _ _ _

theorem allocate_other {block : Nat} (other : block ≠ start) :
    (memory.allocate start bytes).blocks block = memory.blocks block :=
  Function.update_of_ne other _ _

theorem readable_allocate (memory : Memory) (start : Nat) (bytes : List UInt8) :
    Readable (memory.allocate start bytes) start bytes.length :=
  (holds_put memory start bytes).readable

theorem Valid.allocate (valid : Valid memory) (unused : Unused memory start bytes.length)
    (notNil : 0 < bytes.length) : Valid (memory.allocate start bytes) := by
  have old {block n : Nat} (other : block ≠ start)
      (isBlock : (memory.allocate start bytes).blocks block = some n) :
      memory.blocks block = some n := by
    rwa [allocate_other other] at isBlock
  have new {n : Nat} (isBlock : (memory.allocate start bytes).blocks start = some n) :
      n = bytes.length := by
    rw [allocate_self, Option.some.injEq] at isBlock
    exact isBlock.symm
  constructor
  · intro block n isBlock
    by_cases isNew : block = start
    · rw [isNew] at isBlock ⊢
      rw [new isBlock]
      exact ⟨unused.1, notNil⟩
    · exact valid.positive (old isNew isBlock)
  · intro block n isBlock
    by_cases isNew : block = start
    · rw [isNew] at isBlock ⊢
      rw [new isBlock]
      exact readable_allocate memory start bytes
    · have readable := valid.readable (old isNew isBlock)
      exact readable.agree (agree_allocate unused readable)
  · intro block n block' n' isBlock isBlock' differ
    by_cases isNew : block = start
    · rw [isNew] at isBlock differ ⊢
      rw [new isBlock]
      exact unused.apart (valid.readable (old differ.symm isBlock'))
    · by_cases isNew' : block' = start
      · rw [isNew'] at isBlock' ⊢
        rw [new isBlock']
        exact (unused.apart (valid.readable (old isNew isBlock))).symm
      · exact valid.apart (old isNew isBlock) (old isNew' isBlock') differ

theorem agree_release (apart : Apart start n start' n') :
    Agree memory (memory.release start n) start' n' := by
  intro i less
  unfold Apart at apart
  unfold release
  exact if_neg (by omega)

theorem release_other {block : Nat} (other : block ≠ start) :
    (memory.release start n).blocks block = memory.blocks block :=
  Function.update_of_ne other _ _

theorem Valid.free (valid : Valid memory) (isBlock : memory.blocks start = some n) :
    memory.free start = some (memory.release start n) := by
  unfold Memory.free
  rw [if_neg (valid.positive isBlock).1, isBlock, Option.map_some]

theorem Valid.release (valid : Valid memory) (isBlock : memory.blocks start = some n) :
    Valid (memory.release start n) := by
  have old {block k : Nat} (isOther : (memory.release start n).blocks block = some k) :
      block ≠ start ∧ memory.blocks block = some k := by
    by_cases isFreed : block = start
    · have isNone : (memory.release start n).blocks start = none := Function.update_self _ _ _
      rw [isFreed, isNone] at isOther
      cases isOther
    · rw [release_other isFreed] at isOther
      exact ⟨isFreed, isOther⟩
  constructor
  · intro block k isOther
    exact valid.positive (old isOther).2
  · intro block k isOther
    have readable := valid.readable (old isOther).2
    exact readable.agree (agree_release (valid.apart isBlock (old isOther).2 (old isOther).1.symm))
  · intro block k block' k' isOther isOther' differ
    exact valid.apart (old isOther).2 (old isOther').2 differ

end Memory

end Aholyc.Lib
