import Aholyc.Alloc.Alloc

/-!
# The linear allocator (lib/alloc/linear.hc)

The newest block is resized in place; any other one that grows is copied to the
end. Nothing that is live is handed out again.
-/

namespace Aholyc.Alloc

open Aholyc.Lib

structure CLinearAllocator where
  memory : Int
  capacity : Int
  used : Int
  deriving DecidableEq, Repr

def memCpy (bytes : Bytes) (destination source size : Int) : Option Bytes :=
  if destination + size ≤ source ∨ source + size ≤ destination then
    some fun address =>
      if destination ≤ address ∧ address < destination + size then
        bytes (source + (address - destination))
      else bytes address
  else none

def CLinearAllocator.refused (linear : CLinearAllocator) : Bool :=
  linear.capacity < 0 ∨ linear.used < 0 ∨ linear.used > linear.capacity ∨
    (linear.memory = 0 ∧ linear.capacity ≠ 0)

/-- A new block at the end, with the bytes of the old one if there is one. -/
def linearAllocatorPlace (linear : CLinearAllocator) (bytes : Bytes)
    (memory oldSize newSize alignment : Int) : Option (CLinearAllocator × Bytes × Int) :=
  match place linear.memory linear.capacity linear.used newSize alignment with
  | none => some (linear, bytes, 0)
  | some position =>
    let after := { linear with used := i64 (position + newSize) }
    let result := u64 (linear.memory + position)
    if memory ≠ 0 then
      (memCpy bytes result memory oldSize).map fun bytes => (after, bytes, result)
    else some (after, bytes, result)

/-- The allocator and the bytes behind the call, and what is returned; NULL is
0. -/
def linearAllocatorRealloc (linear : CLinearAllocator) (bytes : Bytes)
    (memory oldSize newSize alignment : Int) : Option (CLinearAllocator × Bytes × Int) :=
  if oldSize < 0 ∨ newSize < 0 ∨ !allocAlignmentValid alignment ∨ linear.refused then
    some (linear, bytes, 0)
  else if memory ≠ 0 then
    match offsetOf linear.memory memory alignment with
    | none => some (linear, bytes, 0)
    | some position =>
      if position > linear.used ∨ oldSize > i64 (linear.used - position) then
        some (linear, bytes, 0)
      else if i64 (position + oldSize) = linear.used then
        if newSize > i64 (linear.capacity - position) then some (linear, bytes, 0)
        else
          some ({ linear with used := i64 (position + newSize) }, bytes,
            if newSize = 0 then 0 else memory)
      else if newSize = 0 then some (linear, bytes, 0)
      else if newSize ≤ oldSize then some (linear, bytes, memory)
      else linearAllocatorPlace linear bytes memory oldSize newSize alignment
  else if oldSize ≠ 0 ∨ newSize = 0 then some (linear, bytes, 0)
  else linearAllocatorPlace linear bytes memory oldSize newSize alignment

def linearAllocatorInit (memory capacity : Int) : Option CLinearAllocator :=
  if capacity < 0 ∨ (memory = 0 ∧ capacity ≠ 0) then none else some ⟨memory, capacity, 0⟩

def linearAllocatorRewind (linear : CLinearAllocator) (mark : Int) : CLinearAllocator × Bool :=
  if linear.used < 0 ∨ linear.used > linear.capacity ∨ mark < 0 ∨ mark > linear.used then
    (linear, false)
  else ({ linear with used := mark }, true)

def linearAllocatorReset (linear : CLinearAllocator) : CLinearAllocator :=
  { linear with used := 0 }

/-! ## Histories -/

inductive LinearRequest where
  | alloc (size alignment : Int)
  /-- The live block at the index, with its own size. -/
  | realloc (index : Nat) (newSize alignment : Int)
  /-- Free is a no-op of the allocator. -/
  | free (index : Nat)
  /-- The owners of the blocks write what they like. -/
  | write (bytes : Bytes)
  | rewind (mark : Int)
  | reset

structure LinearHistory where
  linear : CLinearAllocator
  bytes : Bytes
  live : List LiveBlock

/-- The history after the request, and the pointer that is returned. A copy of
overlapping regions has no result. A rewind releases the blocks that start behind the mark; one
that starts in front of it stays live with all its bytes. -/
def LinearHistory.step (history : LinearHistory) : LinearRequest → Option (LinearHistory × Int)
  | .alloc size alignment =>
    (linearAllocatorRealloc history.linear history.bytes 0 0 size alignment).map fun after =>
      (⟨after.1, after.2.1, if after.2.2 = 0 then history.live
        else ⟨⟨after.2.2, size⟩, alignment⟩ :: history.live⟩, after.2.2)
  | .realloc index newSize alignment =>
    match history.live[index]? with
    | none => some (history, 0)
    | some block =>
      (linearAllocatorRealloc history.linear history.bytes block.region.start block.region.size
        newSize alignment).map fun after =>
          (⟨after.1, after.2.1, if newSize = 0 then history.live.eraseIdx index
            else if after.2.2 = 0 then history.live
            else history.live.set index ⟨⟨after.2.2, newSize⟩, alignment⟩⟩, after.2.2)
  | .free index => some ({ history with live := history.live.eraseIdx index }, 0)
  | .write bytes => some ({ history with bytes := bytes }, 0)
  | .rewind mark =>
    let after := linearAllocatorRewind history.linear mark
    some (⟨after.1, history.bytes, if after.2 then
      history.live.filter fun block => block.region.start < history.linear.memory + mark
      else history.live⟩, 0)
  | .reset => some ({ history with linear := linearAllocatorReset history.linear, live := [] }, 0)

def LinearHistory.run (history : LinearHistory) : List LinearRequest → Option LinearHistory
  | [] => some history
  | request :: rest => (history.step request).bind fun after => after.1.run rest

/-- A rewind cuts no block in two: whatever starts in front of the mark ends there. -/
def LinearHistory.Tidy (history : LinearHistory) : LinearRequest → Prop
  | .rewind mark => ∀ block ∈ history.live,
      block.region.start < history.linear.memory + mark →
      block.region.stop ≤ history.linear.memory + mark
  | _ => True

def LinearHistory.AllTidy (history : LinearHistory) : List LinearRequest → Prop
  | [] => True
  | request :: rest => history.Tidy request ∧
      ∀ after ∈ history.step request, after.1.AllTidy rest

instance (history : LinearHistory) : DecidablePred history.Tidy
  | .rewind _ => inferInstanceAs (Decidable (∀ block ∈ history.live, _ → _))
  | .alloc .. => .isTrue trivial
  | .realloc .. => .isTrue trivial
  | .free _ => .isTrue trivial
  | .write _ => .isTrue trivial
  | .reset => .isTrue trivial

instance LinearHistory.decidableAllTidy (history : LinearHistory) :
    DecidablePred history.AllTidy
  | [] => .isTrue trivial
  | request :: rest =>
    have (after : LinearHistory × Int) := after.1.decidableAllTidy rest
    inferInstanceAs (Decidable (_ ∧ ∀ after ∈ history.step request, _))

/-! ## What a call does -/

structure LiveBlock.Sound (memory used : Int) (block : LiveBlock) : Prop where
  positive : 0 < block.region.size
  aligned : block.region.start % block.alignment = 0
  inside : Region.Within memory (memory + used) block.region

structure CLinearAllocator.Valid (memory capacity : Int) (linear : CLinearAllocator) : Prop where
  memory_eq : linear.memory = memory
  capacity_eq : linear.capacity = capacity
  low : 0 ≤ linear.used
  high : linear.used ≤ capacity

def copied (bytes : Bytes) (destination : Int) (region : Region) : Bytes := fun address =>
  if destination ≤ address ∧ address < destination + region.size then
    bytes (region.start + (address - destination))
  else bytes address

inductive Reallocates (memory capacity : Int) (linear : CLinearAllocator) (bytes : Bytes)
    (block : LiveBlock) (newSize alignment : Int) : CLinearAllocator × Bytes × Int → Prop where
  | refused : Reallocates memory capacity linear bytes block newSize alignment (linear, bytes, 0)
  | released (isTop : block.region.stop = memory + linear.used) (isZero : newSize = 0) :
      Reallocates memory capacity linear bytes block newSize alignment
        ({ linear with used := block.region.start - memory }, bytes, 0)
  | resized (isTop : block.region.stop = memory + linear.used) (positive : 0 < newSize)
      (room : block.region.start - memory + newSize ≤ capacity)
      (aligned : block.region.start % alignment = 0) :
      Reallocates memory capacity linear bytes block newSize alignment
        ({ linear with used := block.region.start - memory + newSize }, bytes, block.region.start)
  | kept (positive : 0 < newSize) (smaller : newSize ≤ block.region.size)
      (aligned : block.region.start % alignment = 0) :
      Reallocates memory capacity linear bytes block newSize alignment
        (linear, bytes, block.region.start)
  | moved (position : Int) (larger : block.region.size < newSize) (behind : linear.used ≤ position)
      (room : position + newSize ≤ capacity) (aligned : (memory + position) % alignment = 0) :
      Reallocates memory capacity linear bytes block newSize alignment
        ({ linear with used := position + newSize },
          copied bytes (memory + position) block.region, memory + position)

section

variable {memory capacity : Int} {linear : CLinearAllocator} {bytes : Bytes}

theorem CLinearAllocator.refused_eq (buffer : Buffer memory capacity)
    (valid : linear.Valid memory capacity) : linear.refused = false := by
  obtain ⟨isMemory, isCapacity, low, high⟩ := valid
  have present := buffer.present
  unfold CLinearAllocator.refused
  rw [decide_eq_false_iff_not, isMemory, isCapacity]
  omega

/-- The call finds no room, or takes the bytes behind the cursor. -/
theorem linearAllocatorPlace_eq (buffer : Buffer memory capacity)
    (valid : linear.Valid memory capacity) (bytes : Bytes) (pointer oldSize : Int)
    {newSize alignment : Int} (isValid : allocAlignmentValid alignment = true)
    (positive : 0 < newSize) (within : pointer + oldSize ≤ memory + linear.used) :
    linearAllocatorPlace linear bytes pointer oldSize newSize alignment =
        some (linear, bytes, 0) ∨
      ∃ position, linear.used ≤ position ∧ position + newSize ≤ capacity ∧
        (memory + position) % alignment = 0 ∧ memory + position ≠ 0 ∧
        linearAllocatorPlace linear bytes pointer oldSize newSize alignment =
          some ({ linear with used := position + newSize },
            if pointer ≠ 0 then copied bytes (memory + position) ⟨pointer, oldSize⟩ else bytes,
            memory + position) := by
  have fits := buffer.small
  have top := buffer.inside
  have start := buffer.positive
  have present := buffer.present
  obtain ⟨isMemory, isCapacity, low, high⟩ := valid
  unfold linearAllocatorPlace
  rw [isMemory, isCapacity]
  cases placed : place memory capacity linear.used newSize alignment with
  | none => exact Or.inl rfl
  | some position =>
    obtain ⟨behind, room, aligned, _⟩ := place_eq_some buffer isValid low high positive placed
    have isUsed : i64 (position + newSize) = position + newSize := i64_eq (by omega) (by omega)
    have isResult : u64 (memory + position) = memory + position := u64_eq (by omega) (by omega)
    refine Or.inr ⟨position, behind, room, aligned, by omega, ?_⟩
    simp only [isUsed, isResult]
    split
    next =>
      have apart : memory + position + oldSize ≤ pointer ∨
          pointer + oldSize ≤ memory + position := by omega
      unfold memCpy
      rw [if_pos apart]
      rfl
    next => rfl

theorem linearAllocatorRealloc_alloc (buffer : Buffer memory capacity)
    (valid : linear.Valid memory capacity) (bytes : Bytes) (size alignment : Int) :
    linearAllocatorRealloc linear bytes 0 0 size alignment = some (linear, bytes, 0) ∨
      ∃ position, 0 < size ∧ linear.used ≤ position ∧ position + size ≤ capacity ∧
        (memory + position) % alignment = 0 ∧ memory + position ≠ 0 ∧
        linearAllocatorRealloc linear bytes 0 0 size alignment =
          some ({ linear with used := position + size }, bytes, memory + position) := by
  have start := buffer.positive
  have low := valid.low
  unfold linearAllocatorRealloc
  split
  · exact Or.inl rfl
  next accepted =>
    rw [if_neg (by simp)]
    split
    · exact Or.inl rfl
    next notEmpty =>
      have isValid : allocAlignmentValid alignment = true := by
        by_contra invalid
        simp [invalid] at accepted
      have positive : 0 < size := by omega
      cases linearAllocatorPlace_eq buffer valid bytes 0 0 isValid positive (by omega) with
      | inl failed => exact Or.inl failed
      | inr placed =>
        obtain ⟨position, behind, room, aligned, notNull, result⟩ := placed
        exact Or.inr ⟨position, positive, behind, room, aligned, notNull, result⟩

theorem linearAllocatorRealloc_reallocates (buffer : Buffer memory capacity)
    (valid : linear.Valid memory capacity) (bytes : Bytes) {block : LiveBlock}
    (sound : block.Sound memory linear.used) (newSize alignment : Int) :
    ∃ result, linearAllocatorRealloc linear bytes block.region.start block.region.size newSize
        alignment = some result ∧
      Reallocates memory capacity linear bytes block newSize alignment result := by
  have fits := buffer.small
  have top := buffer.inside
  have start := buffer.positive
  have present := buffer.present
  have ready := CLinearAllocator.refused_eq buffer valid
  have ⟨isMemory, isCapacity, low, high⟩ := valid
  subst isMemory
  obtain ⟨positive, _, inside⟩ := sound
  have lower := inside.low_le
  have upper := inside.le_high
  unfold Region.stop at upper
  unfold i64Max at fits
  unfold linearAllocatorRealloc
  split
  · exact ⟨_, rfl, .refused⟩
  next accepted =>
    have isValid : allocAlignmentValid alignment = true := by
      by_contra invalid
      simp [invalid] at accepted
    rw [if_pos (by omega)]
    cases found : offsetOf linear.memory block.region.start alignment with
    | none => exact ⟨_, rfl, .refused⟩
    | some position =>
      obtain ⟨isStart, nonneg, small, aligned⟩ :=
        offsetOf_eq_some start isValid (by omega) (by omega) found
      have rest : i64 (linear.used - position) = linear.used - position := by
        apply i64_eq
        · omega
        · unfold i64Max
          omega
      have isEnd : i64 (position + block.region.size) = position + block.region.size := by
        apply i64_eq
        · omega
        · unfold i64Max
          omega
      have room_ : i64 (linear.capacity - position) = capacity - position := by
        rw [isCapacity]
        apply i64_eq
        · omega
        · unfold i64Max
          omega
      have isPosition : position = block.region.start - linear.memory := by omega
      have notRefused : ¬(position > linear.used ∨
          block.region.size > linear.used - position) := by omega
      dsimp only
      rw [rest, isEnd, room_, if_neg notRefused]
      split
      next isTop =>
        split
        · exact ⟨_, rfl, .refused⟩
        next room =>
          have isUsed : i64 (position + newSize) =
              block.region.start - linear.memory + newSize := by
            rw [isPosition]
            apply i64_eq
            · omega
            · unfold i64Max
              omega
          have isStop : block.region.stop = linear.memory + linear.used := by
            unfold Region.stop
            omega
          rw [isUsed]
          by_cases isZero : newSize = 0
          · rw [if_pos isZero, isZero, Int.add_zero]
            exact ⟨_, rfl, .released isStop rfl⟩
          · rw [if_neg isZero]
            have above : 0 < newSize := by omega
            have fits_ : block.region.start - linear.memory + newSize ≤ capacity := by omega
            exact ⟨_, rfl, .resized isStop above fits_ aligned⟩
      next notTop =>
        split
        · exact ⟨_, rfl, .refused⟩
        next notZero =>
          split
          next smaller => exact ⟨_, rfl, .kept (by omega) smaller aligned⟩
          next larger =>
            have behind := linearAllocatorPlace_eq buffer valid bytes block.region.start
              block.region.size isValid (show 0 < newSize by omega) upper
            cases behind with
            | inl failed => exact ⟨_, failed, .refused⟩
            | inr placed =>
              obtain ⟨next, above, room, isAligned, _, result⟩ := placed
              have grows : block.region.size < newSize := by omega
              rw [if_pos (by omega)] at result
              exact ⟨_, result, .moved next grows above room isAligned⟩

/-! ## Blocks -/

theorem LiveBlock.Sound.higher {block : LiveBlock} {used used' : Int}
    (sound : block.Sound memory used) (le : used ≤ used') : block.Sound memory used' :=
  ⟨sound.positive, sound.aligned, sound.inside.mono (Int.le_refl memory) (by omega)⟩

end

/-- What holds in every state: the cursor is in the buffer, and the live blocks
are apart, aligned and below the cursor. -/
structure LinearHistory.Safe (memory capacity : Int) (history : LinearHistory) : Prop where
  valid : history.linear.Valid memory capacity
  sound : ∀ block ∈ history.live, block.Sound memory history.linear.used
  apart : (history.live.map LiveBlock.region).Pairwise Region.Apart

/-- A block that is reallocated is released, left as it is, or has its first
bytes in the new place. -/
structure LinearHistory.KeepsBlock (history after : LinearHistory) (result : Int) (index : Nat)
    (block : LiveBlock) (newSize alignment : Int) : Prop where
  released : newSize = 0 → after.live = history.live.eraseIdx index
  failed : newSize ≠ 0 → result = 0 → after.linear = history.linear ∧
    after.bytes = history.bytes ∧ after.live = history.live
  live : newSize ≠ 0 → result ≠ 0 →
    after.live = history.live.set index ⟨⟨result, newSize⟩, alignment⟩
  kept : newSize ≠ 0 → result ≠ 0 → ∀ k, 0 ≤ k → k < min block.region.size newSize →
    after.bytes (result + k) = history.bytes (block.region.start + k)
  others : ∀ other ∈ history.live.eraseIdx index, ∀ address, other.region.start ≤ address →
    address < other.region.stop → after.bytes address = history.bytes address

def LinearHistory.Keeps (history after : LinearHistory) (result : Int) : LinearRequest → Prop
  | .alloc size alignment =>
    after.bytes = history.bytes ∧
      (result = 0 → after.linear = history.linear ∧ after.live = history.live) ∧
      (result ≠ 0 → after.live = ⟨⟨result, size⟩, alignment⟩ :: history.live)
  | .realloc index newSize alignment =>
    ∀ block, history.live[index]? = some block →
      history.KeepsBlock after result index block newSize alignment
  | _ => True

section

variable {memory capacity : Int}

theorem LinearHistory.Safe.alloc (buffer : Buffer memory capacity) {history : LinearHistory}
    (safe : history.Safe memory capacity) (size alignment : Int) :
    ∃ after result, history.step (.alloc size alignment) = some (after, result) ∧
      after.Safe memory capacity ∧ history.Keeps after result (.alloc size alignment) := by
  have ⟨valid, sound, apart⟩ := safe
  have ⟨isMemory, isCapacity, low, high⟩ := valid
  cases linearAllocatorRealloc_alloc buffer valid history.bytes size alignment with
  | inl failed =>
    simp only [LinearHistory.step, failed, Option.map_some, if_true]
    exact ⟨_, _, rfl, safe, rfl, fun _ => ⟨rfl, rfl⟩, fun notNull => absurd rfl notNull⟩
  | inr placed =>
    obtain ⟨position, positive, behind, room, aligned, notNull, result⟩ := placed
    simp only [LinearHistory.step, result, Option.map_some, if_neg notNull]
    refine ⟨_, _, rfl, ⟨⟨isMemory, isCapacity, ?_, room⟩, ?_, ?_⟩, rfl,
      fun isNull => absurd isNull notNull, fun _ => rfl⟩
    · show 0 ≤ position + size
      omega
    · intro block isIn
      have new : LiveBlock.Sound memory (position + size)
          ⟨⟨memory + position, size⟩, alignment⟩ := by
        refine ⟨positive, aligned, ?_, ?_⟩
        · show memory ≤ memory + position
          omega
        · show memory + position + size ≤ memory + (position + size)
          omega
      cases List.mem_cons.mp isIn with
      | inl same =>
        rw [same]
        exact new
      | inr isOld =>
        have above : history.linear.used ≤ position + size := by omega
        exact (sound block isOld).higher above
    · rw [List.map_cons, List.pairwise_cons]
      refine ⟨?_, apart⟩
      intro region isIn
      obtain ⟨block, isOld, rfl⟩ := List.mem_map.mp isIn
      have upper := (sound block isOld).inside.le_high
      right
      show block.region.stop ≤ memory + position
      omega

/-- Nothing that is live lies above a block that ends at the cursor. -/
theorem LiveBlock.Sound.le_top {used : Int} {block other : LiveBlock}
    (sound : other.Sound memory used) (isTop : block.region.stop = memory + used)
    (apart : Region.Apart block.region other.region) : other.region.stop ≤ block.region.start := by
  have upper := sound.inside.le_high
  have positive := sound.positive
  cases apart with
  | inl behind =>
    unfold Region.stop at *
    omega
  | inr before => exact before

theorem copied_outside (bytes : Bytes) (destination : Int) (region : Region) {address : Int}
    (below : address < destination) : copied bytes destination region address = bytes address := by
  unfold copied
  rw [if_neg (by omega)]

theorem copied_inside (bytes : Bytes) (destination : Int) (region : Region) {k : Int}
    (nonneg : 0 ≤ k) (less : k < region.size) :
    copied bytes destination region (destination + k) = bytes (region.start + k) := by
  have offset : destination + k - destination = k := by omega
  unfold copied
  rw [if_pos (by omega), offset]

structure LinearHistory.Others (memory : Int) (history : LinearHistory) (block : LiveBlock)
    (front back : List LiveBlock) : Prop where
  live_eq : history.live = front ++ block :: back
  block_sound : block.Sound memory history.linear.used
  sound : ∀ other ∈ front ++ back, other.Sound memory history.linear.used
  apart_block : ∀ other ∈ front ++ back, Region.Apart block.region other.region
  apart : ((front ++ back).map LiveBlock.region).Pairwise Region.Apart

theorem pairwise_middle_iff {front back : List LiveBlock} {block : LiveBlock} :
    ((front ++ block :: back).map LiveBlock.region).Pairwise Region.Apart ↔
      (∀ other ∈ front ++ back, Region.Apart block.region other.region) ∧
        ((front ++ back).map LiveBlock.region).Pairwise Region.Apart := by
  rw [List.map_append, List.map_cons, List.pairwise_middle Region.Apart.symm, List.pairwise_cons,
    ← List.map_append, List.forall_mem_map]

theorem LinearHistory.Safe.others {history : LinearHistory} (safe : history.Safe memory capacity)
    {index : Nat} {block : LiveBlock} (found : history.live[index]? = some block) :
    history.Others memory block (history.live.take index) (history.live.drop (index + 1)) := by
  obtain ⟨inside, isBlock⟩ := List.getElem?_eq_some_iff.mp found
  have split : history.live =
      history.live.take index ++ block :: history.live.drop (index + 1) := by
    rw [← isBlock, ← List.drop_eq_getElem_cons inside, List.take_append_drop]
  have apart := safe.apart
  rw [split, pairwise_middle_iff] at apart
  refine ⟨split, safe.sound block (List.mem_of_getElem? found), ?_, apart.1, apart.2⟩
  intro other isIn
  apply safe.sound other
  rw [split]
  simp only [List.mem_append, List.mem_cons] at isIn ⊢
  cases isIn with
  | inl isFront => exact Or.inl isFront
  | inr isBack => exact Or.inr (Or.inr isBack)

section

variable {history : LinearHistory} {block : LiveBlock} {front back : List LiveBlock}

/-- The block is released, whether the cursor moves back or not. -/
theorem LinearHistory.Others.release (others : history.Others memory block front back)
    {linear : CLinearAllocator} (valid : linear.Valid memory capacity) (bytes : Bytes)
    (above : ∀ other ∈ front ++ back, other.region.stop ≤ memory + linear.used) :
    LinearHistory.Safe memory capacity ⟨linear, bytes, front ++ back⟩ := by
  refine ⟨valid, ?_, others.apart⟩
  intro other isIn
  have ⟨positive, aligned, inside⟩ := others.sound other isIn
  exact ⟨positive, aligned, inside.low_le, above other isIn⟩

theorem LinearHistory.Others.replace (others : history.Others memory block front back)
    {linear : CLinearAllocator} (valid : linear.Valid memory capacity) (bytes : Bytes)
    (above : ∀ other ∈ front ++ back, other.region.stop ≤ memory + linear.used)
    {new : LiveBlock} (sound : new.Sound memory linear.used)
    (apart : ∀ other ∈ front ++ back, Region.Apart new.region other.region) :
    LinearHistory.Safe memory capacity ⟨linear, bytes, front ++ new :: back⟩ := by
  have rest := others.release valid bytes above
  refine ⟨valid, ?_, pairwise_middle_iff.mpr ⟨apart, others.apart⟩⟩
  intro other isIn
  cases List.mem_append.mp isIn with
  | inl isFront => exact rest.sound other (List.mem_append_left back isFront)
  | inr isRest =>
    cases List.mem_cons.mp isRest with
    | inl same =>
      rw [same]
      exact sound
    | inr isBack => exact rest.sound other (List.mem_append_right front isBack)

end

def LinearHistory.after (history : LinearHistory) (index : Nat) (newSize alignment : Int)
    (result : CLinearAllocator × Bytes × Int) : LinearHistory :=
  ⟨result.1, result.2.1, if newSize = 0 then history.live.eraseIdx index
    else if result.2.2 = 0 then history.live
    else history.live.set index ⟨⟨result.2.2, newSize⟩, alignment⟩⟩

section

variable {history : LinearHistory} {index : Nat} {block : LiveBlock} {newSize alignment : Int}

variable {result : CLinearAllocator × Bytes × Int}

theorem LinearHistory.after_eq (found : history.live[index]? = some block) (notZero : newSize ≠ 0)
    (notNull : result.2.2 ≠ 0) :
    history.after index newSize alignment result =
      ⟨result.1, result.2.1, history.live.take index ++ ⟨⟨result.2.2, newSize⟩, alignment⟩ ::
        history.live.drop (index + 1)⟩ := by
  have isLess : index < history.live.length := (List.getElem?_eq_some_iff.mp found).1
  unfold LinearHistory.after
  simp only [if_neg notZero, if_neg notNull]
  rw [List.set_eq_take_append_cons_drop, if_pos isLess]

theorem LinearHistory.Safe.after (buffer : Buffer memory capacity)
    (safe : history.Safe memory capacity) (found : history.live[index]? = some block)
    (reallocates : Reallocates memory capacity history.linear history.bytes block newSize alignment
      result) : (history.after index newSize alignment result).Safe memory capacity := by
  have start := buffer.positive
  have present := buffer.present
  have ⟨valid, _, _⟩ := safe
  have ⟨isMemory, isCapacity, low, high⟩ := valid
  have others := safe.others found
  have inside := others.block_sound.inside
  have lower := inside.low_le
  have upper := inside.le_high
  have positive := others.block_sound.positive
  have limits : ∀ other ∈ history.live.take index ++ history.live.drop (index + 1),
      other.region.stop ≤ memory + history.linear.used := fun other isIn =>
    (others.sound other isIn).inside.le_high
  have below (isTop : block.region.stop = memory + history.linear.used) :
      ∀ other ∈ history.live.take index ++ history.live.drop (index + 1),
        other.region.stop ≤ block.region.start := fun other isIn =>
    (others.sound other isIn).le_top isTop (others.apart_block other isIn)
  unfold Region.stop at upper
  cases reallocates with
  | refused =>
    unfold LinearHistory.after
    by_cases isZero : newSize = 0
    · simp only [if_pos isZero]
      rw [List.eraseIdx_eq_take_drop_succ]
      exact others.release valid history.bytes limits
    · simp only [if_neg isZero, if_true]
      exact safe
  | released isTop isZero =>
    have moved : CLinearAllocator.Valid memory capacity
        { history.linear with used := block.region.start - memory } := by
      refine ⟨isMemory, isCapacity, ?_, ?_⟩
      · show 0 ≤ block.region.start - memory
        omega
      · show block.region.start - memory ≤ capacity
        omega
    unfold LinearHistory.after
    simp only [if_pos isZero]
    rw [List.eraseIdx_eq_take_drop_succ]
    apply others.release moved history.bytes
    intro other isIn
    have le := below isTop other isIn
    show other.region.stop ≤ memory + (block.region.start - memory)
    omega
  | resized isTop above room aligned =>
    have notNull : block.region.start ≠ 0 := by omega
    rw [LinearHistory.after_eq found (Int.ne_of_gt above) notNull]
    have moved : CLinearAllocator.Valid memory capacity
        { history.linear with used := block.region.start - memory + newSize } := by
      refine ⟨isMemory, isCapacity, ?_, room⟩
      show 0 ≤ block.region.start - memory + newSize
      omega
    apply others.replace moved history.bytes
    · intro other isIn
      have le := below isTop other isIn
      show other.region.stop ≤ memory + (block.region.start - memory + newSize)
      omega
    · refine ⟨above, aligned, lower, ?_⟩
      show block.region.start + newSize ≤ memory + (block.region.start - memory + newSize)
      omega
    · intro other isIn
      exact Or.inr (below isTop other isIn)
  | kept above smaller aligned =>
    have notNull : block.region.start ≠ 0 := by omega
    have part : Region.Within block.region.start block.region.stop
        ⟨block.region.start, newSize⟩ := by
      refine ⟨Int.le_refl _, ?_⟩
      show block.region.start + newSize ≤ block.region.start + block.region.size
      omega
    rw [LinearHistory.after_eq found (Int.ne_of_gt above) notNull]
    apply others.replace valid history.bytes limits
    · exact ⟨above, aligned, part.mono lower inside.le_high⟩
    · intro other isIn
      exact (others.apart_block other isIn).part part
  | moved position larger behind room aligned =>
    have notNull : memory + position ≠ 0 := by omega
    have notZero : newSize ≠ 0 := by omega
    rw [LinearHistory.after_eq found notZero notNull]
    have moved : CLinearAllocator.Valid memory capacity
        { history.linear with used := position + newSize } := by
      refine ⟨isMemory, isCapacity, ?_, room⟩
      show 0 ≤ position + newSize
      omega
    apply others.replace moved
    · intro other isIn
      have le := limits other isIn
      show other.region.stop ≤ memory + (position + newSize)
      omega
    · have isSize : 0 < newSize := by omega
      refine ⟨isSize, aligned, ?_, ?_⟩
      · show memory ≤ memory + position
        omega
      · show memory + position + newSize ≤ memory + (position + newSize)
        omega
    · intro other isIn
      have le := limits other isIn
      right
      show other.region.stop ≤ memory + position
      omega

theorem LinearHistory.Safe.keeps (buffer : Buffer memory capacity)
    (safe : history.Safe memory capacity) (found : history.live[index]? = some block)
    (reallocates : Reallocates memory capacity history.linear history.bytes block newSize alignment
      result) :
    history.KeepsBlock (history.after index newSize alignment result) result.2.2 index block newSize
      alignment := by
  have start := buffer.positive
  have others := safe.others found
  have positive := others.block_sound.positive
  have lower := others.block_sound.inside.low_le
  have isReleased (isZero : newSize = 0) :
      (history.after index newSize alignment result).live = history.live.eraseIdx index := by
    unfold LinearHistory.after
    simp only [if_pos isZero]
  have isLive (notZero : newSize ≠ 0) (notNull : result.2.2 ≠ 0) :
      (history.after index newSize alignment result).live =
        history.live.set index ⟨⟨result.2.2, newSize⟩, alignment⟩ := by
    unfold LinearHistory.after
    simp only [if_neg notZero, if_neg notNull]
  have same (isSame : result.2.1 = history.bytes) (address : Int) :
      (history.after index newSize alignment result).bytes address = history.bytes address := by
    unfold LinearHistory.after
    rw [isSame]
  cases reallocates with
  | refused =>
    refine ⟨isReleased, ?_, isLive, fun _ notNull => absurd rfl notNull,
      fun _ _ address _ _ => same rfl address⟩
    intro notZero _
    refine ⟨rfl, rfl, ?_⟩
    unfold LinearHistory.after
    simp only [if_neg notZero, if_true]
  | released isTop isZero =>
    exact ⟨isReleased, fun notZero => absurd isZero notZero, isLive,
      fun _ notNull => absurd rfl notNull, fun _ _ address _ _ => same rfl address⟩
  | resized isTop above room aligned =>
    refine ⟨isReleased, ?_, isLive, fun _ _ k _ _ => same rfl _,
      fun _ _ address _ _ => same rfl address⟩
    intro _ isNull
    have notNull : block.region.start ≠ 0 := by
      have present := buffer.present
      omega
    exact absurd isNull notNull
  | kept above smaller aligned =>
    refine ⟨isReleased, ?_, isLive, fun _ _ k _ _ => same rfl _,
      fun _ _ address _ _ => same rfl address⟩
    intro _ isNull
    have notNull : block.region.start ≠ 0 := by
      have present := buffer.present
      have upper := others.block_sound.inside.le_high
      have high := safe.valid.high
      unfold Region.stop at upper
      omega
    exact absurd isNull notNull
  | moved position larger behind room aligned =>
    have low := safe.valid.low
    refine ⟨isReleased, ?_, isLive, ?_, ?_⟩
    · intro _ isNull
      have notNull : memory + position ≠ 0 := by
        have present := buffer.present
        omega
      exact absurd isNull notNull
    · intro _ _ k nonneg less
      have isLess : k < block.region.size := by omega
      exact copied_inside history.bytes (memory + position) block.region nonneg isLess
    · intro other isIn address _ less
      rw [List.eraseIdx_eq_take_drop_succ] at isIn
      have upper := (others.sound other isIn).inside.le_high
      have outside : address < memory + position := by omega
      exact copied_outside history.bytes (memory + position) block.region outside

end

theorem LinearHistory.Safe.realloc (buffer : Buffer memory capacity) {history : LinearHistory}
    (safe : history.Safe memory capacity) (index : Nat) (newSize alignment : Int) :
    ∃ after result, history.step (.realloc index newSize alignment) = some (after, result) ∧
      after.Safe memory capacity ∧
      history.Keeps after result (.realloc index newSize alignment) := by
  cases found : history.live[index]? with
  | none =>
    simp only [LinearHistory.step, found]
    refine ⟨_, _, rfl, safe, ?_⟩
    intro block isBlock
    rw [found] at isBlock
    cases isBlock
  | some block =>
    have others := safe.others found
    obtain ⟨result, returned, reallocates⟩ :=
      linearAllocatorRealloc_reallocates buffer safe.valid history.bytes others.block_sound
        newSize alignment
    simp only [LinearHistory.step, found, returned, Option.map_some]
    refine ⟨_, _, rfl, safe.after buffer found reallocates, ?_⟩
    intro block' isBlock
    rw [found] at isBlock
    cases isBlock
    exact safe.keeps buffer found reallocates

theorem LinearHistory.Safe.rewind {history : LinearHistory} (safe : history.Safe memory capacity)
    {mark : Int} (low : 0 ≤ mark) (high : mark ≤ history.linear.used)
    (tidy : history.Tidy (.rewind mark)) :
    LinearHistory.Safe memory capacity ⟨{ history.linear with used := mark }, history.bytes,
      history.live.filter fun block => block.region.start < memory + mark⟩ := by
  have ⟨valid, sound, apart⟩ := safe
  refine ⟨⟨valid.memory_eq, valid.capacity_eq, low, Int.le_trans high valid.high⟩, ?_, ?_⟩
  · intro block isIn
    obtain ⟨isLive, before⟩ := List.mem_filter.mp isIn
    have ⟨positive, aligned, inside⟩ := sound block isLive
    have ends := tidy block isLive
    rw [valid.memory_eq] at ends
    exact ⟨positive, aligned, inside.low_le, ends (of_decide_eq_true before)⟩
  · exact apart.sublist (List.filter_sublist.map LiveBlock.region)

theorem LinearHistory.Safe.step (buffer : Buffer memory capacity) {history : LinearHistory}
    (safe : history.Safe memory capacity) {request : LinearRequest} (tidy : history.Tidy request) :
    ∃ after result, history.step request = some (after, result) ∧ after.Safe memory capacity ∧
      history.Keeps after result request := by
  cases request with
  | alloc size alignment => exact safe.alloc buffer size alignment
  | realloc index newSize alignment => exact safe.realloc buffer index newSize alignment
  | free index =>
    refine ⟨_, _, rfl, ⟨safe.valid, ?_, ?_⟩, trivial⟩
    · intro block isIn
      exact safe.sound block (List.mem_of_mem_eraseIdx isIn)
    · exact safe.apart.sublist ((List.eraseIdx_sublist _ _).map LiveBlock.region)
  | write bytes => exact ⟨_, _, rfl, ⟨safe.valid, safe.sound, safe.apart⟩, trivial⟩
  | rewind mark =>
    simp only [LinearHistory.step, linearAllocatorRewind]
    by_cases refused : history.linear.used < 0 ∨
        history.linear.used > history.linear.capacity ∨ mark < 0 ∨ mark > history.linear.used
    · simp only [if_pos refused]
      exact ⟨_, _, rfl, safe, trivial⟩
    · have isMemory := safe.valid.memory_eq
      subst isMemory
      have isLow : 0 ≤ mark := by omega
      have isHigh : mark ≤ history.linear.used := by omega
      simp only [if_neg refused, if_true]
      exact ⟨_, _, rfl, safe.rewind isLow isHigh tidy, trivial⟩
  | reset =>
    refine ⟨_, _, rfl, ⟨⟨safe.valid.memory_eq, safe.valid.capacity_eq, Int.le_refl 0,
      buffer.sized⟩, ?_, List.Pairwise.nil⟩, trivial⟩
    intro block isIn
    cases isIn

theorem LinearHistory.Safe.run (buffer : Buffer memory capacity) (requests : List LinearRequest)
    {history : LinearHistory} (safe : history.Safe memory capacity)
    (tidy : history.AllTidy requests) :
    ∃ after, history.run requests = some after ∧ after.Safe memory capacity := by
  induction requests generalizing history with
  | nil => exact ⟨history, rfl, safe⟩
  | cons request rest ih =>
    obtain ⟨next, result, stepped, isSafe, _⟩ := safe.step buffer tidy.1
    obtain ⟨after, ran, isSafe'⟩ := ih isSafe (tidy.2 (next, result) stepped)
    refine ⟨after, ?_, isSafe'⟩
    rw [LinearHistory.run, stepped, Option.bind_some, ran]

/-- In every history whose rewinds cut no block the live blocks are safe, and so they stay in every
further call, which keeps the bytes that it has to. -/
theorem linearAllocator_safe {linear : CLinearAllocator}
    (made : linearAllocatorInit memory capacity = some linear) (positive : 0 ≤ memory)
    (small : capacity ≤ i64Max) (inside : memory + capacity ≤ 18446744073709551616)
    (bytes : Bytes) (requests : List LinearRequest)
    (tidy : LinearHistory.AllTidy ⟨linear, bytes, []⟩ requests) :
    ∃ history, LinearHistory.run ⟨linear, bytes, []⟩ requests = some history ∧
      history.Safe memory capacity ∧
      ∀ request, history.Tidy request →
        ∃ after result, history.step request = some (after, result) ∧
          after.Safe memory capacity ∧ history.Keeps after result request := by
  unfold linearAllocatorInit at made
  split at made
  · cases made
  next accepted =>
    cases made
    have sized : 0 ≤ capacity := by omega
    have buffer : Buffer memory capacity := ⟨positive, sized, small, inside, by omega⟩
    have start : LinearHistory.Safe memory capacity ⟨⟨memory, capacity, 0⟩, bytes, []⟩ := by
      refine ⟨⟨rfl, rfl, Int.le_refl 0, sized⟩, ?_, List.Pairwise.nil⟩
      intro block isIn
      cases isIn
    obtain ⟨history, ran, safe⟩ := start.run buffer requests tidy
    exact ⟨history, ran, safe, fun request tidy => safe.step buffer tidy⟩

/-- A rewind behind a block that was grown and one in front of a new block. -/
theorem linearAllocator_safe_small :
    ∃ history, LinearHistory.run ⟨⟨4096, 64, 0⟩, fun _ => 0, []⟩
        [.alloc 1 1, .alloc 8 8, .realloc 0 16 8, .alloc 4 4, .rewind 24] = some history ∧
      history.Safe 4096 64 ∧
      ∀ request, history.Tidy request →
        ∃ after result, history.step request = some (after, result) ∧
          after.Safe 4096 64 ∧ history.Keeps after result request :=
  @linearAllocator_safe 4096 64 ⟨4096, 64, 0⟩ rfl (by decide) (by decide) (by decide) _ _
    (by decide)

end

/-- A block that has grown in place behind the mark: the rewind gives its last bytes to the next
allocation. -/
theorem grown_block_overlaps : ∃ history,
    LinearHistory.run ⟨⟨4096, 64, 0⟩, fun _ => 0, []⟩
      [.alloc 8 8, .realloc 0 16 8, .rewind 8, .alloc 8 8] = some history ∧
    history.live = [⟨⟨4104, 8⟩, 8⟩, ⟨⟨4096, 16⟩, 8⟩] ∧
    ¬(history.live.map LiveBlock.region).Pairwise Region.Apart := by
  refine ⟨_, rfl, rfl, ?_⟩
  intro apart
  have first := List.rel_of_pairwise_cons apart (List.mem_singleton_self _)
  rcases first with behind | before
  · exact absurd behind (by decide)
  · exact absurd before (by decide)

end Aholyc.Alloc
