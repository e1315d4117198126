import Aholyc.Alloc.Alloc

/-!
# The stack allocator (lib/alloc/stack.HC)

Freeing the newest block gives back the block, and not the padding in front of
it.
-/

namespace Aholyc.Alloc

open Aholyc.Lib

structure CStackAllocator where
  memory : Int
  capacity : Int
  used : Int
  deriving DecidableEq, Repr

/-- What `realloc_fn` and `free_fn` check of the allocator itself. -/
def CStackAllocator.refused (stack : CStackAllocator) : Bool :=
  stack.capacity < 0 ∨ stack.used < 0 ∨ stack.used > stack.capacity ∨
    (stack.memory = 0 ∧ stack.capacity ≠ 0)

/-- The allocator behind the call and what is returned; NULL is 0. -/
def stackAllocatorRealloc (stack : CStackAllocator) (memory oldSize newSize alignment : Int) :
    CStackAllocator × Int :=
  if oldSize < 0 ∨ newSize < 0 ∨ !allocAlignmentValid alignment ∨ stack.refused then (stack, 0)
  else if memory = 0 then
    if oldSize ≠ 0 ∨ newSize = 0 then (stack, 0)
    else
      match place stack.memory stack.capacity stack.used newSize alignment with
      | none => (stack, 0)
      | some position =>
        ({ stack with used := i64 (position + newSize) }, u64 (stack.memory + position))
  else
    match offsetOf stack.memory memory alignment with
    | none => (stack, 0)
    | some position =>
      if position > stack.capacity ∨ oldSize > i64 (stack.capacity - position) ∨
          i64 (position + oldSize) ≠ stack.used then (stack, 0)
      else if newSize = 0 then ({ stack with used := position }, 0)
      else if newSize ≤ i64 (stack.capacity - position) then
        ({ stack with used := i64 (position + newSize) }, memory)
      else (stack, 0)

def stackAllocatorFree (stack : CStackAllocator) (memory size alignment : Int) : CStackAllocator :=
  if memory = 0 ∨ size < 0 ∨ !allocAlignmentValid alignment ∨ stack.refused then stack
  else
    match offsetOf stack.memory memory alignment with
    | none => stack
    | some position =>
      if position ≤ stack.capacity ∧ size ≤ i64 (stack.capacity - position) ∧
          i64 (position + size) = stack.used then { stack with used := position }
      else stack

def stackAllocatorInit (memory capacity : Int) : Option CStackAllocator :=
  if capacity < 0 ∨ (memory = 0 ∧ capacity ≠ 0) then none else some ⟨memory, capacity, 0⟩

def stackAllocatorAvailable (stack : CStackAllocator) : Int :=
  if stack.used < 0 ∨ stack.capacity < stack.used then 0 else stack.capacity - stack.used

/-! ## Histories -/

/-- A live block, with the counter in front of its allocation. -/
structure StackBlock where
  region : Region
  alignment : Int
  before : Int
  deriving DecidableEq, Repr

inductive StackRequest where
  | alloc (size alignment : Int)
  /-- The newest live block is freed. -/
  | free
  deriving DecidableEq, Repr

/-- The allocator and the live blocks, the newest first. -/
structure StackHistory where
  stack : CStackAllocator
  live : List StackBlock
  deriving DecidableEq, Repr

def StackHistory.step (history : StackHistory) : StackRequest → StackHistory
  | .alloc size alignment =>
    let after := stackAllocatorRealloc history.stack 0 0 size alignment
    if after.2 = 0 then { history with stack := after.1 }
    else ⟨after.1, ⟨⟨after.2, size⟩, alignment, history.stack.used⟩ :: history.live⟩
  | .free =>
    match history.live with
    | [] => history
    | block :: rest =>
      ⟨stackAllocatorFree history.stack block.region.start block.region.size block.alignment, rest⟩

/-- Every free of the history sets the counter back to what it was in front of
the allocation. -/
def Restores : StackHistory → List StackRequest → Prop
  | _, [] => True
  | history, request :: rest =>
    (∀ block others, request = .free → history.live = block :: others →
      (history.step request).stack.used = block.before) ∧ Restores (history.step request) rest

def Unpadded : StackHistory → List StackRequest → Prop
  | _, [] => True
  | history, request :: rest =>
    (∀ block others, request = .free → history.live = block :: others →
      (history.stack.memory + block.before) % block.alignment = 0) ∧
      Unpadded (history.step request) rest

def Stacked (memory : Int) : Int → List StackBlock → Prop
  | _, [] => True
  | top, block :: rest =>
    0 < block.region.size ∧ allocAlignmentValid block.alignment = true ∧
      block.region.start % block.alignment = 0 ∧ 0 ≤ block.before ∧
      memory + block.before ≤ block.region.start ∧ block.region.stop ≤ memory + top ∧
      (block.region.start = memory + block.before ↔
        (memory + block.before) % block.alignment = 0) ∧ Stacked memory block.before rest

def Tight (memory : Int) : Int → List StackBlock → Prop
  | top, [] => top = 0
  | top, block :: rest => block.region.stop = memory + top ∧ Tight memory block.before rest

structure StackHistory.Valid (memory capacity : Int) (history : StackHistory) : Prop where
  memory_eq : history.stack.memory = memory
  capacity_eq : history.stack.capacity = capacity
  low : 0 ≤ history.stack.used
  high : history.stack.used ≤ capacity
  stacked : Stacked memory history.stack.used history.live

variable {history : StackHistory}

section

variable {memory capacity : Int}

variable {top : Int} {live : List StackBlock}

theorem Stacked.higher {top' : Int} (stacked : Stacked memory top live) (le : top ≤ top') :
    Stacked memory top' live := by
  cases live with
  | nil => trivial
  | cons block rest =>
    obtain ⟨positive, valid, aligned, nonneg, behind, below, padded, others⟩ := stacked
    exact ⟨positive, valid, aligned, nonneg, behind, by omega, padded, others⟩

theorem Stacked.within (stacked : Stacked memory top live) :
    ∀ block ∈ live, Region.Within memory (memory + top) block.region := by
  induction live generalizing top with
  | nil => simp
  | cons block rest ih =>
    obtain ⟨positive, valid, aligned, nonneg, behind, below, padded, others⟩ := stacked
    have inner := ih others
    intro other isIn
    cases List.mem_cons.mp isIn with
    | inl same =>
      subst same
      exact ⟨by omega, below⟩
    | inr isRest =>
      have within := inner other isRest
      unfold Region.stop at below
      exact within.mono (Int.le_refl memory) (by omega)

theorem Stacked.aligned (stacked : Stacked memory top live) :
    ∀ block ∈ live, block.region.start % block.alignment = 0 := by
  induction live generalizing top with
  | nil => simp
  | cons block rest ih =>
    intro other isIn
    cases List.mem_cons.mp isIn with
    | inl same =>
      subst same
      exact stacked.2.2.1
    | inr isRest => exact ih stacked.2.2.2.2.2.2.2 other isRest

theorem Stacked.apart (stacked : Stacked memory top live) :
    (live.map StackBlock.region).Pairwise Region.Apart := by
  induction live generalizing top with
  | nil => exact List.Pairwise.nil
  | cons block rest ih =>
    obtain ⟨positive, valid, aligned, nonneg, behind, below, padded, others⟩ := stacked
    rw [List.map_cons, List.pairwise_cons]
    refine ⟨?_, ih others⟩
    intro region isIn
    obtain ⟨other, isRest, rfl⟩ := List.mem_map.mp isIn
    have inside := others.within other isRest
    exact Or.inr (Int.le_trans inside.le_high behind)

/-! ## Steps -/

theorem CStackAllocator.refused_eq {stack : CStackAllocator} (buffer : Buffer memory capacity)
    (isMemory : stack.memory = memory) (isCapacity : stack.capacity = capacity)
    (low : 0 ≤ stack.used) (high : stack.used ≤ capacity) : stack.refused = false := by
  have sized := buffer.sized
  have present := buffer.present
  unfold CStackAllocator.refused
  rw [decide_eq_false_iff_not, isMemory, isCapacity]
  omega

/-- An allocation fails, or it takes the bytes behind the counter. -/
theorem stackAllocatorRealloc_alloc {stack : CStackAllocator} (buffer : Buffer memory capacity)
    (isMemory : stack.memory = memory) (isCapacity : stack.capacity = capacity)
    (low : 0 ≤ stack.used) (high : stack.used ≤ capacity) (size alignment : Int) :
    stackAllocatorRealloc stack 0 0 size alignment = (stack, 0) ∨
      ∃ position, allocAlignmentValid alignment = true ∧ 0 < size ∧ stack.used ≤ position ∧
        position + size ≤ capacity ∧ (memory + position) % alignment = 0 ∧
        (position = stack.used ↔ (memory + stack.used) % alignment = 0) ∧
        memory + position ≠ 0 ∧
        stackAllocatorRealloc stack 0 0 size alignment =
          ({ stack with used := position + size }, memory + position) := by
  have fits := buffer.small
  have top := buffer.inside
  have start := buffer.positive
  have present := buffer.present
  unfold stackAllocatorRealloc
  split
  · exact Or.inl rfl
  next accepted =>
    rw [if_pos rfl]
    split
    · exact Or.inl rfl
    next notEmpty =>
      have valid : allocAlignmentValid alignment = true := by
        by_contra invalid
        simp [invalid] at accepted
      have positive : 0 < size := by omega
      cases placed : place stack.memory stack.capacity stack.used size alignment with
      | none => exact Or.inl rfl
      | some position =>
        rw [isMemory, isCapacity] at placed
        obtain ⟨behind, room, aligned, unpadded⟩ :=
          place_eq_some buffer valid low high positive placed
        have isUsed : i64 (position + size) = position + size := i64_eq (by omega) (by omega)
        have isResult : u64 (stack.memory + position) = memory + position := by
          rw [isMemory]
          exact u64_eq (by omega) (by omega)
        refine Or.inr ⟨position, valid, positive, behind, room, aligned, unpadded, by omega, ?_⟩
        simp only [isUsed, isResult]

variable {block : StackBlock} {rest : List StackBlock}

/-- The newest block is given back if it ends at the counter. -/
theorem stackAllocatorFree_eq {stack : CStackAllocator} (buffer : Buffer memory capacity)
    (isMemory : stack.memory = memory) (isCapacity : stack.capacity = capacity)
    (high : stack.used ≤ capacity) (stacked : Stacked memory stack.used (block :: rest)) :
    stackAllocatorFree stack block.region.start block.region.size block.alignment =
      if block.region.stop = memory + stack.used then
        { stack with used := block.region.start - memory }
      else stack := by
  have fits := buffer.small
  have top := buffer.inside
  have start := buffer.positive
  have present := buffer.present
  obtain ⟨positive, valid, aligned, nonneg, behind, below, _, others⟩ := stacked
  unfold Region.stop at *
  unfold i64Max at fits
  have ready := CStackAllocator.refused_eq buffer isMemory isCapacity (by omega) high
  have isOffset : memory + (block.region.start - memory) = block.region.start := by omega
  have offset : offsetOf memory block.region.start block.alignment =
      some (block.region.start - memory) := by
    have inside := @offsetOf_inside memory block.alignment start (block.region.start - memory) valid
      (by omega) (by unfold i64Max; omega) (by omega) (by rw [isOffset]; exact aligned)
    rw [isOffset] at inside
    exact inside
  have accepted : ¬(block.region.start = 0 ∨ block.region.size < 0 ∨
      (!allocAlignmentValid block.alignment) = true ∨ stack.refused = true) := by
    rw [valid, ready]
    simp only [Bool.not_true, Bool.false_eq_true, or_false]
    omega
  have rest_ : i64 (stack.capacity - (block.region.start - memory)) =
      stack.capacity - (block.region.start - memory) := by
    apply i64_eq
    · omega
    · unfold i64Max
      omega
  have isEnd : i64 (block.region.start - memory + block.region.size) =
      block.region.start - memory + block.region.size := by
    apply i64_eq
    · omega
    · unfold i64Max
      omega
  unfold stackAllocatorFree
  rw [if_neg accepted, isMemory, offset]
  dsimp only
  rw [rest_, isEnd]
  by_cases ends : block.region.start + block.region.size = memory + stack.used
  · rw [if_pos ends, if_pos (by omega)]
  · rw [if_neg ends, if_neg (by omega)]

theorem StackHistory.step_alloc (buffer : Buffer memory capacity)
    (valid : history.Valid memory capacity) (size alignment : Int) :
    history.step (.alloc size alignment) = history ∨
      ∃ position, allocAlignmentValid alignment = true ∧ 0 < size ∧
        history.stack.used ≤ position ∧ position + size ≤ capacity ∧
        (memory + position) % alignment = 0 ∧
        (position = history.stack.used ↔ (memory + history.stack.used) % alignment = 0) ∧
        history.step (.alloc size alignment) =
          ⟨{ history.stack with used := position + size },
            ⟨⟨memory + position, size⟩, alignment, history.stack.used⟩ :: history.live⟩ := by
  obtain ⟨isMemory, isCapacity, low, high, _⟩ := valid
  cases stackAllocatorRealloc_alloc buffer isMemory isCapacity low high size alignment with
  | inl failed =>
    left
    simp only [StackHistory.step, failed, if_true]
  | inr placed =>
    obtain ⟨position, isValid, positive, behind, room, aligned, unpadded, present, result⟩ :=
      placed
    refine Or.inr ⟨position, isValid, positive, behind, room, aligned, unpadded, ?_⟩
    simp only [StackHistory.step, result, if_neg present]

theorem StackHistory.step_free (buffer : Buffer memory capacity)
    (valid : history.Valid memory capacity) (isLive : history.live = block :: rest) :
    history.step .free =
      ⟨if block.region.stop = memory + history.stack.used then
        { history.stack with used := block.region.start - memory }
      else history.stack, rest⟩ := by
  obtain ⟨isMemory, isCapacity, low, high, stacked⟩ := valid
  rw [isLive] at stacked
  simp only [StackHistory.step, isLive]
  rw [stackAllocatorFree_eq buffer isMemory isCapacity high stacked]

theorem StackHistory.Valid.step (buffer : Buffer memory capacity)
    (valid : history.Valid memory capacity) (request : StackRequest) :
    (history.step request).Valid memory capacity := by
  have ⟨isMemory, isCapacity, low, high, stacked⟩ := valid
  cases request with
  | alloc size alignment =>
    cases StackHistory.step_alloc buffer valid size alignment with
    | inl failed =>
      rw [failed]
      exact valid
    | inr placed =>
      obtain ⟨position, isValid, positive, behind, room, aligned, unpadded, result⟩ := placed
      have later : 0 ≤ position + size := by omega
      have above : memory + history.stack.used ≤ memory + position := by omega
      have below : memory + position + size ≤ memory + (position + size) := by omega
      have same : memory + position = memory + history.stack.used ↔
          (memory + history.stack.used) % alignment = 0 := by
        rw [← unpadded]
        omega
      rw [result]
      exact ⟨isMemory, isCapacity, later, room, positive, isValid, aligned, low, above, below,
        same, stacked⟩
  | free =>
    cases isLive : history.live with
    | nil =>
      have same : history.step .free = history := by simp only [StackHistory.step, isLive]
      rw [same]
      exact valid
    | cons block rest =>
      rw [StackHistory.step_free buffer valid isLive]
      rw [isLive] at stacked
      obtain ⟨positive, isValid, aligned, nonneg, behind, below, unpadded, others⟩ := stacked
      unfold Region.stop at below ⊢
      split
      next ends =>
        have isLow : 0 ≤ block.region.start - memory := by omega
        have isHigh : block.region.start - memory ≤ capacity := by omega
        have above : block.before ≤ block.region.start - memory := by omega
        exact ⟨isMemory, isCapacity, isLow, isHigh, others.higher above⟩
      next =>
        have above : block.before ≤ history.stack.used := by omega
        exact ⟨isMemory, isCapacity, low, high, others.higher above⟩

theorem Tight.alloc (buffer : Buffer memory capacity) (valid : history.Valid memory capacity)
    (tight : Tight memory history.stack.used history.live) (size alignment : Int) :
    Tight memory (history.step (.alloc size alignment)).stack.used
      (history.step (.alloc size alignment)).live := by
  cases StackHistory.step_alloc buffer valid size alignment with
  | inl failed =>
    rw [failed]
    exact tight
  | inr placed =>
    obtain ⟨position, _, _, _, _, _, _, result⟩ := placed
    rw [result]
    exact ⟨Int.add_assoc memory position size, tight⟩

/-- In a tight stack the newest block is given back to its start. -/
theorem Tight.free (buffer : Buffer memory capacity) (valid : history.Valid memory capacity)
    (isLive : history.live = block :: rest) (tight : Tight memory history.stack.used history.live) :
    ((history.step .free).stack.used = block.before ↔
      (history.stack.memory + block.before) % block.alignment = 0) ∧
      (history.step .free).live = rest := by
  have ⟨isMemory, isCapacity, low, high, stacked⟩ := valid
  rw [StackHistory.step_free buffer valid isLive]
  rw [isLive] at stacked tight
  obtain ⟨_, _, _, _, _, _, unpadded, _⟩ := stacked
  rw [if_pos tight.1, isMemory, ← unpadded]
  refine ⟨?_, rfl⟩
  show block.region.start - memory = block.before ↔ _
  omega

/-- From a tight stack on, the counter is restored where no padding is freed. -/
theorem restores_iff (buffer : Buffer memory capacity) (requests : List StackRequest)
    (valid : history.Valid memory capacity) (tight : Tight memory history.stack.used history.live) :
    (Restores history requests ↔ Unpadded history requests) ∧
      (Unpadded history requests → (requests.foldl StackHistory.step history).live = [] →
        (requests.foldl StackHistory.step history).stack.used = 0) := by
  induction requests generalizing history with
  | nil =>
    refine ⟨Iff.rfl, fun _ isEmpty => ?_⟩
    rw [List.foldl_nil] at isEmpty ⊢
    rw [isEmpty] at tight
    exact tight
  | cons request rest ih =>
    have next := valid.step buffer request
    simp only [Restores, Unpadded, List.foldl_cons]
    cases request with
    | alloc size alignment =>
      have others := ih next (tight.alloc buffer valid size alignment)
      simpa using others
    | free =>
      cases isLive : history.live with
      | nil =>
        have same : history.step .free = history := by simp only [StackHistory.step, isLive]
        have others := ih valid tight
        simpa [same] using others
      | cons block live =>
        obtain ⟨restored, isRest⟩ := tight.free buffer valid isLive
        have isTight : (history.stack.memory + block.before) % block.alignment = 0 →
            Tight memory (history.step .free).stack.used (history.step .free).live := by
          intro aligned
          rw [restored.mpr aligned, isRest]
          rw [isLive] at tight
          exact tight.2
        have only {P : StackBlock → Prop} (here : P block) (other : StackBlock)
            (others : List StackBlock) (_ : StackRequest.free = .free)
            (same : block :: live = other :: others) : P other := by
          cases same
          exact here
        constructor
        · constructor
          · rintro ⟨here, others⟩
            have aligned := restored.mp (here block live rfl rfl)
            exact ⟨only aligned, (ih next (isTight aligned)).1.mp others⟩
          · rintro ⟨here, others⟩
            have aligned := here block live rfl rfl
            exact ⟨only (restored.mpr aligned), (ih next (isTight aligned)).1.mpr others⟩
        · rintro ⟨here, others⟩
          exact (ih next (isTight (here block live rfl rfl))).2 others

theorem stackAllocatorInit_valid {stack : CStackAllocator}
    (made : stackAllocatorInit memory capacity = some stack) :
    stack = ⟨memory, capacity, 0⟩ ∧ 0 ≤ capacity ∧ (memory ≠ 0 ∨ capacity = 0) := by
  unfold stackAllocatorInit at made
  split at made
  · cases made
  next accepted =>
    cases made
    exact ⟨rfl, by omega, by omega⟩

theorem StackHistory.Valid.run (buffer : Buffer memory capacity) (requests : List StackRequest)
    (valid : history.Valid memory capacity) :
    (requests.foldl StackHistory.step history).Valid memory capacity := by
  induction requests generalizing history with
  | nil => exact valid
  | cons request rest ih => exact ih (valid.step buffer request)

end

/-- The live blocks are apart, aligned and inside of the buffer. -/
structure Usable (memory capacity : Int) (live : List StackBlock) : Prop where
  apart : (live.map StackBlock.region).Pairwise Region.Apart
  aligned : ∀ block ∈ live, block.region.start % block.alignment = 0
  inside : ∀ block ∈ live, Region.Within memory (memory + capacity) block.region

theorem StackHistory.Valid.usable {memory capacity : Int} (valid : history.Valid memory capacity) :
    Usable memory capacity history.live := by
  refine ⟨valid.stacked.apart, valid.stacked.aligned, ?_⟩
  intro block isIn
  have high := valid.high
  exact (valid.stacked.within block isIn).mono (Int.le_refl memory) (by omega)

/-- What a caller of the allocator relies on: the live blocks are usable, and
freeing the newest one sets the counter back; once all are freed the whole
buffer is available. -/
structure RestoresLevel (start : StackHistory) (requests : List StackRequest) : Prop where
  usable : Usable start.stack.memory start.stack.capacity
    (requests.foldl StackHistory.step start).live
  restores : Restores start requests
  whole : (requests.foldl StackHistory.step start).live = [] →
    stackAllocatorAvailable (requests.foldl StackHistory.step start).stack = start.stack.capacity

section

variable {memory capacity : Int} {stack : CStackAllocator}

theorem stackAllocatorInit_history (made : stackAllocatorInit memory capacity = some stack)
    (positive : 0 ≤ memory) (small : capacity ≤ i64Max)
    (inside : memory + capacity ≤ 18446744073709551616) :
    stack = ⟨memory, capacity, 0⟩ ∧ Buffer memory capacity ∧
      StackHistory.Valid memory capacity ⟨stack, []⟩ := by
  obtain ⟨rfl, sized, present⟩ := stackAllocatorInit_valid made
  exact ⟨rfl, ⟨positive, sized, small, inside, present⟩,
    ⟨rfl, rfl, Int.le_refl 0, sized, trivial⟩⟩

/-- The level is restored exactly where no freed block has padding in front of
it. -/
theorem stackAllocator_restores_iff (made : stackAllocatorInit memory capacity = some stack)
    (positive : 0 ≤ memory) (small : capacity ≤ i64Max)
    (inside : memory + capacity ≤ 18446744073709551616) (requests : List StackRequest) :
    RestoresLevel ⟨stack, []⟩ requests ↔ Unpadded ⟨stack, []⟩ requests := by
  obtain ⟨rfl, buffer, valid⟩ := stackAllocatorInit_history made positive small inside
  have ends := valid.run buffer requests
  obtain ⟨restores, whole⟩ := restores_iff buffer requests valid rfl
  constructor
  · intro level
    exact restores.mp level.restores
  · intro unpadded
    refine ⟨ends.usable, restores.mpr unpadded, ?_⟩
    intro isEmpty
    have isZero := whole unpadded isEmpty
    have isCapacity := ends.capacity_eq
    have sized := buffer.sized
    unfold stackAllocatorAvailable
    rw [isZero, isCapacity, if_neg (by omega), Int.sub_zero]

end

theorem stackAllocator_restores_iff_small :
    RestoresLevel ⟨⟨4096, 64, 0⟩, []⟩ [.alloc 8 8, .alloc 4 4, .free, .free] ↔
      Unpadded ⟨⟨4096, 64, 0⟩, []⟩ [.alloc 8 8, .alloc 4 4, .free, .free] :=
  @stackAllocator_restores_iff 4096 64 ⟨4096, 64, 0⟩ rfl (by decide) (by decide) (by decide) _

/-- A byte and eight aligned bytes, freed in reverse order: the seven bytes of
padding stay taken, and then the byte is not given back either. -/
theorem padded_block_leaks :
    ¬RestoresLevel ⟨⟨4096, 64, 0⟩, []⟩ [.alloc 1 1, .alloc 8 8, .free, .free] := by
  intro level
  have isEmpty : ([.alloc 1 1, .alloc 8 8, .free, .free].foldl StackHistory.step
      ⟨⟨4096, 64, 0⟩, []⟩).live = [] := by decide
  have whole := level.whole isEmpty
  revert whole
  decide

end Aholyc.Alloc
