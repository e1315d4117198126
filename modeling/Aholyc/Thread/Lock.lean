import Aholyc.Bits.Inline
import Mathlib.Logic.Relation

/-!
# Spin locks (lib/thread/thread.hc)

Any number of threads call the functions of one lock, and unlock only what they hold. `LBts` and
`LBtr` are the atomic steps; in between other code may write to all memory but the bit of the lock.
-/

namespace Aholyc.Thread

open Aholyc.Bits

def threadLockInit (memory : Memory) (spin : BitVec 64) : Memory :=
  if spin = 0 then memory else Function.update memory spin 0

def threadLockTry (memory : Memory) (spin : BitVec 64) : Bool × Memory :=
  if spin = 0 then (false, memory)
  else
    let (taken, memory) := LBts memory spin 0
    (taken == 0, memory)

def threadLockUnlock (memory : Memory) (spin : BitVec 64) : Bool × Memory :=
  if spin = 0 then (false, memory)
  else
    let (taken, memory) := LBtr memory spin 0
    (taken != 0, memory)

/-- Where a thread is in the functions of the lock: in front of the `LBts` of `ThreadLockLock` or of
`ThreadLockTry`, or behind a call that took the lock. -/
inductive LockPlace where
  | outside
  | spinning
  | trying
  | holding
  deriving DecidableEq, Repr

variable {T : Type} [DecidableEq T]

/-- `unlocked` is what the calls of `ThreadLockUnlock` have returned so far. -/
structure LockState (T : Type) where
  spin : BitVec 64
  memory : Memory
  place : T → LockPlace
  unlocked : List Bool

/-- One step of a function of the lock. `ThreadLockLock` goes round its loop as `ThreadLockTry`
fails. -/
inductive LockCall : LockState T → LockState T → Prop
  | call (s : LockState T) (t : T) (place : LockPlace) (outside : s.place t = .outside)
      (calls : place = .spinning ∨ place = .trying) :
      LockCall s { s with place := Function.update s.place t place }
  | test (s : LockState T) (t : T) (tests : s.place t = .spinning ∨ s.place t = .trying) :
      LockCall s { s with
        memory := (threadLockTry s.memory s.spin).2
        place := Function.update s.place t
          (if (threadLockTry s.memory s.spin).1 then .holding
          else if s.place t = .spinning then .spinning else .outside) }
  | unlock (s : LockState T) (t : T) (holds : s.place t = .holding) :
      LockCall s { s with
        memory := (threadLockUnlock s.memory s.spin).2
        place := Function.update s.place t .outside
        unlocked := s.unlocked ++ [(threadLockUnlock s.memory s.spin).1] }

/-- A step of the lock, or of other code, which may write to every other bit of memory. -/
inductive LockStep : LockState T → LockState T → Prop
  | lock {s s' : LockState T} (call : LockCall s s') : LockStep s s'
  | write (s : LockState T) (memory : Memory)
      (elsewhere : (memory s.spin).getLsbD 0 = (s.memory s.spin).getLsbD 0) :
      LockStep s { s with memory := memory }

def LockReachable (s : LockState T) : Prop :=
  ∃ memory spin, spin ≠ 0 ∧
    Relation.ReflTransGen LockStep ⟨spin, threadLockInit memory spin, fun _ => .outside, []⟩ s

/-- The lock excludes: one thread at most holds it, its bit says whether one does, no unlock
fails, and a thread that tests a lock that nobody holds gets it. Only the bit is ever changed. -/
structure Excludes (s : LockState T) : Prop where
  one : ∀ t u, s.place t = .holding → s.place u = .holding → t = u
  bit : (s.memory s.spin).getLsbD 0 = true ↔ ∃ t, s.place t = .holding
  unlocks : ∀ ok ∈ s.unlocked, ok = true
  free : (∀ t, s.place t ≠ .holding) → ∀ t, s.place t = .spinning ∨ s.place t = .trying →
    ∃ s', LockCall s s' ∧ s'.place t = .holding
  frame : ∀ s', LockCall s s' → ∀ address i, i < 8 → address ≠ s.spin ∨ i ≠ 0 →
    (s'.memory address).getLsbD i = (s.memory address).getLsbD i

theorem lockBit (nm : BitName) (memory : Memory) (spin : BitVec 64) :
    (function nm memory spin 0).1 = truth ((memory spin).getLsbD 0) ∧
    ((function nm memory spin 0).2 spin).getLsbD 0 = newBit nm ((memory spin).getLsbD 0) ∧
    ∀ address i, i < 8 → address ≠ spin ∨ i ≠ 0 →
      ((function nm memory spin 0).2 address).getLsbD i = (memory address).getLsbD i := by
  have changes := function_changes nm memory spin 0
  have isByte : byteOf spin 0 = spin := by simp [byteOf]
  have isIndex : indexOf 0 = 0 := rfl
  refine ⟨?_, ?_, ?_⟩
  · rw [changes.old, isByte, isIndex]
  · rw [changes.bits spin 0 (by decide), isByte, isIndex, if_pos ⟨rfl, rfl⟩]
  · intro address i small other
    rw [changes.bits address i small, isByte, isIndex, if_neg]
    rintro ⟨rfl, rfl⟩
    exact other.elim (fun differs => differs rfl) fun differs => differs rfl

section

variable (memory : Memory) {spin : BitVec 64} (notNull : spin ≠ 0)

include notNull

theorem threadLockTry_spec :
    (threadLockTry memory spin).1 = !(memory spin).getLsbD 0 ∧
    ((threadLockTry memory spin).2 spin).getLsbD 0 = true ∧
    ∀ address i, i < 8 → address ≠ spin ∨ i ≠ 0 →
      ((threadLockTry memory spin).2 address).getLsbD i = (memory address).getLsbD i := by
  obtain ⟨old, bit, others⟩ := lockBit .LBts memory spin
  unfold threadLockTry
  rw [if_neg notNull]
  refine ⟨?_, bit, others⟩
  change ((LBts memory spin 0).1 == 0) = _
  rw [show (LBts memory spin 0).1 = _ from old]
  cases (memory spin).getLsbD 0 <;> decide

theorem threadLockUnlock_spec :
    (threadLockUnlock memory spin).1 = (memory spin).getLsbD 0 ∧
    ((threadLockUnlock memory spin).2 spin).getLsbD 0 = false ∧
    ∀ address i, i < 8 → address ≠ spin ∨ i ≠ 0 →
      ((threadLockUnlock memory spin).2 address).getLsbD i = (memory address).getLsbD i := by
  obtain ⟨old, bit, others⟩ := lockBit .LBtr memory spin
  unfold threadLockUnlock
  rw [if_neg notNull]
  refine ⟨?_, bit, others⟩
  change ((LBtr memory spin 0).1 != 0) = _
  rw [show (LBtr memory spin 0).1 = _ from old]
  cases (memory spin).getLsbD 0 <;> decide

end

structure LockInv (s : LockState T) : Prop where
  notNull : s.spin ≠ 0
  one : ∀ t u, s.place t = .holding → s.place u = .holding → t = u
  bit : (s.memory s.spin).getLsbD 0 = true ↔ ∃ t, s.place t = .holding
  unlocks : ∀ ok ∈ s.unlocked, ok = true

variable {s s' : LockState T}

/-- A thread that neither takes nor gives back the lock. -/
theorem LockInv.stay (inv : LockInv s) {t : T} {place : LockPlace} {memory : Memory}
    (old : s.place t ≠ .holding) (new : place ≠ .holding)
    (same : (memory s.spin).getLsbD 0 = (s.memory s.spin).getLsbD 0) :
    LockInv { s with memory := memory, place := Function.update s.place t place } := by
  have holds : ∀ u, Function.update s.place t place u = .holding ↔ s.place u = .holding := by
    intro u
    by_cases isT : u = t
    · rw [isT, Function.update_self]
      exact ⟨fun is => absurd is new, fun is => absurd is old⟩
    · rw [Function.update_of_ne isT]
  refine ⟨inv.notNull, ?_, ?_, inv.unlocks⟩
  · intro u v holdsU holdsV
    exact inv.one u v ((holds u).mp holdsU) ((holds v).mp holdsV)
  · change (memory s.spin).getLsbD 0 = true ↔ _
    rw [same, inv.bit]
    exact exists_congr fun u => (holds u).symm

theorem LockInv.call (inv : LockInv s) (call : LockCall s s') : LockInv s' := by
  cases call with
  | call t place outside calls =>
    apply inv.stay
    · rw [outside]
      decide
    · rcases calls with rfl | rfl <;> decide
    · rfl
  | test t tests =>
    obtain ⟨taken, bit, -⟩ := threadLockTry_spec s.memory inv.notNull
    have old : s.place t ≠ .holding := by
      rcases tests with tests | tests <;> rw [tests] <;> decide
    cases isTaken : (s.memory s.spin).getLsbD 0 with
    | true =>
      rw [taken, isTaken]
      apply inv.stay old
      · split
        · contradiction
        · split <;> decide
      · rw [bit, isTaken]
    | false =>
      have none : ∀ u, s.place u ≠ .holding := by
        intro u holds
        rw [inv.bit.mpr ⟨u, holds⟩] at isTaken
        cases isTaken
      rw [taken, isTaken]
      have only : ∀ u, Function.update s.place t .holding u = .holding → u = t := by
        intro u holds
        by_contra other
        rw [Function.update_of_ne other] at holds
        exact none u holds
      refine ⟨inv.notNull, ?_, ?_, inv.unlocks⟩
      · intro u v holdsU holdsV
        exact (only u holdsU).trans (only v holdsV).symm
      · exact ⟨fun _ => ⟨t, Function.update_self ..⟩, fun _ => bit⟩
  | unlock t holds =>
    obtain ⟨ok, bit, -⟩ := threadLockUnlock_spec s.memory inv.notNull
    have none : ∀ u, Function.update s.place t .outside u ≠ .holding := by
      intro u holdsU
      by_cases isT : u = t
      · rw [isT, Function.update_self] at holdsU
        cases holdsU
      · rw [Function.update_of_ne isT] at holdsU
        exact isT (inv.one u t holdsU holds)
    refine ⟨inv.notNull, ?_, ?_, ?_⟩
    · intro u v holdsU
      exact absurd holdsU (none u)
    · change ((threadLockUnlock s.memory s.spin).2 s.spin).getLsbD 0 = true ↔ _
      rw [bit]
      exact ⟨fun up => absurd up Bool.false_ne_true, fun ⟨u, holdsU⟩ => absurd holdsU (none u)⟩
    · intro result member
      rcases List.mem_append.mp member with old | new
      · exact inv.unlocks result old
      · rw [List.mem_singleton.mp new, ok]
        exact inv.bit.mpr ⟨t, holds⟩

theorem LockInv.step (inv : LockInv s) (step : LockStep s s') : LockInv s' := by
  cases step with
  | lock call => exact inv.call call
  | write memory elsewhere =>
    refine ⟨inv.notNull, inv.one, ?_, inv.unlocks⟩
    change (memory s.spin).getLsbD 0 = true ↔ _
    rw [elsewhere]
    exact inv.bit

theorem LockReachable.inv (reachable : LockReachable s) : LockInv s := by
  obtain ⟨memory, spin, notNull, run⟩ := reachable
  induction run with
  | refl =>
    refine ⟨notNull, ?_, ?_, ?_⟩
    · intro t u holds
      cases holds
    · change ((threadLockInit memory spin) spin).getLsbD 0 = true ↔ _
      rw [threadLockInit, if_neg notNull, Function.update_self]
      constructor
      · intro up
        cases up
      · rintro ⟨t, holds⟩
        cases holds
    · intro ok member
      cases member
  | tail _ step inv => exact inv.step step

/-- In every interleaving the lock excludes. -/
theorem threadLock_excludes (reachable : LockReachable s) : Excludes s := by
  have inv := reachable.inv
  refine ⟨inv.one, inv.bit, inv.unlocks, ?_, ?_⟩
  · intro none t tests
    have free : (s.memory s.spin).getLsbD 0 = false := by
      rw [Bool.eq_false_iff]
      intro up
      obtain ⟨u, holds⟩ := inv.bit.mp up
      exact none u holds
    refine ⟨_, .test s t tests, ?_⟩
    change Function.update s.place t _ t = _
    rw [Function.update_self, (threadLockTry_spec _ inv.notNull).1, free]
    rfl
  · intro s' call
    cases call with
    | call => exact fun _ _ _ _ => rfl
    | test t tests => exact (threadLockTry_spec _ inv.notNull).2.2
    | unlock t holds => exact (threadLockUnlock_spec _ inv.notNull).2.2

/-- Two threads, of which one has taken the lock. -/
theorem threadLock_excludes_taken : ∃ s : LockState Bool, s.place true = .holding ∧ Excludes s := by
  let first : LockState Bool := ⟨1, threadLockInit (fun _ => 0) 1, fun _ => .outside, []⟩
  have called := LockCall.call first true .spinning rfl (.inl rfl)
  have taken := LockCall.test { first with place := Function.update first.place true .spinning } true
    (.inl rfl)
  have run := (Relation.ReflTransGen.single (LockStep.lock called)).tail (LockStep.lock taken)
  exact ⟨_, by decide +kernel, threadLock_excludes ⟨fun _ => 0, 1, by decide, run⟩⟩

end Aholyc.Thread
