import Mathlib
import Aholyc.Thread.SemaphoreRuns

/-!
# Progress of a semaphore (lib/thread/thread.hc)

Without new calls and without threads that wake by themselves, every way to schedule the
threads comes to an end, where each call has returned or waits for a unit that nobody has left.
-/

namespace Aholyc.Thread

open Aholyc.Lib

def Place.signals : Place → Nat
  | .postLock count | .postTest count => count.toNat
  | .postSignal count i => (count - i).toNat
  | _ => 0

/-- The most steps to the return of the call, or to where the thread blocks, without signals. -/
def Place.steps : Place → Nat
  | .outside | .waitBlocked => 0
  | .waitUnlock | .tryUnlock _ | .postUnlock _ _ | .valueUnlock _ => 1
  | .waitTake | .tryTest | .postSignal _ _ | .valueRead => 2
  | .waitTest | .tryLock | .postTest _ | .valueLock => 3
  | .waitLock | .waitWoken | .postLock _ => 4

variable {T : Type} [Fintype T] [DecidableEq T] {initial maximum : Int}
  {s s' : CThreadSemaphore T} {t : T} {place next : Place} {value value' : Int}

def GoesOn (s s' : CThreadSemaphore T) : Prop :=
  Step s s' ∧ ∃ t, 0 < (s.place t).steps ∧ s'.place t ≠ s.place t

/-- Every call has returned, or waits for a unit where there is none. -/
structure Settled (s : CThreadSemaphore T) : Prop where
  free : s.mutex = none
  ended : ∀ t, s.place t = .outside ∨ s.place t = .waitBlocked
  empty : (∃ t, s.place t = .waitBlocked) → s.value = 0

/-! ## Every step uses something up -/

theorem locked_steps (isLock : locked place = some next) :
    next.signals ≤ place.signals ∧ next.steps < place.steps := by
  cases place <;> cases isLock <;> exact ⟨Nat.le_refl _, Nat.lt_succ_self _⟩

theorem line_steps (isLine : line maximum value place = some (next, value')) :
    next.signals ≤ place.signals ∧ next.steps < place.steps := by
  cases place with
  | waitTake =>
    cases isLine
    exact ⟨Nat.zero_le _, Nat.lt_succ_self 1⟩
  | valueRead =>
    cases isLine
    exact ⟨Nat.zero_le _, Nat.lt_succ_self 1⟩
  | waitTest =>
    change (if _ then _ else _) = _ at isLine
    split at isLine
    · cases isLine
    · cases isLine
      exact ⟨Nat.zero_le _, Nat.lt_succ_self 2⟩
  | tryTest =>
    change (if _ then _ else _) = _ at isLine
    split at isLine
    · cases isLine
      exact ⟨Nat.zero_le _, Nat.lt_succ_self 1⟩
    · cases isLine
      exact ⟨Nat.zero_le _, Nat.lt_succ_self 1⟩
  | postTest count =>
    change (if _ then _ else _) = _ at isLine
    split at isLine
    · cases isLine
      exact ⟨Nat.zero_le _, Nat.lt_succ_of_lt (Nat.lt_succ_self 1)⟩
    · cases isLine
      refine ⟨?_, Nat.lt_succ_self 2⟩
      change (count - 0).toNat ≤ count.toNat
      rw [Int.sub_zero]
  | postSignal count i =>
    change (if _ then _ else _) = _ at isLine
    split at isLine
    · cases isLine
    · cases isLine
      exact ⟨Nat.zero_le _, Nat.lt_succ_self 1⟩
  | _ => cases isLine

theorem unlocked_steps {result : Return} (isUnlock : unlocked place = some result) :
    0 < place.steps := by
  cases place <;> first | exact Nat.one_pos | cases isUnlock

def weight (place : T → Place) : Nat ×ₗ Nat :=
  toLex (∑ t, (place t).signals, ∑ t, (place t).steps)

theorem weight_move (fewer : next.signals ≤ (s.place t).signals)
    (less : next.steps < (s.place t).steps) : weight (s.move t next).place < weight s.place := by
  have others : ∀ u ∈ Finset.univ, u ≠ t → (s.move t next).place u = s.place u :=
    fun u _ other => move_other other
  have signals : ∑ u, ((s.move t next).place u).signals ≤ ∑ u, (s.place u).signals := by
    apply Finset.sum_le_sum
    intro u member
    by_cases same : u = t
    · rw [same, move_self]
      exact fewer
    · rw [others u member same]
  have steps : ∑ u, ((s.move t next).place u).steps < ∑ u, (s.place u).steps := by
    apply Finset.sum_lt_sum
    · intro u member
      by_cases same : u = t
      · rw [same, move_self]
        exact Nat.le_of_lt less
      · rw [others u member same]
    · exact ⟨t, Finset.mem_univ t, by rwa [move_self]⟩
  rw [weight, weight, Prod.Lex.toLex_lt_toLex]
  rcases Nat.lt_or_eq_of_le signals with fewer | same
  · exact .inl fewer
  · exact .inr ⟨same, steps⟩

theorem weight_signal {place : T → Place} {count i : Int} (signals : s.place t = .postSignal count i)
    (more : i < count) (wakes : Wakes s.place place) :
    weight (Function.update place t (.postSignal count (i + 1))) < weight s.place := by
  have own : (count - (i + 1)).toNat < (count - i).toNat := by omega
  rw [weight, weight, Prod.Lex.toLex_lt_toLex]
  left
  apply Finset.sum_lt_sum
  · intro u _
    by_cases same : u = t
    · rw [same, Function.update_self, signals]
      exact Nat.le_of_lt own
    · rw [Function.update_of_ne same]
      by_cases changes : place u = s.place u
      · rw [changes]
      · rw [(wakes.only u changes).2]
        exact Nat.zero_le _
  · refine ⟨t, Finset.mem_univ t, ?_⟩
    rw [Function.update_self, signals]
    exact own

theorem GoesOn.lighter (goesOn : GoesOn s s') : weight s'.place < weight s.place := by
  obtain ⟨step, u, going, changes⟩ := goesOn
  cases step with
  | call t place result outside starts =>
    by_cases same : u = t
    · rw [same, outside] at going
      cases going
    · exact absurd (move_other same) changes
  | lock t place free isLock => exact weight_move (locked_steps isLock).1 (locked_steps isLock).2
  | line t place value holds isLine => exact weight_move (line_steps isLine).1 (line_steps isLine).2
  | wait t holds tests empty =>
    apply weight_move (Nat.zero_le _)
    rw [tests]
    decide
  | signal t count i place holds signals more wakes => exact weight_signal signals more wakes
  | unlock t result holds isUnlock => exact weight_move (Nat.zero_le _) (unlocked_steps isUnlock)
  | wake t blocked =>
    by_cases same : u = t
    · rw [same, blocked] at going
      cases going
    · exact absurd (move_other same) changes

/-! ## Somebody can go on -/

omit [Fintype T] in
theorem GoesOn.of_move (step : Step s s') (moves : s'.place t = next)
    (less : next.steps < (s.place t).steps) : GoesOn s s' := by
  refine ⟨step, t, by omega, ?_⟩
  intro same
  rw [← moves, same] at less
  exact Nat.lt_irrefl _ less

/-- What the thread that holds the mutex is in front of. -/
theorem inside_cases (isInside : place.inside = true) (maximum value : Int) :
    (∃ next value', line maximum value place = some (next, value')) ∨
      (place = .waitTest ∧ value = 0) ∨
      (∃ count i, place = .postSignal count i ∧ i < count) ∨
      ∃ result, unlocked place = some result := by
  cases place <;> try cases isInside
  case waitTest =>
    by_cases empty : value = 0
    · exact .inr (.inl ⟨rfl, empty⟩)
    · exact .inl ⟨.waitTake, value, if_neg empty⟩
  case waitTake => exact .inl ⟨_, _, rfl⟩
  case tryTest =>
    by_cases unit : value ≠ 0
    · exact .inl ⟨_, _, if_pos unit⟩
    · exact .inl ⟨_, _, if_neg unit⟩
  case postTest count =>
    by_cases room : count > maximum - value
    · exact .inl ⟨_, _, if_pos room⟩
    · exact .inl ⟨_, _, if_neg room⟩
  case postSignal count i =>
    by_cases more : i < count
    · exact .inr (.inr (.inl ⟨count, i, rfl, more⟩))
    · exact .inl ⟨_, _, if_neg more⟩
  case valueRead => exact .inl ⟨_, _, rfl⟩
  all_goals exact .inr (.inr (.inr ⟨_, rfl⟩))

omit [Fintype T] [DecidableEq T] in
theorem wakes_all (place : T → Place) :
    Wakes place fun u => if place u = .waitBlocked then .waitWoken else place u := by
  constructor
  · intro u changes
    by_cases blocked : place u = .waitBlocked
    · exact ⟨blocked, if_pos blocked⟩
    · exact absurd (if_neg blocked) changes
  · intro blocked
    obtain ⟨u, blocked⟩ := blocked
    exact ⟨u, blocked, if_pos blocked⟩

theorem Inv.goesOn (inv : Inv initial maximum s) (holds : s.mutex = some t) :
    ∃ s', GoesOn s s' := by
  rcases inside_cases ((inv.holder t).mpr holds) s.maximum s.value with
    ⟨next, value', isLine⟩ | ⟨tests, empty⟩ | ⟨count, i, signals, more⟩ | ⟨result, isUnlock⟩
  · exact ⟨_, GoesOn.of_move (.line s t next value' holds isLine) move_self (line_steps isLine).2⟩
  · refine ⟨_, GoesOn.of_move (.wait s t holds tests empty) move_self ?_⟩
    rw [tests]
    decide
  · refine ⟨_, Step.signal s t count i _ holds signals more (wakes_all s.place), t, ?_, ?_⟩
    · rw [signals]
      exact Nat.two_pos
    · dsimp only
      rw [Function.update_self, signals]
      intro same
      injection same
      omega
  · exact ⟨_, GoesOn.of_move (.unlock s t result holds isUnlock) move_self (unlocked_steps isUnlock)⟩

theorem Inv.settled (inv : Inv initial maximum s) (stuck : ∀ s', ¬GoesOn s s') : Settled s := by
  have free : s.mutex = none := by
    cases isHeld : s.mutex with
    | none => rfl
    | some t =>
      obtain ⟨s', goesOn⟩ := inv.goesOn isHeld
      exact absurd goesOn (stuck s')
  have ended : ∀ t, s.place t = .outside ∨ s.place t = .waitBlocked := by
    intro t
    have isOutside := inv.free_outside free t
    have noLock : ∀ next, locked (s.place t) ≠ some next := by
      intro next isLock
      exact stuck _ (.of_move (.lock s t next free isLock) move_self (locked_steps isLock).2)
    generalize s.place t = place at isOutside noLock
    cases place <;> first
      | exact .inl rfl
      | exact .inr rfl
      | exact absurd rfl (noLock _)
      | cases isOutside
  refine ⟨free, ended, ?_⟩
  intro blocked
  have noWoken : (woken s).card = 0 := by
    rw [Finset.card_eq_zero, Finset.eq_empty_iff_forall_notMem]
    intro t member
    rw [woken, mem_threadsAt] at member
    rcases ended t with isOutside | isBlocked
    · rw [isOutside] at member
      cases member
    · rw [isBlocked] at member
      cases member
  have onTheWay := inv.onTheWay blocked
  rw [free, noWoken] at onTheWay
  exact Int.le_antisymm onTheWay inv.bounds.1

/-- From every state that a run of a semaphore comes to, its threads cannot go on for ever, and
where they stop, all calls have returned but waits that find the semaphore empty: no schedule
leaves a thread behind with a unit to take. -/
theorem threadSemaphore_settles (initial maximum : Int) (s : CThreadSemaphore T)
    (reachable : Reachable initial maximum s) :
    (¬∃ run : Nat → CThreadSemaphore T, run 0 = s ∧ ∀ n, GoesOn (run n) (run (n + 1))) ∧
      ∀ s', Relation.ReflTransGen GoesOn s s' → (∀ next, ¬GoesOn s' next) → Settled s' := by
  constructor
  · intro endless
    obtain ⟨run, _, goes⟩ := endless
    apply not_strictAnti_of_wellFoundedLT fun n => weight (run n).place
    apply strictAnti_nat_of_succ_lt
    intro n
    exact (goes n).lighter
  · intro s' runs stuck
    obtain ⟨first, isFirst, run⟩ := reachable
    have steps : Relation.ReflTransGen Step s s' :=
      Relation.ReflTransGen.mono (fun _ _ (goesOn : GoesOn _ _) => goesOn.1) _ _ runs
    exact Inv.settled (Reachable.inv ⟨first, isFirst, run.trans steps⟩) stuck

/-- A thread that waits for the unit which another one posts. -/
theorem threadSemaphore_settles_posted : ∃ s : CThreadSemaphore Bool,
    s.place true = .waitBlocked ∧ s.place false = .postLock 1 ∧
      ∀ s', Relation.ReflTransGen GoesOn s s' → (∀ next, ¬GoesOn s' next) → Settled s' := by
  have calls := Step.call (T := Bool) ⟨0, 1, none, fun _ => .outside, []⟩ true .waitLock none
    rfl trivial
  have locks := Step.lock (T := Bool)
    ⟨0, 1, none, Function.update (fun _ => .outside) true .waitLock, []⟩ true .waitTest rfl rfl
  have waits := Step.wait (T := Bool) ⟨0, 1, some true, Function.update
    (Function.update (fun _ => .outside) true .waitLock) true .waitTest, []⟩ true rfl rfl rfl
  have posts := Step.call (T := Bool) ⟨0, 1, none, Function.update (Function.update
    (Function.update (fun _ => .outside) true .waitLock) true .waitTest) true .waitBlocked, []⟩
    false (.postLock 1) none rfl Int.one_pos
  have run := (((Relation.ReflTransGen.single calls).tail locks).tail waits).tail posts
  exact ⟨_, rfl, rfl, (threadSemaphore_settles 0 1 _ ⟨_, rfl, run⟩).2⟩

end Aholyc.Thread
