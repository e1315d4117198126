import Mathlib.Algebra.BigOperators.Group.List.Basic
import Mathlib.Tactic.Common
import Aholyc.Thread.Semaphore

/-!
# Runs of a semaphore (lib/thread/thread.hc)

The invariant relates the value to the threads that are on the way to take a unit: those
that are woken, and the one that holds the mutex.
-/

namespace Aholyc.Thread

open Aholyc.Lib

def Place.inside : Place → Bool
  | .outside | .waitLock | .waitBlocked | .waitWoken | .tryLock | .postLock _ | .valueLock => false
  | _ => true

/-- The units that may still be taken or announced by the thread that holds the mutex. -/
def Place.spare : Place → Int
  | .waitTest => 1
  | .waitTake => 1
  | .postSignal count i => count - i
  | _ => 0

variable {T : Type} [Fintype T] [DecidableEq T] {initial maximum : Int}
  {s s' : CThreadSemaphore T} {t u : T}

def Place.Sane (value : Int) : Place → Prop
  | .waitTake => 0 < value
  | .postLock count => 0 < count
  | .postTest count => 0 < count
  | .postSignal count i => 0 ≤ i ∧ i ≤ count
  | _ => True

/-- The semaphore counts what is returned, and a thread that is blocked is worth waking only for
units that others are on the way to take. -/
structure Inv (initial maximum : Int) (s : CThreadSemaphore T) : Prop where
  isMaximum : s.maximum = maximum
  bounds : 0 ≤ s.value ∧ s.value ≤ maximum
  holder : ∀ t, (s.place t).inside = true ↔ s.mutex = some t
  sane : ∀ t, (s.place t).Sane s.value
  ledger : s.value = initial + balance s.returned + s.mutex.elim 0 fun t => (s.place t).units
  onTheWay : (∃ t, s.place t = .waitBlocked) →
    s.value ≤ (woken s).card + s.mutex.elim 0 fun t => (s.place t).spare

theorem balance_append (returned more : List Return) :
    balance (returned ++ more) = balance returned + balance more := by
  unfold balance
  rw [List.map_append, List.sum_append]

theorem balance_singleton (result : Return) : balance [result] = result.units := by
  unfold balance
  rw [List.map_singleton, List.sum_singleton]

variable {place : Place} {value value' count : Int} {result : Option Return}

theorem Place.sane_of_outside (sane : place.Sane value) (outside : place.inside = false) :
    place.Sane value' := by
  cases place <;> first | exact trivial | exact sane | cases outside

/-! ## Moves of one thread -/

omit [Fintype T] in
theorem move_other (other : u ≠ t) : (s.move t place).place u = s.place u :=
  Function.update_of_ne other _ _

omit [Fintype T] in
theorem move_self : (s.move t place).place t = place :=
  Function.update_self _ _ _

omit [Fintype T] in
/-- A thread that does not block leaves no new one blocked. -/
theorem move_blocked (awake : place ≠ .waitBlocked)
    (blocked : ∃ u, (s.move t place).place u = .waitBlocked) : ∃ u, s.place u = .waitBlocked := by
  obtain ⟨u, blocked⟩ := blocked
  by_cases same : u = t
  · rw [same, move_self] at blocked
    exact absurd blocked awake
  · rw [move_other same] at blocked
    exact ⟨u, blocked⟩

omit [DecidableEq T] in
theorem Inv.not_holder (inv : Inv initial maximum s) (outside : (s.place t).inside = false) :
    s.mutex ≠ some t := by
  intro holds
  rw [← inv.holder, outside] at holds
  cases holds

omit [DecidableEq T] in
theorem Inv.free_outside (inv : Inv initial maximum s) (free : s.mutex = none) (t : T) :
    (s.place t).inside = false := by
  rw [← Bool.not_eq_true, inv.holder, free]
  exact Option.some_ne_none t ∘ Eq.symm

omit [DecidableEq T] in
/-- The threads beside the one that holds the mutex are outside. -/
theorem Inv.other_outside (inv : Inv initial maximum s) (holds : s.mutex = some t) (other : u ≠ t) :
    (s.place u).inside = false := by
  rw [← Bool.not_eq_true, inv.holder, holds]
  intro same
  exact other (Option.some.inj same).symm

/-! ## One step -/

/-- A thread that is not inside the functions leaves the ledger as it was. -/
theorem Inv.holder_place (inv : Inv initial maximum s) (outside : (s.place t).inside = false)
    (place : Place) (units : Place → Int) :
    (s.mutex.elim 0 fun u => units ((s.move t place).place u)) =
      s.mutex.elim 0 fun u => units (s.place u) := by
  cases free : s.mutex with
  | none => rfl
  | some u =>
    have other : u ≠ t := by
      intro same
      rw [same] at free
      exact inv.not_holder outside free
    change units ((s.move t place).place u) = units (s.place u)
    rw [move_other other]

/-- The places that hold the mutex stay the same where no thread goes in or out. -/
theorem Inv.holder_move (inv : Inv initial maximum s) (same : place.inside = (s.place t).inside)
    (u : T) : ((s.move t place).place u).inside = true ↔ s.mutex = some u := by
  by_cases self : u = t
  · rw [self, move_self, same]
    exact inv.holder t
  · rw [move_other self]
    exact inv.holder u

theorem Inv.sane_move (inv : Inv initial maximum s) (sane : place.Sane value)
    (others : ∀ u, u ≠ t → (s.place u).inside = false) (u : T) :
    ((s.move t place).place u).Sane value := by
  by_cases self : u = t
  · rw [self, move_self]
    exact sane
  · rw [move_other self]
    exact Place.sane_of_outside (inv.sane u) (others u self)

theorem start_outside (starts : start place result) :
    place.inside = false ∧ place ≠ .waitBlocked ∧ place ≠ .waitWoken := by
  cases place <;> cases result <;>
    first
    | exact False.elim starts
    | exact ⟨rfl, Place.noConfusion, Place.noConfusion⟩

theorem start_sane (starts : start place result) (value : Int) : place.Sane value := by
  cases place <;> cases result <;> first | exact False.elim starts | exact starts | exact trivial

theorem start_units (starts : start place result) : balance result.toList = 0 := by
  cases result with
  | none => rfl
  | some result =>
    cases place <;> cases result <;> first | exact False.elim starts | skip
    next count ok =>
      rw [Option.toList_some, balance_singleton, starts.2]
      rfl

theorem Inv.call (inv : Inv initial maximum s) (outside : s.place t = .outside)
    (starts : start place result) :
    Inv initial maximum { s.move t place with returned := s.returned ++ result.toList } := by
  have inside : (s.place t).inside = false := by
    rw [outside]
    rfl
  have new := start_outside starts
  constructor
  · exact inv.isMaximum
  · exact inv.bounds
  · exact inv.holder_move (new.1.trans inside.symm)
  · intro u
    by_cases self : u = t
    · change ((s.move t place).place u).Sane s.value
      rw [self, move_self]
      exact start_sane starts s.value
    · change ((s.move t place).place u).Sane s.value
      rw [move_other self]
      exact inv.sane u
  · have ledger := inv.ledger
    rw [← inv.holder_place inside place Place.units] at ledger
    rw [balance_append, start_units starts, add_zero]
    exact ledger
  · intro blocked
    have before := inv.onTheWay (move_blocked new.2.1 blocked)
    rw [← inv.holder_place inside place Place.spare] at before
    have same : woken (s.move t place) = woken s := by
      apply threadsAt_stay
      · rw [outside]
        exact Place.noConfusion
      · exact new.2.2
    unfold woken at before same
    rw [← same] at before
    exact before

variable {next : Place}

theorem locked_inside (isLock : locked place = some next) :
    next.inside = true ∧ next.units = 0 ∧ place ≠ .waitBlocked := by
  cases place <;> first
    | (cases isLock; exact ⟨rfl, rfl, Place.noConfusion⟩)
    | cases isLock

theorem locked_sane (isLock : locked place = some next) (sane : place.Sane value) :
    next.Sane value := by
  cases place <;> first
    | (cases isLock; exact sane)
    | cases isLock

/-- Where a woken thread takes the mutex, it is the one that may take a unit. -/
theorem locked_woken (isLock : locked (s.place t) = some place) :
    ((woken s).card : Int) ≤ (woken (s.move t place)).card + place.spare := by
  by_cases isWoken : s.place t = .waitWoken
  · rw [isWoken] at isLock
    cases isLock
    have left := threadsAt_leave isWoken (q := .waitTest) Place.noConfusion
    change ((threadsAt s.place .waitWoken).card : Int) ≤
      (threadsAt (Function.update s.place t .waitTest) .waitWoken).card + 1
    omega
  · have other : place ≠ .waitWoken := by
      intro same
      have inside := (locked_inside isLock).1
      rw [same] at inside
      cases inside
    have same : woken (s.move t place) = woken s := threadsAt_stay isWoken other
    have spare : 0 ≤ place.spare := by
      cases isPlace : s.place t <;> rw [isPlace] at isLock <;> first
        | (cases isLock; exact le_refl 0)
        | (cases isLock; exact Int.one_nonneg)
        | cases isLock
    rw [same]
    omega

theorem Inv.lock (inv : Inv initial maximum s) (free : s.mutex = none)
    (isLock : locked (s.place t) = some place) :
    Inv initial maximum { s.move t place with mutex := some t } := by
  have inside := locked_inside isLock
  constructor
  · exact inv.isMaximum
  · exact inv.bounds
  · intro u
    change ((s.move t place).place u).inside = true ↔ some t = some u
    by_cases self : u = t
    · rw [self, move_self]
      exact iff_of_true inside.1 rfl
    · rw [move_other self, inv.free_outside free u]
      apply iff_of_false Bool.false_ne_true
      intro same
      exact self (Option.some.inj same).symm
  · exact inv.sane_move (locked_sane isLock (inv.sane t)) fun u _ => inv.free_outside free u
  · have ledger := inv.ledger
    rw [free] at ledger
    change s.value = initial + balance s.returned + ((s.move t place).place t).units
    rw [move_self, inside.2.1]
    exact ledger
  · intro blocked
    have awake : place ≠ .waitBlocked := by
      intro same
      rw [same] at inside
      cases inside.1
    have before := inv.onTheWay (move_blocked awake blocked)
    rw [free] at before
    change s.value ≤ (woken (s.move t place)).card + ((s.move t place).place t).spare
    rw [move_self]
    apply Int.le_trans before
    change ((woken s).card : Int) + 0 ≤ _
    rw [add_zero]
    exact locked_woken isLock

/-- The line keeps the value in its bounds, and what it adds is in the ledger. -/
theorem line_spec (isLine : line maximum value place = some (next, value'))
    (sane : place.Sane value) (bounds : 0 ≤ value ∧ value ≤ maximum) :
    (place.inside = true ∧ next.inside = true) ∧ next.Sane value' ∧
      (0 ≤ value' ∧ value' ≤ maximum) ∧ value' - next.units = value - place.units ∧
      value' - next.spare ≤ value - place.spare := by
  cases place with
  | waitTest =>
    change (if _ then _ else _) = _ at isLine
    split at isLine
    · cases isLine
    · cases isLine
      refine ⟨⟨rfl, rfl⟩, ?_, bounds, rfl, le_refl _⟩
      change 0 < value
      omega
  | waitTake =>
    cases isLine
    change 0 < value at sane
    refine ⟨⟨rfl, rfl⟩, trivial, ⟨by omega, by omega⟩, ?_, ?_⟩
    · change value - 1 - -1 = value - 0
      omega
    · change value - 1 - 0 ≤ value - 1
      omega
  | tryTest =>
    change (if _ then _ else _) = _ at isLine
    split at isLine
    · cases isLine
      refine ⟨⟨rfl, rfl⟩, trivial, ⟨by omega, by omega⟩, ?_, ?_⟩
      · change value - 1 - -1 = value - 0
        omega
      · change value - 1 - 0 ≤ value - 0
        omega
    · cases isLine
      exact ⟨⟨rfl, rfl⟩, trivial, bounds, rfl, le_refl _⟩
  | postTest count =>
    change 0 < count at sane
    change (if _ then _ else _) = _ at isLine
    split at isLine
    · cases isLine
      exact ⟨⟨rfl, rfl⟩, trivial, bounds, rfl, le_refl _⟩
    · cases isLine
      refine ⟨⟨rfl, rfl⟩, ⟨le_refl 0, le_of_lt sane⟩, ⟨by omega, by omega⟩, ?_, ?_⟩
      · change value + count - count = value - 0
        omega
      · change value + count - (count - 0) ≤ value - 0
        omega
  | postSignal count i =>
    change (if _ then _ else _) = _ at isLine
    split at isLine
    · cases isLine
    · next done =>
      cases isLine
      refine ⟨⟨rfl, rfl⟩, trivial, bounds, rfl, ?_⟩
      change 0 ≤ i ∧ i ≤ count at sane
      change value - 0 ≤ value - (count - i)
      omega
  | valueRead =>
    cases isLine
    exact ⟨⟨rfl, rfl⟩, trivial, bounds, rfl, le_refl _⟩
  | _ => cases isLine

theorem Inv.line (inv : Inv initial maximum s) (holds : s.mutex = some t)
    (isLine : line s.maximum s.value (s.place t) = some (place, value)) :
    Inv initial maximum { s.move t place with value := value } := by
  rw [inv.isMaximum] at isLine
  have ⟨inside, sane, bounds, units, spare⟩ := line_spec isLine (inv.sane t) inv.bounds
  have notBlocked : place ≠ .waitBlocked ∧ place ≠ .waitWoken := by
    constructor
    all_goals
      intro same
      rw [same] at inside
      cases inside.2
  constructor
  · exact inv.isMaximum
  · exact bounds
  · exact inv.holder_move (inside.2.trans inside.1.symm)
  · exact inv.sane_move sane fun u other => inv.other_outside holds other
  · have ledger := inv.ledger
    rw [holds] at ledger
    change s.value = initial + balance s.returned + (s.place t).units at ledger
    change value = initial + balance s.returned +
      s.mutex.elim 0 fun u => ((s.move t place).place u).units
    rw [holds]
    change value = initial + balance s.returned + ((s.move t place).place t).units
    rw [move_self]
    omega
  · intro blocked
    have before := inv.onTheWay (move_blocked notBlocked.1 blocked)
    rw [holds] at before
    change s.value ≤ (woken s).card + (s.place t).spare at before
    have same : woken (s.move t place) = woken s := by
      apply threadsAt_stay
      · intro isWoken
        rw [isWoken] at inside
        cases inside.1
      · exact notBlocked.2
    change value ≤ (woken (s.move t place)).card +
      s.mutex.elim 0 fun u => ((s.move t place).place u).spare
    rw [holds, same]
    change value ≤ (woken s).card + ((s.move t place).place t).spare
    rw [move_self]
    omega

theorem Inv.wait (inv : Inv initial maximum s) (holds : s.mutex = some t)
    (tests : s.place t = .waitTest) (empty : s.value = 0) :
    Inv initial maximum { s.move t .waitBlocked with mutex := none } := by
  constructor
  · exact inv.isMaximum
  · exact inv.bounds
  · intro u
    change ((s.move t .waitBlocked).place u).inside = true ↔ none = some u
    apply iff_of_false _ (Option.some_ne_none u).symm
    by_cases self : u = t
    · rw [self, move_self]
      exact Bool.false_ne_true
    · rw [move_other self, inv.other_outside holds self]
      exact Bool.false_ne_true
  · exact inv.sane_move trivial fun u other => inv.other_outside holds other
  · have ledger := inv.ledger
    rw [holds] at ledger
    change s.value = initial + balance s.returned + (s.place t).units at ledger
    rw [tests] at ledger
    exact ledger
  · intro _
    change s.value ≤ (woken (s.move t .waitBlocked)).card + 0
    rw [empty]
    omega

theorem Inv.signal {i : Int} {place : T → Place} (inv : Inv initial maximum s)
    (holds : s.mutex = some t) (signals : s.place t = .postSignal count i) (more : i < count)
    (wakes : Wakes s.place place) :
    Inv initial maximum
      { s with place := Function.update place t (.postSignal count (i + 1)) } := by
  have sane : 0 ≤ i ∧ i ≤ count := by
    have sane := inv.sane t
    rw [signals] at sane
    exact sane
  have awake : ∀ u, s.place u ≠ .waitBlocked → place u = s.place u := by
    intro u notBlocked
    by_contra changes
    exact notBlocked (wakes.only u changes).1
  have signaller : ∀ u, s.place u = .waitBlocked → u ≠ t := by
    intro u blocked same
    rw [same, signals] at blocked
    cases blocked
  constructor
  · exact inv.isMaximum
  · exact inv.bounds
  · intro u
    change (Function.update place t (.postSignal count (i + 1)) u).inside = true ↔ s.mutex = some u
    by_cases self : u = t
    · rw [self, Function.update_self]
      exact iff_of_true rfl holds
    · rw [Function.update_of_ne self, ← inv.holder u]
      by_cases same : place u = s.place u
      · rw [same]
      · have woke := wakes.only u same
        rw [woke.1, woke.2]
        exact Iff.rfl
  · intro u
    change (Function.update place t (.postSignal count (i + 1)) u).Sane s.value
    by_cases self : u = t
    · rw [self, Function.update_self]
      change 0 ≤ i + 1 ∧ i + 1 ≤ count
      omega
    · rw [Function.update_of_ne self]
      by_cases same : place u = s.place u
      · rw [same]
        exact inv.sane u
      · rw [(wakes.only u same).2]
        trivial
  · have ledger := inv.ledger
    rw [holds] at ledger ⊢
    change s.value = initial + balance s.returned + (s.place t).units at ledger
    change s.value = initial + balance s.returned +
      (Function.update place t (.postSignal count (i + 1)) t).units
    rw [signals] at ledger
    rw [Function.update_self]
    exact ledger
  · intro blocked
    obtain ⟨u, blocked⟩ := blocked
    change Function.update place t (.postSignal count (i + 1)) u = .waitBlocked at blocked
    -- a thread that is still blocked was blocked before, so the signal has woken another one
    have wasBlocked : s.place u = .waitBlocked := by
      by_contra notBlocked
      by_cases self : u = t
      · rw [self, Function.update_self] at blocked
        cases blocked
      · rw [Function.update_of_ne self, awake u notBlocked] at blocked
        exact notBlocked blocked
    have before := inv.onTheWay ⟨u, wasBlocked⟩
    rw [holds] at before ⊢
    change s.value ≤ (woken s).card + (s.place t).spare at before
    rw [signals] at before
    change s.value ≤ (woken s).card + (count - i) at before
    have grow : (woken s).card + 1 ≤
        (threadsAt (Function.update place t (.postSignal count (i + 1))) .waitWoken).card := by
      apply threadsAt_grow
      · intro v isWoken
        have notSelf : v ≠ t := by
          intro same
          rw [same, signals] at isWoken
          cases isWoken
        rw [Function.update_of_ne notSelf, awake v]
        · exact isWoken
        · rw [isWoken]
          exact Place.noConfusion
      · have ⟨v, vBlocked, vWoken⟩ := wakes.some_ ⟨u, wasBlocked⟩
        refine ⟨v, ?_, ?_⟩
        · rw [vBlocked]
          exact Place.noConfusion
        · rw [Function.update_of_ne (signaller v vBlocked)]
          exact vWoken
    change s.value ≤
      (threadsAt (Function.update place t (.postSignal count (i + 1))) .waitWoken).card +
        (Function.update place t (.postSignal count (i + 1)) t).spare
    rw [Function.update_self]
    change s.value ≤
      (threadsAt (Function.update place t (.postSignal count (i + 1))) .waitWoken).card +
        (count - (i + 1))
    omega

theorem unlocked_spec {result : Return} (isUnlock : unlocked place = some result) :
    place.units = result.units ∧ place.spare = 0 ∧ place ≠ .waitWoken := by
  cases place <;> first
    | (cases isUnlock; exact ⟨rfl, rfl, Place.noConfusion⟩)
    | cases isUnlock

theorem Inv.unlock {result : Return} (inv : Inv initial maximum s) (holds : s.mutex = some t)
    (isUnlock : unlocked (s.place t) = some result) :
    Inv initial maximum
      { s.move t .outside with mutex := none, returned := s.returned ++ [result] } := by
  have ⟨units, spare, notWoken⟩ := unlocked_spec isUnlock
  constructor
  · exact inv.isMaximum
  · exact inv.bounds
  · intro u
    change ((s.move t .outside).place u).inside = true ↔ none = some u
    apply iff_of_false _ (Option.some_ne_none u).symm
    by_cases self : u = t
    · rw [self, move_self]
      exact Bool.false_ne_true
    · rw [move_other self, inv.other_outside holds self]
      exact Bool.false_ne_true
  · exact inv.sane_move trivial fun u other => inv.other_outside holds other
  · have ledger := inv.ledger
    rw [holds] at ledger
    change s.value = initial + balance s.returned + (s.place t).units at ledger
    change s.value = initial + balance (s.returned ++ [result]) + 0
    rw [balance_append, balance_singleton, ← units]
    omega
  · intro blocked
    have before := inv.onTheWay (move_blocked Place.noConfusion blocked)
    rw [holds] at before
    change s.value ≤ (woken s).card + (s.place t).spare at before
    have same : woken (s.move t .outside) = woken s :=
      threadsAt_stay notWoken Place.noConfusion
    change s.value ≤ (woken (s.move t .outside)).card + 0
    rw [same]
    omega

theorem Inv.wake (inv : Inv initial maximum s) (blocked : s.place u = .waitBlocked) :
    Inv initial maximum (s.move u .waitWoken) := by
  have outside : (s.place u).inside = false := by
    rw [blocked]
    rfl
  have awake : s.place u ≠ .waitWoken := by
    rw [blocked]
    exact Place.noConfusion
  constructor
  · exact inv.isMaximum
  · exact inv.bounds
  · exact inv.holder_move outside.symm
  · intro v
    change ((s.move u .waitWoken).place v).Sane s.value
    by_cases self : v = u
    · rw [self, move_self]
      trivial
    · rw [move_other self]
      exact inv.sane v
  · have ledger := inv.ledger
    rw [← inv.holder_place outside .waitWoken Place.units] at ledger
    exact ledger
  · intro _
    have before := inv.onTheWay ⟨u, blocked⟩
    rw [← inv.holder_place outside .waitWoken Place.spare] at before
    have enter : (woken (s.move u .waitWoken)).card = (woken s).card + 1 := threadsAt_enter awake
    change s.value ≤ (woken (s.move u .waitWoken)).card +
      s.mutex.elim 0 fun v => ((s.move u .waitWoken).place v).spare
    omega

/-! ## Runs -/

theorem Inv.step (inv : Inv initial maximum s) (step : Step s s') : Inv initial maximum s' := by
  cases step with
  | call t place result outside starts => exact inv.call outside starts
  | lock t place free isLock => exact inv.lock free isLock
  | line t place value holds isLine => exact inv.line holds isLine
  | wait t holds tests empty => exact inv.wait holds tests empty
  | signal t count i place holds signals more wakes => exact inv.signal holds signals more wakes
  | unlock t result holds isUnlock => exact inv.unlock holds isUnlock
  | wake u blocked => exact inv.wake blocked

omit [DecidableEq T] in
theorem Inv.init (isInit : threadSemaphoreInit initial maximum = some s) :
    Inv initial maximum s := by
  unfold threadSemaphoreInit at isInit
  split at isInit
  · cases isInit
  next valid =>
  cases isInit
  constructor
  · rfl
  · change 0 ≤ initial ∧ initial ≤ maximum
    omega
  · intro t
    exact iff_of_false Bool.false_ne_true (Option.some_ne_none t).symm
  · intro t
    trivial
  · change initial = initial + 0 + 0
    omega
  · intro blocked
    have ⟨t, blocked⟩ := blocked
    cases blocked

theorem Reachable.inv (reachable : Reachable initial maximum s) : Inv initial maximum s := by
  have ⟨first, isInit, run⟩ := reachable
  induction run with
  | refl => exact Inv.init isInit
  | tail run step inv => exact (inv ⟨first, isInit, run⟩).step step

/-! ## Refused posts -/

omit [Fintype T] in
theorem move_comes (old : s.place t ≠ next) (new : (s.move u place).place t = next) :
    t = u ∧ place = next := by
  by_cases same : t = u
  · rw [same, move_self] at new
    exact ⟨same, new⟩
  · rw [move_other same] at new
    exact absurd new old

theorem locked_ne (isLock : locked place = some next) (count : Int) (ok : Bool) :
    next ≠ .postUnlock count ok := by
  cases place <;> first
    | (cases isLock; exact Place.noConfusion)
    | cases isLock

/-- The only line that refuses a post is the test, which leaves the value. -/
theorem line_refuses (isLine : line maximum value place = some (.postUnlock count false, value')) :
    value' = value := by
  cases place with
  | postTest count' =>
    change (if _ then _ else _) = _ at isLine
    split at isLine
    · cases isLine
      rfl
    · cases isLine
  | tryTest =>
    change (if _ then _ else _) = _ at isLine
    split at isLine <;> cases isLine
  | waitTest =>
    change (if _ then _ else _) = _ at isLine
    split at isLine <;> cases isLine
  | postSignal count' i =>
    change (if _ then _ else _) = _ at isLine
    split at isLine <;> cases isLine
  | _ => cases isLine

omit [Fintype T] in
theorem Step.refuses (step : Step s s') (old : s.place t ≠ .postUnlock count false)
    (new : s'.place t = .postUnlock count false) :
    s'.value = s.value ∧ ∀ u, u ≠ t → s'.place u = s.place u := by
  cases step with
  | call t' place result outside starts =>
    have ⟨_, same⟩ := move_comes old new
    rw [same] at starts
    cases result <;> exact False.elim starts
  | lock t' place free isLock =>
    have ⟨_, same⟩ := move_comes old new
    exact absurd same (locked_ne isLock count false)
  | line t' place value holds isLine =>
    have ⟨self, same⟩ := move_comes old new
    rw [same] at isLine
    refine ⟨line_refuses isLine, ?_⟩
    intro u other
    rw [self] at other
    exact move_other other
  | wait t' holds tests empty =>
    have ⟨_, same⟩ := move_comes old new
    cases same
  | signal t' count' i place holds signals more wakes =>
    change Function.update place t' (.postSignal count' (i + 1)) t = _ at new
    by_cases self : t = t'
    · rw [self, Function.update_self] at new
      cases new
    · rw [Function.update_of_ne self] at new
      have changes : place t ≠ s.place t := by
        rw [new]
        exact old.symm
      rw [(wakes.only t changes).2] at new
      cases new
  | unlock t' result holds isUnlock =>
    have ⟨_, same⟩ := move_comes old new
    cases same
  | wake u blocked =>
    have ⟨_, same⟩ := move_comes old new
    cases same

omit [Fintype T] in
/-- A step that returns from a refused post only brings its thread out of it. -/
theorem Step.returns_refused (step : Step s s')
    (returns : s'.returned = s.returned ++ [.posted count false])
    (own : s.place t ≠ s'.place t ∨ s.place = s'.place) :
    s'.value = s.value ∧ ∀ u, u ≠ t → s'.place u = s.place u := by
  have nothing : s.returned ≠ s.returned ++ [.posted count false] := by
    intro same
    have lengths := congrArg List.length same
    rw [List.length_append, List.length_singleton] at lengths
    omega
  cases step with
  | call t' place result outside starts =>
    cases result with
    | none =>
      change s.returned ++ [] = _ at returns
      rw [List.append_nil] at returns
      exact absurd returns nothing
    | some result =>
      refine ⟨rfl, ?_⟩
      intro u other
      change (s.move t' place).place u = s.place u
      by_cases self : u = t'
      · have isOutside : place = .outside := by
          cases place <;> first | rfl | exact False.elim starts
        rw [self, move_self, outside, isOutside]
      · exact move_other self
  | lock t' place free isLock => exact absurd returns nothing
  | line t' place value holds isLine => exact absurd returns nothing
  | wait t' holds tests empty => exact absurd returns nothing
  | signal t' count' i place holds signals more wakes => exact absurd returns nothing
  | unlock t' result holds isUnlock =>
    refine ⟨rfl, ?_⟩
    intro u other
    have leaves : s.place t' ≠ (s.move t' .outside).place t' := by
      rw [move_self]
      intro same
      rw [same] at isUnlock
      cases isUnlock
    have self : t = t' := by
      by_contra notSelf
      cases own with
      | inl changes => exact changes (move_other notSelf).symm
      | inr same => exact leaves (congrFun same t')
    rw [self] at other
    exact move_other other
  | wake u blocked => exact absurd returns nothing

theorem threadSemaphore_exact (initial maximum : Int) (s : CThreadSemaphore T)
    (reachable : Reachable initial maximum s) : Exact initial maximum s := by
  have inv := reachable.inv
  constructor
  · exact inv.bounds
  · intro free
    have ledger := inv.ledger
    rw [free] at ledger
    change s.value = initial + balance s.returned + 0 at ledger
    omega
  · intro t holds
    have ledger := inv.ledger
    rw [holds] at ledger
    exact ledger
  · intro s' t count step refuses
    cases refuses with
    | inl refuses => exact step.refuses refuses.1 refuses.2
    | inr refuses => exact step.returns_refused refuses.1 refuses.2
  · intro free blocked
    have onTheWay := inv.onTheWay blocked
    rw [free] at onTheWay
    change s.value ≤ (woken s).card + 0 at onTheWay
    refine ⟨by omega, ?_⟩
    intro unit
    have some_ : 0 < (woken s).card := by omega
    have ⟨t, isWoken⟩ := Finset.card_pos.mp some_
    exact ⟨t, mem_threadsAt.mp isWoken⟩

/-- One thread blocks on an empty semaphore. -/
theorem threadSemaphore_exact_blocked : ∃ s : CThreadSemaphore Bool, Exact 0 1 s ∧
    s.place true = .waitBlocked ∧ s.mutex = none ∧ s.value = 0 := by
  have calls := Step.call (T := Bool) ⟨0, 1, none, fun _ => .outside, []⟩ true .waitLock none
    rfl trivial
  have locks := Step.lock (T := Bool)
    ⟨0, 1, none, Function.update (fun _ => .outside) true .waitLock, []⟩ true .waitTest rfl rfl
  have waits := Step.wait (T := Bool) ⟨0, 1, some true, Function.update
    (Function.update (fun _ => .outside) true .waitLock) true .waitTest, []⟩ true rfl rfl rfl
  have run := Relation.ReflTransGen.tail
    (Relation.ReflTransGen.tail (Relation.ReflTransGen.single calls) locks) waits
  exact ⟨_, threadSemaphore_exact 0 1 _ ⟨_, rfl, run⟩, rfl, rfl, rfl⟩

end Aholyc.Thread
