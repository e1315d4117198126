import Mathlib
import Aholyc.Lib.Threads

/-!
# Semaphores (lib/thread/thread.hc)

Any number of threads call the functions of one semaphore. What is taken from the native
library is what a monitor promises: one thread holds the mutex, a wait releases it and
blocks at once, a signal wakes at least one of the blocked threads, and a blocked thread
may wake by itself. `returned` is what the calls have returned so far.
-/

namespace Aholyc.Thread

open Aholyc.Lib

/-- Where a thread is in the functions of the semaphore: in front of the line that the name tells.
A blocked thread is woken before it asks for the mutex again. -/
inductive Place where
  | outside
  | waitLock
  | waitTest
  | waitBlocked
  | waitWoken
  | waitTake
  | waitUnlock
  | tryLock
  | tryTest
  | tryUnlock (acquired : Bool)
  | postLock (count : Int)
  | postTest (count : Int)
  | postSignal (count i : Int)
  | postUnlock (count : Int) (ok : Bool)
  | valueLock
  | valueRead
  | valueUnlock (value : Int)
  deriving DecidableEq, Repr

inductive Return where
  | waited
  | tried (acquired : Bool)
  | posted (count : Int) (ok : Bool)
  | value (value : Int)
  deriving DecidableEq, Repr

variable {T : Type} [DecidableEq T]

structure CThreadSemaphore (T : Type) where
  value : Int
  maximum : Int
  mutex : Option T
  place : T → Place
  returned : List Return

def threadSemaphoreInit (initial maximum : Int) : Option (CThreadSemaphore T) :=
  if initial < 0 ∨ maximum ≤ 0 ∨ initial > maximum then none
  else some ⟨initial, maximum, none, fun _ => .outside, []⟩

def CThreadSemaphore.move (s : CThreadSemaphore T) (t : T) (place : Place) : CThreadSemaphore T :=
  { s with place := Function.update s.place t place }

/-- The first line of a call; a post of no units returns before it. -/
def start : Place → Option Return → Prop
  | .waitLock, none => True
  | .tryLock, none => True
  | .postLock count, none => 0 < count
  | .outside, some (.posted count ok) => count ≤ 0 ∧ ok = false
  | .valueLock, none => True
  | _, _ => False

/-- The line behind a `ThreadMutexLock`, and behind the lock that a wait takes again. -/
def locked : Place → Option Place
  | .waitLock => some .waitTest
  | .waitWoken => some .waitTest
  | .tryLock => some .tryTest
  | .postLock count => some (.postTest count)
  | .valueLock => some .valueRead
  | _ => none

def unlocked : Place → Option Return
  | .waitUnlock => some .waited
  | .tryUnlock acquired => some (.tried acquired)
  | .postUnlock count ok => some (.posted count ok)
  | .valueUnlock value => some (.value value)
  | _ => none

/-- A line between a lock and an unlock that neither waits nor signals: the next one, and the
value. -/
def line (maximum value : Int) : Place → Option (Place × Int)
  | .waitTest => if value = 0 then none else some (.waitTake, value)
  | .waitTake => some (.waitUnlock, value - 1)
  | .tryTest =>
    if value ≠ 0 then some (.tryUnlock true, value - 1) else some (.tryUnlock false, value)
  | .postTest count =>
    if count > maximum - value then some (.postUnlock count false, value)
    else some (.postSignal count 0, value + count)
  | .postSignal count i => if i < count then none else some (.postUnlock count true, value)
  | .valueRead => some (.valueUnlock value, value)
  | _ => none

structure Wakes (place place' : T → Place) : Prop where
  only : ∀ u, place' u ≠ place u → place u = .waitBlocked ∧ place' u = .waitWoken
  some_ : (∃ u, place u = .waitBlocked) → ∃ u, place u = .waitBlocked ∧ place' u = .waitWoken

/-- One step of one thread, or a thread that wakes by itself. -/
inductive Step : CThreadSemaphore T → CThreadSemaphore T → Prop
  | call (s : CThreadSemaphore T) (t : T) (place : Place) (result : Option Return)
      (outside : s.place t = .outside) (starts : start place result) :
      Step s { s.move t place with returned := s.returned ++ result.toList }
  | lock (s : CThreadSemaphore T) (t : T) (place : Place) (free : s.mutex = none)
      (isLock : locked (s.place t) = some place) : Step s { s.move t place with mutex := some t }
  | line (s : CThreadSemaphore T) (t : T) (place : Place) (value : Int) (holds : s.mutex = some t)
      (isLine : line s.maximum s.value (s.place t) = some (place, value)) :
      Step s { s.move t place with value := value }
  | wait (s : CThreadSemaphore T) (t : T) (holds : s.mutex = some t)
      (tests : s.place t = .waitTest) (empty : s.value = 0) :
      Step s { s.move t .waitBlocked with mutex := none }
  | signal (s : CThreadSemaphore T) (t : T) (count i : Int) (place : T → Place)
      (holds : s.mutex = some t) (signals : s.place t = .postSignal count i) (more : i < count)
      (wakes : Wakes s.place place) :
      Step s { s with place := Function.update place t (.postSignal count (i + 1)) }
  | unlock (s : CThreadSemaphore T) (t : T) (result : Return) (holds : s.mutex = some t)
      (isUnlock : unlocked (s.place t) = some result) :
      Step s { s.move t .outside with mutex := none, returned := s.returned ++ [result] }
  | wake (s : CThreadSemaphore T) (u : T) (blocked : s.place u = .waitBlocked) :
      Step s (s.move u .waitWoken)

def Reachable (initial maximum : Int) (s : CThreadSemaphore T) : Prop :=
  ∃ first, threadSemaphoreInit initial maximum = some first ∧
    Relation.ReflTransGen Step first s

/-! ## What it is for -/

def Return.units : Return → Int
  | .waited => -1
  | .tried acquired => if acquired then -1 else 0
  | .posted count ok => if ok then count else 0
  | .value _ => 0

def Place.units : Place → Int
  | .waitUnlock => -1
  | .tryUnlock acquired => if acquired then -1 else 0
  | .postSignal count _ => count
  | .postUnlock count ok => if ok then count else 0
  | _ => 0

/-- The posts that were accepted, with their counts, without the waits that were successful. -/
def balance (returned : List Return) : Int := (returned.map Return.units).sum

def woken [Fintype T] (s : CThreadSemaphore T) : Finset T := threadsAt s.place .waitWoken

def Refuses (s s' : CThreadSemaphore T) (t : T) (count : Int) : Prop :=
  s.place t ≠ .postUnlock count false ∧ s'.place t = .postUnlock count false ∨
    s'.returned = s.returned ++ [.posted count false] ∧
      (s.place t ≠ s'.place t ∨ s.place = s'.place)

/-- The semaphore counts exactly, and no blocked thread is forgotten. -/
structure Exact [Fintype T] (initial maximum : Int) (s : CThreadSemaphore T) : Prop where
  bounds : 0 ≤ s.value ∧ s.value ≤ maximum
  counts : s.mutex = none → s.value = initial + balance s.returned
  held : ∀ t, s.mutex = some t → s.value = initial + balance s.returned + (s.place t).units
  refused : ∀ s' t count, Step s s' → Refuses s s' t count →
    s'.value = s.value ∧ ∀ u, u ≠ t → s'.place u = s.place u
  noLost : s.mutex = none → (∃ t, s.place t = .waitBlocked) →
    s.value ≤ (woken s).card ∧ (0 < s.value → ∃ t, s.place t = .waitWoken)

end Aholyc.Thread
