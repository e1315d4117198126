import Mathlib.Data.Fintype.Card
import Mathlib.Data.Finset.Card

/-!
# Threads at places

Finitely many threads, each at one place. How many are at a place changes by at most one
with a step of one thread.
-/

namespace Aholyc.Lib

variable {T P : Type} [Fintype T] [DecidableEq T] [DecidableEq P]

def threadsAt (place : T → P) (p : P) : Finset T := Finset.univ.filter fun t => place t = p

variable {place place' : T → P} {p q : P} {t : T}

omit [DecidableEq T] in
@[simp] theorem mem_threadsAt : t ∈ threadsAt place p ↔ place t = p := by
  unfold threadsAt
  rw [Finset.mem_filter]
  exact and_iff_right (Finset.mem_univ t)

theorem threadsAt_stay (old : place t ≠ p) (new : q ≠ p) :
    threadsAt (Function.update place t q) p = threadsAt place p := by
  ext u
  rw [mem_threadsAt, mem_threadsAt]
  by_cases same : u = t
  · rw [same, Function.update_self]
    exact iff_of_false new old
  · rw [Function.update_of_ne same]

theorem threadsAt_enter (old : place t ≠ p) :
    (threadsAt (Function.update place t p) p).card = (threadsAt place p).card + 1 := by
  have isInsert : threadsAt (Function.update place t p) p = insert t (threadsAt place p) := by
    ext u
    rw [Finset.mem_insert, mem_threadsAt, mem_threadsAt]
    by_cases same : u = t
    · rw [same, Function.update_self]
      exact iff_of_true rfl (Or.inl rfl)
    · rw [Function.update_of_ne same, or_iff_right same]
  rw [isInsert]
  apply Finset.card_insert_of_notMem
  rw [mem_threadsAt]
  exact old

theorem threadsAt_leave (old : place t = p) (new : q ≠ p) :
    (threadsAt (Function.update place t q) p).card + 1 = (threadsAt place p).card := by
  have back : Function.update (Function.update place t q) t p = place := by
    rw [Function.update_idem, ← old, Function.update_eq_self]
  have entered : (threadsAt (Function.update (Function.update place t q) t p) p).card =
      (threadsAt (Function.update place t q) p).card + 1 := by
    apply threadsAt_enter
    rw [Function.update_self]
    exact new
  rw [back] at entered
  exact entered.symm

omit [DecidableEq T] in
/-- Where nobody leaves and somebody comes, there is one more. -/
theorem threadsAt_grow (stay : ∀ u, place u = p → place' u = p)
    (come : ∃ u, place u ≠ p ∧ place' u = p) :
    (threadsAt place p).card + 1 ≤ (threadsAt place' p).card := by
  obtain ⟨u, old, new⟩ := come
  apply Finset.card_lt_card
  rw [Finset.ssubset_iff_of_subset]
  · refine ⟨u, ?_, ?_⟩
    · rwa [mem_threadsAt]
    · rwa [mem_threadsAt]
  · intro v member
    rw [mem_threadsAt] at member ⊢
    exact stay v member

end Aholyc.Lib
