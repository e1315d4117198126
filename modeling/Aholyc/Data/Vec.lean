import Mathlib.Algebra.Order.Ring.Nat
import Aholyc.Lib.Memory

/-!
# Vectors (lib/data/vec.HC)

Growable arrays of items of one size. A vector stands for the list of its items,
and its operations for those of lists, also when what they are given lies in the
vector itself.
-/

namespace Aholyc.Vec

open Aholyc.Lib
open Aholyc.Lib.Memory (Outcome holds_append)

structure CVec where
  data : Nat
  itemSize : Nat
  count : Nat
  capacity : Nat
  deriving DecidableEq, Repr

def i64Max : Nat := 9223372036854775807

def product (a b : Nat) : Option Nat := if a * b ≤ i64Max then some (a * b) else none

/-! ## Capacities -/

def IsCapacity (capacity : Nat) : Prop := ∃ k ≤ 59, capacity = 2 ^ (k + 3)

/-! ## Items -/

def Sized (size : Nat) (items : List (List UInt8)) : Prop := ∀ item ∈ items, item.length = size

theorem Sized.length {size : Nat} {items : List (List UInt8)} (sized : Sized size items) :
    items.flatten.length = items.length * size := by
  induction items with
  | nil => rw [List.flatten_nil, List.length_nil, List.length_nil, Nat.zero_mul]
  | cons item rest ih =>
    rw [List.flatten_cons, List.length_append, List.length_cons, Nat.succ_mul,
      sized item List.mem_cons_self,
      ih fun other isIn => sized other (List.mem_cons_of_mem _ isIn)]
    exact Nat.add_comm _ _

structure IsVec (memory : Memory) (vector : CVec) (items : List (List UInt8)) : Prop where
  positive : 0 < vector.itemSize
  count : items.length = vector.count
  sized : Sized vector.itemSize items
  grown : vector.capacity = 0 ∨ IsCapacity vector.capacity
  le : vector.count ≤ vector.capacity
  fits : vector.capacity * vector.itemSize ≤ i64Max
  storage : vector.data = 0 ∧ vector.capacity = 0 ∨
    memory.blocks vector.data = some (vector.capacity * vector.itemSize)
  content : memory.Holds vector.data items.flatten

variable {memory after : Memory} {vector vector' other : CVec} {items others : List (List UInt8)}

namespace IsVec

variable {i : Nat}

theorem inside {j : Nat} (le : i + j ≤ vector.capacity) :
    i * vector.itemSize + j * vector.itemSize ≤ vector.capacity * vector.itemSize := by
  rw [← Nat.add_mul]
  exact Nat.mul_le_mul_right _ le

theorem product_eq (isVec : IsVec memory vector items) (le : i ≤ vector.capacity) :
    product i vector.itemSize = some (i * vector.itemSize) := by
  have less := Nat.mul_le_mul_right vector.itemSize le
  exact if_pos (Nat.le_trans less isVec.fits)

theorem length (isVec : IsVec memory vector items) :
    items.flatten.length = vector.count * vector.itemSize := by
  rw [isVec.sized.length, isVec.count]

theorem readable (isVec : IsVec memory vector items) (valid : memory.Valid) :
    memory.Readable vector.data (vector.capacity * vector.itemSize) := by
  cases isVec.storage with
  | inl nothing =>
    rw [nothing.2, Nat.zero_mul]
    exact fun i less => absurd less (Nat.not_lt_zero i)
  | inr isBlock => exact valid.readable isBlock

theorem slot (isVec : IsVec memory vector items) (valid : memory.Valid) (less : i < vector.capacity) :
    memory.Readable (vector.data + i * vector.itemSize) vector.itemSize := by
  have le := @inside vector i 1 less
  rw [Nat.one_mul] at le
  exact (isVec.readable valid).part (by omega) (by omega)

theorem agree (isVec : IsVec memory vector items)
    (isBlock : ∀ n, memory.blocks vector.data = some n → after.blocks vector.data = some n)
    (same : memory.Agree after vector.data (vector.capacity * vector.itemSize)) :
    IsVec after vector items := by
  refine { isVec with storage := isVec.storage.imp_right (isBlock _), content := ?_ }
  apply isVec.content.agree
  apply same.part (Nat.le_refl _)
  have le := Nat.mul_le_mul_right vector.itemSize isVec.le
  rw [isVec.length]
  omega

theorem counted (isVec : IsVec memory vector items) {count : Nat} {items' : List (List UInt8)}
    (isCount : items'.length = count) (le : count ≤ vector.capacity)
    (sized : Sized vector.itemSize items') (content : after.Holds vector.data items'.flatten)
    (same : after.blocks = memory.blocks) :
    IsVec after { vector with count := count } items' where
  positive := isVec.positive
  count := isCount
  sized := sized
  grown := isVec.grown
  le := le
  fits := isVec.fits
  storage := by
    rw [same]
    exact isVec.storage
  content := content

end IsVec

end Aholyc.Vec
