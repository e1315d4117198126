import Mathlib.Data.Fintype.Card
import Mathlib.Data.Fintype.Prod
import Mathlib.Data.List.Basic
import Mathlib.Algebra.BigOperators.Group.List.Basic

/-!
# Strides

An index tuple addresses the sum of its indices times the strides of their axes. The
positions of the tuples are apart and fill the volume just where every axis of more than
one index has the volume of the axes behind it for its stride, provided the strides do
not grow from one axis to the next.
-/

namespace Aholyc.Lib

structure Axis where
  len : Nat
  stride : Nat

namespace Axis

def volume : List Axis → Nat
  | [] => 1
  | axis :: axes => axis.len * volume axes

def Inside : List Axis → List Nat → Prop := List.Forall₂ fun axis i => i < axis.len

def position : List Axis → List Nat → Nat
  | axis :: axes, i :: is => i * axis.stride + position axes is
  | _, _ => 0

def Packed : List Axis → Prop
  | [] => True
  | axis :: axes => (axis.len = 1 ∨ axis.stride = volume axes) ∧ Packed axes

structure Fits (axes : List Axis) : Prop where
  inside : ∀ is, Inside axes is → position axes is < volume axes
  apart : ∀ is js, Inside axes is → Inside axes js → position axes is = position axes js → is = js

def Descending : List Axis → Prop := List.Pairwise fun a b => b.stride ≤ a.stride

/-! ## Packed axes -/

variable {axes : List Axis} {is : List Nat}

theorem Packed.position_lt (packed : Packed axes) :
    ∀ is, Inside axes is → position axes is < volume axes := by
  induction axes with
  | nil =>
    intro is inside
    cases inside
    exact Nat.one_pos
  | cons axis axes ih =>
    intro is inside
    cases inside with
    | cons bound inside =>
      rename_i i is
      have rest := ih packed.2 is inside
      have step : (i + 1) * volume axes ≤ axis.len * volume axes := Nat.mul_le_mul_right _ bound
      rcases packed.1 with single | stride
      · have zero : i = 0 := by omega
        rw [position, volume, zero, single, Nat.zero_mul, Nat.zero_add, Nat.one_mul]
        exact rest
      · rw [position, volume, stride]
        rw [Nat.add_mul, Nat.one_mul] at step
        omega

theorem Packed.apart (packed : Packed axes) :
    ∀ is js, Inside axes is → Inside axes js → position axes is = position axes js → is = js := by
  induction axes with
  | nil =>
    intro is js left right _
    cases left
    cases right
    rfl
  | cons axis axes ih =>
    intro is js left right same
    cases left with
    | cons boundI left =>
      cases right with
      | cons boundJ right =>
        rename_i i is j js
        have restI := packed.2.position_lt is left
        have restJ := packed.2.position_lt js right
        rw [position, position] at same
        have heads : i = j := by
          rcases packed.1 with single | stride
          · omega
          · rw [stride] at same
            have quotients := congrArg (· / volume axes) same
            simp only [Nat.add_comm (_ * volume axes)] at quotients
            rw [Nat.add_mul_div_right _ _ (by omega), Nat.add_mul_div_right _ _ (by omega),
              Nat.div_eq_of_lt restI, Nat.div_eq_of_lt restJ] at quotients
            omega
        rw [heads] at same
        rw [heads, ih packed.2 is js left right (by omega)]

theorem Packed.onto (packed : Packed axes) :
    ∀ v < volume axes, ∃ is, Inside axes is ∧ position axes is = v := by
  induction axes with
  | nil =>
    intro v bound
    rw [volume] at bound
    exact ⟨[], .nil, (Nat.lt_one_iff.mp bound).symm⟩
  | cons axis axes ih =>
    intro v bound
    rw [volume] at bound
    have positive : 0 < volume axes := by
      rcases Nat.eq_zero_or_pos (volume axes) with zero | positive
      · rw [zero, Nat.mul_zero] at bound
        omega
      · exact positive
    obtain ⟨is, inside, isRest⟩ := ih packed.2 (v % volume axes) (Nat.mod_lt v positive)
    have quotient : v / volume axes < axis.len := Nat.div_lt_of_lt_mul (by rwa [Nat.mul_comm])
    refine ⟨v / volume axes :: is, .cons quotient inside, ?_⟩
    have parts := Nat.div_add_mod v (volume axes)
    rw [position, isRest]
    rcases packed.1 with single | stride
    · have zero : v / volume axes = 0 := by
        rw [single] at quotient
        exact Nat.lt_one_iff.mp quotient
      rw [zero, Nat.mul_zero] at parts
      rw [zero, Nat.zero_mul]
      exact parts
    · rw [stride, Nat.mul_comm]
      exact parts

theorem Packed.fits (packed : Packed axes) : Fits axes where
  inside := packed.position_lt
  apart := packed.apart

/-! ## Tuples are counted -/

def rowMajor : List Axis → List Axis
  | [] => []
  | axis :: axes => { len := axis.len, stride := volume axes } :: rowMajor axes

theorem rowMajor_volume (axes : List Axis) : volume (rowMajor axes) = volume axes := by
  induction axes with
  | nil => rfl
  | cons axis axes ih => rw [rowMajor, volume, volume, ih]

theorem rowMajor_packed (axes : List Axis) : Packed (rowMajor axes) := by
  induction axes with
  | nil => trivial
  | cons axis axes ih => exact ⟨Or.inr (rowMajor_volume axes).symm, ih⟩

theorem rowMajor_inside : Inside (rowMajor axes) is ↔ Inside axes is := by
  induction axes generalizing is with
  | nil => rfl
  | cons axis axes ih =>
    cases is with
    | nil =>
      constructor
      · intro inside
        cases inside
      · intro inside
        cases inside
    | cons i is =>
      constructor
      · intro inside
        cases inside with
        | cons bound inside => exact .cons bound (ih.mp inside)
      · intro inside
        cases inside with
        | cons bound inside => exact .cons bound (ih.mpr inside)

theorem tuples (axes : List Axis) : ∃ tuple : Fin (volume axes) → List Nat,
    (∀ v, Inside axes (tuple v)) ∧ ∀ v v', tuple v = tuple v' → v = v' := by
  have onto : ∀ v : Fin (volume axes), ∃ is, Inside axes is ∧ position (rowMajor axes) is = v := by
    intro v
    have bound : v.val < volume (rowMajor axes) := by
      rw [rowMajor_volume]
      exact v.isLt
    obtain ⟨is, inside, isV⟩ := (rowMajor_packed axes).onto v bound
    exact ⟨is, rowMajor_inside.mp inside, isV⟩
  choose tuple inside positions using onto
  refine ⟨tuple, inside, ?_⟩
  intro v v' same
  apply Fin.ext
  rw [← positions v, ← positions v', same]

/-- Tuples times `size` cells that are all apart take as many cells. -/
theorem volume_le {size cells : Nat} (cell : List Nat → Nat → Nat)
    (inside : ∀ is, Inside axes is → ∀ t < size, cell is t < cells)
    (apart : ∀ is js, Inside axes is → Inside axes js → ∀ t < size, ∀ t' < size,
      cell is t = cell js t' → is = js ∧ t = t') : volume axes * size ≤ cells := by
  obtain ⟨tuple, isInside, distinct⟩ := tuples axes
  let place (p : Fin (volume axes) × Fin size) : Fin cells :=
    ⟨cell (tuple p.1) p.2, inside _ (isInside p.1) p.2 p.2.isLt⟩
  have injective : Function.Injective place := by
    intro p q same
    have cells := congrArg Fin.val same
    obtain ⟨isTuple, isByte⟩ := apart _ _ (isInside p.1) (isInside q.1) p.2 p.2.isLt q.2 q.2.isLt cells
    exact Prod.ext (distinct _ _ isTuple) (Fin.ext isByte)
  have counted := Fintype.card_le_of_injective place injective
  rw [Fintype.card_prod, Fintype.card_fin, Fintype.card_fin, Fintype.card_fin] at counted
  exact counted

theorem Fits.onto (fits : Fits axes) :
    ∀ v < volume axes, ∃ is, Inside axes is ∧ position axes is = v := by
  obtain ⟨tuple, isInside, distinct⟩ := tuples axes
  let place (p : Fin (volume axes)) : Fin (volume axes) :=
    ⟨position axes (tuple p), fits.inside _ (isInside p)⟩
  have injective : Function.Injective place := by
    intro p q same
    exact distinct p q (fits.apart _ _ (isInside p) (isInside q) (congrArg Fin.val same))
  intro v bound
  obtain ⟨p, isV⟩ := Finite.surjective_of_injective injective ⟨v, bound⟩
  exact ⟨tuple p, isInside p, congrArg Fin.val isV⟩

/-! ## Axes that fit are packed -/

variable {front : List Axis}

theorem position_append (inside : Inside front is) (axes : List Axis) (js : List Nat) :
    position (front ++ axes) (is ++ js) = position front is + position axes js := by
  induction inside with
  | nil => exact (Nat.zero_add _).symm
  | cons bound inside ih =>
    rw [List.cons_append, List.cons_append, position, position, ih]
    omega

theorem inside_append {ks : List Nat} (inside : Inside (front ++ axes) ks) :
    ∃ is js, ks = is ++ js ∧ Inside front is ∧ Inside axes js := by
  induction front generalizing ks with
  | nil => exact ⟨[], ks, rfl, .nil, inside⟩
  | cons axis front ih =>
    cases inside with
    | cons bound inside =>
      obtain ⟨is, js, rfl, left, right⟩ := ih inside
      exact ⟨_ :: is, js, rfl, .cons bound left, right⟩

def zeros (axes : List Axis) : List Nat := axes.map fun _ => 0

theorem zeros_inside (positive : ∀ axis ∈ axes, 0 < axis.len) : Inside axes (zeros axes) := by
  induction axes with
  | nil => exact .nil
  | cons axis axes ih =>
    exact .cons (positive axis List.mem_cons_self)
      (ih fun axis' inAxes => positive axis' (List.mem_cons_of_mem axis inAxes))

theorem zeros_position (axes : List Axis) : position axes (zeros axes) = 0 := by
  induction axes with
  | nil => rfl
  | cons axis axes ih =>
    show 0 * axis.stride + position axes (zeros axes) = 0
    rw [ih, Nat.zero_mul]

theorem Inside.append {js : List Nat} (left : Inside front is) (right : Inside axes js) :
    Inside (front ++ axes) (is ++ js) := by
  induction left with
  | nil => exact right
  | cons bound _ ih => exact .cons bound ih

theorem position_large {s : Nat} (large : ∀ axis ∈ axes, s ≤ axis.stride) (inside : Inside axes is) :
    position axes is = 0 ∨ s ≤ position axes is := by
  induction inside with
  | nil => exact Or.inl rfl
  | cons bound inside ih =>
    rename_i axis i axes is
    have here := large axis List.mem_cons_self
    have rest := ih fun axis' inAxes => large axis' (List.mem_cons_of_mem axis inAxes)
    rw [position]
    rcases Nat.eq_zero_or_pos i with zero | positive
    · rw [zero, Nat.zero_mul, Nat.zero_add]
      exact rest
    · have counts : 1 * axis.stride ≤ i * axis.stride := Nat.mul_le_mul_right _ positive
      omega

theorem volume_append (front axes : List Axis) :
    volume (front ++ axes) = volume front * volume axes := by
  induction front with
  | nil => exact (Nat.one_mul _).symm
  | cons axis front ih => rw [List.cons_append, volume, volume, ih, Nat.mul_assoc]

theorem volume_pos (positive : ∀ axis ∈ axes, 0 < axis.len) : 0 < volume axes := by
  induction axes with
  | nil => exact Nat.one_pos
  | cons axis axes ih =>
    exact Nat.mul_pos (positive axis List.mem_cons_self)
      (ih fun axis' inAxes => positive axis' (List.mem_cons_of_mem axis inAxes))

theorem Fits.stride {axis : Axis} (fits : Fits (front ++ axis :: axes))
    (positive : ∀ other ∈ front ++ axis :: axes, 0 < other.len)
    (descending : Descending (front ++ axis :: axes)) (packed : Packed axes) :
    axis.len = 1 ∨ axis.stride = volume axes := by
  have positiveFront : ∀ other ∈ front, 0 < other.len := fun other inFront =>
    positive other (List.mem_append_left _ inFront)
  have positiveHere : 0 < axis.len :=
    positive axis (List.mem_append_right front List.mem_cons_self)
  have positiveBack : ∀ other ∈ axes, 0 < other.len := fun other inBack =>
    positive other (List.mem_append_right front (List.mem_cons_of_mem axis inBack))
  have leading (is : List Nat) : position (front ++ axis :: axes) (zeros front ++ is) =
      position (axis :: axes) is := by
    rw [position_append (zeros_inside positiveFront), zeros_position, Nat.zero_add]
  by_cases single : axis.len = 1
  · exact Or.inl single
  rcases Nat.lt_trichotomy axis.stride (volume axes) with small | exact' | large
  · -- the second index of this axis and a tuple behind it meet
    obtain ⟨is, inside, isStride⟩ := packed.onto axis.stride small
    have first : Inside (front ++ axis :: axes) (zeros front ++ 1 :: zeros axes) :=
      (zeros_inside positiveFront).append (.cons (by omega) (zeros_inside positiveBack))
    have second : Inside (front ++ axis :: axes) (zeros front ++ 0 :: is) :=
      (zeros_inside positiveFront).append (.cons positiveHere inside)
    have same := fits.apart _ _ first second (by
      rw [leading, leading, position, position, zeros_position, isStride]
      omega)
    have tails := List.append_cancel_left same
    cases tails
  · exact Or.inr exact'
  · -- no tuple is at the end of what is behind this axis
    have below : volume axes < volume (front ++ axis :: axes) := by
      have frontVolume := volume_pos positiveFront
      have backVolume := volume_pos positiveBack
      have here : 2 * volume axes ≤ axis.len * volume axes := Nat.mul_le_mul_right _ (by omega)
      have all : 1 * (axis.len * volume axes) ≤ volume front * (axis.len * volume axes) :=
        Nat.mul_le_mul_right _ frontVolume
      rw [volume_append, volume]
      omega
    obtain ⟨ks, inside, isEnd⟩ := fits.onto _ below
    obtain ⟨is, js, rfl, insideFront, insideBack⟩ := inside_append inside
    cases insideBack with
    | cons bound insideBack =>
      rename_i j js
      have strides := (List.pairwise_append.mp descending).2.2
      have front' := position_large (s := axis.stride)
        (fun other inFront => strides other inFront axis List.mem_cons_self) insideFront
      have back := packed.position_lt js insideBack
      rw [position_append insideFront, position] at isEnd
      rcases Nat.eq_zero_or_pos j with zero | positiveJ
      · rw [zero, Nat.zero_mul, Nat.zero_add] at isEnd
        omega
      · have counts : 1 * axis.stride ≤ j * axis.stride := Nat.mul_le_mul_right _ positiveJ
        omega

theorem Fits.packed (front : List Axis) (fits : Fits (front ++ axes))
    (positive : ∀ axis ∈ front ++ axes, 0 < axis.len) (descending : Descending (front ++ axes)) :
    Packed axes := by
  induction axes generalizing front with
  | nil => trivial
  | cons axis axes ih =>
    have regroup : front ++ axis :: axes = (front ++ [axis]) ++ axes := by
      rw [List.append_assoc, List.singleton_append]
    have packed : Packed axes := by
      apply ih (front ++ [axis])
      · rw [← regroup]
        exact fits
      · rw [← regroup]
        exact positive
      · rw [← regroup]
        exact descending
    exact ⟨fits.stride positive descending packed, packed⟩

theorem fits_iff_packed (positive : ∀ axis ∈ axes, 0 < axis.len) (descending : Descending axes) :
    Fits axes ↔ Packed axes := by
  constructor
  · intro fits
    exact Fits.packed [] fits positive descending
  · exact Packed.fits

/-! ## Positions are bounded -/

theorem Inside.volume_pos (inside : Inside axes is) : 0 < volume axes := by
  induction inside with
  | nil => exact Nat.one_pos
  | cons bound _ ih => exact Nat.mul_pos (Nat.zero_lt_of_lt bound) ih

theorem position_le {most : Nat} (bounded : ∀ axis ∈ axes, axis.stride ≤ most)
    (inside : Inside axes is) : position axes is ≤ (volume axes - 1) * most := by
  induction inside with
  | nil => exact Nat.zero_le _
  | cons bound inside ih =>
    rename_i axis i axes is
    have rest := ih fun axis' inAxes => bounded axis' (List.mem_cons_of_mem axis inAxes)
    have here : i * axis.stride ≤ i * most :=
      Nat.mul_le_mul_left i (bounded axis List.mem_cons_self)
    have some' := Inside.volume_pos inside
    have rows : (i + 1) * volume axes ≤ axis.len * volume axes := Nat.mul_le_mul_right _ bound
    have cells : i * 1 ≤ i * volume axes := Nat.mul_le_mul_left i some'
    have counted : i + (volume axes - 1) ≤ axis.len * volume axes - 1 := by
      rw [Nat.add_mul, Nat.one_mul] at rows
      omega
    rw [position, volume]
    calc i * axis.stride + position axes is
        ≤ i * most + (volume axes - 1) * most := Nat.add_le_add here rest
      _ = (i + (volume axes - 1)) * most := (Nat.add_mul ..).symm
      _ ≤ (axis.len * volume axes - 1) * most := Nat.mul_le_mul_right most counted

end Axis

end Aholyc.Lib
