import Aholyc.Parse.Arrays
import Aholyc.Parse.Update

/-!
# Pointer arithmetic

`new_binary` puts the pointer of a sum or a difference on the left, where the backends
look for it. That is a sum with its operands exchanged, but not a difference.
-/

namespace Aholyc.Parse

open Aholyc.Eval

variable {W : Type}

inductive AddOp where
  | plus
  | minus
  deriving DecidableEq, Repr

def AddOp.kind : AddOp → BinKind
  | .plus => .add
  | .minus => .sub

def AddOp.apply : AddOp → Word → Word → Word
  | .plus, x, y => x + y
  | .minus, x, y => x - y

/-- The element type of a pointer or of an array, which decays to one. -/
def pointee : Ty → Option Ty
  | .ptr base => some base
  | .array base _ => some base
  | _ => none

def scale (classes : ClassSizes) (base : Ty) : Word := (elemSize classes base).signExtend 64

structure PointerTarget (T : Target W) (classes : ClassSizes) : Prop where
  scaled : ∀ (op : AddOp) ty base idx x y, pointee idx = none →
    T.bin op.kind ty (.ptr base) idx x y = some (op.apply x (y * scale classes base))
  difference : ∀ ty base base' x y,
    T.bin .sub ty (.ptr base) (.ptr base') x y = some ((x - y).sdiv (scale classes base))

def inOrder (T : Target W) (answers : Answers W) (l r : Expr) (f : Word → Word → Word) (w : W) :
    Option (Word × W) :=
  (run T answers l w).bind fun left =>
    (run T answers r left.2).map fun right => (f left.1 right.1, right.2)

/-- The node runs both operands and has this function of their values. -/
def Denotes (T : Target W) (answers : Answers W) (node l r : Expr) (f : Word → Word → Word) : Prop :=
  (∀ w, run T answers node w = inOrder T answers l r f w) ∨
    ∀ w, run T answers node w = inOrder T answers r l (fun y x => f x y) w

def Converted (e e' : Expr) : Prop := e' = e ∨ e' = toF64 e ∨ e' = toInt e

/-- The node that is built for the two operands has the meaning of the operator. -/
structure Faithful (op : AddOp) (lhs rhs : Expr) : Prop where
  pointerLeft : ∀ base, pointee lhs.ty = some base → pointee rhs.ty = none →
    ∀ (W : Type) (T : Target W) (answers : Answers W) (classes : ClassSizes),
      PointerTarget T classes →
      Denotes T answers (newBinary op.kind lhs rhs) (rvalize lhs) (rvalize rhs)
        fun x y => op.apply x (asInt T rhs.ty y * scale classes base)
  pointerRight : op = .plus → ∀ base, pointee lhs.ty = none → pointee rhs.ty = some base →
    ∀ (W : Type) (T : Target W) (answers : Answers W) (classes : ClassSizes),
      PointerTarget T classes →
      Denotes T answers (newBinary op.kind lhs rhs) (rvalize lhs) (rvalize rhs)
        fun x y => y + asInt T lhs.ty x * scale classes base
  pointers : op = .minus → ∀ base base', pointee lhs.ty = some base → pointee rhs.ty = some base' →
    ∀ (W : Type) (T : Target W) (answers : Answers W) (classes : ClassSizes),
      PointerTarget T classes →
      Denotes T answers (newBinary op.kind lhs rhs) (rvalize lhs) (rvalize rhs)
        fun x y => (x - y).sdiv (scale classes base)
  notCommuted : op = .minus → ∃ ty l r, newBinary op.kind lhs rhs = .bin op.kind ty l r ∧
    Converted (rvalize lhs) l ∧ Converted (rvalize rhs) r

/-! ## The types of the operands -/

theorem isPtr_pointee (ty : Ty) : isPtr ty = (pointee ty).isSome := by
  cases ty <;> rfl

theorem rvalize_pointee (e : Expr) : pointee (rvalize e).ty = pointee e.ty := by
  unfold rvalize
  cases ty : e.ty with
  | array base len => rfl
  | _ => rw [ty]

theorem rvalize_ptr {e : Expr} {base : Ty} (isPointer : pointee e.ty = some base) :
    (rvalize e).ty = .ptr base := by
  have isPointer' := isPointer
  rw [← rvalize_pointee] at isPointer'
  have notArray := rvalize_ty e
  cases ty : (rvalize e).ty with
  | ptr base' =>
    rw [ty] at isPointer'
    injection isPointer' with same
    rw [same]
  | array base' len =>
    rw [ty] at notArray
    cases notArray
  | _ =>
    rw [ty] at isPointer'
    cases isPointer'

theorem rvalize_integer {e : Expr} (notPointer : pointee e.ty = none) : rvalize e = e := by
  apply rvalize_scalar
  cases ty : e.ty with
  | array base len =>
    rw [ty] at notPointer
    cases notPointer
  | _ => rfl

theorem toInt_pointee {e : Expr} (notPointer : pointee e.ty = none) : pointee (toInt e).ty = none := by
  unfold toInt
  split
  · rfl
  · exact notPointer

theorem AddOp.newBinary_eq (op : AddOp) (lhs rhs : Expr) :
    newBinary op.kind lhs rhs = additive op.kind (rvalize lhs) (rvalize rhs) := by
  cases op <;> rfl

theorem AddOp.strict (op : AddOp) :
    op.kind ≠ .comma ∧ op.kind ≠ .logand ∧ op.kind ≠ .logor := by
  cases op <;> decide

/-! ## The nodes that are built -/

section

variable (op : AddOp) {lhs rhs : Expr} {base base' : Ty}

theorem newBinary_pointerLeft (left : pointee lhs.ty = some base) (right : pointee rhs.ty = none) :
    newBinary op.kind lhs rhs = .bin op.kind (.ptr base) (rvalize lhs) (toInt (rvalize rhs)) := by
  have ptr := rvalize_ptr left
  have int := rvalize_integer right
  rw [op.newBinary_eq]
  unfold additive
  rw [isPtr_pointee, isPtr_pointee, rvalize_pointee, rvalize_pointee, left, right, ptr]
  rfl

/-- A pointer on the right changes places with the other operand, whatever the operator. -/
theorem newBinary_pointerRight (left : pointee lhs.ty = none) (right : pointee rhs.ty = some base) :
    newBinary op.kind lhs rhs = .bin op.kind (.ptr base) (rvalize rhs) (toInt (rvalize lhs)) := by
  have ptr := rvalize_ptr right
  rw [op.newBinary_eq]
  unfold additive
  rw [isPtr_pointee, isPtr_pointee, rvalize_pointee, rvalize_pointee, left, right, ptr]
  rfl

theorem newBinary_pointers (left : pointee lhs.ty = some base) (right : pointee rhs.ty = some base') :
    newBinary op.kind lhs rhs = .bin op.kind tyI64 (rvalize lhs) (rvalize rhs) := by
  rw [op.newBinary_eq]
  unfold additive
  rw [isPtr_pointee, isPtr_pointee, rvalize_pointee, rvalize_pointee, left, right]
  rfl

theorem newBinary_numbers (left : pointee lhs.ty = none) (right : pointee rhs.ty = none) :
    newBinary op.kind lhs rhs = numeric op.kind (rvalize lhs) (rvalize rhs) := by
  rw [op.newBinary_eq]
  unfold additive
  rw [isPtr_pointee, isPtr_pointee, rvalize_pointee, rvalize_pointee, left, right]
  rfl

end

/-! ## What they denote -/

section

variable {T : Target W} {classes : ClassSizes} (answers : Answers W) (op : AddOp) {p e : Expr}
  {base base' : Ty}

/-- A node whose sides come in the target's order. -/
theorem denotes_of_sides {node l r : Expr} {f : Word → Word → Word} (leftFirst : Bool)
    (runs : ∀ w, run T answers node w =
      if leftFirst then inOrder T answers l r f w else inOrder T answers r l (fun y x => f x y) w) :
    Denotes T answers node l r f := by
  cases leftFirst with
  | true => exact .inl runs
  | false => exact .inr runs

theorem scaled_run (target : PointerTarget T classes) (isPointer : p.ty = .ptr base)
    (notPointer : pointee e.ty = none) :
    Denotes T answers (.bin op.kind (.ptr base) p (toInt e)) p e
      fun x y => op.apply x (asInt T e.ty y * scale classes base) := by
  have value (x y : Word) : T.bin op.kind (.ptr base) p.ty (toInt e).ty x y =
      some (op.apply x (y * scale classes base)) := by
    rw [isPointer]
    exact target.scaled op _ _ _ _ _ (toInt_pointee notPointer)
  apply denotes_of_sides answers (T.leftFirst (.bin op.kind (.ptr base) p (toInt e)))
  intro w
  rw [run_bin T answers op.kind op.strict]
  unfold inOrder
  simp only [run_toInt, value, Option.bind_some, Option.map_eq_bind, Option.bind_assoc]
  rfl

theorem difference_run (target : PointerTarget T classes) {q : Expr} (left : p.ty = .ptr base)
    (right : q.ty = .ptr base') :
    Denotes T answers (.bin .sub tyI64 p q) p q fun x y => (x - y).sdiv (scale classes base) := by
  apply denotes_of_sides answers (T.leftFirst (.bin .sub tyI64 p q))
  intro w
  rw [run_bin T answers .sub (by decide)]
  unfold inOrder
  simp only [left, right, target.difference, Option.map_eq_bind]
  rfl

end

/-! ## Which differences are not commuted -/

theorem converted_pointee {e e' : Expr} (notPointer : pointee e.ty = none)
    (converted : Converted e e') : pointee e'.ty = none := by
  rcases converted with same | isF64 | isInt
  · rw [same]
    exact notPointer
  · rw [isF64, toF64_ty]
    rfl
  · rw [isInt]
    exact toInt_pointee notPointer

theorem numeric_converted (kind : BinKind) (lhs rhs : Expr) : ∃ ty l r,
    numeric kind lhs rhs = .bin kind ty l r ∧ Converted lhs l ∧ Converted rhs r := by
  unfold numeric
  split
  · exact ⟨_, _, _, rfl, .inr (.inl rfl), .inr (.inl rfl)⟩
  · exact ⟨_, _, _, rfl, .inl rfl, .inl rfl⟩

/-- An integer minus a pointer becomes the pointer minus the integer. -/
theorem commuted_unfaithful {lhs rhs : Expr} {base : Ty} (left : pointee lhs.ty = none)
    (right : pointee rhs.ty = some base) : ¬Faithful .minus lhs rhs := by
  intro faithful
  obtain ⟨ty, l, r, node, isLeft, _⟩ := faithful.notCommuted rfl
  rw [newBinary_pointerRight .minus left right] at node
  injection node with _ _ sameLeft _
  have notPointer : pointee (rvalize lhs).ty = none := by
    rw [rvalize_pointee]
    exact left
  have kept := converted_pointee notPointer isLeft
  rw [← sameLeft, rvalize_pointee, right] at kept
  cases kept

/-- The node has the meaning of its operator just when it is not an integer minus a pointer. -/
theorem newBinary_faithful (op : AddOp) (lhs rhs : Expr) :
    Faithful op lhs rhs ↔ ¬(op = .minus ∧ pointee lhs.ty = none ∧ (pointee rhs.ty).isSome) := by
  constructor
  · intro faithful swapped
    obtain ⟨isMinus, left, right⟩ := swapped
    obtain ⟨base, right⟩ := Option.isSome_iff_exists.mp right
    rw [isMinus] at faithful
    exact commuted_unfaithful left right faithful
  · intro kept
    refine ⟨?_, ?_, ?_, ?_⟩
    · intro base left right W T answers classes target
      rw [newBinary_pointerLeft op left right, rvalize_integer right]
      exact scaled_run answers op target (rvalize_ptr left) right
    · intro isPlus base left right W T answers classes target
      rw [newBinary_pointerRight op left right, rvalize_integer left, isPlus]
      exact (scaled_run answers .plus target (rvalize_ptr right) left).symm
    · intro isMinus base base' left right W T answers classes target
      rw [newBinary_pointers op left right, isMinus]
      exact difference_run answers target (rvalize_ptr left) (rvalize_ptr right)
    · intro isMinus
      cases left : pointee lhs.ty with
      | none =>
        cases right : pointee rhs.ty with
        | none =>
          rw [newBinary_numbers op left right]
          exact numeric_converted _ _ _
        | some base =>
          exfalso
          apply kept
          rw [right]
          exact ⟨isMinus, left, rfl⟩
      | some base =>
        cases right : pointee rhs.ty with
        | none =>
          rw [newBinary_pointerLeft op left right]
          exact ⟨_, _, _, rfl, .inl rfl, .inr (.inr rfl)⟩
        | some base' =>
          rw [newBinary_pointers op left right]
          exact ⟨_, _, _, rfl, .inl rfl, .inl rfl⟩

/-- `5 - p` becomes `p - 5`. -/
theorem integer_minus_pointer : ¬∀ op lhs rhs, Faithful op lhs rhs := by
  intro all
  let p : Obj := { uid := 0, name := "p", ty := .ptr tyU8 }
  have isPointer : pointee (Expr.var p).ty = some tyU8 := rfl
  exact commuted_unfaithful rfl isPointer (all .minus (.num 5) (.var p))

end Aholyc.Parse
