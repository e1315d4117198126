import Mathlib.Algebra.Order.BigOperators.GroupWithZero.List
import Mathlib.Algebra.Order.Ring.Nat
import Aholyc.Lib.Strides
import Aholyc.Parse.Run

/-!
# Arrays of several dimensions

A declarator wraps its type in one array for each pair of brackets, from left to right,
so the last length is that of the outermost array; a subscript takes the outermost array
off. Sizes are `int`s of the C code.
-/

namespace Aholyc.Parse

open Aholyc.Lib Aholyc.Eval

variable {W : Type}

def sizeField (classes : ClassSizes) : Ty → BitVec 32
  | .array base len => sizeField classes base * BitVec.ofNat 32 len
  | ty => BitVec.ofNat 32 (ty.size classes)

def elemSize (classes : ClassSizes) (base : Ty) : BitVec 32 :=
  if sizeField classes base = 0 then 1 else sizeField classes base

def arrayOf (base : Ty) (len : Nat) : Ty := .array base len

/-- The loop over `[len]` in `local_decl`, `global_decl` and `parse_class`. -/
def declarator : Ty → List Nat → Ty
  | ty, [] => ty
  | ty, len :: dims => declarator (arrayOf ty len) dims

def subscript (n idx : Expr) : Option Expr :=
  let sum := newBinary .add n idx
  match sum.ty with
  | .ptr base => some (.deref base sum)
  | _ => none

def subscripts : Expr → List Expr → Option Expr
  | n, [] => some n
  | n, idx :: idxs =>
      match subscript n idx with
      | some n => subscripts n idxs
      | none => none

def storage (classes : ClassSizes) (ty : Ty) : Nat := (sizeField classes ty).toInt.toNat

/-- The sum of a pointer and an integer, as the backends emit it. -/
def Scaled (T : Target W) (classes : ClassSizes) : Prop :=
  ∀ base idx x y, isInteger idx = true → T.bin .add (.ptr base) (.ptr base) idx x y =
    some (x + y * (elemSize classes base).signExtend 64)

/-- The evaluation of a subscript, behind or in front of what it is a subscript of. -/
def subscripted (T : Target W) (answers : Answers W) (n idx : Expr)
    (reached : W → Option ((Word × List Word) × W)) (w : W) : Option ((Word × List Word) × W) :=
  if T.leftFirst (newBinary .add n idx) then
    (reached w).bind fun b => (run T answers idx b.2).map fun i => ((b.1.1, b.1.2 ++ [i.1]), i.2)
  else
    (run T answers idx w).bind fun i => (reached i.2).map fun b => ((b.1.1, b.1.2 ++ [i.1]), b.2)

/-- The address of an array and the values of its subscripts, in the target's order. -/
def parts (T : Target W) (answers : Answers W) :
    (W → Option ((Word × List Word) × W)) → Expr → List Expr → W → Option ((Word × List Word) × W)
  | reached, _, [], w => reached w
  | reached, n, idx :: idxs, w =>
      match subscript n idx with
      | some inner => parts T answers (subscripted T answers n idx reached) inner idxs w
      | none => none

def located (T : Target W) (answers : Answers W) (array : Expr) (w : W) :
    Option ((Word × List Word) × W) :=
  (runAddr T answers array w).map fun b => ((b.1, []), b.2)

/-- With the array at `b`, some evaluation of an element with the indices `is` finds it at `a`. -/
def Finds (T : Target W) (answers : Answers W) (array : Expr) (is : List Nat) (b a : Word) : Prop :=
  ∃ idxs element w evaluated there, (∀ idx ∈ idxs, isInteger idx.ty = true) ∧
    subscripts array idxs = some element ∧
    parts T answers (located T answers array) array idxs w =
      some ((b, is.map (BitVec.ofNat 64)), evaluated) ∧
    runAddr T answers element w = some (a, there)

def InBounds : List Nat → List Nat → Prop := List.Forall₂ fun len i => i < len

/-- The bytes of an element are inside the array, and no other element has one of them. -/
def ElementsApart (classes : ClassSizes) (ty : Ty) (dims : List Nat) : Prop :=
  ∀ (W : Type) (T : Target W) (answers : Answers W) (array : Expr),
    Scaled T classes → array.ty = declarator ty dims →
    (∀ is b a, InBounds dims is → Finds T answers array is b a → ∀ t < ty.size classes,
      ∃ u < storage classes (declarator ty dims), a + BitVec.ofNat 64 t = b + BitVec.ofNat 64 u) ∧
    ∀ is js b a a', InBounds dims is → InBounds dims js → is ≠ js →
      Finds T answers array is b a → Finds T answers array js b a' →
      ∀ t < ty.size classes, ∀ t' < ty.size classes,
        a + BitVec.ofNat 64 t ≠ a' + BitVec.ofNat 64 t'

/-! ## The type of a declarator -/

/-- The array of arrays with the lengths from the outermost inwards. -/
def nested (ty : Ty) : List Nat → Ty
  | [] => ty
  | len :: lens => .array (nested ty lens) len

theorem nested_append (ty : Ty) (len : Nat) (lens : List Nat) :
    nested ty (lens ++ [len]) = nested (arrayOf ty len) lens := by
  induction lens with
  | nil => rfl
  | cons outer lens ih => rw [List.cons_append, nested, nested, ih]

theorem declarator_eq (dims : List Nat) : ∀ ty, declarator ty dims = nested ty dims.reverse := by
  induction dims with
  | nil => exact fun _ => rfl
  | cons len dims ih =>
    intro ty
    rw [declarator, ih, List.reverse_cons, nested_append]

theorem sizeField_eq (classes : ClassSizes) :
    ∀ ty, sizeField classes ty = BitVec.ofNat 32 (ty.size classes)
  | .array base len => by rw [sizeField, sizeField_eq classes base, Ty.size, BitVec.ofNat_mul]
  | .void | .int .. | .f64 | .ptr _ | .cls _ | .func .. => rfl

theorem nested_size (classes : ClassSizes) (ty : Ty) (lens : List Nat) :
    (nested ty lens).size classes = ty.size classes * lens.prod := by
  induction lens with
  | nil => exact (Nat.mul_one _).symm
  | cons len lens ih =>
    rw [nested, Ty.size, ih, List.prod_cons, Nat.mul_assoc, Nat.mul_comm lens.prod]

/-! ## What a subscript adds -/

section

variable {T : Target W} {answers : Answers W} {classes : ClassSizes}

variable {idx : Expr}

theorem sum_eq {n : Expr} {base : Ty} {len : Nat} (ty : n.ty = .array base len)
    (isInt : isInteger idx.ty = true) :
    newBinary .add n idx = .bin .add (.ptr base) (.addr (.ptr base) n) idx := by
  have decayed : rvalize n = .addr (.ptr base) n := by
    unfold rvalize
    rw [ty]
  have value : rvalize idx = idx := by
    apply rvalize_scalar
    cases isIdx : idx.ty with
    | array base len =>
      rw [isIdx] at isInt
      cases isInt
    | _ => rfl
  show additive .add (rvalize n) (rvalize idx) = _
  rw [decayed, value]
  cases isIdx : idx.ty with
  | int size isUnsigned =>
    have kept : toInt idx = idx := by
      rw [toInt, isIdx]
      rfl
    rw [additive, kept, isIdx]
    rfl
  | _ =>
    rw [isIdx] at isInt
    cases isInt

variable (answers) in
/-- An element is found at the address of the array and the scaled index. -/
theorem element_run (scaled : Scaled T classes) (n : Expr) (base : Ty)
    (isInt : isInteger idx.ty = true) (w : W) :
    runAddr T answers (.deref base (.bin .add (.ptr base) (.addr (.ptr base) n) idx)) w =
      if T.leftFirst (.bin .add (.ptr base) (.addr (.ptr base) n) idx) then
        (runAddr T answers n w).bind fun b => (run T answers idx b.2).map fun i =>
          (b.1 + i.1 * (elemSize classes base).signExtend 64, i.2)
      else
        (run T answers idx w).bind fun i => (runAddr T answers n i.2).map fun b =>
          (b.1 + i.1 * (elemSize classes base).signExtend 64, b.2) := by
  have strict : BinKind.add ≠ .comma ∧ BinKind.add ≠ .logand ∧ BinKind.add ≠ .logor := by decide
  have sum (x y : Word) : T.bin .add (.ptr base) (Expr.addr (.ptr base) n).ty idx.ty x y =
      some (x + y * (elemSize classes base).signExtend 64) := scaled base idx.ty x y isInt
  show run T answers (.bin .add (.ptr base) (.addr (.ptr base) n) idx) w = _
  rw [run_bin T answers .add strict]
  simp only [sum, Option.map_eq_bind, Function.comp_def]
  rfl

variable (answers) in
theorem subscript_run (scaled : Scaled T classes) {n : Expr} {base : Ty} {len : Nat}
    (ty : n.ty = .array base len) (isInt : isInteger idx.ty = true) :
    ∃ e, subscript n idx = some e ∧ e.ty = base ∧ ∀ w, runAddr T answers e w =
      if T.leftFirst (newBinary .add n idx) then
        (runAddr T answers n w).bind fun b => (run T answers idx b.2).map fun i =>
          (b.1 + i.1 * (elemSize classes base).signExtend 64, i.2)
      else
        (run T answers idx w).bind fun i => (runAddr T answers n i.2).map fun b =>
          (b.1 + i.1 * (elemSize classes base).signExtend 64, b.2) := by
  refine ⟨.deref base (.bin .add (.ptr base) (.addr (.ptr base) n) idx), ?_, rfl, ?_⟩
  · rw [subscript, sum_eq ty isInt]
    rfl
  · rw [sum_eq ty isInt]
    exact element_run answers scaled n base isInt

def displacement (classes : ClassSizes) : Ty → List Word → Word
  | .array base _, i :: is =>
      i * (elemSize classes base).signExtend 64 + displacement classes base is
  | _, _ => 0

theorem displacement_nil (classes : ClassSizes) (ty : Ty) : displacement classes ty [] = 0 := by
  unfold displacement
  split
  next same => cases same
  next => rfl

/-- One subscript more adds its stride. -/
theorem displacement_snoc (classes : ClassSizes) (ty : Ty) (lens : List Nat) (len : Nat) (i : Word)
    {outer : List Nat} {is : List Word} (all : is.length = outer.length) :
    displacement classes (nested ty (outer ++ len :: lens)) (is ++ [i]) =
      displacement classes (nested ty (outer ++ len :: lens)) is +
        i * (elemSize classes (nested ty lens)).signExtend 64 := by
  induction outer generalizing is with
  | nil =>
    rw [List.length_eq_zero_iff.mp all, displacement_nil, zero_add]
    show i * _ + displacement classes (nested ty lens) [] = _
    rw [displacement_nil]
    exact BitVec.add_zero _
  | cons first outer ih =>
    cases is with
    | nil => cases all
    | cons j is =>
      show j * _ + displacement classes (nested ty (outer ++ len :: lens)) (is ++ [i]) =
        j * _ + displacement classes (nested ty (outer ++ len :: lens)) is + _
      rw [ih (Nat.succ.inj all), BitVec.add_assoc]

theorem subscripted_depth {n : Expr} {depth : Nat}
    {reached : W → Option ((Word × List Word) × W)}
    (isDepth : ∀ w, ∀ b ∈ reached w, b.1.2.length = depth) (w : W) :
    ∀ b ∈ subscripted T answers n idx reached w, b.1.2.length = depth + 1 := by
  intro c isC
  unfold subscripted at isC
  split at isC
  · obtain ⟨b, found, isRest⟩ := Option.bind_eq_some_iff.mp isC
    obtain ⟨i, _, rfl⟩ := Option.map_eq_some_iff.mp isRest
    rw [List.length_append, isDepth w b found]
    rfl
  · obtain ⟨i, _, isRest⟩ := Option.bind_eq_some_iff.mp isC
    obtain ⟨b, found, rfl⟩ := Option.map_eq_some_iff.mp isRest
    rw [List.length_append, isDepth i.2 b found]
    rfl

variable (T answers classes) in
/-- The subscripts so far are there, and the node is where they lead to. -/
structure Reaches (n : Expr) (whole : Ty) (depth : Nat)
    (reached : W → Option ((Word × List Word) × W)) : Prop where
  depth : ∀ w, ∀ b ∈ reached w, b.1.2.length = depth
  runs : ∀ w, runAddr T answers n w = (reached w).map fun b =>
    (b.1.1 + displacement classes whole b.1.2, b.2)

variable (answers) in
theorem Reaches.subscripted (scaled : Scaled T classes) {n inner : Expr} {ty : Ty}
    {outer lens : List Nat} {len : Nat} {reached : W → Option ((Word × List Word) × W)}
    (reaches : Reaches T answers classes n (nested ty (outer ++ len :: lens)) outer.length reached)
    (isArray : n.ty = nested ty (len :: lens)) (isInt : isInteger idx.ty = true)
    (isInner : subscript n idx = some inner) :
    inner.ty = nested ty lens ∧
      Reaches T answers classes inner (nested ty (outer ++ len :: lens)) (outer.length + 1)
        (subscripted T answers n idx reached) := by
  obtain ⟨e, isE, innerTy, runs⟩ := subscript_run answers scaled isArray isInt
  rw [isInner] at isE
  cases isE
  have one (w : W) (b : (Word × List Word) × W) (found : b ∈ reached w) (i : Word) :
      b.1.1 + displacement classes (nested ty (outer ++ len :: lens)) (b.1.2 ++ [i]) =
        b.1.1 + displacement classes (nested ty (outer ++ len :: lens)) b.1.2 +
          i * (elemSize classes (nested ty lens)).signExtend 64 := by
    rw [displacement_snoc classes ty lens len i (reaches.depth w b found), BitVec.add_assoc]
  refine ⟨innerTy, subscripted_depth reaches.depth, ?_⟩
  · intro w
    rw [runs]
    unfold Parse.subscripted
    split
    · rw [reaches.runs, Option.bind_map, Option.map_bind]
      apply Option.bind_congr
      intro b found
      rw [Function.comp_apply, Function.comp_apply, Option.map_map]
      congr 1
      funext i
      rw [Function.comp_apply, one w b found]
    · rw [Option.map_bind]
      congr 1
      funext i
      rw [Function.comp_apply, reaches.runs, Option.map_map, Option.map_map]
      apply Option.map_congr
      intro b found
      rw [Function.comp_apply, Function.comp_apply, one i.2 b found]

variable (answers) in
/-- The element that subscripts find is at the displacement of their values. -/
theorem subscripts_run (scaled : Scaled T classes) (ty : Ty) (lens : List Nat) :
    ∀ (outer : List Nat) (n : Expr) (idxs : List Expr)
      (reached : W → Option ((Word × List Word) × W)), n.ty = nested ty lens →
      idxs.length = lens.length → (∀ idx ∈ idxs, isInteger idx.ty = true) →
      Reaches T answers classes n (nested ty (outer ++ lens)) outer.length reached →
      ∃ e, subscripts n idxs = some e ∧ Reaches T answers classes e (nested ty (outer ++ lens))
        (outer.length + idxs.length) (parts T answers reached n idxs) := by
  induction lens with
  | nil =>
    intro outer n idxs reached _ all _ reaches
    have none' := List.length_eq_zero_iff.mp all
    subst none'
    exact ⟨n, rfl, reaches⟩
  | cons len lens ih =>
    intro outer n idxs reached isArray all ints reaches
    cases idxs with
    | nil => cases all
    | cons idx idxs =>
      have isInt := ints idx List.mem_cons_self
      obtain ⟨inner, isInner, _⟩ := subscript_run answers scaled isArray isInt
      obtain ⟨innerTy, innerReaches⟩ := reaches.subscripted answers scaled isArray isInt isInner
      have shifted : outer ++ len :: lens = (outer ++ [len]) ++ lens := by simp
      have longer : (outer ++ [len]).length = outer.length + 1 := by simp
      rw [shifted, ← longer] at innerReaches
      obtain ⟨e, isE, reachesE⟩ := ih (outer ++ [len]) inner idxs _ innerTy (Nat.succ.inj all)
        (fun idx' inRest => ints idx' (List.mem_cons_of_mem idx inRest)) innerReaches
      refine ⟨e, by rw [subscripts, isInner]; exact isE, ?_⟩
      have isParts : parts T answers reached n (idx :: idxs) =
          parts T answers (subscripted T answers n idx reached) inner idxs := by
        funext w
        rw [parts, isInner]
      have depth : outer.length + (idx :: idxs).length =
          (outer ++ [len]).length + idxs.length := by
        rw [longer, List.length_cons]
        omega
      rw [shifted, isParts, depth]
      exact reachesE

variable (T answers classes) in
theorem located_reaches (array : Expr) (whole : Ty) :
    Reaches T answers classes array whole 0 (located T answers array) := by
  constructor
  · intro w b found
    obtain ⟨a, _, rfl⟩ := Option.map_eq_some_iff.mp found
    rfl
  · intro w
    have same (a : Word × W) : (a.1 + displacement classes whole [], a.2) = a := by
      rw [displacement_nil]
      exact congrArg (fun x => (x, a.2)) (BitVec.add_zero a.1)
    unfold located
    rw [Option.map_map]
    simp only [Function.comp_def, same, Option.map_id']

end

/-! ## Axes -/

/-- The axes of the subscripts, in elements: `lens` are the lengths of the arrays from the
outermost inwards, and a subscript takes the stride of what is left of them. -/
def axes : List Nat → List Nat → List Axis
  | len :: dims, _ :: lens => { len := len, stride := lens.prod } :: axes dims lens
  | _, _ => []

variable {is : List Nat}

theorem axes_inside : ∀ {dims lens : List Nat}, dims.length = lens.length →
    (Axis.Inside (axes dims lens) is ↔ InBounds dims is) := by
  intro dims
  induction dims generalizing is with
  | nil =>
    intro lens same
    constructor
    · intro inside
      cases inside
      exact .nil
    · intro inside
      cases inside
      exact .nil
  | cons len dims ih =>
    intro lens same
    cases lens with
    | nil => cases same
    | cons outer lens =>
      constructor
      · intro inside
        cases inside with
        | cons bound inside => exact .cons bound ((ih (Nat.succ.inj same)).mp inside)
      · intro inside
        cases inside with
        | cons bound inside => exact .cons bound ((ih (Nat.succ.inj same)).mpr inside)

theorem axes_volume (dims : List Nat) : ∀ lens : List Nat, dims.length = lens.length →
    Axis.volume (axes dims lens) = dims.prod := by
  induction dims with
  | nil => exact fun _ _ => rfl
  | cons len dims ih =>
    intro lens same
    cases lens with
    | nil => cases same
    | cons outer lens => rw [axes, Axis.volume, ih lens (Nat.succ.inj same), List.prod_cons]

theorem axes_positive (dims : List Nat) : ∀ lens : List Nat, (∀ n ∈ dims, 0 < n) →
    ∀ axis ∈ axes dims lens, 0 < axis.len := by
  induction dims with
  | nil =>
    intro lens _ axis inAxes
    cases inAxes
  | cons len dims ih =>
    intro lens positive axis inAxes
    cases lens with
    | nil => cases inAxes
    | cons outer lens =>
      cases inAxes with
      | head => exact positive len List.mem_cons_self
      | tail _ inRest =>
        exact ih lens (fun n inDims => positive n (List.mem_cons_of_mem len inDims)) axis inRest

theorem axes_stride_le (dims : List Nat) : ∀ lens : List Nat, (∀ n ∈ lens, 0 < n) →
    ∀ axis ∈ axes dims lens, axis.stride ≤ lens.prod := by
  induction dims with
  | nil =>
    intro lens _ axis inAxes
    cases inAxes
  | cons len dims ih =>
    intro lens positive axis inAxes
    cases lens with
    | nil => cases inAxes
    | cons outer lens =>
      have here : 1 * lens.prod ≤ outer * lens.prod :=
        Nat.mul_le_mul_right _ (positive outer List.mem_cons_self)
      rw [Nat.one_mul] at here
      rw [List.prod_cons]
      cases inAxes with
      | head => exact here
      | tail _ inRest =>
        exact (ih lens (fun n inLens => positive n (List.mem_cons_of_mem outer inLens)) axis
          inRest).trans here

theorem axes_descending (dims : List Nat) : ∀ lens : List Nat, (∀ n ∈ lens, 0 < n) →
    Axis.Descending (axes dims lens) := by
  induction dims with
  | nil => exact fun _ _ => .nil
  | cons len dims ih =>
    intro lens positive
    cases lens with
    | nil => exact .nil
    | cons outer lens =>
      have rest : ∀ n ∈ lens, 0 < n := fun n inLens =>
        positive n (List.mem_cons_of_mem outer inLens)
      exact .cons (axes_stride_le dims lens rest) (ih lens rest)

/-- The lengths before the subscripts that are left and those behind them agree. -/
theorem axes_packed (dims : List Nat) : ∀ lens : List Nat, dims.length = lens.length →
    (Axis.Packed (axes dims lens) ↔ ∀ j (inside : j < dims.length),
      dims[j] = 1 ∨ (lens.drop (j + 1)).prod = (dims.drop (j + 1)).prod) := by
  induction dims with
  | nil =>
    intro lens _
    constructor
    · intro _ j inside
      cases inside
    · intro _
      trivial
  | cons len dims ih =>
    intro lens same
    cases lens with
    | nil => cases same
    | cons outer lens =>
      rw [axes, Axis.Packed, ih lens (Nat.succ.inj same), axes_volume dims lens (Nat.succ.inj same)]
      constructor
      · intro packed j inside
        cases j with
        | zero => exact packed.1
        | succ j => exact packed.2 j (Nat.lt_of_succ_lt_succ inside)
      · intro all
        constructor
        · exact all 0 (Nat.succ_pos _)
        · intro j inside
          exact all (j + 1) (Nat.succ_lt_succ inside)

/-- A size that is a positive `int` comes out of `elem_size` as it is. -/
theorem elemSize_eq (classes : ClassSizes) {ty : Ty} (positive : 0 < ty.size classes)
    (isInt : ty.size classes < 2 ^ 31) :
    (elemSize classes ty).signExtend 64 = BitVec.ofNat 64 (ty.size classes) := by
  have nonzero : BitVec.ofNat 32 (ty.size classes) ≠ 0 := by
    intro zero
    have value := congrArg BitVec.toNat zero
    rw [BitVec.toNat_ofNat, Nat.mod_eq_of_lt (by omega)] at value
    have none' : (0 : BitVec 32).toNat = 0 := rfl
    omega
  have notNegative : (BitVec.ofNat 32 (ty.size classes)).msb = false := by
    rw [BitVec.msb_eq_false_iff_two_mul_lt, BitVec.toNat_ofNat, Nat.mod_eq_of_lt (by omega)]
    omega
  rw [elemSize, sizeField_eq, if_neg nonzero,
    BitVec.signExtend_eq_setWidth_of_msb_false notNegative]
  apply BitVec.eq_of_toNat_eq
  have narrow := Nat.mod_eq_of_lt (show ty.size classes < 2 ^ 32 by omega)
  have wide := Nat.mod_eq_of_lt (show ty.size classes < 2 ^ 64 by omega)
  rw [BitVec.toNat_setWidth, BitVec.toNat_ofNat, BitVec.toNat_ofNat, narrow, wide]

theorem displacement_eq (classes : ClassSizes) {ty : Ty} (positiveSize : 0 < ty.size classes)
    (lens : List Nat) : ∀ (dims is : List Nat), dims.length = lens.length →
      is.length = lens.length → (∀ n ∈ lens, 0 < n) → ty.size classes * lens.prod < 2 ^ 31 →
      displacement classes (nested ty lens) (is.map (BitVec.ofNat 64)) =
        BitVec.ofNat 64 (ty.size classes * Axis.position (axes dims lens) is) := by
  induction lens with
  | nil =>
    intro dims is _ all _ _
    have none' := List.length_eq_zero_iff.mp all
    subst none'
    have start : Axis.position (axes dims []) [] = 0 := by
      unfold Axis.position
      split
      next same => cases same
      next => rfl
    rw [start, Nat.mul_zero]
    exact displacement_nil classes ty
  | cons outer lens ih =>
    intro dims is sameDims all positive small
    cases dims with
    | nil => cases sameDims
    | cons len dims =>
      cases is with
      | nil => cases all
      | cons i is =>
        have rest : ∀ n ∈ lens, 0 < n := fun n inLens =>
          positive n (List.mem_cons_of_mem outer inLens)
        have shrinks : ty.size classes * lens.prod ≤ ty.size classes * (outer * lens.prod) := by
          apply Nat.mul_le_mul_left
          have here := Nat.mul_le_mul_right lens.prod (positive outer List.mem_cons_self)
          omega
        rw [List.prod_cons] at small
        have positiveElem : 0 < (nested ty lens).size classes := by
          rw [nested_size]
          exact Nat.mul_pos positiveSize (List.prod_pos rest)
        have smallElem : (nested ty lens).size classes < 2 ^ 31 := by
          rw [nested_size]
          omega
        have elem := elemSize_eq classes positiveElem smallElem
        rw [nested, List.map_cons, displacement, elem, nested_size,
          ih dims is (Nat.succ.inj sameDims) (Nat.succ.inj all) rest (by omega), axes,
          Axis.position, ← BitVec.ofNat_mul, ← BitVec.ofNat_add, Nat.mul_add]
        congr 2
        rw [Nat.mul_left_comm]

/-! ## A target to look at -/

namespace Located

open Eval.Plain

def target (classes : ClassSizes) : Target Plain :=
  { Plain.target with
    bin := fun kind ty l r x y =>
      match ty with
      | .ptr base => some (x + y * (elemSize classes base).signExtend 64)
      | _ => Plain.target.bin kind ty l r x y }

theorem target_scaled (classes : ClassSizes) : Scaled (target classes) classes :=
  fun _ _ _ _ _ => rfl

def answers : Answers Plain := fun _ _ _ => none

def array (ty : Ty) : Expr := .var { uid := 0, name := "a", ty := ty }

def constants (is : List Nat) : List Expr := is.map fun i => .num (BitVec.ofNat 64 i)

theorem constants_parts (classes : ClassSizes) (is : List Nat) :
    ∀ (n : Expr) (reached : Plain → Option ((Word × List Word) × Plain)) (b : Word)
      (before : List Word) (w : Plain), subscripts n (constants is) ≠ none →
      reached w = some ((b, before), w) →
      parts (target classes) answers reached n (constants is) w =
        some ((b, before ++ is.map (BitVec.ofNat 64)), w) := by
  induction is with
  | nil =>
    intro n reached b before w _ isReached
    rw [List.map_nil, List.append_nil]
    exact isReached
  | cons i is ih =>
    intro n reached b before w found isReached
    have isConstants : constants (i :: is) = .num (BitVec.ofNat 64 i) :: constants is := rfl
    rw [isConstants, subscripts] at found
    rw [isConstants, parts]
    cases isInner : subscript n (.num (BitVec.ofNat 64 i)) with
    | none =>
      rw [isInner] at found
      exact absurd rfl found
    | some inner =>
      rw [isInner] at found
      have isNext : subscripted (target classes) answers n (.num (BitVec.ofNat 64 i)) reached w =
          some ((b, before ++ [BitVec.ofNat 64 i]), w) := by
        have here : run (target classes) answers (.num (BitVec.ofNat 64 i)) w =
            some (BitVec.ofNat 64 i, w) := rfl
        unfold subscripted
        split
        · rw [isReached, Option.bind_some, here]
          rfl
        · rw [here, Option.bind_some, isReached]
          rfl
      have later := ih inner _ b _ w found isNext
      rw [List.append_assoc] at later
      exact later

theorem finds (classes : ClassSizes) (ty : Ty) (dims is : List Nat)
    (all : is.length = dims.length) :
    Finds (target classes) answers (array (declarator ty dims)) is 0
      (displacement classes (declarator ty dims) (is.map (BitVec.ofNat 64))) := by
  have isArray : (array (declarator ty dims)).ty = nested ty dims.reverse := declarator_eq dims ty
  have ints : ∀ idx ∈ constants is, isInteger idx.ty = true := by
    intro idx inConstants
    obtain ⟨i, _, rfl⟩ := List.mem_map.mp inConstants
    rfl
  have lengths : (constants is).length = dims.reverse.length := by
    rw [constants, List.length_map, List.length_reverse, all]
  obtain ⟨e, isE, reaches⟩ := subscripts_run answers (target_scaled classes) ty dims.reverse []
    (array (declarator ty dims)) (constants is) _ isArray lengths ints
    (located_reaches (target classes) answers classes _ _)
  have start : located (target classes) answers (array (declarator ty dims)) {} =
      some ((0, []), {}) := rfl
  have found : subscripts (array (declarator ty dims)) (constants is) ≠ none := by
    rw [isE]
    exact Option.some_ne_none e
  have isParts := constants_parts classes is _ _ 0 [] {} found start
  have there := reaches.runs {}
  rw [isParts, List.nil_append, List.nil_append, Option.map_some, ← declarator_eq] at there
  refine ⟨constants is, e, {}, {}, {}, ints, isE, isParts, there.trans ?_⟩
  show some (0#64 + displacement classes (declarator ty dims) (is.map (BitVec.ofNat 64)), _) = _
  rw [BitVec.zero_add]

end Located

/-! ## When the elements are apart -/

section

variable {classes : ClassSizes} {ty : Ty} {dims : List Nat}

theorem parts_length {T : Target W} {answers : Answers W} (idxs : List Expr) :
    ∀ (n : Expr) (depth : Nat) (reached : W → Option ((Word × List Word) × W)),
      (∀ w, ∀ b ∈ reached w, b.1.2.length = depth) →
      ∀ w, ∀ b ∈ parts T answers reached n idxs w, b.1.2.length = depth + idxs.length := by
  induction idxs with
  | nil => exact fun _ _ _ isDepth => isDepth
  | cons idx idxs ih =>
    intro n depth reached isDepth w b isB
    rw [parts] at isB
    cases isInner : subscript n idx with
    | none =>
      rw [isInner] at isB
      cases isB
    | some inner =>
      rw [isInner] at isB
      rw [ih inner (depth + 1) _ (subscripted_depth isDepth) w b isB, List.length_cons]
      omega

theorem finds_displacement {T : Target W} {answers : Answers W} {array : Expr}
    (scaled : Scaled T classes) (isArray : array.ty = declarator ty dims)
    (all : is.length = dims.length) {b a : Word} (finds : Finds T answers array is b a) :
    a = b + displacement classes (declarator ty dims) (is.map (BitVec.ofNat 64)) := by
  obtain ⟨idxs, e, w, evaluated, there, ints, isE, values, reached⟩ := finds
  have starts := located_reaches T answers classes array (nested ty dims.reverse)
  have lengths : idxs.length = dims.reverse.length := by
    have same := parts_length idxs array 0 _ starts.depth w _ values
    rw [List.length_map] at same
    rw [List.length_reverse]
    omega
  rw [declarator_eq] at isArray ⊢
  obtain ⟨e', isE', reaches⟩ := subscripts_run answers scaled ty dims.reverse [] array idxs _
    isArray lengths ints starts
  rw [isE] at isE'
  cases isE'
  have ends := reaches.runs w
  rw [reached, values, Option.map_some] at ends
  exact congrArg Prod.fst (Option.some.inj ends)

theorem declarator_size (classes : ClassSizes) (ty : Ty) (dims : List Nat) :
    (declarator ty dims).size classes = ty.size classes * dims.prod := by
  rw [declarator_eq, nested_size, List.prod_reverse]

/-- The reserved bytes are not more than the `int`s allow. -/
theorem storage_lt (classes : ClassSizes) (ty : Ty) : storage classes ty ≤ 2 ^ 31 - 1 := by
  have bound := BitVec.toInt_lt (x := sizeField classes ty)
  unfold storage
  omega

theorem storage_eq {ty : Ty} (isInt : ty.size classes < 2 ^ 31) :
    storage classes ty = ty.size classes := by
  rw [storage, sizeField_eq, BitVec.toInt_eq_toNat_of_lt, BitVec.toNat_ofNat,
    Nat.mod_eq_of_lt (by omega), Int.toNat_natCast]
  rw [BitVec.toNat_ofNat, Nat.mod_eq_of_lt (by omega)]
  omega

/-- The elements of an array that fits are at the positions of their tuples. -/
theorem displacement_position (positiveSize : 0 < ty.size classes) (positive : ∀ n ∈ dims, 0 < n)
    (small : dims.prod * ty.size classes < 2 ^ 31) (all : is.length = dims.length) :
    displacement classes (declarator ty dims) (is.map (BitVec.ofNat 64)) =
      BitVec.ofNat 64 (ty.size classes * Axis.position (axes dims dims.reverse) is) := by
  rw [declarator_eq]
  apply displacement_eq classes positiveSize
  · exact List.length_reverse.symm
  · rw [List.length_reverse, all]
  · exact fun n inDims => positive n (List.mem_reverse.mp inDims)
  · rw [List.prod_reverse, Nat.mul_comm]
    exact small

theorem inBounds_length (inside : InBounds dims is) : is.length = dims.length :=
  (List.Forall₂.length_eq inside).symm

theorem ofNat_inj {m n : Nat} (left : m < 2 ^ 64) (right : n < 2 ^ 64)
    (same : BitVec.ofNat 64 m = BitVec.ofNat 64 n) : m = n := by
  have values := congrArg BitVec.toNat same
  rw [BitVec.toNat_ofNat, BitVec.toNat_ofNat, Nat.mod_eq_of_lt left,
    Nat.mod_eq_of_lt right] at values
  exact values

/-- What the property says of an array that lies at zero. -/
structure Apart (classes : ClassSizes) (ty : Ty) (dims : List Nat) : Prop where
  inside : ∀ is, InBounds dims is → ∀ t < ty.size classes,
    ∃ u < storage classes (declarator ty dims),
      displacement classes (declarator ty dims) (is.map (BitVec.ofNat 64)) + BitVec.ofNat 64 t =
        BitVec.ofNat 64 u
  distinct : ∀ is js, InBounds dims is → InBounds dims js → is ≠ js →
    ∀ t < ty.size classes, ∀ t' < ty.size classes,
      displacement classes (declarator ty dims) (is.map (BitVec.ofNat 64)) + BitVec.ofNat 64 t ≠
        displacement classes (declarator ty dims) (js.map (BitVec.ofNat 64)) + BitVec.ofNat 64 t'

theorem ElementsApart.apart (apart : ElementsApart classes ty dims) : Apart classes ty dims := by
  obtain ⟨inside, distinct⟩ := apart Plain (Located.target classes) Located.answers
    (Located.array (declarator ty dims)) (Located.target_scaled classes) rfl
  have finds {is : List Nat} (inBounds : InBounds dims is) :=
    Located.finds classes ty dims is (inBounds_length inBounds)
  constructor
  · intro is inBounds t bound
    obtain ⟨u, reserved, same⟩ := inside is 0 _ inBounds (finds inBounds) t bound
    exact ⟨u, reserved, same.trans (BitVec.zero_add _)⟩
  · intro is js left right other
    exact distinct is js 0 _ _ left right other (finds left) (finds right)

theorem apart_elements (apart : Apart classes ty dims) : ElementsApart classes ty dims := by
  intro W T answers array scaled isArray
  constructor
  · intro is b a inBounds finds t bound
    obtain ⟨u, reserved, same⟩ := apart.inside is inBounds t bound
    refine ⟨u, reserved, ?_⟩
    rw [finds_displacement scaled isArray (inBounds_length inBounds) finds, BitVec.add_assoc, same]
  · intro is js b a a' left right other findsI findsJ t bound t' bound' same
    rw [finds_displacement scaled isArray (inBounds_length left) findsI,
      finds_displacement scaled isArray (inBounds_length right) findsJ, BitVec.add_assoc,
      BitVec.add_assoc] at same
    exact apart.distinct is js left right other t bound t' bound' (add_left_cancel same)

/-- Elements that are apart take their bytes out of the reserved ones. -/
theorem Apart.volume (apart : Apart classes ty dims) (isInt : ty.size classes < 2 ^ 31) :
    dims.prod * ty.size classes ≤ storage classes (declarator ty dims) := by
  have bytes : ∀ is t, ∃ u, InBounds dims is → t < ty.size classes →
      u < storage classes (declarator ty dims) ∧
        displacement classes (declarator ty dims) (is.map (BitVec.ofNat 64)) + BitVec.ofNat 64 t =
          BitVec.ofNat 64 u := by
    intro is t
    by_cases inside : InBounds dims is ∧ t < ty.size classes
    · obtain ⟨u, reserved, same⟩ := apart.inside is inside.1 t inside.2
      exact ⟨u, fun _ _ => ⟨reserved, same⟩⟩
    · exact ⟨0, fun inBounds bound => absurd ⟨inBounds, bound⟩ inside⟩
  choose byte isByte using bytes
  have lengths : dims.length = dims.reverse.length := List.length_reverse.symm
  rw [← axes_volume dims dims.reverse lengths]
  apply Axis.volume_le byte
  · intro is inside t bound
    exact (isByte is t ((axes_inside lengths).mp inside) bound).1
  intro is js left right t bound t' bound' same
  have left := (axes_inside lengths).mp left
  have right := (axes_inside lengths).mp right
  have first := (isByte is t left bound).2
  have second := (isByte js t' right bound').2
  rw [same, ← second] at first
  by_cases other : is = js
  · subst other
    exact ⟨rfl, ofNat_inj (by omega) (by omega) (add_left_cancel first)⟩
  · exact absurd first (apart.distinct is js left right other t bound t' bound')

theorem Apart.fits (apart : Apart classes ty dims) (positiveSize : 0 < ty.size classes)
    (positive : ∀ n ∈ dims, 0 < n)
    (small : dims.prod * ty.size classes < 2 ^ 31) : Axis.Fits (axes dims dims.reverse) := by
  have lengths : dims.length = dims.reverse.length := List.length_reverse.symm
  have reserved : storage classes (declarator ty dims) = ty.size classes * dims.prod := by
    rw [storage_eq, declarator_size]
    rw [declarator_size, Nat.mul_comm]
    exact small
  have bounded {is : List Nat} (inside : Axis.Inside (axes dims dims.reverse) is) :
      ty.size classes * Axis.position (axes dims dims.reverse) is < 2 ^ 64 := by
    have strides := axes_stride_le dims dims.reverse
      (fun n inDims => positive n (List.mem_reverse.mp inDims))
    rw [List.prod_reverse] at strides
    have most := Axis.position_le strides inside
    rw [axes_volume dims dims.reverse lengths] at most
    have elements : dims.prod * 1 ≤ dims.prod * ty.size classes :=
      Nat.mul_le_mul_left _ positiveSize
    calc ty.size classes * Axis.position (axes dims dims.reverse) is
        ≤ ty.size classes * ((dims.prod - 1) * dims.prod) := Nat.mul_le_mul_left _ most
      _ ≤ ty.size classes * (dims.prod * dims.prod) :=
          Nat.mul_le_mul_left _ (Nat.mul_le_mul_right _ (Nat.sub_le _ 1))
      _ = dims.prod * ty.size classes * dims.prod := by rw [← Nat.mul_assoc, Nat.mul_comm dims.prod]
      _ < 2 ^ 31 * 2 ^ 31 := Nat.mul_lt_mul_of_lt_of_lt small (by omega)
      _ < 2 ^ 64 := by decide
  constructor
  · intro is inside
    have inBounds := (axes_inside lengths).mp inside
    obtain ⟨u, bound, same⟩ := apart.inside is inBounds 0 positiveSize
    rw [displacement_position positiveSize positive small (inBounds_length inBounds)] at same
    rw [reserved, Nat.mul_comm] at bound
    have same := ofNat_inj (bounded inside) (by omega) ((BitVec.add_zero _).symm.trans same)
    rw [axes_volume dims dims.reverse lengths]
    rw [← same, Nat.mul_comm] at bound
    exact Nat.lt_of_mul_lt_mul_right bound
  · intro is js left right same
    by_contra other
    have inBoundsI := (axes_inside lengths).mp left
    have inBoundsJ := (axes_inside lengths).mp right
    apply apart.distinct is js inBoundsI inBoundsJ other 0 positiveSize 0 positiveSize
    rw [displacement_position positiveSize positive small (inBounds_length inBoundsI),
      displacement_position positiveSize positive small (inBounds_length inBoundsJ), same]

theorem packed_apart (packed : Axis.Packed (axes dims dims.reverse))
    (positiveSize : 0 < ty.size classes) (positive : ∀ n ∈ dims, 0 < n)
    (small : dims.prod * ty.size classes < 2 ^ 31) : Apart classes ty dims := by
  have lengths : dims.length = dims.reverse.length := List.length_reverse.symm
  have byte {is : List Nat} (inBounds : InBounds dims is) {t : Nat} (bound : t < ty.size classes) :
      ty.size classes * Axis.position (axes dims dims.reverse) is + t <
        ty.size classes * dims.prod := by
    have below := packed.position_lt is ((axes_inside lengths).mpr inBounds)
    rw [axes_volume dims dims.reverse lengths] at below
    have next := Nat.mul_le_mul_left (ty.size classes) (Nat.succ_le_of_lt below)
    rw [Nat.mul_succ] at next
    omega
  have whole : ty.size classes * dims.prod < 2 ^ 31 := by
    rw [Nat.mul_comm]
    exact small
  constructor
  · intro is inBounds t bound
    refine ⟨ty.size classes * Axis.position (axes dims dims.reverse) is + t, ?_, ?_⟩
    · rw [storage_eq, declarator_size]
      · exact byte inBounds bound
      · rw [declarator_size]
        exact whole
    · rw [displacement_position positiveSize positive small (inBounds_length inBounds),
        BitVec.ofNat_add]
  · intro is js left right other t bound t' bound' same
    rw [displacement_position positiveSize positive small (inBounds_length left),
      displacement_position positiveSize positive small (inBounds_length right),
      ← BitVec.ofNat_add, ← BitVec.ofNat_add] at same
    have firstByte := byte left bound
    have secondByte := byte right bound'
    have bytes := ofNat_inj (by omega) (by omega) same
    have positions : Axis.position (axes dims dims.reverse) is =
        Axis.position (axes dims dims.reverse) js := by
      have quotients := congrArg (· / ty.size classes) bytes
      simp only [Nat.mul_add_div positiveSize, Nat.div_eq_of_lt bound, Nat.div_eq_of_lt bound',
        Nat.add_zero] at quotients
      exact quotients
    exact other (packed.apart is js ((axes_inside lengths).mpr left)
      ((axes_inside lengths).mpr right) positions)

/-- The lengths behind a subscript and those that its array was wrapped in first. -/
theorem packed_iff (dims : List Nat) : Axis.Packed (axes dims dims.reverse) ↔
    ∀ j (inside : j < dims.length), dims[j] = 1 ∨
      (dims.take (dims.length - 1 - j)).prod = (dims.drop (j + 1)).prod := by
  have same (j : Nat) : (dims.reverse.drop (j + 1)).prod =
      (dims.take (dims.length - 1 - j)).prod := by
    have left : dims.length - (j + 1) = dims.length - 1 - j := by omega
    rw [List.drop_reverse, List.prod_reverse, left]
  rw [axes_packed dims dims.reverse List.length_reverse.symm]
  simp only [same]

/-- An array with elements that are apart is empty or fits an `int` and is packed. -/
theorem Apart.packed (apart : Apart classes ty dims) (isInt : ty.size classes < 2 ^ 31)
    (positive : ∀ n ∈ dims, 0 < n) :
    ty.size classes = 0 ∨ dims.prod * ty.size classes < 2 ^ 31 ∧
      Axis.Packed (axes dims dims.reverse) := by
  rcases Nat.eq_zero_or_pos (ty.size classes) with empty | positiveSize
  · exact Or.inl empty
  have taken := apart.volume isInt
  have reserved := storage_lt classes (declarator ty dims)
  have small : dims.prod * ty.size classes < 2 ^ 31 := by omega
  have reversed : ∀ n ∈ dims.reverse, 0 < n := fun n inDims =>
    positive n (List.mem_reverse.mp inDims)
  have fits := apart.fits positiveSize positive small
  exact Or.inr ⟨small, (Axis.fits_iff_packed (axes_positive dims dims.reverse positive)
    (axes_descending dims dims.reverse reversed)).mp fits⟩

end

end Aholyc.Parse
