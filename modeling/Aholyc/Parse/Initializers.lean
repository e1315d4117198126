import Aholyc.Parse.Arrays
import Aholyc.Parse.Update

/-!
# Initialisers of arrays

`local_decl` and `global_decl` lower a brace list to one assignment for each item, and a
string in front of an array to a `MemCpy` that counts the bytes of the literal.
-/

namespace Aholyc.Parse

open Aholyc.Lib Aholyc.Eval

variable {W : Type}

/-- What is behind the `=` of a declarator: a brace list or a string. -/
inductive Init where
  | list (items : List Expr)
  | str (strId : Nat)

def listInit (v : Obj) (base : Ty) : Nat → List Expr → Option (List Expr)
  | _, [] => some []
  | idx, item :: items =>
      let dst := .deref base (newBinary .add (.var v) (.num (BitVec.ofNat 64 idx)))
      match newAssign dst item with
      | some a => (listInit v base (idx + 1) items).map (a :: ·)
      | none => none

/-- The expression statements of a declaration with an initialiser; `strLen` are the
lengths of the literals. -/
def initializer (strLen : Nat → Nat) (v : Obj) : Init → Option (List Expr)
  | .list items =>
      match v.ty with
      | .array base _ => listInit v base 0 items
      | _ => none
  | .str strId =>
      match v.ty with
      | .array .. =>
          let count := .num (BitVec.ofNat 64 (strLen strId + 1))
          some [.call (.ptr tyU8) "MemCpy"
            (.arg (rvalize (.var v)) (.arg (.str strId) (.arg count .noArg))) 3]
      | _ => (newAssign (.var v) (.str strId)).map ([·])

def runAll (T : Target W) (answers : Answers W) : List Expr → W → Option W
  | [], w => some w
  | e :: es, w => (run T answers e w).bind fun s => runAll T answers es s.2

/-! ## What an initialiser does -/

def itemStore (v : Obj) (base : Ty) (idx : Nat) (item : Expr) : Expr :=
  .assign (valueType base) (.deref base (newBinary .add (.var v) (.num (BitVec.ofNat 64 idx))))
    (storedAs base (rvalize item))

/-- The items are evaluated in turn and stored at the elements from `idx` on; the target takes the
address of the variable before or after the item. -/
def storeItems (T : Target W) (answers : Answers W) (classes : ClassSizes) (v : Obj) (base : Ty) :
    Nat → List Expr → W → Option W
  | _, [], w => some w
  | idx, item :: items, w =>
      (run T answers (rvalize item) w).bind fun x =>
        let found := if T.leftFirst (itemStore v base idx item) then w else x.2
        let element := T.addrOf v found + BitVec.ofNat 64 idx * (elemSize classes base).signExtend 64
        (T.store (.cell base element) (converted T base (rvalize item).ty x.1) x.2).bind fun s =>
          storeItems T answers classes v base (idx + 1) items s.2

/-- The string is copied to the variable, with `count` bytes, or its address stored. -/
def storeString (T : Target W) (answers : Answers W) (v : Obj) (strId count : Nat) (w : W) :
    Option W :=
  if isArray v.ty then
    (answers (.name "MemCpy") [T.addrOf v w, T.strAddr strId, BitVec.ofNat 64 count] w).map Prod.snd
  else (T.store (.obj v) (converted T v.ty (.ptr tyU8) (T.strAddr strId)) w).map Prod.snd

/-- The bytes that a store of a value of the type writes; `U0` is stored like an `I64`. -/
def written (classes : ClassSizes) (ty : Ty) : Nat := if ty.isVoid then 8 else ty.size classes

/-- The declaration is rejected, or its statements store the given values in order, each
evaluated once, and only into bytes of the variable. -/
def Initialises (classes : ClassSizes) (strLen : Nat → Nat) (v : Obj) (init : Init) : Prop :=
  ∀ stmts, initializer strLen v init = some stmts →
    match init with
    | .list items => ∀ base len, v.ty = .array base len →
        (∀ (W : Type) (T : Target W) (answers : Answers W), Scaled T classes → ∀ w,
          runAll T answers stmts w = storeItems T answers classes v base 0 items w) ∧
        ∀ idx < items.length, ∀ t < written classes base,
          idx * (elemSize classes base).toNat + t < storage classes v.ty
    | .str strId =>
        (∀ (W : Type) (T : Target W) (answers : Answers W) (w : W),
          runAll T answers stmts w = storeString T answers v strId (strLen strId + 1) w) ∧
        (isArray v.ty = true → strLen strId + 1 ≤ storage classes v.ty)

def Fits (classes : ClassSizes) (strLen : Nat → Nat) (v : Obj) : Init → Prop
  | .list items => ∀ base len, v.ty = .array base len →
      if base.isVoid then items = [] else items.length * base.size classes ≤ storage classes v.ty
  | .str strId => isArray v.ty = true → strLen strId + 1 ≤ storage classes v.ty

/-! ## The statements, run -/

variable {v : Obj} {base : Ty} {strLen : Nat → Nat}

section

variable {T : Target W} {answers : Answers W} {classes : ClassSizes}

theorem run_assignCell (ty : Ty) {lhs : Expr} (notVar : ∀ v, lhs ≠ .var v) (rhs : Expr) (w : W) :
    run T answers (.assign ty lhs rhs) w =
      if T.leftFirst (.assign ty lhs rhs) then
        (runAddr T answers lhs w).bind fun a => (run T answers rhs a.2).bind fun x =>
          T.store (.cell lhs.ty a.1) x.1 x.2
      else
        (run T answers rhs w).bind fun x => (runAddr T answers lhs x.2).bind fun a =>
          T.store (.cell lhs.ty a.1) x.1 a.2 := by
  rw [run, val, settle_bind, settle_both]
  · split
    · simp only [Option.bind_assoc, Option.bind_map, run, runAddr]
      congr 1
      funext a
      congr 1
      funext x
      rw [Function.comp_apply]
      cases T.store (.cell lhs.ty a.1) x.1 x.2 with
      | none => rfl
      | some s => rfl
    · simp only [Option.bind_assoc, Option.bind_map, run, runAddr]
      congr 1
      funext x
      congr 1
      funext a
      rw [Function.comp_apply]
      cases T.store (.cell lhs.ty a.1) x.1 a.2 with
      | none => rfl
      | some s => rfl
  · exact notVar

theorem listInit_run (scaled : Scaled T classes) {len : Nat} (isArr : v.ty = .array base len)
    (items : List Expr) :
    ∀ idx stmts w, listInit v base idx items = some stmts →
      runAll T answers stmts w = storeItems T answers classes v base idx items w := by
  induction items with
  | nil =>
    intro idx stmts w accepted
    cases accepted
    rfl
  | cons item items ih =>
    intro idx stmts w accepted
    have constant : isInteger (Expr.num (BitVec.ofNat 64 idx)).ty = true := rfl
    have sum := sum_eq (n := .var v) isArr constant
    rw [listInit, sum] at accepted
    cases isAssign : newAssign (.deref base (.bin .add (.ptr base) (.addr (.ptr base) (.var v))
        (.num (BitVec.ofNat 64 idx)))) item with
    | none =>
      rw [isAssign] at accepted
      cases accepted
    | some a =>
      rw [isAssign] at accepted
      obtain ⟨rest, isRest, rfl⟩ := Option.map_eq_some_iff.mp accepted
      have isStore : a = .assign (valueType base) (.deref base (.bin .add (.ptr base)
          (.addr (.ptr base) (.var v)) (.num (BitVec.ofNat 64 idx))))
          (storedAs base (rvalize item)) := by
        rw [newAssign] at isAssign
        split at isAssign
        · cases isAssign
        · split at isAssign
          · cases isAssign
          · exact (Option.some.inj isAssign).symm
      have notVar (v' : Obj) : Expr.deref base (.bin .add (.ptr base) (.addr (.ptr base) (.var v))
          (.num (BitVec.ofNat 64 idx))) ≠ .var v' := Expr.noConfusion
      have address (m : W) : runAddr T answers (.deref base (.bin .add (.ptr base)
          (.addr (.ptr base) (.var v)) (.num (BitVec.ofNat 64 idx)))) m =
          some (T.addrOf v m + BitVec.ofNat 64 idx * (elemSize classes base).signExtend 64, m) := by
        rw [element_run answers scaled (.var v) base constant m]
        split
        · rfl
        · rfl
      have isNode : a = itemStore v base idx item := by
        rw [isStore, itemStore, sum]
      rw [runAll, storeItems, ← isNode, isStore, run_assignCell _ notVar]
      split
      · rw [address, Option.bind_some, run_storedAs, Option.bind_map, Option.bind_assoc]
        congr 1
        funext x
        rw [Function.comp_apply]
        congr 1
        funext s
        exact ih (idx + 1) rest s.2 isRest
      · rw [run_storedAs, Option.bind_map, Option.bind_assoc]
        congr 1
        funext x
        rw [Function.comp_apply, address, Option.bind_some]
        congr 1
        funext s
        exact ih (idx + 1) rest s.2 isRest

theorem run_assignVar (ty : Ty) (v : Obj) (rhs : Expr) (w : W) :
    run T answers (.assign ty (.var v) rhs) w =
      (run T answers rhs w).bind fun x => T.store (.obj v) x.1 x.2 := by
  rw [run, val, settle_bind, run]
  congr 1
  funext x
  cases T.store (.obj v) x.1 x.2 with
  | none => rfl
  | some s => rfl

theorem runAll_one (e : Expr) (w : W) :
    runAll T answers [e] w = (run T answers e w).map Prod.snd := by
  rw [runAll, Option.map_eq_bind]
  rfl

/-- Arguments without effects come in either order. -/
theorem args_done {a next : Expr} {x : Word} {xs : List Word} {w : W} (first : val T a w = .done x w)
    (rest : args T next w = .done xs w) : args T (.arg a next) w = .done (x :: xs) w := by
  rw [args, Comp.both, first, rest]
  split
  · rw [Comp.bind_done, rest]
    rfl
  · rw [Comp.bind_done, first]
    rfl

theorem strInit_run {strId : Nat} {stmts : List Expr}
    (accepted : initializer strLen v (.str strId) = some stmts) (w : W) :
    runAll T answers stmts w = storeString T answers v strId (strLen strId + 1) w := by
  cases isArr : isArray v.ty with
  | true =>
    cases isTy : v.ty with
    | array base len =>
      have address : rvalize (.var v) = .addr (.ptr base) (.var v) := by
        unfold rvalize
        show (match v.ty with
          | .array base _ => Expr.addr (.ptr base) (.var v)
          | _ => .var v) = _
        rw [isTy]
      rw [initializer, isTy, address] at accepted
      cases accepted
      have values : args T (.arg (.addr (.ptr base) (.var v)) (.arg (.str strId)
          (.arg (.num (BitVec.ofNat 64 (strLen strId + 1))) .noArg))) w =
            .done [T.addrOf v w, T.strAddr strId, BitVec.ofNat 64 (strLen strId + 1)] w :=
        args_done rfl (args_done rfl (args_done rfl rfl))
      rw [runAll_one, storeString, isArr, if_pos rfl, run, val, values, Comp.bind_done, settle]
      cases answers (.name "MemCpy")
          [T.addrOf v w, T.strAddr strId, BitVec.ofNat 64 (strLen strId + 1)] w with
      | none => rfl
      | some s => rfl
    | _ =>
      rw [isTy] at isArr
      cases isArr
  | false =>
    have assigns : (newAssign (.var v) (.str strId)).map ([·]) = some stmts := by
      rw [initializer] at accepted
      split at accepted
      next isTy =>
        rw [isTy] at isArr
        cases isArr
      next => exact accepted
    have isVar : isLvalue (.var v) = true := rfl
    have varTy : (Expr.var v).ty = v.ty := rfl
    rw [newAssign, isVar, varTy, isArr] at assigns
    cases assigns
    rw [runAll_one, run_assignVar, run_storedAs, Option.bind_map, storeString, isArr,
      if_neg Bool.false_ne_true]
    rfl

end

/-! ## What fits -/

section

variable {classes : ClassSizes}

theorem elemSize_toNat {ty : Ty} (positive : 0 < ty.size classes)
    (isInt : ty.size classes < 2 ^ 31) : (elemSize classes ty).toNat = ty.size classes := by
  have value : (BitVec.ofNat 32 (ty.size classes)).toNat = ty.size classes := by
    rw [BitVec.toNat_ofNat, Nat.mod_eq_of_lt (by omega)]
  have nonzero : BitVec.ofNat 32 (ty.size classes) ≠ 0 := by
    intro zero
    rw [zero] at value
    exact absurd value (Nat.ne_of_lt positive)
  rw [elemSize, sizeField_eq, if_neg nonzero, value]

/-- Stores of items at consecutive elements are inside the variable if all of them fit. -/
theorem items_inside (isInt : base.size classes < 2 ^ 31) (sized : base.isVoid = false)
    (count bytes : Nat) :
    (∀ idx < count, ∀ t < written classes base, idx * (elemSize classes base).toNat + t < bytes) ↔
      count * base.size classes ≤ bytes := by
  have isSize : written classes base = base.size classes := by
    rw [written, sized]
    rfl
  rw [isSize]
  rcases Nat.eq_zero_or_pos (base.size classes) with empty | positive
  · rw [empty, Nat.mul_zero]
    constructor
    · intro _
      exact Nat.zero_le bytes
    · intro _ idx _ t bound
      omega
  · rw [elemSize_toNat positive isInt]
    constructor
    · intro inside
      cases count with
      | zero =>
        rw [Nat.zero_mul]
        exact Nat.zero_le bytes
      | succ last =>
        have end' := inside last (Nat.lt_succ_self last) (base.size classes - 1) (by omega)
        rw [Nat.succ_mul]
        omega
    · intro fits idx bound t inElement
      have next := Nat.mul_le_mul_right (base.size classes) (Nat.succ_le_of_lt bound)
      rw [Nat.succ_mul] at next
      omega

theorem void_storage {len : Nat} (isArr : v.ty = .array base len) (isVoid : base.isVoid = true) :
    storage classes v.ty = 0 := by
  cases base with
  | void =>
    rw [isArr, storage, sizeField]
    show (BitVec.ofNat 32 0 * BitVec.ofNat 32 len).toInt.toNat = 0
    rw [← BitVec.ofNat_mul, Nat.zero_mul]
    rfl
  | _ => cases isVoid

/-- The stores of a list are inside the variable just where the list fits. -/
theorem list_fits (items : List Expr)
    (isInt : ∀ base len, v.ty = .array base len → base.size classes < 2 ^ 31) :
    (∀ base len, v.ty = .array base len → ∀ idx < items.length, ∀ t < written classes base,
      idx * (elemSize classes base).toNat + t < storage classes v.ty) ↔
      Fits classes strLen v (.list items) := by
  have each {base : Ty} {len : Nat} (isArr : v.ty = .array base len) :
      (∀ idx < items.length, ∀ t < written classes base,
        idx * (elemSize classes base).toNat + t < storage classes v.ty) ↔
        if base.isVoid then items = []
        else items.length * base.size classes ≤ storage classes v.ty := by
    cases isVoid : base.isVoid with
    | true =>
      rw [if_pos rfl, void_storage isArr isVoid]
      constructor
      · intro inside
        cases items with
        | nil => rfl
        | cons item items =>
          have bytes : 0 < written classes base := by
            rw [written, isVoid, if_pos rfl]
            decide
          exact absurd (inside 0 (Nat.succ_pos _) 0 bytes) (Nat.not_lt_zero _)
      · intro none' idx bound
        rw [none'] at bound
        exact absurd bound (Nat.not_lt_zero idx)
    | false =>
      rw [if_neg Bool.false_ne_true]
      exact items_inside (isInt base len isArr) isVoid items.length (storage classes v.ty)
  constructor
  · intro inside base len isArr
    exact (each isArr).mp (inside base len isArr)
  · intro fits base len isArr
    exact (each isArr).mpr (fits base len isArr)

/-- An accepted initialiser that stores only into its variable fits it. -/
theorem Initialises.fits {init : Init} {stmts : List Expr}
    (initialises : Initialises classes strLen v init)
    (accepted : initializer strLen v init = some stmts)
    (isInt : ∀ items base len, init = .list items → v.ty = .array base len →
      base.size classes < 2 ^ 31) :
    Fits classes strLen v init := by
  cases init with
  | list items =>
    apply (list_fits items fun base len => isInt items base len rfl).mp
    intro base len isArr
    exact (initialises stmts accepted base len isArr).2
  | str strId => exact (initialises stmts accepted).2

end

end Aholyc.Parse
