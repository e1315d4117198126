import Aholyc.Parse.Run

/-!
# Compound assignments, `++` and `--`

`compoundValue` and `stepValue` say what an update of an lvalue does: its address, its
old value, the right side, the operation, the store. The lowered trees do the same, with
the address of anything but a variable in a temporary; only their value is what the
assignment gives back, which C narrows to the stored width.
-/

namespace Aholyc.Parse

open Aholyc.Lib Aholyc.Eval

variable {W : Type}

/-! ## What an update does -/

def comp : List BinKind := [.add, .sub, .mul, .div, .mod, .and, .or, .xor, .shl, .shr]

def intTy (ty : Ty) : Ty := if ty.isF64 then tyI64 else ty

def asInt (T : Target W) (ty : Ty) (x : Word) : Word :=
  if ty.isF64 then T.cast tyI64 false ty x else x

def wide (l r : Ty) : Ty := if valueUnsig l || valueUnsig r then tyU64 else tyI64

/-- `+ - * /` of numbers, in `F64` where either is one. -/
def numericValue (T : Target W) (kind : BinKind) (l r : Ty) (x y : Word) : Option Word :=
  if l.isF64 || r.isF64 then T.bin kind .f64 .f64 .f64 (asF64 T l x) (asF64 T r y)
  else T.bin kind (wide l r) l r x y

def operate (T : Target W) (kind : BinKind) (l r : Ty) (x y : Word) : Option Word :=
  match kind with
  | .add | .sub =>
      if isPtr l && isPtr r then T.bin kind tyI64 l r x y
      else if isPtr r then T.bin kind r r (intTy l) y (asInt T l x)
      else if isPtr l then T.bin kind l l (intTy r) x (asInt T r y)
      else numericValue T kind l r x y
  | .mul | .div => numericValue T kind l r x y
  | _ => T.bin kind (wide (intTy l) (intTy r)) (intTy l) (intTy r) (asInt T l x) (asInt T r y)

def numericTy (l r : Ty) : Ty := if l.isF64 || r.isF64 then .f64 else wide l r

def operatedTy (kind : BinKind) (l r : Ty) : Ty :=
  match kind with
  | .add | .sub =>
      if isPtr l && isPtr r then tyI64
      else if isPtr r then r
      else if isPtr l then l
      else numericTy l r
  | .mul | .div => numericTy l r
  | _ => wide (intTy l) (intTy r)

/-- The sides of the node are exchanged: a pointer is on the left. -/
def exchanges (kind : BinKind) (l r : Ty) : Bool :=
  (kind == .add || kind == .sub) && isPtr r && !isPtr l

/-- The old value is read before the right side is evaluated. -/
def readsFirst (T : Target W) (kind : BinKind) (place rhs : Expr) : Bool :=
  T.leftFirst (newBinary kind place rhs) != exchanges kind place.ty (rvalize rhs).ty

/-- The implicit conversion of a value of type `of` to the type it is stored with. -/
def converted (T : Target W) (ty of : Ty) (x : Word) : Word :=
  if ty.isF64 && !of.isF64 then T.cast .f64 false of x
  else if isInteger ty && of.isF64 then T.cast tyI64 false of x
  else x

def locate (T : Target W) (answers : Answers W) : Expr → W → Option (Place × W)
  | .var v, w => some (.obj v, w)
  | lval, w => (runAddr T answers lval w).map fun s => (.cell lval.ty s.1, s.2)

def operated (T : Target W) (answers : Answers W) (readFirst : Bool) (kind : BinKind)
    (place : Place) (l : Ty) (rhs : Expr) (w : W) : Option (Word × W) :=
  if readFirst then
    (T.load place w).bind fun x => (run T answers (rvalize rhs) w).bind fun right =>
      (operate T kind l (rvalize rhs).ty x right.1).map fun z => (z, right.2)
  else
    (run T answers (rvalize rhs) w).bind fun right => (T.load place right.2).bind fun x =>
      (operate T kind l (rvalize rhs).ty x right.1).map fun z => (z, right.2)

/-- The value that `lval OP= rhs` stores, with what the store gives back. -/
def updated (T : Target W) (answers : Answers W) (readFirst : Bool) (kind : BinKind)
    (lval rhs : Expr) (w : W) : Option (Word × Word × W) :=
  (locate T answers lval w).bind fun p =>
    (operated T answers readFirst kind p.1 lval.ty rhs p.2).bind fun z =>
      let x := converted T lval.ty (operatedTy kind lval.ty (rvalize rhs).ty) z.1
      (T.store p.1 x z.2).map fun s => (x, s)

/-- `lval OP= rhs`: the value is the one from before the truncation of the store. -/
def compoundValue (T : Target W) (answers : Answers W) (readFirst : Bool) (kind : BinKind)
    (lval rhs : Expr) (w : W) : Option (Word × W) :=
  (updated T answers readFirst kind lval rhs w).map fun u => (u.1, u.2.2)

/-- The old value, the new one, and what its store gives back. -/
def stepped (T : Target W) (answers : Answers W) (kind : BinKind) (lval : Expr) (w : W) :
    Option (Word × Word × Word × W) :=
  (locate T answers lval w).bind fun p =>
    (T.load p.1 p.2).bind fun old => (operate T kind lval.ty tyI64 old 1).bind fun z =>
      let x := converted T lval.ty (operatedTy kind lval.ty tyI64) z
      (T.store p.1 x p.2).map fun s => (old, x, s)

def stepValue (T : Target W) (answers : Answers W) (kind : BinKind) (post : Bool) (lval : Expr)
    (w : W) : Option (Word × W) :=
  (stepped T answers kind lval w).map fun u => (if post then u.1 else u.2.1, u.2.2.2)

/-- What the language says of a target: values widen when they are loaded, and to add minus one
is to subtract one. -/
structure Language (T : Target W) : Prop where
  left : ∀ kind ty l r x y, T.bin kind ty (valueType l) r x y = T.bin kind ty l r x y
  cast : ∀ to' bitCast l x, T.cast to' bitCast (valueType l) x = T.cast to' bitCast l x
  minus : ∀ ty l x, T.bin .add ty l tyI64 x (-1) = T.bin .sub ty l tyI64 x 1
  minusF64 : ∀ x, T.bin .add .f64 .f64 .f64 x (T.cast .f64 false tyI64 (-1)) =
    T.bin .sub .f64 .f64 .f64 x (T.cast .f64 false tyI64 1)

def Place.ty : Place → Ty
  | .obj v => v.ty
  | .cell ty _ => ty

/-- An assignment to a place of a type gives back `value` of what it was given. -/
def Assigns (T : Target W) (value : Ty → Word → Word) : Prop :=
  ∀ place x w, ∀ s ∈ T.store place x w, s.1 = value (Place.ty place) x

/-- The value of a C assignment: that of the narrow variable behind it. LLVM code gives back
the value that it stores. -/
def narrowed : Ty → Word → Word
  | .int size isUnsigned, x =>
      if isUnsigned then (x.setWidth (8 * size.bytes)).setWidth 64
      else (x.setWidth (8 * size.bytes)).signExtend 64
  | _, x => x

/-! ## The plain operation -/

section

variable (T : Target W) (answers : Answers W)

theorem toInt_ty (n : Expr) : (toInt n).ty = intTy n.ty := by
  unfold toInt intTy
  split
  · rfl
  · rfl

theorem run_toInt (n : Expr) (w : W) :
    run T answers (toInt n) w = (run T answers n w).map fun s => (asInt T n.ty s.1, s.2) := by
  unfold toInt asInt
  split
  · exact run_cast T answers tyI64 false n w
  · exact Option.map_id'.symm

theorem run_numeric (kind : BinKind) (strict : kind ≠ .comma ∧ kind ≠ .logand ∧ kind ≠ .logor)
    (lhs rhs : Expr) (w : W) :
    run T answers (numeric kind lhs rhs) w =
      if T.leftFirst (numeric kind lhs rhs) then
        (run T answers lhs w).bind fun left => (run T answers rhs left.2).bind fun right =>
          (numericValue T kind lhs.ty rhs.ty left.1 right.1).map fun z => (z, right.2)
      else
        (run T answers rhs w).bind fun right => (run T answers lhs right.2).bind fun left =>
          (numericValue T kind lhs.ty rhs.ty left.1 right.1).map fun z => (z, left.2) := by
  unfold numeric numericValue
  split
  · rw [run_bin T answers kind strict]
    simp only [run_toF64, toF64_ty, Function.comp_def, Option.bind_map]
  · exact run_bin T answers kind strict (intType lhs rhs) lhs rhs w

theorem numeric_ty (kind : BinKind) (lhs rhs : Expr) :
    (numeric kind lhs rhs).ty = numericTy lhs.ty rhs.ty := by
  unfold numeric numericTy
  split
  · rfl
  · rfl

theorem run_integral (kind : BinKind) (strict : kind ≠ .comma ∧ kind ≠ .logand ∧ kind ≠ .logor)
    (lhs rhs : Expr) (w : W) :
    run T answers (integral kind lhs rhs) w =
      if T.leftFirst (integral kind lhs rhs) then
        (run T answers lhs w).bind fun left => (run T answers rhs left.2).bind fun right =>
          (T.bin kind (wide (intTy lhs.ty) (intTy rhs.ty)) (intTy lhs.ty) (intTy rhs.ty)
            (asInt T lhs.ty left.1) (asInt T rhs.ty right.1)).map fun z => (z, right.2)
      else
        (run T answers rhs w).bind fun right => (run T answers lhs right.2).bind fun left =>
          (T.bin kind (wide (intTy lhs.ty) (intTy rhs.ty)) (intTy lhs.ty) (intTy rhs.ty)
            (asInt T lhs.ty left.1) (asInt T rhs.ty right.1)).map fun z => (z, left.2) := by
  have ty : intType (toInt lhs) (toInt rhs) = wide (intTy lhs.ty) (intTy rhs.ty) := by
    rw [← toInt_ty, ← toInt_ty]
    rfl
  unfold integral
  rw [run_bin T answers kind strict, ty]
  simp only [run_toInt, toInt_ty, Function.comp_def, Option.bind_map]

/-- `+` and `-`: a pointer is on the left of a number. -/
theorem run_additive (kind : BinKind) (sum : kind = .add ∨ kind = .sub) (lhs rhs : Expr) (w : W) :
    run T answers (additive kind lhs rhs) w =
      if T.leftFirst (additive kind lhs rhs) != (isPtr rhs.ty && !isPtr lhs.ty) then
        (run T answers lhs w).bind fun left => (run T answers rhs left.2).bind fun right =>
          (operate T kind lhs.ty rhs.ty left.1 right.1).map fun z => (z, right.2)
      else
        (run T answers rhs w).bind fun right => (run T answers lhs right.2).bind fun left =>
          (operate T kind lhs.ty rhs.ty left.1 right.1).map fun z => (z, left.2) := by
  have strict : kind ≠ .comma ∧ kind ≠ .logand ∧ kind ≠ .logor := by
    rcases sum with rfl | rfl
    · decide
    · decide
  have plain (x y : Word) : operate T kind lhs.ty rhs.ty x y =
      if isPtr lhs.ty && isPtr rhs.ty then T.bin kind tyI64 lhs.ty rhs.ty x y
      else if isPtr rhs.ty then T.bin kind rhs.ty rhs.ty (intTy lhs.ty) y (asInt T lhs.ty x)
      else if isPtr lhs.ty then T.bin kind lhs.ty lhs.ty (intTy rhs.ty) x (asInt T rhs.ty y)
      else numericValue T kind lhs.ty rhs.ty x y := by
    rcases sum with rfl | rfl
    · rfl
    · rfl
  unfold additive
  simp only [plain]
  cases left : isPtr lhs.ty with
  | true =>
    cases right : isPtr rhs.ty with
    | true =>
      simp only [Bool.and_self, Bool.not_true, Bool.and_false, if_true, Bool.bne_false]
      exact run_bin T answers kind strict _ _ _ _
    | false =>
      simp only [Bool.and_false, Bool.false_and, Bool.false_eq_true, if_true, if_false, Bool.bne_false]
      rw [run_bin T answers kind strict]
      simp only [run_toInt, toInt_ty, Option.bind_map, Function.comp_def]
  | false =>
    cases right : isPtr rhs.ty with
    | true =>
      simp only [Bool.false_and, Bool.not_false, Bool.and_self, Bool.false_eq_true, if_true,
        if_false, Bool.bne_true]
      rw [run_bin T answers kind strict]
      simp only [run_toInt, toInt_ty, Option.bind_map, Function.comp_def]
      cases T.leftFirst (.bin kind rhs.ty rhs (toInt lhs)) with
      | true => rfl
      | false => rfl
    | false =>
      simp only [Bool.false_and, Bool.false_eq_true, if_false, Bool.bne_false]
      exact run_numeric T answers kind strict lhs rhs w

theorem run_newBinary (kind : BinKind) (isComp : kind ∈ comp) (lhs rhs : Expr)
    (notArray : isArray lhs.ty = false) (w : W) :
    run T answers (newBinary kind lhs rhs) w =
      if readsFirst T kind lhs rhs then
        (run T answers lhs w).bind fun left =>
          (run T answers (rvalize rhs) left.2).bind fun right =>
            (operate T kind lhs.ty (rvalize rhs).ty left.1 right.1).map fun z => (z, right.2)
      else
        (run T answers (rvalize rhs) w).bind fun right =>
          (run T answers lhs right.2).bind fun left =>
            (operate T kind lhs.ty (rvalize rhs).ty left.1 right.1).map fun z => (z, left.2) := by
  have inTurn (other : kind ≠ .add ∧ kind ≠ .sub) :
      exchanges kind lhs.ty (rvalize rhs).ty = false := by
    simp [exchanges, other.1, other.2]
  unfold readsFirst newBinary
  rw [rvalize_scalar notArray]
  simp only [comp, List.mem_cons, List.not_mem_nil, or_false] at isComp
  rcases isComp with rfl | rfl | rfl | rfl | rfl | rfl | rfl | rfl | rfl | rfl
  · exact run_additive T answers .add (Or.inl rfl) lhs (rvalize rhs) w
  · exact run_additive T answers .sub (Or.inr rfl) lhs (rvalize rhs) w
  · rw [inTurn (by decide), Bool.bne_false]
    exact run_numeric T answers .mul (by decide) lhs (rvalize rhs) w
  · rw [inTurn (by decide), Bool.bne_false]
    exact run_numeric T answers .div (by decide) lhs (rvalize rhs) w
  · rw [inTurn (by decide), Bool.bne_false]
    exact run_integral T answers .mod (by decide) lhs (rvalize rhs) w
  · rw [inTurn (by decide), Bool.bne_false]
    exact run_integral T answers .and (by decide) lhs (rvalize rhs) w
  · rw [inTurn (by decide), Bool.bne_false]
    exact run_integral T answers .or (by decide) lhs (rvalize rhs) w
  · rw [inTurn (by decide), Bool.bne_false]
    exact run_integral T answers .xor (by decide) lhs (rvalize rhs) w
  · rw [inTurn (by decide), Bool.bne_false]
    exact run_integral T answers .shl (by decide) lhs (rvalize rhs) w
  · rw [inTurn (by decide), Bool.bne_false]
    exact run_integral T answers .shr (by decide) lhs (rvalize rhs) w

theorem additive_ty (kind : BinKind) (sum : kind = .add ∨ kind = .sub) (lhs rhs : Expr) :
    (additive kind lhs rhs).ty = operatedTy kind lhs.ty rhs.ty := by
  have plain : operatedTy kind lhs.ty rhs.ty =
      if isPtr lhs.ty && isPtr rhs.ty then tyI64
      else if isPtr rhs.ty then rhs.ty
      else if isPtr lhs.ty then lhs.ty
      else numericTy lhs.ty rhs.ty := by
    rcases sum with rfl | rfl
    · rfl
    · rfl
  rw [plain]
  unfold additive
  split
  · rfl
  · split
    · rfl
    · split
      · rfl
      · exact numeric_ty kind lhs rhs

theorem integral_ty (kind : BinKind) (lhs rhs : Expr) :
    (integral kind lhs rhs).ty = wide (intTy lhs.ty) (intTy rhs.ty) := by
  rw [← toInt_ty, ← toInt_ty]
  rfl

theorem newBinary_ty (kind : BinKind) (isComp : kind ∈ comp) (lhs rhs : Expr)
    (notArray : isArray lhs.ty = false) :
    (newBinary kind lhs rhs).ty = operatedTy kind lhs.ty (rvalize rhs).ty := by
  unfold newBinary
  rw [rvalize_scalar notArray]
  simp only [comp, List.mem_cons, List.not_mem_nil, or_false] at isComp
  rcases isComp with rfl | rfl | rfl | rfl | rfl | rfl | rfl | rfl | rfl | rfl
  · exact additive_ty .add (Or.inl rfl) lhs (rvalize rhs)
  · exact additive_ty .sub (Or.inr rfl) lhs (rvalize rhs)
  · exact numeric_ty .mul lhs (rvalize rhs)
  · exact numeric_ty .div lhs (rvalize rhs)
  · exact integral_ty .mod lhs (rvalize rhs)
  · exact integral_ty .and lhs (rvalize rhs)
  · exact integral_ty .or lhs (rvalize rhs)
  · exact integral_ty .xor lhs (rvalize rhs)
  · exact integral_ty .shl lhs (rvalize rhs)
  · exact integral_ty .shr lhs (rvalize rhs)

theorem run_storedAs (ty : Ty) (rhs : Expr) (w : W) :
    run T answers (storedAs ty rhs) w =
      (run T answers rhs w).map fun s => (converted T ty rhs.ty s.1, s.2) := by
  unfold storedAs converted
  split
  · exact run_cast T answers .f64 false rhs w
  · split
    · exact run_cast T answers tyI64 false rhs w
    · exact Option.map_id'.symm

end

theorem notArray_of_scalar {ty : Ty} (scalar : isAgg ty = false) : isArray ty = false := by
  cases ty with
  | array base len => cases scalar
  | _ => rfl

theorem numericTy_notArray (l r : Ty) : isArray (numericTy l r) = false := by
  unfold numericTy wide
  split
  · rfl
  · split
    · rfl
    · rfl

theorem operatedTy_notArray (kind : BinKind) {l r : Ty} (left : isArray l = false)
    (right : isArray r = false) : isArray (operatedTy kind l r) = false := by
  have sum : isArray (if isPtr l && isPtr r then tyI64 else if isPtr r then r
      else if isPtr l then l else numericTy l r) = false := by
    split
    · rfl
    · split
      · exact right
      · split
        · exact left
        · exact numericTy_notArray l r
  have integers : isArray (wide (intTy l) (intTy r)) = false := by
    unfold wide
    split
    · rfl
    · rfl
  cases kind with
  | add => exact sum
  | sub => exact sum
  | mul => exact numericTy_notArray l r
  | div => exact numericTy_notArray l r
  | _ => exact integers

/-! ## Places -/

/-- The node stands for the place, with these temporaries. -/
inductive Designates (tmps : List Nat) (t : Temps) : Expr → Place → Prop where
  | var (v : Obj) (other : v.uid ∉ tmps) : Designates tmps t (.var v) (.obj v)
  | deref (ty : Ty) (tmp : Obj) (isTemp : tmp.uid ∈ tmps) (scalar : isAgg tmp.ty = false) :
      Designates tmps t (.deref ty (.var tmp)) (.cell ty (t tmp.uid))

def placed (uid : Nat) (t : Temps) : Place → Temps
  | .obj _ => t
  | .cell _ a => fun u => if u = uid then a else t u

section

variable {T : Target W} {answers : Answers W} {tmps : List Nat}

variable (T answers) in
theorem run_designated {t : Temps} {place : Expr} {p : Place} (stands : Designates tmps t place p)
    (scalar : isAgg place.ty = false) (w : W) :
    run (withTemps T tmps) (beside answers) place (w, t) = (T.load p w).map fun x => (x, w, t) := by
  cases stands with
  | var v other =>
    have scalarVar : isAgg v.ty = false := scalar
    have reads : (withTemps T tmps).load (.obj v) (w, t) = T.load (.obj v) w := if_neg other
    simp only [run, val, scalarVar, Bool.false_eq_true, if_false, settle_ofOption, reads]
  | deref ty tmp isTemp tmpScalar =>
    have scalarCell : isAgg ty = false := scalar
    have reads : (withTemps T tmps).load (.cell ty (t tmp.uid)) (w, t) =
        T.load (.cell ty (t tmp.uid)) w := rfl
    have address := run_temp T answers isTemp tmpScalar (w, t)
    rw [run] at address
    rw [run, val, settle_bind, address, Option.bind_some, scalarCell]
    simp only [Bool.false_eq_true, if_false, settle_ofOption, reads]

/-- An assignment to a place, of an expression that keeps the temporaries. -/
theorem run_assignDesignated {t : Temps} {place : Expr} {p : Place}
    (stands : Designates tmps t place p) (ty : Ty) (rhs : Expr) {w : W} {result : Option (Word × W)}
    (runs : run (withTemps T tmps) (beside answers) rhs (w, t) = aside t result) :
    run (withTemps T tmps) (beside answers) (.assign ty place rhs) (w, t) =
      result.bind fun s => (T.store p s.1 s.2).map fun q => (q.1, q.2, t) := by
  rw [run] at runs
  cases stands with
  | var v other =>
    have stores (s : Word × W) : (withTemps T tmps).store (.obj v) s.1 (s.2, t) =
        (T.store (.obj v) s.1 s.2).map fun q => (q.1, q.2, t) := if_neg other
    rw [run, val, settle_bind, runs, aside, Option.bind_map]
    congr 1
    funext s
    simp only [Function.comp_apply, stores]
    cases T.store (.obj v) s.1 s.2 with
    | none => rfl
    | some q => rfl
  | deref derefTy tmp isTemp tmpScalar =>
    have stores (s : Word × W) : (withTemps T tmps).store (.cell derefTy (t tmp.uid)) s.1 (s.2, t) =
        (T.store (.cell derefTy (t tmp.uid)) s.1 s.2).map fun q => (q.1, q.2, t) := rfl
    have notVar (v : Obj) : Expr.deref derefTy (.var tmp) ≠ .var v := Expr.noConfusion
    have address (w : W) : settle (beside answers)
        (addr (withTemps T tmps) (.deref derefTy (.var tmp)) (w, t)) =
          some (t tmp.uid, w, t) :=
      run_temp T answers isTemp tmpScalar (w, t)
    -- the temporary is the same in front of the value and behind it
    have sides : settle (beside answers) (Comp.both
        ((withTemps T tmps).leftFirst (.assign ty (.deref derefTy (.var tmp)) rhs))
        (addr (withTemps T tmps) (.deref derefTy (.var tmp))) (val (withTemps T tmps) rhs) (w, t)) =
          result.map fun s => ((t tmp.uid, s.1), s.2, t) := by
      rw [settle_both]
      split
      · rw [address, Option.bind_some, runs, aside, Option.map_map]
        rfl
      · rw [runs, aside, Option.bind_map]
        simp only [Function.comp_def, address, Option.map_some]
        exact (Option.map_eq_bind ..).symm
    rw [run, val, settle_bind, sides, Option.bind_map]
    · congr 1
      funext s
      simp only [Function.comp_apply, Expr.ty, stores]
      cases T.store (.cell derefTy (t tmp.uid)) s.1 s.2 with
      | none => rfl
      | some q => rfl
    · exact notVar

variable (T answers tmps) in
/-- Behind the setup the place stands for where the lvalue is, and the lvalue is evaluated
for it once. -/
structure Places (uid : Nat) (lval : Expr) (setup : Option Expr) (place : Expr) : Prop where
  ty : place.ty = lval.ty
  isLvalue : isLvalue place = true
  stands : ∀ w t, ∀ p ∈ locate T answers lval w, ∀ t', t' uid = placed uid t p.1 uid →
    Designates tmps t' place p.1
  runs : ∀ upd, isArray upd.ty = false → ∀ w t,
    run (withTemps T tmps) (beside answers) (afterSetup setup upd) (w, t) =
      (locate T answers lval w).bind fun p =>
        run (withTemps T tmps) (beside answers) upd (p.2, placed uid t p.1)

theorem places_var (uid : Nat) (v : Obj) (avoids : v.uid ∉ tmps) :
    Places T answers tmps uid (.var v) none (.var v) where
  ty := rfl
  isLvalue := rfl
  stands w t p isHere t' same := by
    cases isHere
    exact Designates.var v avoids
  runs _ _ _ _ := rfl

def addressSetup (uid : Nat) (lval : Expr) : Expr :=
  .assign (.ptr lval.ty) (.var (newTemp uid (.ptr lval.ty))) (.addr (.ptr lval.ty) lval)

/-- The node that the lowered tree has for the place. -/
def placeOf (uid : Nat) (lval : Expr) : Expr :=
  match lval with
  | .var v => .var v
  | lval => .deref lval.ty (.var (newTemp uid (.ptr lval.ty)))

theorem locate_computed {lval : Expr} (notVar : ∀ v, lval ≠ .var v) (w : W) :
    locate T answers lval w = (runAddr T answers lval w).map fun s => (.cell lval.ty s.1, s.2) := by
  cases lval with
  | var v => exact absurd rfl (notVar v)
  | _ => rfl

variable {uid : Nat} {kind : BinKind} {rhs : Expr} {delta : Word}

theorem places_computed {lval : Expr} (notVar : ∀ v, lval ≠ .var v) (avoids : Avoids tmps lval)
    (isTemp : uid ∈ tmps) :
    Places T answers tmps uid lval (some (addressSetup uid lval))
      (.deref lval.ty (.var (newTemp uid (.ptr lval.ty)))) where
  ty := rfl
  isLvalue := rfl
  stands w t p isHere t' same := by
    rw [locate_computed notVar] at isHere
    obtain ⟨s, _, rfl⟩ := Option.mem_map.mp isHere
    have kept : placed uid t (.cell lval.ty s.1) uid = s.1 := if_pos rfl
    have address : t' (newTemp uid (.ptr lval.ty)).uid = s.1 := same.trans kept
    have stands := Designates.deref (t := t') lval.ty (newTemp uid (.ptr lval.ty)) isTemp rfl
    rw [address] at stands
    exact stands
  runs upd notArray w t := by
    have address : run (withTemps T tmps) (beside answers) (.addr (.ptr lval.ty) lval) (w, t) =
        aside t (runAddr T answers lval w) := runAddr_avoids avoids w t
    have tree : afterSetup (some (addressSetup uid lval)) upd =
        .bin .comma upd.ty (addressSetup uid lval) upd := by
      have value := rvalize_scalar notArray
      show Expr.bin .comma (rvalize upd).ty (rvalize (addressSetup uid lval)) (rvalize upd) = _
      rw [value]
      rfl
    rw [tree, run_comma, addressSetup, run_assignTemp isTemp, address, locate_computed notVar,
      aside, Option.map_map, Option.bind_map, Option.bind_map]
    rfl

theorem lvalAddrTemp_places (T : Target W) (answers : Answers W) {lval : Expr}
    (avoids : Avoids tmps lval) (isTemp : uid ∈ tmps) :
    ∃ setup, lvalAddrTemp uid lval = some (setup, placeOf uid lval) ∧
      Places T answers tmps uid lval setup (placeOf uid lval) := by
  have computed (notVar : ∀ v, lval ≠ .var v) :
      Places T answers tmps uid lval (some (addressSetup uid lval))
        (.deref lval.ty (.var (newTemp uid (.ptr lval.ty)))) :=
    places_computed notVar avoids isTemp
  cases lval with
  | var v => exact ⟨none, rfl, places_var uid v avoids⟩
  | _ => exact ⟨_, rfl, computed fun v => Expr.noConfusion⟩

/-! ## Compound assignments -/

variable (T answers) in
theorem run_operated {t : Temps} {place : Expr} {p : Place} (stands : Designates tmps t place p)
    (scalar : isAgg place.ty = false) (isComp : kind ∈ comp) (avoids : Avoids tmps rhs) (w : W) :
    run (withTemps T tmps) (beside answers) (newBinary kind place rhs) (w, t) =
      aside t (operated T answers (readsFirst T kind place rhs) kind p place.ty rhs w) := by
  have right := rvalize_avoids avoids
  have same : operate (withTemps T tmps) = operate T := rfl
  have order : readsFirst (withTemps T tmps) kind place rhs = readsFirst T kind place rhs := rfl
  rw [run_newBinary _ _ kind isComp place rhs (notArray_of_scalar scalar), same, order, operated]
  split
  · simp only [run_avoids right, run_designated T answers stands scalar, aside, Option.bind_map,
      Option.map_bind, Option.map_map, Function.comp_def]
  · simp only [run_avoids right, run_designated T answers stands scalar, aside, Option.bind_map,
      Option.map_bind, Option.map_map, Function.comp_def]

/-- An update of a place: the value of the expression, converted, is stored. -/
theorem run_update {t : Temps} {place : Expr} {p : Place} (stands : Designates tmps t place p)
    (ty : Ty) (rhs : Expr) (w : W) {result : Option (Word × W)}
    (runs : run (withTemps T tmps) (beside answers) rhs (w, t) = aside t result) :
    run (withTemps T tmps) (beside answers) (.assign ty place (storedAs place.ty rhs)) (w, t) =
      aside t (result.bind fun z => T.store p (converted T place.ty rhs.ty z.1) z.2) := by
  have stored : run (withTemps T tmps) (beside answers) (storedAs place.ty rhs) (w, t) =
      aside t (result.map fun z => (converted T place.ty rhs.ty z.1, z.2)) := by
    rw [run_storedAs, runs, aside, aside, Option.map_map, Option.map_map]
    rfl
  rw [run_assignDesignated stands ty _ stored, Option.bind_map, aside, Option.map_bind]
  rfl

theorem newAssign_place {place : Expr} (isL : isLvalue place = true)
    (notArray : isArray place.ty = false) (value : isArray rhs.ty = false) :
    newAssign place rhs = some (.assign (valueType place.ty) place (storedAs place.ty rhs)) := by
  rw [newAssign, isL, notArray, rvalize_scalar value]
  rfl

theorem compoundAssign_some {lval place upd : Expr} {setup : Option Expr}
    (isL : isLvalue lval = true) (isPlace : lvalAddrTemp uid lval = some (setup, place))
    (isUpd : newAssign place (newBinary kind place rhs) = some upd) :
    compoundAssign uid kind lval rhs = some (afterSetup setup upd) := by
  rw [compoundAssign, isL, isPlace]
  show (newAssign place (newBinary kind place rhs)).bind
    (fun res => some (afterSetup setup res)) = _
  rw [isUpd]
  rfl

variable (answers) in
/-- The lowered tree of a compound assignment updates its lvalue once, and has the value that the
store gives back. -/
theorem compoundAssign_run (isTemp : uid ∈ tmps) (isComp : kind ∈ comp)
    {lval : Expr} (isL : isLvalue lval = true) (scalar : isAgg lval.ty = false)
    (avoidsL : Avoids tmps lval) (avoidsR : Avoids tmps rhs) :
    ∃ lowered, compoundAssign uid kind lval rhs = some lowered ∧ ∀ m,
      visible (run (withTemps T tmps) (beside answers) lowered m) =
        (updated T answers (readsFirst T kind (placeOf uid lval) rhs) kind lval rhs m.1).map
          Prod.snd := by
  obtain ⟨setup, isPlace, places⟩ := lvalAddrTemp_places T answers avoidsL isTemp
  generalize placeOf uid lval = place at isPlace places ⊢
  have scalarPlace : isAgg place.ty = false := by
    rw [places.ty]
    exact scalar
  have notArray := notArray_of_scalar scalarPlace
  have opTy := newBinary_ty kind isComp place rhs notArray
  have opNotArray : isArray (newBinary kind place rhs).ty = false := by
    rw [opTy]
    exact operatedTy_notArray kind notArray (rvalize_ty rhs)
  have isUpd := newAssign_place places.isLvalue notArray opNotArray
  have updNotArray : isArray (Expr.assign (valueType place.ty) place
    (storedAs place.ty (newBinary kind place rhs))).ty = false := valueType_decayed place.ty
  refine ⟨_, compoundAssign_some isL isPlace isUpd, ?_⟩
  intro m
  refine (congrArg visible (places.runs _ updNotArray m.1 m.2)).trans ?_
  rw [updated, visible_bind, Option.map_bind]
  apply Option.bind_congr
  intro p isHere
  have stands := places.stands m.1 m.2 p isHere (placed uid m.2 p.1) rfl
  have runs := run_operated T answers stands scalarPlace isComp avoidsR p.2
  rw [run_update stands _ _ p.2 runs, opTy, places.ty, visible_aside, Function.comp_apply,
    Option.map_bind]
  congr 1
  funext z
  rw [Function.comp_apply, Option.map_map]
  exact Option.map_id'.symm

/-! ## `++` and `--` -/

def Steps (T : Target W) (kind : BinKind) (delta : Word) : Prop :=
  (kind = .add ∨ kind = .sub) ∧ ∀ ty x, isAgg ty = false →
    operate T .add ty tyI64 x delta = operate T kind ty tyI64 x 1

theorem steps_up (T : Target W) : Steps T .add 1 := ⟨Or.inl rfl, fun _ _ _ => rfl⟩

theorem steps_down (language : Language T) : Steps T .sub (-1) := by
  refine ⟨Or.inr rfl, ?_⟩
  intro ty x scalar
  cases ty with
  | f64 => exact language.minusF64 x
  | array base len => cases scalar
  | cls name => cases scalar
  | ptr base => exact language.minus _ _ x
  | _ => exact language.minus _ _ x

theorem operatedTy_step (sum : kind = .add ∨ kind = .sub) (l : Ty) :
    operatedTy .add l tyI64 = operatedTy kind l tyI64 := by
  rcases sum with rfl | rfl
  · rfl
  · rfl

theorem valueType_isAgg {ty : Ty} (scalar : isAgg ty = false) : isAgg (valueType ty) = false := by
  cases ty with
  | int size isUnsigned =>
    cases isUnsigned with
    | true => rfl
    | false => rfl
  | array base len => cases scalar
  | cls name => cases scalar
  | _ => rfl

theorem operate_valueType (language : Language T) {l : Ty} (scalar : isAgg l = false) (x y : Word) :
    operate T .add (valueType l) tyI64 x y = operate T .add l tyI64 x y ∧
      operatedTy .add (valueType l) tyI64 = operatedTy .add l tyI64 := by
  cases l with
  | int size isUnsigned =>
    cases isUnsigned with
    | true => exact ⟨language.left .add tyU64 (.int size true) tyI64 x y, rfl⟩
    | false => exact ⟨language.left .add tyI64 (.int size false) tyI64 x y, rfl⟩
  | array base len => cases scalar
  | _ => exact ⟨rfl, rfl⟩

theorem operated_num (readFirst : Bool) (place : Place) (l : Ty) (delta : Word) (w : W) :
    operated T answers readFirst .add place l (.num delta) w = (T.load place w).bind fun x =>
      (operate T .add l tyI64 x delta).map fun z => (z, w) := by
  cases readFirst with
  | true => rfl
  | false => rfl

variable (answers) in
theorem incdec_pre_run (old : Nat) (isTemp : uid ∈ tmps)
    (steps : Steps T kind delta) {lval : Expr} (isL : isLvalue lval = true)
    (scalar : isAgg lval.ty = false) (avoids : Avoids tmps lval) :
    ∃ lowered, incdec uid old lval delta false = some lowered ∧ ∀ m,
      visible (run (withTemps T tmps) (beside answers) lowered m) =
        (stepped T answers kind lval m.1).map fun u => u.2.2 := by
  have isComp : BinKind.add ∈ comp := List.mem_cons_self
  have constant : Avoids tmps (.num delta) := trivial
  obtain ⟨lowered, isLowered, runs⟩ := compoundAssign_run answers isTemp isComp isL scalar
    avoids constant
  obtain ⟨setup, isPlace, places⟩ := lvalAddrTemp_places T answers avoids isTemp
  have same : incdec uid old lval delta false = compoundAssign uid .add lval (.num delta) := by
    rw [incdec, compoundAssign, isL, isPlace]
    rfl
  refine ⟨lowered, same.trans isLowered, ?_⟩
  intro m
  rw [runs, updated, stepped, Option.map_bind, Option.map_bind]
  congr 1
  funext p
  rw [Function.comp_apply, Function.comp_apply, operated_num, Option.bind_assoc, Option.map_bind,
    Option.map_bind]
  congr 1
  funext x
  have opTy : operatedTy .add lval.ty (rvalize (.num delta)).ty = operatedTy kind lval.ty tyI64 :=
    operatedTy_step steps.1 lval.ty
  rw [Function.comp_apply, Function.comp_apply, steps.2 lval.ty x scalar, Option.bind_map, opTy,
    Option.map_bind, Option.map_bind]
  congr 1
  funext z
  rw [Function.comp_apply, Function.comp_apply, Function.comp_apply, Option.map_map,
    Option.map_map]
  rfl

theorem incdec_post {old : Nat} {lval place save upd : Expr} {setup : Option Expr}
    (isL : isLvalue lval = true) (isPlace : lvalAddrTemp uid lval = some (setup, place))
    (isSave : newAssign (.var (newTemp old (valueType place.ty))) place = some save)
    (isUpd : newAssign place
      (newBinary .add (.var (newTemp old (valueType place.ty))) (.num delta)) = some upd) :
    incdec uid old lval delta true = some (afterSetup setup (newBinary .comma save
      (newBinary .comma upd (.var (newTemp old (valueType place.ty)))))) := by
  rw [incdec, isL, isPlace]
  show (newAssign (.var (newTemp old (valueType place.ty))) place).bind (fun save =>
    (newAssign place (newBinary .add (.var (newTemp old (valueType place.ty))) (.num delta))).bind
      fun upd => some (afterSetup setup (newBinary .comma save
        (newBinary .comma upd (.var (newTemp old (valueType place.ty))))))) = _
  rw [isSave, isUpd]
  rfl

variable (T answers) in
theorem run_sequence {lhs : Expr} (left : isArray lhs.ty = false) (right : isArray rhs.ty = false)
    (w : W) :
    run T answers (newBinary .comma lhs rhs) w =
      (run T answers lhs w).bind fun s => run T answers rhs s.2 := by
  have tree : newBinary .comma lhs rhs = .bin .comma rhs.ty lhs rhs := by
    show Expr.bin .comma (rvalize rhs).ty (rvalize lhs) (rvalize rhs) = _
    rw [rvalize_scalar left, rvalize_scalar right]
  rw [tree, run_comma]

theorem sequence_notArray (lhs : Expr) (right : isArray rhs.ty = false) :
    isArray (newBinary .comma lhs rhs).ty = false := by
  show isArray (rvalize rhs).ty = false
  rw [rvalize_scalar right]
  exact right

def savePlace (old : Obj) (place : Expr) : Expr := .assign (valueType old.ty) (.var old) place

def updatePlace (old : Obj) (place : Expr) (delta : Word) : Expr :=
  .assign (valueType place.ty) place (storedAs place.ty (newBinary .add (.var old) (.num delta)))

/-- The update of a place with its old value in a temporary. -/
theorem run_updatePlace (language : Language T) {t : Temps} {place : Expr} {p : Place}
    (stands : Designates tmps t place p) (scalar : isAgg place.ty = false) {old : Obj}
    (oldTy : old.ty = valueType place.ty) (isOld : old.uid ∈ tmps) (delta : Word) (w : W) :
    run (withTemps T tmps) (beside answers) (updatePlace old place delta) (w, t) =
      aside t ((operate T .add place.ty tyI64 (t old.uid) delta).bind fun z =>
        T.store p (converted T place.ty (operatedTy .add place.ty tyI64) z) w) := by
  have isComp : BinKind.add ∈ comp := List.mem_cons_self
  have oldScalar : isAgg old.ty = false := by
    rw [oldTy]
    exact valueType_isAgg scalar
  have oldNotArray : isArray (Expr.var old).ty = false := notArray_of_scalar oldScalar
  have widens := operate_valueType language scalar
  have sumTy : (newBinary .add (.var old) (.num delta)).ty = operatedTy .add place.ty tyI64 := by
    rw [newBinary_ty .add isComp _ _ oldNotArray]
    show operatedTy .add old.ty tyI64 = _
    rw [oldTy]
    exact (widens 0 0).2
  have sum : run (withTemps T tmps) (beside answers)
      (newBinary .add (.var old) (.num delta)) (w, t) = aside t ((operate T .add place.ty tyI64 (t old.uid) delta).map fun z => (z, w)) := by
    have reads := run_temp T answers isOld oldScalar (w, t)
    have oldVar : (Expr.var old).ty = old.ty := rfl
    have number (m : W × Temps) : run (withTemps T tmps) (beside answers) (rvalize (.num delta)) m =
        some (delta, m) := rfl
    have same : operate (withTemps T tmps) = operate T := rfl
    have sumOf : (operate T .add old.ty tyI64 (t old.uid) delta).map (fun z => (z, w, t)) =
        aside t ((operate T .add place.ty tyI64 (t old.uid) delta).map fun z => (z, w)) := by
      rw [← (widens _ _).1, ← oldTy, aside, Option.map_map]
      rfl
    rw [run_newBinary _ _ .add isComp _ _ oldNotArray, ← sumOf]
    -- the order of a variable and a constant does not show
    split
    · rw [reads, Option.bind_some, number, Option.bind_some, same]
      rfl
    · rw [number, Option.bind_some, reads, Option.bind_some, same]
      rfl
  rw [updatePlace, run_update stands _ _ w sum, sumTy, Option.bind_map]
  rfl

theorem run_post (language : Language T) {t : Temps} {place : Expr} {p : Place} {old : Obj}
    (stands : ∀ x, Designates tmps (fun u => if u = old.uid then x else t u) place p)
    (before : Designates tmps t place p) (scalar : isAgg place.ty = false)
    (oldTy : old.ty = valueType place.ty) (isOld : old.uid ∈ tmps) (delta : Word) (w : W) :
    visible (run (withTemps T tmps) (beside answers) (newBinary .comma (savePlace old place)
      (newBinary .comma (updatePlace old place delta) (.var old))) (w, t)) =
      (T.load p w).bind fun x => (operate T .add place.ty tyI64 x delta).bind fun z =>
        (T.store p (converted T place.ty (operatedTy .add place.ty tyI64) z) w).map fun s =>
          (x, s.2) := by
  have oldScalar : isAgg old.ty = false := by
    rw [oldTy]
    exact valueType_isAgg scalar
  have oldNotArray : isArray (Expr.var old).ty = false := notArray_of_scalar oldScalar
  have saveNotArray : isArray (savePlace old place).ty = false := valueType_decayed old.ty
  have updNotArray : isArray (updatePlace old place delta).ty = false := valueType_decayed place.ty
  rw [run_sequence _ _ saveNotArray (sequence_notArray _ oldNotArray), savePlace,
    run_assignTemp isOld, run_designated T answers before scalar, Option.map_map, Option.bind_map, visible_bind]
  congr 1
  funext x
  have kept : (if old.uid = old.uid then x else t old.uid) = x := if_pos rfl
  rw [Function.comp_apply, run_sequence _ _ updNotArray oldNotArray, Function.comp_apply,
    run_updatePlace language (stands x) scalar oldTy isOld delta w, kept]
  cases operate T .add place.ty tyI64 x delta with
  | none => rfl
  | some z =>
    simp only [Option.bind_some, aside, Option.bind_map]
    cases T.store p (converted T place.ty (operatedTy .add place.ty tyI64) z) w with
    | none => rfl
    | some s =>
      simp only [Option.bind_some, Function.comp_apply, run_temp T answers isOld oldScalar]
      rfl

variable (answers) in
theorem incdec_post_run (language : Language T) {old : Nat} (isTemp : uid ∈ tmps)
    (isOld : old ∈ tmps) (other : uid ≠ old) (steps : Steps T kind delta) {lval : Expr}
    (isL : isLvalue lval = true) (scalar : isAgg lval.ty = false) (avoids : Avoids tmps lval) :
    ∃ lowered, incdec uid old lval delta true = some lowered ∧ ∀ m,
      visible (run (withTemps T tmps) (beside answers) lowered m) =
        stepValue T answers kind true lval m.1 := by
  obtain ⟨setup, isPlace, places⟩ := lvalAddrTemp_places T answers avoids isTemp
  generalize placeOf uid lval = place at isPlace places
  have scalarPlace : isAgg place.ty = false := by
    rw [places.ty]
    exact scalar
  have notArray := notArray_of_scalar scalarPlace
  have oldNotArray : isArray (Expr.var (newTemp old (valueType place.ty))).ty = false :=
    valueType_decayed place.ty
  have sumNotArray : isArray
      (newBinary .add (.var (newTemp old (valueType place.ty))) (.num delta)).ty = false := by
    rw [newBinary_ty .add List.mem_cons_self _ _ oldNotArray]
    exact operatedTy_notArray .add oldNotArray rfl
  have isSave := newAssign_temp (v := newTemp old (valueType place.ty)) rfl notArray
  have isUpd := newAssign_place places.isLvalue notArray sumNotArray
  refine ⟨_, incdec_post isL isPlace isSave isUpd, ?_⟩
  intro m
  have valNotArray := sequence_notArray (savePlace (newTemp old (valueType place.ty)) place)
    (sequence_notArray (updatePlace (newTemp old (valueType place.ty)) place delta) oldNotArray)
  refine (congrArg visible (places.runs _ valNotArray m.1 m.2)).trans ?_
  rw [visible_bind, stepValue, stepped, Option.map_bind]
  apply Option.bind_congr
  intro p isHere
  have after (x : Word) : Designates tmps (fun u => if u = old then x else placed uid m.2 p.1 u)
      place p.1 := places.stands m.1 m.2 p isHere _ (if_neg other)
  have before := places.stands m.1 m.2 p isHere (placed uid m.2 p.1) rfl
  rw [run_post language after before scalarPlace rfl isOld delta p.2, places.ty,
    operatedTy_step steps.1, Function.comp_apply, Option.map_bind]
  simp only [steps.2 lval.ty _ scalar, Function.comp_def, Option.map_bind, Option.map_map]
  rfl

/-! ## The value of the update -/

variable {value : Ty → Word → Word}

variable (T answers) in
theorem locate_ty (lval : Expr) (w : W) : ∀ p ∈ locate T answers lval w, Place.ty p.1 = lval.ty := by
  intro p isHere
  cases lval with
  | var v =>
    cases isHere
    rfl
  | _ =>
    rw [locate_computed fun v => Expr.noConfusion] at isHere
    obtain ⟨s, _, rfl⟩ := Option.map_eq_some_iff.mp isHere
    rfl

theorem updated_assigns (assigns : Assigns T value) {readFirst : Bool} {lval : Expr} {w : W} :
    ∀ u ∈ updated T answers readFirst kind lval rhs w, u.2.1 = value lval.ty u.1 := by
  intro u isUpdate
  obtain ⟨p, isHere, isRest⟩ := Option.bind_eq_some_iff.mp isUpdate
  obtain ⟨z, _, isStore⟩ := Option.bind_eq_some_iff.mp isRest
  obtain ⟨s, stores, rfl⟩ := Option.map_eq_some_iff.mp isStore
  have ty := locate_ty T answers lval w p isHere
  exact (assigns _ _ _ s stores).trans (congrArg (fun ty => value ty _) ty)

theorem stepped_assigns (assigns : Assigns T value) {lval : Expr} {w : W} :
    ∀ u ∈ stepped T answers kind lval w, u.2.2.1 = value lval.ty u.2.1 := by
  intro u isUpdate
  obtain ⟨p, isHere, isRest⟩ := Option.bind_eq_some_iff.mp isUpdate
  obtain ⟨x, _, isRest⟩ := Option.bind_eq_some_iff.mp isRest
  obtain ⟨z, _, isStore⟩ := Option.bind_eq_some_iff.mp isRest
  obtain ⟨s, stores, rfl⟩ := Option.map_eq_some_iff.mp isStore
  have ty := locate_ty T answers lval w p isHere
  exact (assigns _ _ _ s stores).trans (congrArg (fun ty => value ty _) ty)

/-- What is given back is what was given just where the store keeps it. -/
theorem given_iff {A : Type} {given back : A → Word} {rest : A → W} {ty : Ty} {o : Option A}
    (assigned : ∀ u ∈ o, back u = value ty (given u)) :
    o.map (fun u => (back u, rest u)) = o.map (fun u => (given u, rest u)) ↔
      ∀ u ∈ o, value ty (given u) = given u := by
  cases o with
  | none => simp
  | some u =>
    have isBack := assigned u rfl
    simp [isBack]

end

/-- The lowered trees of `lval OP= rhs`, `++` and `--` find the lvalue, read its old value
and evaluate the right side once each, and store what the plain operation gives. They have the
value from before the store just where the assignment keeps it, and the old value always. The old
value and the right side come in the same order for two lvalues just where the target has the same
order for the two nodes. -/
theorem updates_once {W : Type} {T : Target W} (language : Language T)
    {value : Ty → Word → Word} (assigns : Assigns T value) (answers : Answers W)
    {uid old : Nat} (other : uid ≠ old) {lval : Expr} (isL : isLvalue lval = true)
    (scalar : isAgg lval.ty = false) (avoids : Avoids [uid, old] lval) :
    (∀ kind ∈ comp, ∀ rhs, Avoids [uid, old] rhs →
      ∃ lowered, compoundAssign uid kind lval rhs = some lowered ∧ ∀ m,
        (visible (run (withTemps T [uid, old]) (beside answers) lowered m) =
            compoundValue T answers (readsFirst T kind (placeOf uid lval) rhs) kind lval rhs m.1 ↔
          ∀ u ∈ updated T answers (readsFirst T kind (placeOf uid lval) rhs) kind lval rhs m.1,
            value lval.ty u.1 = u.1)) ∧
    (∀ kind delta, (kind, delta) ∈ [(BinKind.add, (1 : Word)), (.sub, -1)] →
      (∃ lowered, incdec uid old lval delta false = some lowered ∧ ∀ m,
        (visible (run (withTemps T [uid, old]) (beside answers) lowered m) =
            stepValue T answers kind false lval m.1 ↔
          ∀ u ∈ stepped T answers kind lval m.1, value lval.ty u.2.1 = u.2.1)) ∧
      ∃ lowered, incdec uid old lval delta true = some lowered ∧ ∀ m,
        visible (run (withTemps T [uid, old]) (beside answers) lowered m) =
          stepValue T answers kind true lval m.1) ∧
    ∀ (kind : BinKind) (rhs lval' : Expr), lval'.ty = lval.ty →
      (readsFirst T kind (placeOf uid lval') rhs = readsFirst T kind (placeOf uid lval) rhs ↔
        T.leftFirst (newBinary kind (placeOf uid lval') rhs) =
          T.leftFirst (newBinary kind (placeOf uid lval) rhs)) := by
  have isTemp : uid ∈ [uid, old] := List.mem_cons_self
  have isOld : old ∈ [uid, old] := List.mem_cons_of_mem uid List.mem_cons_self
  have both {kind : BinKind} {delta : Word} (steps : Steps T kind delta) :
      (∃ lowered, incdec uid old lval delta false = some lowered ∧ ∀ m,
        (visible (run (withTemps T [uid, old]) (beside answers) lowered m) =
            stepValue T answers kind false lval m.1 ↔
          ∀ u ∈ stepped T answers kind lval m.1, value lval.ty u.2.1 = u.2.1)) ∧
      ∃ lowered, incdec uid old lval delta true = some lowered ∧ ∀ m,
        visible (run (withTemps T [uid, old]) (beside answers) lowered m) =
          stepValue T answers kind true lval m.1 := by
    constructor
    · obtain ⟨lowered, isLowered, runs⟩ := incdec_pre_run answers old isTemp steps isL scalar avoids
      refine ⟨lowered, isLowered, fun m => ?_⟩
      rw [runs]
      exact given_iff (stepped_assigns assigns)
    · exact incdec_post_run answers language isTemp isOld other steps isL scalar avoids
  refine ⟨?_, ?_, ?_⟩
  · intro kind isComp rhs avoidsR
    obtain ⟨lowered, isLowered, runs⟩ := compoundAssign_run answers isTemp isComp isL scalar avoids
      avoidsR
    refine ⟨lowered, isLowered, fun m => ?_⟩
    rw [runs]
    exact given_iff (updated_assigns assigns)
  · intro kind delta isStep
    simp only [List.mem_cons, Prod.mk.injEq, List.not_mem_nil, or_false] at isStep
    rcases isStep with ⟨rfl, rfl⟩ | ⟨rfl, rfl⟩
    · exact both (steps_up T)
    · exact both (steps_down language)
  · intro kind rhs lval' sameTy
    have placeTy (lval : Expr) : (placeOf uid lval).ty = lval.ty := by
      cases lval with
      | _ => rfl
    rw [readsFirst, readsFirst, placeTy, placeTy, sameTy]
    exact Bool.bne_left_inj

namespace Narrow

open Eval.Plain

/-- Assignments as C code has them. -/
def target : Target Plain :=
  { Plain.target with
    store := fun p x m =>
      some (narrowed (Place.ty p) x, m.write (Plain.place p) (narrowed (Place.ty p) x)) }

theorem target_language : Language target where
  left kind ty l r x y := rfl
  cast to' bitCast l x := rfl
  minus ty l x := by
    show some (x + -1) = some (x - 1)
    rw [BitVec.sub_eq_add_neg]
  minusF64 x := by
    show some (x + -1) = some (x - 1)
    rw [BitVec.sub_eq_add_neg]

theorem target_assigns : Assigns target narrowed := by
  intro place x w s stores
  cases stores
  rfl

def lval : Expr := .deref tyU8 (.call (.ptr tyU8) "next" .noArg 0)

/-- `next` returns the address of `z` and counts its calls on the console. -/
def answers : Answers Plain := fun _ _ m => some (1, { m with console := m.console ++ [1] })

theorem avoids : Avoids [2, 3] lval := trivial

theorem updates_once_call :
    ∃ lowered, compoundAssign 2 .add lval (.num 10) = some lowered ∧ ∀ m,
      (visible (run (withTemps target [2, 3]) (beside answers) lowered m) =
          compoundValue target answers true .add lval (.num 10) m.1 ↔
        ∀ u ∈ updated target answers true .add lval (.num 10) m.1, narrowed tyU8 u.1 = u.1) :=
  (updates_once target_language target_assigns answers (by decide) rfl rfl
    (avoids : Avoids [2, 3] lval)).1 .add (by decide) (.num 10) trivial

def z : Obj := { uid := 1, name := "z", ty := tyU8 }

/-- `z += 10` of a `U8` that is 250 is 260, and C code has 4. -/
theorem compound_truncated :
    (compoundAssign 2 .add (.var z) (.num 10)).bind (fun lowered =>
      (visible (run (withTemps target [2]) (beside answers) lowered
        ({ cells := [(1, 250)] }, fun _ => 0))).map Prod.fst) = some 4 ∧
    (compoundValue target answers (readsFirst target .add (.var z) (.num 10)) .add (.var z) (.num 10)
      { cells := [(1, 250)] }).map Prod.fst = some 260 := by
  decide

end Narrow

end Aholyc.Parse
