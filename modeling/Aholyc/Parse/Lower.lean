import Aholyc.Ast

/-!
# The nodes the parser builds (src/parse.c)

The constructors of typed nodes and the lowering of operators that the backends
do not know: chained comparisons, compound assignments, `++` and `--`, subscripts
and views. A temporary is known by the value of `uid_counter` it is made at, so
the functions that make one take that number. `none` is an error at a token.
-/

namespace Aholyc.Parse

def valueType : Ty → Ty
  | .int _ isUnsigned => if isUnsigned then tyU64 else tyI64
  | .array base _ => .ptr base
  | ty => ty

def rvalize (n : Expr) : Expr :=
  match n.ty with
  | .array base _ => .addr (.ptr base) n
  | _ => n

def toF64 (n : Expr) : Expr := if n.ty.isF64 then n else .cast .f64 false n

def toInt (n : Expr) : Expr := if n.ty.isF64 then .cast tyI64 false n else n

def toBool (n : Expr) : Expr := if n.ty.isF64 then .bin .ne tyI64 n (.fnum 0) else n

def intType (lhs rhs : Expr) : Ty :=
  if valueUnsig lhs.ty || valueUnsig rhs.ty then tyU64 else tyI64

def numeric (kind : BinKind) (lhs rhs : Expr) : Expr :=
  if lhs.ty.isF64 || rhs.ty.isF64 then .bin kind .f64 (toF64 lhs) (toF64 rhs)
  else .bin kind (intType lhs rhs) lhs rhs

def additive (kind : BinKind) (lhs rhs : Expr) : Expr :=
  if isPtr lhs.ty && isPtr rhs.ty then .bin kind tyI64 lhs rhs
  else if isPtr rhs.ty then .bin kind rhs.ty rhs (toInt lhs)
  else if isPtr lhs.ty then .bin kind lhs.ty lhs (toInt rhs)
  else numeric kind lhs rhs

def integral (kind : BinKind) (lhs rhs : Expr) : Expr :=
  .bin kind (intType (toInt lhs) (toInt rhs)) (toInt lhs) (toInt rhs)

def comparison (kind : BinKind) (lhs rhs : Expr) : Expr :=
  if lhs.ty.isF64 || rhs.ty.isF64 then .bin kind tyI64 (toF64 lhs) (toF64 rhs)
  else .bin kind tyI64 lhs rhs

def newBinary (kind : BinKind) (lhs rhs : Expr) : Expr :=
  let lhs := rvalize lhs
  let rhs := rvalize rhs
  match kind with
  | .add | .sub => additive kind lhs rhs
  | .mul | .div => numeric kind lhs rhs
  | .mod | .and | .or | .xor | .shl | .shr => integral kind lhs rhs
  | .pow => .bin kind .f64 (toF64 lhs) (toF64 rhs)
  | .eq | .ne | .lt | .le => comparison kind lhs rhs
  | .logand | .logor | .logxor => .bin kind tyI64 (toBool lhs) (toBool rhs)
  | .comma => .bin kind rhs.ty lhs rhs

def isLvalue : Expr → Bool
  | .var _ => true
  | .deref .. => true
  | .member .. => true
  | _ => false

def isArray : Ty → Bool
  | .array .. => true
  | _ => false

def isInteger : Ty → Bool
  | .int .. => true
  | _ => false

def storedAs (ty : Ty) (rhs : Expr) : Expr :=
  if ty.isF64 && !rhs.ty.isF64 then .cast .f64 false rhs
  else if isInteger ty && rhs.ty.isF64 then .cast tyI64 false rhs
  else rhs

def newAssign (lhs rhs : Expr) : Option Expr :=
  if !isLvalue lhs then none
  else if isArray lhs.ty then none
  else some (.assign (valueType lhs.ty) lhs (storedAs lhs.ty (rvalize rhs)))

/-- A temporary, made when `uid_counter` is `uid`; no name of the source finds it. -/
def newTemp (uid : Nat) (ty : Ty) : Obj where
  uid := uid
  name := "tmp" ++ toString uid
  ty := ty

/-! ## Chained comparisons -/

inductive RelOp where
  | lt | le | gt | ge
  deriving DecidableEq, Repr

def RelOp.kind : RelOp → BinKind
  | lt => .lt
  | le => .le
  | gt => .lt
  | ge => .le

def RelOp.swap : RelOp → Bool
  | lt => false
  | le => false
  | gt => true
  | ge => true

/-- An operand of a chain behind its operator, with `uid_counter` as it is when the
operand has been read. -/
structure Link where
  op : RelOp
  operand : Expr
  uid : Nat

def compared (op : RelOp) (n rhs : Expr) : Expr :=
  if op.swap then newBinary op.kind rhs (rvalize n) else newBinary op.kind (rvalize n) rhs

def conjoined (chain : Option Expr) (cmp : Expr) : Expr :=
  match chain with
  | none => cmp
  | some chain => newBinary .logand chain cmp

/-- The loop of `relational`: `n` is the operand before, `chain` the comparisons so far. -/
def relationalLoop : Expr → Option Expr → List Link → Option Expr
  | n, chain, [] => some (chain.getD n)
  | n, chain, link :: rest =>
      let rhs := rvalize link.operand
      if rest.isEmpty then some (conjoined chain (compared link.op n rhs))
      else
        let tmp := newTemp link.uid (valueType rhs.ty)
        match newAssign (.var tmp) rhs with
        | none => none
        | some rhs =>
            relationalLoop (.var tmp) (some (conjoined chain (compared link.op n rhs))) rest

def relational (first : Expr) (rest : List Link) : Option Expr := relationalLoop first none rest

/-! ## Compound assignments -/

def lvalAddrTemp (uid : Nat) (lval : Expr) : Option (Option Expr × Expr) :=
  match lval with
  | .var v => some (none, .var v)
  | lval =>
      let tmp := newTemp uid (.ptr lval.ty)
      match newAssign (.var tmp) (.addr (.ptr lval.ty) lval) with
      | none => none
      | some setup => some (some setup, .deref lval.ty (.var tmp))

def afterSetup (setup : Option Expr) (val : Expr) : Expr :=
  match setup with
  | none => val
  | some setup => newBinary .comma setup val

def compoundAssign (uid : Nat) (kind : BinKind) (lval rhs : Expr) : Option Expr :=
  if !isLvalue lval then none
  else do
    let (setup, place) ← lvalAddrTemp uid lval
    let res ← newAssign place (newBinary kind place rhs)
    return afterSetup setup res

/-- `++` and `--`; the temporary for the old value is made behind the one for the
address. -/
def incdec (uid old : Nat) (lval : Expr) (delta : Word) (post : Bool) : Option Expr :=
  if !isLvalue lval then none
  else do
    let (setup, place) ← lvalAddrTemp uid lval
    let val ←
      if post then do
        let old := newTemp old (valueType place.ty)
        let save ← newAssign (.var old) place
        let upd ← newAssign place (newBinary .add (.var old) (.num delta))
        pure (newBinary .comma save (newBinary .comma upd (.var old)))
      else newAssign place (newBinary .add place (.num delta))
    return afterSetup setup val

end Aholyc.Parse
