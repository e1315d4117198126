import Mathlib.Data.List.Nodup
import Mathlib.Data.BitVec

/-!
# The lowered tree

The types, objects and nodes that the parser hands to the effect analysis and
to the backends (`src/aholyc.h`). Expression nodes and statement nodes have a
type each. A `next` chain is a chain here too: `arg`/`noArg` for call
arguments, `seq`/`null` for statement lists, where `null` is also the absent
`els`, `init` or `inc` of its owner. Declaration hints (`@bits`, `@align`,
`@nonnull`, `@inline`) are not modelled.
-/

namespace Aholyc

abbrev Word := BitVec 64

inductive IntSize where
  | one | two | four | eight
  deriving DecidableEq, Repr

def IntSize.bytes : IntSize → Nat
  | .one => 1
  | .two => 2
  | .four => 4
  | .eight => 8

inductive Ty where
  | void
  | int (size : IntSize) (isUnsigned : Bool)
  | f64
  | ptr (base : Ty)
  | array (base : Ty) (len : Nat)
  | cls (name : String)
  | func (ret : Ty) (params : List Ty) (isVariadic isHolycVariadic : Bool)

def tyI64 : Ty := .int .eight false
def tyU64 : Ty := .int .eight true
def tyU8 : Ty := .int .one true

abbrev ClassSizes := String → Nat

def Ty.size (classes : ClassSizes) : Ty → Nat
  | .void => 0
  | .int size _ => size.bytes
  | .f64 => 8
  | .ptr _ => 8
  | .array base len => base.size classes * len
  | .cls name => classes name
  | .func .. => 8

def Ty.isF64 : Ty → Bool
  | .f64 => true
  | _ => false

def Ty.isVoid : Ty → Bool
  | .void => true
  | _ => false

def Ty.isClass : Ty → Bool
  | .cls _ => true
  | _ => false

def isAgg : Ty → Bool
  | .cls _ => true
  | .array .. => true
  | _ => false

def isPtr : Ty → Bool
  | .ptr _ => true
  | .array .. => true
  | _ => false

def valueUnsig : Ty → Bool
  | .int _ isUnsigned => isUnsigned
  | _ => false

/-- A variable. Two references to one `Obj` of the source have the same `uid`. -/
structure Obj where
  uid : Nat
  name : String
  ty : Ty
  isGlobal : Bool := false
  isExtern : Bool := false
  isParam : Bool := false
  isPublic : Bool := false
  fromPrelude : Bool := false

inductive BinKind where
  | add | sub | mul | div | mod
  | and | or | xor | shl | shr
  | pow
  | eq | ne | lt | le
  | logand | logor | logxor
  | comma
  deriving DecidableEq, Repr

inductive UnKind where
  | not | bitnot | neg
  deriving DecidableEq, Repr

inductive Expr where
  | num (ival : Word)
  | fnum (fval : Word)
  | str (strId : Nat)
  | var (v : Obj)
  | funcname (ty : Ty) (func : String)
  | bin (kind : BinKind) (ty : Ty) (lhs rhs : Expr)
  | un (kind : UnKind) (ty : Ty) (lhs : Expr)
  | assign (ty : Ty) (lhs rhs : Expr)
  | member (ty : Ty) (offset : Nat) (lhs : Expr)
  | deref (ty : Ty) (lhs : Expr)
  | addr (ty : Ty) (lhs : Expr)
  | call (ty : Ty) (func : String) (args : Expr) (nfixed : Nat)
  | callInd (ty : Ty) (lhs args : Expr) (nfixed : Nat)
  | cast (ty : Ty) (bitCast : Bool) (lhs : Expr)
  | nop
  /-- One argument and the rest of its chain. -/
  | arg (a next : Expr)
  | noArg

def Expr.ty : Expr → Ty
  | .num _ => tyI64
  | .fnum _ => .f64
  | .str _ => .ptr tyU8
  | .var v => v.ty
  | .funcname ty _ => ty
  | .bin _ ty _ _ => ty
  | .un _ ty _ => ty
  | .assign ty _ _ => ty
  | .member ty _ _ => ty
  | .deref ty _ => ty
  | .addr ty _ => ty
  | .call ty _ _ _ => ty
  | .callInd ty _ _ _ => ty
  | .cast ty _ _ => ty
  | .nop => tyI64
  | .arg a _ => a.ty
  | .noArg => .void

/-- The lowering of a `try`, selected by the effect analysis. -/
inductive TryMode where
  /-- `TRY_NONE`: the body cannot throw; the catch is unreachable. -/
  | none
  /-- `TRY_LOCAL`: the body needs only a compiler-generated branch. -/
  | branch
  /-- `TRY_DYNAMIC`: the body can receive an exception from a callee. -/
  | dynamic
  deriving DecidableEq, Repr

structure AsmBlock where
  id : Nat
  deriving DecidableEq, Repr

inductive Stmt where
  | null
  | seq (s next : Stmt)
  | nop
  | exprStmt (e : Expr)
  | block (body : Stmt)
  | ifStmt (cond : Expr) (thn els : Stmt)
  | whileStmt (cond : Expr) (thn : Stmt)
  | doWhile (thn : Stmt) (cond : Expr)
  | forStmt (init : Stmt) (cond : Option Expr) (inc thn : Stmt)
  | returnStmt (lhs : Option Expr)
  | goto (label : String)
  | label (label : String)
  | tryStmt (mode : TryMode) (thn els : Stmt)
  | asmStmt (a : AsmBlock)

namespace Stmt

/-- The labels that a backend places when it lowers a `try` of each mode as
`pick` says: the catch of a `TRY_NONE` is dropped. -/
def keptLabels (pick : TryMode → TryMode) : Stmt → List String
  | seq s next => s.keptLabels pick ++ next.keptLabels pick
  | block body => body.keptLabels pick
  | ifStmt _ thn els => thn.keptLabels pick ++ els.keptLabels pick
  | whileStmt _ thn => thn.keptLabels pick
  | doWhile thn _ => thn.keptLabels pick
  | forStmt init _ inc thn =>
      init.keptLabels pick ++ (thn.keptLabels pick ++ inc.keptLabels pick)
  | label l => [l]
  | tryStmt mode thn els =>
      thn.keptLabels pick ++ (if pick mode = .none then [] else els.keptLabels pick)
  | _ => []

def keeps (pick : TryMode → TryMode) (s : Stmt) (l : String) : Bool :=
  (s.keptLabels pick).contains l

theorem keeps_seq (pick : TryMode → TryMode) (s next : Stmt) :
    (seq s next).keeps pick = fun l => s.keeps pick l || next.keeps pick l := by
  funext l
  simp [keeps, keptLabels]

theorem keeps_if (pick : TryMode → TryMode) (cond : Expr) (thn els : Stmt) :
    (ifStmt cond thn els).keeps pick = fun l => thn.keeps pick l || els.keeps pick l :=
  keeps_seq pick thn els

theorem keeps_for (pick : TryMode → TryMode) (init : Stmt) (cond : Option Expr)
    (inc thn : Stmt) :
    (forStmt init cond inc thn).keeps pick =
      fun l => init.keeps pick l || (seq thn inc).keeps pick l :=
  keeps_seq pick init (seq thn inc)

theorem keeps_try (pick : TryMode → TryMode) (mode : TryMode) (thn els : Stmt) (l : String) :
    (tryStmt mode thn els).keeps pick l =
      (thn.keeps pick l || (decide (pick mode ≠ .none) && els.keeps pick l)) := by
  cases picked : pick mode <;> simp [keeps, keptLabels, picked]

end Stmt

structure Func where
  name : String
  ret : Ty
  params : List Obj := []
  isVariadic : Bool := false
  isExtern : Bool := false
  fromPrelude : Bool := false
  isPublic : Bool := false
  body : Option Stmt := none
  locals : List Obj := []

/-- A parsed program. Functions are found by name, so no name occurs twice;
the synthetic startup function is not in the list. -/
structure Program where
  funcs : List Func
  globals : List Obj
  startup : Func
  distinct : (funcs.map Func.name).Nodup

def Program.findFunc (prog : Program) (name : String) : Option Func :=
  prog.funcs.find? fun f => f.name == name

end Aholyc
