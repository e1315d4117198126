import Aholyc.Effects
import Aholyc.Lib.Comp

/-!
# Evaluation of expressions

Which parts of an expression are evaluated, in which order, and which calls
they make, as the emitters write it out (`emit_val` and `emit_addr` of
`src/back_c.c` and `src/back_ll.c`). What the operators, the loads and the
stores compute differs between targets, and so do the order of two operands
and what the world outside the program does: `Target` has one field for each.
-/

namespace Aholyc.Eval

open Aholyc.Lib Aholyc.Effects

inductive Callee where
  | name (func : String)
  | ptr (addr : Word)

/-- What a load or a store names: a variable, or a cell at an address. -/
inductive Place where
  | obj (v : Obj)
  | cell (ty : Ty) (addr : Word)

/-- How a function outside the program answers a call. -/
inductive External (M : Type) where
  | ret (v : Word) (m : M)
  /-- It called `throw`, which has stored the exception. -/
  | raise (m : M)
  | exit (m : M)

/-- A target with memory `M`. The memory holds everything a run can observe:
variables, the heap, the console, the task record of `__hc_fs`. -/
structure Target (M : Type) where
  /-- The order of the two operands of a node. LLVM code fixes it; C leaves it to its
  compiler, node by node. -/
  leftFirst : Expr → Bool
  strAddr : Nat → Word
  funcAddr : String → Word
  addrOf : Obj → M → Word
  load : Place → M → Option Word
  /-- The value of the assignment and the memory after it. -/
  store : Place → Word → M → Option (Word × M)
  bin : BinKind → Ty → Ty → Ty → Word → Word → Option Word
  un : UnKind → Ty → Ty → Word → Option Word
  cast : Ty → Bool → Ty → Word → Word
  truth : Ty → Word → Bool
  /-- A fresh frame: the parameters with the arguments, the locals zeroed. -/
  enter : List Obj → List Obj → List Word → M → M
  leave : M → M
  /-- Whether a local variable of the running function has changed from the first memory to
  the second. -/
  moved : M → M → Bool
  exceptCh : M → Word
  catchExcept : M → Word
  /-- `except_ch = ch; catch_except = 0`. -/
  setExcept : Word → M → M
  setExcept_same : ∀ m, catchExcept m = 0 → setExcept (exceptCh m) m = m
  /-- The memory after an assembly block, and whether the block raised. -/
  asm : AsmBlock → M → M × Bool
  /-- The program function at an address. -/
  resolve : Word → Option String
  ext : String → List Word → M → External M
  foreign : Word → List Word → M → External M

variable {M : Type}

def ofOption {A : Type} (m : M) : Option A → Comp Callee Word M A
  | some a => .done a m
  | none => .stuck m

mutual

def val (T : Target M) : Expr → M → Comp Callee Word M Word
  | .num ival, m => .done ival m
  | .fnum fval, m => .done fval m
  | .str strId, m => .done (T.strAddr strId) m
  | .var v, m => if isAgg v.ty then .done (T.addrOf v m) m else ofOption m (T.load (.obj v) m)
  | .funcname _ func, m => .done (T.funcAddr func) m
  | .bin kind ty lhs rhs, m =>
      match kind with
      | .comma => (val T lhs m).bind fun _ m => val T rhs m
      | .logand =>
          (val T lhs m).bind fun x m =>
            if T.truth lhs.ty x then
              (val T rhs m).bind fun y m => .done (if T.truth rhs.ty y then 1 else 0) m
            else .done 0 m
      | .logor =>
          (val T lhs m).bind fun x m =>
            if T.truth lhs.ty x then .done 1 m
            else (val T rhs m).bind fun y m => .done (if T.truth rhs.ty y then 1 else 0) m
      | kind =>
          (Comp.both (T.leftFirst (.bin kind ty lhs rhs)) (val T lhs) (val T rhs) m).bind
            fun xy m => ofOption m (T.bin kind ty lhs.ty rhs.ty xy.1 xy.2)
  | .un kind ty lhs, m => (val T lhs m).bind fun x m => ofOption m (T.un kind ty lhs.ty x)
  | .assign _ (.var v) rhs, m =>
      (val T rhs m).bind fun x m =>
        match T.store (.obj v) x m with
        | some (y, m') => .done y m'
        | none => .stuck m
  | .assign ty lhs rhs, m =>
      (Comp.both (T.leftFirst (.assign ty lhs rhs)) (addr T lhs) (val T rhs) m).bind fun ax m =>
        match T.store (.cell lhs.ty ax.1) ax.2 m with
        | some (y, m') => .done y m'
        | none => .stuck m
  | .member ty offset lhs, m =>
      (addr T lhs m).bind fun a m =>
        let a := a + BitVec.ofNat 64 offset
        if isAgg ty then .done a m else ofOption m (T.load (.cell ty a) m)
  | .deref ty lhs, m =>
      (val T lhs m).bind fun a m =>
        if isAgg ty then .done a m else ofOption m (T.load (.cell ty a) m)
  | .addr _ lhs, m => addr T lhs m
  | .call _ func as _, m =>
      (args T as m).bind fun vs m => .call (.name func) vs m .done
  | .callInd ty lhs as nfixed, m =>
      (Comp.both (T.leftFirst (.callInd ty lhs as nfixed)) (val T lhs) (args T as) m).bind
        fun pvs m => .call (.ptr pvs.1) pvs.2 m .done
  | .cast ty bitCast lhs, m =>
      (val T lhs m).bind fun x m => .done (T.cast ty bitCast lhs.ty x) m
  | .nop, m => .done 0 m
  | .arg _ _, m => .stuck m
  | .noArg, m => .stuck m

def addr (T : Target M) : Expr → M → Comp Callee Word M Word
  | .var v, m => .done (T.addrOf v m) m
  | .deref _ lhs, m => val T lhs m
  | .member _ offset lhs, m =>
      (addr T lhs m).bind fun a m => .done (a + BitVec.ofNat 64 offset) m
  | _, m => .stuck m

def args (T : Target M) : Expr → M → Comp Callee Word M (List Word)
  | .arg a next, m =>
      (Comp.both (T.leftFirst (.arg a next)) (val T a) (args T next) m).bind
        fun xs m => .done (xs.1 :: xs.2) m
  | _, m => .done [] m

end

def truth (T : Target M) (e : Expr) (m : M) : Comp Callee Word M Bool :=
  (val T e m).bind fun x m => .done (T.truth e.ty x) m

/-- `emit_val(call->args)` of a local throw: the first argument, or zero. -/
def firstArg (T : Target M) : Expr → M → Comp Callee Word M Word
  | .arg a _, m => val T a m
  | _, m => .done 0 m

inductive Target.Site where
  | defined (fn : Func) (body : Stmt)
  | declared (fn : Func)
  | foreign (addr : Word)
  | unknown

def lookup (prog : Program) (func : String) : Target.Site :=
  match prog.findFunc func with
  | some fn =>
      match fn.body with
      | some body => .defined fn body
      | none => .declared fn
  | none => .unknown

variable {fn : Func}

section Lookup

variable {prog : Program}

variable {f : String}

theorem findFunc_some (found : prog.findFunc f = some fn) : fn ∈ prog.funcs ∧ fn.name = f := by
  refine ⟨List.mem_of_find?_eq_some found, ?_⟩
  simpa using List.find?_some found

theorem findFunc_of_mem (member : fn ∈ prog.funcs) : prog.findFunc fn.name = some fn := by
  have isSome : (prog.findFunc fn.name).isSome = true := by
    rw [Program.findFunc, List.find?_isSome]
    exact ⟨fn, member, by simp⟩
  obtain ⟨other, found⟩ := Option.isSome_iff_exists.mp isSome
  obtain ⟨there, same⟩ := findFunc_some found
  rw [found, List.inj_on_of_nodup_map prog.distinct there member same]

theorem lookup_defined {body : Stmt} (found : lookup prog f = .defined fn body) :
    fn ∈ prog.funcs ∧ fn.name = f ∧ fn.body = some body := by
  unfold lookup at found
  cases named : prog.findFunc f with
  | none => simp [named] at found
  | some fn' =>
    obtain ⟨member, name⟩ := findFunc_some named
    cases defined : fn'.body with
    | none => simp [named, defined] at found
    | some body' =>
      simp only [named, defined, Target.Site.defined.injEq] at found
      obtain ⟨rfl, rfl⟩ := found
      exact ⟨member, name, defined⟩

theorem lookup_declared (found : lookup prog f = .declared fn) :
    fn ∈ prog.funcs ∧ fn.name = f ∧ fn.body = none := by
  unfold lookup at found
  cases named : prog.findFunc f with
  | none => simp [named] at found
  | some fn' =>
    obtain ⟨member, name⟩ := findFunc_some named
    cases defined : fn'.body with
    | some body' => simp [named, defined] at found
    | none =>
      simp only [named, defined, Target.Site.declared.injEq] at found
      obtain rfl := found
      exact ⟨member, name, defined⟩

end Lookup

theorem lookup_ne_foreign (prog : Program) (func : String) (a : Word) :
    lookup prog func ≠ .foreign a := by
  unfold lookup
  split
  · split <;> exact fun h => by cases h
  · exact fun h => by cases h

def dispatch (T : Target M) (prog : Program) : Callee → Target.Site
  | .name func => lookup prog func
  | .ptr a =>
      match T.resolve a with
      | some func => lookup prog func
      | none => .foreign a

theorem dispatch_defined {T : Target M} {prog : Program} {f : Callee} {body : Stmt}
    (site : dispatch T prog f = .defined fn body) : fn ∈ prog.funcs ∧ fn.body = some body := by
  have found : ∃ name, lookup prog name = .defined fn body := by
    cases f with
    | name func => exact ⟨func, site⟩
    | ptr a =>
      unfold dispatch at site
      cases resolved : T.resolve a with
      | none => simp [resolved] at site
      | some func => exact ⟨func, by simpa [resolved] using site⟩
  obtain ⟨name, found⟩ := found
  obtain ⟨member, -, defined⟩ := lookup_defined found
  exact ⟨member, defined⟩

def Raises (canThrow : String → Bool) : Callee → Prop
  | .name func => isThrow func = true ∨ canThrow func = true
  | .ptr _ => True

section Calls

variable (canThrow : String → Bool) (T : Target M)

/-- The calls of an expression that can raise are in its effect. -/
abbrev Covered {A : Type} (e : Effect) (c : Comp Callee Word M A) : Prop :=
  c.CallsIn fun f => Raises canThrow f → e.call = true

variable {canThrow}

omit T in
theorem Covered.mono {A : Type} {d e : Effect} {c : Comp Callee Word M A} (below : d.Le e)
    (covered : Covered canThrow d c) : Covered canThrow e c :=
  Comp.CallsIn.mono
    (fun f (inside : Raises canThrow f → d.call = true) raises => below.2 (inside raises)) covered

omit T in
theorem covered_ofOption {A : Type} (e : Effect) (m : M) (o : Option A) :
    Covered canThrow e (ofOption m o) := by
  cases o <;> trivial

theorem covered (e : Expr) :
    (∀ m, Covered canThrow (exprEffect canThrow e) (val T e m)) ∧
    (∀ m, Covered canThrow (exprEffect canThrow e) (addr T e m)) ∧
    (∀ m, Covered canThrow (exprEffect canThrow e) (args T e m)) := by
  induction e with
  | num _ => exact ⟨fun _ => trivial, fun _ => trivial, fun _ => trivial⟩
  | fnum _ => exact ⟨fun _ => trivial, fun _ => trivial, fun _ => trivial⟩
  | str _ => exact ⟨fun _ => trivial, fun _ => trivial, fun _ => trivial⟩
  | funcname _ _ => exact ⟨fun _ => trivial, fun _ => trivial, fun _ => trivial⟩
  | nop => exact ⟨fun _ => trivial, fun _ => trivial, fun _ => trivial⟩
  | noArg => exact ⟨fun _ => trivial, fun _ => trivial, fun _ => trivial⟩
  | var v =>
    refine ⟨fun m => ?_, fun _ => trivial, fun _ => trivial⟩
    simp only [val]
    split
    · trivial
    · exact covered_ofOption _ _ _
  | bin kind ty lhs rhs ihl ihr =>
    refine ⟨fun m => ?_, fun _ => trivial, fun _ => trivial⟩
    have right : ∀ m, Covered canThrow (exprEffect canThrow (.bin kind ty lhs rhs)) (val T rhs m) :=
      fun m => (ihr.1 m).mono (Effect.le_or_right _ _)
    have left : ∀ m, Covered canThrow (exprEffect canThrow (.bin kind ty lhs rhs)) (val T lhs m) :=
      fun m => (ihl.1 m).mono (Effect.le_or_left _ _)
    cases kind with
    | comma => exact Comp.CallsIn.bind (left m) fun _ m => right m
    | logand =>
      refine Comp.CallsIn.bind (left m) fun x m => ?_
      split
      · exact Comp.CallsIn.bind (right m) fun _ _ => trivial
      · trivial
    | logor =>
      refine Comp.CallsIn.bind (left m) fun x m => ?_
      split
      · trivial
      · exact Comp.CallsIn.bind (right m) fun _ _ => trivial
    | _ => exact (Comp.CallsIn.both _ left right m).bind fun _ _ => covered_ofOption _ _ _
  | un kind ty lhs ih =>
    refine ⟨fun m => ?_, fun _ => trivial, fun _ => trivial⟩
    exact Comp.CallsIn.bind (ih.1 m) fun _ _ => covered_ofOption _ _ _
  | assign ty lhs rhs ihl ihr =>
    refine ⟨fun m => ?_, fun _ => trivial, fun _ => trivial⟩
    have right := fun m => (ihr.1 m).mono (Effect.le_or_right (exprEffect canThrow lhs) _)
    have left := fun m => (ihl.2.1 m).mono (Effect.le_or_left _ (exprEffect canThrow rhs))
    cases lhs with
    | var v =>
      refine Comp.CallsIn.bind (right m) fun x m => ?_
      split <;> trivial
    | _ =>
      refine Comp.CallsIn.bind (Comp.CallsIn.both _ left right m) fun ax m => ?_
      split <;> trivial
  | member ty offset lhs ih =>
    refine ⟨fun m => ?_, fun m => ?_, fun _ => trivial⟩
    · refine Comp.CallsIn.bind (ih.2.1 m) fun a m => ?_
      simp only
      split
      · trivial
      · exact covered_ofOption _ _ _
    · exact Comp.CallsIn.bind (ih.2.1 m) fun _ _ => trivial
  | deref ty lhs ih =>
    refine ⟨fun m => ?_, fun m => ih.1 m, fun _ => trivial⟩
    refine Comp.CallsIn.bind (ih.1 m) fun a m => ?_
    split
    · trivial
    · exact covered_ofOption _ _ _
  | addr ty lhs ih => exact ⟨fun m => ih.2.1 m, fun _ => trivial, fun _ => trivial⟩
  | call ty func as nfixed ih =>
    refine ⟨fun m => ?_, fun _ => trivial, fun _ => trivial⟩
    refine Comp.CallsIn.bind ((ih.2.2 m).mono (Effect.le_or_left _ _)) fun vs m => ?_
    refine ⟨fun raises => ?_, fun _ _ => trivial⟩
    simp only [exprEffect, Effect.or_call, Bool.or_eq_true]
    exact .inr raises
  | callInd ty lhs as nfixed ihl iha =>
    refine ⟨fun m => ?_, fun _ => trivial, fun _ => trivial⟩
    have left := (Effect.le_or_left (exprEffect canThrow lhs) (exprEffect canThrow as)).trans
      (Effect.le_or_left _ Effect.eCall)
    have right := (Effect.le_or_right (exprEffect canThrow lhs) (exprEffect canThrow as)).trans
      (Effect.le_or_left _ Effect.eCall)
    refine Comp.CallsIn.bind (Comp.CallsIn.both _ (fun m => (ihl.1 m).mono left)
      (fun m => (iha.2.2 m).mono right) m) fun pvs m => ?_
    refine ⟨fun _ => ?_, fun _ _ => trivial⟩
    simp [exprEffect, Effect.eCall]
  | cast ty bitCast lhs ih =>
    refine ⟨fun m => ?_, fun _ => trivial, fun _ => trivial⟩
    exact Comp.CallsIn.bind (ih.1 m) fun _ _ => trivial
  | arg a next iha ihn =>
    refine ⟨fun _ => trivial, fun _ => trivial, fun m => ?_⟩
    exact (Comp.CallsIn.both _ (fun m => (iha.1 m).mono (Effect.le_or_left _ _))
      (fun m => (ihn.2.2 m).mono (Effect.le_or_right _ _)) m).bind fun _ _ => trivial

theorem covered_truth (e : Expr) (m : M) :
    Covered canThrow (exprEffect canThrow e) (truth T e m) :=
  Comp.CallsIn.bind ((covered T e).1 m) fun _ _ => trivial

theorem covered_firstArg (as : Expr) (m : M) :
    Covered canThrow (exprEffect canThrow as) (firstArg T as m) := by
  cases as with
  | arg a next => exact ((covered T a).1 m).mono (Effect.le_or_left _ _)
  | _ => trivial

end Calls

/-- A small machine to run trees on: integer variables, a console, and the
task record. -/
structure Plain where
  exceptCh : Word := 0
  catchExcept : Word := 0
  cells : List (Nat × Word) := []
  console : List Word := []
  deriving DecidableEq, Repr

namespace Plain

def read (m : Plain) (uid : Nat) : Word := (m.cells.lookup uid).getD 0

def write (m : Plain) (uid : Nat) (v : Word) : Plain := { m with cells := (uid, v) :: m.cells }

def bin : BinKind → Word → Word → Option Word
  | .add, x, y => some (x + y)
  | .sub, x, y => some (x - y)
  | .mul, x, y => some (x * y)
  | .eq, x, y => some (if x = y then 1 else 0)
  | .ne, x, y => some (if x = y then 0 else 1)
  | .lt, x, y => some (if x.slt y then 1 else 0)
  | .le, x, y => some (if x.sle y then 1 else 0)
  | _, _, _ => none

def ext : String → List Word → Plain → External Plain
  | "PutExcept", [x], m => .ret 0 { m with catchExcept := x }
  | "PutChars", [x], m => .ret 0 { m with console := m.console ++ [x] }
  | _, _, m => .ret 0 m

def place : Place → Nat
  | .obj v => v.uid
  | .cell _ a => a.toNat

/-- The order of LLVM code. -/
def leftFirst : Expr → Bool
  | .assign .. => false
  | _ => true

def target : Target Plain where
  leftFirst := leftFirst
  strAddr _ := 0
  funcAddr _ := 0
  addrOf v _ := BitVec.ofNat 64 v.uid
  load p m := some (m.read (place p))
  store p v m := some (v, m.write (place p) v)
  bin kind _ _ _ := bin kind
  un _ _ _ _ := none
  cast _ _ _ x := x
  truth _ x := x != 0
  enter params _ as m := (params.zip as).foldl (fun m (p, v) => m.write p.uid v) m
  leave m := m
  moved m m' := m.cells != m'.cells
  exceptCh m := m.exceptCh
  catchExcept m := m.catchExcept
  setExcept ch m := { m with exceptCh := ch, catchExcept := 0 }
  setExcept_same m clear := by
    cases m
    simp only at clear
    simp [clear]
  asm _ m := (m, false)
  resolve _ := none
  ext := ext
  foreign _ _ m := .ret 0 m

theorem ext_quiet (f : String) (as : List Word) (m m' : Plain) : ext f as m ≠ .raise m' := by
  unfold ext
  split <;> exact fun h => by cases h

/-- The declarations of `runtime/prelude.hc` that the examples use. -/
def prelude : List Func :=
  ["throw", "PutExcept", "PutChars"].map fun name =>
    { name := name, ret := .void, isExtern := true, fromPrelude := true }

def callStmt (func : String) (value : Word) : Stmt :=
  .exprStmt (.call .void func (.arg (.num value) .noArg) 1)

end Plain

end Aholyc.Eval
