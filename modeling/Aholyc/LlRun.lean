import Aholyc.CRun
import Aholyc.LlBackend
import Aholyc.Lib.Machine

/-!
# Running the emitted LLVM code

A machine for the code of `Aholyc.LlBackend`, with a stack of the activations
that wait for a call, over the part of the runtime of `Aholyc.CRun`. A
`longjmp` drops activations until it comes to the one that filled the frame.
-/

namespace Aholyc.LlRun

open Aholyc.Lib Aholyc.Effects Aholyc.Eval Aholyc.Source Aholyc.CRun Aholyc.LlBackend

/-- What an instruction does when its operands are evaluated. -/
inductive Move where
  | fall
  | br (l : LlLabel)
  | ret (v : Word)

variable {M : Type}

/-- The code of an activation, and where it waits for the value of a call. -/
structure Waiting (M : Type) where
  act : Nat
  code : List LlInstr
  pc : Nat
  kont : Word → M → Comp Callee Word M Move

inductive Config (M : Type) where
  | at (act : Nat) (code : List LlInstr) (pc : Nat) (stack : List (Waiting M)) (t : Rt M)
  -- In the operands of an instruction, with the memory in `comp`.
  | busy (act : Nat) (code : List LlInstr) (pc : Nat) (comp : Comp Callee Word M Move)
      (stack : List (Waiting M)) (t : Rt M)
  | returned (v : Word) (stack : List (Waiting M)) (t : Rt M)
  | raised (x : CStop) (stack : List (Waiting M)) (t : Rt M)
  -- The process is over.
  | stopped (x : CStop) (t : Rt M)

def find (code : List LlInstr) (l : LlLabel) : Nat := Code.find LlInstr.placed code l

def arrive (T : Target M) (l : LlLabel) (t : Rt M) : Rt M :=
  match l with
  | .block .catchL _ => t.note (.enter (T.exceptCh t.m))
  | _ => t

def goTo (T : Target M) (act : Nat) (code : List LlInstr) (l : LlLabel) (stack : List (Waiting M))
    (t : Rt M) : Config M :=
  .at act code (find code l) stack (arrive T l t)

def raise (act : Nat) (code : List LlInstr) (pc : Nat) (stack : List (Waiting M)) (t : Rt M) :
    Config M :=
  .raised t.unwind.1 (⟨act, code, pc, fun _ m => .stuck m⟩ :: stack) t.unwind.2

def operands (T : Target M) : LlInstr → Option (M → Comp Callee Word M Move)
  | .eval e => some fun m => (val T e m).bind fun _ m => .done .fall m
  | .condBr cond yes no =>
      some fun m => (truth T cond m).bind fun b m => .done (.br (if b then yes else no)) m
  | .storeExcept as =>
      some fun m => (firstArg T as m).bind fun v m => .done .fall (T.setExcept v m)
  | .ret none => some fun m => .done (.ret 0) m
  | .ret (some e) => some fun m => (val T e m).bind fun v m => .done (.ret v) m
  | _ => none

def execute (T : Target M) (act : Nat) (code : List LlInstr) (pc : Nat) (stack : List (Waiting M))
    (t : Rt M) : LlInstr → Config M
  | .br l => goTo T act code l stack t
  | .setjmp body site =>
      if Rt.tryMax ≤ t.ntry then .stopped .overflow t
      else goTo T act code body stack (t.push ⟨act, site⟩)
  | .tryPop => .at act code (pc + 1) stack t.pop
  | .testExcept uncaught done =>
      if T.catchExcept t.m = 0 then goTo T act code uncaught stack (t.note (.leave true))
      else goTo T act code done stack (t.note (.leave false))
  | .throwAgain => raise act code pc stack (t.setMem (T.setExcept (T.exceptCh t.m) t.m))
  | .asm a =>
      let after := t.setMem (T.asm a t.m).1
      if (T.asm a t.m).2 then raise act code pc stack after else .at act code (pc + 1) stack after
  -- A label is no instruction: the block before it has not ended.
  | .label _ => .stopped .stuck t
  | i =>
      match operands T i with
      | some comp => .busy act code pc (comp t.m) stack t
      | none => .stopped .stuck t

def move (T : Target M) (act : Nat) (code : List LlInstr) (pc : Nat) (stack : List (Waiting M))
    (t : Rt M) : Move → Config M
  | .fall => .at act code (pc + 1) stack t
  | .br l => goTo T act code l stack t
  | .ret v => .returned v stack (t.setMem (T.leave t.m))

def answered (w : Waiting M) (stack : List (Waiting M)) : Answer Word CStop (Rt M) → Config M
  | .ret v t => .busy w.act w.code w.pc (w.kont v t.m) stack t
  | .abort (.unwind f) t => .raised (.unwind f) (w :: stack) t
  | .abort .unhandled t => .raised .unhandled (w :: stack) t
  | .abort x t => .stopped x t
  | .timeout t => .stopped .stuck t

def enter (T : Target M) (pick : TryMode → TryMode) (fn : Func) (body : Stmt) (as : List Word)
    (stack : List (Waiting M)) (t : Rt M) : Config M :=
  .at t.acts (emitBody pick body) 0 stack
    { t with m := T.enter fn.params fn.locals as t.m, acts := t.acts + 1 }

def callSite (T : Target M) (pick : TryMode → TryMode) (prog : Program) (w : Waiting M) (f : Callee)
    (as : List Word) (stack : List (Waiting M)) (t : Rt M) : Config M :=
  match dispatch T prog f with
  | .defined fn body => enter T pick fn body as (w :: stack) t
  | .declared fn => answered w stack (CRun.external T fn.name as t)
  | .foreign a => answered w stack (CRun.foreign T a as t)
  | .unknown => .stopped .stuck t

def step (T : Target M) (pick : TryMode → TryMode) (prog : Program) : Config M → Option (Config M)
  | .at act code pc stack t =>
      match code[pc]? with
      | some i => some (execute T act code pc stack t i)
      | none => some (.stopped .stuck t)
  | .busy act code pc comp stack t =>
      match comp with
      | .done mv m => some (move T act code pc stack (t.setMem m) mv)
      | .stuck m => some (.stopped .stuck (t.setMem m))
      | .call f as m k => some (callSite T pick prog ⟨act, code, pc, k⟩ f as stack (t.setMem m))
  | .returned v (w :: stack) t => some (.busy w.act w.code w.pc (w.kont v t.m) stack t)
  | .raised (.unwind f) (w :: stack) t =>
      -- `_setjmp` returns again, and the branch after it goes to the catch
      if f.act = w.act then some (goTo T w.act w.code (.block .catchL f.site) stack t)
      else some (.raised (.unwind f) stack (t.setMem (T.leave t.m)))
  | .raised x (_ :: stack) t => some (.raised x stack (t.setMem (T.leave t.m)))
  | .returned _ [] _ => none
  | .raised _ [] _ => none
  | .stopped _ _ => none

def start (T : Target M) (pick : TryMode → TryMode) (prog : Program) (as : List Word) (t : Rt M) :
    Config M :=
  match prog.startup.body with
  | some body => enter T pick prog.startup body as [] t
  | none => .stopped .stuck t

end Aholyc.LlRun
