import Aholyc.Eval
import Aholyc.Lib.Flow

/-!
# Exceptions in the source language

The meaning of a lowered tree, with exceptions as the language document has
them: an exception goes to the innermost `try` around the place that raises
it, and a catch that ends without setting `catch_except` raises it again.
`Rules` says in which respects a run departs from that, so that the same
definition also describes what the lowerings do.
-/

namespace Aholyc.Source

open Aholyc.Lib Aholyc.Effects Aholyc.Eval

/-- How an exception came up in the function at hand: by a `throw` statement,
at the end of a catch that did not handle its exception, by a call or an
assembly block, or in the operand of a `return` whose handlers are gone. -/
inductive Origin where
  | direct
  | rethrow
  | callee
  | escape
  deriving DecidableEq, Repr

inductive Stop where
  | raise (o : Origin)
  | exit
  | stuck
  -- A jump that `Rules` keeps out.
  | barred
  deriving DecidableEq, Repr

inductive Event where
  | enter (exceptCh : Word)
  | leave (rethrown : Bool)
  deriving DecidableEq, Repr

/-- The memory; for every exception that reached a `try`, the mode of that
`try` and the origin of the exception; and the events at the catches. -/
structure State (M : Type) where
  m : M
  reached : List (TryMode × Origin) := []
  events : List Event := []

structure Rules where
  /-- The lowering that a `try` of a mode is compiled with. -/
  pick : TryMode → TryMode
  /-- The operand of a `return` is evaluated after the handlers of the
  function are popped. -/
  early : Bool
  /-- No jump may cross the bounds of the body of a `try` with this mode. -/
  gate : TryMode → Bool
  /-- No jump may go to a label in a catch that the modes drop. -/
  strict : Bool
  /-- No exception may come by a frame of the handler stack to a function that has changed a
  local variable since the frame was pushed: C does not say which value it has then. -/
  settled : Bool := false

def documented : Rules where
  pick _ := .dynamic
  early := false
  gate _ := false
  strict := false

abbrev Oracle (M : Type) := Callee → List Word → State M → Answer Word Stop (State M)

abbrev Outcome (M : Type) := Out String Word Stop (State M)

variable {M : Type}

def State.setMem (m : M) (s : State M) : State M := { s with m := m }

def State.reach (mode : TryMode) (o : Origin) (s : State M) : State M :=
  { s with reached := (mode, o) :: s.reached }

def State.note (e : Event) (s : State M) : State M := { s with events := e :: s.events }

def eval {A : Type} (call : Oracle M) (c : M → Comp Callee Word M A) (s : State M) :
    Answer A Stop (State M) :=
  (c s.m).run State.m State.setMem .stuck call s

def perform {A : Type} : Answer A Stop (State M) → Outcome M
  | .ret _ s => .next s
  | .abort x s => .abort x s
  | .timeout s => .timeout s

def decision : Answer Bool Stop (State M) → Test Stop (State M)
  | .ret b s => .val b s
  | .abort x s => .abort x s
  | .timeout s => .timeout s

def condition (T : Target M) (call : Oracle M) (cond : Option Expr) (s : State M) :
    Test Stop (State M) :=
  match cond with
  | some c => decision (eval call (truth T c) s)
  | none => .val true s

/-- Whether a `try` that is lowered as the mode says receives an exception. -/
def catches : TryMode → Origin → Bool
  | .dynamic, o => o != .escape
  | .branch, o => o == .direct || o == .rethrow
  | .none, _ => false

def guarded (gate : Bool) (has : String → Bool) (o : Outcome M) : Outcome M :=
  match o with
  | .jump l s => if gate && !has l then .abort .barred s else .jump l s
  | o => o

def finish (T : Target M) (o : Outcome M) : Outcome M :=
  Flow.after o fun s =>
    if T.catchExcept s.m = 0 then .abort (.raise .rethrow) (s.note (.leave true))
    else .next (s.note (.leave false))

/-- What the handler of a `try` makes of the outcome of the body. -/
def receive (T : Target M) (mode picked : TryMode) (els : State M → Outcome M) (o : Outcome M) :
    Outcome M :=
  match o with
  | .abort (.raise o) s =>
      if o = .escape then .abort (.raise .escape) s
      else if catches picked o then
        finish T (els ((s.reach mode o).note (.enter (T.exceptCh s.m))))
      else .abort (.raise o) (s.reach mode o)
  | o => o

/-- A catch behind a `try` that began with the memory `saved`. -/
def entering (T : Target M) (rules : Rules) (mode : TryMode) (saved : M)
    (els : State M → Outcome M) (s : State M) : Outcome M :=
  if rules.settled && rules.pick mode == .dynamic && T.moved saved s.m then .abort .barred s
  else els s

def attempt (T : Target M) (rules : Rules) (mode : TryMode) (hasThn : String → Bool)
    (thn els : Entry String → State M → Outcome M) : Entry String → State M → Outcome M
  | .run, s =>
      receive T mode (rules.pick mode) (entering T rules mode s.m (els .run))
        (guarded (rules.gate mode) hasThn (thn .run s))
  | .seek l, s =>
      if hasThn l then
        if rules.gate mode then .abort .barred s
        else
          receive T mode (rules.pick mode) (entering T rules mode s.m (els .run))
            (guarded (rules.gate mode) hasThn (thn (.seek l) s))
      else if mode = .none then .abort .barred s
      else finish T (els (.seek l) s)

/-- Whether the nearest handler is compiled to a branch, inside a `try` that
is compiled as `picked`. -/
def nearer (picked : TryMode) (near : Bool) : Bool :=
  match picked with
  | .none => near
  | .branch => true
  | .dynamic => false

/-- A `throw` statement. With a branch as the nearest handler it stores the
first argument and no call is made. -/
def throwStmt (T : Target M) (thrown : Origin) (call : Oracle M) (near : Bool) (as : Expr)
    (s : State M) : Outcome M :=
  if near then
    match eval call (firstArg T as) s with
    | .ret v s' => .abort (.raise .direct) (s'.setMem (T.setExcept v s'.m))
    | .abort x s' => .abort x s'
    | .timeout s' => .timeout s'
  else
    match eval call (args T as) s with
    | .ret vs s' =>
        match call (.name "throw") vs s' with
        | .ret _ s'' => .next s''
        | .abort (.raise _) s'' => .abort (.raise thrown) s''
        | .abort x s'' => .abort x s''
        | .timeout s'' => .timeout s''
    | .abort x s' => .abort x s'
    | .timeout s' => .timeout s'

def returnStmt (T : Target M) (rules : Rules) (call : Oracle M) (lhs : Option Expr)
    (s : State M) : Outcome M :=
  match lhs with
  | none => .ret 0 s
  | some e =>
      match eval call (val T e) s with
      | .ret v s' => .ret v s'
      | .abort (.raise o) s' => .abort (.raise (if rules.early then .escape else o)) s'
      | .abort x s' => .abort x s'
      | .timeout s' => .timeout s'

def asmStmt (T : Target M) (a : AsmBlock) (s : State M) : Outcome M :=
  let after := s.setMem (T.asm a s.m).1
  if (T.asm a s.m).2 then .abort (.raise .callee) after else .next after

section Statements

variable (T : Target M) (rules : Rules) (thrown : Origin) (live : String → Bool)
  (call : Oracle M) (fuel : Nat)

open Aholyc.Lib.Flow in
/-- Runs a statement of a function whose jumps may go to the labels `live`;
`near` is `nearer` of the handlers around. -/
def run : Bool → Stmt → Entry String → State M → Outcome M
  | _, .null => leaf .next
  | near, .seq s next =>
      region (Stmt.keeps rules.pick (.seq s next))
        (andThen (s.keeps rules.pick) (next.keeps rules.pick) (run near s) (run near next)) fuel
  | _, .nop => leaf .next
  | near, .exprStmt e =>
      leaf fun s =>
        match isThrowCall e with
        | some as => throwStmt T thrown call near as s
        | none => perform (eval call (val T e) s)
  | near, .block body => run near body
  | near, .ifStmt cond thn els =>
      region (Stmt.keeps rules.pick (.ifStmt cond thn els))
        (branch (thn.keeps rules.pick) .abort (condition T call (some cond))
          (run near thn) (run near els)) fuel
  | near, .whileStmt cond thn =>
      region (Stmt.keeps rules.pick (.whileStmt cond thn))
        (whileLoop .abort (condition T call (some cond)) (run near thn) fuel) fuel
  | near, .doWhile thn cond =>
      region (Stmt.keeps rules.pick (.doWhile thn cond))
        (doLoop .abort (condition T call (some cond)) (run near thn) fuel) fuel
  | near, .forStmt init cond inc thn =>
      let step := region (Stmt.keeps rules.pick (.seq thn inc))
        (andThen (thn.keeps rules.pick) (inc.keeps rules.pick) (run near thn) (run near inc)) fuel
      let iterate := region (Stmt.keeps rules.pick (.seq thn inc))
        (whileLoop .abort (condition T call cond) step fuel) fuel
      region (Stmt.keeps rules.pick (.forStmt init cond inc thn))
        (andThen (init.keeps rules.pick) (Stmt.keeps rules.pick (.seq thn inc)) (run near init)
          iterate) fuel
  | _, .returnStmt lhs => leaf (returnStmt T rules call lhs)
  | _, .goto l => leaf fun s => if live l then .jump l s else .abort .barred s
  | _, .label _ => fun _ s => .next s
  | near, .tryStmt mode thn els =>
      region (Stmt.keeps rules.pick (.tryStmt mode thn els))
        (attempt T rules mode (thn.keeps rules.pick) (run (nearer (rules.pick mode) near) thn)
          (run near els)) fuel
  | _, .asmStmt a => leaf (asmStmt T a)

end Statements

section Calls

variable (T : Target M) (rules : Rules) (prog : Program)

def external (func : String) (as : List Word) (s : State M) : Answer Word Stop (State M) :=
  if isThrow func then
    .abort (.raise .callee) (s.setMem (T.setExcept (as.headD 0) s.m))
  else
    match T.ext func as s.m with
    | .ret v m => .ret v (s.setMem m)
    | .raise m => .abort (.raise .callee) (s.setMem m)
    | .exit m => .abort .exit (s.setMem m)

def foreign (a : Word) (as : List Word) (s : State M) : Answer Word Stop (State M) :=
  match T.foreign a as s.m with
  | .ret v m => .ret v (s.setMem m)
  | .raise m => .abort (.raise .callee) (s.setMem m)
  | .exit m => .abort .exit (s.setMem m)

def close : Outcome M → Answer Word Stop (State M)
  | .next s => .ret 0 (s.setMem (T.leave s.m))
  | .ret v s => .ret v (s.setMem (T.leave s.m))
  | .jump _ s => .abort .stuck s
  | .abort (.raise _) s => .abort (.raise .callee) (s.setMem (T.leave s.m))
  | .abort x s => .abort x s
  | .timeout s => .timeout s

/-- The origin of the exceptions of a `throw` statement: a program may define
a function of that name. -/
def throwOrigin : Origin :=
  match lookup prog "throw" with
  | .defined _ _ => .callee
  | _ => .direct

/-- The labels that `Rules.strict` leaves to the jumps of a body. -/
def targets (body : Stmt) (l : String) : Bool := !rules.strict || body.keeps id l

def invoke (call : Oracle M) (fuel : Nat) (fn : Func) (body : Stmt) (as : List Word)
    (s : State M) : Answer Word Stop (State M) :=
  close T (Flow.region (body.keeps rules.pick)
    (run T rules (throwOrigin prog) (targets rules body) call fuel false body) fuel .run
    (s.setMem (T.enter fn.params fn.locals as s.m)))

/-- Answers a call to a site; `body` answers for the defined functions. -/
def answer (body : Func → Stmt → Oracle M) (f : Callee) (as : List Word) (s : State M) :
    Answer Word Stop (State M) :=
  match dispatch T prog f with
  | .defined fn stmt => body fn stmt f as s
  | .declared fn => external T fn.name as s
  | .foreign a => foreign T a as s
  | .unknown => .abort .stuck s

/-- Answers a call; calls of defined functions are at most `fuel` deep. -/
def callFuel : Nat → Oracle M
  | 0 => answer T prog fun _ _ _ _ s => .timeout s
  | fuel + 1 =>
      answer T prog fun fn stmt _ => invoke T rules prog (callFuel fuel) fuel fn stmt

def runProgram (fuel : Nat) (as : List Word) (s : State M) : Answer Word Stop (State M) :=
  match prog.startup.body with
  | some body => invoke T rules prog (callFuel T rules prog fuel) fuel prog.startup body as s
  | none => .abort .stuck s

end Calls

end Aholyc.Source
