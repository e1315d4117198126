import Aholyc.CBackend

/-!
# Running the emitted C

The meaning of the statements of `Aholyc.CBackend`, over the part of the
runtime that they use: the handler stack of `runtime/rt.c` with `hc_ntry` and
`hc_frames`. A `longjmp` to a frame of the running activation is a jump to the
`_setjmp` call that filled the frame; any other leaves the activation. C does
not say what a `longjmp` leaves in the local variables that have changed since
the `_setjmp`: here they keep their values, and `Rules.settled` keeps such runs
out.
-/

namespace Aholyc.CRun

open Aholyc.Lib Aholyc.Effects Aholyc.Eval Aholyc.CBackend Aholyc.Source

/-- What `_setjmp` leaves in a frame: the activation it ran in, and its place
in the function. -/
structure Frame where
  act : Nat
  site : Nat
  deriving DecidableEq, Repr

/-- The memory, `hc_ntry`, `hc_frames`, and the number of activations so far.
The events at the catches are a record of the run, not part of the machine. -/
structure Rt (M : Type) where
  m : M
  ntry : Int := 0
  frames : Int → Frame := fun _ => ⟨0, 0⟩
  acts : Nat := 0
  events : List Event := []

inductive CStop where
  | unwind (f : Frame)
  -- "Unhandled Exception", and `exit (1)`
  | unhandled
  | exit
  -- "aholyc-rt: try nesting too deep", and `exit (1)`
  | overflow
  | stuck
  deriving DecidableEq, Repr

abbrev COracle (M : Type) := Callee → List Word → Rt M → Answer Word CStop (Rt M)

abbrev COut (M : Type) := Out CLabel Word CStop (Rt M)

variable {M : Type}

namespace Rt

def setMem (m : M) (t : Rt M) : Rt M := { t with m := m }

def note (e : Event) (t : Rt M) : Rt M := { t with events := e :: t.events }

def tryMax : Int := 256

/-- `_setjmp(*__hc_try_push())`, when there is room. -/
def push (f : Frame) (t : Rt M) : Rt M :=
  { t with ntry := t.ntry + 1, frames := Function.update t.frames t.ntry f }

def pop (t : Rt M) : Rt M := { t with ntry := t.ntry - 1 }

def pops (n : Nat) (t : Rt M) : Rt M := { t with ntry := t.ntry - n }

/-- The end of `throw`, with the exception stored: `longjmp` to the newest
frame, if there is one. -/
def unwind (t : Rt M) : CStop × Rt M :=
  if 0 < t.ntry then (.unwind (t.frames (t.ntry - 1)), t.pop) else (.unhandled, t)

end Rt

/-- An abnormal end that the activation `act` may handle itself. -/
def land (act : Nat) (x : CStop) (t : Rt M) : COut M :=
  match x with
  | .unwind f => if f.act = act then .jump (.landing f.site) t else .abort (.unwind f) t
  | x => .abort x t

def raised (t : Rt M) {V : Type} : Answer V CStop (Rt M) := .abort t.unwind.1 t.unwind.2

def eval {A : Type} (call : COracle M) (c : M → Comp Callee Word M A) (t : Rt M) :
    Answer A CStop (Rt M) :=
  (c t.m).run Rt.m Rt.setMem .stuck call t

def perform {A : Type} (act : Nat) : Answer A CStop (Rt M) → COut M
  | .ret _ t => .next t
  | .abort x t => land act x t
  | .timeout t => .timeout t

def decision : Answer Bool CStop (Rt M) → Test CStop (Rt M)
  | .ret b t => .val b t
  | .abort x t => .abort x t
  | .timeout t => .timeout t

def condition (T : Target M) (call : COracle M) (cond : Option Expr) (t : Rt M) :
    Test CStop (Rt M) :=
  match cond with
  | some c => decision (eval call (truth T c) t)
  | none => .val true t

def rethrow (T : Target M) (act : Nat) (r : Rethrow) (o : COut M) : COut M :=
  Flow.after o fun t =>
    if T.catchExcept t.m = 0 then
      let t := t.note (.leave true)
      match r with
      | .goto n => .jump (.catchL n) t
      | .throw =>
          let u := (t.setMem (T.setExcept (T.exceptCh t.m) t.m)).unwind
          land act u.1 u.2
    else .next (t.note (.leave false))

def catchBlock (T : Target M) (act : Nat) (els : Entry CLabel → Rt M → COut M) (r : Rethrow)
    (t : Rt M) : COut M :=
  rethrow T act r (els .run (t.note (.enter (T.exceptCh t.m))))

def taking (label : CLabel) (handler : Rt M → COut M) (o : COut M) : COut M :=
  match o with
  | .jump l t => if l = label then handler t else .jump l t
  | o => o

def localTry (T : Target M) (act n : Nat) (hasThn : CLabel → Bool)
    (thn els : Entry CLabel → Rt M → COut M) (r : Rethrow) : Entry CLabel → Rt M → COut M
  | .run, t => taking (.catchL n) (catchBlock T act els r) (thn .run t)
  | .seek l, t =>
      if hasThn l then taking (.catchL n) (catchBlock T act els r) (thn (.seek l) t)
      else if l = .catchL n then catchBlock T act els r t
      else if l = .tryEnd n then .next t
      else rethrow T act r (els (.seek l) t)

/-- `TRY_DYNAMIC`: the frame is popped at the end of the body, and by `throw`. -/
def dynamicTry (T : Target M) (act site : Nat) (hasThn : CLabel → Bool)
    (thn els : Entry CLabel → Rt M → COut M) (r : Rethrow) : Entry CLabel → Rt M → COut M
  | .run, t =>
      if Rt.tryMax ≤ t.ntry then .abort .overflow t
      else
        taking (.landing site) (catchBlock T act els r)
          (Flow.after (thn .run (t.push ⟨act, site⟩)) fun t => .next t.pop)
  | .seek l, t =>
      if hasThn l then
        taking (.landing site) (catchBlock T act els r)
          (Flow.after (thn (.seek l) t) fun t => .next t.pop)
      else if l = .landing site then catchBlock T act els r t
      else rethrow T act r (els (.seek l) t)

def localThrow (T : Target M) (act : Nat) (call : COracle M) (args : Expr) (n : Nat) (t : Rt M) :
    COut M :=
  match eval call (firstArg T args) t with
  | .ret v t => .jump (.catchL n) (t.setMem (T.setExcept v t.m))
  | .abort x t => land act x t
  | .timeout t => .timeout t

def returnStmt (T : Target M) (act : Nat) (call : COracle M) (pops : Nat) (e : Option Expr)
    (t : Rt M) : COut M :=
  let t := t.pops pops
  match e with
  | none => .ret 0 t
  | some e =>
      match eval call (val T e) t with
      | .ret v t => .ret v t
      | .abort x t => land act x t
      | .timeout t => .timeout t

def asmStmt (T : Target M) (act : Nat) (a : AsmBlock) (t : Rt M) : COut M :=
  let after := t.setMem (T.asm a t.m).1
  if (T.asm a t.m).2 then land act after.unwind.1 after.unwind.2 else .next after

section Statements

variable (T : Target M) (act : Nat) (call : COracle M) (fuel : Nat)

open Aholyc.Lib.Flow in
def run : CStmt → Entry CLabel → Rt M → COut M
  | .skip => leaf .next
  | .seq s next =>
      region (CStmt.seq s next).has (andThen s.has next.has (run s) (run next)) fuel
  | .expr e => leaf fun t => perform act (eval call (val T e) t)
  | .localThrow args n => leaf (localThrow T act call args n)
  | .block body => region body.has (run body) fuel
  | .ifStmt cond thn els =>
      region (CStmt.ifStmt cond thn els).has
        (branch thn.has (land act) (condition T call (some cond)) (run thn) (run els)) fuel
  | .whileStmt cond thn =>
      region thn.has (whileLoop (land act) (condition T call (some cond)) (run thn) fuel) fuel
  | .doWhile thn cond =>
      region thn.has (doLoop (land act) (condition T call (some cond)) (run thn) fuel) fuel
  | .forever cond body =>
      region body.has (whileLoop (land act) (condition T call cond) (run body) fuel) fuel
  | .ret pops e => leaf (returnStmt T act call pops e)
  | .goto l => leaf (.jump (.user l))
  | .label _ => fun _ t => .next t
  | .asm a => leaf (asmStmt T act a)
  | .localTry n thn els r =>
      region (CStmt.localTry n thn els r).has
        (localTry T act n thn.has (run thn) (run els) r) fuel
  | .dynamicTry site thn els r =>
      region (CStmt.dynamicTry site thn els r).has
        (dynamicTry T act site thn.has (run thn) (run els) r) fuel

end Statements

section Calls

variable (T : Target M) (pick : TryMode → TryMode) (prog : Program)

def external (func : String) (as : List Word) (t : Rt M) : Answer Word CStop (Rt M) :=
  if isThrow func then raised (t.setMem (T.setExcept (as.headD 0) t.m))
  else
    match T.ext func as t.m with
    | .ret v m => .ret v (t.setMem m)
    | .raise m => raised (t.setMem m)
    | .exit m => .abort .exit (t.setMem m)

def foreign (a : Word) (as : List Word) (t : Rt M) : Answer Word CStop (Rt M) :=
  match T.foreign a as t.m with
  | .ret v m => .ret v (t.setMem m)
  | .raise m => raised (t.setMem m)
  | .exit m => .abort .exit (t.setMem m)

def close : COut M → Answer Word CStop (Rt M)
  | .next t => .ret 0 (t.setMem (T.leave t.m))
  | .ret v t => .ret v (t.setMem (T.leave t.m))
  | .jump _ t => .abort .stuck t
  | .abort (.unwind f) t => .abort (.unwind f) (t.setMem (T.leave t.m))
  | .abort .unhandled t => .abort .unhandled (t.setMem (T.leave t.m))
  | .abort x t => .abort x t
  | .timeout t => .timeout t

def invoke (call : COracle M) (fuel : Nat) (fn : Func) (body : Stmt) (as : List Word)
    (t : Rt M) : Answer Word CStop (Rt M) :=
  close T (Flow.region (emitBody pick body).has
    (run T t.acts call fuel (emitBody pick body)) fuel .run
    { t with m := T.enter fn.params fn.locals as t.m, acts := t.acts + 1 })

def answer (body : Func → Stmt → COracle M) (f : Callee) (as : List Word) (t : Rt M) :
    Answer Word CStop (Rt M) :=
  match dispatch T prog f with
  | .defined fn stmt => body fn stmt f as t
  | .declared fn => external T fn.name as t
  | .foreign a => foreign T a as t
  | .unknown => .abort .stuck t

def callFuel : Nat → COracle M
  | 0 => answer T prog fun _ _ _ _ t => .timeout t
  | fuel + 1 =>
      answer T prog fun fn stmt _ => invoke T pick (callFuel fuel) fuel fn stmt

def runProgram (fuel : Nat) (as : List Word) (t : Rt M) : Answer Word CStop (Rt M) :=
  match prog.startup.body with
  | some body => invoke T pick (callFuel T pick prog fuel) fuel prog.startup body as t
  | none => .abort .stuck t

end Calls

end Aholyc.CRun
