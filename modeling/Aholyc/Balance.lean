import Aholyc.CSim
import Aholyc.LlBalance

/-!
# The handlers in balance

The number of handlers on the stack is that of the dynamic `try` statements
that are open, in the emitted C and in the emitted LLVM code, as long as no
jump leaves or enters the body of one of them. A `break` out of such a body is
a jump that does, and leaves its handler behind.
-/

namespace Aholyc.Balance

open Aholyc.Lib Aholyc.Effects Aholyc.Eval Aholyc.CBackend Aholyc.Source Aholyc.CRun Aholyc.CSim
open Aholyc.LlRun (Config Waiting start)
open Aholyc.LlMarks (openAt)
open Aholyc.LlSim (Assembles)
open Aholyc.LlBalance (Run opened)

variable {M : Type}

/-- What the compiled code does, with no jump over the bounds of the body of a
`try` that is compiled with a handler. -/
def keeping (pick : TryMode → TryMode) : Rules where
  pick := pick
  early := true
  gate mode := decide (pick mode = .dynamic)
  strict := false

theorem keeping_lowering (pick : TryMode → TryMode) : Lowering (keeping pick) :=
  ⟨rfl, fun _ picked => by simpa [keeping] using picked⟩

theorem compiled_agrees (T : Target M) (pick : TryMode → TryMode) (prog : Program) (fuel : Nat) :
    CallsAgree (Source.callFuel T (keeping pick) prog fuel) (CRun.callFuel T pick prog fuel) :=
  callFuel_rel (keeping_lowering pick) fuel

/-- The tree has the memory and the events of the compiled program. -/
def seen (t : Rt M) : State M := { m := t.m, events := t.events }

def Unbarred {V : Type} : Answer V Stop (State M) → Prop
  | .abort .barred _ => False
  | _ => True

def Stays : Outcome M → Prop
  | .abort .barred _ => False
  | _ => True

/-- The number of handlers where control goes from a statement inside the
handlers `hs`, when there were `base` at the call of the function: a jump and
the next statement find the handlers of the statement, a catch those around
its `try`, the caller those at the call, and a `longjmp` out of the function
has popped one of them. -/
def Counts (base : Int) (hs : List CHandler) : COut M → Prop
  | .next t => t.ntry = base + depth hs
  | .jump (.user _) t => t.ntry = base + depth hs
  | .jump (.catchL n) t =>
      ∃ inner outer, hs = inner ++ ⟨n, false⟩ :: outer ∧ t.ntry = base + depth outer
  | .jump (.landing n) t =>
      ∃ inner outer, hs = inner ++ ⟨n, true⟩ :: outer ∧ t.ntry = base + depth outer
  | .jump (.tryEnd _) _ => False
  | .ret _ t => t.ntry = base
  | .abort (.unwind _) t => t.ntry = base - 1
  | .abort _ _ => True
  | .timeout _ => True

def catchOf (h : CHandler) : CLabel := if h.dynamic then .landing h.label else .catchL h.label

variable {c : Activation} {hs : List CHandler} {s : State M} {t : Rt M}

theorem caught_outer {o : Origin} {l : CLabel} (caught : c.Caught hs o s l t) :
    ∃ inner h outer, hs = inner ++ h :: outer ∧ l = catchOf h ∧
      t.ntry = c.base + depth outer := by
  induction hs with
  | nil => cases caught
  | cons h hs ih =>
    unfold Activation.Caught at caught
    split at caught
    · rename_i dynamic
      obtain ⟨-, rfl, holding⟩ := caught
      exact ⟨[], h, hs, rfl, by simp [catchOf, dynamic], holding.ntry⟩
    · rename_i branch
      rcases caught with ⟨-, rfl, holding⟩ | ⟨-, further⟩
      · exact ⟨[], h, hs, rfl, by simp [catchOf, branch], holding.ntry⟩
      · obtain ⟨inner, h', outer, rfl, named, count⟩ := ih further
        exact ⟨h :: inner, h', outer, rfl, named, count⟩

theorem caught_counts {o : Origin} {l : CLabel} (caught : c.Caught hs o s l t) :
    Counts c.base hs (.jump l t) := by
  obtain ⟨inner, ⟨n, dynamic⟩, outer, rfl, rfl, count⟩ := caught_outer caught
  cases dynamic with
  | true => exact ⟨inner, outer, rfl, count⟩
  | false => exact ⟨inner, outer, rfl, count⟩

theorem unwound_counts {k : Int} {fr : Int → Frame} {acts : Nat} {y : CStop}
    (unwound : Unwound k fr acts s y t) : Counts k hs (.abort y t) := by
  rcases unwound with ⟨-, rfl, on⟩ | ⟨-, rfl, -⟩
  · exact on.ntry
  · trivial

/-- Outcomes that agree leave the number of handlers that belongs there. -/
theorem rel_counts {o : Outcome M} {o' : COut M} (same : (sim c hs).Rel o o') (stays : Stays o) :
    Counts c.base hs o' := by
  cases same with
  | next on => exact on.ntry
  | jump _ on => exact on.ntry
  | ret on => exact on.ntry
  | timeout => trivial
  | @abort x s y t ends =>
    cases x with
    | raise o => exact unwound_counts ends.2
    | exit =>
      obtain ⟨rfl, -⟩ := ends
      trivial
    | stuck =>
      obtain ⟨rfl, -⟩ := ends
      trivial
    | barred => cases stays
  | caught ends =>
    obtain ⟨o, -, caught⟩ := ends
    exact caught_counts caught
  | free barred =>
    cases barred
    cases stays
  | dead overflow =>
    cases overflow
    trivial

/-- The number of handlers at a place of the LLVM code: those of the open
bodies, over those of the waiting activations, which are all there were at the
call. -/
def LlCounts : Config M → Prop
  | .at _ code pc stack t => t.ntry = opened stack + (openAt code pc).length
  | .busy _ code pc _ stack t => t.ntry = opened stack + (openAt code pc).length
  | .returned _ stack t => t.ntry = opened stack
  | .raised (.unwind _) stack t => t.ntry = opened stack - 1
  | .raised _ _ t => t.ntry = 0
  | .stopped _ _ => True

theorem balanced_counts {cfg : Config M} (balanced : LlBalance.Balanced cfg) : LlCounts cfg := by
  cases cfg with
  | «at» act code pc stack t =>
    have count := balanced.2.2.2.ntry
    rw [List.length_append, LlBalance.stackFrames_length, LlBalance.framesAt_length] at count
    show t.ntry = _
    omega
  | busy act code pc comp stack t =>
    have count := balanced.2.2.2.2.ntry
    rw [List.length_append, LlBalance.stackFrames_length, LlBalance.framesAt_length] at count
    show t.ntry = _
    omega
  | returned v stack t =>
    have count := balanced.2.ntry
    rw [LlBalance.stackFrames_length] at count
    exact count
  | raised x stack t =>
    obtain ⟨-, unwinds⟩ := balanced
    have length := LlBalance.stackFrames_length stack
    cases held : LlBalance.stackFrames stack with
    | nil =>
      rw [held] at unwinds
      obtain ⟨rfl, empty⟩ := unwinds
      exact empty
    | cons f fs =>
      rw [held] at unwinds length
      obtain ⟨rfl, holds⟩ := unwinds
      have count := holds.ntry
      rw [List.length_cons] at length
      show t.ntry = _
      omega
  | stopped x t => trivial

/-- In every run in which no jump leaves or enters the body of a `try` with a
handler, control leaves every statement of the emitted C with the number of
handlers that belongs to the place where it goes, a function returns with the
number at its call, and so does the LLVM code at each of its steps. -/
theorem handlers_balanced (T : Target M) (pick : TryMode → TryMode) (prog : Program)
    (assembles : Assembles pick prog) :
    (∀ fuel (c : Activation) hs g stmt e t, Fits g hs → c.Holding hs (seen t) t →
      e.Within (stmt.keeps pick) →
      Stays (Source.run T (keeping pick) (throwOrigin prog) (fun _ => true)
        (Source.callFuel T (keeping pick) prog fuel) fuel (nearest hs) stmt e (seen t)) →
      Counts c.base hs (CRun.run T c.act (CRun.callFuel T pick prog fuel) fuel
        (CBackend.emitStmt pick g stmt).1 (e.map .user) t)) ∧
    (∀ fuel f as t v t', 0 ≤ t.ntry → (∀ i, 0 ≤ i → i < t.ntry → (t.frames i).act < t.acts) →
      Unbarred (Source.callFuel T (keeping pick) prog fuel f as (seen t)) →
      CRun.callFuel T pick prog fuel f as t = .ret v t' → t'.ntry = t.ntry) ∧
    ∀ as t cfg, t.ntry = 0 → Run T pick prog (start T pick prog as t) cfg → LlCounts cfg := by
  refine ⟨?_, ?_, ?_⟩
  · intro fuel c hs g stmt e t fits holding within stays
    exact rel_counts (run_rel (compiled_agrees T pick prog fuel) (keeping_lowering pick) (throwOrigin_visible prog) stmt g hs fits
      e (seen t) t within holding) stays
  · intro fuel f as t v t' floor older unbarred returns
    have on : On t.ntry t.frames t.acts (seen t) t := ⟨⟨rfl, rfl⟩, rfl, fun _ _ _ => rfl, Nat.le_refl _⟩
    have same := compiled_agrees T pick prog fuel t.ntry t.frames t.acts floor older f as (seen t) t on
    rw [returns] at same
    generalize Source.callFuel T (keeping pick) prog fuel f as (seen t) = a at same unbarred
    cases same with
    | ret on => exact on.ntry
    | barred => cases unbarred
  · intro as t cfg empty run
    exact balanced_counts (LlBalance.run_balanced T assembles run
      (LlBalance.start_balanced T assembles as empty))

section Examples

/-- `extern U0 G();`, and `U0 F()` with this body. -/
def functions (body : Stmt) : List Func :=
  Plain.prelude ++ [{ name := "G", ret := .void, isExtern := true },
    { name := "F", ret := .void, body := some body }]

def calling (body : Stmt) : Program where
  funcs := functions body
  globals := []
  startup := { name := "__hc_start", ret := tyI64, body := some .null }
  distinct := by
    show ["throw", "PutExcept", "PutChars", "G", "F"].Nodup
    decide

def callG : Stmt := .exprStmt (.call .void "G" .noArg 0)

def staying : Program := calling (.tryStmt .none callG .null)

/-- `U0 F() { while (1) { try { G(); break; } catch {} } }` -/
def leaving : Program :=
  calling (.seq (.whileStmt (.num 1) (.block (.tryStmt .none
    (.block (.seq callG (.seq (.goto ".wend0") .null))) .null)))
    (.label ".wend0"))

theorem assembles_unlabelled {pick : TryMode → TryMode} {prog : Program}
    (none : ∀ fn ∈ prog.startup :: prog.funcs, (fn.body.map (Stmt.keptLabels pick)).getD [] = []) :
    Assembles pick prog := by
  intro fn member body defined
  have labels := none fn member
  rw [defined] at labels
  have empty : body.keptLabels pick = [] := labels
  rw [empty]
  exact List.nodup_nil

theorem assembles_staying : Assembles id (analyzeExceptions staying) :=
  assembles_unlabelled (by decide)

theorem handlers_balanced_staying :
    ∃ v t, CRun.callFuel Plain.target id (analyzeExceptions staying) 3 (.name "F") [] { m := {} } =
      .ret v t ∧ t.ntry = 0 := by
  refine ⟨_, _, rfl, ?_⟩
  apply (handlers_balanced Plain.target id (analyzeExceptions staying) assembles_staying).2.1 3
    (.name "F") [] { m := {} } _ _ (Int.le_refl 0) _ _ rfl
  · intro i low high
    exact absurd low (Int.not_le.mpr high)
  · trivial

/-- The handler of the `try` stays on the stack when `F` returns. -/
theorem break_keeps_handler :
    (CRun.callFuel Plain.target id (analyzeExceptions leaving) 3 (.name "F") []
      { m := {} }).state.ntry = 1 := by
  decide

end Examples

end Aholyc.Balance
