import Aholyc.Balance

/-!
# Exceptions in the operand of a `return`

Both backends pop the handlers of a function before they evaluate the operand
of a `return`. An exception that the operand raises leaves the function; the
same expression as a statement at the same place raises it to the handlers
around.
-/

namespace Aholyc.Returns

open Aholyc.Lib Aholyc.Lib.Machine Aholyc.Effects Aholyc.Eval Aholyc.CBackend Aholyc.Source
  Aholyc.CRun Aholyc.CSim Aholyc.Balance
open Aholyc.LlRun (Config)
open Aholyc.LlCode (Cursor Written)
open Aholyc.LlSim (Assembles Place Overflown)

variable {M : Type} {hs : List CHandler} {o : Origin}

/-- The handler that receives an exception, among those around a place. -/
def receiver : List CHandler → Origin → Option CHandler
  | [], _ => none
  | h :: hs, o =>
      if h.dynamic then (if o = .escape then none else some h)
      else if catches .branch o then some h else receiver hs o

theorem receiver_isSome (hs : List CHandler) (o : Origin) :
    (receiver hs o).isSome = handled hs o := by
  induction hs with
  | nil => rfl
  | cons h hs ih =>
    unfold receiver handled
    split
    · cases o <;> rfl
    · cases branch : catches .branch o with
      | true => simp
      | false => simpa using ih

theorem receiver_none : receiver hs o = none ↔ handled hs o = false := by
  rw [← receiver_isSome, Option.isSome_eq_false_iff, Option.isNone_iff_eq_none]

variable {c : Activation} {s : State M}

theorem receiver_caught {l : CLabel} {t : Rt M} (caught : c.Caught hs o s l t) :
    ∃ h, receiver hs o = some h ∧ l = catchOf h := by
  induction hs with
  | nil => cases caught
  | cons h hs ih =>
    unfold Activation.Caught at caught
    unfold receiver
    split at caught
    · rename_i dynamic
      obtain ⟨visible, rfl, -⟩ := caught
      exact ⟨h, by simp [dynamic, visible], by simp [catchOf, dynamic]⟩
    · rename_i branch
      rcases caught with ⟨here, rfl, -⟩ | ⟨further, deeper⟩
      · exact ⟨h, by simp [branch, here], by simp [catchOf, branch]⟩
      · obtain ⟨h', found, named⟩ := ih deeper
        exact ⟨h', by simpa [branch, further] using found, named⟩

/-- Where a run of emitted C goes with an exception: to the catch of a
handler, or out of the function. -/
def way : COut M → Option (Option CHandler)
  | .jump (.landing n) _ => some (some ⟨n, true⟩)
  | .jump (.catchL n) _ => some (some ⟨n, false⟩)
  | .abort (.unwind _) _ => some none
  | .abort .unhandled _ => some none
  | _ => none

def Limited (o : COut M) : Prop := ∃ t, o = .abort .overflow t

theorem way_catchOf (h : CHandler) (t : Rt M) : way (.jump (catchOf h) t) = some (some h) := by
  obtain ⟨n, dynamic⟩ := h
  cases dynamic <;> rfl

theorem raise_way {o' : COut M} (same : (sim c hs).Rel (.abort (.raise o) s) o') :
    Limited o' ∨ way o' = some (receiver hs o) := by
  cases same with
  | @abort x s y t ends =>
    right
    rw [receiver_none.mpr ends.1]
    rcases ends.2 with ⟨-, rfl, -⟩ | ⟨-, rfl, -⟩ <;> rfl
  | caught ends =>
    right
    obtain ⟨o', raised, caught⟩ := ends
    cases raised
    obtain ⟨h, found, rfl⟩ := receiver_caught caught
    rw [found, way_catchOf]
  | free barred => cases barred
  | dead overflow =>
    cases overflow
    exact .inl ⟨_, rfl⟩

section Llvm

variable (T : Target M) (pick : TryMode → TryMode) (prog : Program) (P : Place M)

/-- The LLVM code goes with an exception to the catch of a handler, or out of
the activation. -/
def LlGoes (cfg : Config M) (r : Option CHandler) : Prop :=
  ∃ n cfg', Steps (LlRun.step T pick prog) n cfg cfg' ∧
    match r with
    | some h => ∃ t, cfg' = LlRun.goTo T P.act.act P.code (.block .catchL h.label) P.stack t
    | none => ∃ y t, cfg' = .raised y P.stack t

def LlLimited (cfg : Config M) : Prop :=
  ∃ n cfg', Steps (LlRun.step T pick prog) n cfg cfg' ∧ Overflown cfg'

variable {T pick prog P}

theorem raise_llGoes {fuel : Nat} {exit : State M → Config M → Prop} {cfg : Config M}
    (reaches : Reaches (LlSim.ends T pick prog P hs) fuel exit (.abort (.raise o) s) cfg) :
    LlLimited T pick prog cfg ∨ LlGoes T pick prog P cfg (receiver hs o) := by
  obtain ⟨n, cfg', steps, (⟨l, t, rfl, caught⟩ | ⟨y, t, rfl, none, -⟩) | overflown⟩ := reaches
  · right
    obtain ⟨h, found, rfl⟩ := receiver_caught caught
    rw [found]
    refine ⟨n, _, steps, t, ?_⟩
    unfold catchOf
    split <;> rfl
  · right
    rw [receiver_none.mpr none]
    exact ⟨n, _, steps, y, _, rfl⟩
  · exact .inl ⟨n, cfg', steps, overflown⟩

end Llvm

section Operands

variable (T : Target M) (pick : TryMode → TryMode) (prog : Program)

def tree (fuel : Nat) (hs : List CHandler) (stmt : Stmt) (s : State M) : Outcome M :=
  Source.run T (keeping pick) (throwOrigin prog) (fun _ => true)
    (Source.callFuel T (keeping pick) prog fuel) fuel (nearest hs) stmt .run s

def inC (fuel : Nat) (c : Activation) (g : CGen) (stmt : Stmt) (t : Rt M) : COut M :=
  CRun.run T c.act (CRun.callFuel T pick prog fuel) fuel (CBackend.emitStmt pick g stmt).1 .run t

variable {T pick prog} {fuel : Nat}

variable {s' : State M}

theorem tree_return {e : Expr} {o' : Origin}
    (throws : Source.eval (Source.callFuel T (keeping pick) prog fuel) (val T e) s =
      .abort (.raise o') s') :
    tree T pick prog fuel hs (.returnStmt (some e)) s = .abort (.raise .escape) s' := by
  simp only [tree, Source.run, Flow.leaf, Source.returnStmt, throws]
  rfl

theorem inC_way {g : CGen} {stmt : Stmt} {t : Rt M} (fits : CSim.Fits g hs)
    (holding : c.Holding hs s t) (raised : tree T pick prog fuel hs stmt s = .abort (.raise o) s') :
    Limited (inC T pick prog fuel c g stmt t) ∨
      way (inC T pick prog fuel c g stmt t) = some (receiver hs o) := by
  have same : (sim c hs).Rel (tree T pick prog fuel hs stmt s) (inC T pick prog fuel c g stmt t) :=
    run_rel (compiled_agrees T pick prog fuel) (keeping_lowering pick) (throwOrigin_visible prog)
      stmt g hs fits .run s t trivial holding
  rw [raised] at same
  exact raise_way same

theorem llvm_way (assembles : Assembles pick prog) {P : Place M} {q : Cursor} {stmt : Stmt}
    {cfg : Config M} (fits : LlSim.Fits q.gen hs)
    (written : Written P.code q (LlBackend.emitStmt pick stmt)) (here : P.Joint hs q s cfg)
    (raised : tree T pick prog fuel hs stmt s = .abort (.raise o) s') :
    LlLimited T pick prog cfg ∨ LlGoes T pick prog P cfg (receiver hs o) := by
  have calls : LlSim.CallsReach T pick prog fuel (Source.callFuel T (keeping pick) prog fuel) :=
    LlSim.callFuel_reaches assembles (keeping_lowering pick) fuel
  have reaches : Reaches (LlSim.ends T pick prog P hs) fuel
      (P.Joint hs (q.after (LlBackend.emitStmt pick stmt))) (tree T pick prog fuel hs stmt s) cfg :=
    LlSim.run_faithful calls (keeping_lowering pick) (throwOrigin_visible prog) stmt hs q fits
      written .run s cfg trivial here
  rw [raised] at reaches
  exact raise_llGoes reaches

/-- The operand of a `return` throws, and so does the same expression as a
statement at the same place. The exceptions go the same way, in the C and in
the LLVM code, exactly when no handler of the function receives the second. -/
theorem return_goes_as_expression (T : Target M) (pick : TryMode → TryMode) (prog : Program)
    (assembles : Assembles pick prog) (fuel : Nat) (hs : List CHandler) (e : Expr)
    (s s₁ s₂ : State M) (o₁ o : Origin)
    (throws : Source.eval (Source.callFuel T (keeping pick) prog fuel) (val T e) s =
      .abort (.raise o₁) s₁)
    (statement : tree T pick prog fuel hs (.exprStmt e) s = .abort (.raise o) s₂) :
    (∀ (c : Activation) g t, CSim.Fits g hs → c.Holding hs s t →
      Limited (inC T pick prog fuel c g (.returnStmt (some e)) t) ∨
      Limited (inC T pick prog fuel c g (.exprStmt e) t) ∨
      (way (inC T pick prog fuel c g (.returnStmt (some e)) t) =
        way (inC T pick prog fuel c g (.exprStmt e) t) ↔ handled hs o = false)) ∧
    ∀ (P P' : Place M) q q' cfg cfg',
      LlSim.Fits q.gen hs → Written P.code q (LlBackend.emitStmt pick (.returnStmt (some e))) →
      P.Joint hs q s cfg → LlSim.Fits q'.gen hs →
      Written P'.code q' (LlBackend.emitStmt pick (.exprStmt e)) → P'.Joint hs q' s cfg' →
      LlLimited T pick prog cfg ∨ LlLimited T pick prog cfg' ∨
        ∃ r r', LlGoes T pick prog P cfg r ∧ LlGoes T pick prog P' cfg' r' ∧
          (r = r' ↔ handled hs o = false) := by
  have operand : tree T pick prog fuel hs (.returnStmt (some e)) s = .abort (.raise .escape) s₁ :=
    tree_return throws
  have escapes : receiver hs .escape = none := receiver_none.mpr (handled_escape hs)
  have same : none = receiver hs o ↔ handled hs o = false := eq_comm.trans receiver_none
  refine ⟨?_, ?_⟩
  · intro c g t fits holding
    rcases inC_way fits holding operand with limited | out
    · exact .inl limited
    · rcases inC_way fits holding statement with limited | goes
      · exact .inr (.inl limited)
      · refine .inr (.inr ?_)
        rw [out, goes, escapes, Option.some_inj]
        exact same
  · intro P P' q q' cfg cfg' fits written here fits' written' here'
    rcases llvm_way assembles fits written here operand with limited | out
    · exact .inl limited
    · rcases llvm_way assembles fits' written' here' statement with limited | goes
      · exact .inr (.inl limited)
      · rw [escapes] at out
        exact .inr (.inr ⟨none, receiver hs o, out, goes, same⟩)

end Operands

section Examples

/-- `I64 F() { throw('x'); return 1; }` and a `G` with this body. -/
def around (body : Stmt) : Program where
  funcs := Plain.prelude ++
    [{ name := "F", ret := tyI64, body := some (.seq (Plain.callStmt "throw" 120)
        (.returnStmt (some (.num 1)))) },
     { name := "G", ret := tyI64, body := some body }]
  globals := []
  startup := { name := "__hc_start", ret := tyI64, body := some .null }
  distinct := by
    show ["throw", "PutExcept", "PutChars", "F", "G"].Nodup
    decide

def callF : Expr := .call tyI64 "F" .noArg 0

/-- `I64 G() { try { return F(); } catch { PutExcept(TRUE); } return 2; }` -/
def returning : Program :=
  around (.seq (.tryStmt .none (.returnStmt (some callF)) (Plain.callStmt "PutExcept" 1))
    (.returnStmt (some (.num 2))))

/-- The same with the statement `F();` in the place of the `return`. -/
def evaluating : Program :=
  around (.seq (.tryStmt .none (.exprStmt callF) (Plain.callStmt "PutExcept" 1))
    (.returnStmt (some (.num 2))))

def activation : Activation :=
  { act := 0, base := 0, bottom := fun _ => ⟨0, 0⟩, floor := Int.le_refl 0
    older := fun _ low high => absurd low (Int.not_le.mpr high) }

def inside : Rt Plain := Rt.push ⟨0, 1⟩ { m := {}, acts := 1 }

theorem inside_holding : activation.Holding [⟨1, true⟩] { m := {} } inside := by
  have empty : activation.Holding [] ({ m := {} } : State Plain) { m := {}, acts := 1 } := by
    refine ⟨⟨rfl, rfl⟩, rfl, ?_, Nat.le_refl _⟩
    intro i low high
    exact absurd low (Int.not_le.mpr high)
  exact CSim.Holding.push 1 empty

theorem return_goes_as_expression_call :
    way (inC Plain.target id (analyzeExceptions returning) 4 activation
        { tryDepth := 1, handlers := [⟨1, true⟩], setjmps := 1 } (.returnStmt (some callF)) inside) ≠
      way (inC Plain.target id (analyzeExceptions returning) 4 activation
        { tryDepth := 1, handlers := [⟨1, true⟩], setjmps := 1 } (.exprStmt callF) inside) := by
  have assembles : Assembles id (analyzeExceptions returning) := assembles_unlabelled (by decide)
  have fits : CSim.Fits { tryDepth := 1, handlers := [⟨1, true⟩], setjmps := 1 } [⟨1, true⟩] := by
    refine ⟨rfl, rfl, ?_⟩
    intro h member
    rw [List.mem_singleton.mp member]
    decide
  rcases (return_goes_as_expression Plain.target id (analyzeExceptions returning) assembles 4
      [⟨1, true⟩] callF { m := {} } _ _ .callee .callee rfl rfl).1 activation _ inside fits
      inside_holding with ⟨t, limited⟩ | ⟨t, limited⟩ | ways
  · cases limited
  · cases limited
  · intro same
    exact absurd (ways.mp same) (by decide)

/-- The exception of the operand is not handled, that of the statement is. -/
theorem return_skips_catch :
    (∃ t, CRun.callFuel Plain.target id (analyzeExceptions returning) 4 (.name "G") []
      { m := {} } = .abort .unhandled t) ∧
    ∃ t, CRun.callFuel Plain.target id (analyzeExceptions evaluating) 4 (.name "G") []
      { m := {} } = .ret 2 t :=
  ⟨⟨_, rfl⟩, ⟨_, rfl⟩⟩

end Examples

end Aholyc.Returns
