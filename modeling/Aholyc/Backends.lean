import Aholyc.Lowerings

/-!
# The backends agree

Both backends follow the tree; so the code that they emit for one program, with the same lowering
of each `try`, comes to the same end.
-/

namespace Aholyc.Backends

open Aholyc.Lib Aholyc.Lib.Machine Aholyc.Effects Aholyc.Eval Aholyc.Source Aholyc.CRun Aholyc.CSim
  Aholyc.Balance Aholyc.LlRun Aholyc.LlSim Aholyc.Lowerings

variable {M : Type}

/-- The configuration is the end that the C program has come to, with its value, memory and
events. -/
def SameStop : Answer Word CStop (Rt M) → Config M → Prop
  | .ret v t, .returned v' [] t' => v = v' ∧ t.m = t'.m ∧ t.events = t'.events
  | .abort x t, .raised x' [] t' => x = x' ∧ t.m = t'.m ∧ t.events = t'.events
  | .abort x t, .stopped x' t' => x = x' ∧ t.m = t'.m ∧ t.events = t'.events
  | _, _ => False

theorem SameStop.halt {T : Target M} {pick : TryMode → TryMode} {prog : Program}
    {b : Answer Word CStop (Rt M)} {cfg : Config M} (same : SameStop b cfg) :
    LlRun.step T pick prog cfg = none := by
  cases cfg with
  | «at» => cases b <;> cases same
  | busy => cases b <;> cases same
  | stopped => rfl
  | returned v stack t =>
    cases stack with
    | nil => rfl
    | cons => cases b <;> cases same
  | raised x stack t =>
    cases stack with
    | nil => cases x <;> rfl
    | cons => cases b <;> cases same

/-- What the tree answers is what both programs come to. -/
theorem stops_same {fuel n acts : Nat} {fr : Int → Frame} {a : Answer Word Stop (State M)}
    {b : Answer Word CStop (Rt M)} {cfg : Config M} (unbarred : Unbarred a)
    (answer : AnsRel 0 fr acts a b) (finished : Finished fuel 0 fr acts [] n a cfg) :
    Overflows b ∨ SameStop b cfg ∨ (∃ t, b = .timeout t) ∧ fuel ≤ n := by
  have observed {s : State M} {t t' : Rt M} (seen : Same s t) (seen' : Same s t') :
      t.m = t'.m ∧ t.events = t'.events :=
    ⟨seen.1.trans seen'.1.symm, seen.2.trans seen'.2.symm⟩
  cases answer with
  | overflow => exact .inl ⟨_, rfl⟩
  | barred => cases unbarred
  | ret on =>
    obtain ⟨t, rfl, on'⟩ := finished
    exact .inr (.inl ⟨rfl, observed on.same on'.same⟩)
  | raise left =>
    obtain ⟨-, y, t, rfl, left'⟩ := finished
    rcases left with ⟨room, -⟩ | ⟨-, rfl, seen⟩
    · exact absurd room (Int.lt_irrefl 0)
    · rcases left' with ⟨room, -⟩ | ⟨-, rfl, seen'⟩
      · exact absurd room (Int.lt_irrefl 0)
      · exact .inr (.inl ⟨rfl, observed seen seen'⟩)
  | exit seen =>
    obtain ⟨t, rfl, seen'⟩ := finished
    exact .inr (.inl ⟨rfl, observed seen seen'⟩)
  | stuck seen =>
    obtain ⟨t, rfl, seen'⟩ := finished
    exact .inr (.inl ⟨rfl, observed seen seen'⟩)
  | timeout seen => exact .inr (.inr ⟨⟨_, rfl⟩, finished.2⟩)

/-- In a run in which no jump crosses the bounds of the body of a `try` or goes into a dropped
catch, and up to the limit on nested handlers, the C program and the LLVM program come to the same
end. The one has no answer within `fuel` calls only if the other takes `fuel` steps, so that the C
program ends when the LLVM program does. -/
theorem backends_agree (T : Target M) (pick : TryMode → TryMode) (prog : Program)
    (assembles : Assembles pick prog) (fuel : Nat) (as : List Word) (t : Rt M) (empty : t.ntry = 0)
    (unbarred : Unbarred (Source.runProgram T (lowered pick) prog fuel as (seen t))) :
    (∃ n cfg, Steps (LlRun.step T pick prog) n (start T pick prog as t) cfg ∧
      (Overflows (CRun.runProgram T pick prog fuel as t) ∨ Overflown cfg ∨
        SameStop (CRun.runProgram T pick prog fuel as t) cfg ∨
        (∃ u, CRun.runProgram T pick prog fuel as t = .timeout u) ∧ fuel ≤ n)) ∧
    ∀ n cfg, Steps (LlRun.step T pick prog) n (start T pick prog as t) cfg →
      LlRun.step T pick prog cfg = none → n < fuel →
        Overflows (CRun.runProgram T pick prog fuel as t) ∨ Overflown cfg ∨
          SameStop (CRun.runProgram T pick prog fuel as t) cfg := by
  have on : On 0 t.frames t.acts (seen t) t :=
    ⟨⟨rfl, rfl⟩, empty, fun _ _ _ => rfl, Nat.le_refl _⟩
  have older : ∀ i : Int, 0 ≤ i → i < 0 → (t.frames i).act < t.acts :=
    fun i low high => absurd low (Int.not_le.mpr high)
  have answer : AnsRel 0 t.frames t.acts (Source.runProgram T (lowered pick) prog fuel as (seen t))
      (CRun.runProgram T pick prog fuel as t) :=
    runProgram_rel (lowered_lowering pick) fuel as (seen t) t (Int.le_refl 0) older on
  obtain ⟨n, cfg, steps, ends⟩ := LlSim.runProgram_reaches (T := T) assembles
    (lowered_lowering pick) fuel as (seen t) t (Int.le_refl 0) older on
  have ends : Overflows (CRun.runProgram T pick prog fuel as t) ∨ Overflown cfg ∨
      SameStop (CRun.runProgram T pick prog fuel as t) cfg ∨
      (∃ u, CRun.runProgram T pick prog fuel as t = .timeout u) ∧ fuel ≤ n := by
    rcases ends with finished | overflown
    · rcases stops_same unbarred answer finished with overflows | rest
      · exact .inl overflows
      · exact .inr (.inr rest)
    · exact .inr (.inl overflown)
  refine ⟨⟨n, cfg, steps, ends⟩, ?_⟩
  intro n' cfg' steps' halt less
  have shorter := steps'.longest halt steps
  rcases ends with overflows | overflown | same | ⟨-, long⟩
  · exact .inl overflows
  · obtain ⟨u, rfl⟩ := overflown
    obtain ⟨-, rfl⟩ := shorter.2 rfl
    exact .inr (.inl ⟨u, rfl⟩)
  · obtain ⟨-, rfl⟩ := shorter.2 same.halt
    exact .inr (.inr same)
  · exact absurd (long.trans shorter.1) (Nat.not_le.mpr less)

theorem backends_agree_nestedMain :
    ∃ t n cfg, CRun.runProgram Plain.target id (analyzeExceptions nestedMain) 6 [] { m := {} } =
        .ret 0 t ∧
      Steps (LlRun.step Plain.target id (analyzeExceptions nestedMain)) n
        (start Plain.target id (analyzeExceptions nestedMain) [] { m := {} }) cfg ∧
      (Overflown cfg ∨ SameStop (.ret 0 t) cfg) := by
  obtain ⟨t, returns⟩ := nestedMain_returns id (.inr rfl)
  have assembles : Assembles id (analyzeExceptions nestedMain) := assembles_unlabelled (by decide)
  obtain ⟨n, cfg, steps, ends⟩ := (backends_agree Plain.target id (analyzeExceptions nestedMain)
    assembles 6 [] { m := {} } rfl trivial).1
  rw [returns] at ends
  refine ⟨t, n, cfg, returns, steps, ?_⟩
  rcases ends with overflows | overflown | same | ⟨⟨u, late⟩, -⟩
  · exact absurd overflows not_overflows
  · exact .inl overflown
  · exact .inr same
  · cases late

end Aholyc.Backends
