import Aholyc.CSim
import Aholyc.LlCode

/-!
# The emitted LLVM code does what the tree says

The counterpart of `Aholyc.CSim`: from the start of the code of a statement
the machine runs to the place that the outcome of the statement names, with
the same memory, the same events and the handler stack of that place. Every
round of a loop takes a step, so the machine runs at least as long as the fuel
of a tree that is cut off.
-/

namespace Aholyc.LlSim

open Aholyc.Lib Aholyc.Lib.Code Aholyc.Lib.Machine Aholyc.Effects Aholyc.Eval Aholyc.Source
  Aholyc.CRun Aholyc.CSim Aholyc.LlBackend Aholyc.LlRun Aholyc.LlCode
open Aholyc.CBackend (CHandler CLabel)

variable {M : Type}

def held {A : Type} : Comp Callee Word M A → M
  | .done _ m => m
  | .stuck m => m
  | .call _ _ m _ => m

/-- The memory and the events of a configuration are those of the state. -/
def Shows (s : State M) : Config M → Prop
  | .at _ _ _ _ t => Same s t
  | .busy _ _ _ comp _ t => Same s (t.setMem (held comp))
  | .returned _ _ t => Same s t
  | .raised _ _ t => Same s t
  | .stopped _ t => Same s t

def Overflown (cfg : Config M) : Prop := ∃ t, cfg = .stopped .overflow t

structure Spot (M : Type) where
  act : Nat
  code : List LlInstr
  pc : Nat
  stack : List (Waiting M)

/-- The machine has the answer, on the frames `fr`, after `n` steps. -/
def AnswerAt (fuel : Nat) (k : Int) (fr : Int → Frame) (acts : Nat) (spot : Spot M) {A : Type}
    (rest : A → M → Comp Callee Word M Move) (n : Nat) (a : Answer A Stop (State M))
    (cfg : Config M) : Prop :=
  match a with
  | .ret v s =>
      ∃ m t, cfg = .busy spot.act spot.code spot.pc (rest v m) spot.stack t ∧
        On k fr acts s (t.setMem m)
  | .abort (.raise o) s =>
      o = .callee ∧ ∃ y w t, cfg = .raised y (w :: spot.stack) t ∧ w.act = spot.act ∧
        w.code = spot.code ∧ Unwound k fr acts s y t
  | .abort .exit s => ∃ t, cfg = .stopped .exit t ∧ Same s t
  | .abort .stuck s => ∃ t, cfg = .stopped .stuck t ∧ Same s t
  | .abort .barred _ => True
  | .timeout s => Shows s cfg ∧ fuel ≤ n

variable {n pc : Nat} {i : LlInstr} {o : Outcome M} {t : Rt M} {mode : TryMode}
  {done el bl : LlLabel}

section Machine

variable (T : Target M) (pick : TryMode → TryMode) (prog : Program) (fuel : Nat)

def Evaluates (k : Int) (fr : Int → Frame) (acts : Nat) (spot : Spot M) {A : Type}
    (rest : A → M → Comp Callee Word M Move) (a : Answer A Stop (State M)) (cfg : Config M) :
    Prop :=
  ∃ n cfg', Steps (step T pick prog) n cfg cfg' ∧
    (AnswerAt fuel k fr acts spot rest n a cfg' ∨ Overflown cfg')

def CallsReach (call : Oracle M) : Prop :=
  ∀ k fr acts, 0 ≤ k → (∀ i, 0 ≤ i → i < k → (fr i).act < acts) →
    ∀ (spot : Spot M) (kont : Word → M → Comp Callee Word M Move) f as s m t,
      On k fr acts s (t.setMem m) →
        Evaluates T pick prog fuel k fr acts spot kont (call f as s)
          (.busy spot.act spot.code spot.pc (.call f as m kont) spot.stack t)

variable {T pick prog fuel} {k : Int} {fr : Int → Frame} {acts : Nat} {spot : Spot M}

theorem AnswerAt.later {m : Nat} (more : n ≤ m) {A : Type} {rest : A → M → Comp Callee Word M Move}
    {a : Answer A Stop (State M)} {cfg : Config M} (at' : AnswerAt fuel k fr acts spot rest n a cfg) :
    AnswerAt fuel k fr acts spot rest m a cfg := by
  cases a with
  | timeout s => exact ⟨at'.1, Nat.le_trans at'.2 more⟩
  | ret v s => exact at'
  | abort x s => cases x <;> exact at'

theorem Evaluates.after_steps {A : Type} {rest : A → M → Comp Callee Word M Move}
    {a : Answer A Stop (State M)} {cfg cfg' : Config M}
    (steps : Steps (step T pick prog) n cfg cfg')
    (later : Evaluates T pick prog fuel k fr acts spot rest a cfg') :
    Evaluates T pick prog fuel k fr acts spot rest a cfg := by
  obtain ⟨m, d, more, ends⟩ := later
  exact ⟨n + m, d, steps.trans more, ends.imp_left (AnswerAt.later (Nat.le_add_left m n))⟩

theorem evaluate_comp {call : Oracle M} (calls : CallsReach T pick prog fuel call) (floor : 0 ≤ k)
    (older : ∀ i, 0 ≤ i → i < k → (fr i).act < acts) {A : Type}
    (rest : A → M → Comp Callee Word M Move) (comp : Comp Callee Word M A) (s : State M) (m₀ : M)
    (t : Rt M) (on : On k fr acts s (t.setMem m₀)) :
    Evaluates T pick prog fuel k fr acts spot rest
      (comp.run State.m State.setMem .stuck call s)
      (.busy spot.act spot.code spot.pc (comp.bind rest) spot.stack t) := by
  induction comp generalizing s m₀ t with
  | done a m => exact ⟨0, _, .refl _, .inl ⟨m, t, rfl, on.setMem m⟩⟩
  | stuck m =>
    refine ⟨1, .stopped .stuck (t.setMem m), .one rfl, .inl ⟨_, rfl, ?_⟩⟩
    exact (on.setMem m).same
  | call f args m kont ih =>
    have here : On k fr acts (s.setMem m) (t.setMem m) := on.setMem m
    have once := calls k fr acts floor older spot (fun v m => (kont v m).bind rest) f args _ m t
      here
    simp only [Comp.run, Comp.bind]
    generalize call f args (s.setMem m) = a at once ⊢
    obtain ⟨n, d, steps, ends | ended⟩ := once
    · cases a with
      | timeout s' => exact ⟨n, d, steps, .inl ends⟩
      | abort x s' => cases x <;> exact ⟨n, d, steps, .inl ends⟩
      | ret v s' =>
        obtain ⟨m', t', rfl, on'⟩ := ends
        have same : s'.m = m' := on'.same.1.symm
        simp only [same]
        exact (ih v m' s' m' t' on').after_steps steps
    · exact ⟨n, d, steps, .inr ended⟩

theorem evaluate {call : Oracle M} (calls : CallsReach T pick prog fuel call) (floor : 0 ≤ k)
    (older : ∀ i, 0 ≤ i → i < k → (fr i).act < acts) {A : Type}
    (rest : A → M → Comp Callee Word M Move) (c : M → Comp Callee Word M A) (s : State M)
    (m : M) (t : Rt M) (on : On k fr acts s (t.setMem m)) :
    Evaluates T pick prog fuel k fr acts spot rest (Source.eval call c s)
      (.busy spot.act spot.code spot.pc ((c m).bind rest) spot.stack t) := by
  have same : s.m = m := on.same.1.symm
  unfold Source.eval
  rw [same]
  exact evaluate_comp calls floor older rest (c m) s m t on

end Machine

/-- An activation on the machine: what waits for it, and its code, in which no
label is placed twice. -/
structure Place (M : Type) where
  act : Activation
  code : List LlInstr
  stack : List (Waiting M)
  distinct : (labels LlInstr.placed code).Nodup

namespace Place

variable (P : Place M)

def Standing (hs : List CHandler) (p : Nat) (s : State M) (cfg : Config M) : Prop :=
  ∃ t, cfg = .at P.act.act P.code p P.stack t ∧ P.act.Holding hs s t

def Joint (hs : List CHandler) (q : Cursor) (s : State M) (cfg : Config M) : Prop :=
  q.gen.blockOpen = true ∧ P.Standing hs q.pos s cfg

end Place

def catchNumber : CLabel → Nat
  | .landing n => n
  | .catchL n => n
  | _ => 0

/-- The configurations that stand for the outcomes of a statement. -/
def ends (T : Target M) (pick : TryMode → TryMode) (prog : Program) (P : Place M)
    (hs : List CHandler) : Ends String Word Stop (State M) (Config M) where
  step := step T pick prog
  lab l := P.Standing hs (find P.code (.user l))
  ret v s cfg :=
    ∃ t, cfg = .returned v P.stack (t.setMem (T.leave t.m)) ∧
      On P.act.base P.act.bottom (P.act.act + 1) s t
  abort x s cfg :=
    match x with
    | .raise o =>
        (∃ l t, cfg = goTo T P.act.act P.code (.block .catchL (catchNumber l)) P.stack t ∧
          P.act.Caught hs o s l t) ∨
        ∃ y t, cfg = .raised y P.stack (t.setMem (T.leave t.m)) ∧ handled hs o = false ∧
          Unwound P.act.base P.act.bottom (P.act.act + 1) s y t
    | .exit => ∃ t, cfg = .stopped .exit t ∧ Same s t
    | .stuck => ∃ t, cfg = .stopped .stuck t ∧ Same s t
    | .barred => True
  clock := Shows
  dead := Overflown
  ticks := by
    rintro l s cfg ⟨t, rfl, on⟩
    exact on.same

section Joints

variable {T : Target M} {pick : TryMode → TryMode} {prog : Program} {P : Place M}
  {hs : List CHandler} {q : Cursor} {s : State M} {cfg : Config M} {fuel : Nat}

theorem barred_reaches {exit : State M → Config M → Prop} :
    Reaches (ends T pick prog P hs) fuel exit (.abort .barred s) cfg :=
  ⟨0, cfg, .refl cfg, .inl trivial⟩

theorem step_at {act : Nat} {code : List LlInstr} (fetch : code[pc]? = some i)
    (stack : List (Waiting M)) (t : Rt M) :
    step T pick prog (.at act code pc stack t) = some (execute T act code pc stack t i) := by
  simp only [step, fetch]

variable {l : LlLabel}

theorem Place.Standing.joint (written : Written P.code q (Emit.placeLabel l))
    (here : P.Standing hs (find P.code l) s cfg) :
    P.Joint hs (q.after (Emit.placeLabel l)) s cfg := by
  rw [find_placed P.distinct l written] at here
  exact ⟨rfl, here⟩

theorem goTo_quiet (quiet : Quiet l) (act : Nat) (code : List LlInstr) (stack : List (Waiting M))
    (t : Rt M) : goTo T act code l stack t = .at act code (find code l) stack t := by
  unfold goTo arrive
  split
  · cases quiet
  · rfl

theorem brTo_step (quiet : Quiet l) (written : Written P.code q (Emit.brTo l))
    (here : P.Joint hs q s cfg) :
    ∃ cfg', Steps (step T pick prog) 1 cfg cfg' ∧ P.Standing hs (find P.code l) s cfg' := by
  obtain ⟨opened, t, rfl, on⟩ := here
  have branch := ((written_andThen _ _ _ _).mp written).2
  rw [after_ensure opened] at branch
  refine ⟨_, .one (step_at (written_one branch) _ _), t, ?_, on⟩
  exact goTo_quiet quiet _ _ _ _

theorem brTo_steps {q' : Cursor} (quiet : Quiet l) (written : Written P.code q (Emit.brTo l))
    (placed : Written P.code q' (Emit.placeLabel l)) (s : State M) (cfg : Config M)
    (here : P.Joint hs q s cfg) :
    ∃ n cfg', Steps (step T pick prog) n cfg cfg' ∧
      P.Joint hs (q'.after (Emit.placeLabel l)) s cfg' := by
  obtain ⟨cfg', steps, there⟩ := brTo_step quiet written here
  exact ⟨1, cfg', steps, there.joint placed⟩

theorem joint_steps {q' : Cursor} (placed : Written P.code q' (Emit.placeLabel l)) (s : State M)
    (cfg : Config M) (there : P.Standing hs (find P.code l) s cfg) :
    ∃ n cfg', Steps (step T pick prog) n cfg cfg' ∧
      P.Joint hs (q'.after (Emit.placeLabel l)) s cfg' :=
  ⟨0, cfg, .refl cfg, there.joint placed⟩

theorem placeLabel_steps (quiet : Quiet l) (written : Written P.code q (Emit.placeLabel l))
    (here : P.Joint hs q s cfg) :
    ∃ n cfg', Steps (step T pick prog) n cfg cfg' ∧
      P.Joint hs (q.after (Emit.placeLabel l)) s cfg' := by
  obtain ⟨opened, t, rfl, on⟩ := here
  have branch : P.code[q.pos]? = some (.br l) := by
    unfold Written Emit.placeLabel at written
    rw [if_pos opened, List.singleton_append, sits_cons] at written
    exact written.1
  have there : P.Standing hs (find P.code l) s (.at P.act.act P.code (find P.code l) P.stack t) :=
    ⟨t, rfl, on⟩
  refine ⟨1, _, .one (step_at branch _ _), ?_⟩
  rw [show execute T P.act.act P.code q.pos P.stack t (.br l) =
    goTo T P.act.act P.code l P.stack t from rfl, goTo_quiet quiet]
  exact there.joint written

end Joints

section Leaves

variable {T : Target M} {pick : TryMode → TryMode} {prog : Program} {P : Place M}
  {hs : List CHandler} {q : Cursor} {fuel : Nat} {call : Oracle M}
  {exit : State M → Config M → Prop}

/-- An exception that the runtime delivers to the newest frame. -/
theorem raised_reaches (o : Origin) (s : State M) (y : CStop) (t : Rt M) (w : Waiting M)
    (act : w.act = P.act.act) (code : w.code = P.code)
    (origin : o = .callee ∨ (nearest hs = false ∧ o ≠ .escape))
    (left : Unwound (P.act.base + depth hs) (P.act.layout hs) (P.act.act + 1) s y t) :
    Reaches (ends T pick prog P hs) fuel exit (.abort (.raise o) s)
      (.raised y (w :: P.stack) t) := by
  have delivered := land_rel hs o s y t origin left
  -- Either the frame is of this activation, or the exception leaves it.
  have leaves : ∀ y, step T pick prog (.raised y (w :: P.stack) t) =
        some (.raised y P.stack (t.setMem (T.leave t.m))) →
      (sim P.act hs).Rel (.abort (.raise o) s) (.abort y t) → y ≠ .overflow →
      Reaches (ends T pick prog P hs) fuel exit (.abort (.raise o) s)
        (.raised y (w :: P.stack) t) := by
    intro y pops rel other
    refine ⟨1, _, .one pops, .inl ?_⟩
    cases rel with
    | abort ended => exact .inr ⟨y, t, rfl, ended⟩
    | dead ended => exact absurd ended other
    | free any => cases any
  cases y with
  | unwind f =>
    by_cases own : f.act = P.act.act
    · simp only [land, if_pos own] at delivered
      refine ⟨1, goTo T w.act w.code (.block .catchL f.site) P.stack t, .one ?_, .inl ?_⟩
      · simp only [ends, step, act, own, if_true]
      · cases delivered with
        | caught taken =>
          obtain ⟨o', same, taken⟩ := taken
          cases same
          exact .inl ⟨_, t, by rw [act, code]; rfl, taken⟩
        | free any => cases any
    · simp only [land, if_neg own] at delivered
      apply leaves _ _ delivered (by simp)
      simp only [step]
      rw [if_neg (by rw [act]; exact own)]
  | unhandled => exact leaves _ rfl delivered (by simp)
  | exit => rcases left with ⟨-, named, -⟩ | ⟨-, named, -⟩ <;> cases named
  | overflow => rcases left with ⟨-, named, -⟩ | ⟨-, named, -⟩ <;> cases named
  | stuck => rcases left with ⟨-, named, -⟩ | ⟨-, named, -⟩ <;> cases named

theorem Reaches.execute (fetch : P.code[pc]? = some i)
    (rest : Reaches (ends T pick prog P hs) fuel exit o (execute T P.act.act P.code pc P.stack t i)) :
    Reaches (ends T pick prog P hs) fuel exit o (.at P.act.act P.code pc P.stack t) := by
  have first : step T pick prog (.at P.act.act P.code pc P.stack t) =
    some (LlRun.execute T P.act.act P.code pc P.stack t i) := step_at fetch P.stack t
  exact rest.after_steps (.one first)

/-- The runtime's `throw`, from code of the activation. -/
theorem raise_reaches (o : Origin) (pc : Nat) (s : State M) (t : Rt M)
    (origin : o = .callee ∨ (nearest hs = false ∧ o ≠ .escape)) (on : P.act.Holding hs s t) :
    Reaches (ends T pick prog P hs) fuel exit (.abort (.raise o) s)
      (LlRun.raise P.act.act P.code pc P.stack t) :=
  raised_reaches o s _ _ _ rfl rfl origin (On.unwind on)

def settle {A : Type} (k : A → State M → Outcome M) : Answer A Stop (State M) → Outcome M
  | .ret v s => k v s
  | .abort x s => .abort x s
  | .timeout s => .timeout s

def Place.spot (P : Place M) (pc : Nat) : Spot M := ⟨P.act.act, P.code, pc, P.stack⟩

theorem settle_reaches {A : Type} {rest : A → M → Comp Callee Word M Move}
    {k : A → State M → Outcome M} {a : Answer A Stop (State M)} {cfg : Config M}
    (evaluates : Evaluates T pick prog fuel (P.act.base + depth hs) (P.act.layout hs)
      (P.act.act + 1) (P.spot pc) rest a cfg) (next : ∀ v s m t, P.act.Holding hs s (t.setMem m) →
      Reaches (ends T pick prog P hs) fuel exit (k v s)
        (.busy P.act.act P.code pc (rest v m) P.stack t)) :
    Reaches (ends T pick prog P hs) fuel exit (settle k a) cfg := by
  obtain ⟨n, d, steps, ends | ended⟩ := evaluates
  swap
  · exact ⟨n, d, steps, .inr ended⟩
  cases a with
  | timeout s => exact ⟨n, d, steps, .inl ends⟩
  | ret v s =>
    obtain ⟨m, t, rfl, on⟩ := ends
    exact (next v s m t on).after_steps steps
  | abort x s =>
    cases x with
    | exit => exact ⟨n, d, steps, .inl ends⟩
    | stuck => exact ⟨n, d, steps, .inl ends⟩
    | barred => exact ⟨n, d, steps, .inl trivial⟩
    | raise o =>
      obtain ⟨rfl, y, w, t, rfl, act, code, left⟩ := ends
      exact (raised_reaches .callee s y t w act code (.inl rfl) left).after_steps steps

theorem operand_reaches (calls : CallsReach T pick prog fuel call) {A : Type}
    (c : M → Comp Callee Word M A) (rest : A → M → Comp Callee Word M Move) (s : State M) (m : M)
    (t : Rt M) (on : P.act.Holding hs s (t.setMem m)) :
    Evaluates T pick prog fuel (P.act.base + depth hs) (P.act.layout hs) (P.act.act + 1)
      (P.spot pc) rest (Source.eval call c s)
      (.busy P.act.act P.code pc ((c m).bind rest) P.stack t) := by
  have floor := P.act.floor
  exact evaluate calls (by omega) (layout_older hs) rest c s m t on

theorem evalInstr_reaches (calls : CallsReach T pick prog fuel call) (e : Expr)
    (fetch : P.code[pc]? = some (.eval e)) (s : State M) (cfg : Config M)
    (here : P.Standing hs pc s cfg) :
    Reaches (ends T pick prog P hs) fuel (P.Standing hs (pc + 1))
      (perform (Source.eval call (val T e) s)) cfg := by
  obtain ⟨t, rfl, on⟩ := here
  have shape : ∀ a : Answer Word Stop (State M), perform a = settle (fun _ s => .next s) a := by
    intro a
    cases a <;> rfl
  rw [shape]
  apply Reaches.execute fetch
  apply settle_reaches (operand_reaches calls (val T e) (fun _ m => .done .fall m) s t.m t on)
  intro v s m t on
  exact ⟨1, _, .one rfl, .inl ⟨t.setMem m, rfl, on⟩⟩

/-- A `throw` statement that stores its argument, before the jump. -/
theorem storeExcept_reaches (calls : CallsReach T pick prog fuel call) (as : Expr) (thrown : Origin)
    (fetch : P.code[pc]? = some (.storeExcept as))
    (branch : P.code[pc + 1]? = some (.br (.block .catchL n))) (s : State M) (cfg : Config M)
    (here : P.Standing (⟨n, false⟩ :: hs) pc s cfg) :
    Reaches (ends T pick prog P (⟨n, false⟩ :: hs)) fuel exit (throwStmt T thrown call true as s)
      cfg := by
  obtain ⟨t, rfl, on⟩ := here
  have shape : throwStmt T thrown call true as s = settle
      (fun v s' => .abort (.raise .direct) (s'.setMem (T.setExcept v s'.m)))
      (Source.eval call (firstArg T as) s) := by
    simp only [throwStmt, if_true]
    cases Source.eval call (firstArg T as) s <;> rfl
  rw [shape]
  apply Reaches.execute fetch
  apply settle_reaches (operand_reaches calls (firstArg T as)
    (fun v m => .done .fall (T.setExcept v m)) s t.m t on)
  intro v s m t on
  have same : s.m = m := on.same.1.symm
  rw [same]
  have stored : P.act.Holding (⟨n, false⟩ :: hs) (s.setMem (T.setExcept v m))
      ((t.setMem m).setMem (T.setExcept v m)) := On.setMem (T.setExcept v m) on
  apply Reaches.after_steps (.one rfl)
  apply Reaches.execute branch
  refine ⟨0, _, .refl _, .inl (.inl ⟨.catchL n, _, rfl, ?_⟩)⟩
  exact .inl ⟨rfl, rfl, stored⟩

def thrownBy (thrown : Origin) : Answer Word Stop (State M) → Outcome M
  | .ret _ s => .next s
  | .abort (.raise _) s => .abort (.raise thrown) s
  | .abort x s => .abort x s
  | .timeout s => .timeout s

theorem throwCall_reaches (calls : CallsReach T pick prog fuel call) {thrown : Origin}
    (visible : thrown ≠ .escape) (near : nearest hs = false) (e as : Expr)
    (isThrow : isThrowCall e = some as) (fetch : P.code[pc]? = some (.eval e)) (s : State M)
    (cfg : Config M) (here : P.Standing hs pc s cfg) :
    Reaches (ends T pick prog P hs) fuel (P.Standing hs (pc + 1))
      (throwStmt T thrown call false as s) cfg := by
  obtain ⟨t, rfl, on⟩ := here
  have floor := P.act.floor
  obtain ⟨ty, nfixed, rfl⟩ := isThrowCall_some isThrow
  let throwing (vs : List Word) (s' : State M) : Outcome M :=
    thrownBy thrown (call (.name "throw") vs s')
  have shape : throwStmt T thrown call false as s =
      settle throwing (Source.eval call (args T as) s) := by
    simp only [throwStmt, Bool.false_eq_true, if_false]
    cases Source.eval call (args T as) s <;> rfl
  rw [shape]
  apply Reaches.execute fetch
  let last (vs : List Word) (m : M) : Comp Callee Word M Move :=
    .call (.name "throw") vs m fun _ m => .done .fall m
  have split : (val T (.call ty "throw" as nfixed) t.m).bind (fun _ m => .done Move.fall m) =
      (args T as t.m).bind last := by
    simp only [val, Comp.bind_assoc]
    rfl
  show Reaches _ _ _ _ (Config.busy P.act.act P.code pc
    ((val T (.call ty "throw" as nfixed) t.m).bind fun _ m => .done .fall m) P.stack t)
  rw [split]
  apply settle_reaches (operand_reaches calls (args T as) last s t.m t on)
  intro vs s m t on
  have once := calls _ _ _ (by omega) (layout_older hs) (P.spot pc)
    (fun _ m => .done .fall m) (.name "throw") vs s m t on
  simp only [throwing]
  generalize call (.name "throw") vs s = a at once ⊢
  obtain ⟨n, d, steps, ends | ended⟩ := once
  swap
  · exact ⟨n, d, steps, .inr ended⟩
  cases a with
  | timeout s => exact ⟨n, d, steps, .inl ends⟩
  | ret v s =>
    obtain ⟨m, t, rfl, on⟩ := ends
    exact Reaches.after_steps steps ⟨1, _, .one rfl, .inl ⟨t.setMem m, rfl, on⟩⟩
  | abort x s =>
    cases x with
    | exit => exact ⟨n, d, steps, .inl ends⟩
    | stuck => exact ⟨n, d, steps, .inl ends⟩
    | barred => exact ⟨n, d, steps, .inl trivial⟩
    | raise o =>
      obtain ⟨rfl, y, w, t, rfl, act, code, left⟩ := ends
      exact (raised_reaches thrown s y t w act code (.inr ⟨near, visible⟩) left).after_steps
        steps

theorem asmInstr_reaches (a : AsmBlock) (fetch : P.code[pc]? = some (.asm a)) (s : State M)
    (cfg : Config M) (here : P.Standing hs pc s cfg) :
    Reaches (ends T pick prog P hs) fuel (P.Standing hs (pc + 1)) (Source.asmStmt T a s) cfg := by
  obtain ⟨t, rfl, on⟩ := here
  apply Reaches.execute fetch
  have same : s.m = t.m := on.same.1.symm
  have later := On.setMem (T.asm a t.m).1 on
  unfold Source.asmStmt
  rw [same]
  simp only [execute]
  split
  · exact raise_reaches .callee _ _ _ (.inl rfl) later
  · exact Reaches.next ⟨_, rfl, later⟩

theorem condBr_reaches (calls : CallsReach T pick prog fuel call) (cond : Expr) {yes no : LlLabel}
    (fetch : P.code[pc]? = some (.condBr cond yes no)) (quietYes : Quiet yes) (quietNo : Quiet no)
    (s : State M) (cfg : Config M) (here : P.Standing hs pc s cfg) :
    TestReaches (ends T pick prog P hs) fuel (P.Standing hs (find P.code yes))
      (P.Standing hs (find P.code no)) (Source.condition T call (some cond) s) cfg := by
  obtain ⟨t, rfl, on⟩ := here
  have first : step T pick prog (.at P.act.act P.code pc P.stack t) =
    some (execute T P.act.act P.code pc P.stack t _) := step_at fetch P.stack t
  have evaluates : Evaluates T pick prog fuel (P.act.base + depth hs) (P.act.layout hs)
      (P.act.act + 1) (P.spot pc) (fun b m => .done (.br (if b then yes else no)) m)
      (Source.eval call (truth T cond) s) (.busy P.act.act P.code pc _ P.stack t) :=
    operand_reaches calls (truth T cond) _ s t.m t on
  obtain ⟨n, d, steps, ends | ended⟩ := evaluates
  swap
  · exact ⟨n + 1, d, .head first steps, .inr ended⟩
  simp only [Source.condition]
  generalize Source.eval call (truth T cond) s = a at ends ⊢
  cases a with
  | timeout s =>
    exact ⟨n + 1, d, .head first steps,
      .inl ⟨ends.1, Nat.le_trans ends.2 (Nat.le_succ n)⟩⟩
  | ret b s =>
    obtain ⟨m, t', rfl, on⟩ := ends
    have arrives := Steps.trans (.head first steps) (.one rfl)
    cases b with
    | true =>
      refine ⟨_, _, arrives, .inl ⟨⟨t'.setMem m, ?_, on⟩, Nat.succ_pos _⟩⟩
      exact goTo_quiet quietYes _ _ _ _
    | false =>
      refine ⟨_, _, arrives, .inl ⟨⟨t'.setMem m, ?_, on⟩, Nat.succ_pos _⟩⟩
      exact goTo_quiet quietNo _ _ _ _
  | abort x s =>
    cases x with
    | exit => exact ⟨n + 1, d, .head first steps, .inl ends⟩
    | stuck => exact ⟨n + 1, d, .head first steps, .inl ends⟩
    | barred => exact ⟨n + 1, d, .head first steps, .inl trivial⟩
    | raise o =>
      obtain ⟨rfl, y, w, t', rfl, act, code, left⟩ := ends
      have leaves : Reaches (ends T pick prog P hs) fuel (fun _ _ => True)
          (.abort (.raise .callee) s) (.raised y (w :: P.stack) t') :=
        raised_reaches .callee s y t' w act code (.inl rfl) left
      obtain ⟨m, d, more, ends⟩ := leaves
      exact ⟨n + 1 + m, d, Steps.trans (.head first steps) more, ends⟩

theorem pops_steps (n p : Nat) (written : Sits P.code p (List.replicate n .tryPop)) (t : Rt M) :
    Steps (step T pick prog) n (.at P.act.act P.code p P.stack t)
      (.at P.act.act P.code (p + n) P.stack (t.pops n)) := by
  induction n generalizing p t with
  | zero =>
    have none : t.pops 0 = t := by simp [Rt.pops]
    rw [none]
    exact .refl _
  | succ n ih =>
    rw [List.replicate_succ, sits_cons] at written
    have rest := ih (p + 1) written.2 t.pop
    have count : t.pop.pops n = t.pops (n + 1) := by
      simp only [Rt.pop, Rt.pops, Rt.mk.injEq, true_and, and_true]
      omega
    rw [count, Nat.add_right_comm] at rest
    exact .head (step_at written.1 _ _) rest

/-- An exception that comes up when the frames of the activation are gone. -/
theorem escape_reaches (s : State M) (y : CStop) (t : Rt M) (w : Waiting M)
    (act : w.act = P.act.act)
    (left : Unwound P.act.base P.act.bottom (P.act.act + 1) s y t) :
    Reaches (ends T pick prog P hs) fuel exit (.abort (.raise .escape) s)
      (.raised y (w :: P.stack) t) := by
  have pops : step T pick prog (.raised y (w :: P.stack) t) =
      some (.raised y P.stack (t.setMem (T.leave t.m))) := by
    rcases left with ⟨room, rfl, -⟩ | ⟨-, rfl, -⟩
    · have older := P.act.older (P.act.base - 1) (by omega) (by omega)
      simp only [step]
      rw [if_neg (by rw [act]; omega)]
    · rfl
  exact ⟨1, _, .one pops, .inl (.inr ⟨y, t, rfl, handled_escape hs, left⟩)⟩

theorem return_reaches (calls : CallsReach T pick prog fuel call) {rules : Rules}
    (early : rules.early = true) (lhs : Option Expr)
    (written : Written P.code q (.all [Emit.ensureBlock,
      Emit.write (List.replicate (depth hs) .tryPop), Emit.close (.ret lhs)]))
    (s : State M) (cfg : Config M) (here : P.Joint hs q s cfg) :
    Reaches (ends T pick prog P hs) fuel exit (Source.returnStmt T rules call lhs s) cfg := by
  obtain ⟨opened, t, rfl, on⟩ := here
  rw [written_cons, after_ensure opened, written_cons, written_cons] at written
  obtain ⟨-, pops, fetch, -⟩ := written
  have popped : On P.act.base P.act.bottom (P.act.act + 1) s (t.pops (depth hs)) :=
    Holding.pops on
  apply Reaches.after_steps (pops_steps _ _ pops t)
  have last : P.code[q.pos + depth hs]? = some (.ret lhs) := by
    have one := written_one fetch
    simpa [Cursor.after, Emit.write] using one
  apply Reaches.execute last
  cases lhs with
  | none => exact ⟨1, _, .one rfl, .inl ⟨_, rfl, popped⟩⟩
  | some e =>
    have older : ∀ i, 0 ≤ i → i < P.act.base → (P.act.bottom i).act < P.act.act + 1 :=
      fun i low high => (P.act.older i low high).trans (Nat.lt_succ_self _)
    have evaluates : Evaluates T pick prog fuel P.act.base P.act.bottom (P.act.act + 1)
        (P.spot (q.pos + depth hs)) (fun v m => .done (.ret v) m) (Source.eval call (val T e) s)
        (.busy P.act.act P.code (q.pos + depth hs) _ P.stack (t.pops (depth hs))) :=
      evaluate calls P.act.floor older _ (val T e) s t.m (t.pops (depth hs)) popped
    obtain ⟨n, d, steps, ends | ended⟩ := evaluates
    swap
    · exact ⟨n, d, steps, .inr ended⟩
    simp only [Source.returnStmt]
    generalize Source.eval call (val T e) s = a at ends ⊢
    cases a with
    | timeout s => exact ⟨n, d, steps, .inl ends⟩
    | ret v s =>
      obtain ⟨m, t, rfl, on⟩ := ends
      exact Reaches.after_steps steps ⟨1, _, .one rfl, .inl ⟨t.setMem m, rfl, on⟩⟩
    | abort x s =>
      cases x with
      | exit => exact ⟨n, d, steps, .inl ends⟩
      | stuck => exact ⟨n, d, steps, .inl ends⟩
      | barred => exact ⟨n, d, steps, .inl trivial⟩
      | raise o =>
        obtain ⟨rfl, y, w, t, rfl, act, code, left⟩ := ends
        simp only [early, if_true]
        exact (escape_reaches s y t w act left).after_steps steps

end Leaves

section Tries

variable {T : Target M} {pick : TryMode → TryMode} {prog : Program} {P : Place M}
  {hs : List CHandler} {q : Cursor} {fuel : Nat}
  {mid exit : State M → Config M → Prop}

/-- A statement in the place of the body of a `try` without a handler. -/
theorem bare_reaches {gate : Bool} {has : String → Bool} {els : State M → Outcome M}
    {cfg : Config M} (body : Reaches (ends T pick prog P hs) fuel exit o cfg) :
    Reaches (ends T pick prog P hs) fuel exit (receive T mode .none els (guarded gate has o))
      cfg := by
  obtain ⟨n, d, steps, ends | ended⟩ := body
  swap
  · exact ⟨n, d, steps, .inr ended⟩
  cases o with
  | next s => exact ⟨n, d, steps, .inl ends⟩
  | ret v s => exact ⟨n, d, steps, .inl ends⟩
  | timeout s => exact ⟨n, d, steps, .inl ends⟩
  | jump l s =>
    simp only [guarded]
    by_cases barred : (gate && !has l) = true
    · rw [if_pos barred]
      exact barred_reaches
    · rw [if_neg barred]
      exact ⟨n, d, steps, .inl ends⟩
  | abort x s =>
    cases x with
    | exit => exact ⟨n, d, steps, .inl ends⟩
    | stuck => exact ⟨n, d, steps, .inl ends⟩
    | barred => exact barred_reaches
    | raise o =>
      simp only [guarded, receive, catches, Bool.false_eq_true, if_false]
      by_cases escape : o = .escape
      · rw [if_pos escape]
        subst escape
        exact ⟨n, d, steps, .inl ends⟩
      · rw [if_neg escape]
        refine ⟨n, d, steps, .inl ?_⟩
        rcases ends with ⟨l, t, named, taken⟩ | ⟨y, t, named, missed, left⟩
        · exact .inl ⟨l, t, named, caught_reach mode o taken⟩
        · exact .inr ⟨y, t, named, missed, left.reach mode o⟩

/-- The events and the memory at the start of a catch. -/
theorem Holding.caught {s : State M} (mode : TryMode) (o : Origin) (on : P.act.Holding hs s t) :
    P.act.Holding hs ((s.reach mode o).note (.enter (T.exceptCh s.m)))
      (t.note (.enter (T.exceptCh t.m))) := by
  refine ⟨⟨on.same.1, ?_⟩, on.ntry, on.frames, on.acts⟩
  simp [State.note, Rt.note, State.reach, on.same.1, on.same.2]

theorem entering_reaches {rules : Rules} {saved : M} {els : State M → Outcome M}
    {entry : State M → Config M → Prop}
    (catching : ∀ s cfg, entry s cfg →
      Reaches (ends T pick prog P hs) fuel exit (finish T (els s)) cfg) (s : State M)
    (cfg : Config M) (there : entry s cfg) :
    Reaches (ends T pick prog P hs) fuel exit (finish T (entering T rules mode saved els s)) cfg := by
  unfold entering
  split
  · exact barred_reaches
  · exact catching s cfg there

theorem branchTry_reaches {gate : Bool} {has : String → Bool} {els : State M → Outcome M}
    {cfg : Config M} (body : Reaches (ends T pick prog P (⟨n, false⟩ :: hs)) fuel mid o cfg)
    (ending : ∀ s cfg, mid s cfg → ∃ n cfg', Steps (step T pick prog) n cfg cfg' ∧ exit s cfg')
    (catching : ∀ s cfg, P.Standing hs (find P.code (.block .catchL n)) s cfg →
      Reaches (ends T pick prog P hs) fuel exit (finish T (els s)) cfg) :
    Reaches (ends T pick prog P hs) fuel exit (receive T mode .branch els (guarded gate has o))
      cfg := by
  obtain ⟨k, d, steps, ends | ended⟩ := body
  swap
  · exact ⟨k, d, steps, .inr ended⟩
  cases o with
  | next s =>
    obtain ⟨m, d', more, there⟩ := ending s d ends
    exact ⟨k + m, d', steps.trans more, .inl there⟩
  | ret v s => exact ⟨k, d, steps, .inl ends⟩
  | timeout s => exact ⟨k, d, steps, .inl ends⟩
  | jump l s =>
    simp only [guarded]
    by_cases barred : (gate && !has l) = true
    · rw [if_pos barred]
      exact barred_reaches
    · rw [if_neg barred]
      exact ⟨k, d, steps, .inl ends⟩
  | abort x s =>
    cases x with
    | exit => exact ⟨k, d, steps, .inl ends⟩
    | stuck => exact ⟨k, d, steps, .inl ends⟩
    | barred => exact barred_reaches
    | raise o =>
      simp only [guarded, receive]
      by_cases escape : o = .escape
      · rw [if_pos escape]
        subst escape
        refine ⟨k, d, steps, .inl ?_⟩
        rcases ends with ⟨l, t, named, taken⟩ | ⟨y, t, named, missed, left⟩
        · rcases taken with ⟨direct, -⟩ | ⟨-, deeper⟩
          · cases direct
          · exact .inl ⟨l, t, named, deeper⟩
        · exact .inr ⟨y, t, named, handled_escape hs, left⟩
      · rw [if_neg escape]
        rcases ends with ⟨l, t, rfl, taken⟩ | ⟨y, t, named, missed, left⟩
        · simp only [Activation.Caught, Bool.false_eq_true, if_false] at taken
          rcases taken with ⟨direct, rfl, on⟩ | ⟨miss, deeper⟩
          · rw [if_pos direct]
            exact (catching _ _ ⟨_, rfl, Holding.caught mode o on⟩).after_steps steps
          · rw [if_neg (by simp [miss])]
            exact ⟨k, _, steps, .inl (.inl ⟨l, t, rfl, caught_reach mode o deeper⟩)⟩
        · simp only [handled, Bool.false_eq_true, if_false, Bool.or_eq_false_iff] at missed
          rw [if_neg (by simp [missed.1])]
          exact ⟨k, d, steps, .inl (.inr ⟨y, t, named, missed.2, left.reach mode o⟩)⟩

/-- The jump to the catch of a `try` with a frame of the handler stack. No
jump leaves its body. -/
theorem dynamicTry_reaches {has : String → Bool} {els : State M → Outcome M} {cfg : Config M}
    (body : Reaches (ends T pick prog P (⟨n, true⟩ :: hs)) fuel mid o cfg)
    (stays : ∀ l s, o = .jump l s → has l = false)
    (ending : ∀ s cfg, mid s cfg → ∃ n cfg', Steps (step T pick prog) n cfg cfg' ∧ exit s cfg')
    (catching : ∀ s cfg, P.Standing hs (find P.code (.block .catchL n)) s cfg →
      Reaches (ends T pick prog P hs) fuel exit (finish T (els s)) cfg) :
    Reaches (ends T pick prog P hs) fuel exit (receive T mode .dynamic els (guarded true has o))
      cfg := by
  obtain ⟨k, d, steps, ends | ended⟩ := body
  swap
  · exact ⟨k, d, steps, .inr ended⟩
  cases o with
  | next s =>
    obtain ⟨m, d', more, there⟩ := ending s d ends
    exact ⟨k + m, d', steps.trans more, .inl there⟩
  | ret v s => exact ⟨k, d, steps, .inl ends⟩
  | timeout s => exact ⟨k, d, steps, .inl ends⟩
  | jump l s =>
    simp only [guarded, stays l s rfl, Bool.not_false, Bool.and_self, if_true]
    exact barred_reaches
  | abort x s =>
    cases x with
    | exit => exact ⟨k, d, steps, .inl ends⟩
    | stuck => exact ⟨k, d, steps, .inl ends⟩
    | barred => exact barred_reaches
    | raise o =>
      simp only [guarded, receive]
      by_cases escape : o = .escape
      · rw [if_pos escape]
        subst escape
        refine ⟨k, d, steps, .inl ?_⟩
        rcases ends with ⟨l, t, named, taken⟩ | ⟨y, t, named, missed, left⟩
        · exact absurd rfl taken.1
        · exact .inr ⟨y, t, named, handled_escape hs, left⟩
      · rw [if_neg escape, if_pos (by simp [catches, escape])]
        rcases ends with ⟨l, t, rfl, taken⟩ | ⟨y, t, named, missed, left⟩
        · obtain ⟨-, rfl, on⟩ := taken
          exact (catching _ _ ⟨_, rfl, Holding.caught mode o on⟩).after_steps steps
        · simp [handled, escape] at missed

theorem emitCatchEnd_branch {g : LlGen} (handlers : g.handlers = ⟨n, false⟩ :: hs) (done : LlLabel) :
    emitCatchEnd done g = Emit.all [Emit.ensureBlock,
      Emit.close (.testExcept (.block .catchL n) done), Emit.placeLabel done] g := by
  simp [emitCatchEnd, handlers]

theorem emitCatchEnd_again {g : LlGen} (near : nearest g.handlers = false) (done : LlLabel) :
    emitCatchEnd done g = emitCatchEnd.again done g := by
  unfold emitCatchEnd
  split
  · rename_i h _ handlers
    have dynamic : h.dynamic = true := by simpa [handlers, nearest] using near
    rw [if_pos dynamic]
  · rfl

/-- The end of a catch that nobody in the function takes up: `throw`. -/
theorem throwAgain_reaches (q : Cursor) {rethrow : LlLabel} (quiet : Quiet rethrow)
    (quietDone : Quiet done) (near : nearest hs = false)
    (written : Written P.code q (.all [Emit.close (.testExcept rethrow done),
      Emit.placeLabel rethrow, Emit.write [.throwAgain], Emit.brTo done, Emit.placeLabel done]))
    (s : State M) (t : Rt M) (on : P.act.Holding hs s t) :
    Reaches (ends T pick prog P hs) fuel (P.Joint hs (q.after (.all
      [Emit.close (.testExcept rethrow done), Emit.placeLabel rethrow, Emit.write [.throwAgain],
        Emit.brTo done, Emit.placeLabel done])))
      (if T.catchExcept s.m = 0 then .abort (.raise .rethrow) (s.note (.leave true))
        else .next (s.note (.leave false))) (.at P.act.act P.code q.pos P.stack t) := by
  simp only [written_cons, after_cons, after_nil] at written ⊢
  obtain ⟨test, rethrows, throws, -, placed, -⟩ := written
  apply Reaches.execute (written_one test)
  have mem : s.m = t.m := on.same.1.symm
  rw [mem]
  simp only [execute]
  by_cases clear : T.catchExcept t.m = 0
  · rw [if_pos clear, if_pos clear, goTo_quiet quiet, find_placed P.distinct rethrow rethrows]
    have noted : P.act.Holding hs (s.note (.leave true)) (t.note (.leave true)) := On.note _ on
    apply Reaches.execute ((sits_cons _ _ _ _).mp throws).1
    have unchanged : (t.note (.leave true)).setMem (T.setExcept (T.exceptCh (t.note (.leave true)).m)
        (t.note (.leave true)).m) = t.note (.leave true) := by
      have same := T.setExcept_same t.m clear
      simp only [Rt.note, Rt.setMem, same]
    simp only [execute, unchanged]
    exact raise_reaches .rethrow _ _ _ (.inr ⟨near, by decide⟩) noted
  · rw [if_neg clear, if_neg clear, goTo_quiet quietDone]
    have noted : P.act.Holding hs (s.note (.leave false)) (t.note (.leave false)) := On.note _ on
    have there : P.Standing hs (find P.code done) (s.note (.leave false))
      (.at P.act.act P.code (find P.code done) P.stack (t.note (.leave false))) := ⟨_, rfl, noted⟩
    exact Reaches.next (there.joint placed)

/-- The end of a catch inside the body of a `try` with a branch. -/
theorem outerCatch_reaches (q : Cursor) (quietDone : Quiet done)
    (written : Written P.code q (.all [Emit.ensureBlock,
      Emit.close (.testExcept (.block .catchL n) done), Emit.placeLabel done]))
    (opened : q.gen.blockOpen = true) (s : State M) (t : Rt M)
    (on : P.act.Holding (⟨n, false⟩ :: hs) s t) :
    Reaches (ends T pick prog P (⟨n, false⟩ :: hs)) fuel (P.Joint (⟨n, false⟩ :: hs)
      (q.after (.all [Emit.ensureBlock, Emit.close (.testExcept (.block .catchL n) done),
        Emit.placeLabel done])))
      (if T.catchExcept s.m = 0 then .abort (.raise .rethrow) (s.note (.leave true))
        else .next (s.note (.leave false))) (.at P.act.act P.code q.pos P.stack t) := by
  simp only [written_cons, after_cons, after_nil, after_ensure opened] at written ⊢
  obtain ⟨-, test, placed, -⟩ := written
  apply Reaches.execute (written_one test)
  have mem : s.m = t.m := on.same.1.symm
  rw [mem]
  simp only [execute]
  by_cases clear : T.catchExcept t.m = 0
  · rw [if_pos clear, if_pos clear]
    have noted : P.act.Holding (⟨n, false⟩ :: hs) (s.note (.leave true)) (t.note (.leave true)) :=
      On.note _ on
    exact ⟨0, _, .refl _, .inl (.inl ⟨.catchL n, _, rfl, .inl ⟨rfl, rfl, noted⟩⟩)⟩
  · rw [if_neg clear, if_neg clear, goTo_quiet quietDone]
    have noted : P.act.Holding (⟨n, false⟩ :: hs) (s.note (.leave false))
      (t.note (.leave false)) := On.note _ on
    have there : P.Standing (⟨n, false⟩ :: hs) (find P.code done) (s.note (.leave false))
      (.at P.act.act P.code (find P.code done) P.stack (t.note (.leave false))) := ⟨_, rfl, noted⟩
    exact Reaches.next (there.joint placed)

theorem finish_reaches (quiet : Quiet done) (handlers : q.gen.handlers = hs)
    (written : Written P.code q (emitCatchEnd done)) {cfg : Config M}
    (body : Reaches (ends T pick prog P hs) fuel (P.Joint hs q) o cfg) :
    Reaches (ends T pick prog P hs) fuel (P.Joint hs (q.after (emitCatchEnd done))) (finish T o)
      cfg := by
  apply after_reaches body
  rintro s cfg ⟨opened, t, rfl, on⟩
  cases near : nearest hs with
  | false =>
    have again := emitCatchEnd_again (handlers ▸ near) done
    rw [written_congr again] at written
    rw [after_congr again]
    unfold emitCatchEnd.again at written ⊢
    rw [written_andThen, after_ensure opened] at written
    rw [after_andThen, after_ensure opened]
    exact throwAgain_reaches (q.reserve 1) (show Quiet (.block .rethrow _) from trivial) quiet near
      written.2 s t on
  | true =>
    cases hs with
    | nil => cases near
    | cons h hs =>
      obtain ⟨n, dynamic⟩ := h
      cases dynamic with
      | true => cases near
      | false =>
        have branch := emitCatchEnd_branch handlers done
        rw [written_congr branch] at written
        rw [after_congr branch]
        exact outerCatch_reaches q quiet written opened s t on

end Tries

section Constructs

variable {T : Target M} {pick : TryMode → TryMode} {prog : Program} {P : Place M}
  {hs : List CHandler} {fuel : Nat} {call : Oracle M} {has hasA hasB : String → Bool}

theorem single_reaches (q : Cursor) {f : State M → Outcome M}
    (written : Written P.code q (.all [Emit.ensureBlock, Emit.write [i]]))
    (instr : ∀ s cfg, P.code[q.pos]? = some i → P.Standing hs q.pos s cfg →
      Reaches (ends T pick prog P hs) fuel (P.Standing hs (q.pos + 1)) (f s) cfg) (s : State M)
    (cfg : Config M) (here : P.Joint hs q s cfg) :
    Reaches (ends T pick prog P hs) fuel
      (P.Joint hs (q.after (.all [Emit.ensureBlock, Emit.write [i]]))) (f s) cfg := by
  simp only [written_cons, after_cons, after_nil, after_ensure here.1] at written ⊢
  apply Reaches.to_exit _ (instr s cfg ((sits_cons _ _ _ _).mp written.2.1).1 here.2)
  intro s cfg there
  exact ⟨0, cfg, .refl cfg, here.1, there⟩

structure Fits (g : LlGen) (hs : List CHandler) : Prop where
  handlers : g.handlers = hs
  tryDepth : g.tryDepth = depth hs

theorem Fits.after {q : Cursor} (fits : Fits q.gen hs) {used : List LlLabel} {kept : List String}
    {a : Emit} (emits : Emits used kept a) : Fits (q.after a).gen hs :=
  ⟨(emits q.gen).handlers.trans fits.handlers, (emits q.gen).tryDepth.trans fits.tryDepth⟩

/-- Wherever the part of the emitter writes, the machine does what `f` says. -/
def Faithful (T : Target M) (pick : TryMode → TryMode) (prog : Program) (P : Place M)
    (hs : List CHandler) (fuel : Nat) (has : String → Bool) (a : Emit)
    (f : Entry String → State M → Outcome M) : Prop :=
  ∀ q : Cursor, Fits q.gen hs → Written P.code q a →
    Correct (ends T pick prog P hs) fuel has (P.Joint hs q) (P.Joint hs (q.after a)) f

variable {thn els : Emit} {kept : List String} {a b : Entry String → State M → Outcome M}

theorem seq_faithful (emits : Emits [] kept thn)
    (first : Faithful T pick prog P hs fuel hasA thn a)
    (rest : Faithful T pick prog P hs fuel hasB els b) :
    Faithful T pick prog P hs fuel (fun l => hasA l || hasB l) (.all [thn, els])
      (Flow.andThen hasA hasB a b) := by
  intro q fits written
  simp only [written_cons, after_cons, after_nil] at written ⊢
  obtain ⟨writtenFirst, writtenRest, -⟩ := written
  exact andThen_correct (first q fits writtenFirst) (rest _ (fits.after emits) writtenRest)

variable {tl hl : LlLabel} {kept' : List String}

theorem if_faithful (calls : CallsReach T pick prog fuel call) (cond : Expr) {dl : LlLabel}
    (quiet : Quiet tl ∧ Quiet el ∧ Quiet dl) (emits : Emits [] kept thn)
    (thnRight : Faithful T pick prog P hs fuel hasA thn a)
    (elsRight : Faithful T pick prog P hs fuel hasB els b) :
    Faithful T pick prog P hs fuel (fun l => hasA l || hasB l)
      (.all [Emit.ensureBlock, Emit.close (.condBr cond tl el), Emit.placeLabel tl, thn,
        Emit.brTo dl, Emit.placeLabel el, els, Emit.brTo dl, Emit.placeLabel dl])
      (Flow.branch hasA .abort (Source.condition T call (some cond)) a b) := by
  intro q fits written
  simp only [written_cons, after_cons, after_nil] at written ⊢
  obtain ⟨-, test, thenLabel, thenPart, out, elseLabel, elsePart, out', endLabel, -⟩ := written
  have fitsThen :=
    ((fits.after Emits.ensureBlock).after (Emits.close (.condBr cond tl el) rfl)).after
      (Emits.placeLabel tl)
  have fitsElse := ((fitsThen.after emits).after (Emits.brTo dl)).after (Emits.placeLabel el)
  apply branch_correct
  · intro s cfg here
    rw [after_ensure here.1] at test
    exact condBr_reaches calls cond (written_one test) quiet.1 quiet.2.1 s cfg here.2
  · apply Correct.of_start (joint_steps thenLabel)
    exact (thnRight _ fitsThen thenPart).to_exit (brTo_steps quiet.2.2 out endLabel)
  · apply Correct.of_start (joint_steps elseLabel)
    exact (elsRight _ fitsElse elsePart).to_exit (brTo_steps quiet.2.2 out' endLabel)

theorem when_faithful (calls : CallsReach T pick prog fuel call) (cond : Expr) {dl : LlLabel}
    (quiet : Quiet tl ∧ Quiet dl) (thnRight : Faithful T pick prog P hs fuel hasA thn a) :
    Faithful T pick prog P hs fuel (fun l => hasA l || false)
      (.all [Emit.ensureBlock, Emit.close (.condBr cond tl dl), Emit.placeLabel tl, thn,
        Emit.brTo dl, Emit.placeLabel dl])
      (Flow.branch hasA .abort (Source.condition T call (some cond)) a (Flow.leaf .next)) := by
  intro q fits written
  simp only [written_cons, after_cons, after_nil] at written ⊢
  obtain ⟨-, test, thenLabel, thenPart, out, endLabel, -⟩ := written
  have fitsThen :=
    ((fits.after Emits.ensureBlock).after (Emits.close (.condBr cond tl dl) rfl)).after
      (Emits.placeLabel tl)
  apply branch_correct
  · intro s cfg here
    rw [after_ensure here.1] at test
    exact condBr_reaches calls cond (written_one test) quiet.1 quiet.2 s cfg here.2
  · apply Correct.of_start (joint_steps thenLabel)
    exact (thnRight _ fitsThen thenPart).to_exit (brTo_steps quiet.2 out endLabel)
  · apply leaf_correct (fun _ => rfl)
    intro s cfg there
    exact Reaches.next (there.joint endLabel)

theorem while_faithful (calls : CallsReach T pick prog fuel call) (cond : Expr)
    (quiet : Quiet hl ∧ Quiet bl ∧ Quiet el) (thnRight : Faithful T pick prog P hs fuel hasA thn a) :
    Faithful T pick prog P hs fuel hasA
      (.all [Emit.brTo hl, Emit.placeLabel hl, Emit.close (.condBr cond bl el),
        Emit.placeLabel bl, thn, Emit.brTo hl, Emit.placeLabel el])
      (Flow.whileLoop .abort (Source.condition T call (some cond)) a fuel) := by
  intro q fits written
  simp only [written_cons, after_cons, after_nil] at written ⊢
  obtain ⟨into, headLabel, test, bodyLabel, bodyPart, again, endLabel, -⟩ := written
  have fitsBody := (((fits.after (Emits.brTo hl)).after (Emits.placeLabel hl)).after
    (Emits.close (.condBr cond bl el) rfl)).after (Emits.placeLabel bl)
  apply Correct.of_start (brTo_steps quiet.1 into headLabel)
  apply Correct.to_exit (joint_steps endLabel)
  have body := (thnRight _ fitsBody bodyPart).to_exit (brTo_steps quiet.1 again headLabel)
  apply whileLoop_correct _ _ (body.of_start (joint_steps bodyLabel))
  · rintro s cfg ⟨-, t, rfl, on⟩
    exact on.same
  · intro s cfg here
    exact condBr_reaches calls cond (written_one test) quiet.2.1 quiet.2.2 s cfg here.2

theorem doWhile_faithful (calls : CallsReach T pick prog fuel call) (cond : Expr)
    (quiet : Quiet bl ∧ Quiet hl ∧ Quiet el) (thnRight : Faithful T pick prog P hs fuel hasA thn a) :
    Faithful T pick prog P hs fuel hasA
      (.all [Emit.brTo bl, Emit.placeLabel bl, thn, Emit.brTo hl, Emit.placeLabel hl,
        Emit.close (.condBr cond bl el), Emit.placeLabel el])
      (Flow.doLoop .abort (Source.condition T call (some cond)) a fuel) := by
  intro q fits written
  simp only [written_cons, after_cons, after_nil] at written ⊢
  obtain ⟨into, bodyLabel, bodyPart, again, headLabel, test, endLabel, -⟩ := written
  have fitsBody := (fits.after (Emits.brTo bl)).after (Emits.placeLabel bl)
  apply Correct.of_start
  · intro s cfg here
    obtain ⟨cfg', steps, there⟩ := brTo_step quiet.1 into here
    exact ⟨1, cfg', steps, there⟩
  apply Correct.to_exit (joint_steps endLabel)
  have body := (thnRight _ fitsBody bodyPart).to_exit (brTo_steps quiet.2.1 again headLabel)
  apply doLoop_correct _ _ (body.of_start (joint_steps bodyLabel))
  · rintro s cfg ⟨-, t, rfl, on⟩
    exact on.same
  · intro s cfg here
    exact condBr_reaches calls cond (written_one test) quiet.1 quiet.2.2 s cfg here.2

/-- The rounds of a `for`: the test, the body, the increment. -/
theorem for_faithful {init inc : Emit} {i : Entry String → State M → Outcome M}
    {hasI : String → Bool} (quiet : Quiet hl ∧ Quiet bl ∧ Quiet el) (test : Emit)
    (emitsTest : Emits [] [] test) (cond : State M → Test Stop (State M))
    (testing : ∀ q : Cursor, q.gen.blockOpen = true → Written P.code q test → ∀ s cfg,
      P.Standing hs q.pos s cfg → TestReaches (ends T pick prog P hs) fuel
        (P.Standing hs (find P.code bl)) (P.Standing hs (find P.code el)) (cond s) cfg)
    (emitsInit : Emits [] kept' init) (emits : Emits [] kept thn)
    (initRight : Faithful T pick prog P hs fuel hasI init i)
    (thnRight : Faithful T pick prog P hs fuel hasA thn a)
    (incRight : Faithful T pick prog P hs fuel hasB inc b) :
    Faithful T pick prog P hs fuel (fun l => hasI l || (hasA l || hasB l))
      (.all [init, Emit.brTo hl, Emit.placeLabel hl, test, Emit.placeLabel bl, thn, inc,
        Emit.brTo hl, Emit.placeLabel el])
      (Flow.andThen hasI (fun l => hasA l || hasB l) i
        (Flow.region (fun l => hasA l || hasB l)
          (Flow.whileLoop .abort cond
            (Flow.region (fun l => hasA l || hasB l) (Flow.andThen hasA hasB a b) fuel) fuel)
          fuel)) := by
  intro q fits written
  simp only [written_cons, after_cons, after_nil] at written ⊢
  obtain ⟨initPart, into, headLabel, testPart, bodyLabel, bodyPart, incPart, again, endLabel, -⟩ :=
    written
  have fitsBody := ((((fits.after emitsInit).after (Emits.brTo hl)).after
    (Emits.placeLabel hl)).after emitsTest).after (Emits.placeLabel bl)
  apply andThen_correct (initRight q fits initPart)
  apply region_correct
  apply Correct.of_start (brTo_steps quiet.1 into headLabel)
  apply Correct.to_exit (joint_steps endLabel)
  have round := andThen_correct (thnRight _ fitsBody bodyPart)
    (incRight _ (fitsBody.after emits) incPart)
  have body := (region_correct round).to_exit (brTo_steps quiet.1 again headLabel)
  apply whileLoop_correct _ _ (body.of_start (joint_steps bodyLabel))
  · rintro s cfg ⟨-, t, rfl, on⟩
    exact on.same
  · intro s cfg here
    exact testing _ here.1 testPart s cfg here.2

theorem label_faithful (l : String) :
    Faithful T pick prog P hs fuel (fun k => k == l) (Emit.placeLabel (.user l))
      (fun _ s => .next s) := by
  intro q fits written e s cfg within starts
  cases e with
  | run =>
    obtain ⟨n, cfg', steps, there⟩ := placeLabel_steps (show Quiet (.user l) from trivial) written starts
    exact ⟨n, cfg', steps, .inl there⟩
  | seek k =>
    have same : k = l := by simpa [Entry.Within] using within
    subst same
    have there : P.Standing hs (find P.code (.user k)) s cfg := starts
    exact Reaches.next (there.joint written)

theorem goto_faithful (live : String → Bool) (l : String) :
    Faithful T pick prog P hs fuel (fun _ => false) (Emit.brTo (.user l))
      (Flow.leaf fun s => if live l then .jump l s else .abort .barred s) := by
  intro q fits written
  apply leaf_correct fun _ => rfl
  intro s cfg here
  split
  · obtain ⟨cfg', steps, there⟩ := brTo_step (show Quiet (.user l) from trivial) written here
    exact ⟨1, cfg', steps, .inl ⟨there, Nat.one_pos⟩⟩
  · exact barred_reaches

/-- A catch, from its label or from a label inside it. -/
theorem catch_reaches {q : Cursor} (quiet : Quiet done) (fits : Fits q.gen hs)
    (emitsEls : Emits [] kept' els) (placed : Written P.code q (Emit.placeLabel (.block .catchL n)))
    (elsPart : Written P.code (q.after (Emit.placeLabel (.block .catchL n))) els)
    (ending : Written P.code ((q.after (Emit.placeLabel (.block .catchL n))).after els)
      (emitCatchEnd done)) (elsRight : Faithful T pick prog P hs fuel hasB els b) (e : Entry String)
    (s : State M) (cfg : Config M) (within : e.Within hasB) (starts : Start (ends T pick prog P hs)
      (P.Standing hs (find P.code (.block .catchL n))) e s cfg) :
    Reaches (ends T pick prog P hs) fuel
      (P.Joint hs (((q.after (Emit.placeLabel (.block .catchL n))).after els).after
        (emitCatchEnd done))) (finish T (b e s)) cfg := by
  have fitsEls := fits.after (Emits.placeLabel (.block .catchL n))
  apply finish_reaches quiet (fitsEls.after emitsEls).handlers ending
  apply elsRight _ fitsEls elsPart e s cfg within
  cases e with
  | run =>
    have there : P.Standing hs (find P.code (.block .catchL n)) s cfg := starts
    exact there.joint placed
  | seek l => exact starts

theorem branchTry_faithful {rules : Rules} (picked : rules.pick mode = .branch) (quiet : Quiet done)
    (emits : Emits [] kept thn) (emitsEls : Emits [] kept' els)
    (thnRight : Faithful T pick prog P (⟨n, false⟩ :: hs) fuel hasA thn a)
    (elsRight : Faithful T pick prog P hs fuel hasB els b) :
    Faithful T pick prog P hs fuel (fun l => hasA l || hasB l)
      (.all [Emit.under false n thn, Emit.brTo done, Emit.placeLabel (.block .catchL n), els,
        emitCatchEnd done])
      (attempt T rules mode hasA a b) := by
  intro q fits written
  simp only [written_cons, after_cons, after_nil] at written ⊢
  obtain ⟨bodyPart, out, catchLabel, elsPart, ending, -⟩ := written
  have fitsCatch := (fits.after (Emits.under false n emits)).after (Emits.brTo done)
  obtain ⟨last, lastLabel, same⟩ := catchEnd_placed ending
  have catching := catch_reaches quiet fitsCatch emitsEls catchLabel elsPart ending elsRight
  have fitsBody : Fits (q.gen.pushHandler false n) (⟨n, false⟩ :: hs) := by
    refine ⟨congrArg _ fits.handlers, ?_⟩
    rw [depth_local hs rfl]
    exact fits.tryDepth
  have body := thnRight ⟨q.pos, q.gen.pushHandler false n⟩ fitsBody bodyPart
  rw [same] at catching ⊢
  have received : ∀ e s cfg, e.Within hasA →
      Start (ends T pick prog P hs) (P.Joint hs q) e s cfg →
      Reaches (ends T pick prog P hs) fuel (P.Joint hs (last.after (Emit.placeLabel done)))
        (receive T mode (rules.pick mode) (entering T rules mode s.m (b .run))
          (guarded (rules.gate mode) hasA (a e s))) cfg := by
    intro e s cfg within starts
    have inside : Start (ends T pick prog P (⟨n, false⟩ :: hs))
        (P.Joint (⟨n, false⟩ :: hs) ⟨q.pos, q.gen.pushHandler false n⟩) e s cfg := by
      cases e with
      | run => exact starts
      | seek l => exact starts
    rw [picked]
    apply branchTry_reaches (body e s cfg within inside)
    · intro s cfg there
      have outer : P.Joint hs (q.after (Emit.under false n thn)) s cfg := there
      exact brTo_steps quiet out lastLabel s cfg outer
    · exact entering_reaches fun s cfg there => catching .run s cfg trivial there
  intro e s cfg within starts
  cases e with
  | run => exact received .run s cfg trivial starts
  | seek l =>
    simp only [attempt]
    by_cases inside : hasA l = true
    · rw [if_pos inside]
      split
      · exact barred_reaches
      · exact received (.seek l) s cfg inside starts
    · rw [if_neg inside]
      split
      · exact barred_reaches
      · apply catching (.seek l) s cfg _ starts
        have either : (hasA l || hasB l) = true := within
        simpa [Entry.Within, inside] using either

theorem setjmp_steps {q : Cursor} (quiet : Quiet tl) (fetch : P.code[q.pos]? = some (.setjmp tl n))
    (s : State M) (cfg : Config M) (here : P.Joint hs q s cfg) :
    ∃ cfg', Steps (step T pick prog) 1 cfg cfg' ∧
      (P.Standing (⟨n, true⟩ :: hs) (find P.code tl) s cfg' ∨ Overflown cfg') := by
  obtain ⟨-, t, rfl, on⟩ := here
  refine ⟨_, .one (step_at fetch _ _), ?_⟩
  simp only [execute]
  split
  · exact .inr ⟨t, rfl⟩
  · left
    exact ⟨_, goTo_quiet quiet _ _ _ _, Holding.push n on⟩

theorem tryPop_steps {q last : Cursor} (quiet : Quiet done)
    (pops : Written P.code (q.after Emit.ensureBlock) (Emit.write [.tryPop]))
    (out : Written P.code ((q.after Emit.ensureBlock).after (Emit.write [.tryPop]))
      (Emit.brTo done)) (lastLabel : Written P.code last (Emit.placeLabel done)) (s : State M)
    (cfg : Config M) (here : P.Joint (⟨n, true⟩ :: hs) q s cfg) :
    ∃ k cfg', Steps (step T pick prog) k cfg cfg' ∧
      P.Joint hs (last.after (Emit.placeLabel done)) s cfg' := by
  obtain ⟨opened, t, rfl, on⟩ := here
  rw [after_ensure opened] at pops out
  have first : step T pick prog (.at P.act.act P.code q.pos P.stack t) = some _ :=
    step_at ((sits_cons _ _ _ _).mp pops).1 P.stack t
  have outer : P.Joint hs (q.after (Emit.write [.tryPop])) s
      (.at P.act.act P.code (q.pos + 1) P.stack t.pop) := ⟨opened, t.pop, rfl, Holding.pop on⟩
  obtain ⟨k, cfg, more, there⟩ := brTo_steps quiet out lastLabel s _ outer
  exact ⟨k + 1, cfg, .head first more, there⟩

/-- No jump crosses the bounds of the body, so every way out of it pops the
frame or has it popped. -/
theorem dynamicTry_faithful {rules : Rules} (picked : rules.pick mode = .dynamic)
    (gated : rules.gate mode = true) (quiet : Quiet done) (quietBody : Quiet tl)
    (emits : Emits [] kept thn) (emitsEls : Emits [] kept' els)
    (escapes : ∀ e s l s', a e s = .jump l s' → hasA l = false)
    (thnRight : Faithful T pick prog P (⟨n, true⟩ :: hs) fuel hasA thn a)
    (elsRight : Faithful T pick prog P hs fuel hasB els b) :
    Faithful T pick prog P hs fuel (fun l => hasA l || hasB l)
      (.all [Emit.close (.setjmp tl n), Emit.placeLabel tl,
        Emit.deeper (Emit.under true n thn), Emit.ensureBlock, Emit.write [.tryPop],
        Emit.brTo done, Emit.placeLabel (.block .catchL n), els, emitCatchEnd done])
      (attempt T rules mode hasA a b) := by
  intro q fits written
  simp only [written_cons, after_cons, after_nil] at written ⊢
  obtain ⟨push, bodyLabel, bodyPart, -, pops, out, catchLabel, elsPart, ending, -⟩ := written
  have fitsIn := (fits.after (Emits.close (.setjmp tl n) rfl)).after (Emits.placeLabel tl)
  have fitsCatch := (((fitsIn.after (Emits.deeper (Emits.under true n emits))).after
    Emits.ensureBlock).after (Emits.write [.tryPop] rfl)).after (Emits.brTo done)
  obtain ⟨last, lastLabel, same⟩ := catchEnd_placed ending
  have catching := catch_reaches quiet fitsCatch emitsEls catchLabel elsPart ending elsRight
  rw [same] at catching ⊢
  intro e s cfg within starts
  cases e with
  | seek l =>
    simp only [attempt]
    by_cases inside : hasA l = true
    · rw [if_pos inside, if_pos gated]
      exact barred_reaches
    · rw [if_neg inside]
      split
      · exact barred_reaches
      · apply catching (.seek l) s cfg _ starts
        have either : (hasA l || hasB l) = true := within
        simpa [Entry.Within, inside] using either
  | run =>
    obtain ⟨cfg', steps, there | ended⟩ := setjmp_steps quietBody (written_one push) s cfg starts
    swap
    · exact ⟨1, cfg', steps, .inr ended⟩
    simp only [attempt, picked, gated]
    have inside := there.joint bodyLabel
    generalize (q.after (Emit.close (.setjmp tl n))).after (Emit.placeLabel tl) = q' at *
    have fitsBody : Fits (LlGen.pushHandler { q'.gen with tryDepth := q'.gen.tryDepth + 1 } true
        n) (⟨n, true⟩ :: hs) :=
      ⟨congrArg _ fitsIn.handlers, congrArg (· + 1) fitsIn.tryDepth⟩
    have body := thnRight ⟨q'.pos, _⟩ fitsBody bodyPart .run s cfg' trivial inside
    apply Reaches.after_steps steps
    apply dynamicTry_reaches body (escapes .run s)
    · intro s cfg there
      exact tryPop_steps quiet pops out lastLabel s cfg there
    · exact entering_reaches fun s cfg there => catching .run s cfg trivial there

end Constructs

section Statements

variable {T : Target M} {rules : Rules} {prog : Program} {P : Place M} {thrown : Origin}
  {live : String → Bool} {fuel : Nat} {call : Oracle M}

theorem Fits.reserve {q : Cursor} {hs : List CHandler} (n : Nat) (fits : Fits q.gen hs) :
    Fits (q.reserve n).gen hs :=
  ⟨fits.handlers, fits.tryDepth⟩

theorem region_faithful {pick : TryMode → TryMode} {hs : List CHandler} {has : String → Bool}
    {a : Emit} {f : Entry String → State M → Outcome M}
    (right : Faithful T pick prog P hs fuel has a f) :
    Faithful T pick prog P hs fuel has a (Flow.region has f fuel) :=
  fun q fits written => region_correct (right q fits written)

theorem exprStmt_faithful (calls : CallsReach T rules.pick prog fuel call)
    (visible : thrown ≠ .escape) (e : Expr) (hs : List CHandler) :
    Faithful T rules.pick prog P hs fuel (fun _ => false) (emitStmt rules.pick (.exprStmt e))
      (Source.run T rules thrown live call fuel (nearest hs) (.exprStmt e)) := by
  intro q fits written
  apply leaf_correct fun _ => rfl
  intro s cfg here
  simp only [emitStmt] at written ⊢
  cases thrower : isThrowCall e with
  | none =>
    rw [thrower] at written
    exact single_reaches q written (fun s cfg fetch => evalInstr_reaches calls e fetch s cfg) s
      cfg here
  | some as =>
    rw [thrower] at written
    cases near : nearest hs with
    | false =>
      have call : emitThrow e as q.gen = Emit.all [Emit.ensureBlock, Emit.write [.eval e]]
          q.gen := by
        unfold emitThrow
        split
        · rename_i h _ handlers
          have dynamic : h.dynamic = true := by
            simpa [← fits.handlers, handlers, nearest] using near
          rw [if_pos dynamic]
        · rfl
      rw [written_congr call] at written
      simp only [after_congr call]
      exact single_reaches q written
        (fun s cfg fetch => throwCall_reaches calls visible near e as thrower fetch s cfg) s cfg
        here
    | true =>
      cases hs with
      | nil => cases near
      | cons h hs =>
        obtain ⟨n, dynamic⟩ := h
        cases dynamic with
        | true => cases near
        | false =>
          have branch : emitThrow e as q.gen = Emit.all [Emit.ensureBlock,
              Emit.write [.storeExcept as], Emit.brTo (.block .catchL n)] q.gen := by
            simp [emitThrow, fits.handlers]
          rw [written_congr branch] at written
          simp only [written_cons, after_ensure here.1] at written
          obtain ⟨-, store, out, -⟩ := written
          have jump := ((written_andThen _ _ _ _).mp out).2
          rw [after_ensure (show (q.after (Emit.write [.storeExcept as])).gen.blockOpen = true
            from here.1)] at jump
          exact storeExcept_reaches calls as thrown ((sits_cons _ _ _ _).mp store).1
            (written_one jump) s cfg here.2

theorem forTest_reaches {pick : TryMode → TryMode} {hs : List CHandler}
    (calls : CallsReach T pick prog fuel call) (cond : Option Expr) (quietBody : Quiet bl)
    (quietEnd : Quiet el) (q : Cursor) (opened : q.gen.blockOpen = true)
    (written : Written P.code q (match cond with
      | some c => Emit.close (.condBr c bl el)
      | none => Emit.brTo bl)) (s : State M) (cfg : Config M) (here : P.Standing hs q.pos s cfg) :
    TestReaches (ends T pick prog P hs) fuel (P.Standing hs (find P.code bl))
      (P.Standing hs (find P.code el)) (Source.condition T call cond s) cfg := by
  cases cond with
  | some c => exact condBr_reaches calls c (written_one written) quietBody quietEnd s cfg here
  | none =>
    obtain ⟨cfg', steps, there⟩ := brTo_step quietBody written ⟨opened, here⟩
    exact ⟨1, cfg', steps, .inl ⟨there, Nat.one_pos⟩⟩

theorem bareTry_correct {hs : List CHandler} {hasA hasB : String → Bool}
    {start exit : State M → Config M → Prop} {a b : Entry String → State M → Outcome M}
    (picked : rules.pick mode = .none)
    (body : Correct (ends T rules.pick prog P hs) fuel hasA start exit a) :
    Correct (ends T rules.pick prog P hs) fuel
      (fun l => hasA l || (decide (TryMode.none ≠ .none) && hasB l)) start exit
      (attempt T rules mode hasA a b) := by
  intro e s cfg within starts
  cases e with
  | run =>
    simp only [attempt, picked]
    exact bare_reaches (body .run s cfg trivial starts)
  | seek l =>
    have inside : hasA l = true := by simpa [Entry.Within] using within
    simp only [attempt, picked, inside, if_true]
    split
    · exact barred_reaches
    · exact bare_reaches (body (.seek l) s cfg inside starts)

/-- Wherever a statement is emitted, the machine does what the tree says. -/
theorem run_faithful (calls : CallsReach T rules.pick prog fuel call) (lowering : Lowering rules)
    (visible : thrown ≠ .escape) (stmt : Stmt) (hs : List CHandler) :
    Faithful T rules.pick prog P hs fuel (stmt.keeps rules.pick) (emitStmt rules.pick stmt)
      (Source.run T rules thrown live call fuel (nearest hs) stmt) := by
  induction stmt generalizing hs with
  | null =>
    intro q fits written
    exact leaf_correct (fun _ => rfl) fun s cfg here => Reaches.next here
  | nop =>
    intro q fits written
    exact leaf_correct (fun _ => rfl) fun s cfg here => Reaches.next here
  | goto l => exact goto_faithful live l
  | label l =>
    have same : (Stmt.label l).keeps rules.pick = fun k => k == l := by
      funext k
      simp [Stmt.keeps, Stmt.keptLabels, beq_eq_decide]
    rw [same]
    exact label_faithful l
  | exprStmt e => exact exprStmt_faithful calls visible e hs
  | returnStmt lhs =>
    intro q fits written
    apply leaf_correct fun _ => rfl
    intro s cfg here
    have parts : Written P.code q (.all [Emit.ensureBlock,
        Emit.write (List.replicate q.gen.tryDepth .tryPop), Emit.close (.ret lhs)]) := written
    rw [fits.tryDepth] at parts
    exact return_reaches calls lowering.early lhs parts s cfg here
  | asmStmt a =>
    intro q fits written
    apply leaf_correct fun _ => rfl
    exact single_reaches q written fun s cfg fetch => asmInstr_reaches a fetch s cfg
  | block body ih => exact ih hs
  | seq first rest ihFirst ihRest =>
    apply region_faithful
    rw [Stmt.keeps_seq]
    exact seq_faithful (emit_emits rules.pick first) (ihFirst hs) (ihRest hs)
  | ifStmt cond thn els ihThn ihEls =>
    apply region_faithful
    rw [Stmt.keeps_if]
    intro q fits written
    simp only [emitStmt] at written ⊢
    split at written
    · exact when_faithful calls cond (by simp [Quiet]) (ihThn hs) (q.reserve 3) (fits.reserve 3)
        written
    · exact if_faithful calls cond (by simp [Quiet]) (emit_emits rules.pick thn)
        (ihThn hs) (ihEls hs) (q.reserve 3) (fits.reserve 3) written
  | whileStmt cond thn ih =>
    apply region_faithful
    intro q fits written
    exact while_faithful calls cond (by simp [Quiet]) (ih hs) (q.reserve 3)
      (fits.reserve 3) written
  | doWhile thn cond ih =>
    apply region_faithful
    intro q fits written
    exact doWhile_faithful calls cond (by simp [Quiet]) (ih hs) (q.reserve 3)
      (fits.reserve 3) written
  | forStmt init cond inc thn ihInit ihInc ihThn =>
    apply region_faithful
    rw [Stmt.keeps_for]
    intro q fits written
    have emitsInit := emit_emits rules.pick init
    have emitsThn := emit_emits rules.pick thn
    simp only [Stmt.keeps_seq]
    exact for_faithful (by simp [Quiet]) _ (forTest_emits cond _ _) _
      (forTest_reaches calls cond (by simp [Quiet]) (by simp [Quiet])) emitsInit emitsThn
      (ihInit hs) (ihThn hs) (ihInc hs) (q.reserve 3) (fits.reserve 3) written
  | tryStmt mode thn els ihThn ihEls =>
    apply region_faithful
    have keeps : (Stmt.tryStmt mode thn els).keeps rules.pick = fun l =>
        thn.keeps rules.pick l || (decide (rules.pick mode ≠ .none) && els.keeps rules.pick l) :=
      funext (Stmt.keeps_try rules.pick mode thn els)
    rw [keeps]
    intro q fits written
    simp only [LlBackend.emitStmt] at written ⊢
    cases picked : rules.pick mode with
    | none =>
      simp only [picked] at written ⊢
      exact bareTry_correct picked (ihThn hs q fits written)
    | branch =>
      simp only [picked] at written ⊢
      exact branchTry_faithful picked (by simp [Quiet]) (emit_emits rules.pick thn)
        (emit_emits rules.pick els) (ihThn (⟨_, false⟩ :: hs)) (ihEls hs) (q.reserve 2)
        (fits.reserve 2) written
    | dynamic =>
      simp only [picked] at written ⊢
      rw [written_andThen] at written
      rw [after_andThen]
      have right := dynamicTry_faithful picked (lowering.gate mode picked) (by simp [Quiet])
        (by simp [Quiet]) (emit_emits rules.pick thn) (emit_emits rules.pick els)
        (fun e s l s' jumps => run_escapes thn jumps) (ihThn (⟨_, true⟩ :: hs)) (ihEls hs)
        ((q.after Emit.ensureBlock).reserve 3)
        ((fits.after Emits.ensureBlock).reserve 3) written.2
      apply Correct.of_start _ right
      intro s cfg here
      refine ⟨0, cfg, .refl cfg, ?_⟩
      show P.Joint hs (q.after Emit.ensureBlock) s cfg
      rw [after_ensure here.1]
      exact here

end Statements

/-- The labels of every function differ: neither `clang` nor `llc` takes the
code otherwise. -/
def Assembles (pick : TryMode → TryMode) (prog : Program) : Prop :=
  ∀ fn ∈ prog.startup :: prog.funcs, ∀ body, fn.body = some body → (body.keptLabels pick).Nodup

theorem Assembles.dispatch {T : Target M} {pick : TryMode → TryMode} {prog : Program} {f : Callee}
    {fn : Func} {body : Stmt} (assembles : Assembles pick prog)
    (site : dispatch T prog f = .defined fn body) : (body.keptLabels pick).Nodup := by
  obtain ⟨member, defined⟩ := dispatch_defined site
  exact assembles fn (List.mem_cons_of_mem _ member) body defined

section Calls

variable {T : Target M} {rules : Rules} {prog : Program} {fuel : Nat} {k : Int}
  {fr : Int → Frame} {acts : Nat}

def Finished (fuel : Nat) (k : Int) (fr : Int → Frame) (acts : Nat) (stack : List (Waiting M))
    (n : Nat) (a : Answer Word Stop (State M)) (cfg : Config M) : Prop :=
  match a with
  | .ret v s => ∃ t, cfg = .returned v stack t ∧ On k fr acts s t
  | .abort (.raise o) s =>
      o = .callee ∧ ∃ y t, cfg = .raised y stack t ∧ Unwound k fr acts s y t
  | .abort .exit s => ∃ t, cfg = .stopped .exit t ∧ Same s t
  | .abort .stuck s => ∃ t, cfg = .stopped .stuck t ∧ Same s t
  | .abort .barred _ => True
  | .timeout s => Shows s cfg ∧ fuel ≤ n

theorem Unwound.leave {s : State M} {y : CStop} (left : Unwound k fr acts s y t) :
    Unwound k fr acts (s.setMem (T.leave s.m)) y (t.setMem (T.leave t.m)) := by
  rcases left with ⟨room, named, on⟩ | ⟨none, named, same⟩
  · rw [on.same.1]
    exact .inl ⟨room, named, on.setMem _⟩
  · rw [same.1]
    exact .inr ⟨none, named, rfl, same.2⟩

theorem body_absent (pick : TryMode → TryMode) (body : Stmt) (l : String)
    (absent : body.keeps pick l = false) :
    (LlBackend.emitBody pick body)[find (LlBackend.emitBody pick body) (.user l)]? = none := by
  apply find_absent
  intro member
  unfold LlBackend.emitBody at member
  rw [labels_append] at member
  rcases List.mem_append.mp member with inside | last
  · rcases (emit_emits pick body { blockOpen := true }).origin _ inside with old | ⟨u, user, named⟩ |
      ⟨n, number, -⟩
    · cases old
    · cases named
      simp [Stmt.keeps, user] at absent
    · cases number
  · split at last <;> cases last

theorem body_reaches {call : Oracle M} (calls : CallsReach T rules.pick prog fuel call)
    (lowering : Lowering rules) (body : Stmt) (P : Place M)
    (code : P.code = LlBackend.emitBody rules.pick body) (s : State M) (t : Rt M)
    (on : P.act.Holding [] s t) :
    ∃ n cfg, Steps (step T rules.pick prog) n (.at P.act.act P.code 0 P.stack t) cfg ∧
      (Finished fuel P.act.base P.act.bottom (P.act.act + 1) P.stack n
        (Source.close T (Flow.region (body.keeps rules.pick)
          (Source.run T rules (throwOrigin prog) (targets rules body) call fuel false body) fuel
          .run s)) cfg ∨ Overflown cfg) := by
  have right : Faithful T rules.pick prog P [] fuel (body.keeps rules.pick)
      (LlBackend.emitStmt rules.pick body) (Flow.region (body.keeps rules.pick)
        (Source.run T rules (throwOrigin prog) (targets rules body) call fuel (nearest []) body)
        fuel) :=
    region_faithful (run_faithful calls lowering (throwOrigin_visible prog) body [])
  have escapes : ∀ l s', Flow.region (body.keeps rules.pick) (Source.run T rules (throwOrigin prog)
      (targets rules body) call fuel false body) fuel .run s = .jump l s' →
      body.keeps rules.pick l = false := fun l s' jumps => region_escapes jumps
  obtain ⟨n, d, steps, ends⟩ := right entry ⟨rfl, rfl⟩ (code ▸ body_written rules.pick body) .run s
    (.at P.act.act P.code 0 P.stack t) trivial ⟨rfl, t, rfl, on⟩
  rcases ends.symm with ended | ends
  · exact ⟨n, d, steps, .inr ended⟩
  simp only [nearest] at ends
  generalize Flow.region (body.keeps rules.pick) (Source.run T rules (throwOrigin prog)
    (targets rules body) call fuel false body) fuel .run s = o at ends escapes ⊢
  cases o with
  | timeout s => exact ⟨n, d, steps, .inl ends⟩
  | next s =>
    obtain ⟨opened, t, rfl, on⟩ := ends
    have bare : On P.act.base P.act.bottom (P.act.act + 1) s t := by
      simpa [Activation.Holding, depth, Activation.layout] using on
    have last := body_last rules.pick body opened
    rw [← code] at last
    have ret : step T rules.pick prog (.at P.act.act P.code _ P.stack t) = some _ :=
      step_at last P.stack t
    have more := Steps.trans steps (.head ret (.one rfl))
    refine ⟨_, _, more, .inl ⟨_, rfl, ?_⟩⟩
    rw [show s.m = t.m from bare.same.1.symm]
    exact bare.setMem (T.leave t.m)
  | ret v s =>
    obtain ⟨t, rfl, on⟩ := ends
    refine ⟨n, _, steps, .inl ⟨_, rfl, ?_⟩⟩
    rw [show s.m = t.m from on.same.1.symm]
    exact on.setMem (T.leave t.m)
  | jump l s =>
    obtain ⟨⟨t, rfl, on⟩, -⟩ := ends
    have absent := body_absent rules.pick body l (escapes l s rfl)
    rw [← code] at absent
    have stuck : step T rules.pick prog (.at P.act.act P.code (find P.code (.user l)) P.stack t) =
        some (.stopped .stuck t) := by
      simp only [step, absent]
    exact ⟨n + 1, _, steps.trans (.one stuck), .inl ⟨t, rfl, on.same⟩⟩
  | abort x s =>
    cases x with
    | exit => exact ⟨n, d, steps, .inl ends⟩
    | stuck => exact ⟨n, d, steps, .inl ends⟩
    | barred => exact ⟨n, d, steps, .inl trivial⟩
    | raise o =>
      rcases ends with ⟨l, t, named, taken⟩ | ⟨y, t, named, missed, left⟩
      · cases taken
      · exact ⟨n, d, steps, .inl ⟨rfl, y, _, named, Unwound.leave left⟩⟩

theorem Finished.mono {acts' : Nat} (fewer : acts' ≤ acts) {stack : List (Waiting M)}
    {a : Answer Word Stop (State M)} {cfg : Config M}
    (finished : Finished fuel k fr acts stack n a cfg) :
    Finished fuel k fr acts' stack n a cfg := by
  have weaker : ∀ {k : Int} {s : State M} {t : Rt M}, On k fr acts s t → On k fr acts' s t :=
    fun on => ⟨on.same, on.ntry, on.frames, fewer.trans on.acts⟩
  cases a with
  | ret v s =>
    obtain ⟨t, named, on⟩ := finished
    exact ⟨t, named, weaker on⟩
  | timeout s => exact finished
  | abort x s =>
    cases x with
    | raise o =>
      obtain ⟨callee, y, t, named, left⟩ := finished
      refine ⟨callee, y, t, named, ?_⟩
      rcases left with ⟨room, same, on⟩ | none
      · exact .inl ⟨room, same, weaker on⟩
      · exact .inr none
    | _ => exact finished

theorem enter_reaches {call : Oracle M} (calls : CallsReach T rules.pick prog fuel call)
    (lowering : Lowering rules) (fn : Func) (body : Stmt)
    (users : (body.keptLabels rules.pick).Nodup) (as : List Word) (stack : List (Waiting M))
    (s : State M) (t : Rt M) (floor : 0 ≤ k) (older : ∀ i, 0 ≤ i → i < k → (fr i).act < acts)
    (on : On k fr acts s t) :
    ∃ n cfg, Steps (step T rules.pick prog) n (enter T rules.pick fn body as stack t) cfg ∧
      (Finished fuel k fr acts stack n (Source.invoke T rules prog call fuel fn body as s) cfg ∨
        Overflown cfg) := by
  let c : Activation :=
    { act := t.acts
      base := k
      bottom := fr
      floor := floor
      older := fun i low high => lt_of_lt_of_le (older i low high) on.acts }
  let P : Place M :=
    { act := c
      code := LlBackend.emitBody rules.pick body
      stack := stack
      distinct := emitBody_distinct rules.pick body users }
  have starts : c.Holding [] (s.setMem (T.enter fn.params fn.locals as s.m))
      { t with m := T.enter fn.params fn.locals as t.m, acts := t.acts + 1 } := by
    refine ⟨⟨?_, on.same.2⟩, ?_, ?_, Nat.le_refl _⟩
    · simp only [State.setMem, on.same.1]
    · simpa [depth] using on.ntry
    · intro i low high
      exact on.frames i low (by simpa [depth] using high)
  obtain ⟨n, cfg, steps, ends⟩ := body_reaches calls lowering body P rfl _ _ starts
  refine ⟨n, cfg, steps, ends.imp_left ?_⟩
  intro finished
  exact Finished.mono (on.acts.trans (Nat.le_succ _)) finished

theorem answered_at {spot : Spot M} {kont : Word → M → Comp Callee Word M Move}
    {a : Answer Word Stop (State M)} {a' : Answer Word CStop (Rt M)} (same : AnsRel k fr acts a a')
    (answers : ∀ t, a' ≠ .timeout t) :
    AnswerAt fuel k fr acts spot kont n a
        (answered ⟨spot.act, spot.code, spot.pc, kont⟩ spot.stack a') ∨
      Overflown (answered ⟨spot.act, spot.code, spot.pc, kont⟩ spot.stack a') := by
  cases same with
  | @ret v s t on => exact .inl ⟨t.m, t, rfl, on⟩
  | @raise s y t left =>
    left
    refine ⟨rfl, y, ⟨spot.act, spot.code, spot.pc, kont⟩, t, ?_, rfl, rfl, left⟩
    rcases left with ⟨-, rfl, -⟩ | ⟨-, rfl, -⟩ <;> rfl
  | @exit s t same => exact .inl ⟨t, rfl, same⟩
  | @stuck s t same => exact .inl ⟨t, rfl, same⟩
  | @timeout s t same => exact absurd rfl (answers t)
  | barred => exact .inl trivial
  | @overflow a t => exact .inr ⟨t, rfl⟩

theorem external_answers (func : String) (as : List Word) (t u : Rt M) :
    CRun.external T func as t ≠ .timeout u := by
  unfold CRun.external
  split
  · exact fun h => by cases h
  · split <;> exact fun h => by cases h

theorem foreign_answers (f : Word) (as : List Word) (t u : Rt M) :
    CRun.foreign T f as t ≠ .timeout u := by
  unfold CRun.foreign
  split <;> exact fun h => by cases h

/-- A call, when the bodies of the functions are right. -/
theorem answer_reaches {body : Func → Stmt → Oracle M} (assembles : Assembles rules.pick prog)
    (bodies : ∀ fn stmt, (stmt.keptLabels rules.pick).Nodup → ∀ k fr acts, 0 ≤ k →
      (∀ i, 0 ≤ i → i < k → (fr i).act < acts) → ∀ (w : Waiting M) stack f as s t,
      On k fr acts s t →
      (fuel = 0 ∧ body fn stmt f as s = .timeout s) ∨
      ∃ n cfg, Steps (step T rules.pick prog) n
          (enter T rules.pick fn stmt as (w :: stack) t) cfg ∧
        (Finished fuel k fr acts (w :: stack) (n + 1) (body fn stmt f as s) cfg ∨
          Overflown cfg)) :
    CallsReach T rules.pick prog fuel (Source.answer T prog body) := by
  intro k fr acts floor older spot kont f as s m t on
  let w : Waiting M := ⟨spot.act, spot.code, spot.pc, kont⟩
  have first : step T rules.pick prog
      (.busy spot.act spot.code spot.pc (.call f as m kont) spot.stack t) =
        some (callSite T rules.pick prog w f as spot.stack (t.setMem m)) := rfl
  unfold callSite at first
  unfold Source.answer
  cases site : dispatch T prog f with
  | unknown =>
    rw [site] at first
    exact ⟨1, _, .one first, .inl ⟨_, rfl, on.same⟩⟩
  | declared fn =>
    rw [site] at first
    exact ⟨1, _, .one first,
      answered_at (external_rel fn.name as s _ on) (external_answers fn.name as _)⟩
  | foreign a =>
    rw [site] at first
    exact ⟨1, _, .one first, answered_at (foreign_rel a as s _ on) (foreign_answers a as _)⟩
  | defined fn stmt =>
    rw [site] at first
    simp only
    rcases bodies fn stmt (assembles.dispatch site) k fr acts floor older w spot.stack f as s _ on
      with ⟨zero, cut⟩ | ⟨n, cfg, steps, ends⟩
    · rw [cut, zero]
      exact ⟨0, _, .refl _, .inl ⟨on.same, Nat.le_refl 0⟩⟩
    have arrives := Steps.head first steps
    rcases ends.symm with ended | finished
    · exact ⟨n + 1, cfg, arrives, .inr ended⟩
    generalize body fn stmt f as s = a at finished ⊢
    cases a with
    | timeout s => exact ⟨n + 1, cfg, arrives, .inl finished⟩
    | ret v s =>
      obtain ⟨t, rfl, on⟩ := finished
      exact ⟨n + 1 + 1, _, arrives.trans (.one rfl), .inl ⟨t.m, t, rfl, on⟩⟩
    | abort x s =>
      cases x with
      | raise o =>
        obtain ⟨callee, y, t, rfl, left⟩ := finished
        exact ⟨n + 1, _, arrives, .inl ⟨callee, y, w, t, rfl, rfl, rfl, left⟩⟩
      | _ => exact ⟨n + 1, cfg, arrives, .inl finished⟩

theorem Finished.succ {stack : List (Waiting M)} {a : Answer Word Stop (State M)} {cfg : Config M}
    (finished : Finished fuel k fr acts stack n a cfg) :
    Finished (fuel + 1) k fr acts stack (n + 1) a cfg := by
  cases a with
  | ret v s => exact finished
  | timeout s => exact ⟨finished.1, Nat.succ_le_succ finished.2⟩
  | abort x s => cases x <;> exact finished

/-- Calls on the machine are answered as calls of the tree. -/
theorem callFuel_reaches (assembles : Assembles rules.pick prog) (lowering : Lowering rules)
    (fuel : Nat) :
    CallsReach T rules.pick prog fuel (Source.callFuel T rules prog fuel) := by
  induction fuel with
  | zero =>
    apply answer_reaches assembles
    intro fn stmt users k fr acts floor older w stack f as s t on
    exact .inl ⟨rfl, rfl⟩
  | succ fuel ih =>
    apply answer_reaches assembles
    intro fn stmt users k fr acts floor older w stack f as s t on
    obtain ⟨n, cfg, steps, ends⟩ :=
      enter_reaches ih lowering fn stmt users as (w :: stack) s t floor older on
    exact .inr ⟨n, cfg, steps, ends.imp_left Finished.succ⟩

theorem runProgram_reaches (assembles : Assembles rules.pick prog) (lowering : Lowering rules)
    (fuel : Nat) (as : List Word) (s : State M) (t : Rt M) (floor : 0 ≤ k)
    (older : ∀ i, 0 ≤ i → i < k → (fr i).act < acts) (on : On k fr acts s t) :
    ∃ n cfg, Steps (step T rules.pick prog) n (start T rules.pick prog as t) cfg ∧
      (Finished fuel k fr acts [] n (Source.runProgram T rules prog fuel as s) cfg ∨
        Overflown cfg) := by
  unfold Source.runProgram start
  cases defined : prog.startup.body with
  | none => exact ⟨0, _, .refl _, .inl ⟨t, rfl, on.same⟩⟩
  | some body =>
    have users := assembles prog.startup List.mem_cons_self body defined
    exact enter_reaches (callFuel_reaches assembles lowering fuel) lowering prog.startup body users
      as [] s t floor older on

end Calls

end Aholyc.LlSim
