import Aholyc.Soundness
import Aholyc.Balance

/-!
# The lowerings agree

A program whose `try` statements are compiled by the modes of the analysis
runs as one that compiles each of them with a handler on the runtime stack: in
every run in which no jump leaves or enters the body of a `try`, none goes into
a catch that the analysis drops, and no `longjmp` goes back to a function that
has changed a local variable since the `_setjmp`.
-/

namespace Aholyc.Lowerings

open Aholyc.Lib Aholyc.Lib.Machine Aholyc.Effects Aholyc.Eval Aholyc.Source Aholyc.Soundness
  Aholyc.CRun Aholyc.CSim Aholyc.Balance
open Aholyc.LlRun (Config start)
open Aholyc.LlSim (Assembles Finished Overflown)

variable {M : Type}

def everyDynamic : TryMode → TryMode := fun _ => .dynamic

/-- What the compiled code does, with no jump over the bounds of the body of a
`try`, none to a label in a dropped catch, and no exception that comes by a
frame to a function whose local variables have changed in the body. -/
def lowered (pick : TryMode → TryMode) : Rules where
  pick := pick
  early := true
  gate _ := true
  strict := true
  settled := true

theorem lowered_lowering (pick : TryMode → TryMode) : Lowering (lowered pick) :=
  ⟨rfl, fun _ _ => rfl⟩

section Labels

def Outside (live : String → Bool) : Stmt → Prop
  | .seq s next => Outside live s ∧ Outside live next
  | .block body => Outside live body
  | .ifStmt _ thn els => Outside live thn ∧ Outside live els
  | .whileStmt _ thn => Outside live thn
  | .doWhile thn _ => Outside live thn
  | .forStmt init _ inc thn => Outside live init ∧ Outside live inc ∧ Outside live thn
  | .tryStmt mode thn els =>
      Outside live thn ∧ (mode ≠ .none → Outside live els) ∧
        (mode = .none → ∀ l, live l = true → els.keeps everyDynamic l = false)
  | _ => True

variable {live : String → Bool}

/-- The backends place the live labels whatever the lowering. -/
theorem keeps_live (stmt : Stmt) (outside : Outside live stmt) (l : String) (alive : live l = true) :
    stmt.keeps id l = stmt.keeps everyDynamic l := by
  induction stmt with
  | seq s next first rest =>
    simp only [Stmt.keeps_seq, first outside.1, rest outside.2]
  | block body ih => exact ih outside
  | ifStmt cond thn els ihThn ihEls =>
    simp only [Stmt.keeps_if, ihThn outside.1, ihEls outside.2]
  | whileStmt cond thn ih => exact ih outside
  | doWhile thn cond ih => exact ih outside
  | forStmt init cond inc thn ihInit ihInc ihThn =>
    simp only [Stmt.keeps_for, Stmt.keeps_seq, ihInit outside.1, ihInc outside.2.1,
      ihThn outside.2.2]
  | tryStmt mode thn els ihThn ihEls =>
    rw [Stmt.keeps_try, Stmt.keeps_try, ihThn outside.1]
    by_cases dropped : mode = .none
    · simp [dropped, everyDynamic, outside.2.2 dropped l alive]
    · simp [dropped, everyDynamic, ihEls (outside.2.1 dropped)]
  | _ => rfl

theorem keptLabels_sublist (stmt : Stmt) :
    (stmt.keptLabels id).Sublist (stmt.keptLabels everyDynamic) := by
  induction stmt with
  | tryStmt mode thn els ihThn ihEls =>
    apply List.Sublist.append ihThn
    simp only [everyDynamic, reduceCtorEq, if_false]
    split
    · exact List.nil_sublist _
    · exact ihEls
  | seq s next first rest => exact List.Sublist.append first rest
  | block body ih => exact ih
  | ifStmt cond thn els ihThn ihEls => exact List.Sublist.append ihThn ihEls
  | whileStmt cond thn ih => exact ih
  | doWhile thn cond ih => exact ih
  | forStmt init cond inc thn ihInit ihInc ihThn =>
    exact List.Sublist.append ihInit (List.Sublist.append ihThn ihInc)
  | _ => exact List.Sublist.refl _

theorem keptLabels_sub (stmt : Stmt) : stmt.keptLabels id ⊆ stmt.keptLabels everyDynamic :=
  (keptLabels_sublist stmt).subset

/-- Of two parts without a common label each keeps its own live labels. -/
theorem live_parts {a b : Stmt}
    (distinct : (a.keptLabels everyDynamic ++ b.keptLabels everyDynamic).Nodup)
    (kept : ∀ l ∈ a.keptLabels everyDynamic ++ b.keptLabels everyDynamic, live l = true →
      l ∈ a.keptLabels id ++ b.keptLabels id) :
    (∀ l ∈ a.keptLabels everyDynamic, live l = true → l ∈ a.keptLabels id) ∧
      ∀ l ∈ b.keptLabels everyDynamic, live l = true → l ∈ b.keptLabels id := by
  have apart := (List.nodup_append.mp distinct).2.2
  refine ⟨?_, ?_⟩
  · intro l member alive
    rcases List.mem_append.mp (kept l (List.mem_append_left _ member) alive) with own | other
    · exact own
    · exact absurd rfl (apart l member l (keptLabels_sub b other))
  · intro l member alive
    rcases List.mem_append.mp (kept l (List.mem_append_right _ member) alive) with other | own
    · exact absurd rfl (apart l (keptLabels_sub a other) l member)
    · exact own

theorem outside_kept (stmt : Stmt) (distinct : (stmt.keptLabels everyDynamic).Nodup)
    (kept : ∀ l ∈ stmt.keptLabels everyDynamic, live l = true → l ∈ stmt.keptLabels id) :
    Outside live stmt := by
  induction stmt with
  | seq s next first rest =>
    have parts := live_parts distinct kept
    have split := List.nodup_append.mp distinct
    exact ⟨first split.1 parts.1, rest split.2.1 parts.2⟩
  | block body ih => exact ih distinct kept
  | ifStmt cond thn els ihThn ihEls =>
    have parts := live_parts distinct kept
    have split := List.nodup_append.mp distinct
    exact ⟨ihThn split.1 parts.1, ihEls split.2.1 parts.2⟩
  | whileStmt cond thn ih => exact ih distinct kept
  | doWhile thn cond ih => exact ih distinct kept
  | forStmt init cond inc thn ihInit ihInc ihThn =>
    have parts : (∀ l ∈ init.keptLabels everyDynamic, live l = true → l ∈ init.keptLabels id) ∧
        ∀ l ∈ (Stmt.seq thn inc).keptLabels everyDynamic, live l = true →
          l ∈ (Stmt.seq thn inc).keptLabels id := live_parts distinct kept
    have split := List.nodup_append.mp distinct
    have rest := live_parts split.2.1 parts.2
    have splitRest := List.nodup_append.mp split.2.1
    exact ⟨ihInit split.1 parts.1, ihInc splitRest.2.1 rest.2, ihThn splitRest.1 rest.1⟩
  | tryStmt mode thn els ihThn ihEls =>
    have split : (thn.keptLabels everyDynamic ++ els.keptLabels everyDynamic).Nodup := distinct
    have apart := List.nodup_append.mp split
    by_cases dropped : mode = .none
    · have own : ∀ l ∈ thn.keptLabels everyDynamic ++ els.keptLabels everyDynamic,
          live l = true → l ∈ thn.keptLabels id := by
        intro l member alive
        simpa [Stmt.keptLabels, dropped] using kept l member alive
      refine ⟨ihThn apart.1 fun l member => own l (List.mem_append_left _ member),
        fun some => absurd dropped some, fun _ l alive => ?_⟩
      rw [Stmt.keeps, List.contains_eq_mem, decide_eq_false_iff_not]
      intro member
      have inBody := own l (List.mem_append_right _ member) alive
      exact apart.2.2 l (keptLabels_sub thn inBody) l member rfl
    · have whole : ∀ l ∈ thn.keptLabels everyDynamic ++ els.keptLabels everyDynamic,
          live l = true → l ∈ thn.keptLabels id ++ els.keptLabels id := by
        intro l member alive
        simpa [Stmt.keptLabels, dropped] using kept l member alive
      have parts := live_parts split whole
      exact ⟨ihThn apart.1 parts.1, fun _ => ihEls apart.2.1 parts.2, fun none => absurd none dropped⟩
  | _ => trivial

end Labels

/-- Answers of the two programs: the same, from states in order, unless the
first is barred. -/
inductive SameAnswer {V : Type} : Answer V Stop (State M) → Answer V Stop (State M) → Prop where
  | ret {v s} : Orderly s → SameAnswer (.ret v s) (.ret v s)
  | abort {x s} : Orderly s → SameAnswer (.abort x s) (.abort x s)
  | timeout {s} : SameAnswer (.timeout s) (.timeout s)
  | barred {s a} : SameAnswer (.abort .barred s) a

def CallsSame (call call' : Oracle M) : Prop :=
  ∀ f as s, Orderly s → SameAnswer (call f as s) (call' f as s)

/-- The same outcome, from states in order, unless the first is barred. -/
def same (M : Type) (live : String → Bool) : Sim String String Word Stop Stop (State M) (State M) where
  lab := id
  live := live
  next s t := t = s ∧ Orderly s
  ret _ s t := t = s ∧ Orderly s
  timeout s t := t = s
  abort x s y t := y = x ∧ t = s ∧ Orderly s
  caught _ _ _ _ := False
  free x := x = .barred
  dead _ _ := False

variable {o o' : Outcome M}

section Statements

variable {T : Target M} {canThrow : String → Bool} {live : String → Bool} {call call' : Oracle M}

theorem eval_same (calls : CallsSame call call') {A : Type} (c : M → Comp Callee Word M A)
    (s : State M) (orderly : Orderly s) :
    SameAnswer (Source.eval call c s) (Source.eval call' c s) := by
  unfold Source.eval
  generalize c s.m = comp
  induction comp generalizing s with
  | done a m => exact .ret orderly
  | stuck m => exact .abort orderly
  | call f args m rest ih =>
    have once := calls f args (s.setMem m) orderly
    simp only [Comp.run]
    generalize call f args (s.setMem m) = a at once ⊢
    generalize call' f args (s.setMem m) = a' at once ⊢
    cases once with
    | ret later => exact ih _ _ _ later
    | abort later => exact .abort later
    | timeout => exact .timeout
    | barred => exact .barred

theorem perform_same {A : Type} {a a' : Answer A Stop (State M)} (answers : SameAnswer a a') :
    (same M live).Rel (Source.perform a) (Source.perform a') := by
  cases answers with
  | ret orderly => exact .next ⟨rfl, orderly⟩
  | abort orderly => exact .abort ⟨rfl, rfl, orderly⟩
  | timeout => exact .timeout rfl
  | barred => exact .free rfl

theorem condition_same (calls : CallsSame call call') (cond : Option Expr) (s t : State M)
    (next : (same M live).next s t) :
    (same M live).TestRel .abort (Source.condition T call cond s) (Source.condition T call' cond t) := by
  obtain ⟨rfl, orderly⟩ := next
  cases cond with
  | none => exact .val ⟨rfl, orderly⟩
  | some c =>
    have answers := eval_same calls (truth T c) t orderly
    unfold Source.condition
    simp only
    generalize Source.eval call (truth T c) t = a at answers ⊢
    generalize Source.eval call' (truth T c) t = a' at answers ⊢
    cases answers with
    | ret orderly => exact .val ⟨rfl, orderly⟩
    | abort orderly => exact .abort (.abort ⟨rfl, rfl, orderly⟩)
    | timeout => exact .timeout rfl
    | barred => exact .free rfl

theorem returnStmt_same (calls : CallsSame call call') (pick pick' : TryMode → TryMode)
    (lhs : Option Expr) (s : State M) (orderly : Orderly s) :
    (same M live).Rel (Source.returnStmt T (lowered pick) call lhs s)
      (Source.returnStmt T (lowered pick') call' lhs s) := by
  cases lhs with
  | none => exact .ret ⟨rfl, orderly⟩
  | some e =>
    have answers := eval_same calls (val T e) s orderly
    unfold Source.returnStmt
    simp only
    generalize Source.eval call (val T e) s = a at answers ⊢
    generalize Source.eval call' (val T e) s = a' at answers ⊢
    cases answers with
    | ret orderly => exact .ret ⟨rfl, orderly⟩
    | @abort x s' orderly => cases x <;> exact .abort ⟨rfl, rfl, orderly⟩
    | timeout => exact .timeout rfl
    | barred => exact .free rfl

/-- One argument, which is what the parser makes of the arguments of `throw`. -/
def Single (as : Expr) : Prop := ∃ a, as = .arg a .noArg

def Throws (T : Target M) (call : Oracle M) : Prop :=
  ∀ vs s, call (.name "throw") vs s =
    .abort (.raise .callee) (s.setMem (T.setExcept (vs.headD 0) s.m))

theorem eval_args (a : Expr) (s : State M) :
    Source.eval call (args T (.arg a .noArg)) s =
      match Source.eval call (firstArg T (.arg a .noArg)) s with
      | .ret v s' => .ret [v] s'
      | .abort x s' => .abort x s'
      | .timeout s' => .timeout s' := by
  unfold Source.eval
  have bound : args T (.arg a .noArg) s.m = (val T a s.m).bind fun x m => .done [x] m := by
    have none (m : M) : args T .noArg m = .done [] m := rfl
    rw [args, Comp.both, none]
    split
    · exact Comp.bind_assoc _ _ _
    · exact Comp.bind_assoc (val T a s.m) _ _
  rw [bound, Comp.run_bind source_lawful]
  show _ = match Comp.run State.m State.setMem .stuck call (val T a s.m) s with
    | .ret v s' => _
    | .abort x s' => _
    | .timeout s' => _
  generalize Comp.run State.m State.setMem .stuck call (val T a s.m) s = b
  cases b <;> rfl

theorem throwStmt_same (calls : CallsSame call call') (throws : Throws T call) (near : Bool)
    {as : Expr} (single : Single as) (s : State M) (orderly : Orderly s) :
    (same M live).Rel (throwStmt T .direct call false as s) (throwStmt T .direct call' near as s) := by
  cases near with
  | false =>
    have answers := eval_same calls (args T as) s orderly
    unfold throwStmt
    simp only [Bool.false_eq_true, if_false]
    generalize Source.eval call (args T as) s = a at answers ⊢
    generalize Source.eval call' (args T as) s = a' at answers ⊢
    cases answers with
    | @ret vs s' later =>
      have once := calls (.name "throw") vs s' later
      simp only
      rw [throws vs s'] at once ⊢
      generalize call' (.name "throw") vs s' = b at once ⊢
      cases once with
      | abort ok => exact .abort ⟨rfl, rfl, ok⟩
    | abort ok => exact .abort ⟨rfl, rfl, ok⟩
    | timeout => exact .timeout rfl
    | barred => exact .free rfl
  | true =>
    obtain ⟨a, rfl⟩ := single
    have answers := eval_same calls (firstArg T (.arg a .noArg)) s orderly
    unfold throwStmt
    simp only [Bool.false_eq_true, if_false, if_true, eval_args]
    generalize Source.eval call (firstArg T (.arg a .noArg)) s = b at answers ⊢
    generalize Source.eval call' (firstArg T (.arg a .noArg)) s = b' at answers ⊢
    cases answers with
    | ret later =>
      simp only [throws _ _]
      exact .abort ⟨rfl, rfl, later⟩
    | abort ok => exact .abort ⟨rfl, rfl, ok⟩
    | timeout => exact .timeout rfl
    | barred => exact .free rfl

theorem finish_same (outcomes : (same M live).Rel o o') :
    (same M live).Rel (Source.finish T o) (Source.finish T o') := by
  apply Sim.after_rel outcomes
  rintro s t ⟨rfl, orderly⟩
  split
  · exact .abort ⟨rfl, rfl, orderly⟩
  · exact .next ⟨rfl, orderly⟩

theorem guarded_same {has has' : String → Bool} (agree : ∀ l, live l = true → has' l = has l)
    (outcomes : (same M live).Rel o o') :
    (same M live).Rel (guarded true has o) (guarded true has' o') := by
  cases outcomes with
  | next next => exact .next next
  | @jump l s t alive next =>
    have labels : has' ((same M live).lab l) =
      has l := agree l alive
    simp only [guarded, labels]
    split
    · exact .free rfl
    · exact .jump alive next
  | ret next => exact .ret next
  | timeout next => exact .timeout next
  | abort ends => exact .abort ends
  | caught none => cases none
  | free barred => exact .free barred
  | dead none => cases none

theorem catches_expected {mode : TryMode} {o : Origin} (expected : Expected (mode, o))
    (escape : o ≠ .escape) : catches mode o = true := by
  cases mode with
  | none => exact absurd rfl expected.1
  | branch =>
    rcases expected.2 rfl with direct | rethrow
    · have same : o = .direct := direct
      rw [same]
      rfl
    · have same : o = .rethrow := rethrow
      rw [same]
      rfl
  | dynamic => simpa [catches] using escape

/-- What reaches a `try` is received by both programs. -/
theorem receive_same {body : Effect} {els els' : State M → Outcome M}
    (catches' : tryMode body ≠ .none → ∀ s, Orderly s → (same M live).Rel (els s) (els' s))
    (outcomes : (same M live).Rel o o') (ends : o.Holds Orderly (Ends body)) :
    (same M live).Rel (receive T (tryMode body) .dynamic els o)
      (receive T (tryMode body) (tryMode body) els' o') := by
  cases outcomes with
  | next next => exact .next next
  | jump alive next => exact .jump alive next
  | ret next => exact .ret next
  | timeout next => exact .timeout next
  | caught none => cases none
  | @free x s o' barred =>
    cases barred
    exact .free rfl
  | dead none => cases none
  | @abort x s y t same =>
    obtain ⟨rfl, rfl, orderly⟩ := same
    cases y with
    | raise o =>
      simp only [receive]
      by_cases escape : o = .escape
      · rw [if_pos escape, if_pos escape]
        exact .abort ⟨rfl, rfl, orderly⟩
      · have expected := raise_expected ends escape
        have dynamic : catches .dynamic o = true := by simpa [catches] using escape
        rw [if_neg escape, if_neg escape, if_pos dynamic,
          if_pos (catches_expected expected escape)]
        exact finish_same (catches' expected.1 _ (orderly_reach orderly expected))
    | _ => exact .abort ⟨rfl, rfl, orderly⟩

theorem attempt_same {body : Effect} {hasThn hasThn' hasEls : String → Bool}
    {thn els thn' els' : Entry String → State M → Outcome M}
    (agree : ∀ l, live l = true → hasThn' l = hasThn l)
    (thnSame : ∀ e s t, e.Within ((same M live).enters hasThn) → (same M live).next s t →
      (same M live).Rel (thn e s) (thn' (e.map id) t))
    (elsSame : tryMode body ≠ .none → ∀ e s t, e.Within ((same M live).enters hasEls) →
      (same M live).next s t → (same M live).Rel (els e s) (els' (e.map id) t))
    (raised : ∀ e s, Orderly s → (thn e s).Holds Orderly (Ends body)) (e : Entry String)
    (s t : State M) (within : e.Within ((same M live).enters fun l => hasThn l || hasEls l))
    (next : (same M live).next s t) :
    (same M live).Rel (attempt T (lowered everyDynamic) (tryMode body) hasThn thn els e s)
      (attempt T (lowered id) (tryMode body) hasThn' thn' els' (e.map id) t) := by
  cases e with
  | run =>
    have orderly := next.2
    have bodies := guarded_same agree (thnSame .run s t trivial next)
    have holds : (guarded true hasThn (thn .run s)).Holds Orderly (Ends body) :=
      guarded_keeps (raised .run s orderly)
    apply receive_same _ bodies holds
    obtain ⟨rfl, -⟩ := next
    intro some s' later
    have entered := elsSame some .run s' s' trivial ⟨rfl, later⟩
    unfold entering
    by_cases moved : T.moved t.m s'.m = true
    · simp only [lowered, everyDynamic, moved, Bool.and_self, beq_self_eq_true, if_true]
      exact .free rfl
    · rw [Bool.not_eq_true] at moved
      simp only [moved, Bool.and_false, Bool.false_eq_true, if_false]
      exact entered
  | seek l =>
    obtain ⟨alive, either⟩ := Sim.enters_live within
    have labels : hasThn' l = hasThn l := agree l alive
    simp only [attempt, Entry.map, id_eq, labels]
    by_cases inBody : hasThn l = true
    · rw [if_pos inBody]
      exact .free rfl
    · rw [if_neg inBody, if_neg inBody]
      by_cases dropped : tryMode body = .none
      · rw [if_pos dropped]
        exact .free rfl
      · rw [if_neg dropped, if_neg dropped]
        have inCatch : hasEls l = true := by simpa [inBody] using either
        exact finish_same (elsSame dropped (.seek l) s t (Sim.enters_seek alive inCatch) next)

theorem agrees_live {stmt : Stmt} (outside : Outside live stmt) :
    (same M live).Agrees (stmt.keeps everyDynamic) (stmt.keeps id) where
  lab l alive := keeps_live stmt outside l alive
  caught _ _ _ _ none := none.elim

def Checked : Stmt → Prop
  | .seq s next => Checked s ∧ Checked next
  | .exprStmt e => ∀ as, isThrowCall e = some as → Single as
  | .block body => Checked body
  | .ifStmt _ thn els => Checked thn ∧ Checked els
  | .whileStmt _ thn => Checked thn
  | .doWhile thn _ => Checked thn
  | .forStmt init _ inc thn => Checked init ∧ Checked inc ∧ Checked thn
  | .tryStmt _ thn els => Checked thn ∧ Checked els
  | _ => True

/-- A statement runs the same, whatever the lowerings. -/
theorem run_same (calls : CallsSame call call') (throws : Throws T call)
    (keep : CallsKeep canThrow call) (quiet : ∀ a m, (T.asm a m).2 = false) (fuel : Nat)
    (stmt : Stmt) (near : Bool) (marked : Marked canThrow stmt) (outside : Outside live stmt)
    (checked : Checked stmt) (e : Entry String) (s t : State M)
    (within : e.Within ((same M live).enters (stmt.keeps everyDynamic)))
    (next : (same M live).next s t) :
    (same M live).Rel (Source.run T (lowered everyDynamic) .direct live call fuel false stmt e s)
      (Source.run T (lowered id) .direct live call' fuel near stmt (e.map id) t) := by
  have clock : ∀ s t : State M, (same M live).next s t → (same M live).timeout s t :=
    fun _ _ next => next.1
  have dynamic : ∀ mode, (lowered everyDynamic).pick mode = mode ∨
      (lowered everyDynamic).pick mode = .dynamic := fun _ => .inr rfl
  induction stmt generalizing near e s t with
  | null =>
    cases e with
    | run => exact .next next
    | seek l => simp [Entry.Within, Sim.enters, Stmt.keeps, Stmt.keptLabels] at within
  | nop =>
    cases e with
    | run => exact .next next
    | seek l => simp [Entry.Within, Sim.enters, Stmt.keeps, Stmt.keptLabels] at within
  | goto l =>
    cases e with
    | seek l => simp [Entry.Within, Sim.enters, Stmt.keeps, Stmt.keptLabels] at within
    | run =>
      simp only [Source.run, Flow.leaf, Entry.map]
      by_cases alive : live l = true
      · rw [if_pos alive, if_pos alive]
        exact .jump alive next
      · rw [if_neg alive]
        exact .free rfl
  | label l => exact .next next
  | returnStmt lhs =>
    cases e with
    | seek l => simp [Entry.Within, Sim.enters, Stmt.keeps, Stmt.keptLabels] at within
    | run =>
      obtain ⟨rfl, orderly⟩ := next
      exact returnStmt_same calls everyDynamic id lhs t orderly
  | asmStmt a =>
    cases e with
    | seek l => simp [Entry.Within, Sim.enters, Stmt.keeps, Stmt.keptLabels] at within
    | run =>
      obtain ⟨rfl, orderly⟩ := next
      simp only [Source.run, Flow.leaf, Entry.map, Source.asmStmt, quiet, Bool.false_eq_true,
        if_false]
      exact .next ⟨rfl, orderly⟩
  | exprStmt expr =>
    cases e with
    | seek l => simp [Entry.Within, Sim.enters, Stmt.keeps, Stmt.keptLabels] at within
    | run =>
      obtain ⟨rfl, orderly⟩ := next
      simp only [Source.run, Flow.leaf, Entry.map]
      cases thrower : isThrowCall expr with
      | some as => exact throwStmt_same calls throws near (checked as thrower) t orderly
      | none => exact perform_same (eval_same calls _ t orderly)
  | block body ih => exact ih near marked outside checked e s t within next
  | seq first rest ihFirst ihRest =>
    apply Sim.region_rel clock (agrees_live outside) _ fuel e s t within next
    rw [Stmt.keeps_seq]
    exact Sim.andThen_rel (agrees_live outside.1) (agrees_live outside.2)
      (ihFirst near marked.1 outside.1 checked.1) (ihRest near marked.2 outside.2 checked.2)
  | ifStmt cond thn els ihThn ihEls =>
    apply Sim.region_rel clock (agrees_live outside) _ fuel e s t within next
    rw [Stmt.keeps_if]
    exact Sim.branch_rel (agrees_live outside.1).lab (condition_same calls (some cond))
      (ihThn near marked.1 outside.1 checked.1) (ihEls near marked.2 outside.2 checked.2)
  | whileStmt cond thn ih =>
    apply Sim.region_rel clock (agrees_live outside) _ fuel e s t within next
    exact Sim.whileLoop_rel clock (condition_same calls (some cond))
      (ih near marked outside checked) fuel
  | doWhile thn cond ih =>
    apply Sim.region_rel clock (agrees_live outside) _ fuel e s t within next
    exact Sim.doLoop_rel clock (condition_same calls (some cond))
      (ih near marked outside checked) fuel
  | forStmt init cond inc thn ihInit ihInc ihThn =>
    obtain ⟨markedInit, markedInc, markedThn⟩ := marked
    have whole := outside
    obtain ⟨outsideInit, outsideInc, outsideThn⟩ := outside
    obtain ⟨checkedInit, checkedInc, checkedThn⟩ := checked
    have inner : (same M live).Agrees ((Stmt.seq thn inc).keeps everyDynamic)
        ((Stmt.seq thn inc).keeps id) :=
      agrees_live (show Outside live (.seq thn inc) from ⟨outsideThn, outsideInc⟩)
    apply Sim.region_rel clock (agrees_live whole) _ fuel e s t within next
    rw [Stmt.keeps_for]
    apply Sim.andThen_rel (agrees_live outsideInit) inner
      (ihInit near markedInit outsideInit checkedInit)
    apply Sim.region_rel clock inner
    apply Sim.whileLoop_rel clock (condition_same calls cond)
    apply Sim.region_rel clock inner
    rw [Stmt.keeps_seq]
    exact Sim.andThen_rel (agrees_live outsideThn) (agrees_live outsideInc)
      (ihThn near markedThn outsideThn checkedThn) (ihInc near markedInc outsideInc checkedInc)
  | tryStmt mode thn els ihThn ihEls =>
    obtain ⟨rfl, markedThn, markedEls⟩ := marked
    apply Sim.region_rel clock (agrees_live outside) _ fuel e s t within next
    have keeps : (Stmt.tryStmt (tryMode (effect canThrow thn)) thn els).keeps everyDynamic =
        fun l => thn.keeps everyDynamic l || els.keeps everyDynamic l := by
      funext l
      rw [Stmt.keeps_try]
      simp [everyDynamic]
    rw [keeps]
    apply attempt_same (keeps_live thn outside.1) (ihThn _ markedThn outside.1 checked.1)
    · intro some
      exact ihEls near (markedEls some) (outside.2.1 some) checked.2
    · exact run_keeps keep rfl quiet dynamic fuel live thn _ markedThn

end Statements

/-- What the parser and the prelude promise about a program. -/
structure Compiled (T : Target M) (prog : Program) : Prop where
  hosted : Hosted T prog
  throw : (prog.findFunc "throw").isSome = true
  assembles : Assembles everyDynamic (analyzeExceptions prog)
  checked : ∀ fn ∈ (analyzeExceptions prog).startup :: (analyzeExceptions prog).funcs, ∀ body,
    fn.body = some body → Checked body

section Programs

variable {T : Target M} {prog : Program}

theorem lookup_throw (compiled : Compiled T prog) :
    ∃ fn, lookup (analyzeExceptions prog) "throw" = .declared fn ∧ fn.name = "throw" := by
  obtain ⟨fn, found⟩ := Option.isSome_iff_exists.mp compiled.throw
  have declared := compiled.hosted.throw fn found
  obtain ⟨-, name⟩ := findFunc_some found
  refine ⟨analyzeFunc (canThrow prog) fn, ?_, name⟩
  rw [lookup_analyzed]
  have site : lookup prog "throw" = .declared fn := by
    unfold lookup
    rw [found]
    simp [declared]
  rw [site]

theorem answer_throws (compiled : Compiled T prog) (body : Func → Stmt → Oracle M) :
    Throws T (Source.answer T (analyzeExceptions prog) body) := by
  intro vs s
  obtain ⟨fn, site, name⟩ := lookup_throw compiled
  simp only [Source.answer, dispatch, site, Source.external, name]
  rfl

theorem callFuel_throws (compiled : Compiled T prog) (rules : Rules) (fuel : Nat) :
    Throws T (Source.callFuel T rules (analyzeExceptions prog) fuel) := by
  cases fuel with
  | zero => exact answer_throws compiled _
  | succ fuel => exact answer_throws compiled _

theorem close_same {live : String → Bool} (outcomes : (same M live).Rel o o') :
    SameAnswer (Source.close T o) (Source.close T o') := by
  cases outcomes with
  | next next =>
    obtain ⟨rfl, orderly⟩ := next
    exact .ret orderly
  | jump _ next =>
    obtain ⟨rfl, orderly⟩ := next
    exact .abort orderly
  | ret next =>
    obtain ⟨rfl, orderly⟩ := next
    exact .ret orderly
  | timeout next =>
    cases next
    exact .timeout
  | @abort x s y t ends =>
    obtain ⟨rfl, rfl, orderly⟩ := ends
    cases y <;> exact .abort orderly
  | caught none => cases none
  | @free x s o' barred =>
    cases barred
    exact .barred
  | dead none => cases none

theorem invoke_same (compiled : Compiled T prog) {call call' : Oracle M}
    (calls : CallsSame call call') (throws : Throws T call) (keep : CallsKeep (canThrow prog) call)
    (fuel : Nat) (fn : Func) (body : Stmt)
    (distinct : ((markTries (canThrow prog) body).keptLabels everyDynamic).Nodup)
    (checked : Checked (markTries (canThrow prog) body)) (as : List Word) (s : State M)
    (orderly : Orderly s) :
    SameAnswer
      (Source.invoke T (lowered everyDynamic) (analyzeExceptions prog) call fuel fn
        (markTries (canThrow prog) body) as s)
      (Source.invoke T (lowered id) (analyzeExceptions prog) call' fuel fn
        (markTries (canThrow prog) body) as s) := by
  have marked := marked_markTries (canThrow prog) body
  generalize markTries (canThrow prog) body = stmt at distinct checked marked ⊢
  have outside : Outside (targets (lowered id) stmt) stmt := by
    apply outside_kept stmt distinct
    intro l _ alive
    simpa [targets, lowered, Stmt.keeps] using alive
  unfold Source.invoke
  rw [throwOrigin_direct compiled.hosted]
  apply close_same
  have next : (same M (targets (lowered id) stmt)).next
      (s.setMem (T.enter fn.params fn.locals as s.m))
      (s.setMem (T.enter fn.params fn.locals as s.m)) := ⟨rfl, orderly⟩
  have clock : ∀ s t : State M, (same M (targets (lowered id) stmt)).next s t →
      (same M (targets (lowered id) stmt)).timeout s t := fun _ _ next => next.1
  exact Sim.region_rel clock (agrees_live outside)
    (run_same calls throws keep compiled.hosted.asm fuel stmt false marked outside checked) fuel .run
    _ _ trivial next

/-- The body of an analyzed function is the marked body of a function. -/
theorem analyzed_body {fn : Func} {stmt : Stmt} (member : fn ∈ (analyzeExceptions prog).funcs)
    (defined : fn.body = some stmt) : ∃ body, stmt = markTries (canThrow prog) body := by
  obtain ⟨fn', -, rfl⟩ := List.mem_map.mp member
  cases body : fn'.body with
  | none => simp [analyzeFunc, body] at defined
  | some body' =>
    refine ⟨body', ?_⟩
    simpa [analyzeFunc, body] using defined.symm

theorem external_same (func : String) (as : List Word) (s : State M) (orderly : Orderly s) :
    SameAnswer (Source.external T func as s) (Source.external T func as s) := by
  unfold Source.external
  split
  · exact .abort orderly
  · split
    · exact .ret orderly
    · exact .abort orderly
    · exact .abort orderly

theorem foreign_same (a : Word) (as : List Word) (s : State M) (orderly : Orderly s) :
    SameAnswer (Source.foreign T a as s) (Source.foreign T a as s) := by
  unfold Source.foreign
  split
  · exact .ret orderly
  · exact .abort orderly
  · exact .abort orderly

theorem answer_same {body body' : Func → Stmt → Oracle M}
    (bodies : ∀ fn ∈ (analyzeExceptions prog).funcs, ∀ stmt, fn.body = some stmt →
      CallsSame (body fn stmt) (body' fn stmt)) :
    CallsSame (Source.answer T (analyzeExceptions prog) body)
      (Source.answer T (analyzeExceptions prog) body') := by
  intro f as s orderly
  unfold Source.answer
  cases site : dispatch T (analyzeExceptions prog) f with
  | defined fn stmt =>
    obtain ⟨member, defined⟩ := dispatch_defined site
    exact bodies fn member stmt defined f as s orderly
  | declared fn => exact external_same fn.name as s orderly
  | foreign a => exact foreign_same a as s orderly
  | unknown => exact .abort orderly

theorem dynamic_faithful (mode : TryMode) : (lowered everyDynamic).pick mode = mode ∨
    (lowered everyDynamic).pick mode = .dynamic := .inr rfl

theorem callFuel_same (compiled : Compiled T prog) (fuel : Nat) :
    CallsSame (Source.callFuel T (lowered everyDynamic) (analyzeExceptions prog) fuel)
      (Source.callFuel T (lowered id) (analyzeExceptions prog) fuel) := by
  induction fuel with
  | zero =>
    apply answer_same
    intro fn member stmt defined f as s orderly
    exact .timeout
  | succ fuel ih =>
    apply answer_same
    intro fn member stmt defined f as s orderly
    have distinct := compiled.assembles fn (List.mem_cons_of_mem _ member) stmt defined
    have checked := compiled.checked fn (List.mem_cons_of_mem _ member) stmt defined
    obtain ⟨body, rfl⟩ := analyzed_body member defined
    exact invoke_same compiled ih (callFuel_throws compiled _ fuel)
      (callFuel_keeps compiled.hosted dynamic_faithful fuel) fuel fn body distinct checked as s
      orderly

theorem runProgram_same (compiled : Compiled T prog) (fuel : Nat) (as : List Word) (s : State M)
    (orderly : Orderly s) :
    SameAnswer
      (Source.runProgram T (lowered everyDynamic) (analyzeExceptions prog) fuel as s)
      (Source.runProgram T (lowered id) (analyzeExceptions prog) fuel as s) := by
  unfold Source.runProgram
  cases defined : (analyzeExceptions prog).startup.body with
  | none => exact .abort orderly
  | some stmt =>
    have distinct := compiled.assembles _ List.mem_cons_self stmt defined
    have checked := compiled.checked _ List.mem_cons_self stmt defined
    have marked : (analyzeExceptions prog).startup.body =
        prog.startup.body.map (markTries (canThrow prog)) := rfl
    rw [marked] at defined
    obtain ⟨body, -, rfl⟩ := Option.map_eq_some_iff.mp defined
    exact invoke_same compiled (callFuel_same compiled fuel) (callFuel_throws compiled _ fuel)
      (callFuel_keeps compiled.hosted dynamic_faithful fuel) fuel _ body distinct checked as s
      orderly

/-- The C programs end alike: with the same value or the same end, the same
memory, and the same events at the catches. -/
def SameEnd : Answer Word CStop (Rt M) → Answer Word CStop (Rt M) → Prop
  | .ret v t, .ret v' t' => v = v' ∧ t.m = t'.m ∧ t.events = t'.events
  | .abort x t, .abort x' t' => x = x' ∧ t.m = t'.m ∧ t.events = t'.events
  | .timeout t, .timeout t' => t.m = t'.m ∧ t.events = t'.events
  | _, _ => False

def Overflows (a : Answer Word CStop (Rt M)) : Prop := ∃ t, a = .abort .overflow t

theorem same_ends {fr fr' : Int → Frame} {acts acts' : Nat} {a a' : Answer Word Stop (State M)}
    {b b' : Answer Word CStop (Rt M)} (answers : SameAnswer a a') (unbarred : Unbarred a)
    (first : AnsRel 0 fr acts a b) (rest : AnsRel 0 fr' acts' a' b') :
    Overflows b ∨ Overflows b' ∨ SameEnd b b' := by
  have observed {s : State M} {t t' : Rt M} (seen : Same s t) (seen' : Same s t') :
      t.m = t'.m ∧ t.events = t'.events :=
    ⟨seen.1.trans seen'.1.symm, seen.2.trans seen'.2.symm⟩
  cases first with
  | overflow => exact .inl ⟨_, rfl⟩
  | barred => cases unbarred
  | ret on =>
    cases answers
    cases rest with
    | overflow => exact .inr (.inl ⟨_, rfl⟩)
    | ret on' => exact .inr (.inr ⟨rfl, observed on.same on'.same⟩)
  | raise left =>
    cases answers
    cases rest with
    | overflow => exact .inr (.inl ⟨_, rfl⟩)
    | raise left' =>
      rcases left with ⟨room, -⟩ | ⟨-, rfl, seen⟩
      · exact absurd room (Int.lt_irrefl 0)
      · rcases left' with ⟨room, -⟩ | ⟨-, rfl, seen'⟩
        · exact absurd room (Int.lt_irrefl 0)
        · exact .inr (.inr ⟨rfl, observed seen seen'⟩)
  | exit seen =>
    cases answers
    cases rest with
    | overflow => exact .inr (.inl ⟨_, rfl⟩)
    | exit seen' => exact .inr (.inr ⟨rfl, observed seen seen'⟩)
  | stuck seen =>
    cases answers
    cases rest with
    | overflow => exact .inr (.inl ⟨_, rfl⟩)
    | stuck seen' => exact .inr (.inr ⟨rfl, observed seen seen'⟩)
  | timeout seen =>
    cases answers
    cases rest with
    | overflow => exact .inr (.inl ⟨_, rfl⟩)
    | timeout seen' => exact .inr (.inr (observed seen seen'))

/-- In a run in which no jump crosses the bounds of the body of a `try` or goes
into a dropped catch, and no exception comes by a frame to a function whose
local variables have changed, the program that is compiled by the modes of the
analysis ends as the one that compiles every `try` with a handler, in C and in
LLVM code: with the same answer, memory and events. -/
theorem lowerings_agree (T : Target M) (prog : Program) (compiled : Compiled T prog) (fuel : Nat)
    (as : List Word) (t : Rt M) (empty : t.ntry = 0)
    (unbarred : Unbarred (Source.runProgram T (lowered everyDynamic) (analyzeExceptions prog) fuel as
      (seen t))) :
    (Overflows (CRun.runProgram T everyDynamic (analyzeExceptions prog) fuel as t) ∨
      Overflows (CRun.runProgram T id (analyzeExceptions prog) fuel as t) ∨
      SameEnd (CRun.runProgram T everyDynamic (analyzeExceptions prog) fuel as t)
        (CRun.runProgram T id (analyzeExceptions prog) fuel as t)) ∧
    ∃ n cfg n' cfg',
      Steps (LlRun.step T everyDynamic (analyzeExceptions prog)) n
        (start T everyDynamic (analyzeExceptions prog) as t) cfg ∧
      Steps (LlRun.step T id (analyzeExceptions prog)) n'
        (start T id (analyzeExceptions prog) as t) cfg' ∧
      (Overflown cfg ∨ Overflown cfg' ∨
        ∃ a, Unbarred a ∧ Finished fuel 0 t.frames t.acts [] n a cfg ∧
          Finished fuel 0 t.frames t.acts [] n' a cfg') := by
  have on : On 0 t.frames t.acts (seen t) t :=
    ⟨⟨rfl, rfl⟩, empty, fun _ _ _ => rfl, Nat.le_refl _⟩
  have older : ∀ i : Int, 0 ≤ i → i < 0 → (t.frames i).act < t.acts :=
    fun i low high => absurd low (Int.not_le.mpr high)
  have fresh : Orderly (seen t) := fun r member => by cases member
  have answers := runProgram_same compiled fuel as (seen t) fresh
  have assembles : Assembles id (analyzeExceptions prog) := fun fn member body defined =>
    (compiled.assembles fn member body defined).sublist (keptLabels_sublist body)
  refine ⟨?_, ?_⟩
  · exact same_ends answers unbarred
      (runProgram_rel (lowered_lowering everyDynamic) fuel as (seen t) t (Int.le_refl 0) older on)
      (runProgram_rel (lowered_lowering id) fuel as (seen t) t (Int.le_refl 0) older on)
  · obtain ⟨n, cfg, steps, ends⟩ := LlSim.runProgram_reaches compiled.assembles
      (lowered_lowering everyDynamic) fuel as (seen t) t (Int.le_refl 0) older on
    obtain ⟨n', cfg', steps', ends'⟩ := LlSim.runProgram_reaches assembles
      (lowered_lowering id) fuel as (seen t) t (Int.le_refl 0) older on
    refine ⟨n, cfg, n', cfg', steps, steps', ?_⟩
    rcases ends with finished | overflown
    · rcases ends' with finished' | overflown'
      · right
        right
        generalize Source.runProgram T (lowered everyDynamic) (analyzeExceptions prog) fuel as
          (seen t) = a at answers unbarred finished
        refine ⟨a, unbarred, finished, ?_⟩
        generalize Source.runProgram T (lowered id) (analyzeExceptions prog) fuel as (seen t) = a'
          at answers finished'
        cases answers with
        | ret => exact finished'
        | abort => exact finished'
        | timeout => exact finished'
        | barred => cases unbarred
      · exact .inr (.inl overflown')
    · exact .inl overflown

end Programs

section Examples

def callF : Stmt := .exprStmt (.call .void "F" .noArg 0)

/-- The functions of `nested`, with the startup code `F();`. -/
def nestedMain : Program :=
  { nested with startup := { name := "__hc_start", ret := tyI64, body := some callF } }

/-- `U0 F() { while (1) { try { break; } catch {} } }`, and the startup code
`F(); throw('x');`. -/
def breaking : Program where
  funcs := Plain.prelude ++ [{ name := "F", ret := .void, body := some (.seq
    (.whileStmt (.num 1) (.block (.tryStmt .none (.goto ".wend0") .null))) (.label ".wend0")) }]
  globals := []
  startup := { name := "__hc_start", ret := tyI64
               body := some (.seq callF (Plain.callStmt "throw" 120)) }
  distinct := by
    show ["throw", "PutExcept", "PutChars", "F"].Nodup
    decide

theorem compiled_nestedMain : Compiled Plain.target nestedMain where
  hosted := ⟨hosted_nested.asm, hosted_nested.runtime, hosted_nested.throw⟩
  throw := rfl
  assembles := assembles_unlabelled (by decide)
  checked := by
    intro fn member body defined
    have all : ∀ fn ∈ (analyzeExceptions nestedMain).startup :: (analyzeExceptions nestedMain).funcs,
        ∀ body, fn.body = some body → Checked body := by
      simp [analyzeExceptions, nestedMain, nested, callF, Plain.prelude, Plain.callStmt, analyzeFunc,
        markTries, Checked, isThrowCall, isThrow, Single]
    exact all fn member body defined

theorem not_overflows {v : Word} {t : Rt M} : ¬Overflows (.ret v t) := by
  rintro ⟨u, limited⟩
  cases limited

def returned : Answer Word CStop (Rt M) → Option Word
  | .ret v _ => some v
  | _ => none

theorem returned_some {a : Answer Word CStop (Rt M)} {v : Word} (value : returned a = some v) :
    ∃ t, a = .ret v t := by
  cases a with
  | ret w t =>
    cases value
    exact ⟨t, rfl⟩
  | _ => cases value

theorem nestedMain_returns (pick : TryMode → TryMode) (either : pick = everyDynamic ∨ pick = id) :
    ∃ t, CRun.runProgram Plain.target pick (analyzeExceptions nestedMain) 6 [] { m := {} } =
      .ret 0 t := by
  apply returned_some
  rcases either with rfl | rfl
  · decide +kernel
  · decide +kernel

theorem lowerings_agree_nestedMain :
    ∃ v t t', CRun.runProgram Plain.target everyDynamic (analyzeExceptions nestedMain) 6 []
        { m := {} } = .ret v t ∧
      CRun.runProgram Plain.target id (analyzeExceptions nestedMain) 6 [] { m := {} } =
        .ret v t' ∧ t.m = t'.m ∧ t.events = t'.events := by
  have ends := (lowerings_agree Plain.target nestedMain compiled_nestedMain 6 [] { m := {} } rfl
    trivial).1
  obtain ⟨t, dynamic⟩ := nestedMain_returns everyDynamic (.inl rfl)
  obtain ⟨t', chosen⟩ := nestedMain_returns id (.inr rfl)
  rw [dynamic, chosen] at ends
  have same := (ends.resolve_left not_overflows).resolve_left not_overflows
  exact ⟨0, t, t', dynamic, chosen, same.2.1, same.2.2⟩

/-- With a handler for every `try` the handler that `F` leaves behind receives
the exception; by the modes of the analysis nobody does. -/
theorem break_tells_lowerings :
    (∃ f t, CRun.runProgram Plain.target everyDynamic (analyzeExceptions breaking) 6 []
      { m := {} } = .abort (.unwind f) t) ∧
    ∃ t, CRun.runProgram Plain.target id (analyzeExceptions breaking) 6 [] { m := {} } =
      .abort .unhandled t :=
  ⟨⟨_, _, rfl⟩, ⟨_, rfl⟩⟩

end Examples

end Aholyc.Lowerings
