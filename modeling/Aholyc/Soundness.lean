import Aholyc.Source

/-!
# Soundness of the effect analysis

What the flags and the modes of `Aholyc.Effects` promise about the runs of
`Aholyc.Source`: a function whose flag is down raises nothing, a `try` without
a handler is reached by nothing, and a `try` with a branch only by the throw
statements and rethrows of its own function.
-/

namespace Aholyc.Soundness

open Aholyc.Lib Aholyc.Effects Aholyc.Eval Aholyc.Source

variable {M : Type}

def Marked (canThrow : String → Bool) : Stmt → Prop
  | .seq s next => Marked canThrow s ∧ Marked canThrow next
  | .block body => Marked canThrow body
  | .ifStmt _ thn els => Marked canThrow thn ∧ Marked canThrow els
  | .whileStmt _ thn => Marked canThrow thn
  | .doWhile thn _ => Marked canThrow thn
  | .forStmt init _ inc thn =>
      Marked canThrow init ∧ Marked canThrow inc ∧ Marked canThrow thn
  | .tryStmt mode thn els =>
      mode = tryMode (effect canThrow thn) ∧ Marked canThrow thn ∧
        (mode ≠ .none → Marked canThrow els)
  | _ => True

theorem tryMode_eq_none (body : Effect) : tryMode body = .none ↔ body.any = false := by
  unfold tryMode
  cases some : body.any with
  | false => simp
  | true =>
    simp only [Bool.not_true, Bool.false_eq_true, if_false]
    constructor
    · intro h
      split at h <;> cases h
    · intro h
      cases h

theorem tryMode_dynamic (body : Effect) (call : body.call = true) : tryMode body = .dynamic := by
  have some : body.any = true := by simp [Effect.any, call]
  unfold tryMode
  simp [some, call]

theorem tryMode_branch (body : Effect) (mode : tryMode body = .branch) : body.call = false := by
  cases call : body.call with
  | false => rfl
  | true => rw [tryMode_dynamic body call] at mode; cases mode

theorem effect_markTries (p q : String → Bool) (s : Stmt) :
    effect p (markTries q s) = effect p s := by
  induction s with
  | tryStmt mode thn els thnIh elsIh =>
    simp only [markTries, effect, thnIh]
    split
    · split
      · rw [elsIh]
      · rfl
    · rfl
  | seq _ _ first rest => simp only [markTries, effect, first, rest]
  | block _ ih => simp only [markTries, effect, ih]
  | ifStmt _ _ _ thn els => simp only [markTries, effect, thn, els]
  | whileStmt _ _ ih => simp only [markTries, effect, ih]
  | doWhile _ _ ih => simp only [markTries, effect, ih]
  | forStmt _ _ _ _ init inc thn => simp only [markTries, effect, init, inc, thn]
  | _ => rfl

theorem marked_markTries (p : String → Bool) (s : Stmt) : Marked p (markTries p s) := by
  induction s with
  | tryStmt mode thn els thnIh elsIh =>
    refine ⟨by rw [effect_markTries], thnIh, fun live => ?_⟩
    have some : (effect p thn).any = true := by
      by_contra none
      exact live ((tryMode_eq_none _).mpr (by simpa using none))
    rw [if_pos some]
    exact elsIh
  | seq _ _ first rest => exact ⟨first, rest⟩
  | block _ ih => exact ih
  | ifStmt _ _ _ thn els => exact ⟨thn, els⟩
  | whileStmt _ _ ih => exact ih
  | doWhile _ _ ih => exact ih
  | forStmt _ _ _ _ init inc thn => exact ⟨init, inc, thn⟩
  | _ => trivial

def Expected (reached : TryMode × Origin) : Prop :=
  reached.1 ≠ .none ∧ (reached.1 = .branch → reached.2 = .direct ∨ reached.2 = .rethrow)

def Orderly (s : State M) : Prop := ∀ r ∈ s.reached, Expected r

def Ends (e : Effect) (x : Stop) (s : State M) : Prop :=
  Orderly s ∧
    match x with
    | .raise .callee => e.call = true
    | .raise _ => e.any = true
    | _ => True

variable {e : Effect} {s : State M} {o : Origin}

theorem Ends.mono {d : Effect} (below : d.Le e) (x : Stop) (s : State M) (ends : Ends d x s) :
    Ends e x s := by
  refine ⟨ends.1, ?_⟩
  have late := ends.2
  split at late
  · exact below.2 late
  · exact below.any late
  · trivial

theorem ends_raise (o : Origin) (orderly : Orderly s) (call : e.call = true) :
    Ends e (.raise o) s := by
  refine ⟨orderly, ?_⟩
  cases o with
  | callee => exact call
  | _ => exact show e.any = true by simp [Effect.any, call]

theorem orderly_reach {mode : TryMode} (orderly : Orderly s) (expected : Expected (mode, o)) :
    Orderly (s.reach mode o) := by
  intro r member
  rcases List.mem_cons.mp member with rfl | old
  · exact expected
  · exact orderly r old

def CallsKeep (canThrow : String → Bool) (call : Oracle M) : Prop :=
  ∀ f as s, Orderly s → (call f as s).Holds Orderly fun x s' =>
    Orderly s' ∧ ∀ o, x = .raise o → Raises canThrow f

section Statements

variable {T : Target M} {rules : Rules} {thrown : Origin} {call : Oracle M}
  {canThrow : String → Bool}

theorem eval_keeps (keep : CallsKeep canThrow call) {A : Type} {c : M → Comp Callee Word M A}
    (covered : ∀ m, Covered canThrow e (c m)) (s : State M) (orderly : Orderly s) :
    (eval call c s).Holds Orderly (Ends e) := by
  have kept : ∀ m (t : State M), Orderly t → Orderly (t.setMem m) := fun _ _ ok => ok
  have wedged : ∀ t : State M, Orderly t → Ends e .stuck t := fun _ ok => ⟨ok, trivial⟩
  refine Comp.run_holds (covered s.m) kept wedged ?_ s orderly
  intro f as t inside ok
  have once := keep f as t ok
  cases result : call f as t with
  | ret v t' => rw [result] at once; exact once
  | timeout t' => rw [result] at once; exact once
  | abort x t' =>
    rw [result] at once
    cases x with
    | raise o => exact ends_raise o once.1 (inside (once.2 o rfl))
    | _ => exact ⟨once.1, trivial⟩

theorem perform_holds {A : Type} {P : State M → Prop} {E : Stop → State M → Prop}
    {a : Answer A Stop (State M)} (holds : a.Holds P E) : (perform a).Holds P E := by
  cases a <;> exact holds

theorem decision_holds {P : State M → Prop} {E : Stop → State M → Prop}
    {a : Answer Bool Stop (State M)} (holds : a.Holds P E) : (decision a).Holds P E := by
  cases a <;> exact holds

theorem condition_keeps (keep : CallsKeep canThrow call) (cond : Option Expr) (s : State M)
    (orderly : Orderly s) :
    (condition T call cond s).Holds Orderly (Ends (condEffect canThrow cond)) := by
  cases cond with
  | none => exact orderly
  | some c => exact decision_holds (eval_keeps keep (covered_truth T c) s orderly)

theorem throwStmt_keeps (keep : CallsKeep canThrow call) (own : thrown = .direct) (near : Bool)
    (as : Expr) (s : State M) (orderly : Orderly s) :
    (throwStmt T thrown call near as s).Holds Orderly
      (Ends ((exprEffect canThrow as).or Effect.eLocal)) := by
  have below := Effect.le_or_left (exprEffect canThrow as) Effect.eLocal
  have some : ((exprEffect canThrow as).or Effect.eLocal).any = true := by
    simp [Effect.any, Effect.eLocal]
  unfold throwStmt
  split
  · have value := eval_keeps keep (fun m => (covered_firstArg T as m).mono below) s orderly
    cases result : eval call (firstArg T as) s with
    | ret v s' =>
      rw [result] at value
      exact ⟨value, some⟩
    | abort x s' => rw [result] at value; exact value
    | timeout s' => rw [result] at value; exact value
  · have values := eval_keeps keep (fun m => ((covered T as).2.2 m).mono below) s orderly
    cases result : eval call (args T as) s with
    | ret vs s' =>
      rw [result] at values
      have once := keep (.name "throw") vs s' values
      simp only
      cases answer : call (.name "throw") vs s' with
      | ret v s'' => rw [answer] at once; exact once
      | timeout s'' => rw [answer] at once; exact once
      | abort x s'' =>
        rw [answer] at once
        cases x with
        | raise o => exact ⟨once.1, by rw [own]; exact some⟩
        | _ => exact ⟨once.1, trivial⟩
    | abort x s' => rw [result] at values; exact values
    | timeout s' => rw [result] at values; exact values

theorem returnStmt_keeps (keep : CallsKeep canThrow call) (lhs : Option Expr) (s : State M)
    (orderly : Orderly s) :
    (Source.returnStmt T rules call lhs s).Holds Orderly (Ends (condEffect canThrow lhs)) := by
  cases lhs with
  | none => exact orderly
  | some e =>
    have value := eval_keeps keep (covered T e).1 s orderly
    unfold Source.returnStmt
    simp only
    cases result : eval call (val T e) s with
    | ret v s' => rw [result] at value; exact value
    | timeout s' => rw [result] at value; exact value
    | abort x s' =>
      rw [result] at value
      cases x with
      | raise o =>
        have some : (exprEffect canThrow e).any = true := by
          have late := value.2
          split at late
          · simp [Effect.any, late]
          · exact late
          · rename_i other
            exact absurd rfl (other o)
        refine ⟨value.1, ?_⟩
        cases rules.early with
        | true => exact some
        | false => exact value.2
      | _ => exact value

theorem finish_keeps (some : e.any = true) {o : Outcome M} (catchKeeps : o.Holds Orderly (Ends e)) :
    (finish T o).Holds Orderly (Ends e) := by
  refine after_holds catchKeeps fun s orderly => ?_
  split
  · exact ⟨orderly, some⟩
  · exact orderly

variable {body : Effect}

theorem raise_any (ends : Ends body (.raise o) s) : body.any = true := by
  cases o with
  | callee => simp [Effect.any, show body.call = true from ends.2]
  | _ => exact ends.2

/-- What a body raises is what the mode of its `try` allows. -/
theorem raise_expected (ends : Ends body (.raise o) s) (escape : o ≠ .escape) :
    Expected (tryMode body, o) := by
  refine ⟨fun none => ?_, fun branch => ?_⟩
  · have some := raise_any ends
    rw [(tryMode_eq_none body).mp none] at some
    cases some
  cases o with
  | direct => exact .inl rfl
  | rethrow => exact .inr rfl
  | escape => exact absurd rfl escape
  | callee =>
    have quiet := tryMode_branch body branch
    rw [show body.call = true from ends.2] at quiet
    cases quiet

theorem receive_keeps {els : Effect} {picked : TryMode}
    (faithful : picked = tryMode body ∨ picked = .dynamic) {catchRun : State M → Outcome M}
    (catchKeeps : body.any = true → ∀ s, Orderly s → (catchRun s).Holds Orderly (Ends els))
    {o : Outcome M} (bodyKeeps : o.Holds Orderly (Ends body)) :
    (receive T (tryMode body) picked catchRun o).Holds Orderly
      (Ends (if body.any then els.or Effect.eLocal else Effect.none)) := by
  cases o with
  | abort x s =>
    cases x with
    | raise o =>
      have ends' := bodyKeeps
      have some := raise_any bodyKeeps
      obtain ⟨orderly, ends⟩ := bodyKeeps
      have handled : (els.or Effect.eLocal).any = true := by simp [Effect.any, Effect.eLocal]
      rw [if_pos some]
      simp only [receive]
      by_cases escape : o = .escape
      · rw [if_pos escape]
        exact ⟨orderly, handled⟩
      rw [if_neg escape]
      have expected := raise_expected ends' escape
      have later := orderly_reach orderly expected
      by_cases caught : catches picked o = true
      · rw [if_pos caught]
        refine finish_keeps handled ?_
        exact (catchKeeps some ((s.reach _ o).note _) later).mono (Ends.mono (Effect.le_or_left _ _))
      rw [if_neg caught]
      refine ⟨later, ?_⟩
      cases o with
      | callee =>
        have dynamic : picked = .dynamic :=
          faithful.elim (fun same => same.trans (tryMode_dynamic body ends)) id
        rw [dynamic] at caught
        simp [catches] at caught
      | _ => exact handled
    | _ => exact ⟨bodyKeeps.1, trivial⟩
  | _ => exact bodyKeeps

theorem guarded_keeps {gate : Bool} {has : String → Bool} {o : Outcome M}
    (bodyKeeps : o.Holds Orderly (Ends e)) : (guarded gate has o).Holds Orderly (Ends e) := by
  unfold guarded
  split
  · split
    · exact ⟨bodyKeeps, trivial⟩
    · exact bodyKeeps
  · exact bodyKeeps

theorem attempt_keeps {els : Effect}
    (faithful : rules.pick (tryMode body) = tryMode body ∨ rules.pick (tryMode body) = .dynamic)
    {hasThn : String → Bool} {thnRun elsRun : Entry String → State M → Outcome M}
    (thnKeeps : ∀ e s, Orderly s → (thnRun e s).Holds Orderly (Ends body))
    (elsKeeps : body.any = true → ∀ e s, Orderly s → (elsRun e s).Holds Orderly (Ends els))
    (e : Entry String) (s : State M) (orderly : Orderly s) :
    (attempt T rules (tryMode body) hasThn thnRun elsRun e s).Holds Orderly
      (Ends (if body.any then els.or Effect.eLocal else Effect.none)) := by
  have entered (some : body.any = true) (later : State M) (orderly : Orderly later) :
      (entering T rules (tryMode body) s.m (elsRun .run) later).Holds Orderly (Ends els) := by
    unfold entering
    split
    · exact ⟨orderly, trivial⟩
    · exact elsKeeps some .run later orderly
  have received : ∀ e, (receive T (tryMode body) (rules.pick (tryMode body))
      (entering T rules (tryMode body) s.m (elsRun .run))
      (guarded (rules.gate (tryMode body)) hasThn (thnRun e s))).Holds Orderly
        (Ends (if body.any then els.or Effect.eLocal else Effect.none)) := fun e =>
    receive_keeps faithful entered (guarded_keeps (thnKeeps e s orderly))
  cases e with
  | run => exact received .run
  | seek l =>
    simp only [attempt]
    by_cases inBody : hasThn l = true
    · rw [if_pos inBody]
      by_cases gated : rules.gate (tryMode body) = true
      · rw [if_pos gated]
        exact ⟨orderly, trivial⟩
      · rw [if_neg gated]
        exact received (.seek l)
    · rw [if_neg inBody]
      by_cases dropped : tryMode body = .none
      · rw [if_pos dropped]
        exact ⟨orderly, trivial⟩
      rw [if_neg dropped]
      have some : body.any = true := by
        by_contra none
        exact dropped ((tryMode_eq_none body).mpr (by simpa using none))
      have handled : (els.or Effect.eLocal).any = true := by simp [Effect.any, Effect.eLocal]
      rw [if_pos some]
      refine finish_keeps handled ?_
      exact (elsKeeps some (.seek l) s orderly).mono (Ends.mono (Effect.le_or_left _ _))

/-- One statement: order is kept, and it raises only what its effect allows. -/
theorem run_keeps (keep : CallsKeep canThrow call) (own : thrown = .direct)
    (quiet : ∀ a m, (T.asm a m).2 = false)
    (faithful : ∀ mode, rules.pick mode = mode ∨ rules.pick mode = .dynamic) (fuel : Nat)
    (live : String → Bool) (stmt : Stmt) (near : Bool) (marked : Marked canThrow stmt)
    (e : Entry String) (s : State M) (orderly : Orderly s) :
    (run T rules thrown live call fuel near stmt e s).Holds Orderly
      (Ends (effect canThrow stmt)) := by
  induction stmt generalizing near e s with
  | null => exact leaf_holds (fun _ ok => ok) e s orderly
  | nop => exact leaf_holds (fun _ ok => ok) e s orderly
  | goto l =>
    apply leaf_holds _ e s orderly
    intro s ok
    split
    · exact ok
    · exact ⟨ok, trivial⟩
  | label l => exact orderly
  | returnStmt lhs => exact leaf_holds (returnStmt_keeps keep lhs) e s orderly
  | asmStmt a =>
    refine leaf_holds (fun s ok => ?_) e s orderly
    simp only [asmStmt, quiet, Bool.false_eq_true, if_false]
    exact ok
  | exprStmt expr =>
    refine leaf_holds (fun s ok => ?_) e s orderly
    simp only [effect]
    cases isThrowCall expr with
    | some as => exact throwStmt_keeps keep own near as s ok
    | none => exact perform_holds (eval_keeps keep (covered T expr).1 s ok)
  | block body ih => exact ih near marked e s orderly
  | seq first rest ihFirst ihRest =>
    refine region_holds (andThen_holds (fun e s ok => ?_) fun e s ok => ?_) fuel e s orderly
    · exact (ihFirst near marked.1 e s ok).mono (Ends.mono (Effect.le_or_left _ _))
    · exact (ihRest near marked.2 e s ok).mono (Ends.mono (Effect.le_or_right _ _))
  | ifStmt cond thn els ihThn ihEls =>
    have right := Effect.le_or_right (exprEffect canThrow cond)
      ((effect canThrow thn).or (effect canThrow els))
    apply region_holds _ fuel e s orderly
    apply branch_holds
    · intro s ok
      exact Test.Holds.mono (Ends.mono (Effect.le_or_left _ _)) (condition_keeps keep _ s ok)
    · intro e s ok
      exact (ihThn near marked.1 e s ok).mono (Ends.mono ((Effect.le_or_left _ _).trans right))
    · intro e s ok
      exact (ihEls near marked.2 e s ok).mono (Ends.mono ((Effect.le_or_right _ _).trans right))
  | whileStmt cond thn ih =>
    apply region_holds _ fuel e s orderly
    intro e s ok
    apply whileLoop_holds _ _ fuel e s ok
    · intro s ok
      exact Test.Holds.mono (Ends.mono (Effect.le_or_left _ _)) (condition_keeps keep _ s ok)
    · intro e s ok
      exact (ih near marked e s ok).mono (Ends.mono (Effect.le_or_right _ _))
  | doWhile thn cond ih =>
    apply region_holds _ fuel e s orderly
    intro e s ok
    apply doLoop_holds _ _ fuel e s ok
    · intro s ok
      exact Test.Holds.mono (Ends.mono (Effect.le_or_left _ _)) (condition_keeps keep _ s ok)
    · intro e s ok
      exact (ih near marked e s ok).mono (Ends.mono (Effect.le_or_right _ _))
  | forStmt init cond inc thn ihInit ihInc ihThn =>
    obtain ⟨markedInit, markedInc, markedThn⟩ := marked
    have right := Effect.le_or_right (condEffect canThrow cond)
      ((effect canThrow thn).or ((effect canThrow init).or (effect canThrow inc)))
    have tail := (Effect.le_or_right (effect canThrow thn)
      ((effect canThrow init).or (effect canThrow inc))).trans right
    apply region_holds _ fuel e s orderly
    apply andThen_holds
    · intro e s ok
      exact (ihInit near markedInit e s ok).mono (Ends.mono ((Effect.le_or_left _ _).trans tail))
    intro e s ok
    apply region_holds _ fuel e s ok
    intro e s ok
    apply whileLoop_holds _ _ fuel e s ok
    · intro s ok
      exact Test.Holds.mono (Ends.mono (Effect.le_or_left _ _)) (condition_keeps keep _ s ok)
    intro e s ok
    apply region_holds _ fuel e s ok
    apply andThen_holds
    · intro e s ok
      exact (ihThn near markedThn e s ok).mono
        (Ends.mono ((Effect.le_or_left _ _).trans right))
    · intro e s ok
      exact (ihInc near markedInc e s ok).mono
        (Ends.mono ((Effect.le_or_right _ _).trans tail))
  | tryStmt mode thn els ihThn ihEls =>
    obtain ⟨rfl, markedThn, markedEls⟩ := marked
    refine region_holds (attempt_keeps (faithful _) (ihThn _ markedThn) ?_) fuel e s orderly
    intro some
    refine ihEls near (markedEls fun none => ?_)
    rw [(tryMode_eq_none _).mp none] at some
    cases some

end Statements

structure Hosted (T : Target M) (prog : Program) : Prop where
  /-- No assembly block raises: `effect` does not look into them. -/
  asm : ∀ a m, (T.asm a m).2 = false
  /-- A runtime function raises through the calls of `runtime/rt.c`. -/
  runtime : ∀ fn ∈ prog.funcs, fn.body = none → fn.fromPrelude = true →
    ∀ as m m', T.ext fn.name as m = .raise m' → ReachesThrow fn.name
  /-- `throw` is the runtime's, not a function of the program. -/
  throw : ∀ fn, prog.findFunc "throw" = some fn → fn.body = none

section Programs

variable (prog : Program)

theorem canThrow_least :
    Chaotic.Closed Func.name bodyThrows prog.funcs (canThrow prog) ∧
      ∀ f, seedFlags prog f = true → canThrow prog f = true := by
  obtain ⟨closed, above, -⟩ :=
    Chaotic.iterate_least bodyThrows_mono prog.funcs _ _ _ (canThrow_done prog)
  exact ⟨closed, above⟩

variable {prog}

variable {fn : Func}

/-- The flag of a function without a body that can raise is up. -/
theorem canThrow_declared (member : fn ∈ prog.funcs) (declared : fn.body = none)
    (raises : externCanThrow fn = true) : canThrow prog fn.name = true := by
  refine (canThrow_least prog).2 fn.name ?_
  unfold seedFlags
  rw [findFunc_of_mem member]
  simpa [declared] using raises

/-- The flag of a function whose body has an effect is up. -/
theorem canThrow_body {body : Stmt} (member : fn ∈ prog.funcs) (defined : fn.body = some body)
    (some : (effect (canThrow prog) body).any = true) : canThrow prog fn.name = true := by
  refine (canThrow_least prog).1 fn member ?_
  unfold bodyThrows
  rw [defined]
  exact some

theorem analyzed_findFunc (f : String) :
    (analyzeExceptions prog).findFunc f =
      (prog.findFunc f).map (analyzeFunc (canThrow prog)) := by
  unfold Program.findFunc analyzeExceptions
  rw [List.find?_map]
  rfl

variable {T : Target M} {rules : Rules}

theorem lookup_analyzed (f : String) :
    lookup (analyzeExceptions prog) f =
      match lookup prog f with
      | .defined fn body =>
        .defined (analyzeFunc (canThrow prog) fn) (markTries (canThrow prog) body)
      | .declared fn => .declared (analyzeFunc (canThrow prog) fn)
      | site => site := by
  unfold lookup
  rw [analyzed_findFunc]
  cases prog.findFunc f with
  | none => rfl
  | some fn => cases defined : fn.body <;> simp [analyzeFunc, defined]

theorem throwOrigin_direct (hosted : Hosted T prog) :
    throwOrigin (analyzeExceptions prog) = .direct := by
  unfold throwOrigin
  rw [lookup_analyzed]
  cases found : lookup prog "throw" with
  | defined fn body =>
    obtain ⟨member, name, defined⟩ := lookup_defined found
    have named := findFunc_of_mem member
    rw [name] at named
    rw [hosted.throw fn named] at defined
    cases defined
  | _ => rfl

/-- A body keeps order, and raises only if it has an effect. -/
theorem invoke_keeps (hosted : Hosted T prog)
    (faithful : ∀ mode, rules.pick mode = mode ∨ rules.pick mode = .dynamic)
    {call : Oracle M} (keep : CallsKeep (canThrow prog) call) (fuel : Nat) (fn : Func)
    (body : Stmt) (as : List Word) (s : State M) (orderly : Orderly s) :
    (invoke T rules (analyzeExceptions prog) call fuel fn (markTries (canThrow prog) body) as
      s).Holds Orderly fun x s' =>
        Orderly s' ∧ ∀ o, x = .raise o → (effect (canThrow prog) body).any = true := by
  unfold invoke
  have step := run_keeps keep (throwOrigin_direct hosted) hosted.asm faithful fuel
    (targets rules (markTries (canThrow prog) body)) (markTries (canThrow prog) body) false
    (marked_markTries _ body)
  have once : (Flow.region ((markTries (canThrow prog) body).keeps rules.pick) _ fuel .run
      (s.setMem (T.enter fn.params fn.locals as s.m))).Holds Orderly _ :=
    region_holds step fuel .run _ orderly
  rw [effect_markTries] at once
  generalize Flow.region _ _ fuel .run _ = o at once ⊢
  cases o with
  | abort x s' =>
    cases x with
    | raise o =>
      refine ⟨once.1, fun _ _ => ?_⟩
      cases o with
      | callee => simp [Effect.any, show (effect (canThrow prog) body).call = true from once.2]
      | _ => exact once.2
    | _ => exact ⟨once.1, fun _ h => by cases h⟩
  | jump l s' => exact ⟨once, fun _ h => by cases h⟩
  | _ => exact once

theorem external_keeps (hosted : Hosted T prog) (member : fn ∈ prog.funcs)
    (declared : fn.body = none) (as : List Word) (s : State M) (orderly : Orderly s) :
    (external T fn.name as s).Holds Orderly fun x s' =>
      Orderly s' ∧ ∀ o, x = .raise o → isThrow fn.name = true ∨ canThrow prog fn.name = true := by
  unfold external
  by_cases named : isThrow fn.name = true
  · rw [if_pos named]
    exact ⟨orderly, fun _ _ => .inl named⟩
  rw [if_neg named]
  cases answer : T.ext fn.name as s.m with
  | ret v m => exact orderly
  | exit m => exact ⟨orderly, fun _ h => by cases h⟩
  | raise m =>
    refine ⟨orderly, fun _ _ => .inr (canThrow_declared member declared ?_)⟩
    unfold externCanThrow
    cases prelude : fn.fromPrelude with
    | false => rfl
    | true =>
      have reaches := hosted.runtime fn member declared prelude as s.m m answer
      simpa using (mem_throwers_iff fn.name).mpr reaches

theorem foreign_keeps (T : Target M) (f : Word) (as : List Word) (s : State M) (orderly : Orderly s) :
    (foreign T f as s).Holds Orderly fun _ s' => Orderly s' := by
  unfold foreign
  cases T.foreign f as s.m <;> exact orderly

/-- The answers for defined functions that keep order and raise only if the
body has an effect. -/
def BodiesKeep (prog : Program) (body : Func → Stmt → Oracle M) : Prop :=
  ∀ fn stmt f as s, Orderly s →
    (body fn (markTries (canThrow prog) stmt) f as s).Holds Orderly fun x s' => Orderly s' ∧
      ∀ o, x = .raise o → (effect (canThrow prog) stmt).any = true

theorem site_keeps (hosted : Hosted T prog) {body : Func → Stmt → Oracle M}
    (bodies : BodiesKeep prog body) (f : Callee) (func : String)
    (named : dispatch T (analyzeExceptions prog) f = lookup (analyzeExceptions prog) func)
    (as : List Word) (s : State M) (orderly : Orderly s) :
    (answer T (analyzeExceptions prog) body f as s).Holds Orderly fun x s' => Orderly s' ∧
      ∀ o, x = .raise o → isThrow func = true ∨ canThrow prog func = true := by
  unfold answer
  rw [named, lookup_analyzed]
  cases found : lookup prog func with
  | defined fn stmt =>
    obtain ⟨member, rfl, defined⟩ := lookup_defined found
    have once := bodies (analyzeFunc (canThrow prog) fn) stmt f as s orderly
    simp only
    generalize body _ _ f as s = a at once ⊢
    cases a with
    | abort x s' =>
      exact ⟨once.1, fun o raised => .inr (canThrow_body member defined (once.2 o raised))⟩
    | _ => exact once
  | declared fn =>
    obtain ⟨member, rfl, declared⟩ := lookup_declared found
    exact external_keeps hosted member declared as s orderly
  | foreign a => exact absurd found (lookup_ne_foreign prog func a)
  | unknown => exact ⟨orderly, fun _ h => by cases h⟩

theorem answer_keeps (hosted : Hosted T prog) {body : Func → Stmt → Oracle M}
    (bodies : BodiesKeep prog body) :
    CallsKeep (canThrow prog) (answer T (analyzeExceptions prog) body) := by
  intro f as s orderly
  cases f with
  | name func => exact site_keeps hosted bodies (.name func) func rfl as s orderly
  | ptr a =>
    cases resolved : T.resolve a with
    | none =>
      have once := foreign_keeps T a as s orderly
      simp only [answer, dispatch, resolved]
      generalize foreign T a as s = r at once ⊢
      cases r with
      | abort x s' => exact ⟨once, fun _ _ => trivial⟩
      | _ => exact once
    | some func =>
      have once := site_keeps hosted bodies (.ptr a) func (by simp [dispatch, resolved]) as s
        orderly
      generalize answer T _ body _ as s = r at once ⊢
      cases r with
      | abort x s' => exact ⟨once.1, fun _ _ => trivial⟩
      | _ => exact once

theorem callFuel_keeps (hosted : Hosted T prog)
    (faithful : ∀ mode, rules.pick mode = mode ∨ rules.pick mode = .dynamic) (fuel : Nat) :
    CallsKeep (canThrow prog) (callFuel T rules (analyzeExceptions prog) fuel) := by
  induction fuel with
  | zero => exact answer_keeps hosted fun fn stmt f as s orderly => orderly
  | succ fuel ih =>
    apply answer_keeps hosted
    intro fn stmt f as s orderly
    exact invoke_keeps hosted faithful ih fuel fn stmt as s orderly

/-- The startup function is one more function with a body. -/
theorem startup_keeps (hosted : Hosted T prog)
    (faithful : ∀ mode, rules.pick mode = mode ∨ rules.pick mode = .dynamic) (fuel : Nat)
    (as : List Word) (s : State M) (orderly : Orderly s) :
    (runProgram T rules (analyzeExceptions prog) fuel as s).Holds Orderly fun x s' =>
      Orderly s' ∧ ∀ o, x = .raise o → startupCanThrow prog = true := by
  have marked : (analyzeExceptions prog).startup.body =
      prog.startup.body.map (markTries (canThrow prog)) := rfl
  unfold runProgram startupCanThrow bodyThrows
  rw [marked]
  cases prog.startup.body with
  | none => exact ⟨orderly, fun _ h => by cases h⟩
  | some stmt =>
    exact invoke_keeps hosted faithful (callFuel_keeps hosted faithful fuel) fuel _ stmt as s
      orderly

theorem findFunc_perm {prog' : Program} (perm : prog'.funcs.Perm prog.funcs) (f : String) :
    prog'.findFunc f = prog.findFunc f := by
  cases found : prog.findFunc f with
  | some fn =>
    obtain ⟨member, rfl⟩ := findFunc_some found
    exact findFunc_of_mem (perm.mem_iff.mpr member)
  | none =>
    unfold Program.findFunc at found ⊢
    rw [List.find?_eq_none] at found ⊢
    exact fun fn member => found fn (perm.mem_iff.mp member)

theorem canThrow_perm {prog' : Program} (perm : prog'.funcs.Perm prog.funcs) :
    canThrow prog' = canThrow prog := by
  have seeds : seedFlags prog' = seedFlags prog := by
    funext f
    unfold seedFlags
    rw [findFunc_perm perm]
  have done := canThrow_done prog'
  unfold analyzeLoop at done
  rw [seeds] at done
  exact Chaotic.iterate_perm bodyThrows_mono perm _ _ _ _ _ done (canThrow_done prog)

theorem throw_can_throw (named : isThrow fn.name = true) : externCanThrow fn = true := by
  have name : fn.name = "throw" := by simpa [isThrow] using named
  simp [externCanThrow, name, throwers]

end Programs

/-- Soundness of the analysis. Its loop ends; its result does not depend on
the order of the functions; a function (or the startup code) that ends in an
exception has its flag up; and whatever reaches a `try` in a run is what the
mode of that `try` expects. -/
theorem analysis_sound (prog : Program) (T : Target M) (hosted : Hosted T prog) (rules : Rules)
    (faithful : ∀ mode, rules.pick mode = mode ∨ rules.pick mode = .dynamic) :
    (analyzeLoop prog (prog.funcs.length + 1)).isSome = true ∧
    (∀ prog' : Program, prog'.funcs.Perm prog.funcs → prog'.startup = prog.startup →
      canThrow prog' = canThrow prog ∧
      (analyzeExceptions prog').funcs.Perm (analyzeExceptions prog).funcs ∧
      (analyzeExceptions prog').startup = (analyzeExceptions prog).startup) ∧
    (∀ fn ∈ prog.funcs, ∀ fuel as m o s',
      callFuel T rules (analyzeExceptions prog) fuel (.name fn.name) as { m := m } =
        .abort (.raise o) s' → canThrow prog fn.name = true) ∧
    (∀ fuel as m o s',
      runProgram T rules (analyzeExceptions prog) fuel as { m := m } = .abort (.raise o) s' →
      startupCanThrow prog = true) ∧
    (∀ fuel f as m,
      Orderly (callFuel T rules (analyzeExceptions prog) fuel f as { m := m }).state) ∧
    (∀ fuel as m,
      Orderly (runProgram T rules (analyzeExceptions prog) fuel as { m := m }).state) := by
  have fresh : ∀ m : M, Orderly ({ m := m } : State M) := fun m r member => by cases member
  refine ⟨analyze_terminates prog, ?_, ?_, ?_, ?_, ?_⟩
  · intro prog' perm startup
    have flags := canThrow_perm perm
    refine ⟨flags, ?_, ?_⟩
    · simp only [analyzeExceptions, flags]
      exact perm.map _
    · simp only [analyzeExceptions, flags, startup]
  · intro fn member fuel as m o s' raised
    have once := callFuel_keeps hosted faithful fuel (.name fn.name) as { m := m } (fresh m)
    rw [raised] at once
    rcases once.2 o rfl with named | flagged
    · apply canThrow_declared member _ (throw_can_throw named)
      have declared := findFunc_of_mem member
      rw [show fn.name = "throw" by simpa [isThrow] using named] at declared
      exact hosted.throw fn declared
    · exact flagged
  · intro fuel as m o s' raised
    have once := startup_keeps hosted faithful fuel as { m := m } (fresh m)
    rw [raised] at once
    exact once.2 o rfl
  · intro fuel f as m
    exact (callFuel_keeps hosted faithful fuel f as { m := m } (fresh m)).state fun _ _ h => h.1
  · intro fuel as m
    exact (startup_keeps hosted faithful fuel as { m := m } (fresh m)).state fun _ _ h => h.1

section Nested

/-- `U0 G() { throw('x'); }` and
`U0 F() { try { try { G(); } catch {} } catch { PutExcept(TRUE); } }`. -/
def nested : Program where
  funcs := Plain.prelude ++
    [{ name := "G", ret := .void, body := some (Plain.callStmt "throw" 120) },
     { name := "F", ret := .void
       body := some (.tryStmt .none
         (.tryStmt .none (.exprStmt (.call .void "G" .noArg 0)) .null)
         (Plain.callStmt "PutExcept" 1)) }]
  globals := []
  startup := { name := "__hc_start", ret := tyI64, body := some .null }
  distinct := by decide

theorem hosted_nested : Hosted Plain.target nested where
  asm _ _ := rfl
  runtime fn _ _ _ as m m' h := absurd h (Plain.ext_quiet fn.name as m m')
  throw fn found := by
    have first : nested.findFunc "throw" = some
        { name := "throw", ret := .void, isExtern := true, fromPrelude := true } := rfl
    rw [first] at found
    cases found
    rfl

theorem analysis_sound_nested : canThrow nested "G" = true :=
  (analysis_sound nested Plain.target hosted_nested documented (fun _ => .inr rfl)).2.2.1
    { name := "G", ret := .void, body := some (Plain.callStmt "throw" 120) } (by
      simp [nested]) 1 [] {} .callee _ rfl

/-- A `try` with a branch is reached by more than throw statements: here the
inner catch, which does not handle what the callee raised, raises it again. -/
theorem rethrow_reaches_branch :
    ¬ ∀ r ∈ (callFuel Plain.target documented (analyzeExceptions nested) 4 (.name "F") []
        { m := {} }).state.reached, r.1 = .branch → r.2 = .direct := by
  decide

end Nested

end Aholyc.Soundness
