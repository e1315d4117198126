import Aholyc.Source

/-!
# The C backend: statements

`emit_stmt` of `src/back_c.c`. The emitted C is a tree with one node for each
construct that the emitter writes; the text of a node is in the comment of its
constructor. The number of a `_setjmp` call stands for its place in the text.
-/

namespace Aholyc.CBackend

open Aholyc.Effects

inductive CLabel where
  | user (l : String)
  -- `Lhc_catch<n>` and `Lhc_tryend<n>`
  | catchL (n : Nat)
  | tryEnd (n : Nat)
  -- the return of `_setjmp` call number `n` with a value other than zero
  | landing (n : Nat)
  deriving DecidableEq, Repr

/-- What `emit_rethrow` writes: `if (!__hc_fs()->catch_except)` and then a jump
to the outer catch, or `throw(__hc_fs()->except_ch);`. -/
inductive Rethrow where
  | goto (n : Nat)
  | throw
  deriving DecidableEq, Repr

inductive CStmt where
  | skip
  | seq (s next : CStmt)
  -- `e;`
  | expr (e : Expr)
  -- `__hc_fs()->except_ch = arg; __hc_fs()->catch_except = 0; goto Lhc_catch<n>;`
  | localThrow (args : Expr) (n : Nat)
  -- `{ body }`
  | block (body : CStmt)
  | ifStmt (cond : Expr) (thn els : CStmt)
  | whileStmt (cond : Expr) (thn : CStmt)
  | doWhile (thn : CStmt) (cond : Expr)
  -- `for (;;) { if (!cond) break; body }`
  | forever (cond : Option Expr) (body : CStmt)
  -- `__hc_try_pop();` so many times, and then `return e;`
  | ret (pops : Nat) (e : Option Expr)
  | goto (l : String)
  | label (l : String)
  | asm (a : AsmBlock)
  -- `{ thn goto Lhc_tryend<n>; Lhc_catch<n>: ; els rethrow Lhc_tryend<n>: ; }`
  | localTry (n : Nat) (thn els : CStmt) (rethrow : Rethrow)
  -- `{ void *hjb = __hc_try_push(); if (!_setjmp(*(jmp_buf *)hjb)) {`
  -- `thn __hc_try_pop(); } else { els rethrow } }`
  | dynamicTry (site : Nat) (thn els : CStmt) (rethrow : Rethrow)

def CStmt.labels : CStmt → List CLabel
  | seq s next => s.labels ++ next.labels
  | block body => body.labels
  | ifStmt _ thn els => thn.labels ++ els.labels
  | whileStmt _ thn => thn.labels
  | doWhile thn _ => thn.labels
  | forever _ body => body.labels
  | label l => [.user l]
  | localTry n thn els _ => thn.labels ++ (.catchL n :: (els.labels ++ [.tryEnd n]))
  | dynamicTry site thn els _ => thn.labels ++ (.landing site :: els.labels)
  | _ => []

def CStmt.has (s : CStmt) (l : CLabel) : Bool := s.labels.contains l

/-- A handler: the number of its catch label, or of its `_setjmp` call. -/
structure CHandler where
  label : Nat
  dynamic : Bool
  deriving DecidableEq, Repr

/-- The fields of `CGen` that `emit_stmt` uses; the innermost handler comes
first. `setjmps` counts the `_setjmp` calls, `tooDeep` says that an error
"C backend: try nesting too deep" ended the compilation. -/
structure CGen where
  tryDepth : Nat := 0
  handlers : List CHandler := []
  exceptLabel : Nat := 0
  setjmps : Nat := 0
  tooDeep : Bool := false

namespace CGen

def handlersMax : Nat := 256

def pushHandler (g : CGen) (dynamic : Bool) (label : Nat) : CGen :=
  { g with
    handlers := ⟨label, dynamic⟩ :: g.handlers
    tooDeep := g.tooDeep || handlersMax ≤ g.handlers.length }

def popHandler (g : CGen) : CGen := { g with handlers := g.handlers.tail }

/-- `int label = ++cg->except_label;` and the handler of a `TRY_LOCAL`. -/
def enterLocal (g : CGen) : CGen :=
  CGen.pushHandler { g with exceptLabel := g.exceptLabel + 1 } false (g.exceptLabel + 1)

/-- `cg->try_depth++` and the handler of a `TRY_DYNAMIC`. -/
def enterDynamic (g : CGen) : CGen :=
  CGen.pushHandler { g with tryDepth := g.tryDepth + 1, setjmps := g.setjmps + 1 } true
    (g.setjmps + 1)

def leaveDynamic (g : CGen) : CGen := { g.popHandler with tryDepth := g.tryDepth - 1 }

end CGen

/-- `emit_local_throw` on a `throw` statement, or the plain call. -/
def emitThrow (g : CGen) (e args : Expr) : CStmt :=
  match g.handlers with
  | h :: _ => if h.dynamic then .expr e else .localThrow args h.label
  | [] => .expr e

def emitRethrow (g : CGen) : Rethrow :=
  match g.handlers with
  | h :: _ => if h.dynamic then .throw else .goto h.label
  | [] => .throw

def emitStmt (pick : TryMode → TryMode) : CGen → Stmt → CStmt × CGen
  | g, .null => (.skip, g)
  | g, .seq s next =>
      let a := emitStmt pick g s
      let b := emitStmt pick a.2 next
      (.seq a.1 b.1, b.2)
  | g, .nop => (.skip, g)
  | g, .exprStmt e =>
      match isThrowCall e with
      | some args => (emitThrow g e args, g)
      | none => (.expr e, g)
  | g, .block body => emitStmt pick g body
  | g, .ifStmt cond thn els =>
      let a := emitStmt pick g thn
      let b := emitStmt pick a.2 els
      (.ifStmt cond a.1 b.1, b.2)
  | g, .whileStmt cond thn =>
      let a := emitStmt pick g thn
      (.whileStmt cond a.1, a.2)
  | g, .doWhile thn cond =>
      let a := emitStmt pick g thn
      (.doWhile a.1 cond, a.2)
  | g, .forStmt init cond inc thn =>
      let i := emitStmt pick g init
      let a := emitStmt pick i.2 thn
      let b := emitStmt pick a.2 inc
      (.seq i.1 (.forever cond (.seq a.1 b.1)), b.2)
  | g, .returnStmt lhs => (.ret g.tryDepth lhs, g)
  | g, .goto l => (.goto l, g)
  | g, .label l => (.label l, g)
  | g, .asmStmt a => (.asm a, g)
  | g, .tryStmt mode thn els =>
      match pick mode with
      | .none =>
          let a := emitStmt pick g thn
          (.block a.1, a.2)
      | .branch =>
          let a := emitStmt pick g.enterLocal thn
          let b := emitStmt pick a.2.popHandler els
          (.localTry (g.exceptLabel + 1) a.1 b.1 (emitRethrow a.2.popHandler), b.2)
      | .dynamic =>
          let a := emitStmt pick g.enterDynamic thn
          let b := emitStmt pick a.2.leaveDynamic els
          (.dynamicTry (g.setjmps + 1) a.1 b.1 (emitRethrow a.2.leaveDynamic), b.2)

/-- The body of an emitted function: `emit_func` starts with no handler. What
it writes after the body, `return 0;`, is the end of the body in `CRun`. -/
def emitBody (pick : TryMode → TryMode) (body : Stmt) : CStmt := (emitStmt pick {} body).1

section Counters

variable {pick : TryMode → TryMode}

/-- What an emitted statement leaves of the generator: the handlers and the
depth are back, and the counters have not gone down. -/
structure Balanced (g h : CGen) : Prop where
  handlers : h.handlers = g.handlers
  tryDepth : h.tryDepth = g.tryDepth
  exceptLabel : g.exceptLabel ≤ h.exceptLabel
  setjmps : g.setjmps ≤ h.setjmps

theorem Balanced.refl (g : CGen) : Balanced g g := ⟨rfl, rfl, Nat.le_refl _, Nat.le_refl _⟩

variable {g h : CGen}

theorem Balanced.trans {k : CGen} (first : Balanced g h) (second : Balanced h k) :
    Balanced g k where
  handlers := second.handlers.trans first.handlers
  tryDepth := second.tryDepth.trans first.tryDepth
  exceptLabel := first.exceptLabel.trans second.exceptLabel
  setjmps := first.setjmps.trans second.setjmps

theorem Balanced.popHandler (body : Balanced g.enterLocal h) :
    Balanced g h.popHandler where
  handlers := by
    have tail := congrArg List.tail body.handlers
    exact tail
  tryDepth := body.tryDepth
  exceptLabel := (Nat.le_succ _).trans body.exceptLabel
  setjmps := body.setjmps

theorem Balanced.leaveDynamic (body : Balanced g.enterDynamic h) :
    Balanced g h.leaveDynamic where
  handlers := by
    have tail := congrArg List.tail body.handlers
    exact tail
  tryDepth := by
    have depth : h.tryDepth = g.tryDepth + 1 := body.tryDepth
    simp only [CGen.leaveDynamic, depth]
    omega
  exceptLabel := body.exceptLabel
  setjmps := (Nat.le_succ _).trans body.setjmps

variable (pick)

theorem emit_balanced (s : Stmt) (g : CGen) : Balanced g (emitStmt pick g s).2 := by
  induction s generalizing g with
  | seq _ _ first rest => exact (first g).trans (rest _)
  | block _ ih => exact ih g
  | ifStmt _ _ _ thn els => exact (thn g).trans (els _)
  | whileStmt _ _ ih => exact ih g
  | doWhile _ _ ih => exact ih g
  | forStmt _ _ _ _ init inc thn => exact ((init g).trans (thn _)).trans (inc _)
  | exprStmt e =>
    simp only [emitStmt]
    split <;> exact Balanced.refl g
  | tryStmt mode thn els ihThn ihEls =>
    simp only [emitStmt]
    cases pick mode with
    | none => exact ihThn g
    | branch => exact (ihThn g.enterLocal).popHandler.trans (ihEls _)
    | dynamic => exact (ihThn g.enterDynamic).leaveDynamic.trans (ihEls _)
  | _ => exact Balanced.refl g

/-- The labels of a statement emitted from `g`: the user labels are those that
are kept, and the numbers of the others are fresh. -/
structure Placed (g : CGen) (kept : List String) (labels : List CLabel) : Prop where
  user : ∀ l, CLabel.user l ∈ labels ↔ l ∈ kept
  catchL : ∀ n, CLabel.catchL n ∈ labels → g.exceptLabel < n
  landing : ∀ n, CLabel.landing n ∈ labels → g.setjmps < n

theorem Placed.nil (g : CGen) : Placed g [] [] := by
  constructor <;> simp

theorem Placed.later {kept : List String} {labels : List CLabel} (balanced : Balanced g h)
    (placed : Placed h kept labels) : Placed g kept labels where
  user := placed.user
  catchL n member := lt_of_le_of_lt balanced.exceptLabel (placed.catchL n member)
  landing n member := lt_of_le_of_lt balanced.setjmps (placed.landing n member)

theorem Placed.append {kept kept' : List String} {labels labels' : List CLabel}
    (first : Placed g kept labels) (rest : Placed g kept' labels') :
    Placed g (kept ++ kept') (labels ++ labels') where
  user l := by rw [List.mem_append, List.mem_append, first.user, rest.user]
  catchL n member := (List.mem_append.mp member).elim (first.catchL n) (rest.catchL n)
  landing n member := (List.mem_append.mp member).elim (first.landing n) (rest.landing n)

theorem emit_placed (s : Stmt) (g : CGen) :
    Placed g (s.keptLabels pick) (emitStmt pick g s).1.labels := by
  induction s generalizing g with
  | seq s next first rest => exact (first g).append ((rest _).later (emit_balanced pick s g))
  | block _ ih => exact ih g
  | ifStmt cond thn els ihThn ihEls =>
    exact (ihThn g).append ((ihEls _).later (emit_balanced pick thn g))
  | whileStmt _ _ ih => exact ih g
  | doWhile _ _ ih => exact ih g
  | forStmt init cond inc thn ihInit ihInc ihThn =>
    apply (ihInit g).append
    apply Placed.later (emit_balanced pick init g)
    exact (ihThn _).append ((ihInc _).later (emit_balanced pick thn _))
  | exprStmt e =>
    simp only [emitStmt]
    split
    · unfold emitThrow
      split
      · split <;> exact Placed.nil g
      · exact Placed.nil g
    · exact Placed.nil g
  | label l =>
    constructor
    · intro k
      simp [emitStmt, CStmt.labels, Stmt.keptLabels]
    · simp [emitStmt, CStmt.labels]
    · simp [emitStmt, CStmt.labels]
  | tryStmt mode thn els ihThn ihEls =>
    simp only [emitStmt, Stmt.keptLabels]
    cases pick mode with
    | none => simpa [CStmt.labels] using ihThn g
    | branch =>
      have body := ihThn g.enterLocal
      have later := (ihEls (emitStmt pick g.enterLocal thn).2.popHandler).later
        (emit_balanced pick thn g.enterLocal).popHandler
      simp only [CStmt.labels, reduceCtorEq, if_false]
      constructor
      · intro l
        simp [body.user, later.user]
      · intro n member
        simp only [List.mem_append, List.mem_cons, CLabel.catchL.injEq, List.not_mem_nil,
          reduceCtorEq, or_false] at member
        rcases member with inside | rfl | inside
        · exact (Nat.lt_succ_self _).trans (body.catchL n inside)
        · exact Nat.lt_succ_self _
        · exact later.catchL n inside
      · intro n member
        simp only [List.mem_append, List.mem_cons, List.not_mem_nil, reduceCtorEq, or_false,
          false_or] at member
        rcases member with inside | inside
        · exact body.landing n inside
        · exact later.landing n inside
    | dynamic =>
      have body := ihThn g.enterDynamic
      have later := (ihEls (emitStmt pick g.enterDynamic thn).2.leaveDynamic).later
        (emit_balanced pick thn g.enterDynamic).leaveDynamic
      simp only [CStmt.labels, reduceCtorEq, if_false]
      constructor
      · intro l
        simp [body.user, later.user]
      · intro n member
        simp only [List.mem_append, List.mem_cons, reduceCtorEq, false_or] at member
        rcases member with inside | inside
        · exact body.catchL n inside
        · exact later.catchL n inside
      · intro n member
        simp only [List.mem_append, List.mem_cons, CLabel.landing.injEq] at member
        rcases member with inside | rfl | inside
        · exact (Nat.lt_succ_self _).trans (body.landing n inside)
        · exact Nat.lt_succ_self _
        · exact later.landing n inside
  | _ => exact Placed.nil g

end Counters

end Aholyc.CBackend
