import Aholyc.Ast
import Aholyc.Lib.Chaotic

/-!
# Exception effects

The effect analysis that selects the lowering of every `try`
(`src/effects.c`), and the part of the runtime call graph that its list of
throwing runtime functions has to agree with (`runtime/rt.c`).
-/

namespace Aholyc.Effects

open Aholyc.Lib

structure Effect where
  loc : Bool
  call : Bool
  deriving DecidableEq, Repr

namespace Effect

def none : Effect := ⟨false, false⟩

def eLocal : Effect := ⟨true, false⟩

def eCall : Effect := ⟨false, true⟩

def or (a b : Effect) : Effect := ⟨a.loc || b.loc, a.call || b.call⟩

def any (e : Effect) : Bool := e.loc || e.call

def Le (a b : Effect) : Prop :=
  (a.loc = true → b.loc = true) ∧ (a.call = true → b.call = true)

@[simp] theorem none_loc : none.loc = false := rfl
@[simp] theorem none_call : none.call = false := rfl
@[simp] theorem or_loc (a b : Effect) : (a.or b).loc = (a.loc || b.loc) := rfl
@[simp] theorem or_call (a b : Effect) : (a.or b).call = (a.call || b.call) := rfl

theorem Le.refl (a : Effect) : a.Le a := ⟨id, id⟩

variable {a b : Effect}

theorem Le.any (below : a.Le b) (some : a.any = true) : b.any = true := by
  unfold Effect.any at *
  rcases Bool.or_eq_true_iff.mp some with h | h
  · simp [below.1 h]
  · simp [below.2 h]

theorem Le.or {c d : Effect} (left : a.Le b) (right : c.Le d) : (a.or c).Le (b.or d) := by
  constructor <;> intro h <;> simp only [or_loc, or_call, Bool.or_eq_true] at h ⊢
  · exact h.imp left.1 right.1
  · exact h.imp left.2 right.2

theorem le_or_left (a b : Effect) : a.Le (a.or b) := by
  constructor <;> intro h <;> simp [h]

theorem le_or_right (a b : Effect) : b.Le (a.or b) := by
  constructor <;> intro h <;> simp [h]

theorem Le.trans {c : Effect} (first : a.Le b) (second : b.Le c) : a.Le c :=
  ⟨fun h => second.1 (first.1 h), fun h => second.2 (first.2 h)⟩

end Effect

def isThrow (func : String) : Bool := func == "throw"

def isThrowCall : Expr → Option Expr
  | .call _ func args _ => if isThrow func then some args else none
  | _ => none

def throwers : List String :=
  ["throw", "MAlloc", "CAlloc", "StrNew", "MStrPrint", "StrPrintJoin", "GetStr"]

def externCanThrow (fn : Func) : Bool :=
  if !fn.fromPrelude then true else throwers.contains fn.name

/-- The calls that functions of `runtime/rt.c` make to functions of
`runtime/rt.c`; a function without a row makes none. -/
def runtimeCalls : List (String × List String) :=
  [("throw", ["__hc_fs", "hc_except_str"]),
   ("PutExcept", ["__hc_fs", "hc_except_str"]),
   ("MAlloc", ["throw"]),
   ("CAlloc", ["MAlloc"]),
   ("StrNew", ["MAlloc"]),
   ("hc_format", ["hc_emit"]),
   ("Print", ["hc_format"]),
   ("StrPrint", ["hc_format"]),
   ("MStrPrint", ["hc_format", "StrNew"]),
   ("StrPrintJoin", ["MStrPrint", "StrLen", "MAlloc", "Free"]),
   ("GetStr", ["Print", "StrNew"]),
   ("Bt", ["hc_bitp"]), ("Bts", ["hc_bitp"]), ("Btr", ["hc_bitp"]), ("Btc", ["hc_bitp"]),
   ("BEqu", ["Bts", "Btr"]),
   ("LBts", ["hc_bitp", "Bts"]), ("LBtr", ["hc_bitp", "Btr"]), ("LBtc", ["hc_bitp", "Btc"]),
   ("LBEqu", ["LBts", "LBtr"]),
   ("Rand", ["RandI64"])]

/-- A function of the runtime that can end in `throw`. -/
inductive ReachesThrow : String → Prop where
  | throw : ReachesThrow "throw"
  | call (f g : String) (calls : List String) :
      (f, calls) ∈ runtimeCalls → g ∈ calls → ReachesThrow g → ReachesThrow f

/-- A row that calls a function of the list is in the list. -/
theorem throwers_closed :
    ∀ row ∈ runtimeCalls, ∀ g ∈ row.2, g ∈ throwers → row.1 ∈ throwers := by
  decide

/-- The list is right: it holds the functions of the runtime that can end in
`throw`, and no other. -/
theorem mem_throwers_iff (f : String) : f ∈ throwers ↔ ReachesThrow f := by
  constructor
  · intro member
    have malloc : ReachesThrow "MAlloc" :=
      .call _ _ ["throw"] (by decide) (by decide) .throw
    have strNew : ReachesThrow "StrNew" :=
      .call _ _ ["MAlloc"] (by decide) (by decide) malloc
    have mStrPrint : ReachesThrow "MStrPrint" :=
      .call _ _ ["hc_format", "StrNew"] (by decide) (by decide) strNew
    simp only [throwers, List.mem_cons, List.not_mem_nil, or_false] at member
    rcases member with rfl | rfl | rfl | rfl | rfl | rfl | rfl
    · exact .throw
    · exact malloc
    · exact .call _ _ ["MAlloc"] (by decide) (by decide) malloc
    · exact strNew
    · exact mStrPrint
    · exact .call _ _ ["MStrPrint", "StrLen", "MAlloc", "Free"] (by decide) (by decide) mStrPrint
    · exact .call _ _ ["Print", "StrNew"] (by decide) (by decide) strNew
  · intro reaches
    induction reaches with
    | throw => decide
    | call f g calls row callee _ ih => exact throwers_closed _ row _ callee ih

def exprEffect (canThrow : String → Bool) : Expr → Effect
  | .bin _ _ lhs rhs => (exprEffect canThrow lhs).or (exprEffect canThrow rhs)
  | .un _ _ lhs => exprEffect canThrow lhs
  | .assign _ lhs rhs => (exprEffect canThrow lhs).or (exprEffect canThrow rhs)
  | .member _ _ lhs => exprEffect canThrow lhs
  | .deref _ lhs => exprEffect canThrow lhs
  | .addr _ lhs => exprEffect canThrow lhs
  | .cast _ _ lhs => exprEffect canThrow lhs
  | .call _ func args _ =>
      (exprEffect canThrow args).or ⟨false, isThrow func || canThrow func⟩
  | .callInd _ lhs args _ =>
      ((exprEffect canThrow lhs).or (exprEffect canThrow args)).or Effect.eCall
  | .arg a next => (exprEffect canThrow a).or (exprEffect canThrow next)
  | _ => Effect.none

def condEffect (canThrow : String → Bool) : Option Expr → Effect
  | some e => exprEffect canThrow e
  | none => Effect.none

/-- The mode that `effect` gives a `try` whose body has effect `body`. -/
def tryMode (body : Effect) : TryMode :=
  if !body.any then .none else if body.call then .dynamic else .branch

/-- `effect` on a statement. An assembly block has no children, and so no
effect. -/
def effect (canThrow : String → Bool) : Stmt → Effect
  | .seq s next => (effect canThrow s).or (effect canThrow next)
  | .exprStmt e =>
      match isThrowCall e with
      | some args => (exprEffect canThrow args).or Effect.eLocal
      | none => exprEffect canThrow e
  | .block body => effect canThrow body
  | .ifStmt cond thn els =>
      (exprEffect canThrow cond).or ((effect canThrow thn).or (effect canThrow els))
  | .whileStmt cond thn => (exprEffect canThrow cond).or (effect canThrow thn)
  | .doWhile thn cond => (exprEffect canThrow cond).or (effect canThrow thn)
  | .forStmt init cond inc thn =>
      (condEffect canThrow cond).or
        ((effect canThrow thn).or ((effect canThrow init).or (effect canThrow inc)))
  | .returnStmt lhs => condEffect canThrow lhs
  | .tryStmt _ thn els =>
      if (effect canThrow thn).any then (effect canThrow els).or Effect.eLocal else Effect.none
  | _ => Effect.none

/-- The `try_mode` fields that `effect` leaves behind. The catch of a body
without an effect is not visited. -/
def markTries (canThrow : String → Bool) : Stmt → Stmt
  | .seq s next => .seq (markTries canThrow s) (markTries canThrow next)
  | .block body => .block (markTries canThrow body)
  | .ifStmt cond thn els => .ifStmt cond (markTries canThrow thn) (markTries canThrow els)
  | .whileStmt cond thn => .whileStmt cond (markTries canThrow thn)
  | .doWhile thn cond => .doWhile (markTries canThrow thn) cond
  | .forStmt init cond inc thn =>
      .forStmt (markTries canThrow init) cond (markTries canThrow inc) (markTries canThrow thn)
  | .tryStmt _ thn els =>
      .tryStmt (tryMode (effect canThrow thn)) (markTries canThrow thn)
        (if (effect canThrow thn).any then markTries canThrow els else els)
  | s => s

def seedFlags (prog : Program) (name : String) : Bool :=
  match prog.findFunc name with
  | some fn => if fn.body.isSome then false else externCanThrow fn
  | none => false

def bodyThrows (canThrow : String → Bool) (fn : Func) : Bool :=
  match fn.body with
  | some body => (effect canThrow body).any
  | none => false

/-- The `do`-`while` of `analyze_exceptions`, for at most `fuel` passes. -/
def analyzeLoop (prog : Program) (fuel : Nat) : Option (String → Bool) :=
  Chaotic.iterate Func.name bodyThrows prog.funcs fuel (seedFlags prog)

variable {p q : String → Bool}

theorem exprEffect_mono (below : ∀ f, p f = true → q f = true) (e : Expr) :
    (exprEffect p e).Le (exprEffect q e) := by
  induction e with
  | bin _ _ _ _ left right => exact left.or right
  | assign _ _ _ left right => exact left.or right
  | arg _ _ left right => exact left.or right
  | un _ _ _ ih => exact ih
  | member _ _ _ ih => exact ih
  | deref _ _ ih => exact ih
  | addr _ _ ih => exact ih
  | cast _ _ _ ih => exact ih
  | call _ func _ _ ih =>
    refine ih.or ⟨id, fun h => ?_⟩
    rcases Bool.or_eq_true_iff.mp h with h | h
    · simp [h]
    · simp [below func h]
  | callInd _ _ _ _ left right => exact (left.or right).or (Effect.Le.refl _)
  | _ => exact Effect.Le.refl _

theorem condEffect_mono (below : ∀ f, p f = true → q f = true) (cond : Option Expr) :
    (condEffect p cond).Le (condEffect q cond) := by
  cases cond with
  | none => exact Effect.Le.refl _
  | some e => exact exprEffect_mono below e

theorem effect_mono (below : ∀ f, p f = true → q f = true) (s : Stmt) :
    (effect p s).Le (effect q s) := by
  induction s with
  | seq _ _ first rest => exact first.or rest
  | exprStmt e =>
    simp only [effect]
    cases isThrowCall e with
    | none => exact exprEffect_mono below e
    | some args => exact (exprEffect_mono below args).or (Effect.Le.refl _)
  | block _ ih => exact ih
  | ifStmt cond _ _ thn els => exact (exprEffect_mono below cond).or (thn.or els)
  | whileStmt cond _ thn => exact (exprEffect_mono below cond).or thn
  | doWhile _ cond thn => exact (exprEffect_mono below cond).or thn
  | forStmt _ cond _ _ init inc thn =>
    exact (condEffect_mono below cond).or (thn.or (init.or inc))
  | returnStmt lhs => exact condEffect_mono below lhs
  | tryStmt _ thn els thnMono elsMono =>
    simp only [effect]
    by_cases some : (effect p thn).any = true
    · rw [if_pos some, if_pos (thnMono.any some)]
      exact elsMono.or (Effect.Le.refl _)
    · rw [if_neg some]
      exact ⟨fun h => by simp at h, fun h => by simp at h⟩
  | _ => exact Effect.Le.refl _

theorem bodyThrows_mono : Chaotic.Monotone bodyThrows := by
  intro p q below fn throws
  unfold bodyThrows at *
  cases body : fn.body with
  | none => simp [body] at throws
  | some body' =>
    simp only [body] at throws ⊢
    exact (effect_mono below body').any throws

/-- The passes end, whatever the call graph: one more than there are
functions is enough. -/
theorem analyze_terminates (prog : Program) :
    (analyzeLoop prog (prog.funcs.length + 1)).isSome = true := by
  have bound : Chaotic.open_ Func.name prog.funcs (seedFlags prog) < prog.funcs.length + 1 :=
    Nat.lt_succ_of_le List.countP_le_length
  obtain ⟨r, done⟩ : ∃ r, analyzeLoop prog (prog.funcs.length + 1) = some r :=
    Chaotic.iterate_some prog.funcs _ _ bound
  simp [done]

def canThrow (prog : Program) : String → Bool :=
  (analyzeLoop prog (prog.funcs.length + 1)).get (analyze_terminates prog)

theorem canThrow_done (prog : Program) :
    analyzeLoop prog (prog.funcs.length + 1) = some (canThrow prog) :=
  Option.eq_some_of_isSome _

def startupCanThrow (prog : Program) : Bool := bodyThrows (canThrow prog) prog.startup

/-- `analyze_exceptions`: every body gets its `try_mode` fields. -/
def analyzeFunc (canThrow : String → Bool) (fn : Func) : Func :=
  { fn with body := fn.body.map (markTries canThrow) }

def analyzeExceptions (prog : Program) : Program where
  funcs := prog.funcs.map (analyzeFunc (canThrow prog))
  globals := prog.globals
  startup := analyzeFunc (canThrow prog) prog.startup
  distinct := by
    have names : (prog.funcs.map (analyzeFunc (canThrow prog))).map Func.name =
        prog.funcs.map Func.name := by
      rw [List.map_map]
      rfl
    rw [names]
    exact prog.distinct

end Aholyc.Effects
