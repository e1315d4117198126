import Aholyc.CRun

/-!
# The emitted C does what the tree says

Every statement of the tree, run under the rules of its lowering, and the C
that is emitted for it end in the same way: with the same memory and the same
events at the catches, and with the handler stack that belongs to the place
where control has gone.
-/

namespace Aholyc.CSim

open Aholyc.Lib Aholyc.Effects Aholyc.Eval Aholyc.CBackend Aholyc.Source Aholyc.CRun

variable {M : Type}

def Same (s : State M) (t : Rt M) : Prop := t.m = s.m ∧ t.events = s.events

/-- The handler stack holds the first `k` frames of `fr`. -/
structure On (k : Int) (fr : Int → Frame) (acts : Nat) (s : State M) (t : Rt M) : Prop where
  same : Same s t
  ntry : t.ntry = k
  frames : ∀ i, 0 ≤ i → i < k → t.frames i = fr i
  acts : acts ≤ t.acts

/-- An exception has left the frames `fr` for the newest of them. -/
def Unwound (k : Int) (fr : Int → Frame) (acts : Nat) (s : State M) (y : CStop) (t : Rt M) :
    Prop :=
  (0 < k ∧ y = .unwind (fr (k - 1)) ∧ On (k - 1) fr acts s t) ∨
    (k ≤ 0 ∧ y = .unhandled ∧ Same s t)

variable {s : State M} {o : Outcome M} {o' : COut M} {has : String → Bool} {g : CGen}

theorem On.unwind {k : Int} {fr : Int → Frame} {acts : Nat} {t : Rt M} (on : On k fr acts s t) :
    Unwound k fr acts s t.unwind.1 t.unwind.2 := by
  unfold Rt.unwind
  by_cases room : 0 < k
  · left
    rw [if_pos (by rw [on.ntry]; exact room)]
    refine ⟨room, ?_, on.same, ?_, ?_, on.acts⟩
    · rw [on.ntry, on.frames (k - 1) (by omega) (by omega)]
    · simp only [Rt.pop, on.ntry]
    · intro i low high
      exact on.frames i low (by omega)
  · right
    rw [if_neg (by rw [on.ntry]; exact room)]
    exact ⟨by omega, rfl, on.same⟩

theorem On.setMem {k : Int} {fr : Int → Frame} {acts : Nat} {t : Rt M} (m : M)
    (on : On k fr acts s t) : On k fr acts (s.setMem m) (t.setMem m) :=
  ⟨⟨rfl, on.same.2⟩, on.ntry, on.frames, on.acts⟩

/-- Answers that agree, for a call made on the frames `fr`. -/
inductive AnsRel (k : Int) (fr : Int → Frame) (acts : Nat) {V : Type} :
    Answer V Stop (State M) → Answer V CStop (Rt M) → Prop where
  | ret {v s t} : On k fr acts s t → AnsRel k fr acts (.ret v s) (.ret v t)
  | raise {s y t} : Unwound k fr acts s y t →
      AnsRel k fr acts (.abort (.raise .callee) s) (.abort y t)
  | exit {s t} : Same s t → AnsRel k fr acts (.abort .exit s) (.abort .exit t)
  | stuck {s t} : Same s t → AnsRel k fr acts (.abort .stuck s) (.abort .stuck t)
  | timeout {s t} : Same s t → AnsRel k fr acts (.timeout s) (.timeout t)
  | barred {s a} : AnsRel k fr acts (.abort .barred s) a
  | overflow {a t} : AnsRel k fr acts a (.abort .overflow t)

def CallsAgree (call : Oracle M) (call' : COracle M) : Prop :=
  ∀ k fr acts, 0 ≤ k → (∀ i, 0 ≤ i → i < k → (fr i).act < acts) →
    ∀ f as s t, On k fr acts s t → AnsRel k fr acts (call f as s) (call' f as t)

theorem source_lawful : Comp.Lawful (State.m : State M → M) State.setMem :=
  ⟨fun _ _ => rfl, fun _ _ _ => rfl, fun _ => rfl⟩

theorem c_lawful : Comp.Lawful (Rt.m : Rt M → M) Rt.setMem :=
  ⟨fun _ _ => rfl, fun _ _ _ => rfl, fun _ => rfl⟩

theorem eval_rel {call : Oracle M} {call' : COracle M} (agree : CallsAgree call call')
    {k : Int} {fr : Int → Frame} {acts : Nat} (floor : 0 ≤ k)
    (older : ∀ i, 0 ≤ i → i < k → (fr i).act < acts) {A : Type}
    (c : M → Comp Callee Word M A) (s : State M) (t : Rt M) (on : On k fr acts s t) :
    AnsRel k fr acts (Source.eval call c s) (CRun.eval call' c t) := by
  unfold Source.eval CRun.eval
  rw [on.same.1]
  generalize c s.m = comp
  induction comp generalizing s t with
  | done a m => exact .ret (on.setMem m)
  | stuck m => exact .stuck (on.setMem m).same
  | call f args m rest ih =>
    have once := agree k fr acts floor older f args _ _ (on.setMem m)
    simp only [Comp.run]
    generalize call f args (s.setMem m) = a at once ⊢
    generalize call' f args (t.setMem m) = a' at once ⊢
    cases once with
    | @ret v s' t' later =>
      simp only [later.same.1]
      exact ih v s'.m s' t' later
    | raise left => exact .raise left
    | exit same => exact .exit same
    | stuck same => exact .stuck same
    | timeout same => exact .timeout same
    | barred => exact .barred
    | overflow => exact .overflow

/-- An activation that runs on the frames `bottom`, all of older activations. -/
structure Activation where
  act : Nat
  base : Int
  bottom : Int → Frame
  floor : 0 ≤ base
  older : ∀ i, 0 ≤ i → i < base → (bottom i).act < act

def depth : List CHandler → Nat
  | [] => 0
  | h :: hs => if h.dynamic then depth hs + 1 else depth hs

namespace Activation

variable (c : Activation)

def layout : List CHandler → Int → Frame
  | [] => c.bottom
  | h :: hs =>
      if h.dynamic then Function.update (layout hs) (c.base + depth hs) ⟨c.act, h.label⟩
      else layout hs

/-- The handler stack is the one that belongs to the handlers `hs`. -/
def Holding (hs : List CHandler) (s : State M) (t : Rt M) : Prop :=
  On (c.base + depth hs) (c.layout hs) (c.act + 1) s t

def Caught : List CHandler → Origin → State M → CLabel → Rt M → Prop
  | [], _, _, _, _ => False
  | h :: hs, o, s, l, t =>
      if h.dynamic then o ≠ .escape ∧ l = .landing h.label ∧ c.Holding hs s t
      else
        (catches .branch o = true ∧ l = .catchL h.label ∧ c.Holding hs s t) ∨
          (catches .branch o = false ∧ Caught hs o s l t)

end Activation

def handled : List CHandler → Origin → Bool
  | [], _ => false
  | h :: hs, o =>
      if h.dynamic then o != .escape else catches .branch o || handled hs o

def nearest : List CHandler → Bool
  | [] => false
  | h :: _ => !h.dynamic

def sim (c : Activation) (hs : List CHandler) :
    Sim String CLabel Word Stop CStop (State M) (Rt M) where
  lab := .user
  live _ := true
  next s t := c.Holding hs s t
  ret _ s t := On c.base c.bottom (c.act + 1) s t
  timeout s t := Same s t
  abort x s y t :=
    match x with
    | .raise o => handled hs o = false ∧ Unwound c.base c.bottom (c.act + 1) s y t
    | .exit => y = .exit ∧ Same s t
    | .stuck => y = .stuck ∧ Same s t
    | .barred => False
  caught x s l t := ∃ o, x = .raise o ∧ c.Caught hs o s l t
  free x := x = .barred
  dead y _ := y = .overflow

@[simp] theorem sim_lab (c : Activation) (hs : List CHandler) (l : String) :
    (sim c hs : Sim String CLabel Word Stop CStop (State M) (Rt M)).lab l = .user l := rfl

section Layout

variable {c : Activation}

variable {h : CHandler}

theorem depth_dynamic (hs : List CHandler) (dynamic : h.dynamic = true) :
    (depth (h :: hs) : Int) = depth hs + 1 := by
  simp [depth, dynamic]

theorem depth_local (hs : List CHandler) (dynamic : h.dynamic = false) :
    depth (h :: hs) = depth hs := by
  simp [depth, dynamic]

theorem layout_dynamic (hs : List CHandler) (dynamic : h.dynamic = true) :
    c.layout (h :: hs) =
      Function.update (c.layout hs) (c.base + depth hs) ⟨c.act, h.label⟩ := by
  simp [Activation.layout, dynamic]

theorem layout_local (hs : List CHandler) (dynamic : h.dynamic = false) :
    c.layout (h :: hs) = c.layout hs := by
  simp [Activation.layout, dynamic]

theorem layout_older (hs : List CHandler) (i : Int) (low : 0 ≤ i) (high : i < c.base + depth hs) :
    (c.layout hs i).act < c.act + 1 := by
  induction hs generalizing i with
  | nil =>
    simp only [depth, Nat.cast_zero, add_zero] at high
    exact (c.older i low high).trans (Nat.lt_succ_self _)
  | cons h hs ih =>
    cases dynamic : h.dynamic with
    | true =>
      rw [depth_dynamic hs dynamic] at high
      rw [layout_dynamic hs dynamic]
      by_cases top : i = c.base + depth hs
      · simp [top]
      · rw [Function.update_of_ne top]
        exact ih i low (by omega)
    | false =>
      rw [depth_local hs dynamic] at high
      rw [layout_local hs dynamic]
      exact ih i low high

/-- Below the frames of the activation the layout is the bottom. -/
theorem layout_bottom (hs : List CHandler) (i : Int) (high : i < c.base) :
    c.layout hs i = c.bottom i := by
  induction hs with
  | nil => rfl
  | cons h hs ih =>
    cases dynamic : h.dynamic with
    | true => rw [layout_dynamic hs dynamic, Function.update_of_ne (by omega), ih]
    | false => rw [layout_local hs dynamic, ih]

theorem Holding.branch {hs : List CHandler} {t : Rt M} (n : Nat) (on : c.Holding hs s t) :
    c.Holding (⟨n, false⟩ :: hs) s t := by
  unfold Activation.Holding
  rw [depth_local hs rfl, layout_local hs rfl]
  exact on

theorem Holding.push {hs : List CHandler} {t : Rt M} (site : Nat) (on : c.Holding hs s t) :
    c.Holding (⟨site, true⟩ :: hs) s (t.push ⟨c.act, site⟩) := by
  refine ⟨on.same, ?_, ?_, on.acts⟩
  · rw [depth_dynamic hs rfl]
    simp only [Rt.push, on.ntry]
    omega
  intro i low high
  rw [depth_dynamic hs rfl] at high
  rw [layout_dynamic hs rfl]
  simp only [Rt.push, on.ntry]
  by_cases top : i = c.base + depth hs
  · simp [top]
  · rw [Function.update_of_ne top, Function.update_of_ne top]
    exact on.frames i low (by omega)

theorem Holding.pop {hs : List CHandler} {t : Rt M} {site : Nat}
    (on : c.Holding (⟨site, true⟩ :: hs) s t) : c.Holding hs s t.pop := by
  have count := on.ntry
  rw [depth_dynamic hs rfl] at count
  refine ⟨on.same, ?_, ?_, on.acts⟩
  · simp only [Rt.pop, count]
    omega
  · intro i low high
    have same := on.frames i low (by rw [depth_dynamic hs rfl]; omega)
    rw [layout_dynamic hs rfl, Function.update_of_ne (by omega)] at same
    exact same

theorem Holding.pops {hs : List CHandler} {t : Rt M} (on : c.Holding hs s t) :
    On c.base c.bottom (c.act + 1) s (t.pops (depth hs)) := by
  refine ⟨on.same, ?_, ?_, on.acts⟩
  · simp only [Rt.pops, on.ntry]
    omega
  · intro i low high
    rw [← layout_bottom hs i high]
    exact on.frames i low (by omega)

theorem handled_escape (hs : List CHandler) : handled hs .escape = false := by
  induction hs with
  | nil => rfl
  | cons h hs ih =>
    unfold handled
    split
    · rfl
    · simp [catches, ih]

/-- An exception that the runtime delivers to the newest frame. -/
theorem land_rel (hs : List CHandler) (o : Origin) (s : State M) (y : CStop) (t : Rt M)
    (origin : o = .callee ∨ (nearest hs = false ∧ o ≠ .escape))
    (left : Unwound (c.base + depth hs) (c.layout hs) (c.act + 1) s y t) :
    (sim c hs).Rel (.abort (.raise o) s) (land c.act y t) := by
  have visible : o ≠ .escape := by
    rcases origin with rfl | ⟨-, visible⟩
    · exact fun h => by cases h
    · exact visible
  induction hs with
  | nil =>
    have leaves : Unwound c.base c.bottom (c.act + 1) s y t := by
      simpa [depth, Activation.layout] using left
    have stays : land c.act y t = .abort y t := by
      rcases leaves with ⟨room, rfl, on⟩ | ⟨-, rfl, -⟩
      · have foreign := c.older (c.base - 1) (by omega) (by omega)
        simp only [land]
        rw [if_neg (by omega)]
      · rfl
    rw [stays]
    exact .abort ⟨rfl, leaves⟩
  | cons h hs ih =>
    cases dynamic : h.dynamic with
    | true =>
      have count := depth_dynamic hs dynamic
      have frames : c.layout (h :: hs) = _ := layout_dynamic hs dynamic
      rcases left with ⟨-, rfl, on⟩ | ⟨none, -, -⟩
      · have top : c.base + (depth (h :: hs) : Int) - 1 = c.base + depth hs := by omega
        rw [top] at on ⊢
        have frame : c.layout (h :: hs) (c.base + depth hs) = ⟨c.act, h.label⟩ := by
          rw [frames]
          simp
        simp only [land, frame, if_true]
        apply Sim.Rel.caught
        refine ⟨o, rfl, ?_⟩
        simp only [Activation.Caught, dynamic, if_true]
        refine ⟨visible, trivial, on.same, on.ntry, ?_, on.acts⟩
        intro i low high
        rw [on.frames i low high, frames, Function.update_of_ne (by omega)]
      · have := c.floor
        omega
    | false =>
      have callee : o = .callee := by
        rcases origin with callee | ⟨near, -⟩
        · exact callee
        · simp [nearest, dynamic] at near
      subst callee
      rw [depth_local hs dynamic, layout_local hs dynamic] at left
      have below := ih (.inl rfl) left
      generalize land c.act y t = out at below ⊢
      cases below with
      | abort ended =>
        apply Sim.Rel.abort
        refine ⟨?_, ended.2⟩
        have rest : handled hs .callee = false := ended.1
        simp [handled, dynamic, rest, catches]
      | dead ended => exact .dead ended
      | free any => cases any
      | caught taken =>
        obtain ⟨o', same, taken⟩ := taken
        cases same
        apply Sim.Rel.caught
        refine ⟨.callee, rfl, ?_⟩
        simp only [Activation.Caught, dynamic, Bool.false_eq_true, if_false]
        exact .inr ⟨rfl, taken⟩

end Layout

section Leaves

variable {c : Activation} {hs : List CHandler} {call : Oracle M} {call' : COracle M}
  {T : Target M} {rules : Rules}

theorem eval_at (agree : CallsAgree call call') {A : Type} (comp : M → Comp Callee Word M A)
    (s : State M) (t : Rt M) (on : c.Holding hs s t) :
    AnsRel (c.base + depth hs) (c.layout hs) (c.act + 1) (Source.eval call comp s)
      (CRun.eval call' comp t) := by
  have floor := c.floor
  exact eval_rel agree (by omega) (layout_older hs) comp s t on

theorem perform_rel {A : Type} {a : Answer A Stop (State M)} {a' : Answer A CStop (Rt M)}
    (same : AnsRel (c.base + depth hs) (c.layout hs) (c.act + 1) a a') :
    (sim c hs).Rel (Source.perform a) (CRun.perform c.act a') := by
  cases same with
  | ret on => exact .next on
  | @raise s y t left => exact land_rel hs .callee s y t (.inl rfl) left
  | exit same => exact .abort ⟨rfl, same⟩
  | stuck same => exact .abort ⟨rfl, same⟩
  | timeout same => exact .timeout same
  | barred => exact .free rfl
  | overflow => exact .dead rfl

theorem condition_rel (agree : CallsAgree call call') (cond : Option Expr) (s : State M)
    (t : Rt M) (on : c.Holding hs s t) :
    (sim c hs).TestRel (land c.act) (Source.condition T call cond s)
      (CRun.condition T call' cond t) := by
  cases cond with
  | none => exact .val on
  | some e =>
    have same := eval_at agree (truth T e) s t on
    simp only [Source.condition, CRun.condition]
    generalize Source.eval call (truth T e) s = a at same ⊢
    generalize CRun.eval call' (truth T e) t = a' at same ⊢
    cases same with
    | ret on => exact .val on
    | @raise s y t left => exact .abort (land_rel hs .callee s y t (.inl rfl) left)
    | exit same => exact .abort (.abort ⟨rfl, same⟩)
    | stuck same => exact .abort (.abort ⟨rfl, same⟩)
    | timeout same => exact .timeout same
    | barred => exact .free rfl
    | overflow => exact .dead fun _ => .dead rfl

theorem asmStmt_rel (a : AsmBlock) (s : State M) (t : Rt M) (on : c.Holding hs s t) :
    (sim c hs).Rel (Source.asmStmt T a s) (CRun.asmStmt T c.act a t) := by
  unfold Source.asmStmt CRun.asmStmt
  rw [on.same.1]
  have later := on.setMem (T.asm a s.m).1
  split
  · exact land_rel hs .callee _ _ _ (.inl rfl) later.unwind
  · exact .next later

theorem returnStmt_rel (agree : CallsAgree call call') (early : rules.early = true)
    (e : Option Expr) (s : State M) (t : Rt M) (on : c.Holding hs s t) :
    (sim c hs).Rel (Source.returnStmt T rules call e s)
      (CRun.returnStmt T c.act call' (depth hs) e t) := by
  have popped := Holding.pops on
  cases e with
  | none => exact .ret popped
  | some e =>
    have same := eval_rel agree c.floor
      (fun i low high => (c.older i low high).trans (Nat.lt_succ_self _)) (val T e) s _ popped
    simp only [Source.returnStmt, CRun.returnStmt]
    generalize Source.eval call (val T e) s = a at same ⊢
    generalize CRun.eval call' (val T e) (t.pops (depth hs)) = a' at same ⊢
    cases same with
    | ret on => exact .ret on
    | @raise s y t left =>
      -- The frames of this activation are gone, so the exception leaves it.
      have leaves : land c.act y t = .abort y t := by
        rcases left with ⟨room, rfl, -⟩ | ⟨-, rfl, -⟩
        · have foreign := c.older (c.base - 1) (by omega) (by omega)
          simp only [land]
          rw [if_neg (by omega)]
        · rfl
      simp only [early, if_true, leaves]
      exact .abort ⟨handled_escape hs, left⟩
    | exit same => exact .abort ⟨rfl, same⟩
    | stuck same => exact .abort ⟨rfl, same⟩
    | timeout same => exact .timeout same
    | barred => exact .free rfl
    | overflow => exact .dead rfl

/-- A `throw` statement whose nearest handler is a branch. -/
theorem localThrow_rel (agree : CallsAgree call call') (thrown : Origin) (args : Expr) (n : Nat)
    (s : State M) (t : Rt M) (on : c.Holding (⟨n, false⟩ :: hs) s t) :
    (sim c (⟨n, false⟩ :: hs)).Rel (throwStmt T thrown call true args s)
      (localThrow T c.act call' args n t) := by
  have same := eval_at agree (firstArg T args) s t on
  simp only [throwStmt, localThrow, if_true]
  generalize Source.eval call (firstArg T args) s = a at same ⊢
  generalize CRun.eval call' (firstArg T args) t = a' at same ⊢
  cases same with
  | @ret v s' t' later =>
    simp only [later.same.1]
    apply Sim.Rel.caught
    have holds : c.Holding hs _ _ := later.setMem (T.setExcept v s'.m)
    exact ⟨.direct, rfl, .inl ⟨rfl, rfl, holds⟩⟩
  | @raise s y t left => exact land_rel _ .callee s y t (.inl rfl) left
  | exit same => exact .abort ⟨rfl, same⟩
  | stuck same => exact .abort ⟨rfl, same⟩
  | timeout same => exact .timeout same
  | barred => exact .free rfl
  | overflow => exact .dead rfl

theorem isThrowCall_some {e as : Expr} (found : isThrowCall e = some as) :
    ∃ ty nfixed, e = .call ty "throw" as nfixed := by
  cases e with
  | call ty func args nfixed =>
    simp only [isThrowCall] at found
    by_cases named : isThrow func = true
    · rw [if_pos named] at found
      cases found
      have name : func = "throw" := by simpa [isThrow] using named
      exact ⟨ty, nfixed, by rw [name]⟩
    · rw [if_neg named] at found
      cases found
  | _ => cases found

theorem eval_call (call' : COracle M) (ty : Ty) (func : String) (as : Expr) (nfixed : Nat)
    (t : Rt M) :
    CRun.eval call' (val T (.call ty func as nfixed)) t =
      match CRun.eval call' (args T as) t with
      | .ret vs t' => call' (.name func) vs t'
      | .abort x t' => .abort x t'
      | .timeout t' => .timeout t' := by
  unfold CRun.eval
  simp only [val]
  rw [Comp.run_bind c_lawful]
  generalize Comp.run Rt.m Rt.setMem CStop.stuck call' (args T as t.m) t = a
  cases a with
  | ret vs t' =>
    simp only [Comp.run]
    have unchanged : t'.setMem t'.m = t' := rfl
    rw [unchanged]
    cases call' (.name func) vs t' <;> rfl
  | abort x t' => rfl
  | timeout t' => rfl

theorem throwCall_rel (agree : CallsAgree call call') {thrown : Origin}
    (visible : thrown ≠ .escape) (near : nearest hs = false) (e as : Expr)
    (isThrow : isThrowCall e = some as) (s : State M) (t : Rt M) (on : c.Holding hs s t) :
    (sim c hs).Rel (throwStmt T thrown call false as s)
      (CRun.perform c.act (CRun.eval call' (val T e) t)) := by
  have floor := c.floor
  obtain ⟨ty, nfixed, rfl⟩ := isThrowCall_some isThrow
  have same := eval_at agree (args T as) s t on
  rw [eval_call]
  simp only [throwStmt, Bool.false_eq_true, if_false]
  generalize Source.eval call (args T as) s = a at same ⊢
  generalize CRun.eval call' (args T as) t = a' at same ⊢
  cases same with
  | @ret vs s' t' later =>
    have once := agree _ _ _ (by omega) (layout_older hs) (.name "throw") vs s' t' later
    simp only
    generalize call (.name "throw") vs s' = b at once ⊢
    generalize call' (.name "throw") vs t' = b' at once ⊢
    cases once with
    | ret on => exact .next on
    | @raise s y t left => exact land_rel hs thrown s y t (.inr ⟨near, visible⟩) left
    | exit same => exact .abort ⟨rfl, same⟩
    | stuck same => exact .abort ⟨rfl, same⟩
    | timeout same => exact .timeout same
    | barred => exact .free rfl
    | @overflow b t =>
      exact .dead rfl
  | @raise s y t left => exact land_rel hs .callee s y t (.inl rfl) left
  | exit same => exact .abort ⟨rfl, same⟩
  | stuck same => exact .abort ⟨rfl, same⟩
  | timeout same => exact .timeout same
  | barred => exact .free rfl
  | overflow => exact .dead rfl

end Leaves

section Tries

variable {c : Activation} {hs : List CHandler} {T : Target M} {rules : Rules}

def rethrowAt : List CHandler → Rethrow
  | h :: _ => if h.dynamic then .throw else .goto h.label
  | [] => .throw

theorem emitRethrow_eq (g : CGen) : emitRethrow g = rethrowAt g.handlers := by
  unfold emitRethrow rethrowAt
  rfl

theorem On.note {k : Int} {fr : Int → Frame} {acts : Nat} {t : Rt M} (e : Event)
    (on : On k fr acts s t) : On k fr acts (s.note e) (t.note e) :=
  ⟨⟨on.same.1, by simp only [State.note, Rt.note, on.same.2]⟩, on.ntry, on.frames, on.acts⟩

theorem Unwound.reach {k : Int} {fr : Int → Frame} {acts : Nat} {y : CStop} {t : Rt M}
    (mode : TryMode) (o : Origin) (left : Unwound k fr acts s y t) :
    Unwound k fr acts (s.reach mode o) y t := by
  rcases left with ⟨room, named, on⟩ | ⟨empty, named, same⟩
  · exact .inl ⟨room, named, on.same, on.ntry, on.frames, on.acts⟩
  · exact .inr ⟨empty, named, same⟩

theorem caught_reach {o : Origin} {l : CLabel} {t : Rt M} (mode : TryMode) (o' : Origin)
    (taken : c.Caught hs o s l t) : c.Caught hs o (s.reach mode o') l t := by
  induction hs with
  | nil => exact taken
  | cons h hs ih =>
    unfold Activation.Caught at taken ⊢
    split
    · rename_i dynamic
      rw [if_pos dynamic] at taken
      obtain ⟨visible, named, on⟩ := taken
      exact ⟨visible, named, on.same, on.ntry, on.frames, on.acts⟩
    · rename_i dynamic
      rw [if_neg dynamic] at taken
      rcases taken with ⟨direct, named, on⟩ | ⟨missed, deeper⟩
      · exact .inl ⟨direct, named, on.same, on.ntry, on.frames, on.acts⟩
      · exact .inr ⟨missed, ih deeper⟩

theorem finish_rel (same : (sim c hs).Rel o o') :
    (sim c hs).Rel (finish T o) (rethrow T c.act (rethrowAt hs) o') := by
  apply Sim.after_rel same
  intro s t on
  have holds : c.Holding hs s t := on
  rw [holds.same.1]
  by_cases clear : T.catchExcept s.m = 0
  · rw [if_pos clear, if_pos clear]
    have noted : c.Holding hs (s.note (.leave true)) (t.note (.leave true)) := holds.note _
    have thrown : (t.note (.leave true)).setMem (T.setExcept (T.exceptCh (t.note (.leave true)).m)
        (t.note (.leave true)).m) = t.note (.leave true) := by
      have unchanged := T.setExcept_same s.m clear
      have mem : (t.note (.leave true)).m = s.m := holds.same.1
      rw [mem, unchanged]
      simp only [Rt.setMem, ← mem]
    cases hs with
    | nil =>
      simp only [rethrowAt, thrown]
      exact land_rel [] .rethrow _ _ _ (.inr ⟨rfl, by decide⟩) noted.unwind
    | cons h hs =>
      cases dynamic : h.dynamic with
      | true =>
        simp only [rethrowAt, dynamic, if_true, thrown]
        exact land_rel (h :: hs) .rethrow _ _ _
          (.inr ⟨by simp [nearest, dynamic], by decide⟩) noted.unwind
      | false =>
        simp only [rethrowAt, dynamic, Bool.false_eq_true, if_false]
        apply Sim.Rel.caught
        refine ⟨.rethrow, rfl, ?_⟩
        simp only [Activation.Caught, dynamic, Bool.false_eq_true, if_false]
        refine .inl ⟨rfl, trivial, noted.same, ?_, ?_, noted.acts⟩
        · rw [noted.ntry, depth_local hs dynamic]
        · intro i low high
          have frame := noted.frames i low (by rw [depth_local hs dynamic]; exact high)
          rwa [layout_local hs dynamic] at frame
  · rw [if_neg clear, if_neg clear]
    exact .next (holds.note _)

def Within (hs : List CHandler) (exceptLabel setjmps : Nat) : Prop :=
  ∀ h ∈ hs, if h.dynamic then h.label ≤ setjmps else h.label ≤ exceptLabel

/-- No exception jumps to a label that is newer than all handlers. -/
theorem caught_old {n k : Nat} (within : Within hs n k) {o : Origin} {l : CLabel} {t : Rt M}
    (caught : c.Caught hs o s l t) :
    (∃ m, l = .landing m ∧ m ≤ k) ∨ (∃ m, l = .catchL m ∧ m ≤ n) := by
  induction hs with
  | nil => cases caught
  | cons h hs ih =>
    have bound := within h List.mem_cons_self
    cases dynamic : h.dynamic with
    | true =>
      simp only [Activation.Caught, dynamic, if_true] at caught bound
      exact .inl ⟨h.label, caught.2.1, bound⟩
    | false =>
      simp only [Activation.Caught, dynamic, Bool.false_eq_true, if_false] at caught bound
      rcases caught with ⟨-, same, -⟩ | ⟨-, deeper⟩
      · exact .inr ⟨h.label, same, bound⟩
      · exact ih (fun h' member => within h' (List.mem_cons_of_mem h member)) deeper

variable {mode : TryMode} {els : State M → Outcome M}

/-- A statement in the place of the body of a `try` without a handler. -/
theorem bare_rel {gate : Bool} (same : (sim c hs).Rel o o') :
    (sim c hs).Rel (receive T mode .none els (guarded gate has o)) o' := by
  cases same with
  | next on => exact .next on
  | ret on => exact .ret on
  | timeout same => exact .timeout same
  | dead ended => exact .dead ended
  | @jump l s t _ on =>
    simp only [guarded]
    by_cases barred : (gate && !has l) = true
    · rw [if_pos barred]
      exact .free rfl
    · rw [if_neg barred]
      exact .jump rfl on
  | @abort x s y t ended =>
    cases x with
    | raise o =>
      simp only [guarded, receive, catches, Bool.false_eq_true, if_false]
      by_cases escape : o = .escape
      · rw [if_pos escape]
        subst escape
        exact .abort ended
      · rw [if_neg escape]
        exact .abort ⟨ended.1, ended.2.reach mode o⟩
    | exit => exact .abort ended
    | stuck => exact .abort ended
    | barred => exact .free rfl
  | @caught x s l t taken =>
    obtain ⟨o, rfl, taken⟩ := taken
    simp only [guarded, receive, catches, Bool.false_eq_true, if_false]
    by_cases escape : o = .escape
    · rw [if_pos escape]
      subst escape
      exact .caught ⟨.escape, rfl, taken⟩
    · rw [if_neg escape]
      exact .caught ⟨o, rfl, caught_reach mode o taken⟩
  | @free x s o any =>
    cases any
    exact .free rfl

theorem entering_rel {saved : M} {els' : Rt M → COut M}
    (catchRel : ∀ s t, c.Holding hs s t → (sim c hs).Rel (els s) (els' t)) (s : State M) (t : Rt M)
    (on : c.Holding hs s t) : (sim c hs).Rel (entering T rules mode saved els s) (els' t) := by
  unfold entering
  split
  · exact .free rfl
  · exact catchRel s t on

/-- The jump out of the body of a `try` with a branch. -/
theorem localTry_rel {gate : Bool} {n k : Nat} (within : Within hs n k)
    {els' : Entry CLabel → Rt M → COut M}
    (catchRel : ∀ s t, c.Holding hs s t → (sim c hs).Rel (els s) (els' .run t))
    (same : (sim c (⟨n + 1, false⟩ :: hs)).Rel o o') :
    (sim c hs).Rel (receive T mode .branch els (guarded gate has o))
      (taking (.catchL (n + 1)) (catchBlock T c.act els' (rethrowAt hs)) o') := by
  cases same with
  | next on => exact .next on
  | ret on => exact .ret on
  | timeout same => exact .timeout same
  | dead ended => exact .dead ended
  | @jump l s t _ on =>
    simp only [guarded, sim]
    by_cases barred : (gate && !has l) = true
    · rw [if_pos barred]
      exact .free rfl
    · rw [if_neg barred]
      exact .jump rfl on
  | @abort x s y t ended =>
    cases x with
    | raise o =>
      obtain ⟨missed, left⟩ := ended
      simp only [handled, Bool.false_eq_true, if_false, Bool.or_eq_false_iff] at missed
      simp only [guarded, receive]
      by_cases escape : o = .escape
      · rw [if_pos escape]
        subst escape
        exact .abort ⟨missed.2, left⟩
      · rw [if_neg escape, if_neg (by simp [missed.1])]
        exact .abort ⟨missed.2, left.reach mode o⟩
    | exit => exact .abort ended
    | stuck => exact .abort ended
    | barred => exact .free rfl
  | @caught x s l t taken =>
    obtain ⟨o, rfl, taken⟩ := taken
    simp only [Activation.Caught, Bool.false_eq_true, if_false] at taken
    rcases taken with ⟨direct, rfl, holds⟩ | ⟨missed, deeper⟩
    · have visible : o ≠ .escape := by
        rintro rfl
        cases direct
      simp only [guarded, receive, if_neg visible, direct, if_true, taking, catchBlock]
      apply finish_rel
      rw [holds.same.1]
      apply catchRel
      exact ⟨⟨holds.same.1, by simp [State.note, Rt.note, State.reach, holds.same.2]⟩,
        holds.ntry, holds.frames, holds.acts⟩
    · have other : l ≠ .catchL (n + 1) := by
        rcases caught_old within deeper with ⟨m, rfl, -⟩ | ⟨m, rfl, old⟩
        · simp
        · simp only [ne_eq, CLabel.catchL.injEq]
          omega
      simp only [guarded, receive, taking, if_neg other]
      by_cases escape : o = .escape
      · rw [if_pos escape]
        subst escape
        exact .caught ⟨.escape, rfl, deeper⟩
      · rw [if_neg escape, if_neg (by simp [missed])]
        exact .caught ⟨o, rfl, caught_reach mode o deeper⟩
  | @free x s o any =>
    cases any
    exact .free rfl

/-- The jump out of the body of a `try` with a frame of the handler stack. No
jump to a label of the program leaves the body, since the mode is gated. -/
theorem dynamicTry_rel {site : Nat} {els' : Entry CLabel → Rt M → COut M}
    (catchRel : ∀ s t, c.Holding hs s t → (sim c hs).Rel (els s) (els' .run t))
    (escapes : ∀ l s, o = .jump l s → has l = false) (same : (sim c (⟨site, true⟩ :: hs)).Rel o o') :
    (sim c hs).Rel (receive T mode .dynamic els (guarded true has o))
      (taking (.landing site) (catchBlock T c.act els' (rethrowAt hs))
        (Flow.after o' fun t => .next t.pop)) := by
  cases same with
  | next on => exact .next (Holding.pop on)
  | ret on => exact .ret on
  | timeout same => exact .timeout same
  | dead ended => exact .dead ended
  | @jump l s t _ on =>
    simp only [guarded, escapes l s rfl, Bool.not_false, Bool.and_self, if_true]
    exact .free rfl
  | @abort x s y t ended =>
    cases x with
    | raise o =>
      obtain ⟨missed, left⟩ := ended
      have escape : o = .escape := by simpa [handled] using missed
      simp only [guarded, receive, if_pos escape]
      exact .abort ⟨handled_escape hs, left⟩
    | exit => exact .abort ended
    | stuck => exact .abort ended
    | barred => exact .free rfl
  | @caught x s l t taken =>
    obtain ⟨o, rfl, taken⟩ := taken
    simp only [Activation.Caught, if_true] at taken
    obtain ⟨visible, rfl, holds⟩ := taken
    have received : catches .dynamic o = true := by simpa [catches] using visible
    simp only [guarded, receive, if_neg visible, received, if_true, Flow.after, taking,
      catchBlock]
    apply finish_rel
    rw [holds.same.1]
    apply catchRel
    exact ⟨⟨holds.same.1, by simp [State.note, Rt.note, State.reach, holds.same.2]⟩,
      holds.ntry, holds.frames, holds.acts⟩
  | @free x s o any =>
    cases any
    exact .free rfl

end Tries

/-- What the generator says about the handlers around a place. -/
structure Fits (g : CGen) (hs : List CHandler) : Prop where
  handlers : g.handlers = hs
  tryDepth : g.tryDepth = depth hs
  within : Within hs g.exceptLabel g.setjmps

theorem Fits.start : Fits {} [] := ⟨rfl, rfl, fun h member => by cases member⟩

theorem Fits.later {h : CGen} {hs : List CHandler} (fits : Fits g hs) (balanced : Balanced g h) :
    Fits h hs where
  handlers := balanced.handlers.trans fits.handlers
  tryDepth := balanced.tryDepth.trans fits.tryDepth
  within := by
    intro handler member
    have bound := fits.within handler member
    have labels := balanced.exceptLabel
    have sites := balanced.setjmps
    split at bound
    · rename_i dynamic
      rw [if_pos dynamic]
      omega
    · rename_i dynamic
      rw [if_neg dynamic]
      omega

theorem Fits.enterLocal {hs : List CHandler} (fits : Fits g hs) :
    Fits g.enterLocal (⟨g.exceptLabel + 1, false⟩ :: hs) where
  handlers := congrArg _ fits.handlers
  tryDepth := fits.tryDepth.trans (depth_local hs rfl).symm
  within := by
    intro handler member
    rcases List.mem_cons.mp member with rfl | old
    · exact Nat.le_refl _
    have bound := fits.within handler old
    split at bound
    · rename_i dynamic
      rw [if_pos dynamic]
      exact bound
    · rename_i dynamic
      rw [if_neg dynamic]
      exact bound.trans (Nat.le_succ _)

theorem Fits.enterDynamic {hs : List CHandler} (fits : Fits g hs) :
    Fits g.enterDynamic (⟨g.setjmps + 1, true⟩ :: hs) where
  handlers := congrArg _ fits.handlers
  tryDepth := by
    show g.tryDepth + 1 = _
    rw [fits.tryDepth]
    rfl
  within := by
    intro handler member
    rcases List.mem_cons.mp member with rfl | old
    · exact Nat.le_refl _
    have bound := fits.within handler old
    split at bound
    · rename_i dynamic
      rw [if_pos dynamic]
      exact bound.trans (Nat.le_succ _)
    · rename_i dynamic
      rw [if_neg dynamic]
      exact bound

section Statements

variable {c : Activation} {T : Target M} {rules : Rules} {thrown : Origin}
  {live : String → Bool} {call : Oracle M} {call' : COracle M} {fuel : Nat}

theorem region_escapes {f : Entry String → State M → Outcome M} {fuel : Nat} {e : Entry String}
    {s' : State M} {l : String} (jumps : Flow.region has f fuel e s = .jump l s') :
    has l = false := by
  induction fuel generalizing e s with
  | zero =>
    unfold Flow.region at jumps
    cases once : f e s with
    | jump k t =>
      simp only [once] at jumps
      by_cases inside : has k = true
      · rw [if_pos inside] at jumps
        cases jumps
      · rw [if_neg inside] at jumps
        cases jumps
        simpa using inside
    | _ => simp [once] at jumps
  | succ fuel ih =>
    unfold Flow.region at jumps
    cases once : f e s with
    | jump k t =>
      simp only [once] at jumps
      by_cases inside : has k = true
      · rw [if_pos inside] at jumps
        exact ih jumps
      · rw [if_neg inside] at jumps
        cases jumps
        simpa using inside
    | _ => simp [once] at jumps

theorem run_escapes (stmt : Stmt) {near : Bool} {e : Entry String} {s' : State M} {l : String}
    (jumps : Source.run T rules thrown live call fuel near stmt e s = .jump l s') :
    stmt.keeps rules.pick l = false := by
  induction stmt with
  | label k => simp [Source.run] at jumps
  | block body ih => exact ih jumps
  | seq _ _ => exact region_escapes jumps
  | ifStmt _ _ _ => exact region_escapes jumps
  | whileStmt _ _ => exact region_escapes jumps
  | doWhile _ _ => exact region_escapes jumps
  | forStmt _ _ _ _ => exact region_escapes jumps
  | tryStmt _ _ _ => exact region_escapes jumps
  | _ => rfl

theorem emit_has (pick : TryMode → TryMode) (g : CGen) (stmt : Stmt) (l : String) :
    (emitStmt pick g stmt).1.has (.user l) = stmt.keeps pick l := by
  unfold CStmt.has Stmt.keeps
  apply Bool.eq_iff_iff.mpr
  rw [List.contains_iff_mem, List.contains_iff_mem]
  exact (emit_placed pick stmt g).user l

/-- The labels of a statement, in the tree and as emitted. -/
theorem agrees (M : Type) (c : Activation) (pick : TryMode → TryMode) {hs : List CHandler}
    (fits : Fits g hs) (stmt : Stmt) :
    (sim c hs : Sim String CLabel Word Stop CStop (State M) (Rt M)).Agrees (stmt.keeps pick) (emitStmt pick g stmt).1.has where
  lab l _ := emit_has pick g stmt l
  caught x s l t := by
    rintro ⟨o, rfl, taken⟩
    have placed := emit_placed pick stmt g
    unfold CStmt.has
    rw [← Bool.not_eq_true, List.contains_iff_mem]
    intro member
    rcases caught_old fits.within taken with ⟨m, rfl, old⟩ | ⟨m, rfl, old⟩
    · have := placed.landing m member
      omega
    · have := placed.catchL m member
      omega

structure Lowering (rules : Rules) : Prop where
  early : rules.early = true
  gate : ∀ mode, rules.pick mode = .dynamic → rules.gate mode = true

theorem run_rel (agree : CallsAgree call call') (lowering : Lowering rules)
    (visible : thrown ≠ .escape) (stmt : Stmt) (g : CGen) (hs : List CHandler) (fits : Fits g hs)
    (e : Entry String) (s : State M) (t : Rt M) (within : e.Within (stmt.keeps rules.pick))
    (on : c.Holding hs s t) :
    (sim c hs).Rel (Source.run T rules thrown live call fuel (nearest hs) stmt e s)
      (CRun.run T c.act call' fuel (emitStmt rules.pick g stmt).1 (e.map .user) t) := by
  have clock : ∀ (hs : List CHandler) (s : State M) (t : Rt M),
      c.Holding hs s t → Same s t := fun _ _ _ on => on.same
  induction stmt generalizing g hs e s t with
  | null =>
    cases e with
    | run => exact .next on
    | seek l => cases within
  | nop =>
    cases e with
    | run => exact .next on
    | seek l => cases within
  | goto l =>
    cases e with
    | run =>
      simp only [Source.run, Flow.leaf]
      split
      · exact .jump rfl on
      · exact .free rfl
    | seek l => cases within
  | label l => exact .next on
  | returnStmt lhs =>
    cases e with
    | run =>
      have same := returnStmt_rel (T := T) agree lowering.early lhs s t on
      rw [← fits.tryDepth] at same
      exact same
    | seek l => cases within
  | asmStmt a =>
    cases e with
    | run => exact asmStmt_rel a s t on
    | seek l => cases within
  | exprStmt expr =>
    cases e with
    | seek l => cases within
    | run =>
      simp only [Source.run, Flow.leaf, emitStmt]
      cases thrower : isThrowCall expr with
      | none => exact perform_rel (eval_at agree _ s t on)
      | some as =>
        simp only [emitThrow, fits.handlers]
        cases hs with
        | nil => exact throwCall_rel agree visible rfl expr as thrower s t on
        | cons h hs =>
          cases dynamic : h.dynamic with
          | true =>
            simp only [nearest, dynamic, Bool.not_true, if_true]
            exact throwCall_rel agree visible (by simp [nearest, dynamic]) expr as
              thrower s t on
          | false =>
            simp only [nearest, dynamic, Bool.not_false, Bool.false_eq_true, if_false]
            obtain ⟨label, _⟩ := h
            cases dynamic
            exact localThrow_rel agree thrown as label s t on
  | block body ih => exact ih g hs fits e s t within on
  | seq first rest ihFirst ihRest =>
    have later := fits.later (emit_balanced rules.pick first g)
    apply Sim.region_rel (clock hs) (agrees M c rules.pick fits (.seq first rest)) _ fuel e s t within on
    intro e s t within on
    rw [Stmt.keeps_seq] at within
    exact Sim.andThen_rel (agrees M c rules.pick fits first) (agrees M c rules.pick later rest)
      (ihFirst g hs fits) (ihRest _ hs later) e s t within on
  | ifStmt cond thn els ihThn ihEls =>
    have later := fits.later (emit_balanced rules.pick thn g)
    apply Sim.region_rel (clock hs) (agrees M c rules.pick fits (.ifStmt cond thn els)) _ fuel e s t
      within on
    intro e s t within on
    rw [Stmt.keeps_if] at within
    exact Sim.branch_rel (fun l _ => emit_has rules.pick g thn l) (condition_rel agree (some cond))
      (ihThn g hs fits) (ihEls _ hs later) e s t within on
  | whileStmt cond thn ih =>
    apply Sim.region_rel (clock hs) (agrees M c rules.pick fits (.whileStmt cond thn)) _ fuel e s t
      within on
    exact Sim.whileLoop_rel (clock hs) (condition_rel agree (some cond)) (ih g hs fits) fuel
  | doWhile thn cond ih =>
    apply Sim.region_rel (clock hs) (agrees M c rules.pick fits (.doWhile thn cond)) _ fuel e s t
      within on
    exact Sim.doLoop_rel (clock hs) (condition_rel agree (some cond)) (ih g hs fits) fuel
  | forStmt init cond inc thn ihInit ihInc ihThn =>
    have fitsThn := fits.later (emit_balanced rules.pick init g)
    have fitsInc := fitsThn.later (emit_balanced rules.pick thn _)
    have inner := agrees M c rules.pick fitsThn (.seq thn inc)
    apply Sim.region_rel (clock hs) (agrees M c rules.pick fits (.forStmt init cond inc thn)) _ fuel
      e s t within on
    intro e s t within on
    rw [Stmt.keeps_for] at within
    apply Sim.andThen_rel (agrees M c rules.pick fits init) inner (ihInit g hs fits) _ e s t within on
    apply Sim.region_rel (clock hs) inner
    apply Sim.whileLoop_rel (clock hs) (condition_rel agree cond)
    apply Sim.region_rel (clock hs) inner
    intro e s t within on
    rw [Stmt.keeps_seq] at within
    exact Sim.andThen_rel (agrees M c rules.pick fitsThn thn) (agrees M c rules.pick fitsInc inc)
      (ihThn _ hs fitsThn) (ihInc _ hs fitsInc) e s t within on
  | tryStmt mode thn els ihThn ihEls =>
    have labels := agrees M c rules.pick fits (.tryStmt mode thn els)
    cases picked : rules.pick mode with
    | none =>
      simp only [emitStmt, picked] at labels ⊢
      apply Sim.region_rel (clock hs) labels _ fuel e s t within on
      intro e s t within on
      have body := ihThn g hs fits
      cases e with
      | run =>
        have once := body .run s t trivial on
        simp only [attempt, picked, nearer]
        exact bare_rel once
      | seek l =>
        have inside : thn.keeps rules.pick l = true := by
          have kept : (Stmt.tryStmt mode thn els).keeps rules.pick l = true := within
          simpa [Stmt.keeps_try, picked] using kept
        simp only [attempt, picked, nearer, inside, if_true]
        split
        · exact .free rfl
        · exact bare_rel (body (.seek l) s t inside on)
    | branch =>
      simp only [emitStmt, picked] at labels ⊢
      have fitsEls := fits.later (emit_balanced rules.pick thn g.enterLocal).popHandler
      have body := ihThn g.enterLocal _ fits.enterLocal
      have catchRel := fun e s t => ihEls _ hs fitsEls e s t
      rw [emitRethrow_eq, fitsEls.handlers] at labels ⊢
      apply Sim.region_rel (clock hs) labels _ fuel e s t within on
      intro e s t within on
      have holds : c.Holding _ s t := Holding.branch (g.exceptLabel + 1) on
      cases e with
      | run =>
        simp only [attempt, picked, nearer]
        exact localTry_rel fits.within (entering_rel fun s t => catchRel .run s t trivial)
          (body .run s t trivial holds)
      | seek l =>
        have kept : (Stmt.tryStmt mode thn els).keeps rules.pick l = true := within
        have has := emit_has rules.pick g.enterLocal thn l
        simp only [attempt, picked, nearer, Entry.map, localTry, sim_lab, has]
        by_cases inside : thn.keeps rules.pick l = true
        · rw [if_pos inside, if_pos inside]
          split
          · exact .free rfl
          · exact localTry_rel fits.within (entering_rel fun s t => catchRel .run s t trivial)
              (body (.seek l) s t inside holds)
        · rw [if_neg inside, if_neg inside,
            if_neg (show CLabel.user l ≠ .catchL (g.exceptLabel + 1) by simp),
            if_neg (show CLabel.user l ≠ .tryEnd (g.exceptLabel + 1) by simp)]
          split
          · exact .free rfl
          · have later : els.keeps rules.pick l = true := by
              simpa [Stmt.keeps_try, picked, inside] using kept
            exact finish_rel (catchRel (.seek l) s t later on)
    | dynamic =>
      simp only [emitStmt, picked] at labels ⊢
      have gated := lowering.gate mode picked
      have fitsEls := fits.later (emit_balanced rules.pick thn g.enterDynamic).leaveDynamic
      have body := ihThn g.enterDynamic _ fits.enterDynamic
      have catchRel := fun e s t => ihEls _ hs fitsEls e s t
      rw [emitRethrow_eq, fitsEls.handlers] at labels ⊢
      apply Sim.region_rel (clock hs) labels _ fuel e s t within on
      intro e s t within on
      cases e with
      | run =>
        simp only [attempt, picked, nearer, gated, Entry.map, dynamicTry]
        split
        · exact .dead rfl
        · exact dynamicTry_rel (entering_rel fun s t => catchRel .run s t trivial)
            (fun l s' jumps => run_escapes thn jumps)
            (body .run s _ trivial (Holding.push (g.setjmps + 1) on))
      | seek l =>
        have kept : (Stmt.tryStmt mode thn els).keeps rules.pick l = true := within
        have has := emit_has rules.pick g.enterDynamic thn l
        simp only [attempt, picked, nearer, gated, Entry.map, dynamicTry, sim_lab, has]
        by_cases inside : thn.keeps rules.pick l = true
        · rw [if_pos inside]
          exact .free rfl
        · rw [if_neg inside, if_neg inside,
            if_neg (show CLabel.user l ≠ .landing (g.setjmps + 1) by simp)]
          split
          · exact .free rfl
          · have later : els.keeps rules.pick l = true := by
              simpa [Stmt.keeps_try, picked, inside] using kept
            exact finish_rel (catchRel (.seek l) s t later on)

end Statements

section Calls

variable {T : Target M} {rules : Rules} {prog : Program} {k : Int} {fr : Int → Frame}
  {acts : Nat}

theorem AnsRel.mono {acts' : Nat} (fewer : acts' ≤ acts) {V : Type}
    {a : Answer V Stop (State M)} {a' : Answer V CStop (Rt M)} (same : AnsRel k fr acts a a') :
    AnsRel k fr acts' a a' := by
  have weaker : ∀ {k : Int} {s : State M} {t : Rt M}, On k fr acts s t → On k fr acts' s t :=
    fun on => ⟨on.same, on.ntry, on.frames, fewer.trans on.acts⟩
  cases same with
  | ret on => exact .ret (weaker on)
  | raise left =>
    apply AnsRel.raise
    rcases left with ⟨room, named, on⟩ | none
    · exact .inl ⟨room, named, weaker on⟩
    · exact .inr none
  | exit same => exact .exit same
  | stuck same => exact .stuck same
  | timeout same => exact .timeout same
  | barred => exact .barred
  | overflow => exact .overflow

theorem raised_rel {V : Type} {t : Rt M} (on : On k fr acts s t) :
    AnsRel k fr acts (.abort (.raise .callee) s) (CRun.raised t : Answer V CStop (Rt M)) :=
  .raise on.unwind

theorem external_rel (func : String) (as : List Word) (s : State M) (t : Rt M)
    (on : On k fr acts s t) :
    AnsRel k fr acts (Source.external T func as s) (CRun.external T func as t) := by
  unfold Source.external CRun.external
  rw [on.same.1]
  split
  · exact raised_rel (on.setMem _)
  · cases T.ext func as s.m with
    | ret v m => exact .ret (on.setMem m)
    | raise m => exact raised_rel (on.setMem m)
    | exit m => exact .exit (on.setMem m).same

theorem foreign_rel (f : Word) (as : List Word) (s : State M) (t : Rt M)
    (on : On k fr acts s t) :
    AnsRel k fr acts (Source.foreign T f as s) (CRun.foreign T f as t) := by
  unfold Source.foreign CRun.foreign
  rw [on.same.1]
  cases T.foreign f as s.m with
  | ret v m => exact .ret (on.setMem m)
  | raise m => exact raised_rel (on.setMem m)
  | exit m => exact .exit (on.setMem m).same

theorem close_rel {c : Activation} (same : (sim c []).Rel o o') :
    AnsRel c.base c.bottom (c.act + 1) (Source.close T o) (CRun.close T o') := by
  cases same with
  | @next s t on =>
    have holds : On c.base c.bottom (c.act + 1) s t := by
      simpa [Activation.Holding, depth, Activation.layout, sim] using on
    simp only [Source.close, CRun.close, holds.same.1]
    exact .ret (holds.setMem _)
  | jump _ on => exact .stuck on.same
  | @ret v s t on =>
    simp only [Source.close, CRun.close]
    have holds : On c.base c.bottom (c.act + 1) s t := on
    rw [holds.same.1]
    exact .ret (holds.setMem _)
  | timeout same => exact .timeout same
  | dead ended =>
    cases ended
    exact .overflow
  | caught taken =>
    obtain ⟨o, -, taken⟩ := taken
    cases taken
  | free any =>
    cases any
    exact .barred
  | @abort x s y t ended =>
    cases x with
    | exit =>
      obtain ⟨rfl, same⟩ := ended
      exact .exit same
    | stuck =>
      obtain ⟨rfl, same⟩ := ended
      exact .stuck same
    | barred => cases ended
    | raise o =>
      rcases ended.2 with ⟨room, rfl, on⟩ | ⟨none, rfl, same⟩
      · simp only [Source.close, CRun.close, on.same.1]
        exact .raise (.inl ⟨room, rfl, on.setMem _⟩)
      · simp only [Source.close, CRun.close, same.1]
        exact .raise (.inr ⟨none, rfl, rfl, same.2⟩)

theorem throwOrigin_visible (prog : Program) : throwOrigin prog ≠ .escape := by
  unfold throwOrigin
  split <;> decide

theorem invoke_rel (lowering : Lowering rules) {call : Oracle M} {call' : COracle M}
    (agree : CallsAgree call call') (fuel : Nat) (fn : Func) (body : Stmt) (as : List Word)
    (s : State M) (t : Rt M) (floor : 0 ≤ k) (older : ∀ i, 0 ≤ i → i < k → (fr i).act < acts)
    (on : On k fr acts s t) :
    AnsRel k fr acts (Source.invoke T rules prog call fuel fn body as s)
      (CRun.invoke T rules.pick call' fuel fn body as t) := by
  let c : Activation :=
    { act := t.acts
      base := k
      bottom := fr
      floor := floor
      older := fun i low high => lt_of_lt_of_le (older i low high) on.acts }
  have starts : c.Holding [] (s.setMem (T.enter fn.params fn.locals as s.m))
      { t with m := T.enter fn.params fn.locals as t.m, acts := t.acts + 1 } := by
    refine ⟨⟨?_, on.same.2⟩, ?_, ?_, Nat.le_refl _⟩
    · simp only [State.setMem, on.same.1]
    · simpa [depth] using on.ntry
    · intro i low high
      exact on.frames i low (by simpa [depth] using high)
  have ends : AnsRel k fr (t.acts + 1) (Source.invoke T rules prog call fuel fn body as s)
      (CRun.invoke T rules.pick call' fuel fn body as t) := by
    show AnsRel c.base c.bottom (c.act + 1) _ _
    apply close_rel
    apply Sim.region_rel (fun _ _ on => On.same on) (agrees M c rules.pick Fits.start body) _ fuel
      .run _ _ trivial starts
    exact run_rel agree lowering (throwOrigin_visible prog) body {} [] Fits.start
  exact ends.mono (on.acts.trans (Nat.le_succ _))

theorem answer_rel {body : Func → Stmt → Oracle M} {body' : Func → Stmt → COracle M}
    (bodies : ∀ fn stmt, CallsAgree (body fn stmt) (body' fn stmt)) :
    CallsAgree (Source.answer T prog body) (CRun.answer T prog body') := by
  intro k fr acts floor older f as s t on
  unfold Source.answer CRun.answer
  cases dispatch T prog f with
  | defined fn stmt => exact bodies fn stmt k fr acts floor older f as s t on
  | declared fn => exact external_rel fn.name as s t on
  | foreign a => exact foreign_rel a as s t on
  | unknown => exact .stuck on.same

/-- Calls of the compiled program are answered as calls of the tree. -/
theorem callFuel_rel (lowering : Lowering rules) (fuel : Nat) :
    CallsAgree (Source.callFuel T rules prog fuel) (CRun.callFuel T rules.pick prog fuel) := by
  induction fuel with
  | zero =>
    apply answer_rel
    intro fn stmt k fr acts floor older f as s t on
    exact .timeout on.same
  | succ fuel ih =>
    apply answer_rel
    intro fn stmt k fr acts floor older f as s t on
    exact invoke_rel lowering ih fuel fn stmt as s t floor older on

theorem runProgram_rel (lowering : Lowering rules) (fuel : Nat) (as : List Word) (s : State M)
    (t : Rt M) (floor : 0 ≤ k) (older : ∀ i, 0 ≤ i → i < k → (fr i).act < acts)
    (on : On k fr acts s t) :
    AnsRel k fr acts (Source.runProgram T rules prog fuel as s)
      (CRun.runProgram T rules.pick prog fuel as t) := by
  unfold Source.runProgram CRun.runProgram
  cases prog.startup.body with
  | none => exact .stuck on.same
  | some body =>
    exact invoke_rel lowering (callFuel_rel lowering fuel) fuel _ body as s t floor older on

end Calls

end Aholyc.CSim
